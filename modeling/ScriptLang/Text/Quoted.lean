import ScriptLang.Text.Hidden

/-!
# Quoted names

A quoted text stands between double quotes, with quotes, backslashes and characters that do not show escaped.
-/

namespace ScriptLang.Text

/-- Hexadecimal digits, lower case. -/
def hex (n : Nat) : List Char := Nat.toDigits 16 n

/-- An escape with the number of a character. -/
def numberEscape (c : Char) : List Char := ['\\', 'u', '\x7b'] ++ hex c.toNat ++ ['\x7d']

/-- A character inside quotes. -/
def quoteChar (c : Char) : List Char :=
  if c = '"' then ['\\', '"']
  else if c = '\\' then ['\\', '\\']
  else if c = '\n' then ['\\', 'n']
  else if c = '\r' then ['\\', 'r']
  else if c = '\t' then ['\\', 't']
  else if c = '\x00' then ['\\', '0']
  else if isHidden c then numberEscape c
  else [c]

/-- A text in quotes. -/
def quote (s : String) : String := String.ofList ('"' :: s.toList.flatMap quoteChar ++ ['"'])

end ScriptLang.Text
