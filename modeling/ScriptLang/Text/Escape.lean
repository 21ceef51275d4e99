/-!
# Escapes in strings

Strings keep their escapes until they are printed.  A backslash takes the character after it; what the pair stands for
is `decodeEscape?`.
-/

namespace ScriptLang.Text

/-- The character that a backslash and a character stand for. -/
def decodeEscape? (c : Char) : Option Char :=
  if c = 'n' then some '\n'
  else if c = 't' then some '\t'
  else if c = 'r' then some '\r'
  else if c = '\\' then some '\\'
  else if c = '"' then some '"'
  else if c = '\x27' then some '\x27'
  else if c = 'a' then some '\x07'
  else if c = 'b' then some '\x08'
  else if c = 'f' then some '\x0c'
  else if c = 'v' then some '\x0b'
  else none

/-- Decodes the escapes of a text, or gives the first character that makes none.  A backslash at the end is kept. -/
def unescapeChars : List Char → Except Char (List Char)
  | [] => .ok []
  | '\\' :: c :: s =>
    match decodeEscape? c with
    | some d => (unescapeChars s).map (d :: ·)
    | none => .error c
  | c :: s => (unescapeChars s).map (c :: ·)

/-- Decodes the escapes of a string, or gives the first character that makes none. -/
def unescape (raw : String) : Except Char String := (unescapeChars raw.toList).map String.ofList

end ScriptLang.Text
