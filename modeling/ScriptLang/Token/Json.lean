import ScriptLang.Token

/-!
# Tokens as JSON text

A token is an object with its type, text and line; a literal's type is an object that holds its value.
-/

namespace ScriptLang.Json

/-- The two lower-case hexadecimal digits of a number below 256. -/
def hexPair (n : Nat) : List Char := [Nat.digitChar (n / 16), Nat.digitChar (n % 16)]

/-- A character inside a JSON string: quotes, backslashes and control characters are escaped. -/
def escapeChar (c : Char) : List Char :=
  if c = '"' then ['\\', '"']
  else if c = '\\' then ['\\', '\\']
  else if c = '\n' then ['\\', 'n']
  else if c = '\r' then ['\\', 'r']
  else if c = '\t' then ['\\', 't']
  else if c = '\x08' then ['\\', 'b']
  else if c = '\x0c' then ['\\', 'f']
  else if c.toNat < 32 then ['\\', 'u', '0', '0'] ++ hexPair c.toNat
  else [c]

/-- A JSON string. -/
def string (s : String) : String := String.ofList ('"' :: s.toList.flatMap escapeChar ++ ['"'])

/-- A JSON object of texts that are JSON already. -/
def object (fields : List (String × String)) : String :=
  "\x7b" ++ String.intercalate "," (fields.map fun f => string f.1 ++ ":" ++ f.2) ++ "\x7d"

end ScriptLang.Json

namespace ScriptLang

/-- The type of a token in JSON: its name, or an object from its name to its value. -/
def Kind.toJson (k : Kind) : String :=
  match k with
  | .string raw => Json.object [(k.typeName, Json.string raw)]
  | .number x => Json.object [(k.typeName, Number.json x)]
  | _ => Json.string k.typeName

/-- A token in JSON. -/
def Token.toJson (t : Token) : String :=
  Json.object [("token_type", t.kind.toJson), ("lexeme", Json.string t.lexeme), ("line", toString t.line)]

end ScriptLang
