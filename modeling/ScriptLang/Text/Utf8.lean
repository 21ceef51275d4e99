/-!
# Text as bytes

`decode` reads UTF-8.  Where the bytes are no text it says where and how many bytes are wrong: the longest start of a
character that cannot be continued, or one byte that starts none.  Bytes that end inside a character are incomplete.
-/

namespace ScriptLang.Text

/-- Why bytes are no text. -/
inductive ByteFault
  /-- So many bytes from an index on are no start of a character. -/
  | invalid (length index : Nat)
  /-- The bytes end inside the character that starts at an index. -/
  | incomplete (index : Nat)
deriving DecidableEq, Repr

/-- The wording of a fault in bytes. -/
def ByteFault.message : ByteFault → String
  | invalid length index =>
    "invalid utf-8 sequence of " ++ toString length ++ " bytes from index " ++ toString index
  | incomplete index => "incomplete utf-8 byte sequence from index " ++ toString index

/-- What stands at the start of bytes. -/
inductive Lead
  | char (c : Char) (width : Nat)
  | invalid (length : Nat)
  | incomplete
deriving DecidableEq, Repr

/-- The number of further bytes that a first byte asks for, its own payload, and the bounds of the second byte. -/
def leadShape? (b : Nat) : Option (Nat × Nat × Nat × Nat) :=
  if b < 0x80 then some (0, b, 0, 0)
  else if b < 0xc2 then none
  else if b < 0xe0 then some (1, b - 0xc0, 0x80, 0xbf)
  else if b = 0xe0 then some (2, 0, 0xa0, 0xbf)
  else if b = 0xed then some (2, 0xd, 0x80, 0x9f)
  else if b < 0xf0 then some (2, b - 0xe0, 0x80, 0xbf)
  else if b = 0xf0 then some (3, 0, 0x90, 0xbf)
  else if b < 0xf4 then some (3, b - 0xf0, 0x80, 0xbf)
  else if b = 0xf4 then some (3, 4, 0x80, 0x8f)
  else none

/-- Reads so many further bytes of a character of which some were read; the bounds are those of the next byte. -/
def leadFrom (read code : Nat) : Nat → Nat → Nat → List UInt8 → Lead
  | 0, _, _, _ => .char (Char.ofNat code) read
  | _ + 1, _, _, [] => .incomplete
  | n + 1, low, high, b :: bytes =>
    if low ≤ b.toNat && b.toNat ≤ high then
      leadFrom (read + 1) (64 * code + (b.toNat - 0x80)) n 0x80 0xbf bytes
    else .invalid read

/-- The character at the start of bytes, the first of which is given. -/
def lead (b : UInt8) (bytes : List UInt8) : Lead :=
  match leadShape? b.toNat with
  | some (more, code, low, high) => leadFrom 1 code more low high bytes
  | none => .invalid 1

/-- Reads bytes that start at an index; no more characters than bytes. -/
def decodeFrom : Nat → Nat → List UInt8 → Except ByteFault (List Char)
  | _, _, [] => .ok []
  | 0, _, _ => .ok []
  | n + 1, index, b :: bytes =>
    match lead b bytes with
    | .char c width => (decodeFrom n (index + width) ((b :: bytes).drop width)).map (c :: ·)
    | .invalid length => .error (.invalid length index)
    | .incomplete => .error (.incomplete index)

/-- The text of bytes. -/
def decode (bytes : List UInt8) : Except ByteFault String :=
  (decodeFrom bytes.length 0 bytes).map String.ofList

/-- The text of bytes, with a mark for every stretch that is none; no more marks than bytes. -/
def showFrom : Nat → List UInt8 → List Char
  | _, [] => []
  | 0, _ => []
  | n + 1, b :: bytes =>
    match lead b bytes with
    | .char c width => c :: showFrom n ((b :: bytes).drop width)
    | .invalid length => '\ufffd' :: showFrom n ((b :: bytes).drop length)
    | .incomplete => ['\ufffd']

/-- The text of bytes that may be no text. -/
def showBytes (bytes : List UInt8) : String := String.ofList (showFrom bytes.length bytes)

/-- The bytes of a text. -/
def encode (s : String) : List UInt8 := s.toUTF8.toList

end ScriptLang.Text
