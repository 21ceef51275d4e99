import ScriptLang.Token.Piece

/-!
# The tokens of a source

Each piece of the source that is not blank gives one item: a token, or a fault with its line.  The line of an item is
the line on which its piece ends.  The last item is the token that ends the source.
-/

namespace ScriptLang

/-- One result of reading a source. -/
inductive Item
  | token (t : Token)
  | fault (line : Nat) (cause : LexicalFault)
deriving DecidableEq

namespace Item

/-- The number of line ends in a text. -/
def newlines (s : List Char) : Nat := s.count '\n'

/-- The items of pieces of which the first starts on a line. -/
def ofPieces (line : Nat) : List Piece → List Item
  | [] => [token (Token.endOfFile line)]
  | p :: ps =>
    let last := line + newlines p.text
    match p with
    | .blank _ => ofPieces last ps
    | .token kind text => token ⟨kind, String.ofList text, last⟩ :: ofPieces last ps
    | .fault cause _ => fault last cause :: ofPieces last ps

/-- The items of a source, in order. -/
def ofSource (source : String) : List Item := ofPieces 1 (Piece.ofSource source.toList)

/-- The token an item is, if it is one. -/
def token? : Item → Option Token
  | token t => some t
  | fault _ _ => none

/-- The fault an item is, with its line, if it is one. -/
def fault? : Item → Option (Nat × LexicalFault)
  | token _ => none
  | fault line cause => some (line, cause)

end Item

/-- The tokens of a source, the last of which ends it. -/
def tokensOf (source : String) : List Token := (Item.ofSource source).filterMap Item.token?

/-- The lexical faults of a source, with their lines. -/
def lexicalFaults (source : String) : List (Nat × LexicalFault) := (Item.ofSource source).filterMap Item.fault?

end ScriptLang
