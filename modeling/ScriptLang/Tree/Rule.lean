import ScriptLang.Diagnostic
import ScriptLang.Tree

/-!
# Rules over token lists

A `Rule` reads tokens from a `Cursor`.  It either succeeds, or refuses the token at which it stands, or stops for
want of fuel; in the first two cases it may have reported further faults that did not stop it.  What a rule reports
does not depend on what was reported before: reports are collected by `bind`.
-/

namespace ScriptLang

/-- Where reading stands: the tokens left, and the first label not in use. -/
structure Cursor where
  rest : List Token
  fresh : Label

namespace Cursor

/-- The token at the cursor; past the last token it is the end of the source. -/
def peek (c : Cursor) : Token := c.rest.headD (Token.endOfFile 1)

/-- The cursor behind the token at which it stands. -/
def skip (c : Cursor) : Cursor := { c with rest := c.rest.tail }

end Cursor

/-- What a rule answers. -/
inductive Reply (α : Type)
  | ok (value : α) (next : Cursor) (reports : List (Report SyntaxFault))
  | refused (cause : Report SyntaxFault) (next : Cursor) (reports : List (Report SyntaxFault))
  | outOfFuel

/-- Puts earlier reports before those of an answer. -/
def Reply.after {α : Type} (earlier : List (Report SyntaxFault)) : Reply α → Reply α
  | ok a c reports => ok a c (earlier ++ reports)
  | refused r c reports => refused r c (earlier ++ reports)
  | outOfFuel => outOfFuel

@[simp] theorem Reply.after_nil {α : Type} (r : Reply α) : r.after [] = r := by
  cases r <;> rfl

theorem Reply.after_after {α : Type} (r : Reply α) (first second : List (Report SyntaxFault)) :
    (r.after second).after first = r.after (first ++ second) := by
  cases r <;> simp [after]

/-- A way to read tokens. -/
def Rule (α : Type) : Type := Cursor → Reply α

namespace Rule

variable {α β : Type}

/-- Succeeds without reading. -/
def succeed (a : α) : Rule α := fun c => .ok a c []

/-- One rule, and then a rule that may depend on its result. -/
def andThen (r : Rule α) (f : α → Rule β) : Rule β := fun c =>
  match r c with
  | .ok a next reports => (f a next).after reports
  | .refused cause next reports => .refused cause next reports
  | .outOfFuel => .outOfFuel

instance : Monad Rule where
  pure := succeed
  bind := andThen

theorem pure_andThen (a : α) (f : α → Rule β) : andThen (succeed a) f = f a := by
  funext c
  show (f a c).after [] = f a c
  rw [Reply.after_nil]

theorem andThen_pure (r : Rule α) : andThen r succeed = r := by
  funext c
  unfold andThen succeed
  cases r c <;> simp [Reply.after]

theorem andThen_assoc {γ : Type} (r : Rule α) (f : α → Rule β) (g : β → Rule γ) :
    andThen (andThen r f) g = andThen r fun a => andThen (f a) g := by
  funext c
  unfold andThen
  cases r c with
  | ok a next reports =>
    dsimp only
    cases f a next with
    | ok b last more =>
      show (g b last).after (reports ++ more) = ((g b last).after more).after reports
      rw [Reply.after_after]
    | refused cause last more => rfl
    | outOfFuel => rfl
  | refused cause next reports => rfl
  | outOfFuel => rfl

instance : LawfulMonad Rule := LawfulMonad.mk' Rule
  (fun r => andThen_pure r)
  (fun a f => pure_andThen a f)
  (fun r f g => andThen_assoc r f g)

/-- Stops for want of fuel. -/
def outOfFuel : Rule α := fun _ => .outOfFuel

/-- Refuses the token at the cursor. -/
def refuse (cause : SyntaxFault) : Rule α := fun c => .refused ⟨c.peek, cause⟩ c []

/-- Reports a fault at a token and goes on. -/
def report (anchor : Token) (cause : SyntaxFault) : Rule Unit := fun c => .ok () c [⟨anchor, cause⟩]

/-- The token at the cursor, which is not read. -/
def peek : Rule Token := fun c => .ok c.peek c []

/-- Whether the token at the cursor is of a kind. -/
def nextIs (k : Kind) : Rule Bool := fun c => .ok (c.peek.kind = k) c []

/-- Reads the token at the cursor. -/
def advance : Rule Token := fun c => .ok c.peek c.skip []

/-- Reads the token at the cursor if its kind has a meaning. -/
def acceptBy (meaning : Kind → Option β) : Rule (Option (Token × β)) := fun c =>
  match meaning c.peek.kind with
  | some b => .ok (some (c.peek, b)) c.skip []
  | none => .ok none c []

/-- Reads the token at the cursor if it is of a kind. -/
def accept (k : Kind) : Rule Bool := fun c =>
  if c.peek.kind = k then .ok true c.skip [] else .ok false c []

/-- Reads a token of a kind, or refuses the one that stands there. -/
def expect (k : Kind) (what : Expected) : Rule Token := fun c =>
  if c.peek.kind = k then .ok c.peek c.skip [] else .refused ⟨c.peek, .expected what⟩ c []

/-- A label that no node has. -/
def label : Rule Label := fun c => .ok c.fresh { c with fresh := c.fresh + 1 } []

/-! ## recovery -/

/-- Whether a statement or declaration begins with the keyword. -/
def startsStatement : Keyword → Bool
  | .kwClass | .kwFun | .kwVar | .kwFor | .kwIf | .kwWhile | .kwPrint | .kwReturn => true
  | _ => false

/-- Skips to the next place where a statement may start: behind a semicolon, at a keyword that starts one, or at the
end.  The token before the list is a semicolon or is not. -/
def boundary (behindSemicolon : Bool) : List Token → List Token
  | [] => []
  | t :: ts =>
    if behindSemicolon then t :: ts
    else match t.kind with
      | .eof => t :: ts
      | .keyword k => if startsStatement k then t :: ts else boundary false ts
      | .mark .semicolon => boundary true ts
      | _ => boundary false ts

theorem boundary_suffix (behindSemicolon : Bool) (ts : List Token) : boundary behindSemicolon ts <:+ ts := by
  induction ts generalizing behindSemicolon with
  | nil => exact List.suffix_refl _
  | cons t ts ih =>
    unfold boundary
    split
    · exact List.suffix_refl _
    · split
      · exact List.suffix_refl _
      · split
        · exact List.suffix_refl _
        · exact (ih false).trans (List.suffix_cons t ts)
      · exact (ih true).trans (List.suffix_cons t ts)
      · exact (ih false).trans (List.suffix_cons t ts)

/-- Skips the token that was refused, unless it is the end, and goes on to the next boundary. -/
def synchronize : List Token → List Token
  | [] => []
  | t :: ts =>
    match t.kind with
    | .eof => t :: ts
    | .mark .semicolon => boundary true ts
    | _ => boundary false ts

/-- Turns a refusal into a report and skips to the next boundary. -/
def recover (r : Rule α) : Rule (Option α) := fun c =>
  match r c with
  | .ok a next reports => .ok (some a) next reports
  | .refused cause next reports =>
    .ok none { next with rest := synchronize next.rest } (reports ++ [cause])
  | .outOfFuel => .outOfFuel

end Rule

end ScriptLang
