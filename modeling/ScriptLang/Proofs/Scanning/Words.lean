import ScriptLang.Token.Scan

/-!
# Spellings of words

Every token of a source that is a keyword has its spelling, and no identifier has the spelling of a keyword.  So a
name that a program declares is never `this` or `super`.
-/

namespace ScriptLang

/-- Keywords are spelled as such, and identifiers are not. -/
def Token.Spelled (t : Token) : Prop :=
  (∀ k, t.kind = .keyword k → t.lexeme = k.text) ∧ (t.kind = .identifier → ∀ k : Keyword, t.lexeme ≠ k.text)

namespace Keyword

theorem text_of_ofText? {s : List Char} {k : Keyword} (h : ofText? s = some k) : k.text.toList = s := by
  have := List.find?_some h
  simpa using this

theorem ofText?_eq_none {s : List Char} (h : ofText? s = none) (k : Keyword) : k.text.toList ≠ s := by
  have := List.find?_eq_none.1 h k (mem_all k)
  simpa using this

end Keyword

namespace Piece

/-- What a piece says about the spelling of its token. -/
def Spelled : Piece → Prop
  | token kind text => ∀ line, Token.Spelled ⟨kind, String.ofList text, line⟩
  | _ => True

theorem spelled_of_kind {kind : Kind} {text : List Char} (hk : ∀ k, kind ≠ .keyword k) (hi : kind ≠ .identifier) :
    (token kind text).Spelled := by
  intro line
  exact ⟨fun k h => absurd h (hk k), fun h => absurd h hi⟩

theorem spelled_word (c : Char) (s : List Char) : (word c s).1.Spelled := by
  unfold word
  intro line
  cases h : Keyword.ofText? (c :: (spanOf isNameChar s).1) with
  | some k =>
    refine ⟨?_, by simp⟩
    rintro k' ⟨⟩
    show String.ofList _ = k.text
    rw [← Keyword.text_of_ofText? h, String.ofList_toList]
  | none =>
    refine ⟨by simp, fun _ k he => ?_⟩
    have := Keyword.ofText?_eq_none h k
    rw [← he] at this
    simp at this

theorem spelled_next (c : Char) (s : List Char) : (next c s).1.Spelled := by
  unfold next
  split
  · trivial
  split
  · unfold quoted
    split
    · exact spelled_of_kind (by simp) (by simp)
    · trivial
  split
  · exact spelled_of_kind (by simp) (by simp)
  split
  · exact spelled_word c s
  split
  · trivial
  · unfold comment
    split <;> trivial
  · unfold operator
    cases s with
    | nil =>
      cases Mark.ofChar? c with
      | some m => exact spelled_of_kind (by simp) (by simp)
      | none => trivial
    | cons d rest =>
      cases h : Mark.ofPair? c d with
      | some m =>
        simp only [h]
        exact spelled_of_kind (by simp) (by simp)
      | none =>
        simp only [h]
        cases Mark.ofChar? c with
        | some m => exact spelled_of_kind (by simp) (by simp)
        | none => trivial

theorem spelled_of_mem_cut {n : Nat} {s : List Char} {p : Piece} (h : p ∈ cut n s) : p.Spelled := by
  induction n generalizing s with
  | zero => cases s <;> simp [cut] at h
  | succ n ih =>
    cases s with
    | nil => simp [cut] at h
    | cons c s =>
      rcases List.mem_cons.1 h with rfl | h
      · exact spelled_next c s
      · exact ih h

end Piece

theorem spelled_of_mem_ofPieces {line : Nat} {ps : List Piece} (hp : ∀ p ∈ ps, p.Spelled) {t : Token}
    (h : t ∈ (Item.ofPieces line ps).filterMap Item.token?) : t.Spelled := by
  induction ps generalizing line with
  | nil =>
    simp only [Item.ofPieces, List.filterMap_cons, Item.token?, List.filterMap_nil, List.mem_singleton] at h
    subst h
    exact ⟨by simp [Token.endOfFile], by simp [Token.endOfFile]⟩
  | cons p ps ih =>
    rw [List.forall_mem_cons] at hp
    cases p with
    | blank text => exact ih hp.2 h
    | token kind text =>
      simp only [Item.ofPieces, List.filterMap_cons, Item.token?, List.mem_cons] at h
      rcases h with rfl | h
      · exact hp.1 _
      · exact ih hp.2 h
    | fault cause text => exact ih hp.2 h

/-- The words of a source are spelled right. -/
theorem spelled_of_mem_tokensOf {source : String} {t : Token} (h : t ∈ tokensOf source) : t.Spelled :=
  spelled_of_mem_ofPieces (fun _ hp => Piece.spelled_of_mem_cut hp) h

end ScriptLang
