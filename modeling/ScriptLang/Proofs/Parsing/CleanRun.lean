import ScriptLang.Tree.Parser

/-!
# Runs of rules without a report

`r.Yields c a c'` — the rule `r`, started at `c`, succeeds with `a`, ends at `c'` and reports nothing.  Each way to
build a rule has one lemma that says exactly when it does so, and no later proof opens the rules again.  A primitive
rule is always followed by another one, so its lemma says what the two do together.
-/

namespace ScriptLang

/-- The kind of the first of some tokens; behind the last one is the end of the source. -/
def headKind (ts : List Token) : Kind := (ts.headD (Token.endOfFile 1)).kind

@[simp] theorem headKind_cons (t : Token) (ts : List Token) : headKind (t :: ts) = t.kind := rfl

@[simp] theorem kind_peek (ts : List Token) (fresh : Label) : (Cursor.mk ts fresh).peek.kind = headKind ts := rfl

/-- Only the end of the source stands behind the last token. -/
theorem eq_cons_of_headKind {ts : List Token} {k : Kind} (h : headKind ts = k) (hk : k ≠ .eof) :
    ∃ t us, ts = t :: us ∧ t.kind = k := by
  cases ts with
  | nil => exact absurd h.symm hk
  | cons t us => exact ⟨t, us, rfl, h⟩

namespace Rule

variable {α β : Type}

/-- The rule succeeds without a report. -/
def Yields (r : Rule α) (c : Cursor) (a : α) (c' : Cursor) : Prop := r c = .ok a c' []

/-! ## the ways to build a rule -/

theorem yields_pure {a b : α} {c c' : Cursor} : (pure a : Rule α).Yields c b c' ↔ b = a ∧ c' = c := by
  show (Reply.ok a c [] = Reply.ok b c' []) ↔ _
  simp [eq_comm]

/-- Two rules in a row report nothing only if neither does. -/
theorem yields_bind {r : Rule α} {f : α → Rule β} {c : Cursor} {b : β} {c' : Cursor} :
    (r >>= f).Yields c b c' ↔ ∃ a us mid, r.Yields c a ⟨us, mid⟩ ∧ (f a).Yields ⟨us, mid⟩ b c' := by
  show andThen r f c = _ ↔ _
  unfold andThen Yields
  cases h : r c with
  | ok a m reports =>
    dsimp only
    constructor
    · intro hf
      cases hg : f a m with
      | ok b' m' more =>
        rw [hg] at hf
        simp only [Reply.after, Reply.ok.injEq, List.append_eq_nil_iff] at hf
        obtain ⟨rfl, rfl, rfl, rfl⟩ := hf
        exact ⟨a, m.rest, m.fresh, rfl, hg⟩
      | refused cause m' more => rw [hg] at hf; cases hf
      | outOfFuel => rw [hg] at hf; cases hf
    · rintro ⟨a', us, mid, ha, hf⟩
      simp only [Reply.ok.injEq] at ha
      obtain ⟨rfl, rfl, rfl⟩ := ha
      rw [hf, Reply.after_nil]
  | refused cause m reports => simp
  | outOfFuel => simp

theorem not_yields_outOfFuel {c : Cursor} {a : α} {c' : Cursor} : ¬ (outOfFuel : Rule α).Yields c a c' := by
  intro h
  cases h

theorem not_yields_refuse {cause : SyntaxFault} {c : Cursor} {a : α} {c' : Cursor} :
    ¬ (refuse cause : Rule α).Yields c a c' := by
  intro h
  cases h

theorem not_yields_report {anchor : Token} {cause : SyntaxFault} {f : Unit → Rule β} {c : Cursor} {b : β}
    {c' : Cursor} : ¬ (report anchor cause >>= f).Yields c b c' := by
  rw [yields_bind]
  rintro ⟨_, _, _, h, _⟩
  cases h

theorem yields_ite {p : Prop} [Decidable p] {r r' : Rule α} {c : Cursor} {a : α} {c' : Cursor} :
    (if p then r else r').Yields c a c' ↔ (p ∧ r.Yields c a c') ∨ (¬ p ∧ r'.Yields c a c') := by
  by_cases hp : p <;> simp [hp]

/-- Recovery leaves a report behind. -/
theorem yields_recover {r : Rule α} {c : Cursor} {o : Option α} {c' : Cursor} :
    (recover r).Yields c o c' ↔ ∃ a, o = some a ∧ r.Yields c a c' := by
  unfold Yields recover
  cases h : r c with
  | ok a m reports =>
    constructor
    · intro hr
      simp only [Reply.ok.injEq] at hr
      obtain ⟨rfl, rfl, rfl⟩ := hr
      exact ⟨a, rfl, rfl⟩
    · rintro ⟨a', rfl, hr⟩
      simp only [Reply.ok.injEq] at hr
      obtain ⟨rfl, rfl, rfl⟩ := hr
      rfl
  | refused cause m reports => simp
  | outOfFuel => simp

/-! ## primitive rules -/

section Succeed

variable {ts us : List Token} {t : Token} {k : Kind} {lo : Label} {γ : Type} {meaning : Kind → Option γ}

theorem nextIs_yields (hk : headKind ts = k) : (nextIs k).Yields ⟨ts, lo⟩ true ⟨ts, lo⟩ := by
  simp [Yields, nextIs, hk]

theorem nextIs_yields_other (hk : headKind ts ≠ k) : (nextIs k).Yields ⟨ts, lo⟩ false ⟨ts, lo⟩ := by
  simp [Yields, nextIs, hk]

theorem expect_yields {what : Expected} (hk : t.kind = k) : (expect k what).Yields ⟨t :: us, lo⟩ t ⟨us, lo⟩ := by
  simp [Yields, expect, Cursor.peek, Cursor.skip, hk]

theorem accept_yields (hk : t.kind = k) : (accept k).Yields ⟨t :: us, lo⟩ true ⟨us, lo⟩ := by
  simp [Yields, accept, Cursor.skip, hk]

theorem accept_yields_other (hk : headKind ts ≠ k) : (accept k).Yields ⟨ts, lo⟩ false ⟨ts, lo⟩ := by
  simp [Yields, accept, hk]

theorem acceptBy_yields {g : γ} (hk : meaning t.kind = some g) :
    (acceptBy meaning).Yields ⟨t :: us, lo⟩ (some (t, g)) ⟨us, lo⟩ := by
  simp [Yields, acceptBy, Cursor.skip, Cursor.peek, hk]

theorem acceptBy_yields_other (hk : meaning (headKind ts) = none) :
    (acceptBy meaning).Yields ⟨ts, lo⟩ none ⟨ts, lo⟩ := by
  simp [Yields, acceptBy, hk]

end Succeed

/-! ## primitive rules with what follows them -/

section Primitive

variable {ts : List Token} {lo : Label} {b : β} {c' : Cursor}

theorem yields_peek {f : Token → Rule β} :
    (peek >>= f).Yields ⟨ts, lo⟩ b c' ↔ (f (Cursor.mk ts lo).peek).Yields ⟨ts, lo⟩ b c' := by
  rw [yields_bind]
  constructor
  · rintro ⟨t, us, mid, h, hf⟩
    cases h
    exact hf
  · intro hf
    exact ⟨_, _, _, rfl, hf⟩

theorem yields_advance {f : Token → Rule β} :
    (advance >>= f).Yields ⟨ts, lo⟩ b c' ↔ (f (Cursor.mk ts lo).peek).Yields ⟨ts.tail, lo⟩ b c' := by
  rw [yields_bind]
  constructor
  · rintro ⟨t, us, mid, h, hf⟩
    cases h
    exact hf
  · intro hf
    exact ⟨_, _, _, rfl, hf⟩

theorem yields_nextIs {k : Kind} {f : Bool → Rule β} :
    (nextIs k >>= f).Yields ⟨ts, lo⟩ b c' ↔ (f (decide (headKind ts = k))).Yields ⟨ts, lo⟩ b c' := by
  rw [yields_bind]
  constructor
  · rintro ⟨t, us, mid, h, hf⟩
    cases h
    exact hf
  · intro hf
    exact ⟨_, _, _, rfl, hf⟩

theorem yields_label {f : Label → Rule β} :
    (label >>= f).Yields ⟨ts, lo⟩ b c' ↔ (f lo).Yields ⟨ts, lo + 1⟩ b c' := by
  rw [yields_bind]
  constructor
  · rintro ⟨t, us, mid, h, hf⟩
    cases h
    exact hf
  · intro hf
    exact ⟨_, _, _, rfl, hf⟩

theorem yields_expect {k : Kind} {what : Expected} {f : Token → Rule β} (hk : k ≠ .eof) :
    (expect k what >>= f).Yields ⟨ts, lo⟩ b c' ↔
      ∃ t us, ts = t :: us ∧ t.kind = k ∧ (f t).Yields ⟨us, lo⟩ b c' := by
  rw [yields_bind]
  constructor
  · rintro ⟨t, us, mid, h, hf⟩
    unfold Yields expect at h
    split at h
    · next hp =>
      obtain ⟨t', us', rfl, ht⟩ := eq_cons_of_headKind hp hk
      cases h
      exact ⟨_, _, rfl, ht, hf⟩
    · cases h
  · rintro ⟨t, us, rfl, rfl, hf⟩
    exact ⟨t, us, lo, expect_yields rfl, hf⟩

theorem yields_accept {k : Kind} {f : Bool → Rule β} (hk : k ≠ .eof) :
    (accept k >>= f).Yields ⟨ts, lo⟩ b c' ↔
      (∃ t us, ts = t :: us ∧ t.kind = k ∧ (f true).Yields ⟨us, lo⟩ b c') ∨
      (headKind ts ≠ k ∧ (f false).Yields ⟨ts, lo⟩ b c') := by
  rw [yields_bind]
  constructor
  · rintro ⟨t, us, mid, h, hf⟩
    unfold Yields accept at h
    split at h
    · next hp =>
      obtain ⟨t', us', rfl, ht⟩ := eq_cons_of_headKind hp hk
      cases h
      exact .inl ⟨_, _, rfl, ht, hf⟩
    · next hp =>
      cases h
      exact .inr ⟨hp, hf⟩
  · rintro (⟨t, us, rfl, rfl, hf⟩ | ⟨hp, hf⟩)
    · exact ⟨true, us, lo, accept_yields rfl, hf⟩
    · exact ⟨false, ts, lo, accept_yields_other hp, hf⟩

theorem yields_acceptBy {γ : Type} {f : Option (Token × γ) → Rule β} (meaning : Kind → Option γ)
    (hm : meaning .eof = none) :
    (acceptBy meaning >>= f).Yields ⟨ts, lo⟩ b c' ↔
      (∃ t us g, ts = t :: us ∧ meaning t.kind = some g ∧ (f (some (t, g))).Yields ⟨us, lo⟩ b c') ∨
      (meaning (headKind ts) = none ∧ (f none).Yields ⟨ts, lo⟩ b c') := by
  rw [yields_bind]
  constructor
  · rintro ⟨t, us, mid, h, hf⟩
    unfold Yields acceptBy at h
    split at h
    · next g hp =>
      have hne : headKind ts ≠ .eof := by
        intro he
        rw [kind_peek, he, hm] at hp
        cases hp
      obtain ⟨t', us', rfl, ht⟩ := eq_cons_of_headKind rfl hne
      cases h
      exact .inl ⟨_, _, g, rfl, hp, hf⟩
    · next hp =>
      cases h
      exact .inr ⟨hp, hf⟩
  · rintro (⟨t, us, g, rfl, hp, hf⟩ | ⟨hp, hf⟩)
    · exact ⟨some (t, g), us, lo, acceptBy_yields hp, hf⟩
    · exact ⟨none, ts, lo, acceptBy_yields_other hp, hf⟩

/-- A list may go on only while it has fewer entries than allowed. -/
theorem yields_checkCount {count : Nat} {cause : SyntaxFault} {f : Unit → Rule β} :
    (checkCount count cause >>= f).Yields ⟨ts, lo⟩ b c' ↔ count < maxArity ∧ (f ()).Yields ⟨ts, lo⟩ b c' := by
  unfold checkCount
  split
  · next h =>
    have hn : ¬ count < maxArity := Nat.not_lt.2 h
    simp only [hn, false_and, iff_false]
    rw [yields_bind]
    rintro ⟨_, _, _, hr, _⟩
    rw [yields_peek] at hr
    cases hr
  · next h =>
    rw [yields_bind]
    constructor
    · rintro ⟨u, us, mid, hu, hf⟩
      cases hu
      exact ⟨Nat.lt_of_not_le h, hf⟩
    · rintro ⟨-, hf⟩
      exact ⟨(), _, _, rfl, hf⟩

end Primitive

end Rule

/-! ## what is written out instead of read -/

/-- The assignment of a value to an expression that can be assigned to, and the first label behind it. -/
def Expr.assigned? (target : Expr) (fresh : Label) (value : Expr) : Option (Expr × Label) :=
  match target with
  | .variable _ name => some (.assign fresh name value, fresh + 1)
  | .get object name => some (.set object name value, fresh)
  | _ => none

/-- The assignment to an expression of its own value combined with another, and the first label behind it. -/
def Expr.updated? (target : Expr) (fresh : Label) (operator : Token) (value : Expr) : Option (Expr × Label) :=
  match target with
  | .variable _ name => some (.assign fresh name (.binary (.variable (fresh + 1) name) operator value), fresh + 2)
  | .get object name => some (.set object name (.binary (.get object name) operator value), fresh)
  | _ => none

namespace Rule

variable {target value x : Expr} {ts us : List Token} {lo hi : Label}

theorem yields_assignTo {equals : Token} :
    (assignTo equals target value).Yields ⟨ts, lo⟩ x ⟨us, hi⟩ ↔
      target.assigned? lo value = some (x, hi) ∧ us = ts := by
  fun_cases assignTo equals target value with
  | case1 l name =>
    simp only [yields_label, yields_pure, Expr.assigned?]
    grind
  | case2 object name =>
    simp only [yields_pure, Expr.assigned?]
    grind
  | case3 other hv hg =>
    have : target.assigned? lo value = none := by
      unfold Expr.assigned?
      split
      · exact absurd rfl (hv _ _)
      · exact absurd rfl (hg _ _)
      · rfl
    simp only [not_yields_report, this, reduceCtorEq, false_and]

theorem yields_update {invalid : SyntaxFault} {anchor : Token} {operator : Mark} :
    (update invalid anchor operator target value).Yields ⟨ts, lo⟩ x ⟨us, hi⟩ ↔
      target.updated? lo (Token.ofMark operator anchor.line) value = some (x, hi) ∧ us = ts := by
  fun_cases update invalid anchor operator target value with
  | case1 l name =>
    simp only [yields_label, yields_pure, Expr.updated?]
    grind
  | case2 object name =>
    simp only [yields_pure, Expr.updated?]
    grind
  | case3 other hv hg =>
    have : target.updated? lo (Token.ofMark operator anchor.line) value = none := by
      unfold Expr.updated?
      split
      · exact absurd rfl (hv _ _)
      · exact absurd rfl (hg _ _)
      · rfl
    simp only [not_yields_report, this, reduceCtorEq, false_and]

end Rule

end ScriptLang
