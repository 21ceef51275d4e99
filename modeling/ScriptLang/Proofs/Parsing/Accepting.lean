import ScriptLang.Proofs.Parsing.Completeness
import ScriptLang.Proofs.Parsing.Excess

/-!
# What rules report while they succeed

`r.Accepts P ts rest rs` — before the tokens `ts` the rule `r` goes on to `rest`, reports `rs` and gives something with
the property `P`, unless it runs out of fuel.  Labels and trees are left out: reports do not depend on them.  As in
`Reaches`, a primitive rule is always followed by another one, so its lemma says what the two do together; only
`checkCount` adds a report.

Parameters and arguments are read by one kind of loop, and `accepts_list` is about both.
-/

namespace ScriptLang

namespace Rule

variable {α β : Type} {P : α → Prop} {Q : β → Prop} {ts us mid rest : List Token} {rs ss : List (Report SyntaxFault)}

/-- The rule succeeds with the reports, or runs out of fuel. -/
def Accepts (r : Rule α) (P : α → Prop) (ts rest : List Token) (rs : List (Report SyntaxFault)) : Prop :=
  ∀ lo, r ⟨ts, lo⟩ = .outOfFuel ∨ ∃ a hi, r ⟨ts, lo⟩ = .ok a ⟨rest, hi⟩ rs ∧ P a

/-- A rule that may give anything. -/
def Passes (r : Rule α) (ts rest : List Token) (rs : List (Report SyntaxFault)) : Prop :=
  r.Accepts (fun _ => True) ts rest rs

theorem accepts_outOfFuel : (outOfFuel : Rule α).Accepts P ts rest rs := fun _ => .inl rfl

theorem accepts_pure {a : α} (h : P a) : (pure a : Rule α).Accepts P ts ts [] := fun lo => .inr ⟨a, lo, rfl, h⟩

theorem passes_pure {a : α} : (pure a : Rule α).Passes ts ts [] := accepts_pure trivial

/-- Two rules in a row report one after the other. -/
theorem Accepts.bind {r : Rule α} {f : α → Rule β} (hr : r.Accepts P ts mid rs)
    (hf : ∀ a, P a → (f a).Accepts Q mid rest ss) : (r >>= f).Accepts Q ts rest (rs ++ ss) := by
  intro lo
  show andThen r f ⟨ts, lo⟩ = _ ∨ ∃ b hi, andThen r f ⟨ts, lo⟩ = _ ∧ _
  unfold andThen
  rcases hr lo with h | ⟨a, hi, h, ha⟩
  · rw [h]
    exact .inl rfl
  · rw [h]
    rcases hf a ha hi with h' | ⟨b, hi', h', hb⟩
    · exact .inl (by simp only [h', Reply.after])
    · exact .inr ⟨b, hi', by simp only [h', Reply.after], hb⟩

/-- The last rule that reports. -/
theorem Accepts.last {r : Rule α} {f : α → Rule β} (hr : r.Accepts P ts mid rs)
    (hf : ∀ a, P a → (f a).Accepts Q mid rest []) : (r >>= f).Accepts Q ts rest rs := by
  have h := hr.bind hf
  rwa [List.append_nil] at h

theorem Accepts.recover {r : Rule α} (h : r.Accepts P ts rest rs) : (Rule.recover r).Passes ts rest rs := by
  intro lo
  unfold Rule.recover
  rcases h lo with h | ⟨a, hi, h, -⟩
  · rw [h]
    exact .inl rfl
  · rw [h]
    exact .inr ⟨some a, hi, rfl, trivial⟩

/-! ## primitive rules with what follows them -/

section Primitive

variable {t : Token} {k : Kind}

/-- A rule that reports nothing. -/
theorem accepts_bind {r : Rule α} {f : α → Rule β} {a : α} (hr : ∀ lo, ∃ hi, r.Yields ⟨ts, lo⟩ a ⟨mid, hi⟩)
    (h : (f a).Accepts Q mid rest rs) : (r >>= f).Accepts Q ts rest rs := by
  have hr' : r.Accepts (· = a) ts mid [] := by
    intro lo
    obtain ⟨hi, hr⟩ := hr lo
    exact .inr ⟨a, hi, hr, rfl⟩
  refine hr'.bind fun b hb => ?_
  rw [hb]
  exact h

theorem accepts_peek {f : Token → Rule β} (h : (f (ts.headD (Token.endOfFile 1))).Accepts Q ts rest rs) :
    (peek >>= f).Accepts Q ts rest rs :=
  accepts_bind (a := ts.headD (Token.endOfFile 1)) (fun lo => ⟨lo, rfl⟩) h

theorem accepts_advance {f : Token → Rule β} (h : (f t).Accepts Q us rest rs) :
    (advance >>= f).Accepts Q (t :: us) rest rs :=
  accepts_bind (fun lo => ⟨lo, rfl⟩) h

theorem accepts_label {f : Label → Rule β} (h : ∀ l, (f l).Accepts Q ts rest rs) :
    (label >>= f).Accepts Q ts rest rs := by
  have hl : label.Passes ts ts [] := fun lo => .inr ⟨lo, lo + 1, rfl, trivial⟩
  exact hl.bind fun l _ => h l

theorem accepts_nextIs {f : Bool → Rule β} (hk : headKind ts = k) (h : (f true).Accepts Q ts rest rs) :
    (nextIs k >>= f).Accepts Q ts rest rs :=
  accepts_bind (fun lo => ⟨lo, nextIs_yields hk⟩) h

theorem accepts_nextIs_other {f : Bool → Rule β} (hk : headKind ts ≠ k) (h : (f false).Accepts Q ts rest rs) :
    (nextIs k >>= f).Accepts Q ts rest rs :=
  accepts_bind (fun lo => ⟨lo, nextIs_yields_other hk⟩) h

theorem accepts_expect {what : Expected} {f : Token → Rule β} (hk : t.kind = k) (h : (f t).Accepts Q us rest rs) :
    (expect k what >>= f).Accepts Q (t :: us) rest rs :=
  accepts_bind (fun lo => ⟨lo, expect_yields hk⟩) h

theorem accepts_accept {f : Bool → Rule β} (hk : t.kind = k) (h : (f true).Accepts Q us rest rs) :
    (accept k >>= f).Accepts Q (t :: us) rest rs :=
  accepts_bind (fun lo => ⟨lo, accept_yields hk⟩) h

theorem accepts_accept_other {f : Bool → Rule β} (hk : headKind ts ≠ k) (h : (f false).Accepts Q ts rest rs) :
    (accept k >>= f).Accepts Q ts rest rs :=
  accepts_bind (fun lo => ⟨lo, accept_yields_other hk⟩) h

theorem accepts_acceptBy {γ : Type} {meaning : Kind → Option γ} {g : γ} {f : Option (Token × γ) → Rule β}
    (hk : meaning t.kind = some g) (h : (f (some (t, g))).Accepts Q us rest rs) :
    (acceptBy meaning >>= f).Accepts Q (t :: us) rest rs :=
  accepts_bind (fun lo => ⟨lo, acceptBy_yields hk⟩) h

theorem accepts_acceptBy_other {γ : Type} {meaning : Kind → Option γ} {f : Option (Token × γ) → Rule β}
    (hk : meaning (headKind ts) = none) (h : (f none).Accepts Q ts rest rs) :
    (acceptBy meaning >>= f).Accepts Q ts rest rs :=
  accepts_bind (fun lo => ⟨lo, acceptBy_yields_other hk⟩) h

end Primitive

/-! ## assignments -/

theorem accepts_assignTo {equals : Token} {target value : Expr} (h : target.isTarget = true) :
    (assignTo equals target value).Passes ts ts [] := by
  intro lo
  obtain ⟨x, hi, hx⟩ := Expr.exists_assigned? h lo value
  exact .inr ⟨x, hi, yields_assignTo.2 ⟨hx, rfl⟩, trivial⟩

theorem accepts_update {invalid : SyntaxFault} {anchor : Token} {operator : Mark} {target value : Expr}
    (h : target.isTarget = true) : (update invalid anchor operator target value).Passes ts ts [] := by
  intro lo
  obtain ⟨x, hi, hx⟩ := Expr.exists_updated? h lo (Token.ofMark operator anchor.line) value
  exact .inr ⟨x, hi, yields_update.2 ⟨hx, rfl⟩, trivial⟩

/-! ## lists -/

/-- The fault of an entry that begins with the token, when `count` entries stand before it. -/
def overdue (count : Nat) (cause : SyntaxFault) (t : Token) : List (Report SyntaxFault) :=
  if maxArity ≤ count then [⟨t, cause⟩] else []

theorem accepts_checkCount {count : Nat} {cause : SyntaxFault} {t : Token} {f : Unit → Rule β}
    (h : (f ()).Accepts Q (t :: us) rest rs) :
    (checkCount count cause >>= f).Accepts Q (t :: us) rest (overdue count cause t ++ rs) := by
  have hc : (checkCount count cause).Passes (t :: us) (t :: us) (overdue count cause t) := by
    intro lo
    unfold checkCount overdue
    split
    · exact .inr ⟨(), lo, rfl, trivial⟩
    · exact .inr ⟨(), lo, rfl, trivial⟩
  exact hc.bind fun _ _ => h

/-- Reads entries with commas between them, at least one, when `count` were read already. -/
def IsList (loop : Nat → Nat → Rule (List α)) (cause : SyntaxFault) (entry : Nat → Rule α) : Prop :=
  (∀ count, loop 0 count = outOfFuel) ∧
  ∀ n count, loop (n + 1) count = do
    checkCount count cause
    let a ← entry n
    if ← accept (.mark .comma) then
      let as ← loop n (count + 1)
      pure (a :: as)
    else pure [a]

theorem isList_parameterNames : IsList parameterNames .tooManyParameters fun _ => expect .identifier .parameterName :=
  ⟨fun _ => rfl, fun _ _ => rfl⟩

theorem isList_argumentList : IsList argumentList .tooManyArguments expression := by
  refine ⟨fun count => ?_, fun n count => ?_⟩
  · rw [argumentList]
  · rw [argumentList]

section

variable {loop : Nat → Nat → Rule (List α)} {cause : SyntaxFault} {entry : Nat → Rule α} {count n : Nat} {t comma : Token}

/-- The last entry of a list. -/
theorem IsList.last (hloop : IsList loop cause entry) (h : (entry n).Passes (t :: us ++ rest) rest rs)
    (hrest : headKind rest = .mark .rightParen) :
    (loop (n + 1) count).Passes (t :: us ++ rest) rest (overdue count cause t ++ rs) := by
  rw [hloop.2]
  refine accepts_checkCount (h.last fun a _ => ?_)
  exact accepts_accept_other (by rw [hrest]; simp) passes_pure

/-- An entry with others behind it. -/
theorem IsList.more (hloop : IsList loop cause entry) (hcomma : comma.kind = .mark .comma)
    (h : (entry n).Passes (t :: us ++ comma :: mid) (comma :: mid) rs)
    (hmore : (loop n (count + 1)).Passes mid rest ss) :
    (loop (n + 1) count).Passes (t :: us ++ comma :: mid) rest (overdue count cause t ++ (rs ++ ss)) := by
  rw [hloop.2]
  refine accepts_checkCount (h.bind fun a _ => ?_)
  exact accepts_accept hcomma (hmore.last fun _ _ => passes_pure)

/-- The entries of a list are read, and each of them for which there is no room is reported. -/
theorem accepts_list (hloop : IsList loop cause entry) {A B : List Token → List (Report SyntaxFault) → Prop}
    (hA : ∀ {ts rs}, A ts rs → ∃ comma us, ts = comma :: us ∧ comma.kind = .mark .comma ∧ B us rs)
    (hB : ∀ {ts rs}, B ts rs → (∃ t us, ts = t :: us) ∧ ∀ n rest,
      headKind rest = .mark .comma ∨ headKind rest = .mark .rightParen → (entry n).Passes (ts ++ rest) rest rs)
    {room : Nat} (h : Ebnf.Entries A cause room ts rs) (hroom : room = maxArity - 1 - count) (ht : B (t :: us) ss)
    (hrest : headKind rest = .mark .rightParen) :
    (loop n count).Passes (t :: us ++ (ts ++ rest)) rest (overdue count cause t ++ (ss ++ rs)) := by
  induction h generalizing count t us ss n with
  | nil =>
    cases n with
    | zero =>
      rw [hloop.1]
      exact accepts_outOfFuel
    | succ n =>
      rw [List.append_nil]
      exact hloop.last ((hB ht).2 n rest (.inr hrest)) hrest
  | @cons room part parts ps qs hpart _ ih =>
    obtain ⟨comma, vs, rfl, hcomma, hv⟩ := hA hpart
    obtain ⟨⟨t', vs', rfl⟩, -⟩ := hB hv
    cases n with
    | zero =>
      rw [hloop.1]
      exact accepts_outOfFuel
    | succ n =>
      have hentry := (hB ht).2 n (comma :: (t' :: vs' ++ (parts ++ rest))) (.inl hcomma)
      have hmore : (loop n (count + 1)).Passes (t' :: vs' ++ (parts ++ rest)) rest
        (overdue (count + 1) cause t' ++ (ps ++ qs)) := ih (by omega) hv
      have hnone : overdue (count + 1) cause t' = [] := if_neg (by omega)
      rw [hnone, List.nil_append] at hmore
      rw [List.append_assoc]
      exact hloop.more hcomma hentry hmore
  | @tooMany comma t' vs parts ps qs hpart _ ih =>
    obtain ⟨_, _, heq, hcomma, hv⟩ := hA hpart
    cases heq
    cases n with
    | zero =>
      rw [hloop.1]
      exact accepts_outOfFuel
    | succ n =>
      have hentry := (hB ht).2 n (comma :: (t' :: vs ++ (parts ++ rest))) (.inl hcomma)
      have hmore : (loop n (count + 1)).Passes (t' :: vs ++ (parts ++ rest)) rest
        (overdue (count + 1) cause t' ++ (ps ++ qs)) := ih (by omega) hv
      have hone : overdue (count + 1) cause t' = [⟨t', cause⟩] := if_pos (by omega)
      rw [hone] at hmore
      rw [List.append_assoc]
      exact hloop.more hcomma hentry hmore

end

end Rule

end ScriptLang
