import ScriptLang.Proofs.Parsing.Derivation

/-!
# Derivations with lists of any length

* `Ebnf.DerivesLong e ts rs` — the tokens `ts` can be derived from `e` if its lists may have any length, and `rs` are
  the faults of the entries for which there is no room, in the order of the tokens;
* `e.Says S ts rs` — what a right side says of tokens and faults when its symbols say `S`.

A list goes on behind an entry too many, so each further entry is a fault of its own.  It stands before those of the
lists inside the entry.
-/

namespace ScriptLang

namespace Ebnf

/-- What is wrong with an entry too many, as it stands behind a comma. -/
def excess : Ebnf → SyntaxFault
  | seq _ (symbol .expression) => .tooManyArguments
  | _ => .tooManyParameters

/-- The tokens can be derived with lists of any length; the faults are those of the entries too many. -/
inductive DerivesLong : Ebnf → List Token → List (Report SyntaxFault) → Prop
  | token {test t} : test t.kind → DerivesLong (token test) [t] []
  | symbol {s ts rs} : DerivesLong s.rule ts rs → DerivesLong (symbol s) ts rs
  | seq {a b ts us rs ss} : DerivesLong a ts rs → DerivesLong b us ss → DerivesLong (seq a b) (ts ++ us) (rs ++ ss)
  | first {a b ts rs} : DerivesLong a ts rs → DerivesLong (alt a b) ts rs
  | second {a b ts rs} : DerivesLong b ts rs → DerivesLong (alt a b) ts rs
  | absent {a} : DerivesLong (opt a) [] []
  | present {a ts rs} : DerivesLong a ts rs → DerivesLong (opt a) ts rs
  | starEnd {a} : DerivesLong (star a) [] []
  | starMore {a ts us rs ss} : DerivesLong a ts rs → DerivesLong (star a) us ss →
      DerivesLong (star a) (ts ++ us) (rs ++ ss)
  | upToEnd {n a} : DerivesLong (upTo n a) [] []
  | upToMore {n a ts us rs ss} : DerivesLong a ts rs → DerivesLong (upTo n a) us ss →
      DerivesLong (upTo (n + 1) a) (ts ++ us) (rs ++ ss)
  /-- There is no room for the entry: the token behind its comma is a fault. -/
  | upToOver {a comma t ts us rs ss} : DerivesLong a (comma :: t :: ts) rs → DerivesLong (upTo 0 a) us ss →
      DerivesLong (upTo 0 a) (comma :: t :: ts ++ us) (⟨t, a.excess⟩ :: rs ++ ss)
  | both {a b ts rs} : DerivesLong a ts rs → DerivesLong b ts rs → DerivesLong (both a b) ts rs

/-- What can be derived has no entry too many. -/
theorem Derives.long {e : Ebnf} {ts : List Token} (h : e.Derives ts) : e.DerivesLong ts [] := by
  induction h with
  | token ht => exact .token ht
  | symbol _ ih => exact .symbol ih
  | seq _ _ ih₁ ih₂ => exact .seq ih₁ ih₂
  | first _ ih => exact .first ih
  | second _ ih => exact .second ih
  | absent => exact .absent
  | present _ ih => exact .present ih
  | starEnd => exact .starEnd
  | starMore _ _ ih₁ ih₂ => exact .starMore ih₁ ih₂
  | upToEnd => exact .upToEnd
  | upToMore _ _ ih₁ ih₂ => exact .upToMore ih₁ ih₂
  | both _ _ ih₁ ih₂ => exact .both ih₁ ih₂

/-- Without an entry too many a derivation is one of the grammar as it is. -/
theorem DerivesLong.derives {e : Ebnf} {ts : List Token} {rs : List (Report SyntaxFault)} (h : e.DerivesLong ts rs)
    (hrs : rs = []) : e.Derives ts := by
  induction h with
  | token ht => exact .token ht
  | symbol _ ih => exact .symbol (ih hrs)
  | seq _ _ ih₁ ih₂ =>
    obtain ⟨hr, hs⟩ := List.append_eq_nil_iff.1 hrs
    exact .seq (ih₁ hr) (ih₂ hs)
  | first _ ih => exact .first (ih hrs)
  | second _ ih => exact .second (ih hrs)
  | absent => exact .absent
  | present _ ih => exact .present (ih hrs)
  | starEnd => exact .starEnd
  | starMore _ _ ih₁ ih₂ =>
    obtain ⟨hr, hs⟩ := List.append_eq_nil_iff.1 hrs
    exact .starMore (ih₁ hr) (ih₂ hs)
  | upToEnd => exact .upToEnd
  | upToMore _ _ ih₁ ih₂ =>
    obtain ⟨hr, hs⟩ := List.append_eq_nil_iff.1 hrs
    exact .upToMore (ih₁ hr) (ih₂ hs)
  | upToOver => exact absurd hrs (List.cons_ne_nil _ _)
  | both _ _ ih₁ ih₂ => exact .both (ih₁ hrs) (ih₂ hrs)

theorem derivesLong_nil_iff {e : Ebnf} {ts : List Token} : e.DerivesLong ts [] ↔ e.Derives ts :=
  ⟨fun h => h.derives rfl, Derives.long⟩

/-! ## derivations of longer lists -/

theorem derivesLong_chain {operand operator : Ebnf} {ts : List Token} {rs : List (Report SyntaxFault)}
    (h : operand.DerivesLong ts rs) : (chain operand operator).DerivesLong ts rs := by
  have hc := DerivesLong.seq h (.starEnd (a := operator ++ operand))
  rwa [List.append_nil, List.append_nil] at hc

/-- A call is an expression. -/
theorem derivesLong_expression {ts : List Token} {rs : List (Report SyntaxFault)}
    (h : (symbol .call).DerivesLong ts rs) : (symbol .expression).DerivesLong ts rs := by
  have hunary : (symbol .unary).DerivesLong ts rs := .symbol (.second (.symbol (.first h)))
  have hterm : (symbol .term).DerivesLong ts rs :=
    .symbol (derivesLong_chain (.symbol (derivesLong_chain hunary)))
  have hequality : (symbol .equality).DerivesLong ts rs :=
    .symbol (derivesLong_chain (.symbol (derivesLong_chain hterm)))
  have hlogicOr : (symbol .logicOr).DerivesLong ts rs :=
    .symbol (derivesLong_chain (.symbol (derivesLong_chain hequality)))
  exact .symbol (.symbol (.second hlogicOr))

/-- Of entries that are alike, each for which there is no room is a fault. -/
theorem derivesLong_replicate {a : Ebnf} {comma t : Token} {ts : List Token} (h : a.DerivesLong (comma :: t :: ts) [])
    (n m : Nat) : (upTo n a).DerivesLong (List.replicate (n + m) (comma :: t :: ts)).flatten
      (List.replicate m ⟨t, a.excess⟩) := by
  induction n with
  | zero =>
    rw [Nat.zero_add]
    induction m with
    | zero => exact .upToEnd
    | succ m ih => exact .upToOver h ih
  | succ n ih =>
    rw [Nat.succ_add]
    exact .upToMore h ih

/-! ## meanings of right sides -/

/-- Some parts in a row. -/
inductive Row (A : List Token → List (Report SyntaxFault) → Prop) : List Token → List (Report SyntaxFault) → Prop
  | nil : Row A [] []
  | cons {ts us rs ss} : A ts rs → Row A us ss → Row A (ts ++ us) (rs ++ ss)

/-- Entries in a row, each behind its comma, with room for so many of them. -/
inductive Entries (A : List Token → List (Report SyntaxFault) → Prop) (cause : SyntaxFault) :
    Nat → List Token → List (Report SyntaxFault) → Prop
  | nil {n} : Entries A cause n [] []
  | cons {n ts us rs ss} : A ts rs → Entries A cause n us ss → Entries A cause (n + 1) (ts ++ us) (rs ++ ss)
  | tooMany {comma t ts us rs ss} : A (comma :: t :: ts) rs → Entries A cause 0 us ss →
      Entries A cause 0 (comma :: t :: ts ++ us) (⟨t, cause⟩ :: rs ++ ss)

/-- What a right side says of tokens and faults when symbols have a meaning. -/
def Says (S : Symbol → List Token → List (Report SyntaxFault) → Prop) :
    Ebnf → List Token → List (Report SyntaxFault) → Prop
  | token test, ts, rs => (∃ t, ts = [t] ∧ test t.kind) ∧ rs = []
  | symbol s, ts, rs => S s ts rs
  | seq a b, ts, rs => ∃ us vs ps qs, ts = us ++ vs ∧ rs = ps ++ qs ∧ a.Says S us ps ∧ b.Says S vs qs
  | alt a b, ts, rs => a.Says S ts rs ∨ b.Says S ts rs
  | opt a, ts, rs => (ts = [] ∧ rs = []) ∨ a.Says S ts rs
  | star a, ts, rs => Row (a.Says S) ts rs
  | upTo n a, ts, rs => Entries (a.Says S) a.excess n ts rs
  | both a b, ts, rs => a.Says S ts rs ∧ b.Says S ts rs

variable {S : Symbol → List Token → List (Report SyntaxFault) → Prop} {a b : Ebnf} {ts : List Token}
  {rs : List (Report SyntaxFault)}

/-- What can be derived has every meaning that the rules keep. -/
theorem DerivesLong.says {e : Ebnf} (hS : ∀ s ts rs, s.rule.Says S ts rs → S s ts rs) (h : e.DerivesLong ts rs) :
    e.Says S ts rs := by
  induction h with
  | token ht => exact ⟨⟨_, rfl, ht⟩, rfl⟩
  | symbol _ ih => exact hS _ _ _ ih
  | seq _ _ ih₁ ih₂ => exact ⟨_, _, _, _, rfl, rfl, ih₁, ih₂⟩
  | first _ ih => exact .inl ih
  | second _ ih => exact .inr ih
  | absent => exact .inl ⟨rfl, rfl⟩
  | present _ ih => exact .inr ih
  | starEnd => exact .nil
  | starMore _ _ ih₁ ih₂ => exact .cons ih₁ ih₂
  | upToEnd => exact .nil
  | upToMore _ _ ih₁ ih₂ => exact .cons ih₁ ih₂
  | upToOver _ _ ih₁ ih₂ => exact .tooMany ih₁ ih₂
  | both _ _ ih₁ ih₂ => exact ⟨ih₁, ih₂⟩

theorem says_mark {m : Mark} : (mark m).Says S ts rs ↔ (∃ t, ts = [t] ∧ t.kind = .mark m) ∧ rs = [] := by
  simp [mark, Says]

theorem says_word {k : Keyword} : (word k).Says S ts rs ↔ (∃ t, ts = [t] ∧ t.kind = .keyword k) ∧ rs = [] := by
  simp [word, Says]

theorem says_ident : ident.Says S ts rs ↔ (∃ t, ts = [t] ∧ t.kind = .identifier) ∧ rs = [] := by
  simp [ident, Says]

theorem says_append : (a ++ b).Says S ts rs ↔
    ∃ us vs ps qs, ts = us ++ vs ∧ rs = ps ++ qs ∧ a.Says S us ps ∧ b.Says S vs qs := Iff.rfl

theorem says_or : (a ||| b).Says S ts rs ↔ a.Says S ts rs ∨ b.Says S ts rs := Iff.rfl

/-- What one token of some kinds and a right side say. -/
theorem exists_cons_of_says {test : Kind → Bool} (h : (token test ++ b).Says S ts rs) :
    ∃ t us, ts = t :: us ∧ test t.kind ∧ b.Says S us rs := by
  obtain ⟨_, us, _, _, rfl, rfl, ⟨⟨t, rfl, ht⟩, rfl⟩, hb⟩ := says_append.1 h
  exact ⟨t, us, rfl, ht, hb⟩

theorem exists_concat_of_says {test : Kind → Bool} (h : (a ++ token test).Says S ts rs) :
    ∃ us t, ts = us ++ [t] ∧ a.Says S us rs ∧ test t.kind := by
  obtain ⟨us, _, ps, _, rfl, rfl, ha, ⟨t, rfl, ht⟩, rfl⟩ := says_append.1 h
  exact ⟨us, t, rfl, by rwa [List.append_nil], ht⟩

theorem says_mark_append {m : Mark} (h : (mark m ++ b).Says S ts rs) :
    ∃ t us, ts = t :: us ∧ t.kind = .mark m ∧ b.Says S us rs := by
  simpa using exists_cons_of_says h

theorem says_word_append {k : Keyword} (h : (word k ++ b).Says S ts rs) :
    ∃ t us, ts = t :: us ∧ t.kind = .keyword k ∧ b.Says S us rs := by
  simpa using exists_cons_of_says h

theorem says_append_mark {m : Mark} (h : (a ++ mark m).Says S ts rs) :
    ∃ us t, ts = us ++ [t] ∧ a.Says S us rs ∧ t.kind = .mark m := by
  simpa using exists_concat_of_says h

theorem says_append_ident (h : (a ++ ident).Says S ts rs) :
    ∃ us t, ts = us ++ [t] ∧ a.Says S us rs ∧ t.kind = .identifier := by
  simpa using exists_concat_of_says h

end Ebnf

end ScriptLang
