import ScriptLang.Proofs.Parsing.Completeness
import ScriptLang.Proofs.Parsing.Excess

/-!
# Lists have a largest length

* `Ebnf.DerivesFreely` — derivations that forget the side conditions of the grammar: how long lists may be, and what
  may be stepped;
* `Phrase.Reads.commas_le` — each opening parenthesis that is read accounts for at most as many commas as separate the
  entries of the longest list.

The bound counts tokens, so it decides that long lists are not read without any look at where they stand.
-/

namespace ScriptLang

/-! ## derivations without side conditions -/

namespace Ebnf

/-- The tokens can be derived if lists may have any length and all that `both` asks for is its first part. -/
inductive DerivesFreely : Ebnf → List Token → Prop
  | token {test t} : test t.kind → DerivesFreely (token test) [t]
  | symbol {s ts} : DerivesFreely s.rule ts → DerivesFreely (symbol s) ts
  | seq {a b ts us} : DerivesFreely a ts → DerivesFreely b us → DerivesFreely (seq a b) (ts ++ us)
  | first {a b ts} : DerivesFreely a ts → DerivesFreely (alt a b) ts
  | second {a b ts} : DerivesFreely b ts → DerivesFreely (alt a b) ts
  | absent {a} : DerivesFreely (opt a) []
  | present {a ts} : DerivesFreely a ts → DerivesFreely (opt a) ts
  | starEnd {a} : DerivesFreely (star a) []
  | starMore {a ts us} : DerivesFreely a ts → DerivesFreely (star a) us → DerivesFreely (star a) (ts ++ us)
  | upTo {n a ts} : DerivesFreely (star a) ts → DerivesFreely (upTo n a) ts
  | both {a b ts} : DerivesFreely a ts → DerivesFreely (both a b) ts

/-- What can be derived with long lists can be derived freely. -/
theorem DerivesLong.freely {e : Ebnf} {ts : List Token} {rs : List (Report SyntaxFault)} (h : e.DerivesLong ts rs) :
    e.DerivesFreely ts := by
  induction h with
  | token ht => exact .token ht
  | symbol _ ih => exact .symbol ih
  | seq _ _ ih₁ ih₂ => exact .seq ih₁ ih₂
  | first _ ih => exact .first ih
  | second _ ih => exact .second ih
  | absent => exact .absent
  | present _ ih => exact .present ih
  | starEnd => exact .starEnd
  | starMore _ _ ih₁ ih₂ => exact .starMore ih₁ ih₂
  | upToEnd => exact .upTo .starEnd
  | upToMore _ _ ih₁ ih₂ | upToOver _ _ ih₁ ih₂ =>
    cases ih₂ with
    | upTo h => exact .upTo (.starMore ih₁ h)
  | both _ _ ih₁ _ => exact .both ih₁

end Ebnf

/-! ## commas and parentheses -/

/-- How many of the tokens are commas. -/
def commas (ts : List Token) : Nat := ts.countP (·.kind = .mark .comma)

/-- How many of the tokens open a parenthesis. -/
def openings (ts : List Token) : Nat := ts.countP (·.kind = .mark .leftParen)

section

variable (t : Token) (ts us : List Token)

@[simp] theorem commas_nil : commas [] = 0 := rfl

@[simp] theorem openings_nil : openings [] = 0 := rfl

@[simp] theorem commas_append : commas (ts ++ us) = commas ts + commas us := List.countP_append

@[simp] theorem openings_append : openings (ts ++ us) = openings ts + openings us := List.countP_append

@[simp] theorem commas_cons : commas (t :: ts) = commas ts + if t.kind = .mark .comma then 1 else 0 := by
  simp [commas, List.countP_cons]

@[simp] theorem openings_cons : openings (t :: ts) = openings ts + if t.kind = .mark .leftParen then 1 else 0 := by
  simp [openings, List.countP_cons]

theorem commas_flatten_replicate (n : Nat) : commas (List.replicate n ts).flatten = n * commas ts := by
  simp [commas, List.countP_flatten]

theorem openings_flatten_replicate (n : Nat) : openings (List.replicate n ts).flatten = n * openings ts := by
  simp [openings, List.countP_flatten]

end

namespace Phrase

open Rule (maxArity)

/-- How many commas of a list may stand in a phrase whose parenthesis is not part of it. -/
def spareCommas : Phrase → Nat
  | arguments _ | parameters _ => maxArity - 1
  | argumentList count _ | parameterNames count _ => maxArity - 1 - count
  | _ => 0

/-- A token that means something to a rule is no comma, when a comma does not. -/
theorem ne_comma {β : Type} {meaning : Kind → Option β} {t : Token} {b : β} (h : meaning t.kind = some b)
    (hcomma : meaning (.mark .comma) = none) : t.kind ≠ .mark .comma := by
  intro ht
  rw [ht, hcomma] at h
  cases h

theorem ne_comma_of_mem {l : Level} {t : Token} (h : t.kind ∈ l.operators) : t.kind ≠ .mark .comma := by
  have hmeaning : l.operator? t.kind = some () := Rule.operator?_eq_some.2 h
  exact ne_comma hmeaning (by cases l <;> rfl)

/-- In the tokens of a phrase each opening parenthesis has at most as many commas as the longest list. -/
theorem Reads.commas_le {p : Phrase} {lo hi : Label} {ts : List Token} (h : p.Reads lo ts hi) :
    commas ts ≤ (maxArity - 1) * openings ts + p.spareCommas := by
  induction h with
  | update _ ht _ _ ih₁ ih₂ =>
    have hne := ne_comma ht rfl
    simp_all [spareCommas, maxArity]
    omega
  | binaryMore ht _ _ ih₁ ih₂ =>
    have hne := ne_comma_of_mem ht
    simp_all [spareCommas, maxArity]
    omega
  | sign ht _ ih =>
    have hne := ne_comma ht rfl
    simp_all [spareCommas, maxArity]
    omega
  | stepBefore ht _ _ ih | stepBehind _ ht _ ih =>
    have hne := ne_comma ht rfl
    simp_all [spareCommas, maxArity]
    omega
  | constant ht =>
    have hne := ne_comma ht rfl
    simp_all
  | moreArguments hc _ ht h ih₁ ih₂ =>
    -- another entry uses up one comma of those that are left
    have hlt := h.count_lt.1 _ _ rfl
    simp_all [spareCommas, maxArity]
    omega
  | moreParameters hc _ ht h ih =>
    have hlt := h.count_lt.2 _ _ rfl
    simp_all [spareCommas, maxArity]
    omega
  | _ => simp_all [spareCommas, maxArity] <;> omega

/-- A program that is parsed has no list with too many entries. -/
theorem commas_le_of_parse {fresh : Label} {tokens : List Token} {program : List Stmt}
    (h : (parse fresh tokens).result = .ok program) :
    commas (beforeEnd tokens) ≤ (maxArity - 1) * openings (beforeEnd tokens) := (reads_of_parse h).commas_le

end Phrase

end ScriptLang
