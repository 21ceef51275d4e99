import Mathlib.Logic.Relation
import ScriptLang.Proofs.Scanning.LongestMatch
import ScriptLang.Text.Escape

/-!
# Backslashes and their characters

* `Text.Paired` — every backslash of a text, read from left to right, has a character that it takes;
* `Text.unescape_append` — no escape forms where a paired text is put before another one: decoding the whole is decoding
  the parts;
* `Text.Paired.ne_lone` — decoding a paired text never comes to a lone backslash;
* `paired_of_mem_tokensOf` — the strings of a source are paired.
-/

namespace ScriptLang

namespace Text

/-- Characters of which every backslash, read from left to right, takes the one behind it. -/
inductive PairedChars : List Char → Prop
  | nil : PairedChars []
  | escape (c : Char) {s : List Char} : PairedChars s → PairedChars ('\\' :: c :: s)
  | plain {c : Char} {s : List Char} : c ≠ '\\' → PairedChars s → PairedChars (c :: s)

/-- No backslash of a text is left without a character. -/
def Paired (raw : String) : Prop := PairedChars raw.toList

theorem PairedChars.append {s t : List Char} (hs : PairedChars s) (ht : PairedChars t) : PairedChars (s ++ t) := by
  induction hs with
  | nil => exact ht
  | escape c _ ih => exact .escape c ih
  | plain hc _ ih => exact .plain hc ih

/-- Texts that are paired are so together. -/
theorem Paired.append {a b : String} (ha : Paired a) (hb : Paired b) : Paired (a ++ b) := by
  unfold Paired
  rw [String.toList_append]
  exact PairedChars.append ha hb

/-- What stands between two quotes is paired. -/
theorem pairedChars_of_stringBody {s : List Char} (h : StringBody s) : PairedChars s := by
  induction h with
  | nil => exact .nil
  | plain _ hescape _ ih => exact .plain hescape ih
  | escape c _ ih => exact .escape c ih

/-! ## decoding -/

theorem unescapeChars_plain {c : Char} (hc : c ≠ '\\') (s : List Char) :
    unescapeChars (c :: s) = (unescapeChars s).map (c :: ·) := by
  rw [unescapeChars]
  exact fun _ _ hb => absurd hb hc

/-- A text is decoded part by part, if no backslash of the first part takes a character of the second. -/
theorem unescapeChars_append {s : List Char} (h : PairedChars s) (t : List Char) :
    unescapeChars (s ++ t) = (unescapeChars s).bind fun x => (unescapeChars t).map (x ++ ·) := by
  induction h with
  | nil =>
    rw [List.nil_append, unescapeChars]
    cases unescapeChars t <;> rfl
  | @escape c s _ ih =>
    simp only [List.cons_append, unescapeChars, ih]
    cases decodeEscape? c with
    | none => rfl
    | some d => cases unescapeChars s <;> cases unescapeChars t <;> rfl
  | @plain c s hc _ ih =>
    rw [List.cons_append, unescapeChars_plain hc, unescapeChars_plain hc, ih]
    cases unescapeChars s <;> cases unescapeChars t <;> rfl

/-- Decoding two texts that are put together, of which the first is paired, is decoding both; the first character that
makes no escape is that of the first text, if it has one. -/
theorem unescape_append {a : String} (ha : Paired a) (b : String) :
    unescape (a ++ b) =
      match unescape a, unescape b with
      | .ok x, .ok y => .ok (x ++ y)
      | .ok _, .error c => .error c
      | .error c, _ => .error c := by
  unfold unescape
  rw [String.toList_append, unescapeChars_append ha]
  cases unescapeChars a.toList with
  | error c => rfl
  | ok x =>
    cases unescapeChars b.toList with
    | error c => rfl
    | ok y => exact congrArg Except.ok (String.ofList_append)

/-- The decoding of a text goes on with another one, behind an escape or a character that is none. -/
inductive Decodes : List Char → List Char → Prop
  | escape {c d : Char} {s : List Char} : decodeEscape? c = some d → Decodes ('\\' :: c :: s) s
  | plain {c : Char} {s : List Char} : c ≠ '\\' → Decodes (c :: s) s

theorem PairedChars.of_decodes {s t : List Char} (hs : PairedChars s) (h : Decodes s t) : PairedChars t := by
  cases h with
  | escape _ =>
    cases hs with
    | escape _ ht => exact ht
    | plain hb _ => exact absurd rfl hb
  | plain hc =>
    cases hs with
    | escape _ _ => exact absurd rfl hc
    | plain _ ht => exact ht

/-- Decoding a paired text never comes to a lone backslash. -/
theorem Paired.ne_lone {raw : String} (h : Paired raw) {t : List Char}
    (ht : Relation.ReflTransGen Decodes raw.toList t) : t ≠ ['\\'] := by
  have hpaired : PairedChars t := by
    induction ht with
    | refl => exact h
    | tail _ hstep ih => exact ih.of_decodes hstep
  rintro rfl
  cases hpaired with
  | plain hb _ => exact hb rfl

end Text

/-! ## strings of a source -/

/-- The strings of a source are paired. -/
theorem paired_of_mem_tokensOf {source raw : String} {t : Token} (h : t ∈ tokensOf source) (hk : t.kind = .string raw) :
    Text.Paired raw := by
  rcases lexeme_of_mem_tokensOf h with heof | ⟨k, hw⟩
  · rw [hk] at heof
    cases heof
  · rw [hk] at hw
    generalize t.lexeme.toList = w at hw
    cases hw with
    | string hraw =>
      unfold Text.Paired
      rw [String.toList_ofList]
      exact Text.pairedChars_of_stringBody hraw

end ScriptLang
