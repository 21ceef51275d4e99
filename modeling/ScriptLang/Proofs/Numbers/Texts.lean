import ScriptLang.Proofs.Numbers.ReadBack
import ScriptLang.Proofs.Scanning.Respacing

/-!
# The texts of numbers are number lexemes

* `lexeme_positional` — digits written without an exponent are a lexeme, whose value is the one that they read as;
* `lexeme_text` — so is the text of a finite number, and its value is that number;
* `number_survives_text` — a number token of a source is the only token of its text, as a literal and in output.

A text is `whole` or `whole.fraction`.  Both are digits, and the value of the lexeme depends on all of them in a row and
on how many of them follow the point; so a text is judged by the digits that are left when its point is taken out.
-/

namespace ScriptLang

/-! ## lexemes of numbers -/

/-- The text is a number whose pattern is this. -/
def Denotes (bits : Nat) (w : List Char) : Prop := Lexeme .number (some (.number (Decimal.ofPattern bits))) w

section Denotes

variable {bits : Nat} {whole fraction : List Char}

theorem denotes_integer (h : Digits whole) (hbits : Decimal.nearest (Nat.ofDigitChars 10 whole 0) 1 = bits) :
    Denotes bits whole := by
  subst hbits
  have hlexeme := Lexeme.integer h
  have hvalue : Number.ofDigits whole [] = Decimal.ofPattern (Decimal.nearest (Nat.ofDigitChars 10 (whole ++ []) 0) 1) :=
    rfl
  rw [hvalue, List.append_nil] at hlexeme
  exact hlexeme

theorem denotes_decimal (h : Digits whole) (h' : Digits fraction)
    (hbits : Decimal.nearest (Nat.ofDigitChars 10 (whole ++ fraction) 0) (10 ^ fraction.length) = bits) :
    Denotes bits (whole ++ '.' :: fraction) := by
  subst hbits
  exact Lexeme.decimal h h'

/-- Every number of a lexeme has a pattern, at most that of infinity. -/
theorem Lexeme.exists_pattern {k : LexicalClass} {x : Float} {w : List Char} (h : Lexeme k (some (.number x)) w) :
    ∃ bits, bits ≤ Decimal.infinityBits ∧ x = Decimal.ofPattern bits := by
  have hle : ∀ num den, Decimal.nearest num den ≤ Decimal.infinityBits := by
    intro num den
    unfold Decimal.nearest
    split
    · exact Nat.zero_le _
    · exact Nat.min_le_right _ _
  cases h with
  | integer _ => exact ⟨_, hle _ _, rfl⟩
  | decimal _ _ => exact ⟨_, hle _ _, rfl⟩

end Denotes

/-! ## digits -/

section Digits

variable {v w : List Char}

theorem digits_wholeText (n : Nat) : Digits (Decimal.wholeText n) :=
  ⟨Nat.toDigits_ne_nil, fun _ hc => Nat.isDigit_of_mem_toDigits (by decide) (by decide) hc⟩

theorem isDigit_of_mem_zeros {n : Nat} {c : Char} (h : c ∈ Decimal.zeros n) : c.isDigit = true := by
  obtain rfl := List.eq_of_mem_replicate h
  rfl

theorem Digits.append_zeros (h : Digits w) (n : Nat) : Digits (w ++ Decimal.zeros n) := by
  refine ⟨by simp [h.1], fun c hc => ?_⟩
  rcases List.mem_append.1 hc with hc | hc
  · exact h.2 c hc
  · exact isDigit_of_mem_zeros hc

theorem Digits.zeros_append (h : Digits w) (n : Nat) : Digits (Decimal.zeros n ++ w) := by
  refine ⟨by simp [h.1], fun c hc => ?_⟩
  rcases List.mem_append.1 hc with hc | hc
  · exact isDigit_of_mem_zeros hc
  · exact h.2 c hc

theorem Digits.take (h : Digits w) {n : Nat} (hn : 0 < n) : Digits (w.take n) := by
  refine ⟨fun hnil => ?_, fun c hc => h.2 c (List.mem_of_mem_take hc)⟩
  rcases List.take_eq_nil_iff.1 hnil with hzero | hempty
  · omega
  · exact h.1 hempty

theorem Digits.drop (h : Digits w) {n : Nat} (hn : n < w.length) : Digits (w.drop n) := by
  refine ⟨fun hnil => ?_, fun c hc => h.2 c (List.mem_of_mem_drop hc)⟩
  have := List.drop_eq_nil_iff.1 hnil
  omega

theorem ofDigitChars_wholeText (n : Nat) : Nat.ofDigitChars 10 (Decimal.wholeText n) 0 = n :=
  Nat.ofDigitChars_ten_toDigits

/-- Zeros behind digits multiply their value. -/
theorem ofDigitChars_append_zeros (n k : Nat) :
    Nat.ofDigitChars 10 (Decimal.wholeText n ++ Decimal.zeros k) 0 = n * 10 ^ k := by
  rw [Nat.ofDigitChars_append, ofDigitChars_wholeText, Decimal.zeros, Nat.ofDigitChars_replicate_zero, Nat.mul_comm]

/-- Zeros in front of digits leave it. -/
theorem ofDigitChars_zeros_append (n k : Nat) :
    Nat.ofDigitChars 10 (Decimal.zeros k ++ Decimal.wholeText n) 0 = n := by
  rw [Nat.ofDigitChars_append, Decimal.zeros, Nat.ofDigitChars_replicate_zero, Nat.mul_zero, ofDigitChars_wholeText]

end Digits

/-! ## the two ways in which a number is written -/

section Texts

variable {bits : Nat}

/-- Digits written without an exponent denote what they read as. -/
theorem denotes_positional {d : Decimal.Digits} (h : d.bits = bits) : Denotes bits (Decimal.positional 0 d) := by
  unfold Decimal.Digits.bits at h
  unfold Decimal.positional
  dsimp only
  split
  · rename_i he
    rw [if_pos he, Nat.pow_eq] at h
    rw [if_pos rfl, List.append_nil]
    split
    · rename_i hzero
      rw [hzero, Nat.zero_mul] at h
      rw [hzero, List.append_nil]
      exact denotes_integer (digits_wholeText 0) h
    · refine denotes_integer ((digits_wholeText _).append_zeros _) ?_
      rw [ofDigitChars_append_zeros, h]
  · rename_i he
    rw [if_neg he, Nat.pow_eq] at h
    have hplaces : 0 < (-d.exponent).toNat := by omega
    set n := (-d.exponent).toNat
    set all := Decimal.zeros (n + 1 - (Decimal.wholeText d.digits).length) ++ Decimal.wholeText d.digits with hall
    -- There are more digits than places, so one at least stands before the point.
    have hlength : n + 1 ≤ all.length := by
      rw [hall, List.length_append, Decimal.zeros, List.length_replicate]
      omega
    have hdigits : Digits all := (digits_wholeText _).zeros_append _
    have hdrop : (all.drop (all.length - n)).length = n := by
      rw [List.length_drop]
      omega
    have hvalue : Nat.ofDigitChars 10 all 0 = d.digits := ofDigitChars_zeros_append ..
    rw [Nat.zero_sub, Decimal.zeros, List.replicate_zero, List.append_nil]
    refine denotes_decimal (hdigits.take (by omega)) (hdigits.drop (by omega)) ?_
    rw [List.take_append_drop, hvalue, hdrop, h]

/-- A whole number with a zero after the point, or with nothing behind it, denotes its value. -/
theorem denotes_whole (hbits : bits < Decimal.infinityBits) {n : Nat} (hn : (n : ℚ) = Decimal.magnitudeValue bits)
    {mark : List Char} (hmark : mark = [] ∨ mark = ['.', '0']) : Denotes bits (Decimal.wholeText n ++ mark) := by
  rcases hmark with rfl | rfl
  · rw [List.append_nil]
    refine denotes_integer (digits_wholeText n) ?_
    rw [ofDigitChars_wholeText]
    refine Decimal.nearest_of_value one_ne_zero hbits ?_ hn
    rw [Nat.cast_one, div_one]
  · have hzero : Digits ['0'] := ⟨by simp, by simp⟩
    refine denotes_decimal (digits_wholeText n) hzero ?_
    refine Decimal.nearest_of_value (by decide) hbits ?_ hn
    rw [show ['0'] = Decimal.zeros 1 from rfl, ofDigitChars_append_zeros]
    norm_num [Decimal.zeros]

/-- The text of a finite number denotes it. -/
theorem denotes_text (hbits : bits < Decimal.infinityBits) {f : Number.Format}
    (hmark : f.wholeMark = [] ∨ f.wholeMark = ['.', '0']) : Denotes bits (f.text (Decimal.ofPattern bits)) := by
  unfold Number.Format.text
  rw [Decimal.ofFloat_ofPattern hbits]
  dsimp only
  split
  · rename_i n hn
    have hwhole : Decimal.whole? (Decimal.magnitude bits).1 (Decimal.magnitude bits).2 = some n :=
      (Option.filter_eq_some_iff.1 hn).1
    exact denotes_whole hbits (Decimal.whole?_eq_some hwhole) hmark
  · exact denotes_positional (Number.bits_digits hbits .up)

end Texts

/-! ## scanning a number again -/

/-- A number is written with digits and points. -/
theorem Lexeme.not_mem_number {kind? : Option Kind} {w : List Char} {c : Char} (h : Lexeme .number kind? w)
    (hc : c.isDigit = false) (hpoint : c ≠ '.') : c ∉ w := by
  have hdigits : ∀ {v : List Char}, Digits v → c ∉ v := fun hv hmem => by simp [hv.2 c hmem] at hc
  cases h with
  | integer hw => exact hdigits hw
  | decimal hw hf =>
    simp only [List.mem_append, List.mem_cons, not_or]
    exact ⟨hdigits hw, hpoint, hdigits hf⟩

/-- A text that denotes a number has it as its only token. -/
theorem Denotes.items {bits : Nat} {w : List Char} (h : Denotes bits w) :
    Item.ofSource (String.ofList w) =
      [.token ⟨.number (Decimal.ofPattern bits), String.ofList w, 1⟩, .token (Token.endOfFile 1)] := by
  have hpieces := Piece.ofSource_lexeme h (.inl rfl : BeforeSpace [])
  have hline : Item.newlines w = 0 := List.count_eq_zero.2 (h.not_mem_number rfl (by decide))
  rw [List.append_nil, show Piece.ofSource [] = [] from rfl] at hpieces
  rw [Item.ofSource, String.toList_ofList, hpieces]
  simp only [Item.ofPieces, Piece.text, hline, Nat.add_zero]

/-- The literal text and the output text of a finite number token are each scanned as that number and nothing else. -/
theorem number_survives_text {source : String} {t : Token} {x : Float} (ht : t ∈ tokensOf source)
    (hkind : t.kind = .number x) (hfinite : x.isFinite = true) :
    ∀ text ∈ [Number.literal x, Number.display x],
      lexicalFaults text = [] ∧ tokensOf text = [⟨.number x, text, 1⟩, Token.endOfFile 1] := by
  obtain ⟨k, hlexeme⟩ : ∃ k, Lexeme k (some t.kind) t.lexeme.toList := by
    refine (lexeme_of_mem_tokensOf ht).resolve_left fun heof => ?_
    rw [hkind] at heof
    cases heof
  rw [hkind] at hlexeme
  obtain ⟨bits, hle, rfl⟩ := hlexeme.exists_pattern
  have hbits : bits < Decimal.infinityBits := Decimal.lt_of_isFinite hle hfinite
  intro text htext
  have hitems : Item.ofSource text =
      [.token ⟨.number (Decimal.ofPattern bits), text, 1⟩, .token (Token.endOfFile 1)] := by
    rcases List.mem_pair.1 htext with rfl | rfl
    · exact (denotes_text hbits (f := Number.literalFormat) (.inr rfl)).items
    · exact (denotes_text hbits (f := Number.outputFormat) (.inl rfl)).items
  rw [lexicalFaults, tokensOf, hitems]
  exact ⟨rfl, rfl⟩

/-- A number beyond the whole numbers that are exact is rounded once, when its token is read, and its two texts are
then read as the rounded number. -/
theorem number_survives_text_beyond_exact :
    let x := Number.ofDigits "9007199254740993".toList []
    ⟨.number x, "9007199254740993", 1⟩ ∈ tokensOf "9007199254740993" ∧ x.isFinite = true ∧
      Number.literal x = "9007199254740992.0" ∧ Number.display x = "9007199254740992" ∧
      ∀ text ∈ [Number.literal x, Number.display x],
        lexicalFaults text = [] ∧ tokensOf text = [⟨.number x, text, 1⟩, Token.endOfFile 1] := by
  intro x
  have ht : (⟨.number x, "9007199254740993", 1⟩ : Token) ∈ tokensOf "9007199254740993" := by decide +kernel
  have hfinite : x.isFinite = true := by decide +kernel
  exact ⟨ht, hfinite, by decide +kernel, by decide +kernel, number_survives_text ht rfl hfinite⟩

end ScriptLang
