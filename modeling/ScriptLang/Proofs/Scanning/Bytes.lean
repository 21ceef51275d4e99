import ScriptLang.Token.Reader

/-!
# Characters and their bytes

* `encode s` — the bytes of a text;
* `Agrees q p` — the test `q` gives for each byte of a character what the test `p` gives for the character;
* `isValid_ofList`, `slice?_ofList`, `get?_ofList` — boundaries, texts and characters in a source.

A character below 128 is one byte, which has its number; all bytes of other characters are at least 128.  So a byte that
looks like a character of the lexical grammar is that character, and no part of another one.
-/

namespace ScriptLang

/-- The bytes of a text. -/
def encode (s : List Char) : List UInt8 := s.flatMap String.utf8EncodeChar

@[simp] theorem encode_nil : encode [] = [] := rfl

theorem encode_cons (c : Char) (s : List Char) : encode (c :: s) = String.utf8EncodeChar c ++ encode s := rfl

@[simp] theorem encode_append (s t : List Char) : encode (s ++ t) = encode s ++ encode t := List.flatMap_append

/-! ## the bytes of one character -/

section Character

variable {c k : Char} {b : UInt8} {p : Char → Bool}

theorem exists_utf8EncodeChar (c : Char) : ∃ b bs, String.utf8EncodeChar c = b :: bs :=
  List.exists_cons_of_ne_nil String.utf8EncodeChar_ne_nil

theorem utf8EncodeChar_of_lt (h : c.toNat < 128) : String.utf8EncodeChar c = [c.toUInt8] := by
  refine String.utf8EncodeChar_eq_singleton (Char.utf8Size_eq_one_iff.2 ?_)
  exact UInt32.le_iff_toNat_le.2 (Nat.le_of_lt_succ h)

theorem le_of_mem_utf8EncodeChar (h : 128 ≤ c.toNat) (hb : b ∈ String.utf8EncodeChar c) : 128 ≤ b.toNat := by
  have hc : 128 ≤ c.val.toNat := h
  revert hb
  fun_cases String.utf8EncodeChar c with
  | case1 v h1 => omega
  | case2 v h1 h2 =>
    simp only [List.mem_cons, List.not_mem_nil, or_false]
    rintro (rfl | rfl) <;> rw [UInt8.toNat_ofNat'] <;> omega
  | case3 v h1 h2 h3 =>
    simp only [List.mem_cons, List.not_mem_nil, or_false]
    rintro (rfl | rfl | rfl) <;> rw [UInt8.toNat_ofNat'] <;> omega
  | case4 v h1 h2 h3 =>
    simp only [List.mem_cons, List.not_mem_nil, or_false]
    rintro (rfl | rfl | rfl | rfl) <;> rw [UInt8.toNat_ofNat'] <;> omega

theorem toNat_ofUInt8 (b : UInt8) : (Char.ofUInt8 b).toNat = b.toNat := UInt8.toNat_toUInt32 b

theorem ofUInt8_toUInt8 (h : c.toNat < 128) : Char.ofUInt8 c.toUInt8 = c := by
  refine Char.ext (UInt32.toNat_inj.1 ?_)
  show c.val.toUInt8.toUInt32.toNat = c.val.toNat
  have hc : c.val.toNat < 128 := h
  rw [UInt8.toNat_toUInt32, UInt32.toNat_toUInt8]
  omega

theorem toUInt8_ofUInt8 (b : UInt8) : (Char.ofUInt8 b).toUInt8 = b := by
  refine UInt8.toNat_inj.1 ?_
  show (b.toUInt32.toUInt8).toNat = b.toNat
  rw [UInt32.toNat_toUInt8, UInt8.toNat_toUInt32]
  exact Nat.mod_eq_of_lt b.toNat_lt

/-- A byte of a character is all of it, or is no character below 128. -/
theorem ofUInt8_of_mem (hb : b ∈ String.utf8EncodeChar c) :
    Char.ofUInt8 b = c ∧ String.utf8EncodeChar c = [b] ∧ c.toNat < 128 ∨
      128 ≤ c.toNat ∧ 128 ≤ (Char.ofUInt8 b).toNat := by
  by_cases hc : c.toNat < 128
  · have hbytes := utf8EncodeChar_of_lt hc
    rw [hbytes, List.mem_singleton] at hb
    subst hb
    exact .inl ⟨ofUInt8_toUInt8 hc, hbytes, hc⟩
  · rw [toNat_ofUInt8]
    exact .inr ⟨by omega, le_of_mem_utf8EncodeChar (by omega) hb⟩

/-- The bytes of a character below 128 are found only where it stands. -/
theorem eq_toUInt8_iff (hk : k.toNat < 128) (hb : b ∈ String.utf8EncodeChar c) : b = k.toUInt8 ↔ c = k := by
  constructor
  · rintro rfl
    rcases ofUInt8_of_mem hb with ⟨hc, -, -⟩ | ⟨-, hle⟩
    · rw [← hc, ofUInt8_toUInt8 hk]
    · rw [ofUInt8_toUInt8 hk] at hle
      omega
  · rintro rfl
    rw [utf8EncodeChar_of_lt hk] at hb
    exact List.mem_singleton.1 hb

/-- A test of bytes that gives for each byte of a character what a test of characters gives for it. -/
def Agrees (q : UInt8 → Bool) (p : Char → Bool) : Prop := ∀ c, ∀ b ∈ String.utf8EncodeChar c, q b = p c

theorem agrees_passes (hp : ∀ c, p c = true → c.toNat < 128) : Agrees (Byte.passes p) p := by
  intro c b hb
  rcases ofUInt8_of_mem hb with ⟨hc, -, -⟩ | ⟨hc, hb⟩
  · rw [Byte.passes, hc]
  · have hno : ∀ d : Char, 128 ≤ d.toNat → p d = false := fun d hd =>
      Bool.eq_false_iff.2 fun h => absurd (hp d h) (by omega)
    rw [Byte.passes, hno _ hc, hno _ hb]

theorem agrees_ne (hk : k.toNat < 128) : Agrees (· != k.toUInt8) (· != k) := by
  intro c b hb
  have h := eq_toUInt8_iff hk hb
  grind

theorem lt_of_isDigit (h : c.isDigit = true) : c.toNat < 128 := by
  simp only [Char.isDigit, Bool.and_eq_true, decide_eq_true_eq, ge_iff_le, UInt32.le_iff_toNat_le] at h
  have hle : c.toNat ≤ 57 := h.2
  omega

theorem lt_of_isAlpha (h : c.isAlpha = true) : c.toNat < 128 := by
  unfold Char.isAlpha Char.isUpper Char.isLower at h
  simp only [Bool.or_eq_true, Bool.and_eq_true, decide_eq_true_eq, ge_iff_le, UInt32.le_iff_toNat_le] at h
  rcases h with h | h
  · have hle : c.toNat ≤ 90 := h.2
    omega
  · have hle : c.toNat ≤ 122 := h.2
    omega

theorem lt_of_isNameChar (h : Piece.isNameChar c = true) : c.toNat < 128 := by
  simp only [Piece.isNameChar, Char.isAlphanum, Bool.or_eq_true, decide_eq_true_eq] at h
  rcases h with (h | h) | rfl
  · exact lt_of_isAlpha h
  · exact lt_of_isDigit h
  · decide

theorem lt_of_isNameStart (h : Piece.isNameStart c = true) : c.toNat < 128 := by
  simp only [Piece.isNameStart, Bool.or_eq_true, decide_eq_true_eq] at h
  rcases h with h | rfl
  · exact lt_of_isAlpha h
  · decide

theorem lt_of_isSpace (h : Piece.isSpace c = true) : c.toNat < 128 := by
  simp only [Piece.isSpace, Bool.or_eq_true, decide_eq_true_eq] at h
  rcases h with ((rfl | rfl) | rfl) | rfl <;> decide

end Character

/-! ## texts -/

section Text

variable {q : UInt8 → Bool} {p : Char → Bool}

theorem takeWhile_encode (h : Agrees q p) (s : List Char) : (encode s).takeWhile q = encode (s.takeWhile p) := by
  induction s with
  | nil => rfl
  | cons c s ih =>
    rw [encode_cons]
    cases hc : p c with
    | true =>
      rw [List.takeWhile_append_of_pos fun b hb => by rw [h c b hb, hc], ih, List.takeWhile_cons_of_pos hc, encode_cons]
    | false =>
      obtain ⟨b, bs, hb⟩ := exists_utf8EncodeChar c
      have hfirst : q b = false := by rw [h c b (by simp [hb]), hc]
      simp [hb, hfirst, hc]

theorem toUTF8_ofList (s : List Char) : (String.ofList s).toUTF8.data.toList = encode s := by
  rw [String.toUTF8_eq_toByteArray, String.toByteArray_ofList, List.utf8Encode, List.data_toByteArray]
  rfl

theorem eq_of_toUTF8 {s t : String} (h : s.toUTF8.data.toList = t.toUTF8.data.toList) : s = t :=
  String.toByteArray_inj.1 (ByteArray.ext (Array.toList_inj.1 h))

theorem encode_injective {s t : List Char} (h : encode s = encode t) : s = t := by
  refine String.ofList_injective (eq_of_toUTF8 ?_)
  rw [toUTF8_ofList, toUTF8_ofList, h]

theorem utf8ByteSize_ofList (s : List Char) : (String.ofList s).utf8ByteSize = (encode s).length := by
  rw [← toUTF8_ofList]
  rfl

end Text

/-! ## cutting out of a source -/

theorem isValid_ofList (u v : List Char) :
    (⟨(encode u).length⟩ : String.Pos.Raw).IsValid (String.ofList (u ++ v)) := by
  refine String.Pos.Raw.isValid_iff_exists_append.2 ⟨String.ofList u, String.ofList v, String.ofList_append, ?_⟩
  rw [String.rawEndPos, utf8ByteSize_ofList]

theorem pos?_eq_some {s : String} {p : String.Pos.Raw} (h : p.IsValid s) : s.pos? p = some (s.pos p h) := by
  simp [String.pos?, String.pos, String.Slice.pos?, h.toSlice]

theorem slice?_ofList (u v w : List Char) :
    slice? (String.ofList (u ++ (v ++ w))) (encode u).length (encode (u ++ v)).length = some (String.ofList v) := by
  have hstart := isValid_ofList u (v ++ w)
  have hstop := isValid_ofList (u ++ v) w
  rw [List.append_assoc] at hstop
  have hle : (encode u).length ≤ (encode (u ++ v)).length := by simp
  simp only [slice?, pos?_eq_some hstart, pos?_eq_some hstop, hle, if_true, Option.some.injEq]
  refine eq_of_toUTF8 ?_
  rw [String.toUTF8_eq_toByteArray, String.toByteArray_extract, String.offset_pos, String.offset_pos,
    ← String.toUTF8_eq_toByteArray, ByteArray.data_extract, Array.toList_extract, toUTF8_ofList, toUTF8_ofList]
  simp [List.extract]

theorem utf8GetAux?_cons (c : Char) (s : List Char) (i p : String.Pos.Raw) :
    String.Pos.Raw.utf8GetAux? (c :: s) i p = if i = p then some c else String.Pos.Raw.utf8GetAux? s (i + c) p := rfl

theorem utf8GetAux?_append (u w : List Char) (c : Char) (o : Nat) :
    String.Pos.Raw.utf8GetAux? (u ++ c :: w) ⟨o⟩ ⟨o + (encode u).length⟩ = some c := by
  induction u generalizing o with
  | nil => rw [List.nil_append, utf8GetAux?_cons, if_pos (by simp)]
  | cons d u ih =>
    have hlength : (encode (d :: u)).length = d.utf8Size + (encode u).length := by simp [encode_cons]
    have hne : (⟨o⟩ : String.Pos.Raw) ≠ ⟨o + (encode (d :: u)).length⟩ := by
      have hd := d.utf8Size_pos
      rw [hlength, ne_eq, String.Pos.Raw.ext_iff]
      dsimp only
      omega
    rw [List.cons_append, utf8GetAux?_cons, if_neg hne, hlength, ← Nat.add_assoc]
    exact ih (o + d.utf8Size)

theorem get?_ofList (u w : List Char) (c : Char) :
    (⟨(encode u).length⟩ : String.Pos.Raw).get? (String.ofList (u ++ c :: w)) = some c := by
  have h := utf8GetAux?_append u w c 0
  rw [Nat.zero_add] at h
  show String.Pos.Raw.utf8GetAux? (String.ofList (u ++ c :: w)).toList 0 _ = some c
  rw [String.toList_ofList]
  exact h

end ScriptLang
