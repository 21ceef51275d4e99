import ScriptLang.Proofs.Scanning.Bytes
import ScriptLang.Proofs.Scanning.LongestMatch

/-!
# What a reader reads

* `spotAt before line after` — a spot between two parts of a source;
* `Spot.stringEnd_spotAt`, `Spot.commentEnd_spotAt` — the loops over bytes end where those over characters do;
* `Spot.stretch_matches` — a stretch is the piece that is cut off where it starts.

A step over bytes may stop inside a character: a backslash takes one byte with it.  The bytes that are left of the
character are taken for no others, so the loop comes to its end.
-/

namespace ScriptLang

/-- The spot between two parts of a source. -/
def spotAt (before : List Char) (line : Nat) (after : List Char) : Spot := ⟨(encode before).length, line, encode after⟩

/-- What a reader finds in a piece. -/
def Piece.finding : Piece → Spot.Finding
  | blank _ => .skipped
  | token kind _ => .token kind
  | fault cause _ => .fault cause

namespace Spot

open Piece (spanOf splitString splitComment splitFraction)

variable {before s : List Char} {c : Char} {line : Nat}

/-! ## steps over text -/

@[simp] theorem offset_spotAt (before : List Char) (line : Nat) (after : List Char) :
    (spotAt before line after).offset = (encode before).length := rfl

@[simp] theorem line_spotAt (before : List Char) (line : Nat) (after : List Char) :
    (spotAt before line after).line = line := rfl

@[simp] theorem left_spotAt (before : List Char) (line : Nat) (after : List Char) :
    (spotAt before line after).left = encode after := rfl

theorem skip_spotAt (before : List Char) (line : Nat) (v w : List Char) :
    (spotAt before line (v ++ w)).skip (encode v).length = spotAt (before ++ v) line w := by
  simp [skip, spotAt]

theorem skip_one (hc : c.toNat < 128) : (spotAt before line (c :: s)).skip 1 = spotAt (before ++ [c]) line s := by
  have h := skip_spotAt before line [c] s
  simpa [encode_cons, utf8EncodeChar_of_lt hc] using h

theorem skipWhile_spotAt {q : UInt8 → Bool} {p : Char → Bool} (h : Agrees q p) (s : List Char) :
    (spotAt before line s).skipWhile q = spotAt (before ++ s.takeWhile p) line (s.dropWhile p) := by
  have hskip := skip_spotAt before line (s.takeWhile p) (s.dropWhile p)
  rw [List.takeWhile_append_dropWhile] at hskip
  rw [skipWhile, left_spotAt, takeWhile_encode h, hskip]

theorem lineAfter_of_mem {b : UInt8} (hb : b ∈ String.utf8EncodeChar c) :
    Byte.lineAfter b line = line + Item.newlines [c] := by
  have hline := eq_toUInt8_iff (k := '\n') (by decide) hb
  unfold Byte.lineAfter
  split
  · next h =>
    obtain rfl := hline.1 h
    rfl
  · next h =>
    have hc : c ≠ '\n' := fun hc => h (hline.2 hc)
    simp [Item.newlines, hc]

theorem newlines_append (s t : List Char) : Item.newlines (s ++ t) = Item.newlines s + Item.newlines t :=
  List.count_append

/-- A text is passed over in two steps or in one. -/
theorem spotAt_append (before v w after : List Char) (line : Nat) :
    spotAt (before ++ v ++ w) (line + Item.newlines v + Item.newlines w) after =
      spotAt (before ++ (v ++ w)) (line + Item.newlines (v ++ w)) after := by
  rw [List.append_assoc, Nat.add_assoc, newlines_append]

theorem ne_of_le {b k : UInt8} (h : 128 ≤ b.toNat) (hk : k.toNat < 128) : b ≠ k := by
  rintro rfl
  omega

theorem lineAfter_of_le {b : UInt8} (h : 128 ≤ b.toNat) : Byte.lineAfter b line = line :=
  if_neg (ne_of_le h (by decide))

/-- Behind the first byte of a character stand none that could be taken for others. -/
theorem le_of_mem_tail {b : UInt8} {bs : List UInt8} (h : String.utf8EncodeChar c = b :: bs) :
    ∀ d ∈ bs, 128 ≤ d.toNat := by
  intro d hd
  rcases ofUInt8_of_mem (c := c) (b := b) (by simp [h]) with ⟨-, hone, -⟩ | ⟨hc, -⟩
  · rw [hone, List.cons.injEq] at h
    rw [← h.2] at hd
    cases hd
  · exact le_of_mem_utf8EncodeChar hc (by simp [h, hd])

theorem length_encode_snoc (before : List Char) {b : UInt8} {bs : List UInt8} (h : String.utf8EncodeChar c = b :: bs) :
    (encode (before ++ [c])).length = (encode before).length + 1 + bs.length := by
  rw [encode_append, List.length_append, encode_cons, h, encode_nil, List.append_nil, List.length_cons]
  omega

/-! ## strings -/

/-- A string goes on over bytes of other characters. -/
theorem stringEnd_plain {bs : List UInt8} (h : ∀ b ∈ bs, 128 ≤ b.toNat) (offset line : Nat) (left : List UInt8) :
    stringEnd offset line (bs ++ left) = stringEnd (offset + bs.length) line left := by
  induction bs generalizing offset with
  | nil => rfl
  | cons b bs ih =>
    rw [List.forall_mem_cons] at h
    rw [List.cons_append, stringEnd.eq_4 _ _ b _ (ne_of_le h.1 (by decide))
      (fun _ _ hb => absurd hb (ne_of_le h.1 (by decide))), lineAfter_of_le h.1, ih h.2, List.length_cons,
      Nat.add_assoc, Nat.add_comm 1]

theorem stringEnd_char (hquote : c ≠ '"') (hescape : c = '\\' → s = []) :
    stringEnd (encode before).length line (encode (c :: s)) =
      stringEnd (encode (before ++ [c])).length (line + Item.newlines [c]) (encode s) := by
  obtain ⟨b, bs, hbytes⟩ := exists_utf8EncodeChar c
  have hb : b ∈ String.utf8EncodeChar c := by simp [hbytes]
  rw [encode_cons, hbytes, List.cons_append, stringEnd.eq_4, lineAfter_of_mem hb,
    stringEnd_plain (le_of_mem_tail hbytes), length_encode_snoc before hbytes]
  · exact fun h => hquote ((eq_toUInt8_iff (k := '"') (by decide) hb).1 h)
  · intro d left h hs
    have hc : c = '\\' := (eq_toUInt8_iff (k := '\\') (by decide) hb).1 h
    subst hc
    rw [utf8EncodeChar_of_lt (by decide), List.cons.injEq] at hbytes
    rw [← hbytes.2, hescape rfl] at hs
    cases hs

theorem stringEnd_escape (c : Char) (s : List Char) :
    stringEnd (encode before).length line (encode ('\\' :: c :: s)) =
      stringEnd (encode (before ++ ['\\', c])).length (line + Item.newlines ['\\', c]) (encode s) := by
  obtain ⟨b, bs, hbytes⟩ := exists_utf8EncodeChar c
  have hb : b ∈ String.utf8EncodeChar c := by simp [hbytes]
  have hlength : (encode (before ++ ['\\', c])).length = (encode before).length + 2 + bs.length := by
    have h := length_encode_snoc (before ++ ['\\']) hbytes
    rw [List.append_assoc] at h
    rw [show ['\\', c] = ['\\'] ++ [c] from rfl, h, encode_append, List.length_append]
    rfl
  have hlines : Item.newlines ['\\', c] = Item.newlines [c] := by simp [Item.newlines]
  rw [hlength, hlines, ← lineAfter_of_mem hb, ← stringEnd_plain (le_of_mem_tail hbytes), encode_cons, encode_cons,
    hbytes]
  rfl

theorem stringEnd_spotAt (before : List Char) (line : Nat) (s : List Char) :
    stringEnd (encode before).length line (encode s) =
      match splitString s with
      | some (raw, rest) => spotAt (before ++ raw) (line + Item.newlines raw) ('"' :: rest)
      | none => spotAt (before ++ s) (line + Item.newlines s) [] := by
  fun_induction splitString s generalizing before line with
  | case1 => simp [stringEnd, spotAt, Item.newlines]
  | case2 s =>
    simp only [spotAt, List.append_nil]
    rfl
  | case3 c s ih =>
    rw [stringEnd_escape, ih]
    cases splitString s <;> exact spotAt_append before ['\\', c] _ _ line
  | case4 c s hquote hescape ih =>
    have hlast : c = '\\' → s = [] := by
      intro hc
      cases s with
      | nil => rfl
      | cons d s => exact (hescape d s hc rfl).elim
    rw [stringEnd_char hquote hlast, ih]
    cases splitString s <;> exact spotAt_append before [c] _ _ line

/-! ## block comments -/

/-- A comment goes on over bytes of other characters. -/
theorem commentEnd_plain {bs : List UInt8} (h : ∀ b ∈ bs, 128 ≤ b.toNat) (depth offset line : Nat) (left : List UInt8) :
    commentEnd depth offset line (bs ++ left) = commentEnd depth (offset + bs.length) line left := by
  induction bs generalizing offset with
  | nil => rfl
  | cons b bs ih =>
    rw [List.forall_mem_cons] at h
    rw [List.cons_append, commentEnd.eq_5 _ _ _ b _ (fun _ hb => absurd hb (ne_of_le h.1 (by decide)))
      (fun _ hb => absurd hb (ne_of_le h.1 (by decide))), lineAfter_of_le h.1, ih h.2, List.length_cons, Nat.add_assoc,
      Nat.add_comm 1]

/-- A text that starts with a byte of a character below 128 starts with the character. -/
theorem exists_of_encode_eq {k : Char} (hk : k.toNat < 128) {left : List UInt8} (h : encode s = k.toUInt8 :: left) :
    ∃ t, s = k :: t := by
  cases s with
  | nil => cases h
  | cons c s =>
    obtain ⟨b, bs, hbytes⟩ := exists_utf8EncodeChar c
    rw [encode_cons, hbytes, List.cons_append, List.cons.injEq] at h
    have hc : c = k := (eq_toUInt8_iff hk (by simp [hbytes])).1 h.1
    exact ⟨s, by rw [hc]⟩

theorem commentEnd_char (hopen : ∀ t, c = '/' → s = '*' :: t → False) (hclose : ∀ t, c = '*' → s = '/' :: t → False)
    (depth : Nat) :
    commentEnd depth (encode before).length line (encode (c :: s)) =
      commentEnd depth (encode (before ++ [c])).length (line + Item.newlines [c]) (encode s) := by
  obtain ⟨b, bs, hbytes⟩ := exists_utf8EncodeChar c
  have hb : b ∈ String.utf8EncodeChar c := by simp [hbytes]
  -- a delimiter in the bytes is one in the text
  have hpair : ∀ {k d : Char} {left : List UInt8}, k.toNat < 128 → d.toNat < 128 → b = k.toUInt8 →
      bs ++ encode s = d.toUInt8 :: left → c = k ∧ ∃ t, s = d :: t := by
    intro k d left hk hd h hs
    obtain rfl := (eq_toUInt8_iff hk hb).1 h
    rw [utf8EncodeChar_of_lt hk, List.cons.injEq] at hbytes
    rw [← hbytes.2] at hs
    exact ⟨rfl, exists_of_encode_eq hd hs⟩
  rw [encode_cons, hbytes, List.cons_append, commentEnd.eq_5, lineAfter_of_mem hb,
    commentEnd_plain (le_of_mem_tail hbytes), length_encode_snoc before hbytes]
  · intro left h hs
    obtain ⟨hc, t, ht⟩ := hpair (k := '/') (d := '*') (by decide) (by decide) h hs
    exact hopen t hc ht
  · intro left h hs
    obtain ⟨hc, t, ht⟩ := hpair (k := '*') (d := '/') (by decide) (by decide) h hs
    exact hclose t hc ht

theorem commentEnd_spotAt (depth : Nat) (before : List Char) (line : Nat) (s : List Char) :
    commentEnd depth (encode before).length line (encode s) =
      match splitComment depth s with
      | some (body, rest) => (true, spotAt (before ++ body) (line + Item.newlines body) rest)
      | none => (false, spotAt (before ++ s) (line + Item.newlines s) []) := by
  -- a delimiter is two bytes on one line
  have hlength : ∀ before : List Char, (encode (before ++ ['/', '*'])).length = (encode before).length + 2 ∧
      (encode (before ++ ['*', '/'])).length = (encode before).length + 2 := by
    intro before
    simp only [encode_append, List.length_append]
    exact ⟨rfl, rfl⟩
  fun_induction splitComment depth s generalizing before line with
  | case1 => simp [commentEnd, spotAt, Item.newlines]
  | case2 depth s ih =>
    have hstep : commentEnd depth (encode before).length line (encode ('/' :: '*' :: s)) =
        commentEnd (depth + 1) (encode (before ++ ['/', '*'])).length line (encode s) := by
      rw [(hlength before).1]
      rfl
    rw [hstep, ih]
    cases splitComment (depth + 1) s <;> exact congrArg _ (spotAt_append before ['/', '*'] _ _ line)
  | case3 s =>
    simp only [spotAt, (hlength before).2]
    rfl
  | case4 s depth ih =>
    have hstep : commentEnd (depth + 1) (encode before).length line (encode ('*' :: '/' :: s)) =
        commentEnd depth (encode (before ++ ['*', '/'])).length line (encode s) := by
      rw [(hlength before).2]
      rfl
    rw [hstep, ih]
    cases splitComment depth s <;> exact congrArg _ (spotAt_append before ['*', '/'] _ _ line)
  | case5 depth c s hopen hclose ih =>
    rw [commentEnd_char hopen hclose, ih]
    cases splitComment depth s <;> exact congrArg _ (spotAt_append before [c] _ _ line)

/-! ## numbers -/

theorem peek_mem (before : List Char) (line : Nat) (c : Char) (s : List Char) :
    (spotAt before line (c :: s)).peek ∈ String.utf8EncodeChar c := by
  obtain ⟨b, bs, hbytes⟩ := exists_utf8EncodeChar c
  simp [peek, spotAt, encode_cons, hbytes]

theorem peekNext_mem (hc : c.toNat < 128) (before : List Char) (line : Nat) (d : Char) (s : List Char) :
    (spotAt before line (c :: d :: s)).peekNext ∈ String.utf8EncodeChar d := by
  obtain ⟨b, bs, hbytes⟩ := exists_utf8EncodeChar d
  simp [peekNext, spotAt, encode_cons, hbytes, utf8EncodeChar_of_lt hc]

theorem agrees_isDigit : Agrees (Byte.passes Char.isDigit) Char.isDigit := agrees_passes fun _ => lt_of_isDigit

/-- A point is read with a digit behind it only. -/
theorem fraction_spotAt (before : List Char) (line : Nat) (s : List Char) :
    (if (spotAt before line s).peek = Byte.point && Byte.passes Char.isDigit (spotAt before line s).peekNext
      then ((spotAt before line s).skip 1).skipWhile (Byte.passes Char.isDigit) else spotAt before line s) =
      spotAt (before ++ (splitFraction s).1) line (splitFraction s).2 := by
  fun_cases splitFraction s with
  | case1 d s hd =>
    have hnext := agrees_isDigit d _ (peekNext_mem (c := '.') (by decide) before line d s)
    rw [if_pos (by rw [hnext, hd]; rfl), skip_one (by decide), skipWhile_spotAt agrees_isDigit, List.append_assoc]
    rfl
  | case2 d s hd =>
    have hnext := agrees_isDigit d _ (peekNext_mem (c := '.') (by decide) before line d s)
    rw [if_neg (by rw [hnext]; simp [hd]), List.append_nil]
  | case3 s h =>
    rw [List.append_nil]
    cases s with
    | nil => rfl
    | cons c s =>
      by_cases hc : c = '.'
      · subst hc
        cases s with
        | nil => rfl
        | cons d s => exact (h d s rfl).elim
      · have hpeek : (spotAt before line (c :: s)).peek ≠ Byte.point := fun hp =>
          hc ((eq_toUInt8_iff (k := '.') (by decide) (peek_mem before line c s)).1 hp)
        rw [if_neg (by simp [hpeek])]

theorem ofText_append {whole fraction : List Char} (hw : ∀ d ∈ whole, d.isDigit = true)
    (hf : fraction = [] ∨ fraction.head? = some '.') :
    Number.ofText (whole ++ fraction) = Number.ofDigits whole fraction.tail := by
  rcases hf with rfl | hf
  · rw [Number.ofText, List.takeWhile_append_of_pos hw, List.dropWhile_append_of_pos hw]
    simp
  · obtain ⟨rest, rfl⟩ := List.head?_eq_some_iff.1 hf
    obtain ⟨htake, hdrop⟩ := takeWhile_append_stop hw (c := '.') rfl rest
    rw [Number.ofText, htake, hdrop]

theorem newlines_eq_zero {p : Char → Bool} (hp : p '\n' = false) (h : ∀ d ∈ s, p d = true) : Item.newlines s = 0 := by
  refine List.count_eq_zero.2 fun hmem => ?_
  rw [h _ hmem] at hp
  cases hp

theorem splitFraction_head (s : List Char) : (splitFraction s).1 = [] ∨ (splitFraction s).1.head? = some '.' := by
  fun_cases splitFraction s with
  | case1 d s hd => exact .inr rfl
  | case2 d s hd => exact .inl rfl
  | case3 s h => exact .inl rfl

theorem newlines_splitFraction (s : List Char) : Item.newlines (splitFraction s).1 = 0 := by
  fun_cases splitFraction s with
  | case1 d s hd =>
    have h := newlines_eq_zero (p := Char.isDigit) rfl fun e he => of_mem_takeWhile (s := d :: s) he
    simpa [Item.newlines, spanOf] using h
  | case2 d s hd => rfl
  | case3 s h => rfl

/-- What is to be shown of each kind of stretch: it is the piece that is cut off there. -/
def Matches (before : List Char) (line : Nat) (p : Piece × List Char) (r : Option (Finding × Spot)) : Prop :=
  r = some (p.1.finding, spotAt (before ++ p.1.text) (line + Item.newlines p.1.text) p.2)

theorem slice?_of_append (before : List Char) {v w u : List Char} (h : v ++ w = u) :
    slice? (String.ofList (before ++ u)) (encode before).length (encode (before ++ v)).length =
      some (String.ofList v) := by
  rw [← h]
  exact slice?_ofList before v w

theorem number_matches (hc : c.isDigit = true) :
    Matches before line (Piece.number c s)
      (number (String.ofList (before ++ c :: s)) (encode before).length (spotAt (before ++ [c]) line s)) := by
  have hdigits : ∀ d ∈ c :: s.takeWhile Char.isDigit, d.isDigit = true :=
    List.forall_mem_cons.2 ⟨hc, fun d hd => of_mem_takeWhile hd⟩
  have hfraction := splitFraction_head (s.dropWhile Char.isDigit)
  have htext : (Piece.number c s).1.text =
      (c :: s.takeWhile Char.isDigit) ++ (splitFraction (s.dropWhile Char.isDigit)).1 := rfl
  have hlines : Item.newlines (Piece.number c s).1.text = 0 := by
    rw [htext, newlines_append, newlines_eq_zero rfl hdigits, newlines_splitFraction]
  have hstop : before ++ [c] ++ s.takeWhile Char.isDigit ++ (splitFraction (s.dropWhile Char.isDigit)).1 =
      before ++ (Piece.number c s).1.text := by
    rw [List.append_assoc, List.append_assoc]
    rfl
  rw [Matches, hlines, number]
  simp only [skipWhile_spotAt agrees_isDigit, fraction_spotAt, hstop]
  rw [offset_spotAt, slice?_of_append before (Piece.text_number c s), Option.map_some, String.toList_ofList, htext,
    ofText_append hdigits hfraction]
  rfl

/-! ## words -/

theorem ofBytes?_encode (w : List Char) : Keyword.ofBytes? (encode w) = Keyword.ofText? w := by
  have htext : ∀ k : Keyword, k.text.toUTF8.data.toList = encode w ↔ k.text.toList = w := by
    intro k
    have hk := toUTF8_ofList k.text.toList
    rw [String.ofList_toList] at hk
    rw [hk]
    exact ⟨encode_injective, congrArg encode⟩
  simp only [Keyword.ofBytes?, Keyword.ofText?, htext]

theorem word_matches (hc : Piece.isNameStart c = true) {b : UInt8} (hb : String.utf8EncodeChar c = [b]) :
    Matches before line (Piece.word c s) (some (word b (spotAt (before ++ [c]) line s))) := by
  have hagrees : Agrees (Byte.passes Piece.isNameChar) Piece.isNameChar := agrees_passes fun _ => lt_of_isNameChar
  have hlines : Item.newlines (Piece.word c s).1.text = 0 := by
    refine newlines_eq_zero (p := Piece.isNameChar) rfl
      (List.forall_mem_cons.2 ⟨Piece.isNameChar_of_isNameStart hc, ?_⟩)
    exact fun d hd => of_mem_takeWhile hd
  have hname : b :: (encode s).takeWhile (Byte.passes Piece.isNameChar) =
      encode (c :: s.takeWhile Piece.isNameChar) := by
    rw [takeWhile_encode hagrees, encode_cons, hb]
    rfl
  unfold Matches word
  rw [hlines, skipWhile_spotAt hagrees, List.append_assoc, left_spotAt, hname, ofBytes?_encode]
  rfl

/-! ## strings and comments -/

theorem string_matches (s : List Char) :
    Matches before line (Piece.quoted s)
      (string (String.ofList (before ++ '"' :: s)) (spotAt (before ++ ['"']) line s)) := by
  rw [Matches, string, offset_spotAt, line_spotAt, left_spotAt, stringEnd_spotAt]
  unfold Piece.quoted
  cases h : splitString s with
  | none => exact congrArg (fun spot => some (_, spot)) (spotAt_append before ['"'] s [] line)
  | some r =>
    obtain ⟨raw, rest⟩ := r
    obtain rfl := Piece.splitString_eq h
    have hslice : slice? (String.ofList (before ++ '"' :: (raw ++ '"' :: rest))) (encode (before ++ ['"'])).length
        (encode (before ++ ['"'] ++ raw)).length = some (String.ofList raw) := by
      have h := slice?_ofList (before ++ ['"']) raw ('"' :: rest)
      rwa [List.append_assoc before ['"'] (raw ++ _)] at h
    have hskip : (spotAt (before ++ ['"'] ++ raw) (line + Item.newlines raw) ('"' :: rest)).skip 1 =
        spotAt (before ++ ('"' :: raw ++ ['"'])) (line + Item.newlines ('"' :: raw ++ ['"'])) rest := by
      rw [skip_one (by decide), newlines_append]
      simp [Item.newlines]
    simp only [offset_spotAt, hslice, hskip]
    rfl

theorem comment_matches (s : List Char) :
    Matches before line (Piece.comment s) (some (comment (spotAt (before ++ ['/', '*']) line s))) := by
  rw [Matches, comment, offset_spotAt, line_spotAt, left_spotAt, commentEnd_spotAt]
  unfold Piece.comment
  cases splitComment 0 s with
  | none => exact congrArg (fun spot => some (_, spot)) (spotAt_append before ['/', '*'] s [] line)
  | some r => exact congrArg (fun spot => some (_, spot)) (spotAt_append before ['/', '*'] r.1 r.2 line)

/-! ## marks and other characters -/

theorem unexpected_matches (hc : c ≠ '\n') :
    Matches before line (.fault (.unexpected c) [c], s)
      (unexpected (String.ofList (before ++ c :: s)) (spotAt before line (c :: s))) := by
  have hskip : (spotAt before line (c :: s)).skip c.utf8Size = spotAt (before ++ [c]) line s := by
    have h := skip_spotAt before line [c] s
    simpa [encode_cons] using h
  have hlines : Item.newlines [c] = 0 := by simp [Item.newlines, hc]
  rw [Matches, unexpected, offset_spotAt, get?_ofList, Option.map_some, hskip]
  simp [Piece.text, Piece.finding, hlines]

theorem accept?_nil (k : UInt8) (before : List Char) (line : Nat) : (spotAt before line []).accept? k = none := rfl

theorem accept?_cons {k : UInt8} (hk : k.toNat < 128) (before : List Char) (line : Nat) (d : Char) (s : List Char) :
    (spotAt before line (d :: s)).accept? k =
      if Char.ofUInt8 k = d then some (spotAt (before ++ [d]) line s) else none := by
  obtain ⟨b, bs, hbytes⟩ := exists_utf8EncodeChar d
  have hd := eq_toUInt8_iff (k := Char.ofUInt8 k) (c := d) (b := b) (by rwa [toNat_ofUInt8]) (by simp [hbytes])
  rw [toUInt8_ofUInt8, eq_comm (a := d)] at hd
  have hhead : (spotAt before line (d :: s)).left.head? = some b := by simp [encode_cons, hbytes]
  rw [accept?, hhead]
  simp only [Option.some.injEq, hd]
  split
  · next h =>
    subst h
    rw [skip_one (by rwa [toNat_ofUInt8])]
  · rfl

/-- The marks that extend a character, each with its second character, which is below 128. -/
def Longer (c : Char) (longer : List (UInt8 × Mark)) : Prop :=
  (∀ p ∈ longer, p.1.toNat < 128) ∧ ∀ d, Mark.ofPair? c d = (longer.find? fun p => Char.ofUInt8 p.1 = d).map (·.2)

theorem second_of_text {m : Mark} {c d : Char} (h : m.text.toList = [c, d]) : d ∈ ['=', '-', '+'] := by
  cases m <;> simp [Mark.text] at h ⊢ <;> simp [← h.2]

/-- It is enough to look at the characters that marks end with. -/
theorem longer_of_all {c : Char} {longer : List (UInt8 × Mark)}
    (h : ['=', '-', '+'].all fun d => Mark.ofPair? c d = (longer.find? fun p => Char.ofUInt8 p.1 = d).map (·.2))
    (hall : longer.all fun p => Char.ofUInt8 p.1 ∈ ['=', '-', '+']) : Longer c longer := by
  have hlonger : ∀ p ∈ longer, Char.ofUInt8 p.1 ∈ ['=', '-', '+'] := fun p hp =>
    of_decide_eq_true (List.all_eq_true.1 hall p hp)
  refine ⟨fun p hp => ?_, fun d => ?_⟩
  · rw [← toNat_ofUInt8]
    have hsmall : ∀ d ∈ ['=', '-', '+'], d.toNat < 128 := by simp
    exact hsmall _ (hlonger p hp)
  · by_cases hd : d ∈ ['=', '-', '+']
    · exact of_decide_eq_true (List.all_eq_true.1 h d hd)
    · have hnone : Mark.ofPair? c d = none :=
        List.find?_eq_none.2 fun m _ hm => hd (second_of_text (by simpa using hm))
      have hfind : (longer.find? fun p => Char.ofUInt8 p.1 = d) = none :=
        List.find?_eq_none.2 fun p hp hpd => hd (by rw [← decide_eq_true_iff.1 hpd]; exact hlonger p hp)
      rw [hnone, hfind]
      rfl

theorem marks?_eq_some {b : UInt8} {m : Mark} {longer : List (UInt8 × Mark)} (h : Byte.marks? b = some (m, longer)) :
    Mark.ofChar? (Char.ofUInt8 b) = some m ∧ Longer (Char.ofUInt8 b) longer := by
  unfold Byte.marks? at h
  generalize Char.ofUInt8 b = c at h
  split at h <;> cases h <;> exact ⟨by decide, longer_of_all (by decide) (by decide)⟩

theorem marks?_eq_none {b : UInt8} (h : Byte.marks? b = none) (m : Mark) (s : List Char) :
    m.text.toList ≠ Char.ofUInt8 b :: s := by
  unfold Byte.marks? at h
  generalize Char.ofUInt8 b = c at h
  split at h <;> cases h
  cases m <;> simp [Mark.text] <;> rintro rfl <;> contradiction
theorem lt_of_text {m : Mark} (h : m.text.toList = c :: s) : c.toNat < 128 := by
  cases m <;> simp [Mark.text] at h <;> simp [← h.1]

theorem mark_spotAt (m : Mark) {longer : List (UInt8 × Mark)} (h : ∀ p ∈ longer, p.1.toNat < 128) (before : List Char)
    (line : Nat) (s : List Char) :
    mark m (spotAt before line s) longer =
      match s with
      | [] => (.token (.mark m), spotAt before line [])
      | d :: rest =>
        match longer.find? fun p => Char.ofUInt8 p.1 = d with
        | some p => (.token (.mark p.2), spotAt (before ++ [d]) line rest)
        | none => (.token (.mark m), spotAt before line (d :: rest)) := by
  induction longer with
  | nil => cases s <;> rfl
  | cons p longer ih =>
    rw [List.forall_mem_cons] at h
    unfold mark
    cases s with
    | nil =>
      rw [accept?_nil]
      exact ih h.2
    | cons d rest =>
      rw [accept?_cons h.1]
      by_cases hd : Char.ofUInt8 p.1 = d
      · simp [hd]
      · simp only [hd, if_false, List.find?_cons, decide_false]
        exact ih h.2

theorem operator_of_none (h : ∀ (m : Mark) (t : List Char), m.text.toList ≠ c :: t) (s : List Char) :
    Piece.operator c s = (.fault (.unexpected c) [c], s) := by
  have hone : Mark.ofChar? c = none := List.find?_eq_none.2 fun m _ hm => h m [] (by simpa using hm)
  have htwo : ∀ d, Mark.ofPair? c d = none := fun d => List.find?_eq_none.2 fun m _ hm => h m [d] (by simpa using hm)
  unfold Piece.operator
  cases s with
  | nil => simp [hone]
  | cons d rest => simp [hone, htwo]

theorem operator_matches {b : UInt8} {bs : List UInt8} (hbytes : String.utf8EncodeChar c = b :: bs) (hc : c ≠ '\n') :
    Matches before line (Piece.operator c s)
      (match Byte.marks? b with
      | some (m, longer) => some (mark m ((spotAt before line (c :: s)).skip 1) longer)
      | none => unexpected (String.ofList (before ++ c :: s)) (spotAt before line (c :: s))) := by
  rcases ofUInt8_of_mem (c := c) (b := b) (by simp [hbytes]) with ⟨hb, -, hlt⟩ | ⟨hle, hb⟩
  · cases h : Byte.marks? b with
    | none =>
      have hnone := marks?_eq_none h
      rw [hb] at hnone
      rw [operator_of_none hnone]
      exact unexpected_matches hc
    | some r =>
      obtain ⟨m, longer⟩ := r
      obtain ⟨hone, hlonger⟩ := marks?_eq_some h
      rw [hb] at hone hlonger
      have hline : Item.newlines [c] = 0 := by simp [Item.newlines, hc]
      simp only [Matches, Piece.operator, skip_one hlt, mark_spotAt m hlonger.1, hone]
      cases s with
      | nil => simp [Piece.finding, Piece.text, hline]
      | cons d rest =>
        simp only [hlonger.2 d]
        cases hfind : longer.find? fun p => Char.ofUInt8 p.1 = d with
        | none => simp [Piece.finding, Piece.text, hline]
        | some p =>
          have hpair : Mark.ofPair? c d = some p.2 := by rw [hlonger.2, hfind, Option.map_some]
          have hd : d ≠ '\n' := by
            rintro rfl
            exact absurd (second_of_text (Mark.text_of_find? hpair)) (by decide)
          have hlines : Item.newlines [c, d] = 0 := by simp [Item.newlines, hc, hd]
          simp [Piece.finding, Piece.text, hlines]
  · have hno : ∀ {d : Char}, 128 ≤ d.toNat → ∀ (m : Mark) (t : List Char), m.text.toList ≠ d :: t :=
      fun hd m t hm => absurd (lt_of_text hm) (by omega)
    cases h : Byte.marks? b with
    | none =>
      rw [operator_of_none (hno hle)]
      exact unexpected_matches hc
    | some r => exact absurd (Mark.text_of_find? (marks?_eq_some h).1) (hno hb _ _)

/-! ## any stretch -/

theorem peek_eq_iff {k : Char} (hk : k.toNat < 128) (hzero : k ≠ '\x00') (before : List Char) (line : Nat)
    (s : List Char) : (spotAt before line s).peek = k.toUInt8 ↔ s.head? = some k := by
  cases s with
  | nil =>
    have hne : (0 : UInt8) ≠ k.toUInt8 := by
      intro h
      have hk' := ofUInt8_toUInt8 hk
      rw [← h] at hk'
      exact hzero hk'.symm
    simpa [peek] using hne
  | cons c s => simp [eq_toUInt8_iff hk (peek_mem before line c s)]

theorem lineComment_matches (s : List Char) :
    Matches before line (.blank ('/' :: '/' :: (spanOf (· != '\n') s).1), (spanOf (· != '\n') s).2)
      (some (.skipped, (spotAt (before ++ ['/', '/']) line s).skipWhile (· != Byte.newline))) := by
  have hlines : Item.newlines ('/' :: '/' :: s.takeWhile (· != '\n')) = 0 := by
    refine newlines_eq_zero (p := (· != '\n')) rfl (List.forall_mem_cons.2 ⟨rfl, List.forall_mem_cons.2 ⟨rfl, ?_⟩⟩)
    exact fun d hd => of_mem_takeWhile (p := (· != '\n')) hd
  have hagrees : Agrees (· != Byte.newline) (· != '\n') := agrees_ne (k := '\n') (by decide)
  rw [Matches, skipWhile_spotAt hagrees, List.append_assoc]
  show _ = some (Finding.skipped, spotAt _ (line + Item.newlines ('/' :: '/' :: s.takeWhile (· != '\n'))) _)
  rw [hlines]
  rfl

/-- A stretch is the piece that is cut off where it starts. -/
theorem stretch_matches {b : UInt8} {bs : List UInt8} (hbytes : String.utf8EncodeChar c = b :: bs) :
    Matches before line (Piece.next c s)
      (stretch (String.ofList (before ++ c :: s)) b (spotAt before line (c :: s))) := by
  have hb : b ∈ String.utf8EncodeChar c := by simp [hbytes]
  have hnewline : b = Byte.newline ↔ c = '\n' := eq_toUInt8_iff (k := '\n') (by decide) hb
  have hquote : b = Byte.quote ↔ c = '"' := eq_toUInt8_iff (k := '"') (by decide) hb
  have hslash : b = Byte.slash ↔ c = '/' := eq_toUInt8_iff (k := '/') (by decide) hb
  have hspace : Byte.passes Piece.isSpace b = Piece.isSpace c := agrees_passes (fun _ => lt_of_isSpace) c b hb
  have hdigit : Byte.passes Char.isDigit b = c.isDigit := agrees_isDigit c b hb
  have hname : Byte.passes Piece.isNameStart b = Piece.isNameStart c :=
    agrees_passes (fun _ => lt_of_isNameStart) c b hb
  unfold stretch Piece.next
  simp only [hnewline, hspace, hquote, hdigit, hname, hslash]
  split
  · next hc =>
    rw [skip_one (lt_of_isSpace hc)]
    split
    · next hline =>
      subst hline
      rfl
    · next hline => simp [Matches, Piece.finding, Piece.text, Item.newlines, hline]
  next hno =>
    have hline : c ≠ '\n' := by
      rintro rfl
      exact hno rfl
    rw [if_neg hline]
    split
    · next hc =>
      subst hc
      rw [skip_one (by decide)]
      exact string_matches s
    split
    · next hc =>
      rw [skip_one (lt_of_isDigit hc)]
      exact number_matches hc
    split
    · next hc =>
      have hlt := lt_of_isNameStart hc
      have hone : String.utf8EncodeChar c = [b] := by
        rw [utf8EncodeChar_of_lt hlt] at hb ⊢
        rw [List.mem_singleton.1 hb]
      rw [skip_one hlt]
      exact word_matches hc hone
    split
    · next rest _ _ _ =>
      have hpeek : (spotAt (before ++ ['/']) line ('/' :: rest)).peek = Byte.slash := rfl
      rw [skip_one (by decide), if_pos (by rw [hpeek]; decide), skip_one (by decide), List.append_assoc]
      exact lineComment_matches rest
    · next rest _ _ _ =>
      have hpeek : (spotAt (before ++ ['/']) line ('*' :: rest)).peek = Byte.star := rfl
      rw [skip_one (by decide), if_neg (by rw [hpeek]; decide), if_pos (by rw [hpeek]; decide), skip_one (by decide),
        List.append_assoc]
      exact comment_matches rest
    · next hlineComment hcomment =>
      -- the slash of an operator stands before no byte that opens a comment
      have hpeek : ∀ {k : Char} {b : UInt8}, b = k.toUInt8 → k.toNat < 128 → k ≠ '\x00' →
          (∀ rest, c = '/' → s = k :: rest → False) →
          ¬ (decide (c = '/') && decide (((spotAt before line (c :: s)).skip 1).peek = b)) = true := by
        rintro k _ rfl hk hzero hno h
        rw [Bool.and_eq_true, decide_eq_true_iff, decide_eq_true_iff] at h
        obtain ⟨rfl, h⟩ := h
        rw [skip_one (by decide), peek_eq_iff hk hzero] at h
        obtain ⟨rest, hs⟩ := List.head?_eq_some_iff.1 h
        exact hno rest rfl hs
      rw [if_neg (hpeek (k := '/') (b := Byte.slash) rfl (by decide) (by decide) hlineComment),
        if_neg (hpeek (k := '*') (b := Byte.star) rfl (by decide) (by decide) hcomment)]
      exact operator_matches hbytes hline

end Spot

end ScriptLang
