import ScriptLang.Proofs.Scanning.Reading

/-!
# A reader tiles its source

* `Reader.Yields r found line` — asked again and again, the reader gives the items `found`, then the token that ends the
  source, on a line, and then nothing;
* `Covers source start found` — stretches with text skipped and stretches of the items `found`, one behind the other,
  make up the source from an offset on;
* `Reader.yields_covers` — what a reader gives covers the source;
* `Reader.tokenizes_iff` — it is what the lexical grammar gives.
-/

namespace ScriptLang

/-- An item with the offsets between which it was read. -/
structure Found where
  item : Item
  start : Nat
  stop : Nat

/-- A text stands in a source between two offsets, which are boundaries of characters. -/
structure Stands (source : String) (start stop : Nat) (text : String) : Prop where
  lt : start < stop
  valid_start : (⟨start⟩ : String.Pos.Raw).IsValid source
  valid_stop : (⟨stop⟩ : String.Pos.Raw).IsValid source
  slice : slice? source start stop = some text

/-- What the text of an item is: that of a token, the character that was not expected, or all that is left. -/
def Found.Fits (source : String) (f : Found) (text : String) : Prop :=
  match f.item with
  | .token t => t.lexeme = text ∧ t.kind ≠ .eof
  | .fault _ (.unexpected c) => text = String.singleton c
  | .fault _ .unterminatedString => text.toList.head? = some '"' ∧ f.stop = source.utf8ByteSize
  | .fault _ .unterminatedComment => ['/', '*'] <+: text.toList ∧ f.stop = source.utf8ByteSize

/-- From an offset on, a source is made up of white space, comments and the texts of items, one behind the other. -/
inductive Covers (source : String) : Nat → List Found → Prop
  | done : Covers source source.utf8ByteSize []
  | skipped {start stop : Nat} {text : String} {k : LexicalClass} {found : List Found} : Stands source start stop text →
      Lexeme k none text.toList → Covers source stop found → Covers source start found
  | found {f : Found} {text : String} {found : List Found} : Stands source f.start f.stop text → f.Fits source text →
      Covers source f.stop found → Covers source f.start (f :: found)

/-! ## pieces as stretches -/

section Pieces

variable {before w rest : List Char} {c : Char} {s : List Char}

theorem stands_piece (before rest : List Char) (hw : w ≠ []) :
    Stands (String.ofList (before ++ (w ++ rest))) (encode before).length (encode (before ++ w)).length
      (String.ofList w) := by
  refine ⟨?_, isValid_ofList before _, ?_, slice?_ofList before w rest⟩
  · obtain ⟨c, v, rfl⟩ := List.exists_cons_of_ne_nil hw
    have hc := c.utf8Size_pos
    simp only [encode_append, List.length_append, encode_cons, String.length_utf8EncodeChar]
    omega
  · rw [← List.append_assoc]
    exact isValid_ofList (before ++ w) rest

theorem lexeme_of_blank (h : (Piece.next c s).1 = .blank w) : ∃ k, Lexeme k none w := by
  have hforemost := Piece.foremost_next c s
  rw [h] at hforemost
  generalize hp : Piece.blank w = p at hforemost
  cases hforemost with
  | @longest _ w' k kind hw _ =>
    cases kind with
    | none =>
      cases hp
      exact ⟨k, hw.lexeme⟩
    | some kind => cases hp
  | stuck _ =>
    unfold faultAt at hp
    split at hp <;> cases hp

theorem faultAt_of_fault {cause : LexicalFault} (h : (Piece.next c s).1 = .fault cause w) :
    .fault cause w = faultAt c s := by
  have hforemost := Piece.foremost_next c s
  rw [h] at hforemost
  generalize hp : Piece.fault cause w = p at hforemost ⊢
  generalize hs : c :: s = s' at hforemost
  cases hforemost with
  | @longest _ w' k kind hw _ => cases kind <;> cases hp
  | stuck _ =>
    cases hs
    rfl

theorem committed?_eq_some {k : LexicalClass} (h : committed? s = some k) :
    k = .string ∧ s.head? = some '"' ∨ k = .blockComment ∧ ['/', '*'] <+: s := by
  unfold committed? at h
  split at h
  · cases h
    exact .inl ⟨rfl, rfl⟩
  · next rest =>
    cases h
    exact .inr ⟨rfl, rest, rfl⟩
  · cases h

/-- A fault is one character, or all that is left behind an opening delimiter. -/
theorem fits_fault {cause : LexicalFault} (h : (Piece.next c s).1 = .fault cause w) (line : Nat) :
    Found.Fits (String.ofList (before ++ c :: s))
      ⟨.fault line cause, (encode before).length, (encode (before ++ w)).length⟩ (String.ofList w) := by
  have hfault := faultAt_of_fault h
  unfold faultAt at hfault
  have hstop : w = c :: s → (encode (before ++ w)).length = (String.ofList (before ++ c :: s)).utf8ByteSize := by
    rintro rfl
    rw [utf8ByteSize_ofList]
  cases hcommitted : committed? (c :: s) with
  | none =>
    rw [hcommitted] at hfault
    cases hfault
    rfl
  | some k =>
    rw [hcommitted] at hfault
    rcases committed?_eq_some hcommitted with ⟨rfl, hhead⟩ | ⟨rfl, hhead⟩
    · cases hfault
      exact ⟨by rwa [String.toList_ofList], hstop rfl⟩
    · cases hfault
      exact ⟨by rwa [String.toList_ofList], hstop rfl⟩

end Pieces

namespace Reader

/-- A reader between two parts of a source. -/
def between (start : Nat) (before : List Char) (line : Nat) (after : List Char) : Reader :=
  ⟨String.ofList (before ++ after), start, spotAt before line after, false⟩

theorem ofSource_eq (source : String) : ofSource source = between 0 [] 1 source.toList := by
  have h := toUTF8_ofList source.toList
  rw [String.ofList_toList] at h
  rw [ofSource, between, spotAt, h, List.nil_append, String.ofList_toList]
  rfl

variable {start line : Nat} {before : List Char} {c : Char} {s : List Char}

theorem source_between : (between start before line s).source = String.ofList (before ++ s) := rfl

theorem spot_between : (between start before line s).spot = spotAt before line s := rfl

theorem next_between_nil : (between start before line []).next =
    .item (.token (Token.endOfFile line)) { between start before line [] with ended := true } := by
  rw [next]
  rfl

theorem next_of_stretch {r : Reader} {b : UInt8} {left : List UInt8} (hended : r.ended = false)
    (hleft : r.spot.left = b :: left) : r.next =
    match Spot.stretch r.source b r.spot with
    | none => .broken
    | some (.skipped, c) => (r.moveTo c).next
    | some (.fault cause, c) => .item (.fault c.line cause) (r.moveTo c)
    | some (.token kind, c) =>
      match slice? r.source r.spot.offset c.offset with
      | none => .broken
      | some lexeme => .item (.token ⟨kind, lexeme, c.line⟩) (r.moveTo c) := by
  rw [next]
  simp only [hended, Bool.false_eq_true, if_false]
  split
  · next h =>
    rw [hleft] at h
    cases h
  · next b' left' h =>
    rw [hleft, List.cons.injEq] at h
    obtain ⟨rfl, -⟩ := h
    split
    · next h => simp only [h]
    · next h => simp only [h]
    · next h => simp only [h]
    · next kind c h => cases hslice : slice? r.source r.spot.offset c.offset <;> simp only [h, hslice]

/-- The reader behind a stretch, in the same source. -/
theorem moveTo_between {w rest : List Char} (h : w ++ rest = s) (line' : Nat) :
    (between start before line s).moveTo (spotAt (before ++ w) line' rest) =
      between (encode before).length (before ++ w) line' rest := by
  simp only [moveTo, between, List.append_assoc, h]
  rfl

/-- What a reader gives at a piece. -/
theorem next_between_cons (start : Nat) (before : List Char) (line : Nat) (c : Char) (s : List Char) :
    (between start before line (c :: s)).next =
    match (Piece.next c s).1 with
    | .blank w => (between (encode before).length (before ++ w) (line + Item.newlines w) (Piece.next c s).2).next
    | .token kind w => .item (.token ⟨kind, String.ofList w, line + Item.newlines w⟩)
        (between (encode before).length (before ++ w) (line + Item.newlines w) (Piece.next c s).2)
    | .fault cause w => .item (.fault (line + Item.newlines w) cause)
        (between (encode before).length (before ++ w) (line + Item.newlines w) (Piece.next c s).2) := by
  obtain ⟨b, bs, hbytes⟩ := exists_utf8EncodeChar c
  have hleft : (between start before line (c :: s)).spot.left = b :: (bs ++ encode s) := by
    rw [spot_between, Spot.left_spotAt, encode_cons, hbytes, List.cons_append]
  have hstretch : Spot.stretch (String.ofList (before ++ c :: s)) b (spotAt before line (c :: s)) = _ :=
    Spot.stretch_matches hbytes
  have htext := Piece.text_next c s
  have hslice := Spot.slice?_of_append before htext
  rw [next_of_stretch rfl hleft, source_between, spot_between, hstretch]
  cases hp : (Piece.next c s).1 with
  | blank w =>
    rw [hp] at htext
    exact congrArg next (moveTo_between htext _)
  | token kind w =>
    rw [hp] at htext hslice
    simp only [Piece.finding, Piece.text, Spot.offset_spotAt, Spot.line_spotAt] at hslice ⊢
    rw [hslice]
    exact congrArg (Next.item _) (moveTo_between htext _)
  | fault cause w =>
    rw [hp] at htext
    exact congrArg (Next.item _) (moveTo_between htext _)

/-! ## a whole run -/

/-- Asked again and again, a reader gives some items, then the token that ends the source, and then nothing. -/
inductive Yields : Reader → List Found → Nat → Prop
  | done {r r' : Reader} {line : Nat} : r.next = .item (.token (Token.endOfFile line)) r' → r'.next = .ended →
      Yields r [] line
  | more {r r' : Reader} {i : Item} {found : List Found} {line : Nat} : r.next = .item i r' → Yields r' found line →
      Yields r (⟨i, r'.start, r'.spot.offset⟩ :: found) line

theorem Yields.of_next {r r' : Reader} {found : List Found} (h : r.next = r'.next) (hr : Yields r' found line) :
    Yields r found line := by
  cases hr with
  | done hnext hended => exact .done (h.trans hnext) hended
  | more hnext hrest => exact .more (h.trans hnext) hrest

theorem exists_yields (start : Nat) (before : List Char) (line : Nat) (s : List Char) :
    ∃ found, (between start before line s).Yields found (line + Item.newlines s) ∧
      Covers (String.ofList (before ++ s)) (encode before).length found ∧
      Item.ofPieces line (Piece.ofSource s) =
        found.map Found.item ++ [.token (Token.endOfFile (line + Item.newlines s))] := by
  -- on the length of what is left: a piece is not empty
  induction h : s.length using Nat.strongRecOn generalizing start before line s with
  | ind n ih =>
    cases s with
    | nil =>
      refine ⟨[], .done next_between_nil ?_, ?_, rfl⟩
      · rw [next]
        rfl
      · rw [List.append_nil, ← utf8ByteSize_ofList]
        exact .done
    | cons c s =>
      have hlt : (Piece.next c s).2.length < n := by
        have hle := Piece.length_next_le c s
        rw [List.length_cons] at h
        omega
      have hne := Piece.text_next_ne_nil c s
      have htext := Piece.text_next c s
      have hnext := next_between_cons start before line c s
      obtain ⟨found, hyields, hcovers, hitems⟩ := ih _ hlt (encode before).length (before ++ (Piece.next c s).1.text)
        (line + Item.newlines (Piece.next c s).1.text) (Piece.next c s).2 rfl
      have hstands := stands_piece before (Piece.next c s).2 hne
      rw [List.append_assoc, htext] at hcovers
      rw [htext] at hstands
      rw [Nat.add_assoc, ← Spot.newlines_append, htext] at hyields hitems
      rw [Piece.ofSource_cons]
      cases hp : (Piece.next c s).1 with
      | blank w =>
        rw [hp] at hnext hyields hcovers hitems hstands
        obtain ⟨k, hk⟩ := lexeme_of_blank hp
        exact ⟨found, hyields.of_next hnext, .skipped hstands (by rwa [String.toList_ofList]) hcovers, hitems⟩
      | token kind w =>
        rw [hp] at hnext hyields hcovers hitems hstands
        have hfits : Found.Fits (String.ofList (before ++ c :: s))
            ⟨.token ⟨kind, String.ofList w, line + Item.newlines w⟩, (encode before).length,
              (encode (before ++ w)).length⟩ (String.ofList w) := by
          refine ⟨rfl, ?_⟩
          rintro rfl
          exact Piece.next_ne_eof c s w hp
        exact ⟨_, .more hnext hyields, .found hstands hfits hcovers, congrArg (_ :: ·) hitems⟩
      | fault cause w =>
        rw [hp] at hnext hyields hcovers hitems hstands
        exact ⟨_, .more hnext hyields, .found hstands (fits_fault hp _) hcovers, congrArg (_ :: ·) hitems⟩

theorem items_eq_match (r : Reader) : r.items =
    match r.next with
    | .ended => ([], true)
    | .broken => ([], false)
    | .item i r' => (i :: r'.items.1, r'.items.2) := by
  rw [items]
  split <;> next h => rw [h]

theorem Yields.items_eq {r : Reader} {found : List Found} (h : r.Yields found line) :
    r.items = (found.map Found.item ++ [.token (Token.endOfFile line)], true) := by
  induction h with
  | @done r r' line hnext hended =>
    have hlast : r'.items = ([], true) := by rw [items_eq_match, hended]
    rw [items_eq_match, hnext]
    simp [hlast]
  | more hnext _ ih =>
    rw [items_eq_match, hnext]
    simp [ih]

/-- A reader comes to the end of its source, and reads its pieces. -/
theorem items_ofSource (source : String) : (ofSource source).items = (Item.ofSource source, true) := by
  obtain ⟨found, hyields, -, hitems⟩ := exists_yields 0 [] 1 source.toList
  rw [ofSource_eq, hyields.items_eq, Item.ofSource, hitems]

/-- A reader gives the items of a source and then nothing more, and their texts cover the source with white space and
comments between them. -/
theorem yields_covers (source : String) :
    ∃ found line, (ofSource source).Yields found line ∧ Covers source 0 found ∧
      Item.ofSource source = found.map Found.item ++ [.token (Token.endOfFile line)] := by
  obtain ⟨found, hyields, hcovers, hitems⟩ := exists_yields 0 [] 1 source.toList
  rw [← ofSource_eq] at hyields
  rw [List.nil_append, String.ofList_toList] at hcovers
  exact ⟨found, _, hyields, hcovers, hitems⟩

/-- The items of a source, also as a reader gives them, are those that the lexical grammar gives: at each place the
longest lexeme, and a fault where there is none. -/
theorem tokenizes_iff (source : String) (items : List Item) :
    Tokenizes 1 source.toList items ↔ items = Item.ofSource source ∧ (ofSource source).items = (items, true) := by
  rw [tokenizes_ofSource_iff, items_ofSource]
  constructor
  · rintro rfl
    exact ⟨rfl, rfl⟩
  · exact And.left

end Reader

end ScriptLang
