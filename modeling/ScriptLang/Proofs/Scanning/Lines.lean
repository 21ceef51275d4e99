import ScriptLang.Proofs.Scanning.Tiling

/-!
# The lines of items

* `lineAt? source offset` — the line at an offset of a source, counted in the text before it;
* `Found.OnLine source f` — the line of an item is that of the end of its text, of its character, or the last one;
* `Reader.lines_exact` — a reader gives every item on its line, and lines never go down;
* `Reader.items_split` — what a reader gives behind a line end is what it gives for the rest alone, on later lines.

A reader adds up line ends in four places: white space, block comments, strings, and the character behind a backslash.
What keeps the sum right is that it is always the number of line ends in the text passed over.
-/

namespace ScriptLang

/-- The line of an item. -/
def Item.line : Item → Nat
  | token t => t.line
  | fault line _ => line

/-- The line at an offset of a source: one more than there are line ends in the text before it. -/
def lineAt? (source : String) (offset : Nat) : Option Nat :=
  (slice? source 0 offset).map fun before => 1 + Item.newlines before.toList

/-- A token is on the line at the end of its text, a character that was not expected on the line at its start, and a
string or a block comment without an end on the last line of the source. -/
def Found.OnLine (source : String) (f : Found) : Prop :=
  match f.item with
  | .token t => slice? source f.start f.stop = some t.lexeme ∧ lineAt? source f.stop = some t.line
  | .fault line (.unexpected c) =>
    slice? source f.start f.stop = some (String.singleton c) ∧ lineAt? source f.start = some line
  | .fault line .unterminatedString | .fault line .unterminatedComment => line = 1 + Item.newlines source.toList

theorem lineAt?_ofList (u v : List Char) :
    lineAt? (String.ofList (u ++ v)) (encode u).length = some (1 + Item.newlines u) := by
  have h := slice?_ofList [] u v
  simp only [List.nil_append, encode_nil, List.length_nil] at h
  rw [lineAt?, h, Option.map_some, String.toList_ofList]

/-! ## the line of a piece -/

section Pieces

variable {w : List Char} {c : Char} {s : List Char}

/-- The line behind a text is counted from the line before it. -/
theorem lineAt?_append (before w rest : List Char) :
    lineAt? (String.ofList (before ++ (w ++ rest))) (encode (before ++ w)).length =
      some (1 + Item.newlines before + Item.newlines w) := by
  rw [← List.append_assoc, lineAt?_ofList, Spot.newlines_append, Nat.add_assoc]

theorem onLine_token (before : List Char) {kind : Kind} (h : (Piece.next c s).1 = .token kind w) :
    Found.OnLine (String.ofList (before ++ c :: s))
      ⟨.token ⟨kind, String.ofList w, 1 + Item.newlines before + Item.newlines w⟩, (encode before).length,
        (encode (before ++ w)).length⟩ := by
  have htext := Piece.text_next c s
  have hne := Piece.text_next_ne_nil c s
  rw [h] at htext hne
  rw [← htext]
  exact ⟨(stands_piece before _ hne).slice, lineAt?_append before w _⟩

/-- A character that was not expected is no line end, and what has no end takes all line ends that are left. -/
theorem onLine_fault (before : List Char) {cause : LexicalFault} (h : (Piece.next c s).1 = .fault cause w) :
    Found.OnLine (String.ofList (before ++ c :: s))
      ⟨.fault (1 + Item.newlines before + Item.newlines w) cause, (encode before).length,
        (encode (before ++ w)).length⟩ := by
  have hlast : w = c :: s → 1 + Item.newlines before + Item.newlines w =
      1 + Item.newlines (String.ofList (before ++ c :: s)).toList := by
    rintro rfl
    rw [String.toList_ofList, Spot.newlines_append, Nat.add_assoc]
  have hfault := faultAt_of_fault h
  unfold faultAt at hfault
  split at hfault
  · cases hfault
    exact hlast rfl
  · cases hfault
    exact hlast rfl
  · cases hfault
    have hline : c ≠ '\n' := by
      rintro rfl
      cases h
    have hzero : Item.newlines [c] = 0 := by simp [Item.newlines, hline]
    have hslice := (stands_piece before s (List.cons_ne_nil c [])).slice
    refine ⟨hslice, ?_⟩
    rw [lineAt?_ofList, hzero, Nat.add_zero]

end Pieces

/-! ## the line of a reader -/

namespace Reader

/-- A reader stands between two parts of a source, on the line behind the first. -/
inductive Placed (source : String) : Reader → Prop
  | intro (start : Nat) {before after : List Char} : source = String.ofList (before ++ after) →
      Placed source (between start before (1 + Item.newlines before) after)

/-- A reader is placed at the start of its source. -/
theorem placed_ofSource (source : String) : (ofSource source).Placed source := by
  rw [ofSource_eq]
  exact .intro 0 String.ofList_toList.symm

/-- What comes next from a reader that is placed: the end on the last line, or an item on its line, with the reader
placed behind it. -/
inductive Steps (source : String) (r : Reader) : Prop
  | last {r' : Reader} : r.next = .item (.token (Token.endOfFile (1 + Item.newlines source.toList))) r' →
      r'.next = .ended → r.spot.line ≤ 1 + Item.newlines source.toList → Steps source r
  | item {i : Item} {r' : Reader} : r.next = .item i r' → r'.Placed source →
      Found.OnLine source ⟨i, r'.start, r'.spot.offset⟩ → r.spot.line ≤ i.line → r'.spot.line = i.line → Steps source r

theorem Placed.steps {source : String} {r : Reader} (h : r.Placed source) : r.Steps source := by
  obtain ⟨start, hsource⟩ := h
  rename_i before s
  -- on the length of what is left: white space and comments are passed over
  induction hn : s.length using Nat.strongRecOn generalizing start before s with
  | ind n ih =>
    cases s with
    | nil =>
      have hlast : 1 + Item.newlines source.toList = 1 + Item.newlines before := by
        rw [hsource, String.toList_ofList, List.append_nil]
      have hended : { between start before (1 + Item.newlines before) [] with ended := true }.next = .ended := by
        rw [next]
        rfl
      refine .last ?_ hended (Nat.le_of_eq hlast.symm)
      rw [hlast]
      exact next_between_nil
    | cons c s =>
      have hnext := next_between_cons start before (1 + Item.newlines before) c s
      have hlines : ∀ w, 1 + Item.newlines before + Item.newlines w = 1 + Item.newlines (before ++ w) := fun w => by
        rw [Spot.newlines_append, Nat.add_assoc]
      have htext := Piece.text_next c s
      have hplaced : ∀ w, w = (Piece.next c s).1.text → source = String.ofList (before ++ w ++ (Piece.next c s).2) := by
        rintro w rfl
        rw [hsource, List.append_assoc, htext]
      cases hp : (Piece.next c s).1 with
      | blank w =>
        rw [hp] at hnext hplaced
        have hlt : (Piece.next c s).2.length < n := by
          rw [← hn, List.length_cons]
          exact Nat.lt_succ_of_le (Piece.length_next_le c s)
        have hrest := ih _ hlt (encode before).length (hplaced w rfl) rfl
        have hle : (between start before (1 + Item.newlines before) (c :: s)).spot.line ≤
            1 + Item.newlines (before ++ w) := by
          rw [← hlines]
          exact Nat.le_add_right _ _
        dsimp only at hnext
        rw [hlines] at hnext
        cases hrest with
        | last hend hended hline => exact .last (hnext.trans hend) hended (Nat.le_trans hle hline)
        | item hitem hafter honline hline heq => exact .item (hnext.trans hitem) hafter honline (Nat.le_trans hle hline) heq
      | token kind w =>
        rw [hp] at hnext hplaced
        have honline := onLine_token before hp
        rw [← hsource] at honline
        refine .item hnext ?_ honline (Nat.le_add_right _ _) rfl
        rw [hlines]
        exact .intro _ (hplaced w rfl)
      | fault cause w =>
        rw [hp] at hnext hplaced
        have honline := onLine_fault before hp
        rw [← hsource] at honline
        refine .item hnext ?_ honline (Nat.le_add_right _ _) rfl
        rw [hlines]
        exact .intro _ (hplaced w rfl)

/-- In a whole run every item is on its line, and no line is before the one that the reader was on. -/
theorem Yields.onLine {source : String} {r : Reader} {found : List Found} {last : Nat} (h : r.Yields found last)
    (hr : r.Placed source) : (∀ f ∈ found, f.OnLine source) ∧
      (r.spot.line :: ((found.map fun f => f.item.line) ++ [last])).Pairwise (· ≤ ·) := by
  induction h with
  | @done r r' last hnext hended =>
    cases hr.steps with
    | last hnext' _ hline =>
      rw [hnext] at hnext'
      cases hnext'
      exact ⟨by simp, by simpa using hline⟩
    | item hnext' hafter _ _ _ =>
      rw [hnext] at hnext'
      cases hnext'
      cases hafter.steps with
      | last h _ _ => rw [hended] at h; cases h
      | item h _ _ _ _ => rw [hended] at h; cases h
  | @more r r' i found last hnext hrest ih =>
    cases hr.steps with
    | last hnext' hended _ =>
      rw [hnext] at hnext'
      cases hnext'
      cases hrest with
      | done h _ => rw [hended] at h; cases h
      | more h _ => rw [hended] at h; cases h
    | item hnext' hafter honline hline heq =>
      rw [hnext] at hnext'
      cases hnext'
      obtain ⟨hall, hlines⟩ := ih hafter
      rw [heq] at hlines
      refine ⟨List.forall_mem_cons.2 ⟨honline, hall⟩, List.pairwise_cons.2 ⟨?_, hlines⟩⟩
      exact List.forall_mem_cons.2 ⟨hline, fun l hl => Nat.le_trans hline (List.rel_of_pairwise_cons hlines hl)⟩

/-- The items of a source, also as a reader gives them, are on their lines.  A token is on the line on which its text
ends, an unexpected character on its own line, and what has no end, a string, a block comment or the source itself, on
the last line.  Lines never go down. -/
theorem lines_exact (source : String) :
    ∃ found, (ofSource source).Yields found (1 + Item.newlines source.toList) ∧ Covers source 0 found ∧
      Item.ofSource source =
        found.map Found.item ++ [.token (Token.endOfFile (1 + Item.newlines source.toList))] ∧
      (∀ f ∈ found, f.OnLine source) ∧ ((Item.ofSource source).map Item.line).Pairwise (· ≤ ·) := by
  obtain ⟨found, hyields, hcovers, hitems⟩ := exists_yields 0 [] 1 source.toList
  rw [← ofSource_eq] at hyields
  rw [List.nil_append, String.ofList_toList] at hcovers
  obtain ⟨hall, hlines⟩ := hyields.onLine (placed_ofSource source)
  refine ⟨found, hyields, hcovers, hitems, hall, ?_⟩
  rw [Item.ofSource, hitems, List.map_append, List.map_map]
  exact hlines.of_cons

end Reader

/-- Line ends behind a backslash, in a string and in a nested comment count, each once. -/
example : (Item.ofSource "\"\\\n\n\"/*/*\n*/\n*/@//\n\"").map Item.line = [3, 5, 6, 6] := by decide

/-! ## a line end between two sources -/

/-- What a reader gives for two sources with a line end between them, of which the first has no string and no block
comment without an end: all that it gives for the first but the end, and all that it gives for the second, on later
lines. -/
theorem Reader.items_split {a b : String} (ha : Terminated a) :
    ∃ before behind, (ofSource a).items = (before ++ [.token (Token.endOfFile (1 + Item.newlines a.toList))], true) ∧
      (ofSource b).items = (behind, true) ∧
      (ofSource (a ++ "\n" ++ b)).items =
        (before ++ behind.map (Item.moved (· + (1 + Item.newlines a.toList))), true) ∧
      Item.ofSource (a ++ "\n" ++ b) = before ++ behind.map (Item.moved (· + (1 + Item.newlines a.toList))) := by
  have hlast := Item.ofPieces_eq 1 (Piece.ofSource a.toList)
  rw [Piece.lines_ofSource] at hlast
  have hsplit := Item.ofSource_append_line (b := b) ha
  refine ⟨(Item.ofSource a).dropLast, Item.ofSource b, ?_, items_ofSource b, ?_, hsplit⟩
  · rw [items_ofSource]
    exact congrArg (·, true) hlast
  · rw [items_ofSource, hsplit]

/-- Two slashes, one on each side of the line end, start no comment; the fault on the first line stays where it is. -/
theorem Reader.items_split_slashes : Terminated "@a.\n/" ∧
    (Item.ofSource ("@a.\n/" ++ "\n" ++ "/b")).map Item.line = [1, 1, 1, 2, 3, 3, 3] ∧
    ∃ before behind, (ofSource "@a.\n/").items = (before ++ [.token (Token.endOfFile 2)], true) ∧
      (ofSource "/b").items = (behind, true) ∧
      (ofSource ("@a.\n/" ++ "\n" ++ "/b")).items = (before ++ behind.map (Item.moved (· + 2)), true) ∧
      Item.ofSource ("@a.\n/" ++ "\n" ++ "/b") = before ++ behind.map (Item.moved (· + 2)) :=
  have hterminated : Terminated "@a.\n/" := by decide
  ⟨hterminated, by decide, items_split hterminated⟩

end ScriptLang
