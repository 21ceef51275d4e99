import ScriptLang.Proofs.Parsing.Moved
import ScriptLang.Proofs.Scanning.Words

/-!
# Two sources with a line end between them

* `Piece.next_append` — a piece that has an end ends before a line end behind it, whatever follows;
* `Piece.ofSource_append` — the pieces of both sources, with the line end as a blank of its own;
* `Item.ofSource_append_line` — the items of both sources, those of the second on later lines;
* `beforeEnd_tokensOf_append` — their tokens.

Nothing of the first source reaches into the second, unless it is a string or a block comment without an end.  A line
comment could, but for the line end.
-/

namespace ScriptLang

namespace Piece

/-! ## pieces before a line end -/

section

variable {p : Char → Bool} {c : Char} {s t u body rest : List Char}

theorem spanOf_append_line (hp : p '\n' = false) (s t : List Char) :
    spanOf p (s ++ '\n' :: t) = ((spanOf p s).1, (spanOf p s).2 ++ '\n' :: t) := by
  induction s with
  | nil => simp [spanOf, hp]
  | cons c s ih =>
    simp only [spanOf, Prod.mk.injEq] at ih
    by_cases hc : p c = true
    · simp [spanOf, hc, ih.1, ih.2]
    · simp [spanOf, hc]

theorem splitComment_append {depth : Nat} (h : splitComment depth s = some (body, rest)) (u : List Char) :
    splitComment depth (s ++ u) = some (body, rest ++ u) := by
  fun_induction splitComment depth s generalizing body rest with
  | case1 => cases h
  | case2 depth s ih =>
    obtain ⟨⟨b, r⟩, hb, he⟩ := Option.map_eq_some_iff.1 h
    obtain ⟨rfl, rfl⟩ := Prod.mk.inj he
    simp [splitComment, ih hb]
  | case3 s =>
    obtain ⟨rfl, rfl⟩ := Prod.mk.inj (Option.some.inj h)
    simp [splitComment]
  | case4 d s ih =>
    obtain ⟨⟨b, r⟩, hb, he⟩ := Option.map_eq_some_iff.1 h
    obtain ⟨rfl, rfl⟩ := Prod.mk.inj he
    simp [splitComment, ih hb]
  | case5 depth c s hopen hclose ih =>
    obtain ⟨⟨b, r⟩, hb, he⟩ := Option.map_eq_some_iff.1 h
    obtain ⟨rfl, rfl⟩ := Prod.mk.inj he
    cases s with
    | nil => cases hb
    | cons d s =>
      rw [List.cons_append, splitComment.eq_5]
      · rw [ih hb]
        rfl
      · rintro s' rfl hs
        obtain ⟨rfl, -⟩ := List.cons.inj hs
        exact hopen _ rfl rfl
      · rintro s' rfl hs
        obtain ⟨rfl, -⟩ := List.cons.inj hs
        exact hclose _ rfl rfl

theorem splitString_append (h : splitString s = some (body, rest)) (u : List Char) :
    splitString (s ++ u) = some (body, rest ++ u) := by
  fun_induction splitString s generalizing body rest with
  | case1 => cases h
  | case2 s =>
    obtain ⟨rfl, rfl⟩ := Prod.mk.inj (Option.some.inj h)
    simp [splitString]
  | case3 c s ih =>
    obtain ⟨⟨b, r⟩, hb, he⟩ := Option.map_eq_some_iff.1 h
    obtain ⟨rfl, rfl⟩ := Prod.mk.inj he
    simp [splitString, ih hb]
  | case4 c s hquote hescape ih =>
    obtain ⟨⟨b, r⟩, hb, he⟩ := Option.map_eq_some_iff.1 h
    obtain ⟨rfl, rfl⟩ := Prod.mk.inj he
    cases s with
    | nil => cases hb
    | cons d s =>
      rw [List.cons_append, splitString.eq_4]
      · rw [ih hb]
        rfl
      · rintro rfl
        exact hquote rfl
      · rintro c' s' rfl hs
        exact hescape _ _ rfl rfl

theorem splitFraction_append_line (s t : List Char) :
    splitFraction (s ++ '\n' :: t) = ((splitFraction s).1, (splitFraction s).2 ++ '\n' :: t) := by
  fun_cases splitFraction s with
  | case1 d s h =>
    have hspan := spanOf_append_line (p := Char.isDigit) rfl (d :: s) t
    simp only [List.cons_append] at hspan
    simp only [List.cons_append, splitFraction, h, if_true, hspan]
  | case2 d s h => simp [splitFraction, h]
  | case3 s h =>
    cases s with
    | nil => rfl
    | cons c s =>
      by_cases hc : c = '.'
      · subst hc
        cases s with
        | nil => rfl
        | cons d s => exact (h d s rfl).elim
      · rw [List.cons_append, splitFraction.eq_2]
        rintro d s' hs
        exact hc (List.cons.inj hs).1

theorem number_append (c : Char) (s t : List Char) :
    number c (s ++ '\n' :: t) = ((number c s).1, (number c s).2 ++ '\n' :: t) := by
  simp only [number, spanOf_append_line (p := Char.isDigit) rfl, splitFraction_append_line]

theorem word_append (c : Char) (s t : List Char) :
    word c (s ++ '\n' :: t) = ((word c s).1, (word c s).2 ++ '\n' :: t) := by
  simp only [word, spanOf_append_line (p := isNameChar) rfl]

/-- A piece has an end: it is no string and no block comment that takes all that is left of its source. -/
def Ends : Piece → Prop
  | fault .unterminatedString _ | fault .unterminatedComment _ => False
  | _ => True

theorem quoted_append (h : (quoted s).1.Ends) (u : List Char) :
    quoted (s ++ u) = ((quoted s).1, (quoted s).2 ++ u) := by
  unfold quoted at h ⊢
  cases hs : splitString s with
  | none =>
    rw [hs] at h
    exact h.elim
  | some r => rw [splitString_append hs]

theorem comment_append (h : (comment s).1.Ends) (u : List Char) :
    comment (s ++ u) = ((comment s).1, (comment s).2 ++ u) := by
  unfold comment at h ⊢
  cases hs : splitComment 0 s with
  | none =>
    rw [hs] at h
    exact h.elim
  | some r => rw [splitComment_append hs]

/-- Punctuation holds no line end. -/
theorem ofPair?_line (c : Char) : Mark.ofPair? c '\n' = none := by
  refine List.find?_eq_none.2 fun m _ => ?_
  cases m <;> simp [Mark.text]

theorem operator_append (c : Char) (s t : List Char) :
    operator c (s ++ '\n' :: t) = ((operator c s).1, (operator c s).2 ++ '\n' :: t) := by
  cases s with
  | nil => simp [operator, ofPair?_line]
  | cons d s =>
    simp only [operator, List.cons_append]
    cases Mark.ofPair? c d <;> rfl

theorem next_lineComment (rest : List Char) : next '/' ('/' :: rest) =
    (blank ('/' :: '/' :: (spanOf (· != '\n') rest).1), (spanOf (· != '\n') rest).2) := rfl

/-- A slash that starts no comment is a mark. -/
theorem next_slash (h : ∀ rest, s ≠ '/' :: rest) (h' : ∀ rest, s ≠ '*' :: rest) : next '/' s = operator '/' s := by
  cases s with
  | nil => rfl
  | cons d s =>
    have hd : d ≠ '/' := by
      rintro rfl
      exact h s rfl
    have hd' : d ≠ '*' := by
      rintro rfl
      exact h' s rfl
    have hspace : isSpace '/' = false := rfl
    have hdigit : '/'.isDigit = false := rfl
    have hname : isNameStart '/' = false := rfl
    simp [next, hspace, hdigit, hname, hd, hd']

/-- A piece that has an end is the same before a line end. -/
theorem next_append (h : (next c s).1.Ends) (t : List Char) :
    next c (s ++ '\n' :: t) = ((next c s).1, (next c s).2 ++ '\n' :: t) := by
  by_cases hslash : c = '/'
  · subst hslash
    match s, h with
    | [], _ => exact operator_append '/' [] t
    | d :: rest, h =>
      by_cases hline : d = '/'
      · subst hline
        rw [List.cons_append, next_lineComment, next_lineComment, spanOf_append_line (p := (· != '\n')) rfl]
      by_cases hblock : d = '*'
      · subst hblock
        exact comment_append h _
      · have hother : ∀ rest', next '/' (d :: rest') = operator '/' (d :: rest') := fun rest' =>
          next_slash (fun _ hs => hline (List.cons.inj hs).1) fun _ hs => hblock (List.cons.inj hs).1
        rw [List.cons_append, hother, hother]
        exact operator_append '/' (d :: rest) t
  · unfold next at h ⊢
    by_cases hspace : isSpace c = true
    · simp [hspace]
    by_cases hquote : c = '"'
    · simp only [hquote, if_true] at h ⊢
      exact quoted_append h _
    by_cases hdigit : c.isDigit = true
    · simp [hspace, hquote, hdigit, number_append]
    by_cases hname : isNameStart c = true
    · simp [hspace, hquote, hdigit, hname, word_append]
    simp [hspace, hquote, hdigit, hname, hslash, operator_append]

end

/-! ## all pieces -/

/-- A text has no more pieces than characters. -/
theorem cut_eq {n m : Nat} {s : List Char} (hn : s.length ≤ n) (hm : s.length ≤ m) : cut n s = cut m s := by
  induction n generalizing m s with
  | zero =>
    obtain rfl := List.eq_nil_of_length_eq_zero (Nat.le_zero.1 hn)
    cases m <;> rfl
  | succ n ih =>
    cases s with
    | nil => cases m <;> rfl
    | cons c s =>
      cases m with
      | zero => cases hm
      | succ m =>
        have hle := length_next_le c s
        simp only [List.length_cons, Nat.add_le_add_iff_right] at hn hm
        show (next c s).1 :: cut n (next c s).2 = (next c s).1 :: cut m (next c s).2
        rw [ih (Nat.le_trans hle hn) (Nat.le_trans hle hm)]

theorem ofSource_cons (c : Char) (s : List Char) : ofSource (c :: s) = (next c s).1 :: ofSource (next c s).2 := by
  show (next c s).1 :: cut s.length (next c s).2 = (next c s).1 :: ofSource (next c s).2
  rw [ofSource, cut_eq (length_next_le c s) (Nat.le_refl _)]

/-- The pieces of two texts with a line end between them. -/
theorem ofSource_append {s : List Char} (h : ∀ p ∈ ofSource s, p.Ends) (t : List Char) :
    ofSource (s ++ '\n' :: t) = ofSource s ++ blank ['\n'] :: ofSource t := by
  induction hn : s.length using Nat.strongRecOn generalizing s with
  | _ n ih =>
    cases s with
    | nil => exact ofSource_cons '\n' t
    | cons c s =>
      rw [ofSource_cons] at h ⊢
      rw [List.forall_mem_cons] at h
      have hlt : (next c s).2.length < n := by
        rw [← hn, List.length_cons]
        exact Nat.lt_succ_of_le (length_next_le c s)
      rw [List.cons_append, ofSource_cons, next_append h.1, ih _ hlt h.2 rfl, List.cons_append]

/-- No piece is a token that ends a source. -/
theorem next_ne_eof (c : Char) (s text : List Char) : (next c s).1 ≠ token .eof text := by
  unfold next
  split
  · simp
  split
  · unfold quoted
    split <;> simp
  split
  · simp [number]
  split
  · unfold word
    dsimp only
    split <;> simp
  split
  · simp
  · unfold comment
    split <;> simp
  · unfold operator
    cases s with
    | nil => cases Mark.ofChar? c <;> simp
    | cons d rest => cases h : Mark.ofPair? c d <;> cases Mark.ofChar? c <;> simp [h]

theorem ne_eof_of_mem_cut {n : Nat} {s : List Char} {p : Piece} (h : p ∈ cut n s) (text : List Char) :
    p ≠ token .eof text := by
  induction n generalizing s with
  | zero => cases s <;> simp [cut] at h
  | succ n ih =>
    cases s with
    | nil => simp [cut] at h
    | cons c s =>
      rcases List.mem_cons.1 h with rfl | h
      · exact next_ne_eof c s text
      · exact ih h

/-! ## items of pieces -/

/-- The number of line ends in pieces. -/
def lines : List Piece → Nat
  | [] => 0
  | p :: ps => Item.newlines p.text + lines ps

theorem lines_eq (ps : List Piece) : lines ps = Item.newlines (ps.flatMap text) := by
  induction ps with
  | nil => rfl
  | cons p ps ih => rw [lines, ih, List.flatMap_cons, Item.newlines, Item.newlines, Item.newlines, List.count_append]

theorem lines_ofSource (s : List Char) : lines (ofSource s) = Item.newlines s := by
  rw [lines_eq, flatMap_text_ofSource]

theorem lines_cons (line : Nat) (p : Piece) (ps : List Piece) :
    line + lines (p :: ps) = line + Item.newlines p.text + lines ps :=
  (Nat.add_assoc _ _ _).symm

end Piece

namespace Item

/-- The item on another line. -/
def moved (ℓ : Nat → Nat) : Item → Item
  | token t => token (t.moved ℓ)
  | fault line cause => fault (ℓ line) cause

theorem ofPieces_ne_nil (line : Nat) (ps : List Piece) : ofPieces line ps ≠ [] := by
  induction ps generalizing line with
  | nil => exact List.cons_ne_nil _ _
  | cons p ps ih =>
    cases p with
    | blank text => exact ih _
    | token kind text => exact List.cons_ne_nil _ _
    | fault cause text => exact List.cons_ne_nil _ _

/-- Behind the items of some pieces, the end apart, come those of further pieces, from the last line on. -/
theorem ofPieces_append (line : Nat) (ps qs : List Piece) :
    ofPieces line (ps ++ qs) = (ofPieces line ps).dropLast ++ ofPieces (line + Piece.lines ps) qs := by
  induction ps generalizing line with
  | nil => rfl
  | cons p ps ih =>
    rw [Piece.lines_cons]
    cases p with
    | blank text => exact ih _
    | token kind text =>
      show _ :: ofPieces _ (ps ++ qs) = (_ :: ofPieces _ ps).dropLast ++ _
      rw [ih, List.dropLast_cons_of_ne_nil (ofPieces_ne_nil _ ps)]
      rfl
    | fault cause text =>
      show _ :: ofPieces _ (ps ++ qs) = (_ :: ofPieces _ ps).dropLast ++ _
      rw [ih, List.dropLast_cons_of_ne_nil (ofPieces_ne_nil _ ps)]
      rfl

/-- The last item of pieces is the end of the source. -/
theorem ofPieces_eq (line : Nat) (ps : List Piece) :
    ofPieces line ps = (ofPieces line ps).dropLast ++ [token (Token.endOfFile (line + Piece.lines ps))] := by
  have h := ofPieces_append line ps []
  rwa [List.append_nil] at h

/-- Pieces that start on a later line have the same items on later lines. -/
theorem ofPieces_later (line k : Nat) (ps : List Piece) :
    ofPieces (line + k) ps = (ofPieces line ps).map (moved (· + k)) := by
  induction ps generalizing line with
  | nil => rfl
  | cons p ps ih =>
    cases p with
    | blank text =>
      simp only [ofPieces, Nat.add_right_comm line k]
      exact ih _
    | token kind text =>
      simp only [ofPieces, Nat.add_right_comm line k, ih, List.map_cons]
      rfl
    | fault cause text =>
      simp only [ofPieces, Nat.add_right_comm line k, ih, List.map_cons]
      rfl

theorem token?_moved (ℓ : Nat → Nat) (i : Item) : (i.moved ℓ).token? = i.token?.map (Token.moved ℓ) := by
  cases i <;> rfl

end Item

/-! ## tokens of pieces -/

namespace Piece

/-- The tokens of pieces of which the first starts on a line. -/
def tokens (line : Nat) : List Piece → List Token
  | [] => []
  | p :: ps =>
    let last := line + Item.newlines p.text
    match p with
    | .token kind text => ⟨kind, String.ofList text, last⟩ :: tokens last ps
    | _ => tokens last ps

theorem token?_ofPieces (line : Nat) (ps : List Piece) :
    (Item.ofPieces line ps).filterMap Item.token? = tokens line ps ++ [Token.endOfFile (line + lines ps)] := by
  induction ps generalizing line with
  | nil => rfl
  | cons p ps ih =>
    rw [lines_cons]
    cases p with
    | token kind text => exact congrArg (List.cons _) (ih _)
    | blank text => exact ih _
    | fault cause text => exact ih _

theorem tokens_eq (line : Nat) (ps : List Piece) :
    tokens line ps = (Item.ofPieces line ps).dropLast.filterMap Item.token? := by
  have h := token?_ofPieces line ps
  rw [Item.ofPieces_eq, List.filterMap_append] at h
  exact (List.append_cancel_right h).symm

theorem tokens_append (line : Nat) (ps qs : List Piece) :
    tokens line (ps ++ qs) = tokens line ps ++ tokens (line + lines ps) qs := by
  rw [tokens_eq, tokens_eq, tokens_eq, Item.ofPieces_append,
    List.dropLast_append_of_ne_nil (Item.ofPieces_ne_nil _ qs), List.filterMap_append]

theorem tokens_later (line k : Nat) (ps : List Piece) :
    tokens (line + k) ps = (tokens line ps).map (Token.moved (· + k)) := by
  rw [tokens_eq, tokens_eq, Item.ofPieces_later, ← List.map_dropLast, List.filterMap_map, List.map_filterMap]
  exact congrArg (List.filterMap · _) (funext (Item.token?_moved _))

theorem kind_ne_eof_of_mem_tokens {line : Nat} {ps : List Piece} (hp : ∀ p ∈ ps, ∀ text, p ≠ token .eof text)
    {t : Token} (ht : t ∈ tokens line ps) : t.kind ≠ .eof := by
  induction ps generalizing line with
  | nil => cases ht
  | cons p ps ih =>
    rw [List.forall_mem_cons] at hp
    cases p with
    | token kind text =>
      rcases List.mem_cons.1 ht with rfl | ht
      · rintro rfl
        exact hp.1 text rfl
      · exact ih hp.2 ht
    | blank text => exact ih hp.2 ht
    | fault cause text => exact ih hp.2 ht

theorem fault?_ofPieces_eq_nil {line : Nat} {ps : List Piece} :
    (Item.ofPieces line ps).filterMap Item.fault? = [] ↔ ∀ p ∈ ps, ∀ cause text, p ≠ fault cause text := by
  induction ps generalizing line with
  | nil => simp [Item.ofPieces, Item.fault?]
  | cons p ps ih =>
    rw [List.forall_mem_cons]
    cases p with
    | token kind text => exact ih.trans ⟨fun h => ⟨by simp, h⟩, fun h => h.2⟩
    | blank text => exact ih.trans ⟨fun h => ⟨by simp, h⟩, fun h => h.2⟩
    | fault cause text => simp [Item.ofPieces, Item.fault?]

/-- Every faulty piece is reported, on some line. -/
theorem exists_mem_fault?_ofPieces (line : Nat) {ps : List Piece} {cause : LexicalFault} {text : List Char}
    (h : fault cause text ∈ ps) : ∃ n, (n, cause) ∈ (Item.ofPieces line ps).filterMap Item.fault? := by
  induction ps generalizing line with
  | nil => cases h
  | cons p ps ih =>
    rcases List.mem_cons.1 h with rfl | h
    · exact ⟨_, List.mem_cons_self⟩
    · obtain ⟨n, hn⟩ := ih (line + Item.newlines p.text) h
      cases p with
      | blank _ => exact ⟨n, hn⟩
      | token _ _ => exact ⟨n, hn⟩
      | fault _ _ => exact ⟨n, List.mem_cons_of_mem _ hn⟩

end Piece

/-! ## items and tokens of sources -/

theorem beforeEnd_tokensOf (source : String) :
    beforeEnd (tokensOf source) = Piece.tokens 1 (Piece.ofSource source.toList) := by
  have hreal : ∀ t ∈ Piece.tokens 1 (Piece.ofSource source.toList), decide (t.kind ≠ .eof) = true := fun t ht =>
    decide_eq_true (Piece.kind_ne_eof_of_mem_tokens (fun p hp => Piece.ne_eof_of_mem_cut hp) ht)
  unfold beforeEnd tokensOf Item.ofSource
  rw [Piece.token?_ofPieces, List.takeWhile_append_of_pos hreal]
  simp [Token.endOfFile]

theorem lexicalFaults_eq_nil {source : String} : lexicalFaults source = [] ↔
    ∀ p ∈ Piece.ofSource source.toList, ∀ cause text, p ≠ .fault cause text :=
  Piece.fault?_ofPieces_eq_nil

/-- No string and no block comment of a source is without an end. -/
def Terminated (source : String) : Prop :=
  ∀ f ∈ lexicalFaults source, f.2 ≠ .unterminatedString ∧ f.2 ≠ .unterminatedComment

instance (source : String) : Decidable (Terminated source) :=
  inferInstanceAs (Decidable (∀ f ∈ lexicalFaults source, _))

theorem terminated_of_lexicalFaults {source : String} (h : lexicalFaults source = []) : Terminated source := by
  intro f hf
  rw [h] at hf
  cases hf

theorem Terminated.ends {source : String} (h : Terminated source) : ∀ p ∈ Piece.ofSource source.toList, p.Ends := by
  intro p hp
  cases p with
  | blank text => trivial
  | token kind text => trivial
  | fault cause text =>
    obtain ⟨n, hn⟩ := Piece.exists_mem_fault?_ofPieces 1 hp
    cases cause with
    | unexpected c => trivial
    | unterminatedString => exact absurd rfl (h _ hn).1
    | unterminatedComment => exact absurd rfl (h _ hn).2

section

variable {a b : String}

theorem ofSource_append_line (ha : Terminated a) : Piece.ofSource (a ++ "\n" ++ b).toList =
    Piece.ofSource a.toList ++ .blank ['\n'] :: Piece.ofSource b.toList := by
  have hchars : (a ++ "\n" ++ b).toList = a.toList ++ '\n' :: b.toList := by simp
  rw [hchars]
  exact Piece.ofSource_append ha.ends b.toList

/-- The items of two sources with a line end between them: those of the second are on later lines. -/
theorem Item.ofSource_append_line (ha : Terminated a) : ofSource (a ++ "\n" ++ b) =
    (ofSource a).dropLast ++ (ofSource b).map (moved (· + (1 + newlines a.toList))) := by
  have hlines : 1 + newlines a.toList + 1 = 1 + (1 + newlines a.toList) := Nat.add_comm _ 1
  unfold ofSource
  rw [ScriptLang.ofSource_append_line ha, ofPieces_append, Piece.lines_ofSource, ← ofPieces_later, ← hlines]
  rfl

/-- No faults come up where two sources meet. -/
theorem lexicalFaults_append (ha : lexicalFaults a = []) (hb : lexicalFaults b = []) :
    lexicalFaults (a ++ "\n" ++ b) = [] := by
  rw [lexicalFaults_eq_nil] at hb ⊢
  rw [ofSource_append_line (terminated_of_lexicalFaults ha), List.forall_mem_append, List.forall_mem_cons]
  exact ⟨lexicalFaults_eq_nil.1 ha, by simp, hb⟩

/-- The tokens of two sources with a line end between them: those of the second are on later lines. -/
theorem beforeEnd_tokensOf_append (ha : lexicalFaults a = []) : ∃ k, beforeEnd (tokensOf (a ++ "\n" ++ b)) =
    beforeEnd (tokensOf a) ++ (beforeEnd (tokensOf b)).map (Token.moved (· + k)) := by
  refine ⟨Piece.lines (Piece.ofSource a.toList) + 1, ?_⟩
  rw [beforeEnd_tokensOf, beforeEnd_tokensOf, beforeEnd_tokensOf,
    ofSource_append_line (terminated_of_lexicalFaults ha), Piece.tokens_append, ← Piece.tokens_later]
  rfl

end

end ScriptLang
