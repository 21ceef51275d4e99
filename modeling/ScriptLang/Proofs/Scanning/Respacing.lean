import ScriptLang.Proofs.Scanning.Tiling

/-!
# Tokens with spaces between them

* `respaced source` — the texts of the tokens of a source, with one space between each and the next;
* `Piece.ofSource_lexeme` — a lexeme is one piece before a space, whatever stood around it in its source;
* `tokensOf_respaced` — the tokens of a source are those of its tokens alone.

A string may hold spaces, and it is known where it ends.  No other lexeme of a token holds one, so none is longer than
what stands before the next space; a slash starts no comment there, since no mark that begins with a slash goes on with
another one or with a star.
-/

namespace ScriptLang

/-! ## lexemes before a space -/

section Lexemes

variable {k : LexicalClass} {kind : Kind} {w t : List Char}

/-- Nothing follows, or a space. -/
def BeforeSpace (t : List Char) : Prop := t = [] ∨ ∃ u, t = ' ' :: u

theorem BeforeSpace.eq_space {c : Char} (h : BeforeSpace t) (hc : t.head? = some c) : c = ' ' := by
  rcases h with rfl | ⟨u, rfl⟩
  · cases hc
  · exact (Option.some.inj hc).symm

/-- The classes of tokens that hold no spaces. -/
def LexicalClass.solid : LexicalClass → Bool
  | number | word | operator => true
  | space | lineComment | blockComment | string => false

theorem Lexeme.space_not_mem {kind? : Option Kind} (h : Lexeme k kind? w) (hk : k.solid = true) : ' ' ∉ w := by
  intro hmem
  cases h with
  | space _ | lineComment _ | blockComment _ _ | string _ => cases hk
  | integer hd => cases hd.2 _ hmem
  | decimal hd hf =>
    rcases List.mem_append.1 hmem with hmem | hmem
    · cases hd.2 _ hmem
    · rcases List.mem_cons.1 hmem with heq | hmem
      · cases heq
      · cases hf.2 _ hmem
  | keyword k => cases Piece.isNameChar_of_mem_word (.keyword k) _ hmem
  | identifier hc hs hne => cases Piece.isNameChar_of_mem_word (.identifier hc hs hne) _ hmem
  | operator m =>
    revert hmem
    cases m <;> decide

theorem Lexeme.solid_of_token (h : Lexeme k (some kind) w) (hk : k ≠ .string) : k.solid = true := by
  cases h with
  | string _ => exact absurd rfl hk
  | integer _ | decimal _ _ | keyword _ | identifier _ _ _ | operator _ => rfl

/-- What holds no space and begins a text ends before the first space of it. -/
theorem length_le_of_beforeSpace {v : List Char} (hv : v <+: w ++ t) (ht : BeforeSpace t) (hspace : ' ' ∉ v) :
    v.length ≤ w.length := by
  refine Nat.le_of_not_lt fun hlt => ?_
  obtain ⟨u, rfl⟩ := List.prefix_of_prefix_length_le (List.prefix_append w t) hv (Nat.le_of_lt hlt)
  have hu : u <+: t := (List.prefix_append_right_inj w).1 hv
  cases u with
  | nil => simp at hlt
  | cons c u =>
    have hc : t.head? = some c := head?_of_begins hu rfl
    rw [ht.eq_space hc] at hspace
    exact hspace (by simp)

/-- A slash that begins the text of a token is followed by no second character of a comment. -/
theorem Lexeme.head?_of_slash (h : Lexeme k (some kind) ('/' :: w)) (ht : BeforeSpace t) :
    (w ++ t).head? ≠ some '/' ∧ (w ++ t).head? ≠ some '*' := by
  have hclass : w.head? ≠ some '/' ∧ w.head? ≠ some '*' := by
    rcases h.class_of_slash with ⟨rfl, -⟩ | ⟨rfl, -⟩ | ⟨-, hclass⟩
    · cases h
    · cases h
    · exact hclass
  cases w with
  | nil =>
    rw [List.nil_append]
    constructor <;> intro hc <;> cases ht.eq_space hc
  | cons c w => exact hclass

/-- What else begins a text that starts with the lexeme of a token, and has a space behind it, is of the same class. -/
theorem Lexeme.class_of_candidate {k' : LexicalClass} {kind' : Option Kind} {w' : List Char}
    (h : Lexeme k (some kind) w) (ht : BeforeSpace t) (h' : Candidate (w ++ t) k' kind' w') : k' = k := by
  obtain ⟨c, v, rfl, hc⟩ := h.exists_opens
  have hc' : k'.opens c = true := Piece.class_of_candidate (s := v ++ t) h'
  rcases opens_unique hc' hc with heq | rfl
  · exact heq
  · obtain ⟨v', rfl, hv'⟩ := Piece.exists_of_candidate (s := v ++ t) h'
    obtain ⟨hslash, hstar⟩ := h.head?_of_slash ht
    have hoperator : k = .operator := by
      rcases h.class_of_slash with ⟨rfl, -⟩ | ⟨rfl, -⟩ | ⟨hk, -⟩
      · cases h
      · cases h
      · exact hk
    rcases h'.lexeme.class_of_slash with ⟨-, hhead⟩ | ⟨-, hhead⟩ | ⟨hk', -⟩
    · exact absurd (head?_of_begins hv' hhead) hslash
    · exact absurd (head?_of_begins hv' hhead) hstar
    · rw [hk', hoperator]

theorem committed?_of_lexeme (h : Lexeme k (some kind) w) (hk : k ≠ .string) (ht : BeforeSpace t) :
    committed? (w ++ t) = none := by
  obtain ⟨c, v, rfl, hc⟩ := h.exists_opens
  refine Piece.committed?_eq_none ?_ ?_
  · rintro rfl
    exact hk (eq_string_of_opens hc)
  · rintro rfl
    exact (h.head?_of_slash ht).2

/-- The lexeme of a token is the longest one before a space. -/
theorem Lexeme.foremost (h : Lexeme k (some kind) w) (ht : BeforeSpace t) : Foremost (w ++ t) (.token kind w) := by
  by_cases hk : k = .string
  · subst hk
    cases h with
    | @string raw hraw =>
      have hsplit : Piece.splitString (raw ++ '"' :: t) = some (raw, t) := Piece.splitString_eq_some_iff.2 ⟨hraw, rfl⟩
      have hquoted := Piece.foremost_quoted (raw ++ '"' :: t)
      rw [Piece.quoted, hsplit] at hquoted
      simpa using hquoted
  · refine .longest (k := k) ⟨h, List.prefix_append w t, by simp [committed?_of_lexeme h hk ht]⟩ fun k' kind' w' h' => ?_
    obtain rfl := h.class_of_candidate ht h'
    exact length_le_of_beforeSpace h'.begins ht (h'.lexeme.space_not_mem (h.solid_of_token hk))

/-- So it is a piece of its own there. -/
theorem Piece.ofSource_lexeme (h : Lexeme k (some kind) w) (ht : BeforeSpace t) :
    ofSource (w ++ t) = .token kind w :: ofSource t :=
  Tokenizes.ofSource_append (h.foremost ht) rfl

end Lexemes

/-! ## tokens with spaces between them -/

/-- A token as a piece. -/
def Token.piece (t : Token) : Piece := .token t.kind t.lexeme.toList

/-- Lexemes with spaces between them are the pieces of the text that they make. -/
theorem Piece.ofSource_intercalate {ts : List Token} (h : ∀ t ∈ ts, ∃ k, Lexeme k (some t.kind) t.lexeme.toList) :
    ofSource ([' '].intercalate (ts.map fun t => t.lexeme.toList)) =
      (ts.map Token.piece).intersperse (.blank [' ']) := by
  induction ts with
  | nil => rfl
  | cons t ts ih =>
    rw [List.forall_mem_cons] at h
    obtain ⟨⟨k, hk⟩, hrest⟩ := h
    cases ts with
    | nil =>
      have hone := ofSource_lexeme hk (.inl rfl)
      rw [List.append_nil] at hone
      rw [List.map_singleton, List.intercalate_singleton, hone]
      rfl
    | cons u ts =>
      rw [List.map_cons, List.map_cons, List.intercalate_cons_cons, List.append_assoc, List.singleton_append,
        ofSource_lexeme hk (.inr ⟨_, rfl⟩), ofSource_cons]
      exact congrArg (fun ps => _ :: _ :: ps) (ih hrest)

/-- Their items are tokens with the same faces, and the end. -/
theorem Item.ofPieces_intersperse (line : Nat) (ts : List Token) : ∃ us : List Token, ∃ last : Nat,
    us.map Token.face = ts.map Token.face ∧ ofPieces line ((ts.map Token.piece).intersperse (.blank [' '])) =
      (us ++ [Token.endOfFile last]).map token := by
  induction ts generalizing line with
  | nil => exact ⟨[], line, rfl, rfl⟩
  | cons t ts ih =>
    have hlexeme : String.ofList t.lexeme.toList = t.lexeme := String.ofList_toList
    obtain ⟨us, last, hfaces, hitems⟩ := ih (line + newlines t.lexeme.toList)
    refine ⟨⟨t.kind, t.lexeme, line + newlines t.lexeme.toList⟩ :: us, last, congrArg (_ :: ·) hfaces, ?_⟩
    show _ = token ⟨t.kind, t.lexeme, _⟩ :: (us ++ [Token.endOfFile last]).map token
    rw [← hitems]
    cases ts with
    | nil =>
      show token ⟨_, String.ofList t.lexeme.toList, _⟩ :: _ = _
      rw [hlexeme]
      rfl
    | cons u ts =>
      show token ⟨_, String.ofList t.lexeme.toList, _⟩ :: _ = _
      rw [hlexeme]
      rfl

/-- The texts of the tokens of a source, with one space between each and the next. -/
def respaced (source : String) : String := String.intercalate " " ((beforeEnd (tokensOf source)).map Token.lexeme)

theorem toList_respaced (source : String) : (respaced source).toList =
    [' '].intercalate ((beforeEnd (tokensOf source)).map fun t => t.lexeme.toList) := by
  rw [respaced, String.toList_intercalate, List.map_map]
  rfl

/-- The tokens of a source in front of its end are lexemes of their kinds. -/
theorem lexeme_of_mem_beforeEnd {source : String} {t : Token} (h : t ∈ beforeEnd (tokensOf source)) :
    ∃ k, Lexeme k (some t.kind) t.lexeme.toList := by
  have hkind : t.kind ≠ .eof := of_decide_eq_true (of_mem_takeWhile (s := tokensOf source) h)
  exact (lexeme_of_mem_tokensOf ((List.takeWhile_prefix _).subset h)).resolve_left hkind

theorem exists_tokensOf_eq (source : String) :
    ∃ last, tokensOf source = beforeEnd (tokensOf source) ++ [Token.endOfFile last] := by
  refine ⟨1 + Piece.lines (Piece.ofSource source.toList), ?_⟩
  rw [beforeEnd_tokensOf]
  exact Piece.token?_ofPieces 1 _

/-- The texts of the tokens of a source, also of one with faults, with single spaces between them are read without a
fault, as tokens of the same kinds, values and texts in the same order; so does a reader give them. -/
theorem tokensOf_respaced (source : String) : lexicalFaults (respaced source) = [] ∧
    (tokensOf (respaced source)).map Token.face = (tokensOf source).map Token.face ∧
    (Reader.ofSource (respaced source)).items = ((tokensOf (respaced source)).map Item.token, true) := by
  obtain ⟨last, hsource⟩ := exists_tokensOf_eq source
  obtain ⟨us, last', hfaces, hitems⟩ := Item.ofPieces_intersperse 1 (beforeEnd (tokensOf source))
  rw [← Piece.ofSource_intercalate fun t => lexeme_of_mem_beforeEnd, ← toList_respaced] at hitems
  have htokens : tokensOf (respaced source) = us ++ [Token.endOfFile last'] := by
    unfold tokensOf Item.ofSource
    rw [hitems, List.filterMap_map]
    exact List.filterMap_some
  refine ⟨?_, ?_, ?_⟩
  · unfold lexicalFaults Item.ofSource
    rw [hitems, List.filterMap_map]
    exact List.filterMap_eq_nil_iff.2 fun _ _ => rfl
  · rw [htokens, hsource, List.map_append, List.map_append, hfaces]
    rfl
  · rw [Reader.items_ofSource, htokens, ← hitems]
    rfl

/-- A comment, a fault, a string with a comment and a line end in it, and marks that stand without spaces. -/
example : respaced "a/*b*/@==.\"/* \n\\\"\"//c" = "a == . \"/* \n\\\"\"" := by decide

end ScriptLang
