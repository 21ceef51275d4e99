import ScriptLang.Proofs.Parsing.Completeness
import ScriptLang.Proofs.Parsing.Lockstep

/-!
# Statements and their neighbours

What stands in front of some tokens is parsed as if nothing stood behind it, when it is a program or when it ends with a
semicolon and begins neither a block nor a for loop; a malformed statement in it does not disturb what stands behind it.

* `Guarded ts` — the tokens end with a semicolon, and no opening brace and no `for` is among them;
* `Frontier.seam rest rest'` — the same guarded tokens stand before one or the other of two lists;
* `Splits a b b' lo lo'` — runs over `a` and one or the other list are runs over that list, behind the same statements
  and the same reports;
* `parse_append` — the parse of two token lists in a row.

Recovery skips to behind a semicolon, so inside guarded tokens it never goes past their last one.
-/

namespace ScriptLang

/-! ## reports and statements in front of an answer -/

/-- The faults that a parse reports. -/
def Parse.reports (p : Parse) : List (Report SyntaxFault) :=
  match p.result with
  | .ok _ => []
  | .error reports => reports

/-- All faults of an answer, the one that stopped it last. -/
def Reply.reports {α : Type} : Reply α → List (Report SyntaxFault)
  | .ok _ _ reports => reports
  | .refused cause _ reports => reports ++ [cause]
  | .outOfFuel => []

/-- Only success goes without a report. -/
theorem Reply.eq_ok_of_reports {α : Type} {r : Reply α} (hr : r ≠ .outOfFuel) (h : r.reports = []) :
    ∃ a c, r = .ok a c [] := by
  cases r with
  | ok a c reports => exact ⟨a, c, by rw [show reports = [] from h]⟩
  | refused cause c reports => simp [Reply.reports] at h
  | outOfFuel => exact (hr rfl).elim

/-- Puts earlier statements and reports before those of an answer. -/
def Reply.prepend (body : List Stmt) (earlier : List (Report SyntaxFault)) : Reply (List Stmt) → Reply (List Stmt)
  | .ok more c reports => .ok (body ++ more) c (earlier ++ reports)
  | .refused cause c reports => .refused cause c (earlier ++ reports)
  | .outOfFuel => .outOfFuel

@[simp] theorem Reply.prepend_nil (r : Reply (List Stmt)) : r.prepend [] [] = r := by
  cases r <;> rfl

theorem Reply.prepend_prepend (r : Reply (List Stmt)) (body body' : List Stmt)
    (earlier earlier' : List (Report SyntaxFault)) :
    (r.prepend body' earlier').prepend body earlier = r.prepend (body ++ body') (earlier ++ earlier') := by
  cases r <;> simp [prepend]

theorem Reply.prepend_eq_outOfFuel {r : Reply (List Stmt)} {body : List Stmt}
    {earlier : List (Report SyntaxFault)} : r.prepend body earlier = .outOfFuel ↔ r = .outOfFuel := by
  cases r <;> simp [prepend]

theorem Reply.reports_prepend {r : Reply (List Stmt)} (hr : r ≠ .outOfFuel) (body : List Stmt)
    (earlier : List (Report SyntaxFault)) : (r.prepend body earlier).reports = earlier ++ r.reports := by
  cases r with
  | ok a c reports => rfl
  | refused cause c reports => exact List.append_assoc _ _ _
  | outOfFuel => exact (hr rfl).elim

/-! ## a declaration and those behind it -/

namespace Rule

theorem bind_of_ok {α β : Type} {r : Rule α} {f : α → Rule β} {c c' : Cursor} {a : α}
    {reports : List (Report SyntaxFault)} (h : r c = .ok a c' reports) : (r >>= f) c = (f a c').after reports := by
  show andThen r f c = _
  unfold andThen
  rw [h]

theorem declarations_of_declaration {n : Nat} {t : Token} {ts : List Token} {lo : Label} {s : Option Stmt}
    {c : Cursor} {reports : List (Report SyntaxFault)} (ht : t.kind ≠ .eof)
    (h : declaration n ⟨t :: ts, lo⟩ = .ok s c reports) :
    declarations (n + 1) false ⟨t :: ts, lo⟩ = (declarations n false c).prepend s.toList reports := by
  simp only [declarations]
  rw [bind_of_ok (r := peek) rfl, if_neg (by simp [Cursor.peek, ht]), bind_of_ok h, Reply.after_nil]
  cases hmore : declarations n false c with
  | ok more c' later =>
    rw [bind_of_ok hmore]
    show Reply.ok _ _ (reports ++ (later ++ [])) = _
    rw [List.append_nil]
    rfl
  | refused cause c' later =>
    show (andThen (declarations n false) _ c).after reports = _
    unfold andThen
    rw [hmore]
    rfl
  | outOfFuel =>
    show (andThen (declarations n false) _ c).after reports = _
    unfold andThen
    rw [hmore]
    rfl

/-- A malformed declaration is skipped. -/
theorem declaration_ne_refused (n : Nat) (c c' : Cursor) (cause : Report SyntaxFault)
    (reports : List (Report SyntaxFault)) : declaration n c ≠ .refused cause c' reports := by
  intro h
  cases n with
  | zero => cases h
  | succ n =>
    simp only [declaration] at h
    unfold recover at h
    split at h <;> cases h

/-- Declarations begin with one, be it malformed or not. -/
theorem exists_declaration {n : Nat} {t : Token} {ts : List Token} {lo : Label} (ht : t.kind ≠ .eof)
    (h : declarations (n + 1) false ⟨t :: ts, lo⟩ ≠ .outOfFuel) :
    ∃ s c reports, declaration n ⟨t :: ts, lo⟩ = .ok s c reports ∧ declarations n false c ≠ .outOfFuel ∧
      declarations (n + 1) false ⟨t :: ts, lo⟩ = (declarations n false c).prepend s.toList reports := by
  cases hfirst : declaration n ⟨t :: ts, lo⟩ with
  | ok s c reports =>
    have hsplit := declarations_of_declaration ht hfirst
    exact ⟨s, c, reports, rfl, fun hc => h (hsplit.trans (Reply.prepend_eq_outOfFuel.2 hc)), hsplit⟩
  | refused cause c reports => exact (declaration_ne_refused _ _ _ _ _ hfirst).elim
  | outOfFuel =>
    refine (h ?_).elim
    simp only [declarations]
    rw [bind_of_ok (r := peek) rfl, if_neg (by simp [Cursor.peek, ht]), Reply.after_nil]
    show andThen (declaration n) _ _ = _
    unfold andThen
    rw [hfirst]

/-- Nothing stands before the end of the source. -/
theorem declarations_end {n : Nat} {ts : List Token} {lo : Label} (h : headKind ts = .eof)
    (hn : declarations n false ⟨ts, lo⟩ ≠ .outOfFuel) : declarations n false ⟨ts, lo⟩ = .ok [] ⟨ts, lo⟩ [] := by
  cases n with
  | zero => exact (hn rfl).elim
  | succ n =>
    simp only [declarations]
    rw [bind_of_ok (r := peek) rfl, if_pos (by rw [kind_peek, h]; rfl), Reply.after_nil]
    rfl

end Rule

/-! ## parsing in terms of the rule for declarations -/

theorem parse_not_outOfFuel (fresh : Label) (tokens : List Token) :
    Rule.declarations (Rule.fuelFor tokens) false ⟨tokens, fresh⟩ ≠ .outOfFuel := by
  intro h
  have hruns := declarations_runs_fuelFor tokens fresh
  unfold Rule.Runs at hruns
  rw [h] at hruns
  exact hruns

theorem reports_parse (fresh : Label) (tokens : List Token) :
    (parse fresh tokens).reports = (Rule.declarations (Rule.fuelFor tokens) false ⟨tokens, fresh⟩).reports := by
  unfold parse
  split
  · next h => rw [h]; rfl
  · next h => rw [h]; rfl
  · next h => rw [h]; rfl
  · next h => rw [h]; rfl

theorem result_parse_eq_ok_iff {fresh : Label} {tokens : List Token} {program : List Stmt} :
    (parse fresh tokens).result = .ok program ↔
      ∃ c, Rule.declarations (Rule.fuelFor tokens) false ⟨tokens, fresh⟩ = .ok program c [] := by
  unfold parse
  split
  · next h => simp [h]
  · next reports hne h =>
    rw [h]
    constructor
    · intro h
      cases h
    · rintro ⟨c, hc⟩
      cases hc
      exact (hne rfl).elim
  · next h => simp [h]
  · next h => simp [h]

/-- Parsing the same tokens twice. -/
theorem declarations_alike {n n' : Nat} {ts : List Token} {lo lo' : Label}
    (h : Rule.declarations n false ⟨ts, lo⟩ ≠ .outOfFuel) (h' : Rule.declarations n' false ⟨ts, lo'⟩ ≠ .outOfFuel) :
    (Rule.declarations n false ⟨ts, lo⟩).reports = (Rule.declarations n' false ⟨ts, lo'⟩).reports ∧
      ∀ body c reports, Rule.declarations n false ⟨ts, lo⟩ = .ok body c reports →
        ∃ body' c', Rule.declarations n' false ⟨ts, lo'⟩ = .ok body' c' reports ∧
          Stmt.unlabelledAll body = Stmt.unlabelledAll body' := by
  have hlock := (Rule.statements_lockstep n n').declarations false ⟨ts, lo⟩ ⟨ts, lo'⟩ rfl
  revert h h' hlock
  generalize Rule.declarations n false ⟨ts, lo⟩ = x
  generalize Rule.declarations n' false ⟨ts, lo'⟩ = x'
  intro h h' hlock
  cases hlock with
  | ok reports hbody hc =>
    refine ⟨rfl, fun body c later e => ?_⟩
    cases e
    exact ⟨_, _, rfl, hbody⟩
  | refused cause reports hc => exact ⟨rfl, fun _ _ _ e => by cases e⟩
  | left x => exact (h rfl).elim
  | right x => exact (h' rfl).elim

/-- Two parses of the same tokens give programs that differ in their labels only. -/
theorem parse_relabelled (fresh fresh' : Label) (tokens : List Token) (program : List Stmt)
    (h : (parse fresh tokens).result = .ok program) :
    ∃ program', (parse fresh' tokens).result = .ok program' ∧
      Stmt.unlabelledAll program = Stmt.unlabelledAll program' := by
  obtain ⟨c, hc⟩ := result_parse_eq_ok_iff.1 h
  obtain ⟨program', c', hc', hsame⟩ :=
    (declarations_alike (parse_not_outOfFuel fresh tokens) (parse_not_outOfFuel fresh' tokens)).2 _ _ _ hc
  exact ⟨program', result_parse_eq_ok_iff.2 ⟨c', hc'⟩, hsame⟩

/-- Two parses of the same tokens report the same faults. -/
theorem reports_parse_fresh (fresh fresh' : Label) (tokens : List Token) :
    (parse fresh tokens).reports = (parse fresh' tokens).reports := by
  rw [reports_parse, reports_parse]
  exact (declarations_alike (parse_not_outOfFuel fresh tokens) (parse_not_outOfFuel fresh' tokens)).1

/-! ## guarded tokens -/

/-- The tokens end with a semicolon, and no opening brace, no `for` and no end of the source is among them. -/
inductive Guarded : List Token → Prop
  | last {t : Token} : t.kind = .mark .semicolon → Guarded [t]
  | more {t : Token} {ts : List Token} : t.kind ≠ .mark .leftBrace → t.kind ≠ .keyword .kwFor → t.kind ≠ .eof →
      Guarded ts → Guarded (t :: ts)

theorem guarded_append_semicolon {ts : List Token} {last : Token} (hl : last.kind = .mark .semicolon)
    (h : ∀ t ∈ ts, t.kind ≠ .mark .leftBrace ∧ t.kind ≠ .keyword .kwFor ∧ t.kind ≠ .eof) :
    Guarded (ts ++ [last]) := by
  induction ts with
  | nil => exact .last hl
  | cons t ts ih =>
    obtain ⟨⟨hb, hf, he⟩, hts⟩ := List.forall_mem_cons.1 h
    exact .more hb hf he (ih hts)

/-- Guarded tokens are followed by one or the other of two lists, or nothing is left of them. -/
def Seam (rest rest' ts ts' : List Token) : Prop :=
  ∃ us, Guarded us ∧ ts = us ++ rest ∧ ts' = us ++ rest'

theorem boundary_behind (ts : List Token) : Rule.boundary true ts = ts := by
  cases ts <;> rfl

theorem boundary_seam {us : List Token} (h : Guarded us) (behind : Bool) (rest rest' : List Token) :
    Seam rest rest' (Rule.boundary behind (us ++ rest)) (Rule.boundary behind (us ++ rest')) ∨
      Rule.boundary behind (us ++ rest) = rest ∧ Rule.boundary behind (us ++ rest') = rest' := by
  cases behind with
  | true =>
    rw [boundary_behind, boundary_behind]
    exact .inl ⟨us, h, rfl, rfl⟩
  | false =>
    induction h with
    | last ht =>
      simp only [List.cons_append, List.nil_append, Rule.boundary, ht, boundary_behind]
      exact .inr ⟨rfl, rfl⟩
    | @more t us hb hf he hus ih =>
      have hhere : Seam rest rest' (t :: us ++ rest) (t :: us ++ rest') := ⟨_, .more hb hf he hus, rfl, rfl⟩
      simp only [List.cons_append, Rule.boundary] at hhere ⊢
      rw [if_neg (by simp), if_neg (by simp)]
      split
      · exact .inl hhere
      · split
        · exact .inl hhere
        · exact ih
      · rw [boundary_behind, boundary_behind]
        exact .inl ⟨us, hus, rfl, rfl⟩
      · exact ih

theorem synchronize_seam {us : List Token} (h : Guarded us) (rest rest' : List Token) :
    Seam rest rest' (Rule.synchronize (us ++ rest)) (Rule.synchronize (us ++ rest')) ∨
      Rule.synchronize (us ++ rest) = rest ∧ Rule.synchronize (us ++ rest') = rest' := by
  cases h with
  | last ht => exact .inr (by simp [Rule.synchronize, ht, boundary_behind])
  | more hb hf he hus =>
    simp only [List.cons_append, Rule.synchronize]
    split
    · next hk => exact (he hk).elim
    · exact boundary_seam hus true rest rest'
    · exact boundary_seam hus false rest rest'

/-- Two lists behind the same guarded tokens.  No statement begins with an `else`. -/
def Frontier.seam (rest rest' : List Token) (h : headKind rest ≠ .keyword .kwElse)
    (h' : headKind rest' ≠ .keyword .kwElse) : Frontier where
  near := Seam rest rest'
  met ts ts' := Seam rest rest' ts ts' ∨ ts = rest ∧ ts' = rest'
  near_met := .inl
  head := by
    rintro _ _ ⟨us, hus, rfl, rfl⟩
    cases hus <;> rfl
  tail := by
    rintro _ _ ⟨us, hus, rfl, rfl⟩ hne
    cases hus with
    | last ht => exact (hne ht).elim
    | more _ _ _ hus => exact ⟨_, hus, rfl, rfl⟩
  tail_semicolon := by
    rintro _ _ ⟨us, hus, rfl, rfl⟩ _
    cases hus with
    | last ht => exact .inr ⟨rfl, rfl⟩
    | more _ _ _ hus => exact .inl ⟨_, hus, rfl, rfl⟩
  nested := by
    rintro _ _ ⟨us, hus, rfl, rfl⟩ hk
    cases hus with
    | last ht =>
      rw [List.cons_append, headKind_cons, ht] at hk
      simp at hk
    | more hb hf _ _ => exact (hk.elim hb hf).elim
  met_else := by
    rintro _ _ (hts | ⟨rfl, rfl⟩)
    · exact .inl hts
    · exact .inr ⟨h, h'⟩
  synchronize := by
    rintro _ _ ⟨us, hus, rfl, rfl⟩
    exact synchronize_seam hus rest rest'

/-! ## runs over two lists in a row -/

/-- Runs over `a` and one or the other list are runs over that list, behind the same statements and reports. -/
def Splits (a b b' : List Token) (lo lo' : Label) : Prop :=
  ∀ n n', Rule.declarations n false ⟨a ++ b, lo⟩ ≠ .outOfFuel → Rule.declarations n' false ⟨a ++ b', lo'⟩ ≠ .outOfFuel →
    ∃ body body' reports m m' mid mid', Stmt.unlabelledAll body = Stmt.unlabelledAll body' ∧
      Rule.declarations n false ⟨a ++ b, lo⟩ = (Rule.declarations m false ⟨b, mid⟩).prepend body reports ∧
      Rule.declarations n' false ⟨a ++ b', lo'⟩ = (Rule.declarations m' false ⟨b', mid'⟩).prepend body' reports

theorem splits_of_guarded {a b b' : List Token} (ha : Guarded a) (hb : headKind b ≠ .keyword .kwElse)
    (hb' : headKind b' ≠ .keyword .kwElse) (lo lo' : Label) : Splits a b b' lo lo' := by
  intro n
  induction n generalizing a lo lo' with
  | zero => exact fun _ h _ => (h rfl).elim
  | succ n ih =>
    rintro (_ | n') h h'
    · exact (h' rfl).elim
    obtain ⟨t, ts, rfl, ht⟩ : ∃ t ts, a = t :: ts ∧ t.kind ≠ .eof := by
      cases ha with
      | last ht => exact ⟨_, _, rfl, by rw [ht]; simp⟩
      | more _ _ he _ => exact ⟨_, _, rfl, he⟩
    rw [List.cons_append] at h h'
    rw [List.cons_append, List.cons_append]
    obtain ⟨s, ⟨us, mid⟩, reports, hs, hmore, hsplit⟩ := Rule.exists_declaration ht h
    obtain ⟨s', ⟨us', mid'⟩, reports', hs', hmore', hsplit'⟩ := Rule.exists_declaration ht h'
    have hlock := (Rule.statements_lockstep n n').declaration (.seam b b' hb hb') ⟨t :: (ts ++ b), lo⟩
      ⟨t :: (ts ++ b'), lo'⟩ ⟨_, ha, rfl, rfl⟩
    rw [hs, hs'] at hlock
    have hsame : ∀ {body body'}, Stmt.unlabelledAll body = Stmt.unlabelledAll body' →
        Stmt.unlabelledAll (s.toList ++ body) = Stmt.unlabelledAll (s'.toList ++ body') := by
      intro body body' hbody
      cases hlock with
      | ok _ hrel _ =>
        rw [Stmt.unlabelledAll_append, Stmt.unlabelledAll_append, hbody]
        cases hrel with
        | none => rfl
        | some hrel => simp [hrel]
    cases hlock with
    | ok _ _ hnext =>
      rcases hnext with ⟨vs, hvs, hus, hus'⟩ | ⟨hus, hus'⟩
      · -- the declaration ends inside `a`
        dsimp only at hus hus'
        subst hus hus'
        obtain ⟨body, body', later, m, m', last, last', hbody, he, he'⟩ := ih hvs mid mid' n' hmore hmore'
        refine ⟨s.toList ++ body, s'.toList ++ body', reports ++ later, m, m', last, last', hsame hbody, ?_, ?_⟩
        · rw [hsplit, he, Reply.prepend_prepend]
        · rw [hsplit', he', Reply.prepend_prepend]
      · -- the declaration ends with `a`
        dsimp only at hus hus'
        subst hus hus'
        exact ⟨s.toList, s'.toList, reports, n, n', mid, mid', by simpa using @hsame [] [] rfl, hsplit, hsplit'⟩

/-- A program is read as it is, whatever stands behind it but an `else`. -/
theorem declarations_of_reads {body : List Stmt} {a rest : List Token} {lo hi : Label}
    (ha : (Phrase.declarations body).Reads lo a hi) (hrest : headKind rest ≠ .keyword .kwElse) (n : Nat)
    (hn : Rule.declarations n false ⟨a ++ rest, lo⟩ ≠ .outOfFuel) :
    ∃ m, Rule.declarations n false ⟨a ++ rest, lo⟩ = (Rule.declarations m false ⟨rest, hi⟩).prepend body [] := by
  induction body generalizing a lo n with
  | nil =>
    cases ha
    exact ⟨n, (Reply.prepend_nil _).symm⟩
  | cons s body ih =>
    cases ha with
    | @declarationsMore _ _ _ ts mid us _ hs hbody =>
      obtain ⟨t, vs, rfl, ht⟩ : ∃ t vs, ts = t :: vs ∧ t.kind.opensDeclaration := hs.opens
      have hne : t.kind ≠ .eof := by
        intro he
        rw [he] at ht
        cases ht
      have helse : headKind (us ++ rest) ≠ .keyword .kwElse := by
        rcases hbody.opens with rfl | ⟨u, us, rfl, hu⟩
        · exact hrest
        · intro he
          rw [List.cons_append, headKind_cons] at he
          rw [he] at hu
          cases hu
      cases n with
      | zero => exact (hn rfl).elim
      | succ n =>
        rw [List.append_assoc, List.cons_append] at hn
        rw [List.append_assoc, List.cons_append]
        obtain ⟨s', c, reports, hfirst, hmore, hsplit⟩ := Rule.exists_declaration hne hn
        have hc : s' = some s ∧ c = ⟨us ++ rest, mid⟩ ∧ reports = [] := by
          rcases hs.complete n (us ++ rest) helse with hfuel | hyields
          · rw [List.cons_append, hfirst] at hfuel
            cases hfuel
          · rw [List.cons_append, Rule.Yields, hfirst] at hyields
            cases hyields
            exact ⟨rfl, rfl, rfl⟩
        obtain ⟨rfl, rfl, rfl⟩ := hc
        obtain ⟨m, hm⟩ := ih hbody n hmore
        exact ⟨m, by rw [hsplit, hm, Reply.prepend_prepend]; rfl⟩

theorem splits_of_reads {a b b' : List Token} {body body' : List Stmt} {lo lo' hi hi' : Label}
    (h : (Phrase.declarations body).Reads lo a hi) (h' : (Phrase.declarations body').Reads lo' a hi')
    (hbody : Stmt.unlabelledAll body = Stmt.unlabelledAll body') (hb : headKind b ≠ .keyword .kwElse)
    (hb' : headKind b' ≠ .keyword .kwElse) : Splits a b b' lo lo' := by
  intro n n' hn hn'
  obtain ⟨m, hm⟩ := declarations_of_reads h hb n hn
  obtain ⟨m', hm'⟩ := declarations_of_reads h' hb' n' hn'
  exact ⟨body, body', [], m, m', hi, hi', hbody, hm, hm'⟩

/-! ## parses of two lists in a row -/

/-- Tokens that are a program, or that end with a semicolon and have no brace and no `for` among them. -/
def Separate (a : List Token) (last : Token) (fresh : Label) : Prop :=
  (∃ program, (parse fresh (a ++ [last])).result = .ok program) ∨
    (∃ init semicolon, a = init ++ [semicolon] ∧ semicolon.kind = .mark .semicolon) ∧
      ∀ t ∈ a, t.kind ≠ .mark .leftBrace ∧ t.kind ≠ .mark .rightBrace ∧ t.kind ≠ .keyword .kwFor

theorem splits_of_separate {a b : List Token} {last : Token} {fresh fresh' : Label} (ha : ∀ t ∈ a, t.kind ≠ .eof)
    (hlast : last.kind = .eof) (hb : headKind b ≠ .keyword .kwElse) (h : Separate a last fresh') :
    Splits a b [last] fresh fresh' := by
  have hend : headKind [last] ≠ .keyword .kwElse := by simp [hlast]
  rcases h with ⟨program', h'⟩ | ⟨⟨init, semicolon, rfl, hs⟩, hkinds⟩
  · obtain ⟨program, h, hprogram⟩ := parse_relabelled fresh' fresh (a ++ [last]) program' h'
    have hr := reads_of_parse h
    have hr' := reads_of_parse h'
    rw [beforeEnd_append ha (show headKind [last] = .eof from hlast)] at hr hr'
    exact splits_of_reads hr hr' hprogram.symm hb hend
  · refine splits_of_guarded (guarded_append_semicolon hs fun t ht => ?_) hb hend _ _
    obtain ⟨hbrace, -, hfor⟩ := hkinds t (List.mem_append_left _ ht)
    exact ⟨hbrace, hfor, ha t (List.mem_append_left _ ht)⟩

/-- Two token lists in a row have the faults of the first one and then those of the second one; without any, they are
the program of the first one and then that of the second one. -/
theorem parse_append {a b : List Token} {last : Token} (fresh fresh₁ fresh₂ : Label) (ha : ∀ t ∈ a, t.kind ≠ .eof)
    (hlast : last.kind = .eof) (hb : headKind b ≠ .keyword .kwElse) (h : Separate a last fresh₁) :
    (parse fresh (a ++ b)).reports = (parse fresh₁ (a ++ [last])).reports ++ (parse fresh₂ b).reports ∧
      ((parse fresh (a ++ b)).reports = [] →
        ∃ program first second, (parse fresh (a ++ b)).result = .ok program ∧
          (parse fresh₁ (a ++ [last])).result = .ok first ∧ (parse fresh₂ b).result = .ok second ∧
          Stmt.unlabelledAll program = Stmt.unlabelledAll first ++ Stmt.unlabelledAll second) := by
  have hboth := parse_not_outOfFuel fresh (a ++ b)
  have hfirst := parse_not_outOfFuel fresh₁ (a ++ [last])
  have hsecond := parse_not_outOfFuel fresh₂ b
  obtain ⟨body, body', reports, m, m', mid, mid', hbody, e, e'⟩ := splits_of_separate ha hlast hb h _ _ hboth hfirst
  have hm : Rule.declarations m false ⟨b, mid⟩ ≠ .outOfFuel := fun hfuel =>
    hboth (e.trans (Reply.prepend_eq_outOfFuel.2 hfuel))
  have hm' : Rule.declarations m' false ⟨[last], mid'⟩ ≠ .outOfFuel := fun hfuel =>
    hfirst (e'.trans (Reply.prepend_eq_outOfFuel.2 hfuel))
  rw [Rule.declarations_end (show headKind [last] = .eof from hlast) hm'] at e'
  obtain ⟨hreports, halike⟩ := declarations_alike hm hsecond
  constructor
  · rw [reports_parse, reports_parse, reports_parse, e, e', Reply.reports_prepend hm, hreports]
    simp [Reply.prepend, Reply.reports]
  · intro hnone
    rw [reports_parse, e, Reply.reports_prepend hm] at hnone
    obtain ⟨rfl, hnone⟩ := List.append_eq_nil_iff.1 hnone
    obtain ⟨more, c, hmore⟩ := Reply.eq_ok_of_reports hm hnone
    obtain ⟨more', c', hmore', hsame⟩ := halike _ _ _ hmore
    rw [hmore] at e
    refine ⟨_, _, more', result_parse_eq_ok_iff.2 ⟨_, e⟩, result_parse_eq_ok_iff.2 ⟨_, e'⟩,
      result_parse_eq_ok_iff.2 ⟨c', hmore'⟩, ?_⟩
    rw [Stmt.unlabelledAll_append, List.append_nil, hbody, hsame]

/-- The tokens of `print + ; break 1 ;`, two statements with a fault each. -/
def twoFaults : List Token :=
  [Keyword.token .kwPrint, Mark.token .plus, Mark.token .semicolon, Keyword.token .kwBreak,
    Literal.token (.bool true), Mark.token .semicolon]

/-- A source that begins with a brace that closes nothing. -/
def strayBrace : List Token := [Mark.token .rightBrace, Token.endOfFile 1]

theorem parse_append_twoFaults :
    (∀ t ∈ twoFaults, t.kind ≠ .eof) ∧ Separate twoFaults (Token.endOfFile 1) 0 ∧
      (parse 0 (twoFaults ++ strayBrace)).reports = [⟨Mark.token .plus, .expected .expression⟩,
        ⟨Literal.token (.bool true), .expected (.semicolonAfter .kwBreak)⟩,
        ⟨Mark.token .rightBrace, .expected .expression⟩] := by
  have hne : ∀ t ∈ twoFaults, t.kind ≠ .eof := by decide
  have hseparate : Separate twoFaults (Token.endOfFile 1) 0 :=
    .inr ⟨⟨twoFaults.dropLast, Mark.token .semicolon, rfl, rfl⟩, by decide⟩
  refine ⟨hne, hseparate, ?_⟩
  rw [(parse_append 0 0 0 hne rfl (by decide) hseparate).1]
  rfl

end ScriptLang
