import ScriptLang.Proofs.Scoping.Copies
import ScriptLang.Proofs.Sessions.Reached

/-!
# The table of a session is single valued

* `Session.Parses s programs s'` — `s'` is what became of `s`, and `programs` are what was read on the way, also those
  that were refused after they were read;
* `Position` — a node of these programs; `p.Holds programs f o` says which occurrence `o` of which front `f` stands there;
* `Session.SingleValued` — a label belongs to one occurrence, up to the copies that updates of properties make; the walk
  over a program gives it one distance; and nothing that happens later changes what the table has for it;
* `Session.single_valued` — all this of every session.
-/

namespace ScriptLang

/-- A node: the program, the front in the program, and the path in its expression. -/
structure Position where
  program : Nat
  front : Nat
  path : List Nat

namespace Position

variable {programs : List (List Stmt)}

/-- An occurrence of a front stands at the position. -/
def Holds (p : Position) (programs : List (List Stmt)) (f : Front) (o : Occurrence) : Prop :=
  ∃ program, programs[p.program]? = some program ∧ (Stmt.frontsAll [] program)[p.front]? = some f ∧
    f.expression.occurrenceAt? p.path = some o

/-- Two positions in one front, of which each is the other or a copy of it. -/
def Corresponds (p q : Position) (f : Front) : Prop :=
  p.program = q.program ∧ p.front = q.front ∧ f.expression.Twins p.path q.path

end Position

namespace Session

/-- What is read from a source, if it is a program. -/
def parsed (s : Session) (source : String) : List (List Stmt) :=
  match (parse s.fresh (tokensOf source)).result with
  | .error _ => []
  | .ok program => [program]

/-- From a session to a later one, with what was read in between. -/
inductive Parses (s : Session) : List (List Stmt) → Session → Prop
  | refl : Parses s [] s
  | host {programs : List (List Stmt)} {s' : Session} (name : String) (arity : Nat) (f : Host) :
      Parses s programs s' → Parses s programs (s'.defineHost name arity f)
  | reset {programs : List (List Stmt)} {s' : Session} : Parses s programs s' → Parses s programs s'.reset
  | run {programs : List (List Stmt)} {s' : Session} (fuel : Nat) (source : String) :
      Parses s programs s' → Parses s (programs ++ s'.parsed source) (s'.run fuel source).session

variable {s s' : Session} {programs : List (List Stmt)} {program : List Stmt} {fuel : Nat} {source : String}

/-! ## what one run does to labels and distances -/

theorem fresh_execute (fuel : Nat) (s : Session) (program : List Stmt) :
    (s.execute fuel program).session.fresh = s.fresh := by
  unfold execute
  split <;> rfl

theorem distances_execute (fuel : Nat) (s : Session) (program : List Stmt) :
    (s.execute fuel program).session.distances = s.distances := by
  unfold execute
  split <;> rfl

/-- A run takes the labels that its source is read with, whatever becomes of it. -/
theorem fresh_run (fuel : Nat) (s : Session) (source : String) :
    (s.run fuel source).session.fresh = (parse s.fresh (tokensOf source)).fresh := by
  unfold run
  dsimp only
  split
  · rfl
  · split
    · rfl
    · split
      · rfl
      · exact fresh_execute _ _ _

/-- A run leaves the distances of all labels alone that were in use before it. -/
theorem get?_distances_run {l : Label} (hl : l < s.fresh) :
    Assoc.get? (s.run fuel source).session.distances l = Assoc.get? s.distances l := by
  cases he : s.enter? source with
  | none =>
    obtain ⟨ds, hrun⟩ := run_eq_refuse fuel he
    rw [hrun]
    rfl
  | some entered =>
    obtain ⟨s', program⟩ := entered
    obtain ⟨hreads, hfaults, hs'⟩ := enter?_eq_some he
    rw [run_eq_execute he, distances_execute, hs']
    have hlabels : Labelled Site.label s.fresh s'.fresh (Stmt.sitesAll [] program) := hreads.labelled []
    exact get?_table_of_other hlabels (fun p => Stmt.mem_distancesAll program hfaults) (.inl hl)

/-! ## what was read in a session -/

/-- What is known of the programs that were read with labels of a range. -/
structure Stock (lo hi : Label) (programs : List (List Stmt)) : Prop where
  reads : ∀ program ∈ programs, ∃ a ts b, (Phrase.declarations program).Reads a ts b
  stamped : Stamped lo hi (programs.flatMap fun program => Front.expressions (Stmt.frontsAll [] program))

/-- The programs of a session have their labels in the order in which they were read. -/
theorem Parses.stock (h : Parses s programs s') : Stock s.fresh s'.fresh programs := by
  induction h with
  | refl => exact ⟨by simp, .nil (Nat.le_refl _)⟩
  | host name arity f _ ih => exact ⟨ih.reads, ih.stamped⟩
  | reset _ ih => exact ⟨ih.reads, ih.stamped⟩
  | @run programs s' fuel source _ ih =>
    rw [fresh_run]
    unfold parsed
    split
    · rw [List.append_nil]
      exact ⟨ih.reads, ih.stamped.widen_right (fresh_le_parse _ _)⟩
    · next program hp =>
      have hreads := reads_of_parse hp
      refine ⟨List.forall_mem_append.2 ⟨ih.reads, fun p hmem => ?_⟩, ?_⟩
      · obtain rfl := List.mem_singleton.1 hmem
        exact ⟨_, _, _, hreads⟩
      · rw [List.flatMap_append, List.flatMap_singleton]
        exact ih.stamped.append (hreads.stamped [])

theorem Parses.fresh_le (h : Parses s programs s') : s.fresh ≤ s'.fresh := h.stock.stamped.le

/-- Nothing that happens in a session changes the distances of labels that are in use. -/
theorem Parses.get?_distances (h : Parses s programs s') {l : Label} (hl : l < s.fresh) :
    Assoc.get? s'.distances l = Assoc.get? s.distances l := by
  induction h with
  | refl => rfl
  | host name arity f _ ih => exact ih
  | reset _ ih => exact ih
  | run fuel source h ih => exact (get?_distances_run (Nat.lt_of_lt_of_le hl h.fresh_le)).trans ih

/-! ## positions -/

section

variable {lo hi : Label} {p q : Position} {f g : Front} {o u : Occurrence}

theorem Stock.mem_expressions (hp : p.Holds programs f o) :
    f.expression ∈ programs.flatMap fun program => Front.expressions (Stmt.frontsAll [] program) := by
  obtain ⟨program, hprogram, hfront, -⟩ := hp
  refine List.mem_flatMap.2 ⟨program, List.mem_of_getElem? hprogram, ?_⟩
  exact List.mem_map_of_mem (List.mem_of_getElem? hfront)

theorem Stock.range (h : Stock lo hi programs) (hp : p.Holds programs f o) : lo ≤ o.label ∧ o.label < hi := by
  have hmem := mem_expressions hp
  obtain ⟨_, -, -, ho⟩ := hp
  exact h.stamped.range _ hmem o (Expr.mem_occurrences_of_at ho)

/-- Positions with one label are in one front. -/
theorem Stock.same_front (h : Stock lo hi programs) (hp : p.Holds programs f o) (hq : q.Holds programs g u)
    (he : o.label = u.label) : p.program = q.program ∧ p.front = q.front := by
  obtain ⟨program, hprogram, hf, ho⟩ := hp
  obtain ⟨program', hprogram', hg, hu⟩ := hq
  have hfmem : f.expression ∈ Front.expressions (Stmt.frontsAll [] program) :=
    List.mem_map_of_mem (List.mem_of_getElem? hf)
  have hgmem : g.expression ∈ Front.expressions (Stmt.frontsAll [] program') :=
    List.mem_map_of_mem (List.mem_of_getElem? hg)
  have hnot : ¬ Expr.Apart f.expression g.expression := fun hapart =>
    hapart o (Expr.mem_occurrences_of_at ho) u (Expr.mem_occurrences_of_at hu) he
  obtain ⟨hinner, houter⟩ := List.pairwise_flatMap.1 h.stamped.apart
  by_cases hi : p.program = q.program
  · refine ⟨hi, Classical.byContradiction fun hj => hnot ?_⟩
    obtain rfl : program = program' := Option.some.inj (hprogram.symm.trans (hi ▸ hprogram'))
    have hrow := hinner program (List.mem_of_getElem? hprogram)
    refine rel_of_pairwise_of_ne Expr.Apart.symm hrow hj ?_ ?_
    · rw [Front.expressions, List.getElem?_map, hf, Option.map_some]
    · rw [Front.expressions, List.getElem?_map, hg, Option.map_some]
  · have hapart := rel_of_pairwise_of_ne (fun hab x hx y hy => (hab y hy x hx).symm) houter hi hprogram hprogram'
    exact absurd (hapart _ hfmem _ hgmem) hnot

/-- Exactly what corresponds has one label. -/
theorem Stock.label_eq_iff (h : Stock lo hi programs) (hp : p.Holds programs f o) (hq : q.Holds programs g u) :
    o.label = u.label ↔ p.Corresponds q f := by
  have hfront : p.program = q.program → p.front = q.front → f = g := by
    intro hi hj
    obtain ⟨program, hprogram, hf, -⟩ := hp
    obtain ⟨program', hprogram', hg, -⟩ := hq
    obtain rfl : program = program' := Option.some.inj (hprogram.symm.trans (hi ▸ hprogram'))
    exact Option.some.inj (hf.symm.trans (hj ▸ hg))
  constructor
  · intro he
    obtain ⟨hi, hj⟩ := h.same_front hp hq he
    obtain rfl := hfront hi hj
    have hsingle := h.stamped.single _ (mem_expressions hp)
    obtain ⟨_, -, -, ho⟩ := hp
    obtain ⟨_, -, -, hu⟩ := hq
    exact ⟨hi, hj, hsingle _ _ o u ho hu he⟩
  · rintro ⟨hi, hj, htwins⟩
    obtain rfl := hfront hi hj
    obtain ⟨_, -, -, ho⟩ := hp
    obtain ⟨_, -, -, hu⟩ := hq
    have hsame : some o = some u := (ho.symm.trans htwins.occurrenceAt?_eq).trans hu
    rw [Option.some.inj hsame]

/-- The site at a position. -/
theorem mem_sitesAll_of_holds (hp : p.Holds programs f o) (hprogram : programs[p.program]? = some program) :
    (⟨o, f.context, f.heading⟩ : Site) ∈ Stmt.sitesAll [] program := by
  obtain ⟨program', hprogram', hf, ho⟩ := hp
  obtain rfl : program = program' := Option.some.inj (hprogram.symm.trans hprogram')
  rw [← Stmt.sites_frontsAll]
  refine List.mem_flatMap.2 ⟨f, List.mem_of_getElem? hf, ?_⟩
  exact List.mem_map_of_mem (Expr.mem_occurrences_of_at ho)

end

/-! ## single values -/

/-- What holds of the labels and tables of a session in which programs were read. -/
structure SingleValued (programs : List (List Stmt)) (s : Session) : Prop where
  /-- Two positions have one label exactly if they are one or correspond in the copies that updates made. -/
  shared : ∀ p q f g o u, Position.Holds p programs f o → Position.Holds q programs g u →
    (o.label = u.label ↔ p.Corresponds q f)
  /-- The walk over a program never records two distances for a label, whether it finds faults or not. -/
  recorded : ∀ program ∈ programs, ∀ l d d', (l, d) ∈ (Stmt.resolveAll .top [] program).distances →
    (l, d') ∈ (Stmt.resolveAll .top [] program).distances → d = d'
  /-- The table of a program has for the label at each position, copy or not, the distance there, or nothing. -/
  table : ∀ p f o program ds, Position.Holds p programs f o → programs[p.program]? = some program →
    resolveProgram program = .ok ds → Assoc.get? ds o.label = f.context.scopes.distance? o.name.lexeme
  /-- What the session has for the label at a position, or that it has nothing, stays so from then on. -/
  kept : ∀ p f o later s', Position.Holds p programs f o → Parses s later s' →
    Assoc.get? s'.distances o.label = Assoc.get? s.distances o.label

/-- Whatever is done with a session, its table is single valued. -/
theorem single_valued (h : Parses s programs s') : SingleValued programs s' := by
  have hstock := h.stock
  refine ⟨fun p q f g o u hp hq => hstock.label_eq_iff hp hq, ?_, ?_, ?_⟩
  · intro program hprogram l d d' hd hd'
    obtain ⟨a, ts, b, hreads⟩ := hstock.reads program hprogram
    have hgives : ∀ r, r ∈ (Stmt.resolveAll .top [] program).distances → Site.Gives (Stmt.sitesAll [] program) r :=
      fun r hr => Stmt.gives_of_memAll program hr
    obtain ⟨site, hsite, hl, hdist⟩ := hgives _ hd
    obtain ⟨site', hsite', hl', hdist'⟩ := hgives _ hd'
    obtain rfl := (hreads.labelled []).unique site hsite site' hsite' (hl.trans hl'.symm)
    exact Option.some.inj (hdist.symm.trans hdist')
  · intro p f o program ds hp hprogram hds
    obtain ⟨a, ts, b, hreads⟩ := hstock.reads program (List.mem_of_getElem? hprogram)
    obtain ⟨hfaults, rfl⟩ := resolveProgram_eq_ok.1 hds
    let found := (Stmt.resolveAll .top [] program).distances
    have htable : Assoc.get? (Assoc.setAll [] (Assoc.setAll [] found)) o.label =
        Site.distance? ⟨o, f.context, f.heading⟩ :=
      get?_table_of_mem (hreads.labelled []) (fun r => Stmt.mem_distancesAll program hfaults) (fun _ _ => rfl)
        (mem_sitesAll_of_holds hp hprogram)
    rwa [Assoc.get?_setAll_setAll] at htable
  · intro p f o later s'' hp hlater
    exact hlater.get?_distances (hstock.range hp).2

/-- Both objects of an update refer to the variable of the block by one label, which keeps its distance. -/
theorem single_valued_update :
    let s := ((start ⟨.unlimited, [], .running 0⟩).run 0 "{ var a; a.f.g++; }").session
    ∃ programs f o, Parses (start ⟨.unlimited, [], .running 0⟩) programs s ∧
      Position.Holds ⟨0, 0, [0, 0]⟩ programs f o ∧ Position.Holds ⟨0, 0, [1, 0, 0, 0]⟩ programs f o ∧
      Position.Corresponds ⟨0, 0, [0, 0]⟩ ⟨0, 0, [1, 0, 0, 0]⟩ f ∧ Assoc.get? s.distances o.label = some 0 ∧
      Assoc.get? (s.run 0 "a;").session.distances o.label = some 0 := by
  intro s
  let a : Token := ⟨.identifier, "a", 1⟩
  let x : Expr := .get (.variable 0 a) ⟨.identifier, "f", 1⟩
  let update : Expr := .update x ⟨.identifier, "g", 1⟩ (.ofMark .plus 1) Rule.one
  let program : List Stmt := [.block [.varDecl a none, .expr update]]
  let o : Occurrence := ⟨.variable, 0, a⟩
  have hparsed : (start ⟨.unlimited, [], .running 0⟩).parsed "{ var a; a.f.g++; }" = [program] := rfl
  have h : Parses (start ⟨.unlimited, [], .running 0⟩) [program] s := by
    have hrun := Parses.run 0 "{ var a; a.f.g++; }" (.refl (s := start ⟨.unlimited, [], .running 0⟩))
    rwa [hparsed, List.nil_append] at hrun
  have hsingle := single_valued h
  obtain ⟨f, hf⟩ : ∃ f, (Stmt.frontsAll [] program)[0]? = some f ∧ f.expression = update := ⟨_, rfl, rfl⟩
  have hp : Position.Holds ⟨0, 0, [0, 0]⟩ [program] f o := ⟨program, rfl, hf.1, by rw [hf.2]; rfl⟩
  have hq : Position.Holds ⟨0, 0, [1, 0, 0, 0]⟩ [program] f o := ⟨program, rfl, hf.1, by rw [hf.2]; rfl⟩
  have hdistance : Assoc.get? s.distances o.label = some 0 := by decide +kernel
  have hlater := hsingle.kept _ f o _ _ hp (.run 0 "a;" .refl)
  exact ⟨[program], f, o, h, hp, hq, (hsingle.shared _ _ f f o o hp hq).1 rfl, hdistance, hlater.trans hdistance⟩

end Session

end ScriptLang
