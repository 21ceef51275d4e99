import ScriptLang.Session
import ScriptLang.Proofs.Parsing.Completeness
import ScriptLang.Proofs.Running.Visits
import ScriptLang.Proofs.Scoping.Parsed

/-!
# Sessions that can be reached

* `Session.enter? source` — the session in which a source is run and its program, if nothing refuses it;
* `Session.Reached s sites` — `s` is what became of a new session after runs, resets and definitions of host functions,
  and `sites` are those of all programs that were run in it;
* `Session.Kept` — the invariant: the world is sound for these sites, labels tell them apart, and the table of the
  session has the distance of each.
-/

namespace ScriptLang

namespace Session

/-- The session in which the program of a source is run, if the source is accepted. -/
def enter? (s : Session) (source : String) : Option (Session × List Stmt) :=
  let parsed := parse s.fresh (tokensOf source)
  match parsed.result with
  | .error _ => none
  | .ok program =>
    if !(lexicalDiagnostics source).isEmpty || !s.runnable then none
    else
      match resolveProgram program with
      | .error _ => none
      | .ok distances =>
        some ({ s with fresh := parsed.fresh, distances := Assoc.setAll s.distances distances }, program)

variable {s s' : Session} {source : String} {program : List Stmt} {fuel : Nat}

/-- An accepted source is executed. -/
theorem run_eq_execute (h : s.enter? source = some (s', program)) : s.run fuel source = s'.execute fuel program := by
  unfold enter? at h
  unfold run
  cases hp : (parse s.fresh (tokensOf source)).result with
  | error reports =>
    simp only [hp] at h
    cases h
  | ok program' =>
    simp only [hp] at h ⊢
    split at h
    · cases h
    · next hr =>
      rw [if_neg hr]
      cases hd : resolveProgram program' with
      | error reports =>
        simp only [hd] at h
        cases h
      | ok distances =>
        simp only [hd] at h
        cases h
        rfl

/-- A source that is not accepted changes nothing but the labels in use and that nothing more is run. -/
theorem run_eq_refuse (fuel : Nat) (h : s.enter? source = none) :
    ∃ ds, s.run fuel source = refuse { s with fresh := (parse s.fresh (tokensOf source)).fresh } ds := by
  unfold enter? at h
  unfold run
  cases hp : (parse s.fresh (tokensOf source)).result with
  | error reports =>
    simp only [hp]
    exact ⟨_, rfl⟩
  | ok program' =>
    simp only [hp] at h ⊢
    split at h
    · next hr =>
      rw [if_pos hr]
      exact ⟨_, rfl⟩
    · next hr =>
      rw [if_neg hr]
      cases hd : resolveProgram program' with
      | error reports => exact ⟨_, rfl⟩
      | ok distances =>
        simp only [hd] at h
        cases h

/-- What an accepted source has passed. -/
theorem enter?_eq_some (h : s.enter? source = some (s', program)) :
    (Phrase.declarations program).Reads s.fresh (beforeEnd (tokensOf source)) s'.fresh ∧
      (Stmt.resolveAll .top [] program).faults = [] ∧
      s' = { s with
        fresh := s'.fresh
        distances := Assoc.setAll s.distances (Assoc.setAll [] (Stmt.resolveAll .top [] program).distances) } := by
  unfold enter? at h
  dsimp only at h
  split at h
  · cases h
  · next program' hp =>
    split at h
    · cases h
    · split at h
      · cases h
      · next distances hd =>
        cases h
        unfold resolveProgram at hd
        dsimp only at hd
        split at hd
        · next hf =>
          cases hd
          exact ⟨reads_of_parse hp, List.isEmpty_iff.1 hf, rfl⟩
        · cases hd

/-- The tokens of a source are spelled as their kinds say, so its program is regular. -/
theorem regular_of_reads {lo hi : Label}
    (h : (Phrase.declarations program).Reads lo (beforeEnd (tokensOf source)) hi) : Stmt.RegularAll program :=
  h.regular fun _ ht => spelled_of_mem_tokensOf ((List.takeWhile_sublist _).subset ht)

/-- A program that is not refused gets the distances that the walk over it finds. -/
theorem resolveProgram_eq_ok {distances : Distances} : resolveProgram program = .ok distances ↔
    (Stmt.resolveAll .top [] program).faults = [] ∧
      distances = Assoc.setAll [] (Stmt.resolveAll .top [] program).distances := by
  unfold resolveProgram
  dsimp only
  split
  · next hf => exact ⟨fun h => ⟨List.isEmpty_iff.1 hf, (Except.ok.inj h).symm⟩, fun h => by rw [h.2]⟩
  · next hf => exact ⟨(nomatch ·), fun h => absurd (List.isEmpty_iff.2 h.1) hf⟩

/-- A session that may run accepts what passes all checks. -/
theorem enter?_of_reads {hi : Label} (hr : s.runnable = true) (hl : lexicalDiagnostics source = [])
    (hreads : (Phrase.declarations program).Reads s.fresh (beforeEnd (tokensOf source)) hi)
    (hf : (Stmt.resolveAll .top [] program).faults = []) :
    s.enter? source = some ({ s with
      fresh := hi
      distances := Assoc.setAll s.distances (Assoc.setAll [] (Stmt.resolveAll .top [] program).distances) },
      program) := by
  unfold enter?
  simp only [parse_of_reads hreads, hl, hr, resolveProgram_eq_ok.2 ⟨hf, rfl⟩]
  rfl

/-! ## sessions and their sites -/

/-- The sites of a source, if it is accepted. -/
def sitesOf (s : Session) (source : String) : List Site :=
  (s.enter? source).elim [] fun entered => Stmt.sitesAll [] entered.2

/-- A session that runs, resets and definitions of host functions lead to, and the sites of its programs. -/
inductive Reached : Session → List Site → Prop
  | start (console : Console) : Reached (start console) []
  | host {s : Session} {sites : List Site} (name : String) (arity : Nat) {f : Host} :
      Reached s sites → f.Tame → Reached (s.defineHost name arity f) sites
  | reset {s : Session} {sites : List Site} : Reached s sites → Reached s.reset sites
  | run {s : Session} {sites : List Site} (fuel : Nat) (source : String) :
      Reached s sites → Reached (s.run fuel source).session (sites ++ s.sitesOf source)

/-- What holds of a session whose programs have certain sites. -/
structure Kept (s : Session) (sites : List Site) : Prop where
  world : ∃ w : World, w.heap = s.machine.heap ∧ w.Sound (Site.LegalIn sites)
  hosts : ∀ f ∈ s.hosts, Host.Tame f
  labelled : Labelled Site.label 0 s.fresh sites
  distance : ∀ site ∈ sites, Assoc.get? s.distances site.label = site.distance?
  /-- Labels that are not in use have no distance. -/
  unused : ∀ l, s.fresh ≤ l → Assoc.get? s.distances l = none

theorem Kept.suits {sites : List Site} (h : s.Kept sites) : s.setting.Suits (Site.LegalIn sites) :=
  ⟨h.hosts, fun _ hs => hs.2, fun site hs => h.distance site hs.1⟩

variable {sites : List Site}

/-! ## what keeps the invariant -/

theorem Kept.defineBuiltin (h : s.Kept sites) (b : Builtin) : (s.defineBuiltin b).Kept sites := by
  obtain ⟨w, hm, hw⟩ := h.world
  refine { h with world := ?_ }
  let value : Value := .builtin w.heap.nextTag b
  have hdefined : (w.define Heap.globals b.name value).Sound (Site.LegalIn sites) :=
    hw.define hw.root trivial fun hne => absurd rfl hne
  let heap := { w.heap.define Heap.globals b.name value with nextTag := w.heap.nextTag + 1 }
  refine ⟨⟨heap, w.names⟩, ?_, hdefined.of_frames heap rfl hdefined.field⟩
  show heap = _
  simp only [heap, value, Session.defineBuiltin, hm]

theorem Kept.defineHost (h : s.Kept sites) (name : String) (arity : Nat) {f : Host} (hf : f.Tame) :
    (s.defineHost name arity f).Kept sites := by
  have hpush : Kept { s with hosts := s.hosts.push f } sites := by
    refine { h with hosts := fun g hg => ?_ }
    rcases Array.mem_push.1 hg with hg | rfl
    · exact h.hosts g hg
    · exact hf
  exact hpush.defineBuiltin _

/-- The heap of a new session is sound before anything is defined. -/
theorem sound_initial : World.Sound (Site.LegalIn sites) ⟨Heap.initial, fun _ => []⟩ := by
  have hbindings : ∀ e, Heap.initial.frames.bindings e = [] := by
    intro e
    cases e with
    | zero => rfl
    | succ e => rfl
  have hvalue : ∀ e name, World.value? ⟨Heap.initial, fun _ => []⟩ e name = none := by
    intro e name
    unfold World.value?
    rw [hbindings]
    rfl
  refine ⟨Nat.zero_lt_one, rfl, ?_, ?_, ?_, ?_⟩
  · intro e name _ hb
    unfold World.Binds at hb
    rw [hvalue] at hb
    cases hb
  · intro e name v hv
    rw [hvalue] at hv
    cases hv
  · intro o name v hv
    cases hv
  · intro e v _ hv
    rw [hvalue] at hv
    cases hv

theorem kept_start (console : Console) : (start console).Kept [] := by
  have h : Kept ⟨⟨Heap.initial, console⟩, [], #[], 0, true, false⟩ [] :=
    ⟨⟨_, rfl, sound_initial⟩, by simp, .nil (Nat.le_refl 0), by simp, fun _ _ => rfl⟩
  exact ((h.defineBuiltin _).defineBuiltin _).defineBuiltin _

/-- Labels may be taken without being used. -/
theorem Kept.refuse (h : s.Kept sites) {fresh : Label} (hf : s.fresh ≤ fresh) (ds : List Diagnostic) :
    (Session.refuse { s with fresh } ds).session.Kept sites :=
  ⟨h.world, h.hosts, h.labelled.widen_right hf, h.distance, fun l hl => h.unused l (Nat.le_trans hf hl)⟩

/-- The program of an accepted source fits among the sites of its session. -/
theorem fits_of_enter? (he : s.enter? source = some (s', program)) {all : List Site}
    (hs : Stmt.sitesAll [] program ⊆ all) : Stmt.FitsAll (Site.LegalIn all) [] program := by
  obtain ⟨hreads, hfaults, -⟩ := enter?_eq_some he
  have hsuits : Place.top.klass.Suits [] := ⟨fun h => absurd rfl h, fun h => by cases h⟩
  exact Stmt.fitsAll_of_resolve program (regular_of_reads hreads) (by simp [Context.Settled]) hsuits (fun _ _ => trivial) hfaults hs

/-! ## the table of distances -/

section Table

variable {lo hi : Nat} {new : List Site} {old ds : Distances}

/-- New sites leave the distances of other labels alone. -/
theorem get?_table_of_other (hnew : Labelled Site.label lo hi new) (hds : ∀ p, p ∈ ds ↔ Site.Gives new p) {l : Nat}
    (hl : l < lo ∨ hi ≤ l) : Assoc.get? (Assoc.setAll old (Assoc.setAll [] ds)) l = Assoc.get? old l := by
  refine Assoc.get?_setAll_of_not_mem fun hkey => ?_
  obtain ⟨p, hp, rfl⟩ := List.mem_map.1 hkey
  have hmem : p ∈ ds := (Assoc.mem_of_mem_setAll hp).resolve_right (by simp)
  obtain ⟨site, hsite, hlabel, -⟩ := (hds p).1 hmem
  have hrange := hnew.range site hsite
  rw [hlabel] at hrange
  rcases hl with hl | hl
  · exact Nat.lt_irrefl _ (Nat.lt_of_lt_of_le hl hrange.1)
  · exact Nat.lt_irrefl _ (Nat.lt_of_lt_of_le hrange.2 hl)

/-- New sites get their distances. -/
theorem get?_table_of_mem (hnew : Labelled Site.label lo hi new) (hds : ∀ p, p ∈ ds ↔ Site.Gives new p)
    (hold : ∀ l, lo ≤ l → Assoc.get? old l = none) {site : Site} (hsite : site ∈ new) :
    Assoc.get? (Assoc.setAll old (Assoc.setAll [] ds)) site.label = site.distance? := by
  have hunique : ∀ d, (site.label, d) ∈ Assoc.setAll [] ds → site.distance? = some d := by
    intro d hd
    have hmem : (site.label, d) ∈ ds := (Assoc.mem_of_mem_setAll hd).resolve_right (by simp)
    obtain ⟨site', hsite', hlabel, hdist⟩ := (hds _).1 hmem
    rwa [hnew.unique site hsite site' hsite' hlabel.symm]
  cases hd : site.distance? with
  | some d =>
    have hmem : (site.label, d) ∈ ds := (hds _).2 ⟨site, hsite, rfl, hd⟩
    have hsome : (Assoc.get? (Assoc.setAll [] ds) site.label).isSome :=
      Assoc.isSome_get?_setAll.2 (.inr (List.mem_map_of_mem hmem))
    obtain ⟨d', hd'⟩ := Option.isSome_iff_exists.1 hsome
    have heq : ∀ b, (site.label, b) ∈ Assoc.setAll [] ds → b = d := fun b hb =>
      Option.some.inj ((hunique b hb).symm.trans hd)
    have hmem' := Assoc.mem_of_get? hd'
    exact Assoc.get?_setAll_of_mem (heq d' hmem' ▸ hmem') heq
  | none =>
    rw [Assoc.get?_setAll_of_not_mem, hold _ (hnew.range site hsite).1]
    intro hkey
    obtain ⟨⟨l, d⟩, hp, hl⟩ := List.mem_map.1 hkey
    obtain rfl : l = site.label := hl
    rw [hunique d hp] at hd
    cases hd

end Table

/-- Entering a source adds its sites and their distances. -/
theorem Kept.enter (h : s.Kept sites) (he : s.enter? source = some (s', program)) :
    s'.Kept (sites ++ Stmt.sitesAll [] program) := by
  obtain ⟨hreads, hfaults, hs'⟩ := enter?_eq_some he
  have hnew : Labelled Site.label s.fresh s'.fresh (Stmt.sitesAll [] program) := hreads.labelled []
  have hds : ∀ p, p ∈ (Stmt.resolveAll .top (Context.scopes []) program).distances ↔
      Site.Gives (Stmt.sitesAll [] program) p := fun p => Stmt.mem_distancesAll program hfaults
  refine ⟨?_, ?_, h.labelled.append hnew, ?_, ?_⟩
  · obtain ⟨w, hm, hw⟩ := h.world
    refine ⟨w, by rw [hm, hs'], hw.more fun site hsite => ?_⟩
    exact ⟨List.mem_append_left _ hsite.1, hsite.2⟩
  · rw [hs']
    exact h.hosts
  · intro site hsite
    rw [hs']
    rcases List.mem_append.1 hsite with hsite | hsite
    · exact (get?_table_of_other hnew hds (.inl (h.labelled.range site hsite).2)).trans (h.distance site hsite)
    · exact get?_table_of_mem hnew hds h.unused hsite
  · intro l hl
    rw [hs']
    exact (get?_table_of_other hnew hds (.inr hl)).trans (h.unused l (Nat.le_trans hnew.le hl))

/-- A run keeps the world sound, however it ends. -/
theorem Kept.execute (h : s.Kept sites) (hf : Stmt.FitsAll (Site.LegalIn sites) [] program) :
    (s.execute fuel program).session.Kept sites := by
  obtain ⟨w, hm, hw⟩ := h.world
  have hkeeps : (do Exec.program fuel s.setting program; Exec.flush : Exec Unit).Keeps (Site.LegalIn sites)
      (fun e _ => e = Heap.globals) w fun _ _ => True :=
    (keeps_program h.suits hw hf).last fun w' _ hw' _ _ => Exec.keeps_flush hw'
  unfold Session.execute
  cases he : (do Exec.program fuel s.setting program; Exec.flush : Exec Unit) s.machine with
  | done u machine =>
    obtain ⟨w', hm', hw', -⟩ := hkeeps.done hm he
    exact { h with world := ⟨w', hm', hw'⟩ }
  | failed fault machine =>
    obtain ⟨w', hm', hw'⟩ := hkeeps.failed hm he
    exact { h with world := ⟨w', hm', hw'⟩ }
  | outOfFuel => exact h

/-- The invariant holds of every session that can be reached. -/
theorem Reached.kept (h : Reached s sites) : s.Kept sites := by
  induction h with
  | start console => exact kept_start console
  | host name arity _ hf ih => exact ih.defineHost name arity hf
  | reset _ ih => exact ⟨ih.world, ih.hosts, ih.labelled, ih.distance, ih.unused⟩
  | @run s sites fuel source _ ih =>
    unfold sitesOf
    cases he : s.enter? source with
    | none =>
      obtain ⟨ds, hrun⟩ := run_eq_refuse fuel he
      rw [hrun, Option.elim_none, List.append_nil]
      exact ih.refuse (fresh_le_parse s.fresh (tokensOf source)) ds
    | some entered =>
      obtain ⟨s', program⟩ := entered
      rw [run_eq_execute he, Option.elim_some]
      exact (ih.enter he).execute (fits_of_enter? he (List.subset_append_right _ _))

end Session

end ScriptLang
