import ScriptLang.Proofs.Running.Telling
import ScriptLang.Proofs.Sessions.Reached

/-!
# The past of a session

* `Run` — a run of a program: the session that it started in and how deep it may go;
* `Session.Ran s sites runs` — `s` can be reached, with these sites of its programs and after these runs;
* `Session.lore` — what sites and runs let one know: the distances of labels, and the points that were visited;
* `Session.Ran.scene` — there is a sound scene for every session;
* `Session.Ran.placed` — and for every point of the next run of an accepted source.
-/

namespace ScriptLang

/-- A run of a program. -/
structure Run where
  /-- The session after the program was accepted. -/
  session : Session
  fuel : Nat
  program : List Stmt

/-- The point that a run starts from. -/
def Run.first (r : Run) : Point := ⟨r.fuel, .program r.program, r.session.machine⟩

namespace Session

/-- The run of a source, if it is accepted.  A run that used up its fuel does not count: it leaves no trace. -/
def runsOf (s : Session) (fuel : Nat) (source : String) : List Run :=
  (s.enter? source).elim [] fun entered =>
    if (entered.1.execute fuel entered.2).outcome = .unfinished then [] else [⟨entered.1, fuel, entered.2⟩]

/-- A session that can be reached, the sites of its programs and their runs. -/
inductive Ran : Session → List Site → List Run → Prop
  | start (console : Console) : Ran (start console) [] []
  | host {s : Session} {sites : List Site} {runs : List Run} (name : String) (arity : Nat) {f : Host} :
      Ran s sites runs → f.Tame → Ran (s.defineHost name arity f) sites runs
  | reset {s : Session} {sites : List Site} {runs : List Run} : Ran s sites runs → Ran s.reset sites runs
  | run {s : Session} {sites : List Site} {runs : List Run} (fuel : Nat) (source : String) : Ran s sites runs →
      Ran (s.run fuel source).session (sites ++ s.sitesOf source) (runs ++ s.runsOf fuel source)

variable {s s' : Session} {sites : List Site} {runs : List Run} {source : String} {program : List Stmt} {fuel : Nat}

theorem Ran.reached (h : Ran s sites runs) : Reached s sites := by
  induction h with
  | start console => exact .start console
  | host name arity _ hf ih => exact .host name arity ih hf
  | reset _ ih => exact .reset ih
  | run fuel source _ ih => exact .run fuel source ih

/-- Every session that can be reached has a past. -/
theorem Reached.exists_ran (h : Reached s sites) : ∃ runs, Ran s sites runs := by
  induction h with
  | start console => exact ⟨[], .start console⟩
  | host name arity _ hf ih =>
    obtain ⟨runs, ih⟩ := ih
    exact ⟨runs, .host name arity ih hf⟩
  | reset _ ih =>
    obtain ⟨runs, ih⟩ := ih
    exact ⟨runs, .reset ih⟩
  | run fuel source _ ih =>
    obtain ⟨runs, ih⟩ := ih
    exact ⟨_, .run fuel source ih⟩

/-- At a point of one of some runs. -/
def Visited (runs : List Run) (σ : Setting) (p : Point) : Prop :=
  ∃ r ∈ runs, σ = r.session.setting ∧ Visits σ r.first p

/-- What sites and runs let one know. -/
def lore (sites : List Site) (runs : List Run) : Lore where
  recorded l d := ∃ site ∈ sites, site.label = l ∧ site.distance? = d
  past := Visited runs

theorem lore_extends {sites' : List Site} {runs' : List Run} (hs : sites ⊆ sites') (hr : runs ⊆ runs') :
    (lore sites runs).Extends (lore sites' runs') where
  recorded := fun _ _ ⟨site, hsite, h⟩ => ⟨site, hs hsite, h⟩
  past := fun _ _ ⟨r, hmem, h⟩ => ⟨r, hr hmem, h⟩

theorem lore_covers {r : Run} (hr : r ∈ runs) : (lore sites runs).Covers r.session.setting r.first :=
  fun _ hv => ⟨r, hr, rfl, hv⟩

theorem Kept.serves (h : s.Kept sites) : s.setting.Serves (lore sites runs) where
  hosts := h.hosts
  distance := by
    rintro l d ⟨site, hsite, rfl, rfl⟩
    exact h.distance site hsite

/-- The program of an accepted source is lawful at the top level. -/
theorem lawful_of_enter? (he : s.enter? source = some (s', program))
    (hs : Stmt.sitesAll [] program ⊆ sites) :
    Stmt.LawfulAll (lore sites runs).recorded (fun _ => True) .top 0 program := by
  obtain ⟨hreads, hfaults, -⟩ := enter?_eq_some he
  have hseats : Place.top.klass.Seats (Context.scopes []) 0 := ⟨fun h => absurd rfl h, fun h => by cases h⟩
  exact Stmt.lawfulAll_of_resolve program (regular_of_reads hreads) hreads.operates hseats hfaults
    (fun site hsite => ⟨site, hs hsite, rfl, rfl⟩) fun _ _ => trivial

/-! ## what keeps scenes sound -/

variable {L : Lore} {w : Scene}

theorem exists_scene_defineBuiltin (hw : w.At L s.machine) (b : Builtin) :
    ∃ w' : Scene, w'.At L (s.defineBuiltin b).machine := by
  have hvalue : Value.Placed L w (.builtin w.heap.nextTag b) := trivial
  have hdefined : (w.define Heap.globals b.name (.builtin w.heap.nextTag b)).Sound L :=
    hw.sound.define hw.sound.root (fun hne => absurd rfl hne) hvalue
  let heap := { w.heap.define Heap.globals b.name (.builtin w.heap.nextTag b) with nextTag := w.heap.nextTag + 1 }
  refine ⟨_, ?_, hdefined.of_frames heap rfl hdefined.field⟩
  show heap = _
  simp only [heap, defineBuiltin, hw.heap]

theorem sound_initial_scene : Scene.Sound L ⟨Heap.initial, fun _ => none⟩ := by
  have hbindings : ∀ e, Heap.initial.frames.bindings e = [] := by
    intro e
    cases e <;> rfl
  refine ⟨Nat.zero_lt_one, rfl, rfl, ?_, ?_, ?_⟩
  · exact fun e he hne => absurd (Nat.lt_one_iff.1 he) hne
  · intro e p hp
    rw [show Scene.heap ⟨Heap.initial, fun _ => none⟩ = Heap.initial from rfl, hbindings] at hp
    cases hp
  · intro o p hp
    cases hp

theorem exists_scene_start (console : Console) : ∃ w : Scene, w.At L (start console).machine := by
  have h : Scene.At L ⟨Heap.initial, fun _ => none⟩
      (Session.machine ⟨⟨Heap.initial, console⟩, [], #[], 0, true, false⟩) := ⟨rfl, sound_initial_scene⟩
  obtain ⟨w₁, h₁⟩ := exists_scene_defineBuiltin h ⟨"clock", 0, .clock⟩
  obtain ⟨w₂, h₂⟩ := exists_scene_defineBuiltin h₁ ⟨"read", 0, .read⟩
  exact exists_scene_defineBuiltin h₂ ⟨"wait", 1, .wait⟩

/-- A run leaves a sound scene, however it ends. -/
theorem exists_scene_execute (hσ : s.setting.Serves L) (hw : w.At L s.machine)
    (hl : (Task.program program).Placed L w) (hc : L.Covers s.setting (Run.first ⟨s, fuel, program⟩)) :
    ∃ w' : Scene, w'.At L (s.execute fuel program).session.machine := by
  have htells : ((do Exec.program fuel s.setting program; Exec.flush : Exec Unit) s.machine).Tells L w
      fun _ _ => True :=
    Exec.tells_bind (tells_program hσ hw hl hc) fun w' _ m' _ hw' _ _ => Exec.tells_flush hw'
  unfold execute
  cases he : (do Exec.program fuel s.setting program; Exec.flush : Exec Unit) s.machine with
  | done u machine =>
    obtain ⟨w', hw', -⟩ := htells.done he
    exact ⟨w', hw'⟩
  | failed fault machine =>
    rw [he] at htells
    exact htells
  | outOfFuel => exact ⟨w, hw⟩

/-- A run that used up its fuel leaves the machine as it was. -/
theorem machine_of_unfinished (h : (s.execute fuel program).outcome = .unfinished) :
    (s.execute fuel program).session.machine = s.machine := by
  unfold execute at h ⊢
  split at h
  · cases h
  · cases h
  · rfl

/-- After a source was accepted, the scene is as sound as before and the program placed in it. -/
theorem scene_enter (hw : w.At (lore sites runs) s.machine) (he : s.enter? source = some (s', program))
    {runs' : List Run} (hr : runs ⊆ runs') :
    w.At (lore (sites ++ Stmt.sitesAll [] program) runs') s'.machine ∧
      (Task.program program).Placed (lore (sites ++ Stmt.sitesAll [] program) runs') w := by
  refine ⟨⟨?_, hw.sound.more (lore_extends (List.subset_append_left _ _) hr)⟩, fun _ => True, ?_⟩
  · rw [(enter?_eq_some he).2.2]
    exact hw.heap
  · exact lawful_of_enter? he (List.subset_append_right _ _)

/-- There is a sound scene for every session that can be reached. -/
theorem Ran.scene (h : Ran s sites runs) : ∃ w : Scene, w.At (lore sites runs) s.machine := by
  induction h with
  | start console => exact exists_scene_start console
  | @host s sites runs name arity f _ hf ih =>
    obtain ⟨w, hw⟩ := ih
    have hw' : w.At (lore sites runs) (Session.machine { s with hosts := s.hosts.push f }) := hw
    exact exists_scene_defineBuiltin hw' _
  | reset _ ih => exact ih
  | @run s sites runs fuel source hran ih =>
    obtain ⟨w, hw⟩ := ih
    unfold sitesOf runsOf
    cases he : s.enter? source with
    | none =>
      obtain ⟨ds, hrun⟩ := run_eq_refuse fuel he
      rw [hrun]
      refine ⟨w, hw.heap, hw.sound.more (lore_extends ?_ ?_)⟩ <;> exact List.subset_append_left _ _
    | some entered =>
      obtain ⟨s', program⟩ := entered
      rw [run_eq_execute he]
      simp only [Option.elim_some]
      split
      · next hu =>
        rw [machine_of_unfinished hu, List.append_nil]
        exact ⟨w, (scene_enter hw he (List.Subset.refl _)).1⟩
      · obtain ⟨hw', hl⟩ := scene_enter hw he (List.subset_append_left runs [⟨s', fuel, program⟩])
        have hmem : ⟨s', fuel, program⟩ ∈ runs ++ [(⟨s', fuel, program⟩ : Run)] := by simp
        exact exists_scene_execute (hran.reached.kept.enter he).serves hw' hl (lore_covers hmem)

/-- What is visited from a point of the next run on is in the lore of that run. -/
theorem covers_of_visits {p : Point} (hv : Visits s'.setting ⟨fuel, .program program, s'.machine⟩ p) :
    (lore sites (runs ++ [⟨s', fuel, program⟩])).Covers s'.setting p :=
  fun _ hq => lore_covers (r := ⟨s', fuel, program⟩) (by simp) _ (hv.trans hq)

/-- Every point of the run of an accepted source finds the scene sound and its task placed. -/
theorem Ran.placed (h : Ran s sites runs) (he : s.enter? source = some (s', program)) {p : Point}
    (hv : Visits s'.setting ⟨fuel, .program program, s'.machine⟩ p) :
    p.Placed (lore (sites ++ Stmt.sitesAll [] program) (runs ++ [⟨s', fuel, program⟩])) := by
  obtain ⟨w, hw⟩ := h.scene
  have hplaced := scene_enter hw he (List.subset_append_left runs [⟨s', fuel, program⟩])
  exact hv.placed (h.reached.kept.enter he).serves (covers_of_visits .refl) ⟨w, hplaced⟩

end Session

end ScriptLang
