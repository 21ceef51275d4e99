import ScriptLang.Proofs.Running.Crossing
import ScriptLang.Proofs.Running.Still
import ScriptLang.Proofs.Sessions.Layout

/-!
# Increments may stand in the bodies of loops

* `Bridge.still` — the bridge from a heap to itself; `World.Sound.bridged` — it joins the heap of a session to itself,
  also if the second side has distances for labels that are not in use yet;
* `Session.run_lowered` — a program in which loops have their increments at the end of their bodies is accepted and
  run with the same outcome, the same output and the same diagnostics.
-/

namespace ScriptLang

/-! ## what stays -/

theorem Assoc.Matched.self {α : Type} {R : α → α → Prop} {m : Assoc String α}
    (h : ∀ k a, Assoc.get? m k = some a → R a a) : Assoc.Matched R m m := by
  intro k
  cases ha : Assoc.get? m k with
  | none => exact .none
  | some a => exact .some (h k a ha)

theorem Class.Matched.self {M : Closure → Closure → Prop} {c : Class} (h : ∀ name m, c.method? name = some m → M m m) :
    c.Matched M c := by
  refine ⟨rfl, rfl, fun name => ?_⟩
  cases hm : c.method? name with
  | none => exact .none
  | some m => exact .some (h name m hm)

/-- All frames of a heap, each of which stays what it is. -/
def Bridge.still (h : Heap) (hr : Heap.globals < h.frames.size) : Bridge where
  size := h.frames.size
  size' := h.frames.size
  image := id
  origin := id
  shift _ := id
  image_lt _ he := he
  origin_lt _ he := he
  origin_image _ _ := rfl
  root := hr
  image_root := rfl

theorem Scene.Sound.rooted {L : Lore} {w : Scene} (h : w.Sound L) : w.heap.frames.Rooted :=
  ⟨h.root, h.top, fun _ _ ho => h.lt_of_enclosing? ho⟩

section

variable {S : Site → Prop} {w : World} {σ σ' : Setting}

theorem World.Mirrors.lt {skip : Option String} {ctx : Context} {e : FrameRef} (h : w.Mirrors skip ctx e)
    (hr : Heap.globals < w.heap.frames.size) : e < w.heap.frames.size := by
  cases ctx with
  | nil => exact h ▸ hr
  | cons r outer => exact h.1.lt

/-- Code of which all sites are in `S` is shifted by nothing. -/
theorem FunctionDecl.Fits.shifted {ctx : Context} {d : FunctionDecl} (h : d.Fits S ctx)
    (hS : ∀ site, S site → σ'.distance? site.label = σ.distance? site.label) :
    d.Shifted σ.distance? σ'.distance? id d := by
  refine FunctionDecl.shifted_refl d fun o ho => ?_
  obtain ⟨ctx', heading, hsite⟩ := FunctionDecl.Fits.sited h o ho
  exact hS _ hsite

theorem Value.Sound.bridged {a : Value} (h : a.Sound S w) (hr : Heap.globals < w.heap.frames.size)
    (hS : ∀ site, S site → σ'.distance? site.label = σ.distance? site.label) :
    a.Bridged σ σ' (.still w.heap hr) a := by
  have hclass : ∀ c : Class, c.Sound S w → c.Matched (Closure.BridgedUnder σ σ' (.still w.heap hr) Shift.cons) c := by
    intro c hc
    refine .self fun name m hm => ?_
    obtain ⟨ctx, hfits, hmirrors⟩ := hc name m hm
    refine ⟨hmirrors.lt hr, rfl, rfl, ?_⟩
    show m.declaration.Shifted _ _ (Shift.cons id) m.declaration
    rw [Shift.cons_id]
    exact hfits.shifted hS
  cases a with
  | number x => exact .number
  | string s => exact .string
  | bool b => exact .bool
  | nil => exact .nil
  | builtin t b => exact .builtin
  | function t c =>
    obtain ⟨ctx, hfits, hmirrors⟩ := h
    exact .function ⟨hmirrors.lt hr, rfl, rfl, hfits.shifted hS⟩
  | klass c => exact .klass (hclass c h)
  | object o c => exact .object (hclass c h)

/-- A heap is joined to itself if both settings have the same distances for the code in it. -/
theorem World.Sound.bridged (h : w.Sound S) (hr : w.heap.frames.Rooted)
    (hS : ∀ site, S site → σ'.distance? site.label = σ.distance? site.label) :
    w.heap.Bridged σ σ' (.still w.heap hr.root) w.heap where
  size := rfl
  size' := rfl
  rooted := hr
  rooted' := hr
  chain e _ d := (congrFun Option.map_id (w.heap.frames.ancestor? e d)).symm
  bindings e _ := .self fun name a ha => (h.value e name a ha).bridged hr.root hS
  fields o := .self fun name a ha => (h.field o name a ha).bridged hr.root hS
  objects := rfl
  tag := rfl

end

/-! ## runs -/

/-- Two runs have the same outcome, the same output and the same diagnostics. -/
structure Answer.Same (a a' : Answer) : Prop where
  outcome : a'.outcome = a.outcome
  output : a'.session.output = a.session.output
  diagnostics : a'.diagnostics = a.diagnostics

namespace Session

variable {s s₁ s₂ : Session} {sites : List Site} {source : String} {program program' : List Stmt}

/-- Two runs that met tell the same, unless one of them that may be short of fuel used it up. -/
theorem same_execute {β : Bridge} {p : Pace} {n k : Nat}
    (h : ((do Exec.program n s₁.setting program; Exec.flush : Exec Unit) s₁.machine).Meets s₁.setting s₂.setting p β
      (fun _ _ _ => True) ((do Exec.program k s₂.setting program'; Exec.flush : Exec Unit) s₂.machine)) :
    (s₁.execute n program).Same (s₂.execute k program') ∨
      p = .first ∧ (s₁.execute n program).outcome = .unfinished ∨
      p = .second ∧ (s₂.execute k program').outcome = .unfinished := by
  unfold execute
  revert h
  generalize (do Exec.program n s₁.setting program; Exec.flush : Exec Unit) s₁.machine = x
  generalize (do Exec.program k s₂.setting program'; Exec.flush : Exec Unit) s₂.machine = x'
  intro h
  cases h with
  | done β' _ hm _ => exact .inl ⟨rfl, congrArg (fun c => c.sink.written) hm.console, rfl⟩
  | failed β' hm => exact .inl ⟨rfl, congrArg (fun c => c.sink.written) hm.console, rfl⟩
  | early hp => exact .inr (.inl ⟨hp, rfl⟩)
  | late hp => exact .inr (.inr ⟨hp, rfl⟩)

/-- The session after a program without faults was accepted. -/
def accepting (s : Session) (fresh : Label) (program : List Stmt) : Session :=
  { s with
    fresh
    distances := Assoc.setAll s.distances (Assoc.setAll [] (Stmt.resolveAll .top [] program).distances) }

theorem runParse_eq_execute (hr : s.runnable = true) (hf : (Stmt.resolveAll .top [] program).faults = []) (fuel : Nat)
    (fresh : Label) : s.runParse fuel ⟨.ok program, fresh⟩ = (s.accepting fresh program).execute fuel program := by
  unfold runParse
  dsimp only
  rw [if_neg (by simp [hr])]
  simp only [resolveProgram_eq_ok.2 ⟨hf, rfl⟩]
  rfl

/-- New labels have the distances of their sites, and labels that were in use the distances that they had. -/
theorem distance?_accepting (hk : s.Kept sites) {hi : Label} (hf : (Stmt.resolveAll .top [] program).faults = [])
    (hnew : Labelled Site.label s.fresh hi (Stmt.sitesAll [] program)) (fresh : Label) :
    Site.Known (s.accepting fresh program).setting.distance? (Stmt.sitesAll [] program) ∧
      ∀ l < s.fresh, (s.accepting fresh program).setting.distance? l = s.setting.distance? l := by
  have hds : ∀ q, q ∈ (Stmt.resolveAll .top (Context.scopes []) program).distances ↔
      Site.Gives (Stmt.sitesAll [] program) q := fun q => Stmt.mem_distancesAll program hf
  exact ⟨fun site hsite => get?_table_of_mem hnew hds hk.unused hsite, fun l hl => get?_table_of_other hnew hds (.inl hl)⟩

/-- The two programs meet in every session that can be reached. -/
theorem same_accepting {hi : Label} (hs : Reached s sites) (hb : ∀ f ∈ s.hosts, Host.Shallow f)
    (hreads : (Phrase.declarations program).Reads s.fresh (beforeEnd (tokensOf source)) hi)
    (hf : (Stmt.resolveAll .top [] program).faults = [])
    (hf' : (Stmt.resolveAll .top [] program').faults = []) (h : Stmt.LoweredAll program program') {p : Pace} {n k : Nat}
    (hp : p.Allows 0 n k) (fresh : Label) :
    ((s.accepting fresh program).execute n program).Same ((s.accepting fresh program').execute k program') ∨
      p = .first ∧ ((s.accepting fresh program).execute n program).outcome = .unfinished ∨
      p = .second ∧ ((s.accepting fresh program').execute k program').outcome = .unfinished := by
  let σ := (s.accepting fresh program).setting
  let σ' := (s.accepting fresh program').setting
  obtain ⟨hknown, hold⟩ := distance?_accepting hs.kept hf (hreads.labelled []) fresh
  obtain ⟨hknown', hold'⟩ := distance?_accepting hs.kept hf' (h.labelled (hreads.stamped [])) fresh
  have htop : Scopes.Padded true id (Context.scopes []) (Context.scopes []) := .top
  have hshifted : Stmt.ShiftedAll σ.distance? σ'.distance? id program program' :=
    h.shifted (regular_of_reads hreads) htop hknown hknown'
  -- what earlier programs left is the same on both sides
  obtain ⟨w, hheap, hw⟩ := hs.kept.world
  obtain ⟨runs, hran⟩ := hs.exists_ran
  obtain ⟨v, hv⟩ := hran.scene
  have hrooted : w.heap.frames.Rooted := by
    rw [hheap, ← hv.heap]
    exact hv.sound.rooted
  have hsites : ∀ site, Site.LegalIn sites site → σ'.distance? site.label = σ.distance? site.label := by
    intro site hsite
    have hlt := (hs.kept.labelled.range site hsite.1).2
    exact (hold' _ hlt).trans (hold _ hlt).symm
  have hself : s.machine.Bridged σ σ' (.still w.heap hrooted.root) s.machine :=
    ⟨hheap ▸ hw.bridged hrooted hsites, rfl⟩
  have hties : (Bridge.still w.heap hrooted.root).Ties true id Heap.globals Heap.globals :=
    ⟨hrooted.root, rfl, rfl, fun _ => rfl⟩
  have hhosts : σ'.hosts = σ.hosts := rfl
  exact same_execute (meets_program_flush hhosts hb hp hself hties hshifted)

/-- Replace in a source that passes all checks any loops with an increment, provided that no `continue` in their bodies
is for them, by loops without one whose bodies are blocks of the old body and the increment.  The new program passes all
checks as well.  In every session that can be reached the new run ends as the old one does, with the same outcome, the
same output and the same diagnostics, if it has five times the fuel; and as the new run ends, so does the old one if it
has no less fuel. -/
theorem run_lowered {distances : Distances} (hs : Reached s sites) (hb : ∀ f ∈ s.hosts, Host.Shallow f)
    (hl : lexicalDiagnostics source = []) (hp : (parse s.fresh (tokensOf source)).result = .ok program)
    (hd : resolveProgram program = .ok distances) (h : Stmt.LoweredAll program program') :
    (∃ distances', resolveProgram program' = .ok distances') ∧
    ∀ n k,
      let a := s.run n source
      let a' := s.runParse k { parse s.fresh (tokensOf source) with result := .ok program' }
      (5 * n ≤ k → a.outcome ≠ .unfinished → a.Same a') ∧ (k ≤ n → a'.outcome ≠ .unfinished → a.Same a') := by
  obtain ⟨hf, -⟩ := resolveProgram_eq_ok.1 hd
  have hreads := reads_of_parse hp
  have hf' : (Stmt.resolveAll .top [] program').faults = [] := h.faults (regular_of_reads hreads) .top hf
  refine ⟨⟨_, resolveProgram_eq_ok.2 ⟨hf', rfl⟩⟩, fun n k => ?_⟩
  have hparsed : parse s.fresh (tokensOf source) = ⟨.ok program, (parse s.fresh (tokensOf source)).fresh⟩ := by
    rw [← hp]
  simp only [run_eq_runParse hl]
  rw [hparsed]
  cases hr : s.runnable with
  | true =>
    rw [runParse_eq_execute hr hf, runParse_eq_execute hr hf']
    have hsame := fun {p : Pace} (hallows : p.Allows 0 n k) =>
      same_accepting hs hb hreads hf hf' h hallows (parse s.fresh (tokensOf source)).fresh
    constructor
    · intro hnk hne
      rcases hsame (p := .first) hnk with hsame | ⟨-, hout⟩ | ⟨hpace, -⟩
      · exact hsame
      · exact absurd hout hne
      · cases hpace
    · intro hkn hne
      rcases hsame (p := .second) hkn with hsame | ⟨hpace, -⟩ | ⟨-, hout⟩
      · exact hsame
      · cases hpace
      · exact absurd hout hne
  | false =>
    have hsame : (s.runParse n ⟨.ok program, (parse s.fresh (tokensOf source)).fresh⟩).Same
        (s.runParse k ⟨.ok program', (parse s.fresh (tokensOf source)).fresh⟩) := by
      unfold runParse
      simp only [hr]
      exact ⟨rfl, rfl, rfl⟩
    exact ⟨fun _ _ => hsame, fun _ _ => hsame⟩

/-- A function made in the body prints the variable of the loop, which the increment clears. -/
theorem run_lowered_closure :
    let s := start ⟨.unlimited, [], .running 0⟩
    let source := "for (var go = true; go; go = false) { fun f() { print go; } f(); }"
    ∃ program program', (parse s.fresh (tokensOf source)).result = .ok program ∧
      Stmt.LoweredAll program program' ∧ program' ≠ program ∧ (s.run 20 source).outcome = .completed ∧
      (s.run 20 source).Same (s.runParse 100 { parse s.fresh (tokensOf source) with result := .ok program' }) := by
  intro s source
  let go : Token := ⟨.identifier, "go", 1⟩
  let f : Token := ⟨.identifier, "f", 1⟩
  let body : Stmt := .block [.funDecl (.mk f [] [.print ⟨.keyword .kwPrint, "print", 1⟩ (.variable 3 go)]),
    .expr (.call (.variable 4 f) (.ofMark .rightParen 1) [])]
  let increment : Expr := .assign 2 go (.literal (.bool false))
  let first : Stmt := .varDecl go (some (.literal (.bool true)))
  let program : List Stmt := [.block [first, .loop (.variable 0 go) body (some increment)]]
  let program' : List Stmt := [.block [first, .loop (.variable 0 go) (.block [body, .expr increment]) none]]
  have hl : lexicalDiagnostics source = [] := by decide +kernel
  have hp : (parse s.fresh (tokensOf source)).result = .ok program := by
    rw [show s.fresh = 0 from rfl]
    show (parse 0 (tokensOf "for (var go = true; go; go = false) { fun f() { print go; } f(); }")).result = _
    rfl
  have hd : resolveProgram program = .ok [(0, 0), (3, 2), (4, 0), (2, 0)] := rfl
  have hbody : Stmt.Lowered body body :=
    .block (.cons (.funDecl (.mk (.cons .print .nil))) (.cons .expr .nil))
  have h : Stmt.LoweredAll program program' :=
    .cons (.block (.cons .varDecl (.cons (.replaced rfl hbody) .nil))) .nil
  have hne : program' ≠ program := by simp [program, program']
  have hhosts : ∀ f ∈ s.hosts, Host.Shallow f := fun f hf => absurd hf (Array.not_mem_empty f)
  have hcompleted : (s.run 20 source).outcome = .completed := by decide +kernel
  have hsame := ((run_lowered (.start _) hhosts hl hp hd h).2 20 100).1 (by decide)
  refine ⟨program, program', hp, h, hne, hcompleted, hsame ?_⟩
  rw [hcompleted]
  decide

end Session

end ScriptLang
