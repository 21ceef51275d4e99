import ScriptLang.Proofs.Running.Chains
import ScriptLang.Proofs.Running.Moments
import ScriptLang.Proofs.Sessions.Lookup

/-!
# Chains never change and come to an end

Instances, closures and frames may hold each other in cycles.  Two kinds of links never do: those from frames to the
frames around them, and those from classes to their superclasses.

* `Value.ClassesBefore` — the classes behind a value came to be before a machine; `Makes.lt_of_superclass?` — therefore
  a superclass is older than the class;
* `Session.Later`, `Turn` — what becomes of a session; a source that is run in one, with the machines and values that are
  there meanwhile;
* `Turn.Follows` — a turn is another one, or comes later;
* `Turn.chains_wellFounded` — frames and classes are linked to older ones, for ever, and every access along the links
  comes to an end.

Positions of frames and tags of classes are given out in order, so what is older has the smaller one.
-/

namespace ScriptLang

/-! ## classes and their superclasses -/

/-- A method is searched on the chain of superclasses. -/
theorem Class.seeks_method? (name : String) :
    ∀ c : Class, Seeks Class.superclass? (fun k => Assoc.get? k.methods name) c (c.method? name)
  | .mk tag title none methods => by
    cases hm : Assoc.get? methods name with
    | some m =>
      rw [Class.method?, hm]
      exact .here hm
    | none =>
      rw [Class.method?, hm]
      exact .nowhere hm rfl
  | .mk tag title (some parent) methods => by
    cases hm : Assoc.get? methods name with
    | some m =>
      rw [Class.method?, hm]
      exact .here hm
    | none =>
      rw [Class.method?, hm]
      exact .further hm rfl (Class.seeks_method? name parent)

theorem Class.mem_chain_self (c : Class) : c ∈ c.chain := by
  rw [Class.chain_eq]
  exact List.mem_cons_self

/-- The classes behind a value came to be before a machine. -/
def Value.ClassesBefore (m : Machine) (v : Value) : Prop := ∀ k ∈ v.classes, (Value.klass k).Before m

section

open Exec

variable {σ : Setting} {p q : Point} {m m' : Machine} {c parent : Class} {ms : List FunctionDecl} {frame : FrameRef}

theorem Heap.Carries.classesBefore_mono {h : Heap} (hm : h.Carries (Value.ClassesBefore m)) (hage : m.Older m') :
    h.Carries (Value.ClassesBefore m') :=
  hm.mono fun _ hv k hk => (hv k hk).mono hage

/-- What is created in a task that is over came to be before the machines that come behind it. -/
theorem supplies_classesBefore (hh : ∀ f ∈ σ.hosts, Host.Tame f) (hp : p.leaves? σ = some m) (hm : m.Older m') :
    σ.Supplies (Value.ClassesBefore m') p where
  hosts := hh
  plain v hv k hk := by
    cases v with
    | klass c => exact hv.elim
    | object o c => exact hv.elim
    | _ => cases hk
  function tag c k hk := nomatch hk
  object q o c _ _ hc := hc
  klass q c hv hc hparent k hk := by
    rw [show (Value.klass c).classes = c.chain from rfl, Class.chain_eq] at hk
    rcases List.mem_cons.1 hk with rfl | hk
    · exact (hc.before_end_of_visits hv hp).mono hm
    · cases hs : c.superclass? with
      | none =>
        rw [hs] at hk
        cases hk
      | some parent =>
        rw [hs] at hk
        exact hparent parent hs k hk

/-- What a task calls finds classes that came to be before. -/
theorem Calls.classesBefore (hh : ∀ f ∈ σ.hosts, Host.Tame f) (h : Calls σ p q)
    (hp : p.Carries (Value.ClassesBefore p.machine)) : q.Carries (Value.ClassesBefore q.machine) := by
  have hage := h.within.begins
  refine h.carries_of_before ⟨fun _ _ _ hc => hc, fun r hr ho => ?_⟩
    ⟨hp.heap.classesBefore_mono hage, fun v hv k hk => (hp.arguments v hv k hk).mono hage⟩
  obtain ⟨m, hm, hq⟩ := ho
  exact supplies_classesBefore hh hm hq

/-- So it is at every point that a run visits. -/
theorem Visits.classesBefore (hh : ∀ f ∈ σ.hosts, Host.Tame f) (h : Visits σ p q)
    (hp : p.Carries (Value.ClassesBefore p.machine)) : q.Carries (Value.ClassesBefore q.machine) := by
  induction h with
  | refl => exact hp
  | tail _ hc ih => exact hc.classesBefore hh ih

/-- A class statement makes a class that is younger than its superclass. -/
theorem Makes.lt_of_superclass? (h : Makes σ q c ms frame) (hh : ∀ f ∈ σ.hosts, Host.Tame f)
    (hq : q.Carries (Value.ClassesBefore q.machine)) (hp : c.superclass? = some parent) : parent.tag < c.tag := by
  cases h with
  | plain => cases hp
  | @derived n e name x ms m k m' hx =>
    obtain rfl : k = parent := Option.some.inj hp
    have hsupplies : σ.Supplies (Value.ClassesBefore m') ⟨n, .eval e x, m⟩ :=
      supplies_classesBefore hh (machine?_of_done hx) (.refl m')
    have hparent := ((hq.heap.classesBefore_mono (older_of_eval hx)).behind_eval hsupplies hx).2
    exact hparent k k.mem_chain_self

end

/-! ## what becomes of a session -/

namespace Session

/-- One thing is done with a session. -/
inductive Next : Session → Session → Prop
  | host {s : Session} (name : String) (arity : Nat) {f : Host} : f.Tame → Next s (s.defineHost name arity f)
  | reset {s : Session} : Next s s.reset
  | run {s : Session} (fuel : Nat) (source : String) : Next s (s.run fuel source).session

/-- Things are done with a session one after the other. -/
def Later : Session → Session → Prop := Relation.ReflTransGen Next

variable {s s' t : Session} {sites : List Site} {runs : List Run}

theorem Next.older (h : Next s s') : s.machine.Older s'.machine := by
  cases h with
  | host name arity hf => exact older_defineBuiltin { s with hosts := s.hosts.push _ } _
  | reset => exact .refl _
  | run fuel source =>
    cases he : s.enter? source with
    | none =>
      obtain ⟨ds, hrun⟩ := run_eq_refuse fuel he
      rw [hrun]
      exact .refl _
    | some entered =>
      obtain ⟨s', program⟩ := entered
      have hmachine : s'.machine = s.machine := by rw [(enter?_eq_some he).2.2]
      rw [run_eq_execute he, ← hmachine]
      by_cases hu : (s'.execute fuel program).outcome = .unfinished
      · rw [machine_of_unfinished hu]
        exact .refl _
      · obtain ⟨m, hm, hage⟩ := exists_leaves_of_execute hu
        exact (Point.older_of_leaves hm).trans hage

theorem Later.older (h : s.Later t) : s.machine.Older t.machine := by
  induction h with
  | refl => exact .refl _
  | tail _ hnext ih => exact ih.trans hnext.older

/-- Later there are more runs, behind those that there were. -/
theorem Ran.later (hs : Ran s sites runs) (h : s.Later t) : ∃ sites' runs', Ran t sites' (runs ++ runs') := by
  induction h with
  | refl => exact ⟨sites, [], by rwa [List.append_nil]⟩
  | tail _ hnext ih =>
    obtain ⟨sites', runs', hran⟩ := ih
    cases hnext with
    | host name arity hf => exact ⟨sites', runs', .host name arity hran hf⟩
    | reset => exact ⟨sites', runs', .reset hran⟩
    | run fuel source =>
      have hran := Ran.run fuel source hran
      rw [List.append_assoc] at hran
      exact ⟨_, _, hran⟩

end Session

/-! ## turns -/

/-- A source that is run in a session. -/
structure Turn where
  session : Session
  fuel : Nat
  source : String

namespace Turn

/-- What the run answers. -/
def answer (t : Turn) : Answer := t.session.run t.fuel t.source

/-- The run that begins, if the source is accepted. -/
def begun (t : Turn) : List Run :=
  (t.session.enter? t.source).elim [] fun entered => [⟨entered.1, t.fuel, entered.2⟩]

/-- A machine that is there before the program runs, or that one of its tasks finds or leaves. -/
inductive Passes (t : Turn) : Machine → Prop
  | before : Passes t t.session.machine
  | during {σ : Setting} {p : Point} {m : Machine} : Session.Visited t.begun σ p → p.Passes σ m → Passes t m

/-- A machine between two of these; what a task does by itself, without calls, happens there. -/
def Spans (t : Turn) (m : Machine) : Prop := ∃ m₁ m₂, t.Passes m₁ ∧ t.Passes m₂ ∧ m₁.Older m ∧ m.Older m₂

/-- A value that frames or fields of these machines hold, or that a task was handed or gives. -/
inductive Shows (t : Turn) (v : Value) : Prop
  | held {m : Machine} : t.Passes m → m.heap.Holds v → Shows t v
  | handled {σ : Setting} {p : Point} : Session.Visited t.begun σ p → p.Shows σ v → Shows t v

/-- A turn is another one, or comes later, behind the end of its run. -/
def Follows (u t : Turn) : Prop := u = t ∨ t.answer.outcome ≠ .unfinished ∧ t.answer.session.Later u.session

open Session

variable {t u : Turn} {r : Run} {m m' : Machine} {v : Value} {k : Class} {sites : List Site} {runs : List Run}

theorem mem_begun : r ∈ t.begun ↔ t.session.enter? t.source = some (r.session, r.program) ∧ r.fuel = t.fuel := by
  unfold begun
  cases t.session.enter? t.source with
  | none => simp
  | some entered =>
    obtain ⟨s', program⟩ := entered
    obtain ⟨s, fuel, program'⟩ := r
    simp only [Option.elim_some, List.mem_singleton, Run.mk.injEq, Option.some.injEq, Prod.mk.injEq]
    grind

theorem begun_of_none (h : t.session.enter? t.source = none) : t.begun = [] := by
  rw [begun, h, Option.elim_none]

theorem begun_of_mem (h : r ∈ t.begun) : t.begun = [r] := by
  obtain ⟨he, hf⟩ := mem_begun.1 h
  rw [begun, he, Option.elim_some, ← hf]

/-- The run begins with the machine of the session. -/
theorem machine_of_mem (h : r ∈ t.begun) : r.session.machine = t.session.machine := by
  rw [(enter?_eq_some (mem_begun.1 h).1).2.2]

theorem answer_of_mem (h : r ∈ t.begun) : t.answer = r.session.execute r.fuel r.program := by
  obtain ⟨he, hf⟩ := mem_begun.1 h
  rw [answer, run_eq_execute he, hf]

/-- A run that ends is remembered. -/
theorem runsOf_eq_begun (h : t.answer.outcome ≠ .unfinished) : t.session.runsOf t.fuel t.source = t.begun := by
  rw [answer] at h
  unfold runsOf begun
  cases he : t.session.enter? t.source with
  | none => rfl
  | some entered =>
    rw [run_eq_execute he] at h
    rw [Option.elim_some, Option.elim_some, if_neg h]

/-! ## the order of machines -/

namespace Passes

theorem behind_session (h : t.Passes m) : t.session.machine.Older m := by
  cases h with
  | before => exact .refl _
  | during hv hp =>
    obtain ⟨r, hr, rfl, hv⟩ := hv
    rw [← machine_of_mem hr]
    exact hp.behind_start_of_visits hv

theorem before_answer (h : t.Passes m) (hu : t.answer.outcome ≠ .unfinished) : m.Older t.answer.session.machine := by
  cases h with
  | before => exact (Next.run t.fuel t.source).older
  | during hv hp =>
    obtain ⟨r, hr, rfl, hv⟩ := hv
    rw [answer_of_mem hr] at hu ⊢
    obtain ⟨m', hm', hage⟩ := exists_leaves_of_execute hu
    exact (hp.before_end_of_visits hv hm').trans hage

/-- Of two machines that are there in one turn, or in two, one is an older state of the other. -/
theorem older_or_older (h : t.Passes m) (h' : u.Passes m') (hu : u.Follows t) : m.Older m' ∨ m'.Older m := by
  rcases hu with rfl | ⟨hend, hlater⟩
  · cases h with
    | before => exact .inl h'.behind_session
    | during hv hp =>
      cases h' with
      | before => exact .inr (Passes.during hv hp).behind_session
      | during hv' hp' =>
        obtain ⟨r, hr, rfl, hv⟩ := hv
        obtain ⟨r', hr', rfl, hv'⟩ := hv'
        obtain rfl : r' = r := List.mem_singleton.1 (begun_of_mem hr ▸ hr')
        exact Point.Passes.older_or_older hv hv' hp hp'
  · exact .inl (((h.before_answer hend).trans hlater.older).trans h'.behind_session)

/-- The machines of a turn have sound scenes, if its session can be reached. -/
theorem exists_scene (h : t.Passes m) (ht : Ran t.session sites runs) : ∃ L, ∃ w : Scene, w.At L m := by
  cases h with
  | before => exact ⟨_, ht.scene⟩
  | during hv hp =>
    obtain ⟨r, hr, rfl, hv⟩ := hv
    have he := (mem_begun.1 hr).1
    exact ⟨_, hp.exists_scene (ht.reached.kept.enter he).serves (covers_of_visits hv) (ht.placed he hv)⟩

theorem nested (h : t.Passes m) (ht : Ran t.session sites runs) : m.heap.frames.Nested := by
  obtain ⟨L, w, hw⟩ := h.exists_scene ht
  rw [← hw.heap]
  refine .of_linked hw.sound.root hw.sound.top fun e he hne => ?_
  obtain ⟨o, ho, hlt, -⟩ := hw.sound.linked e he hne
  exact ⟨o, ho, hlt⟩

end Passes

theorem Spans.nested (h : t.Spans m) (ht : Ran t.session sites runs) : m.heap.frames.Nested := by
  obtain ⟨m₁, m₂, h₁, h₂, hm₁, hm₂⟩ := h
  exact (h₂.nested ht).of_larger (Nat.lt_of_lt_of_le (h₁.nested ht).root hm₁.frames) hm₂.frames hm₂.links

theorem Passes.spans (h : t.Passes m) : t.Spans m := ⟨m, m, h, h, .refl m, .refl m⟩

/-- A link that is there in two states is the same in both. -/
theorem Spans.links (h : t.Spans m) (h' : u.Spans m') (hu : u.Follows t) {e : FrameRef}
    (he : e < m.heap.frames.size) (he' : e < m'.heap.frames.size) :
    m'.heap.frames.enclosing? e = m.heap.frames.enclosing? e := by
  obtain ⟨-, m₁, -, h₁, -, hm⟩ := h
  obtain ⟨-, m₂, -, h₂, -, hm'⟩ := h'
  rcases h₁.older_or_older h₂ hu with hage | hage
  · rw [← hm'.links e he', ← hm.links e he, hage.links e (Nat.lt_of_lt_of_le he hm.frames)]
  · rw [← hm'.links e he', ← hm.links e he, hage.links e (Nat.lt_of_lt_of_le he' hm'.frames)]

/-! ## the classes of a turn -/

/-- The run that begins goes on with the trail. -/
theorem trail (ht : Ran t.session sites runs) : Trail (runs ++ t.begun) := by
  cases he : t.session.enter? t.source with
  | none =>
    rw [begun_of_none he, List.append_nil]
    exact ht.traced.toTrail
  | some entered =>
    have hr : (⟨entered.1, t.fuel, entered.2⟩ : Run) ∈ t.begun := mem_begun.2 ⟨he, rfl⟩
    rw [begun_of_mem hr]
    exact ht.trail_append ht.traced he

theorem visited_append {σ : Setting} {p : Point} (h : Visited t.begun σ p) : Visited (runs ++ t.begun) σ p := by
  obtain ⟨r, hr, h⟩ := h
  exact ⟨r, List.mem_append_right _ hr, h⟩

/-- Values that are there in a turn come from points of it, or of the runs before. -/
theorem Shows.sourced (h : t.Shows v) (ht : Ran t.session sites runs) :
    v.Sourced (Visited (runs ++ t.begun)) := by
  have htrail := trail ht
  cases h with
  | held hm hv =>
    cases hm with
    | before =>
      refine (ht.traced.heap.holds hv).mono ?_
      rintro σ q ⟨r, hr, h⟩
      exact ⟨r, List.mem_append_left _ hr, h⟩
    | during hvisited hp =>
      obtain ⟨r, hr, rfl, hvisits⟩ := hvisited
      have hmem := List.mem_append_right runs hr
      have hsupplies := htrail.supplies hmem
      have hcarries := hvisits.carries hsupplies ⟨htrail.begins r hmem, fun _ ha => nomatch ha⟩
      exact (hp.carries (hsupplies.visits hvisits) hcarries).holds hv
  | handled hvisited hv => exact htrail.sourced (visited_append hvisited) hv

/-- Every run of the past began in a turn. -/
theorem exists_of_ran {s : Session} (h : Ran s sites runs) (hr : r ∈ runs) :
    ∃ t : Turn, r ∈ t.begun ∧ ∃ sites runs, Ran t.session sites runs := by
  induction h with
  | start console => cases hr
  | host name arity _ _ ih => exact ih hr
  | reset _ ih => exact ih hr
  | @run s sites runs fuel source hran ih =>
    rcases List.mem_append.1 hr with hr | hr
    · exact ih hr
    · refine ⟨⟨s, fuel, source⟩, ?_, sites, runs, hran⟩
      unfold runsOf at hr
      unfold begun
      cases he : s.enter? source with
      | none =>
        rw [he] at hr
        cases hr
      | some entered =>
        rw [he, Option.elim_some] at hr
        split at hr
        · cases hr
        · exact hr

/-- The superclass of a class that was created in a turn, or before, is older than the class. -/
theorem lt_of_created (ht : Ran t.session sites runs) (hk : Created (Visited (runs ++ t.begun)) (.klass k))
    {parent : Class} (hp : k.superclass? = some parent) : parent.tag < k.tag := by
  obtain ⟨σ, q, ⟨r, hr, rfl, hv⟩, hc⟩ := hk
  have hh := (trail ht).hosts r hr
  obtain ⟨u, hu, sites', runs', hran⟩ : ∃ u : Turn, r ∈ u.begun ∧ ∃ sites runs, Ran u.session sites runs := by
    rcases List.mem_append.1 hr with hr | hr
    · exact exists_of_ran ht hr
    · exact ⟨t, hr, sites, runs, ht⟩
  have hbegins : r.first.Carries (Value.ClassesBefore r.first.machine) := by
    refine ⟨?_, fun _ ha => nomatch ha⟩
    show r.session.machine.heap.Carries (Value.ClassesBefore r.session.machine)
    rw [machine_of_mem hu]
    exact hran.traced.heap.mono fun v hv k hk => hran.traced.before _ (hv.classes k hk)
  cases hc with
  | klass hmakes => exact hmakes.lt_of_superclass? hh (hv.classesBefore hh hbegins) hp

/-- Two classes with one tag, wherever they are shown, are one. -/
theorem Shows.class_unique (ht : Ran t.session sites runs) (hu : u.Follows t) {v' : Value} {k' : Class}
    (h : t.Shows v) (hk : k ∈ v.classes) (h' : u.Shows v') (hk' : k' ∈ v'.classes) (htag : k.tag = k'.tag) :
    k = k' := by
  have hsame : ∀ past, Apart past → Created past (.klass k) → Created past (.klass k') → k = k' := by
    intro past hapart hc hc'
    cases hapart _ _ hc hc' (decide_eq_true htag)
    rfl
  have hc := (h.sourced ht).classes k hk
  rcases hu with rfl | ⟨hend, hlater⟩
  · exact hsame _ (trail ht).apart hc ((h'.sourced ht).classes k' hk')
  · have hran := Ran.run t.fuel t.source ht
    rw [runsOf_eq_begun hend] at hran
    obtain ⟨sites', runs', hran⟩ := hran.later hlater
    refine hsame _ (trail hran).apart (hc.mono ?_) ((h'.sourced hran).classes k' hk')
    rintro σ q ⟨r, hr, h⟩
    exact ⟨r, List.mem_append_left _ (List.mem_append_left _ hr), h⟩

/-! ## all turns -/

/-- In every state of every session: the frame of the globals is the only one that lies in no other, all others lie in
older frames and their chains end at the globals, and so all access to names comes to an end.  Of two states of a session
one is an older state of the other, and the frames that they both have lie in the same frames.  Every class is younger
than its superclass, and the search for a method comes to an end; what has its tag is the same class for ever, its
superclass included. -/
theorem chains_wellFounded (ht : Reached t.session sites) (hu : u.Follows t) :
    (∀ m, t.Spans m → m.heap.frames.Nested ∧ m.heap.frames.Decided) ∧
    (∀ m m', t.Passes m → u.Passes m' → m.Older m' ∨ m'.Older m) ∧
    (∀ m m' e, t.Spans m → u.Spans m' → e < m.heap.frames.size → e < m'.heap.frames.size →
      m'.heap.frames.enclosing? e = m.heap.frames.enclosing? e) ∧
    (∀ v, t.Shows v → ∀ k ∈ v.classes, (∀ parent, k.superclass? = some parent → parent.tag < k.tag) ∧
      ∀ name r, Seeks Class.superclass? (fun c => Assoc.get? c.methods name) k r ↔ k.method? name = r) ∧
    ∀ v v', t.Shows v → u.Shows v' → ∀ k ∈ v.classes, ∀ k' ∈ v'.classes, k.tag = k'.tag → k = k' := by
  obtain ⟨runs, hran⟩ := ht.exists_ran
  refine ⟨fun m hm => ?_, ?_, ?_, ?_, ?_⟩
  · have hnested := hm.nested hran
    exact ⟨hnested, hnested.older.decided⟩
  · exact fun m m' hm hm' => hm.older_or_older hm' hu
  · exact fun m m' e hm hm' he he' => hm.links hm' hu he he'
  · intro v hv k hk
    have hcreated := (hv.sourced hran).classes k hk
    exact ⟨fun parent => lt_of_created hran hcreated, fun name => (k.seeks_method? name).iff⟩
  · exact fun v v' hv hv' k hk k' hk' => Shows.class_unique hran hu hv hk hv' hk'

/-- A field of an instance holds a method that is bound in a frame which holds the instance; that frame is linked to an
older one for ever. -/
theorem chains_wellFounded_cyclic : ∃ t u : Turn, ∃ m m' : Machine, ∃ tag method k parent,
    t.session = start ⟨.unlimited, [], .running 0⟩ ∧
    t.source = "class A {} class B < A { m() {} } var b = B(); b.f = b.m;" ∧
    u.session = t.answer.session.defineHost "h" 0 (fun _ => .ok .nil) ∧ t.Spans m ∧ u.Spans m' ∧
    Assoc.get? (m.heap.fields 0) "f" = some (.function tag ⟨method, 2, false⟩) ∧
    m.heap.frames.slot? 2 "this" = some (.object 0 k) ∧ k.superclass? = some parent ∧
    m.heap.frames.enclosing? 2 = some 1 ∧ m'.heap.frames.enclosing? 2 = some 1 ∧
    m.heap.frames.Nested ∧ m.heap.frames.Decided ∧ parent.tag < k.tag := by
  -- all that the run asks of the console is whether its output can be flushed
  obtain ⟨console, hconsole, hflushes⟩ : ∃ console : Console,
      ⟨.unlimited, [], .running 0⟩ = console ∧ console.sink.flushFails = false := ⟨_, rfl, rfl⟩
  rw [hconsole]
  let a : Token := ⟨.identifier, "A", 1⟩
  let b : Token := ⟨.identifier, "b", 1⟩
  let f : Token := ⟨.identifier, "f", 1⟩
  let klass : Token := ⟨.identifier, "B", 1⟩
  let paren : Token := .ofMark .rightParen 1
  let method : FunctionDecl := .mk ⟨.identifier, "m", 1⟩ [] []
  let program : List Stmt := [.classDecl a none [], .classDecl klass (some (.variable 0 a)) [method],
    .varDecl b (some (.call (.variable 1 klass) paren [])),
    .expr (.set (.variable 2 b) f (.get (.variable 3 b) method.name))]
  let s' : Session := { start console with fresh := 4 }
  have he : (start console).enter? "class A {} class B < A { m() {} } var b = B(); b.f = b.m;" =
    some (s', program) := rfl
  let t : Turn := ⟨start console, 19, "class A {} class B < A { m() {} } var b = B(); b.f = b.m;"⟩
  let u : Turn := ⟨t.answer.session.defineHost "h" 0 (fun _ => .ok .nil), 19, ""⟩
  let r : Run := ⟨s', 19, program⟩
  have hr : r ∈ t.begun := mem_begun.2 ⟨he, rfl⟩
  obtain ⟨m, hdone, hsink, hsize, hfield, k, parent, hthis, hparent, hlink⟩ : ∃ m,
      Exec.program 19 s'.setting program s'.machine = .done () m ∧ m.console = console ∧
        2 < m.heap.frames.size ∧ Assoc.get? (m.heap.fields 0) "f" = some (.function 5 ⟨method, 2, false⟩) ∧ ∃ k parent,
          m.heap.frames.slot? 2 "this" = some (.object 0 k) ∧ k.superclass? = some parent ∧
            m.heap.frames.enclosing? 2 = some 1 := by
    refine ⟨_, by
      simp only [program, Exec.program, Exec.exec, Exec.makeClass, Exec.methodTable, Assoc.setAll_cons, List.map]
      cbv, ?_⟩
    exact ⟨rfl, Nat.lt_succ_self 2, rfl, _, _, rfl, rfl, rfl⟩
  have hm : r.first.leaves? s'.setting = some m := congrArg Ending.machine? hdone
  have hanswer : t.answer.outcome = .completed := by
    rw [answer_of_mem hr, execute, Exec.bind_of_done hdone, Exec.flush, hsink, hflushes]
    rfl
  have hend : t.answer.outcome ≠ .unfinished := by
    rw [hanswer]
    decide
  have hpasses : t.Passes m := .during ⟨r, hr, rfl, .refl⟩ (.left hm)
  have hnext : Next t.answer.session u.session :=
    .host "h" 0 fun _ v hv => .inr (Except.ok.inj hv ▸ trivial)
  have hspans : t.Spans m := hpasses.spans
  have hspans' : u.Spans u.session.machine := Passes.before.spans
  have hsize' : 2 < u.session.machine.heap.frames.size :=
    Nat.lt_of_lt_of_le hsize ((hpasses.before_answer hend).trans hnext.older).frames
  -- the class of the instance is behind the value of `this`
  have hheld : m.heap.Holds (.object 0 k) := .inl ⟨2, "this", Assoc.mem_of_get? hthis⟩
  obtain ⟨hstates, -, hlinks, hclasses, -⟩ :=
    chains_wellFounded (.start _ : Reached t.session []) (.inr ⟨hend, .single hnext⟩ : u.Follows t)
  have hlink' := (hlinks m _ 2 hspans hspans' hsize hsize').trans hlink
  have hyounger := (hclasses _ (.held hpasses hheld) k k.mem_chain_self).1 parent hparent
  obtain ⟨hnested, hdecided⟩ := hstates m hspans
  exact ⟨t, u, m, _, 5, method, k, parent, rfl, rfl, rfl, hspans, hspans', hfield, hthis, hparent, hlink, hlink',
    hnested, hdecided, hyounger⟩

end Turn

end ScriptLang
