import ScriptLang.Proofs.Running.Carrying
import ScriptLang.Proofs.Sessions.Construction

/-!
# Properties of objects

* `Declared`, `Finds` — a class statement of the past declared the methods of a class; what classes find under a name is
  what the nearest of them that declares it declares last;
* `Value.Sourced` — objects and classes, and the classes behind them, were created at points of the past;
* `Apart` — no two of those have the same identity, so an object is of one class for ever, and a class keeps what it is;
* `Exec.ReadsProperty`, `Heap.FieldWritten` — the three endings of a read, and all that a write does;
* `Session.lookup_sound` — these hold in every run of an accepted source.
-/

namespace ScriptLang

/-! ## what classes declare -/

/-- An object or a class was created at a point of the past. -/
def Created (past : Setting → Point → Prop) (v : Value) : Prop := ∃ σ q, past σ q ∧ Creates σ q v

/-- A class statement of the past made the class with these methods, closed over this frame. -/
def Declared (past : Setting → Point → Prop) (c : Class) (ms : List FunctionDecl) (frame : FrameRef) : Prop :=
  ∃ σ q, past σ q ∧ Makes σ q c ms frame

/-- The last of some declarations that has the name. -/
def FunctionDecl.Last (ms : List FunctionDecl) (name : String) (d : FunctionDecl) : Prop :=
  ∃ before after, ms = before ++ d :: after ∧ d.name.lexeme = name ∧ ∀ d' ∈ after, d'.name.lexeme ≠ name

/-- A class was declared without a method of the name. -/
def Class.Lacks (past : Setting → Point → Prop) (name : String) (c : Class) : Prop :=
  ∃ ms frame, Declared past c ms frame ∧ ∀ d ∈ ms, d.name.lexeme ≠ name

/-- Of some classes, nearest first, the nearest that declares the name has this method as the last of that name in its
body, closed over this frame. -/
def Finds (past : Setting → Point → Prop) (ks : List Class) (name : String) (d : FunctionDecl) (frame : FrameRef) : Prop :=
  ∃ front k back ms, ks = front ++ k :: back ∧ (∀ k' ∈ front, k'.Lacks past name) ∧ Declared past k ms frame ∧
    FunctionDecl.Last ms name d

namespace FunctionDecl

variable {ms : List FunctionDecl} {name : String} {d : FunctionDecl} {e : FrameRef}

/-- Some declaration is the last one of a name, unless there is none. -/
theorem exists_last (ms : List FunctionDecl) (name : String) :
    (∃ d, Last ms name d) ∨ ∀ d ∈ ms, d.name.lexeme ≠ name := by
  induction ms with
  | nil => exact .inr fun _ h => nomatch h
  | cons d ms ih =>
    rcases ih with ⟨d', before, after, rfl, h⟩ | hnone
    · exact .inl ⟨d', d :: before, after, rfl, h⟩
    · by_cases hd : d.name.lexeme = name
      · exact .inl ⟨d, [], ms, rfl, hd, hnone⟩
      · exact .inr (List.forall_mem_cons.2 ⟨hd, hnone⟩)

theorem get?_methodTable_of_none (h : ∀ d ∈ ms, d.name.lexeme ≠ name) :
    Assoc.get? (Exec.methodTable e ms) name = none := by
  unfold Exec.methodTable
  rw [Assoc.get?_setAll_of_not_mem]
  · rfl
  · intro hmem
    obtain ⟨p, hp, hname⟩ := List.mem_map.1 hmem
    obtain ⟨d, hd, rfl⟩ := List.mem_map.1 hp
    exact h d hd hname

theorem get?_methodTable_of_last (h : Last ms name d) :
    Assoc.get? (Exec.methodTable e ms) name = some ⟨d, e, d.isInit⟩ := by
  obtain ⟨before, after, rfl, rfl, hafter⟩ := h
  unfold Exec.methodTable
  rw [List.map_append, List.map_cons, Assoc.setAll_append, Assoc.setAll_cons, Assoc.get?_setAll_of_not_mem]
  · exact Assoc.get?_set_self ..
  · intro hmem
    obtain ⟨p, hp, hname⟩ := List.mem_map.1 hmem
    obtain ⟨d', hd', rfl⟩ := List.mem_map.1 hp
    exact hafter d' hd' hname

end FunctionDecl

section

variable {past : Setting → Point → Prop} {c k : Class} {name : String} {ms : List FunctionDecl} {frame : FrameRef}

theorem Declared.methods (h : Declared past c ms frame) : c.methods = Exec.methodTable frame ms := by
  obtain ⟨σ, q, -, h⟩ := h
  cases h <;> rfl

theorem Created.declared (h : Created past (.klass c)) : ∃ ms frame, Declared past c ms frame := by
  obtain ⟨σ, q, hq, h⟩ := h
  cases h with
  | klass h => exact ⟨_, _, σ, q, hq, h⟩

theorem Finds.cons {ks : List Class} {d : FunctionDecl} (hk : k.Lacks past name) (h : Finds past ks name d frame) :
    Finds past (k :: ks) name d frame := by
  obtain ⟨front, k', back, ms, rfl, hfront, h⟩ := h
  exact ⟨k :: front, k', back, ms, rfl, List.forall_mem_cons.2 ⟨hk, hfront⟩, h⟩

/-- A search along classes that were declared ends at the first that declares the name, or finds nothing. -/
theorem findSome?_methods {ks : List Class} (h : ∀ k ∈ ks, Created past (.klass k)) (name : String) :
    (∃ d frame, Finds past ks name d frame ∧
      (ks.findSome? fun k => Assoc.get? k.methods name) = some ⟨d, frame, d.isInit⟩) ∨
    (∀ k ∈ ks, k.Lacks past name) ∧ (ks.findSome? fun k => Assoc.get? k.methods name) = none := by
  induction ks with
  | nil => exact .inr ⟨(fun _ h => nomatch h), rfl⟩
  | cons k ks ih =>
    obtain ⟨hk, hks⟩ := List.forall_mem_cons.1 h
    obtain ⟨ms, frame, hdeclared⟩ := hk.declared
    rcases FunctionDecl.exists_last ms name with ⟨d, hd⟩ | hnone
    · refine .inl ⟨d, frame, ⟨[], k, ks, ms, rfl, (fun _ h => nomatch h), hdeclared, hd⟩, ?_⟩
      rw [List.findSome?_cons, hdeclared.methods, FunctionDecl.get?_methodTable_of_last hd]
    · have hlacks : k.Lacks past name := ⟨ms, frame, hdeclared, hnone⟩
      have hown : Assoc.get? k.methods name = none := by
        rw [hdeclared.methods, FunctionDecl.get?_methodTable_of_none hnone]
      rw [List.findSome?_cons, hown]
      rcases ih hks with ⟨d, frame', hfinds, hfind⟩ | ⟨hrest, hfind⟩
      · exact .inl ⟨d, frame', hfinds.cons hlacks, hfind⟩
      · exact .inr ⟨List.forall_mem_cons.2 ⟨hlacks, hrest⟩, hfind⟩

end

/-! ## reading and writing -/

namespace Exec

/-- How a read of a property ends: with the field; or else with the method that the class finds, in a new frame that
binds `this` to the object and is enclosed by the frame the method was declared in; or else with a fault. -/
inductive ReadsProperty (past : Setting → Point → Prop) (o : ObjectRef) (c : Class) (name : Token) (m : Machine) :
    Ending Value → Prop
  | field {v} : Assoc.get? (m.heap.fields o) name.lexeme = some v → ReadsProperty past o c name m (.done v m)
  | method {d frame} : Assoc.get? (m.heap.fields o) name.lexeme = none → Finds past c.chain name.lexeme d frame →
      ReadsProperty past o c name m (.done (.function m.heap.nextTag ⟨d, m.heap.frames.size, d.isInit⟩)
        { m with heap := { m.heap.addFrame frame [("this", .object o c)] with nextTag := m.heap.nextTag + 1 } })
  | missing : Assoc.get? (m.heap.fields o) name.lexeme = none → (∀ k ∈ c.chain, k.Lacks past name.lexeme) →
      ReadsProperty past o c name m (.failed (.runtime ⟨name, .undefinedProperty name.lexeme⟩) m)

variable {past : Setting → Point → Prop} {o : ObjectRef} {c : Class} {name : Token} {m : Machine}

theorem getProperty_of_field {v : Value} (h : Assoc.get? (m.heap.fields o) name.lexeme = some v) :
    getProperty o c name m = .done v m := by
  have hfield : field? o name.lexeme m = .done (some v) m := by rw [← h]; rfl
  unfold getProperty
  rw [bind_of_done hfield]
  rfl

theorem readsProperty (h : ∀ k ∈ c.chain, Created past (.klass k)) :
    ReadsProperty past o c name m (getProperty o c name m) := by
  cases hf : Assoc.get? (m.heap.fields o) name.lexeme with
  | some v =>
    rw [getProperty_of_field hf]
    exact .field hf
  | none =>
    have hfield : field? o name.lexeme m = .done none m := by rw [← hf]; rfl
    rcases findSome?_methods h name.lexeme with ⟨d, frame, hfinds, hfind⟩ | ⟨hlacks, hfind⟩
    · have hget : getProperty o c name m = boundMethod ⟨d, frame, d.isInit⟩ (.object o c) m := by
        unfold getProperty
        rw [bind_of_done hfield, Class.method?_eq_findSome?, hfind]
      rw [hget]
      exact .method hf hfinds
    · have hget : getProperty o c name m = .failed (.runtime ⟨name, .undefinedProperty name.lexeme⟩) m := by
        unfold getProperty
        rw [bind_of_done hfield, Class.method?_eq_findSome?, hfind]
        rfl
      rw [hget]
      exact .missing hf hlacks

end Exec

/-- All that a write of a field does: that field of that object has the value, through whatever value the object is
reached; all other fields, all frames, and with them what methods were bound to, are as they were. -/
structure Heap.FieldWritten (h h' : Heap) (o : ObjectRef) (name : String) (v : Value) : Prop where
  frames : h'.frames = h.frames
  nextTag : h'.nextTag = h.nextTag
  objects : h'.objects.size = h.objects.size
  field : ∀ o' name', Assoc.get? (h'.fields o') name' =
    if o' = o ∧ name' = name then some v else Assoc.get? (h.fields o') name'
  held : ∀ u, h'.Holds u → u = v ∨ h.Holds u

theorem Heap.fieldWritten {h : Heap} {o : ObjectRef} (ho : o < h.objects.size) (name : String) (v : Value) :
    h.FieldWritten (h.setField o name v) o name v where
  frames := rfl
  nextTag := rfl
  objects := Array.size_modify
  field o' name' := by
    unfold fields setField
    rw [Array.getElem?_modify]
    by_cases he : o = o'
    · subst he
      have hfields : h.objects[o]? = some h.objects[o] := Array.getElem?_eq_getElem ho
      rw [if_pos rfl, hfields, Option.map_some, Option.getD_some, Option.getD_some, Assoc.get?_set]
      by_cases hn : name = name' <;> simp [hn, eq_comm]
    · have he' : ¬ o' = o := fun h => he h.symm
      rw [if_neg he, if_neg fun h => he' h.1]
  held u hu := by
    obtain ⟨e, n, hmem⟩ | ⟨o', n, hmem⟩ := hu
    · exact .inr (.inl ⟨e, n, hmem⟩)
    · rcases Scene.mem_fields_setField hmem with hp | hp
      · exact .inl hp
      · exact .inr (.inr ⟨o', n, hp⟩)

/-! ## where values come from -/

/-- The classes behind a value. -/
def Value.classes : Value → List Class
  | .klass c => c.chain
  | .object _ c => c.chain
  | _ => []

/-- A value that is an object, and the classes behind any value, were created at points of the past. -/
structure Value.Sourced (past : Setting → Point → Prop) (v : Value) : Prop where
  classes : ∀ k ∈ v.classes, Created past (.klass k)
  object : ∀ o c, v = .object o c → Created past v

/-- No two objects and no two classes of the past have the same identity. -/
def Apart (past : Setting → Point → Prop) : Prop :=
  ∀ u v, Created past u → Created past v → u.equals v = true → u = v

theorem Class.chain_eq (c : Class) : c.chain = c :: (c.superclass?.map Class.chain).getD [] := by
  obtain ⟨tag, name, parent, ms⟩ := c
  cases parent <;> rfl

section

variable {past past' : Setting → Point → Prop} {v : Value}

theorem Created.mono (h : Created past v) (hp : ∀ σ q, past σ q → past' σ q) : Created past' v := by
  obtain ⟨σ, q, hq, hv⟩ := h
  exact ⟨σ, q, hp σ q hq, hv⟩

theorem Value.Sourced.mono (h : v.Sourced past) (hp : ∀ σ q, past σ q → past' σ q) : v.Sourced past' :=
  ⟨fun k hk => (h.classes k hk).mono hp, fun o c hv => (h.object o c hv).mono hp⟩

theorem Value.Plain.sourced (h : v.Plain) : v.Sourced past := by
  cases v with
  | function tag c => exact h.elim
  | klass c => exact h.elim
  | object o c => exact h.elim
  | _ => exact ⟨(fun _ hk => nomatch hk), fun _ _ hv => nomatch hv⟩

theorem Heap.Carries.mono {V W : Value → Prop} {h : Heap} (hm : h.Carries V) (hVW : ∀ v, V v → W v) : h.Carries W :=
  ⟨fun e p hp => hVW _ (hm.value e p hp), fun o p hp => hVW _ (hm.field o p hp)⟩

theorem Heap.Carries.holds {V : Value → Prop} {h : Heap} (hm : h.Carries V) (hv : h.Holds v) : V v := by
  obtain ⟨e, name, hmem⟩ | ⟨o, name, hmem⟩ := hv
  · exact hm.value e _ hmem
  · exact hm.field o _ hmem

/-- From a point on whose visits are in the past, what is created comes from there. -/
theorem Setting.supplies_of_past {σ : Setting} {p : Point} (hh : ∀ f ∈ σ.hosts, Host.Tame f)
    (hp : ∀ q, Visits σ p q → past σ q) : σ.Supplies (Value.Sourced past) p where
  hosts := hh
  plain _ hv := hv.sourced
  function _ _ := ⟨(fun _ hk => nomatch hk), fun _ _ hv => nomatch hv⟩
  object q o c hv hc hk := ⟨hk.classes, fun _ _ _ => ⟨σ, q, hp q hv, hc⟩⟩
  klass q c hv hc hparent := by
    refine ⟨fun k hk => ?_, fun _ _ h => nomatch h⟩
    rw [show (Value.klass c).classes = c.chain from rfl, Class.chain_eq] at hk
    rcases List.mem_cons.1 hk with rfl | hk
    · exact ⟨σ, q, hp q hv, hc⟩
    · cases hs : c.superclass? with
      | none =>
        rw [hs] at hk
        cases hk
      | some parent =>
        rw [hs] at hk
        exact (hparent parent hs).classes k hk

end

/-! ## sessions -/

namespace Session

variable {s s' : Session} {sites : List Site} {runs : List Run} {source : String} {program : List Stmt} {fuel : Nat}
  {V : Value → Prop}

theorem carries_defineBuiltin (h : s.machine.heap.Carries V) (hV : ∀ v, Value.Plain v → V v) (b : Builtin) :
    (s.defineBuiltin b).machine.heap.Carries V := by
  have hdefined := h.define Heap.globals b.name (v := .builtin s.machine.heap.nextTag b) (hV _ trivial)
  exact ⟨hdefined.value, hdefined.field⟩

/-- A definition among the globals comes later, whatever hosts there are. -/
theorem older_defineBuiltin (s : Session) (b : Builtin) : s.machine.Older (s.defineBuiltin b).machine :=
  (Machine.Older.define ..).trans (.of_frames rfl (Nat.le_refl _) (Nat.le_succ _))

theorem carries_start (hV : ∀ v, Value.Plain v → V v) (console : Console) : (start console).machine.heap.Carries V := by
  have h : (Session.machine ⟨⟨Heap.initial, console⟩, [], #[], 0, true, false⟩).heap.Carries V := by
    refine ⟨fun e p hp => ?_, fun o p hp => ?_⟩
    · cases e <;> cases hp
    · cases hp
  exact carries_defineBuiltin (carries_defineBuiltin (carries_defineBuiltin h hV _) hV _) hV _

/-- A run leaves the values that it supplies. -/
theorem carries_execute (hm : s.machine.heap.Carries V)
    (hs : s.setting.Supplies V (Run.first ⟨s, fuel, program⟩)) :
    (s.execute fuel program).session.machine.heap.Carries V := by
  have hflush : ∀ {m : Machine}, m.heap.Carries V → (Exec.flush m).Carries V fun _ => True := by
    intro m hm
    unfold Exec.flush
    split
    · exact hm
    · exact ⟨hm, trivial⟩
  have hcarries : ((do Exec.program fuel s.setting program; Exec.flush : Exec Unit) s.machine).Carries V fun _ => True :=
    Exec.carries_bind (carries_program hm hs) fun _ m _ hm _ => hflush hm
  unfold execute
  cases he : (do Exec.program fuel s.setting program; Exec.flush : Exec Unit) s.machine with
  | done u machine =>
    rw [he] at hcarries
    exact hcarries.1
  | failed fault machine =>
    rw [he] at hcarries
    exact hcarries
  | outOfFuel => exact hm

/-- A run that ends leaves a machine no older than the one that its program leaves. -/
theorem exists_leaves_of_execute (hu : (s.execute fuel program).outcome ≠ .unfinished) :
    ∃ m, (Run.first ⟨s, fuel, program⟩).leaves? s.setting = some m ∧
      m.Older (s.execute fuel program).session.machine := by
  have hages : Exec.flush.Ages := Exec.ages_of_heap fun m m' h => by
    unfold Exec.flush at h
    split at h <;> cases h <;> rfl
  have hleaves : ∀ m', ((do Exec.program fuel s.setting program; Exec.flush : Exec Unit) s.machine).machine? = some m' →
      ∃ m, (Run.first ⟨s, fuel, program⟩).leaves? s.setting = some m ∧ m.Older m' :=
    fun m' h => Exec.older_of_bind (fun _ => hages) h
  unfold execute at hu ⊢
  cases he : (do Exec.program fuel s.setting program; Exec.flush : Exec Unit) s.machine with
  | done u machine =>
    rw [he] at hleaves
    exact hleaves machine rfl
  | failed fault machine =>
    rw [he] at hleaves
    exact hleaves machine rfl
  | outOfFuel =>
    simp only [he] at hu
    exact absurd rfl hu

/-- What holds of some runs: host functions are tame, the values that they begin with come from their points, and what
they create is apart. -/
structure Trail (runs : List Run) : Prop where
  hosts : ∀ r ∈ runs, ∀ f ∈ r.session.setting.hosts, Host.Tame f
  begins : ∀ r ∈ runs, r.session.machine.heap.Carries (Value.Sourced (Visited runs))
  apart : Apart (Visited runs)

/-- A trail that leads to a session: its values come from there, and its clocks stand past all that was created. -/
structure Traced (s : Session) (runs : List Run) : Prop extends Trail runs where
  heap : s.machine.heap.Carries (Value.Sourced (Visited runs))
  before : ∀ v, Created (Visited runs) v → v.Before s.machine

theorem Trail.supplies (h : Trail runs) {r : Run} (hr : r ∈ runs) :
    r.session.setting.Supplies (Value.Sourced (Visited runs)) r.first :=
  Setting.supplies_of_past (h.hosts r hr) fun _ hv => ⟨r, hr, rfl, hv⟩

/-- What is created in one more run is apart from all that was there. -/
theorem Traced.apart_append (h : Traced s runs) (he : s.enter? source = some (s', program)) :
    Apart (Visited (runs ++ [⟨s', fuel, program⟩])) := by
  have hmachine : s'.machine = s.machine := by rw [(enter?_eq_some he).2.2]
  -- a run is an old one, or the new one
  have hsplit : ∀ {v}, Created (Visited (runs ++ [⟨s', fuel, program⟩])) v →
      v.Before s.machine ∧ Created (Visited runs) v ∨
      ∃ q, Visits s'.setting (Run.first ⟨s', fuel, program⟩) q ∧ Creates s'.setting q v := by
    rintro v ⟨σ, q, ⟨r, hr, rfl, hv⟩, hc⟩
    rcases List.mem_append.1 hr with hr | hr
    · have hold : Created (Visited runs) v := ⟨_, q, ⟨r, hr, rfl, hv⟩, hc⟩
      exact .inl ⟨h.before v hold, hold⟩
    · obtain rfl := List.mem_singleton.1 hr
      exact .inr ⟨q, hv, hc⟩
  have hnew : ∀ {q v}, Visits s'.setting (Run.first ⟨s', fuel, program⟩) q → Creates s'.setting q v →
      ¬ v.Before s.machine := by
    intro q v hv hc
    rw [← hmachine]
    exact hc.not_before_of_visits hv
  intro u v hu hv hequal
  rcases hsplit hu with ⟨hbefore, hu⟩ | ⟨q, hq, hu⟩ <;> rcases hsplit hv with ⟨hbefore', hv⟩ | ⟨q', hq', hv⟩
  · exact h.apart u v hu hv hequal
  · exact absurd ((Value.Before.congr hequal).1 hbefore) (hnew hq' hv)
  · exact absurd ((Value.Before.congr hequal).2 hbefore') (hnew hq hu)
  · exact hu.unique hq hq' hv hequal

/-- The run of an accepted source goes on with the trail. -/
theorem Ran.trail_append (hs : Ran s sites runs) (h : Traced s runs) (he : s.enter? source = some (s', program)) :
    Trail (runs ++ [⟨s', fuel, program⟩]) := by
  have hpast : ∀ {v : Value}, v.Sourced (Visited runs) → v.Sourced (Visited (runs ++ [⟨s', fuel, program⟩])) := by
    refine fun hv => hv.mono ?_
    rintro σ q ⟨r, hr, hvisits⟩
    exact ⟨r, List.mem_append_left _ hr, hvisits⟩
  refine ⟨fun r hr => ?_, fun r hr => ?_, h.apart_append he⟩ <;> rcases List.mem_append.1 hr with hr | hr
  · exact h.hosts r hr
  · obtain rfl := List.mem_singleton.1 hr
    exact (hs.reached.kept.enter he).hosts
  · exact (h.begins r hr).mono fun _ => hpast
  · obtain rfl := List.mem_singleton.1 hr
    have hmachine : s'.machine = s.machine := by rw [(enter?_eq_some he).2.2]
    exact (hmachine ▸ h.heap : s'.machine.heap.Carries _).mono fun _ => hpast

/-- A trail leads to every session that can be reached. -/
theorem Ran.traced (h : Ran s sites runs) : Traced s runs := by
  induction h with
  | start console =>
    have hnone : ∀ v, ¬ Created (Visited []) v := by
      rintro v ⟨σ, q, ⟨r, hr, -⟩, -⟩
      cases hr
    have htrail : Trail [] := ⟨(fun r hr => nomatch hr), (fun r hr => nomatch hr), fun u _ hu => absurd hu (hnone u)⟩
    exact { htrail with
      heap := carries_start (fun _ hv => hv.sourced) console
      before := fun v hv => absurd hv (hnone v) }
  | @host s sites runs name arity f _ _ ih =>
    have hheap : (Session.machine { s with hosts := s.hosts.push f }).heap.Carries (Value.Sourced (Visited runs)) := ih.heap
    exact { ih.toTrail with
      heap := carries_defineBuiltin hheap (fun _ hv => hv.sourced) _
      before := fun v hv => (ih.before v hv).mono (older_defineBuiltin ..) }
  | reset _ ih => exact { ih.toTrail with heap := ih.heap, before := ih.before }
  | @run s sites runs fuel source hran ih =>
    unfold runsOf
    cases he : s.enter? source with
    | none =>
      obtain ⟨ds, hrun⟩ := run_eq_refuse fuel he
      rw [hrun, Option.elim_none, List.append_nil]
      exact { ih.toTrail with heap := ih.heap, before := ih.before }
    | some entered =>
      obtain ⟨s', program⟩ := entered
      have hmachine : s'.machine = s.machine := by rw [(enter?_eq_some he).2.2]
      rw [run_eq_execute he, Option.elim_some]
      split
      · next hu =>
        have hsame : (s'.execute fuel program).session.machine = s.machine := (machine_of_unfinished hu).trans hmachine
        rw [List.append_nil]
        exact { ih.toTrail with
          heap := hsame ▸ ih.heap
          before := fun v hv => hsame ▸ ih.before v hv }
      · next hu =>
        have htrail : Trail (runs ++ [⟨s', fuel, program⟩]) := hran.trail_append ih he
        have hnew : (⟨s', fuel, program⟩ : Run) ∈ runs ++ [⟨s', fuel, program⟩] := by simp
        obtain ⟨m, hm, hage⟩ := exists_leaves_of_execute hu
        refine { htrail with heap := carries_execute (htrail.begins _ hnew) (htrail.supplies hnew), before := ?_ }
        rintro v ⟨σ, q, ⟨r, hr, rfl, hv⟩, hc⟩
        rcases List.mem_append.1 hr with hr | hr
        · have hprogram : s'.machine.Older m := (Exec.ages_parts s'.setting.hosts).program fuel program _ _ hm
          exact (ih.before v ⟨_, q, ⟨r, hr, rfl, hv⟩, hc⟩).mono ((hmachine ▸ hprogram).trans hage)
        · obtain rfl := List.mem_singleton.1 hr
          exact (hc.before_end_of_visits hv hm).mono hage

/-! ## every run -/

end Session

/-- A value appears at a point: a frame or a field holds it, the task was handed it, or the expression gives it. -/
inductive Point.Shows (σ : Setting) (p : Point) (v : Value) : Prop
  | held : p.machine.heap.Holds v → Shows σ p v
  | handed : v ∈ p.task.arguments → Shows σ p v
  | given {n e x m m'} : p = ⟨n, .eval e x, m⟩ → Exec.eval n σ e x m = .done v m' → Shows σ p v

namespace Session

variable {s s' : Session} {sites : List Site} {runs : List Run} {source : String} {program : List Stmt} {fuel : Nat}

/-- What appears on a trail comes from its points. -/
theorem Trail.sourced (h : Trail runs) {σ : Setting} {p : Point} {v : Value} (hp : Visited runs σ p)
    (hv : p.Shows σ v) : v.Sourced (Visited runs) := by
  obtain ⟨r, hr, rfl, hvisits⟩ := hp
  have hsupplies := h.supplies hr
  have hcarries := hvisits.carries hsupplies ⟨h.begins r hr, fun _ ha => nomatch ha⟩
  cases hv with
  | held hv => exact hcarries.heap.holds hv
  | handed hv => exact hcarries.arguments v hv
  | given he hx =>
    subst he
    exact (hcarries.heap.behind_eval (hsupplies.visits hvisits) hx).2

/-- In every run of an accepted source: a read of a property of an object gives the field; or else the method that the
nearest class on the chain which declares the name declares last, bound to the object in a frame inside of the one it was
declared in; or else it fails at the name.  A write changes that field of that object and nothing else.  And whatever
appears anywhere in the session, an object is of one class, and a class is one thing, superclass and methods included. -/
theorem lookup_sound (hs : Ran s sites runs) (he : s.enter? source = some (s', program)) (fuel : Nat) :
    (∀ n e x name m o c m₁,
      Visits s'.setting ⟨fuel, .program program, s'.machine⟩ ⟨n + 1, .eval e (.get x name), m⟩ →
      Exec.eval n s'.setting e x m = .done (.object o c) m₁ →
      Exec.ReadsProperty (Visited (runs ++ [⟨s', fuel, program⟩])) o c name m₁
        (Exec.eval (n + 1) s'.setting e (.get x name) m)) ∧
    (∀ n e x name y m o c m₁ v m₂,
      Visits s'.setting ⟨fuel, .program program, s'.machine⟩ ⟨n + 1, .eval e (.set x name y), m⟩ →
      Exec.eval n s'.setting e x m = .done (.object o c) m₁ → Exec.eval n s'.setting e y m₁ = .done v m₂ →
      ∃ m₃, Exec.eval (n + 1) s'.setting e (.set x name y) m = .done v m₃ ∧ m₃.console = m₂.console ∧
        m₂.heap.FieldWritten m₃.heap o name.lexeme v ∧
        ∀ other : Value, other.equals (.object o c) = true →
          ∃ c', other = .object o c' ∧ Exec.getProperty o c' name m₃ = .done v m₃) ∧
    ∀ σ p u σ' q v, Visited (runs ++ [⟨s', fuel, program⟩]) σ p → Visited (runs ++ [⟨s', fuel, program⟩]) σ' q →
      p.Shows σ u → q.Shows σ' v →
      (∀ o c c', u = .object o c → v = .object o c' → c = c') ∧
      ∀ k ∈ u.classes, ∀ k' ∈ v.classes, k.tag = k'.tag → k = k' := by
  have htrail : Trail (runs ++ [⟨s', fuel, program⟩]) := hs.trail_append hs.traced he
  have hpast : ∀ {q : Point}, Visits s'.setting ⟨fuel, .program program, s'.machine⟩ q →
      Visited (runs ++ [⟨s', fuel, program⟩]) s'.setting q := fun hq => ⟨⟨s', fuel, program⟩, by simp, rfl, hq⟩
  refine ⟨?_, ?_, ?_⟩
  · intro n e x name m o c m₁ hv ho
    have hsourced := htrail.sourced (hpast (hv.tail .getObject)) (.given rfl ho)
    simp only [Exec.eval, Exec.bind_of_done ho]
    exact Exec.readsProperty hsourced.classes
  · intro n e x name y m o c m₁ v m₂ hv ho hy
    have hmade := (hs.behind_eval he (hv.tail .setObject) ho).2
    have hlt : o < m₂.heap.objects.size := Nat.lt_of_lt_of_le hmade.1 (older_of_eval hy).objects
    have hwritten := Heap.fieldWritten hlt name.lexeme v
    refine ⟨{ m₂ with heap := m₂.heap.setField o name.lexeme v }, ?_, rfl, hwritten, fun other hother => ?_⟩
    · simp only [Exec.eval, Exec.bind_of_done ho, Exec.bind_of_done hy]
      rfl
    · cases other with
      | object o' c' =>
        obtain rfl : o' = o := of_decide_eq_true hother
        have hvalue := hwritten.field o' name.lexeme
        rw [if_pos ⟨rfl, rfl⟩] at hvalue
        exact ⟨c', rfl, Exec.getProperty_of_field hvalue⟩
      | _ => cases hother
  · intro σ p u σ' q v hp hq hu hv
    have hsu := htrail.sourced hp hu
    have hsv := htrail.sourced hq hv
    refine ⟨fun o c c' hobject hobject' => ?_, fun k hk k' hk' htag => ?_⟩
    · have hequal := htrail.apart u v (hsu.object o c hobject) (hsv.object o c' hobject')
        (by rw [hobject, hobject']; exact decide_eq_true rfl)
      rw [hobject, hobject'] at hequal
      cases hequal
      rfl
    · have hequal := htrail.apart _ _ (hsu.classes k hk) (hsv.classes k' hk') (decide_eq_true htag)
      cases hequal
      rfl

/-- Of two methods with one name the later is inherited; then a field hides it, for every value that is the object. -/
theorem lookup_sound_inherited : ∃ s' program,
    (start ⟨.unlimited, [], .running 0⟩).enter? "class A { f() {} f(x) {} } class B < A {} var b = B(); b.f = b.f;" =
      some (s', program) ∧
    ∃ object name m o c v m₂ m₃ d frame,
      Visits s'.setting ⟨19, .program program, s'.machine⟩ ⟨17, .eval Heap.globals (.get object name), m⟩ ∧
      Exec.eval 16 s'.setting Heap.globals object m = .done (.object o c) m ∧
      Exec.eval 17 s'.setting Heap.globals (.get object name) m = .done v m₂ ∧
      Finds (Visited [⟨s', 19, program⟩]) c.chain "f" d frame ∧ d.params.length = 1 ∧
      Exec.getProperty o c name m₃ = .done v m₃ := by
  -- the program does not touch the console
  generalize (⟨.unlimited, [], .running 0⟩ : Console) = console
  let a : Token := ⟨.identifier, "A", 1⟩
  let b : Token := ⟨.identifier, "b", 1⟩
  let f : Token := ⟨.identifier, "f", 1⟩
  let klass : Token := ⟨.identifier, "B", 1⟩
  let paren : Token := .ofMark .rightParen 1
  let last : FunctionDecl := .mk f [⟨.identifier, "x", 1⟩] []
  let read : Expr := .get (.variable 3 b) f
  let program : List Stmt := [.classDecl a none [.mk f [] [], last], .classDecl klass (some (.variable 0 a)) [],
    .varDecl b (some (.call (.variable 1 klass) paren [])), .expr (.set (.variable 2 b) f read)]
  let s' : Session := { start console with fresh := 4 }
  have he : (start console).enter?
      "class A { f() {} f(x) {} } class B < A {} var b = B(); b.f = b.f;" = some (s', program) := rfl
  obtain ⟨m, hset, c, ho, ho', hfield, t, frame, m₂, hread⟩ : ∃ m,
      Visits s'.setting ⟨19, .program program, s'.machine⟩
        ⟨18, .eval Heap.globals (.set (.variable 2 b) f read), m⟩ ∧
      ∃ c, Exec.eval 17 s'.setting Heap.globals (.variable 2 b) m = .done (.object 0 c) m ∧
        Exec.eval 16 s'.setting Heap.globals (.variable 3 b) m = .done (.object 0 c) m ∧
        Assoc.get? (m.heap.fields 0) "f" = none ∧
        ∃ t frame m₂, Exec.eval 17 s'.setting Heap.globals read m = .done (.function t ⟨last, frame, false⟩) m₂ :=
    ⟨_, .head (.restOfProgram (by
          simp only [Exec.exec, Exec.makeClass, Exec.methodTable, Assoc.setAll_cons, List.map]; rfl)) <|
        .head (.restOfProgram (by cbv)) <| .head (.restOfProgram (by cbv)) <|
        .head .topStatement <| .head .expression .refl,
      _, by cbv, by cbv, rfl, _, _, _, by simp only [read]; cbv⟩
  have hget : Visits s'.setting ⟨19, .program program, s'.machine⟩ ⟨17, .eval Heap.globals read, m⟩ :=
    hset.tail (.setValue ho)
  obtain ⟨hreads, hwrites, -⟩ := lookup_sound (.start _) he 19
  have hends := hreads 16 _ _ f m 0 c m hget ho'
  rw [hread] at hends
  obtain ⟨m₃, -, -, -, haliases⟩ := hwrites 17 _ _ f read m 0 c m _ m₂ hset ho hread
  obtain ⟨c', hsame, hother⟩ := haliases (.object 0 c) rfl
  cases hsame
  cases hends with
  | field hf =>
    rw [show f.lexeme = "f" from rfl, hfield] at hf
    cases hf
  | method _ hfinds =>
    exact ⟨s', program, he, _, f, m, 0, c, _, _, m₃, last, _, hget, ho', hread, hfinds, rfl, hother⟩

end Session

end ScriptLang
