import ScriptLang.Proofs.Running.World

/-!
# One slot of one frame

* `Frames.Forest` — frames made by any operations one after the other: several may share the frame around them;
* `Frames.Outwards fs e d o` — from the frame `e`, `d` links outwards lead to `o`;
* `Frames.Nearest fs e name d o` — the least distance at which a frame binds a name, and that frame;
* `Frames.OneSlot fs fs' o name a` — only the value of one name in one frame is another one;
* `Frames.Forest.access` — access by search is access at the least distance, and a write changes one slot.

A search is bounded by the number of frames.  That is enough, since every link leads to an older frame.
-/

namespace ScriptLang

namespace Frames

variable {α : Type} {fs fs' : Frames α} {e f o : FrameRef} {d : Nat} {name : String} {a : α}

/-- The value that a frame itself binds a name to. -/
def slot? (fs : Frames α) (o : FrameRef) (name : String) : Option α := Assoc.get? (fs.bindings o) name

/-- Frames made one after the other, from none.  Operations that fail leave the frames as they are. -/
inductive Forest : Frames α → Prop
  | empty : Forest #[]
  | new {fs : Frames α} : Forest fs → Forest (fs.extend none)
  | enclose {fs : Frames α} {e : FrameRef} : Forest fs → e < fs.size → Forest (fs.extend (some e))
  | define {fs : Frames α} {e : FrameRef} (name : String) (a : α) : Forest fs → e < fs.size →
      Forest (fs.define e name a)
  | assign {fs fs' : Frames α} {e : FrameRef} {name : Token} {a : α} : Forest fs → e < fs.size →
      fs.write e name a = .ok fs' → Forest fs'
  | assignAt {fs fs' : Frames α} {e : FrameRef} {d : Nat} {name : Token} {a : α} : Forest fs → e < fs.size →
      fs.writeAt e d name a = .ok fs' → Forest fs'

/-! ## slots -/

theorem slot?_define (h : o < fs.size) (name : String) (a : α) (o' : FrameRef) (name' : String) :
    (fs.define o name a).slot? o' name' = if o = o' ∧ name = name' then some a else fs.slot? o' name' := by
  unfold slot?
  rw [bindings_define fs h]
  by_cases ho : o = o'
  · subst ho
    simp [Assoc.get?_set]
  · simp [ho]

/-- Two arrays of frames differ in the value of one name in one frame, and the name was bound there. -/
structure OneSlot (fs fs' : Frames α) (o : FrameRef) (name : String) (a : α) : Prop where
  size : fs'.size = fs.size
  enclosing : ∀ e, fs'.enclosing? e = fs.enclosing? e
  bound : (fs.slot? o name).isSome
  written : fs'.slot? o name = some a
  others : ∀ o' name', ¬ (o' = o ∧ name' = name) → fs'.slot? o' name' = fs.slot? o' name'

/-- Binding a name anew, in a frame that binds it, changes its slot. -/
theorem oneSlot_define (h : (fs.slot? o name).isSome) (a : α) : OneSlot fs (fs.define o name a) o name a where
  size := size_define fs o name a
  enclosing := enclosing?_define fs o name a
  bound := h
  written := by rw [slot?_define (lt_of_bound h), if_pos ⟨rfl, rfl⟩]
  others o' name' hne := by
    rw [slot?_define (lt_of_bound h), if_neg]
    rintro ⟨rfl, rfl⟩
    exact hne ⟨rfl, rfl⟩

/-! ## chains -/

/-- From the frame `e`, `d` links outwards lead to the frame `o`. -/
inductive Outwards (fs : Frames α) : FrameRef → Nat → FrameRef → Prop
  | here (e : FrameRef) : Outwards fs e 0 e
  | link {e f o : FrameRef} {d : Nat} : fs.enclosing? e = some f → Outwards fs f d o → Outwards fs e (d + 1) o

theorem ancestor?_eq_some_iff : fs.ancestor? e d = some o ↔ fs.Outwards e d o := by
  constructor
  · intro h
    induction d generalizing e with
    | zero =>
      obtain rfl := Option.some.inj h
      exact .here e
    | succ d ih =>
      obtain ⟨f, hf, h⟩ := Option.bind_eq_some_iff.1 h
      exact .link hf (ih h)
  · intro h
    induction h with
    | here e => rfl
    | link hf _ ih =>
      rw [ancestor?, hf]
      exact ih

theorem ancestor?_eq_none_iff : fs.ancestor? e d = none ↔ ∀ o, ¬ fs.Outwards e d o := by
  simp only [Option.eq_none_iff_forall_ne_some, ne_eq, ancestor?_eq_some_iff]

theorem Outwards.unique {o' : FrameRef} (h : fs.Outwards e d o) (h' : fs.Outwards e d o') : o = o' := by
  rw [← ancestor?_eq_some_iff] at h h'
  rw [h] at h'
  exact Option.some.inj h'

/-! ## the nearest frame that binds a name -/

/-- The least distance from `e` at which a frame binds a name is `d`, and `o` is that frame. -/
structure Nearest (fs : Frames α) (e : FrameRef) (name : String) (d : Nat) (o : FrameRef) : Prop where
  outwards : fs.Outwards e d o
  bound : (fs.slot? o name).isSome
  least : ∀ d' o', fs.Outwards e d' o' → (fs.slot? o' name).isSome → d ≤ d'

namespace Nearest

theorem here (h : (fs.slot? e name).isSome) : fs.Nearest e name 0 e :=
  ⟨.here e, h, fun _ _ _ _ => Nat.zero_le _⟩

/-- Around a frame that does not bind the name, the nearest one is that of the frame around it. -/
theorem link (hno : ¬ (fs.slot? e name).isSome) (hf : fs.enclosing? e = some f) (h : fs.Nearest f name d o) :
    fs.Nearest e name (d + 1) o := by
  refine ⟨.link hf h.outwards, h.bound, fun d' o' hd' ho' => ?_⟩
  cases hd' with
  | here => exact absurd ho' hno
  | link hf' hd' =>
    obtain rfl := Option.some.inj (hf.symm.trans hf')
    exact Nat.succ_le_succ (h.least _ _ hd' ho')

theorem unique {d' : Nat} {o' : FrameRef} (h : fs.Nearest e name d o) (h' : fs.Nearest e name d' o') :
    d = d' ∧ o = o' := by
  obtain rfl := Nat.le_antisymm (h.least _ _ h'.outwards h'.bound) (h'.least _ _ h.outwards h.bound)
  exact ⟨rfl, h.outwards.unique h'.outwards⟩

end Nearest

/-- Where a frame on the chain binds a name there is a nearest one, no further out. -/
theorem Outwards.exists_nearest (h : fs.Outwards e d o) (ho : (fs.slot? o name).isSome) :
    ∃ d' o', fs.Nearest e name d' o' := by
  induction h with
  | here e => exact ⟨0, e, .here ho⟩
  | @link e f o d hf _ ih =>
    by_cases he : (fs.slot? e name).isSome
    · exact ⟨0, e, .here he⟩
    · obtain ⟨d', o', hnearest⟩ := ih ho
      exact ⟨d' + 1, o', hnearest.link he hf⟩

/-- Some frame on the chain binds a name exactly if there is a nearest one. -/
theorem exists_nearest_iff : (∃ d o, fs.Outwards e d o ∧ (fs.slot? o name).isSome) ↔ ∃ o d, fs.Nearest e name d o := by
  constructor
  · rintro ⟨d, o, hd, ho⟩
    obtain ⟨d', o', hnearest⟩ := hd.exists_nearest ho
    exact ⟨o', d', hnearest⟩
  · rintro ⟨o, d, hnearest⟩
    exact ⟨d, o, hnearest.outwards, hnearest.bound⟩

/-! ## links to older frames -/

/-- Every link leads to an older frame. -/
def Grounded (fs : Frames α) : Prop := ∀ e o, fs.enclosing? e = some o → o < e

theorem Grounded.of_enclosing (h : fs.Grounded) (hlinks : ∀ e, fs'.enclosing? e = fs.enclosing? e) : fs'.Grounded :=
  fun e o ho => h e o ((hlinks e).symm.trans ho)

theorem Grounded.extend (h : fs.Grounded) {link : Option FrameRef} (hlink : ∀ f ∈ link, f < fs.size) :
    (fs.extend link).Grounded := by
  intro e o ho
  rw [Frames.extend, enclosing?_push] at ho
  split at ho
  · next he =>
    rw [he]
    exact hlink o ho
  · exact h e o ho

/-- A search from a frame, bounded by more than the frames before it, ends at the nearest frame that binds the name. -/
theorem Grounded.owner_eq_some_iff (hg : fs.Grounded) {n : Nat} (hn : e < n) :
    fs.owner name n e = some o ↔ ∃ d, fs.Nearest e name d o := by
  induction n generalizing e with
  | zero => cases hn
  | succ n ih =>
    rw [owner]
    by_cases he : (fs.slot? e name).isSome
    · have hhere := Nearest.here he
      rw [slot?] at he
      rw [if_pos he]
      constructor
      · intro ho
        obtain rfl := Option.some.inj ho
        exact ⟨0, hhere⟩
      · rintro ⟨d, hd⟩
        rw [(hhere.unique hd).2]
    · have hno := he
      rw [slot?] at he
      rw [if_neg he, Option.bind_eq_some_iff]
      constructor
      · rintro ⟨f, hf, ho⟩
        obtain ⟨d, hd⟩ := (ih (Nat.lt_of_lt_of_le (hg e f hf) (Nat.le_of_lt_succ hn))).1 ho
        exact ⟨d + 1, hd.link hno hf⟩
      · rintro ⟨d, hd⟩
        cases hd.outwards with
        | here => exact absurd hd.bound hno
        | @link _ f _ d' hf hout =>
          obtain ⟨d₁, o₁, hnearest⟩ := hout.exists_nearest hd.bound
          obtain ⟨-, rfl⟩ := hd.unique (hnearest.link hno hf)
          exact ⟨f, hf, (ih (Nat.lt_of_lt_of_le (hg e f hf) (Nat.le_of_lt_succ hn))).2 ⟨d₁, hnearest⟩⟩

/-- What does not exist binds nothing and has nothing around it. -/
theorem owner_of_size_le (h : fs.size ≤ e) (n : Nat) : fs.owner name n e = none := by
  cases n with
  | zero => rfl
  | succ n =>
    rw [owner, bindings_of_size_le h, enclosing?_of_size_le h]
    rfl

theorem Grounded.owner?_eq_some_iff (hg : fs.Grounded) : fs.owner? e name = some o ↔ ∃ d, fs.Nearest e name d o := by
  rcases Nat.lt_or_ge e fs.size with hlt | hge
  · exact hg.owner_eq_some_iff hlt
  · rw [owner?, owner_of_size_le hge]
    refine ⟨nofun, fun ⟨d, hd⟩ => ?_⟩
    cases hd.outwards with
    | here => exact absurd (lt_of_bound hd.bound) (Nat.not_lt_of_le hge)
    | link hf _ =>
      rw [enclosing?_of_size_le hge] at hf
      cases hf

theorem ownerAt?_eq_some_iff :
    fs.ownerAt? e d name = some o ↔ fs.Outwards e d o ∧ (fs.slot? o name).isSome := by
  rw [ownerAt?, Option.filter_eq_some_iff, ancestor?_eq_some_iff]
  rfl

/-! ## access with faults -/

section Faults

variable {β : Type} {t : Token} {x : Option β} {b : β} {r : Report RuntimeFault}

theorem orUndefined_eq_ok_iff : orUndefined t x = .ok b ↔ x = some b := by
  cases x <;> simp [orUndefined]

theorem eq_undefined (h : orUndefined t x = .error r) : r = .undefined t := by
  cases x with
  | none => exact (Except.error.inj h).symm
  | some b => cases h

end Faults

section Access

variable {t : Token}

theorem readAt_eq_ok_iff : fs.readAt e d t = .ok a ↔ ∃ o, fs.Outwards e d o ∧ fs.slot? o t.lexeme = some a := by
  rw [readAt, orUndefined_eq_ok_iff, findAt?, Option.bind_eq_some_iff]
  simp only [ancestor?_eq_some_iff]
  rfl

theorem writeAt_eq_ok_iff : fs.writeAt e d t a = .ok fs' ↔
    ∃ o, (fs.Outwards e d o ∧ (fs.slot? o t.lexeme).isSome) ∧ fs.define o t.lexeme a = fs' := by
  rw [writeAt, orUndefined_eq_ok_iff, assignAt?, Option.map_eq_some_iff]
  simp only [ownerAt?_eq_some_iff]

theorem Grounded.write_eq_ok_iff (hg : fs.Grounded) : fs.write e t a = .ok fs' ↔
    ∃ o, (∃ d, fs.Nearest e t.lexeme d o) ∧ fs.define o t.lexeme a = fs' := by
  rw [write, orUndefined_eq_ok_iff, assign?, Option.map_eq_some_iff]
  simp only [hg.owner?_eq_some_iff]

theorem Grounded.read_eq_ok_iff (hg : fs.Grounded) :
    fs.read e t = .ok a ↔ ∃ o, (∃ d, fs.Nearest e t.lexeme d o) ∧ fs.slot? o t.lexeme = some a := by
  rw [read, orUndefined_eq_ok_iff, find?, Option.bind_eq_some_iff]
  simp only [hg.owner?_eq_some_iff]
  rfl

/-- A name can be read by a search exactly if some frame on the chain binds it. -/
theorem Grounded.exists_read_iff (hg : fs.Grounded) :
    (∃ a, fs.read e t = .ok a) ↔ ∃ d o, fs.Outwards e d o ∧ (fs.slot? o t.lexeme).isSome := by
  rw [exists_nearest_iff]
  simp only [hg.read_eq_ok_iff]
  constructor
  · rintro ⟨a, o, hnearest, -⟩
    exact ⟨o, hnearest⟩
  · rintro ⟨o, d, hnearest⟩
    obtain ⟨a, ha⟩ := Option.isSome_iff_exists.1 hnearest.bound
    exact ⟨a, o, ⟨d, hnearest⟩, ha⟩

/-- Under the same condition it can be written. -/
theorem Grounded.exists_write_iff (hg : fs.Grounded) (a : α) :
    (∃ fs', fs.write e t a = .ok fs') ↔ ∃ d o, fs.Outwards e d o ∧ (fs.slot? o t.lexeme).isSome := by
  rw [exists_nearest_iff]
  simp only [hg.write_eq_ok_iff]
  constructor
  · rintro ⟨fs', o, hnearest, -⟩
    exact ⟨o, hnearest⟩
  · rintro ⟨o, hnearest⟩
    exact ⟨_, o, hnearest, rfl⟩

/-- Beyond the end of the chain there is nothing to read or to write. -/
theorem access_beyond (h : ∀ o, ¬ fs.Outwards e d o) : fs.findAt? e d t.lexeme = none ∧
    fs.readAt e d t = .error (.undefined t) ∧ ∀ a, fs.writeAt e d t a = .error (.undefined t) := by
  have hnone : fs.ancestor? e d = none := ancestor?_eq_none_iff.2 h
  simp only [readAt, writeAt, findAt?, assignAt?, ownerAt?, hnone, orUndefined]
  exact ⟨rfl, rfl, fun _ => rfl⟩

/-- A search is the access at the distance of the nearest frame. -/
theorem Grounded.access_of_nearest (hg : fs.Grounded) (h : fs.Nearest e t.lexeme d o) :
    fs.read e t = fs.readAt e d t ∧ ∀ a, fs.write e t a = fs.writeAt e d t a := by
  have howner : fs.owner? e t.lexeme = some o := hg.owner?_eq_some_iff.2 ⟨d, h⟩
  have hancestor : fs.ancestor? e d = some o := ancestor?_eq_some_iff.2 h.outwards
  have hownerAt : fs.ownerAt? e d t.lexeme = some o := ownerAt?_eq_some_iff.2 ⟨h.outwards, h.bound⟩
  constructor
  · rw [read, readAt, find?, findAt?, howner, hancestor]
  · intro a
    rw [write, writeAt, assign?, assignAt?, howner, hownerAt]

end Access

theorem Forest.grounded (h : fs.Forest) : fs.Grounded := by
  induction h with
  | empty => exact fun e o ho => by simp [enclosing?] at ho
  | new _ ih => exact ih.extend nofun
  | enclose _ he ih =>
    refine ih.extend fun f hf => ?_
    obtain rfl := Option.some.inj hf
    exact he
  | define name a _ _ ih => exact ih.of_enclosing (enclosing?_define _ _ name a)
  | assign _ _ hwrite ih =>
    obtain ⟨o, -, rfl⟩ := ih.write_eq_ok_iff.1 hwrite
    exact ih.of_enclosing (enclosing?_define _ o _ _)
  | assignAt _ _ hwrite ih =>
    obtain ⟨o, -, rfl⟩ := writeAt_eq_ok_iff.1 hwrite
    exact ih.of_enclosing (enclosing?_define _ o _ _)

/-- The value of a name in a frame is read at every distance that leads there, and by every search that ends there. -/
def Seen (fs : Frames α) (o : FrameRef) (t : Token) (a : α) : Prop :=
  ∀ e d, fs.Outwards e d o → fs.readAt e d t = .ok a ∧ (fs.Nearest e t.lexeme d o → fs.read e t = .ok a)

/-- A value that was written is seen from all frames that share the slot. -/
theorem OneSlot.seen {t : Token} (h : OneSlot fs fs' o t.lexeme a) (hg : fs.Grounded) : fs'.Seen o t a := by
  intro e d hd
  have hread : fs'.readAt e d t = .ok a := readAt_eq_ok_iff.2 ⟨o, hd, h.written⟩
  refine ⟨hread, fun hnearest => ?_⟩
  rw [((hg.of_enclosing h.enclosing).access_of_nearest hnearest).1, hread]

/-- A write by a search changes the slot of the nearest frame. -/
theorem Grounded.oneSlot_of_write {t : Token} (hg : fs.Grounded) (h : fs.write e t a = .ok fs') :
    ∃ d o, fs.Nearest e t.lexeme d o ∧ OneSlot fs fs' o t.lexeme a ∧ fs'.Seen o t a := by
  obtain ⟨o, ⟨d, hnearest⟩, rfl⟩ := hg.write_eq_ok_iff.1 h
  have hslot := oneSlot_define hnearest.bound a
  exact ⟨d, o, hnearest, hslot, hslot.seen hg⟩

/-- A write at a distance changes the slot of the frame there. -/
theorem Grounded.oneSlot_of_writeAt {t : Token} (hg : fs.Grounded) (h : fs.writeAt e d t a = .ok fs') :
    ∃ o, fs.Outwards e d o ∧ OneSlot fs fs' o t.lexeme a ∧ fs'.Seen o t a := by
  obtain ⟨o, ⟨hd, ho⟩, rfl⟩ := writeAt_eq_ok_iff.1 h
  have hslot := oneSlot_define ho a
  exact ⟨o, hd, hslot, hslot.seen hg⟩

end Frames

/-! ## in a run -/

namespace Exec

/-- A name with a distance is written there, and a write that fails leaves the machine as it was. -/
theorem writeName_some (d : Nat) (e : FrameRef) (name : Token) (v : Value) (m : Machine) :
    writeName (some d) e name v m =
      match m.heap.frames.writeAt e d name v with
      | .ok fs => .done () { m with heap := { m.heap with frames := fs } }
      | .error r => .failed (.runtime r) m := by
  unfold writeName Frames.writeAt Frames.assignAt?
  dsimp only
  cases m.heap.frames.ownerAt? e d name.lexeme <;> rfl

/-- A name without one is searched from the globals. -/
theorem writeName_none (e : FrameRef) (name : Token) (v : Value) (m : Machine) :
    writeName none e name v m =
      match m.heap.frames.write Heap.globals name v with
      | .ok fs => .done () { m with heap := { m.heap with frames := fs } }
      | .error r => .failed (.runtime r) m := by
  unfold writeName Frames.write Frames.assign?
  dsimp only
  cases m.heap.frames.owner? Heap.globals name.lexeme <;> rfl

end Exec

namespace Frames

/-- What is promised of access to a name from a frame. -/
structure Access (fs : Frames Value) (e : FrameRef) (name : Token) : Prop where
  /-- A search succeeds exactly if some frame on the chain binds the name. -/
  read_ok_iff : (∃ v, fs.read e name = .ok v) ↔ ∃ d o, fs.Outwards e d o ∧ (fs.slot? o name.lexeme).isSome
  write_ok_iff : ∀ v, (∃ fs', fs.write e name v = .ok fs') ↔
    ∃ d o, fs.Outwards e d o ∧ (fs.slot? o name.lexeme).isSome
  /-- Then there is a least distance, and a search is the access there, with the same value and the same effect. -/
  nearest : ∀ d o, fs.Outwards e d o → (fs.slot? o name.lexeme).isSome → ∃ d o, fs.Nearest e name.lexeme d o ∧
    fs.read e name = fs.readAt e d name ∧ ∀ v, fs.write e name v = fs.writeAt e d name v
  /-- A write that succeeds changes the one slot that the search or the distance leads to, and is seen there. -/
  written : ∀ v fs', fs.write e name v = .ok fs' →
    ∃ d o, fs.Nearest e name.lexeme d o ∧ OneSlot fs fs' o name.lexeme v ∧ fs'.Seen o name v
  writtenAt : ∀ d v fs', fs.writeAt e d name v = .ok fs' →
    ∃ o, fs.Outwards e d o ∧ OneSlot fs fs' o name.lexeme v ∧ fs'.Seen o name v
  /-- Access that fails reports the name at its token. -/
  read_error : ∀ r, fs.read e name = .error r → r = .undefined name
  readAt_error : ∀ d r, fs.readAt e d name = .error r → r = .undefined name
  write_error : ∀ v r, fs.write e name v = .error r → r = .undefined name
  writeAt_error : ∀ d v r, fs.writeAt e d name v = .error r → r = .undefined name
  anchor : (Report.undefined name).anchor = name
  message : (Report.undefined name).cause.message = "Undefined variable '" ++ name.lexeme ++ "'."
  /-- In a run it leaves the machine as it was. -/
  unchanged : ∀ m : Machine, m.heap.frames = fs →
    (∀ d r, fs.readAt e d name = .error r → Exec.readName (some d) e name m = .failed (.runtime r) m) ∧
      (∀ d v r, fs.writeAt e d name v = .error r → Exec.writeName (some d) e name v m = .failed (.runtime r) m) ∧
      (e = Heap.globals → ∀ inner,
        (∀ r, fs.read e name = .error r → Exec.readName none inner name m = .failed (.runtime r) m) ∧
          ∀ v r, fs.write e name v = .error r → Exec.writeName none inner name v m = .failed (.runtime r) m)
  /-- Beyond the end of the chain nothing is found. -/
  beyond : ∀ d, (∀ o, ¬ fs.Outwards e d o) → fs.findAt? e d name.lexeme = none ∧
    fs.readAt e d name = .error (.undefined name) ∧ ∀ v, fs.writeAt e d name v = .error (.undefined name)

/-- In frames that were made by any operations, access by search from a frame is access at the least distance at which a
frame binds the name; a write that succeeds changes that one slot and nothing else, and access that fails changes
nothing. -/
theorem Forest.access {fs : Frames Value} (h : fs.Forest) (e : FrameRef) (name : Token) : fs.Access e name := by
  have hg := h.grounded
  constructor
  case read_ok_iff => exact hg.exists_read_iff
  case write_ok_iff => exact hg.exists_write_iff
  case nearest =>
    intro d o hd ho
    obtain ⟨d, o, hnearest⟩ := hd.exists_nearest ho
    exact ⟨d, o, hnearest, hg.access_of_nearest hnearest⟩
  case written => exact fun v fs' => hg.oneSlot_of_write
  case writtenAt => exact fun d v fs' => hg.oneSlot_of_writeAt
  case read_error => exact fun r => eq_undefined
  case readAt_error => exact fun d r => eq_undefined
  case write_error => exact fun v r => eq_undefined
  case writeAt_error => exact fun d v r => eq_undefined
  case anchor => rfl
  case message => rfl
  case unchanged =>
    rintro m rfl
    refine ⟨fun d r hr => ?_, fun d v r hr => ?_, ?_⟩
    · simp only [Exec.readName, hr]
    · rw [Exec.writeName_some, hr]
    · rintro rfl inner
      refine ⟨fun r hr => ?_, fun v r hr => ?_⟩
      · simp only [Exec.readName, hr]
      · rw [Exec.writeName_none, hr]
  case beyond => exact fun d => access_beyond

/-- Two frames share the one around them, which binds a name as one of them does.  From a frame inside of that one a write
two links outwards passes by the inner value, and is seen by the search from the other frame. -/
theorem Forest.access_sharing : ∃ fs fs' : Frames Value,
    fs = #[⟨[("v", .bool false)], none⟩, ⟨[("v", .bool true)], some 0⟩, ⟨[], some 1⟩, ⟨[], some 0⟩] ∧ fs.Forest ∧
      fs.read 2 ⟨.identifier, "v", 1⟩ = .ok (.bool true) ∧ fs.readAt 2 2 ⟨.identifier, "v", 1⟩ = .ok (.bool false) ∧
      fs.writeAt 2 2 ⟨.identifier, "v", 1⟩ .nil = .ok fs' ∧
      fs'.read 2 ⟨.identifier, "v", 1⟩ = .ok (.bool true) ∧ fs'.read 3 ⟨.identifier, "v", 1⟩ = .ok .nil ∧
      fs.Access 2 ⟨.identifier, "v", 1⟩ ∧ fs'.Access 3 ⟨.identifier, "v", 1⟩ := by
  have houter : ((Frames.extend #[] none).define 0 "v" (Value.bool false)).Forest :=
    .define "v" _ (.new .empty) (by decide)
  have hmiddle := Forest.define (e := 1) "v" (Value.bool true) (houter.enclose (e := 0) (by decide)) (by decide)
  have hforest := (hmiddle.enclose (e := 1) (by decide)).enclose (e := 0) (by decide)
  have hwritten := hforest.assignAt (by decide) (Eq.refl (Frames.writeAt _ 2 2 ⟨.identifier, "v", 1⟩ Value.nil))
  exact ⟨_, _, rfl, hforest, rfl, rfl, rfl, rfl, rfl, hforest.access 2 _, hwritten.access 3 _⟩

end Frames

end ScriptLang
