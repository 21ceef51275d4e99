import ScriptLang.Proofs.Running.Slots

/-!
# Chains

Frames are linked to the frames around them, classes to their superclasses.  Access to names and methods goes along
these links for as long as there are any.

* `Seeks next found i r` — a search along links, which nothing bounds, ends with the result `r`;
* `Frames.Nested` — all chains of frames lead to older frames, and end at the globals;
* `Frames.Decided` — all access to names comes to an end, with the result that the bounded search has.
-/

namespace ScriptLang

/-- A search along links ends with what it finds first, or with nothing behind the last link. -/
inductive Seeks {ι β : Type} (next : ι → Option ι) (found : ι → Option β) : ι → Option β → Prop
  | here {i : ι} {b : β} : found i = some b → Seeks next found i (some b)
  | further {i j : ι} {r : Option β} : found i = none → next i = some j → Seeks next found j r → Seeks next found i r
  | nowhere {i : ι} : found i = none → next i = none → Seeks next found i none

section

variable {ι β : Type} {next : ι → Option ι} {found : ι → Option β} {i : ι} {r r' : Option β}

theorem Seeks.unique (h : Seeks next found i r) (h' : Seeks next found i r') : r = r' := by
  induction h with
  | here hb =>
    cases h' with
    | here hb' => exact hb.symm.trans hb'
    | further hb' => cases hb.symm.trans hb'
    | nowhere hb' => cases hb.symm.trans hb'
  | further hb hj _ ih =>
    cases h' with
    | here hb' => cases hb.symm.trans hb'
    | further _ hj' h' =>
      obtain rfl := Option.some.inj (hj.symm.trans hj')
      exact ih h'
    | nowhere _ hj' => cases hj.symm.trans hj'
  | nowhere hb hj =>
    cases h' with
    | here hb' => cases hb.symm.trans hb'
    | further _ hj' => cases hj.symm.trans hj'
    | nowhere => rfl

theorem Seeks.iff (h : Seeks next found i r) (r' : Option β) : Seeks next found i r' ↔ r = r' :=
  ⟨h.unique, fun he => he ▸ h⟩

end

namespace Frames

variable {α β : Type} {fs fs' : Frames α} {e o : FrameRef} {name : String}

/-! ## chains of frames -/

/-- The globals alone are outermost.  Every other frame lies in an older one, and its chain ends at the globals. -/
structure Nested (fs : Frames α) : Prop where
  root : Heap.globals < fs.size
  outermost : ∀ e < fs.size, fs.enclosing? e = none ↔ e = Heap.globals
  older : fs.Grounded
  ends : ∀ e < fs.size, ∃ d, fs.Outwards e d Heap.globals

theorem Nested.of_linked (hroot : Heap.globals < fs.size) (htop : fs.enclosing? Heap.globals = none)
    (hlinked : ∀ e < fs.size, e ≠ Heap.globals → ∃ o, fs.enclosing? e = some o ∧ o < e) : fs.Nested where
  root := hroot
  outermost e he := by
    refine ⟨fun hnone => Decidable.byContradiction fun hne => ?_, fun h => h ▸ htop⟩
    obtain ⟨o, ho, -⟩ := hlinked e he hne
    rw [hnone] at ho
    cases ho
  older e o ho := by
    have he : e < fs.size := Nat.lt_of_not_le fun hle => by
      rw [enclosing?_of_size_le hle] at ho
      cases ho
    by_cases hne : e = Heap.globals
    · rw [hne, htop] at ho
      cases ho
    · obtain ⟨o', ho', hlt⟩ := hlinked e he hne
      obtain rfl := Option.some.inj (ho.symm.trans ho')
      exact hlt
  ends e he := by
    induction e using Nat.strongRecOn with
    | _ e ih =>
      by_cases hne : e = Heap.globals
      · exact ⟨0, hne ▸ .here e⟩
      · obtain ⟨o, ho, hlt⟩ := hlinked e he hne
        obtain ⟨d, hd⟩ := ih o hlt (Nat.lt_trans hlt he)
        exact ⟨d + 1, .link ho hd⟩

/-- Frames that a larger array begins with, their links included, are nested as well. -/
theorem Nested.of_larger (h : fs'.Nested) (hroot : Heap.globals < fs.size) (hsize : fs.size ≤ fs'.size)
    (hlinks : ∀ e < fs.size, fs'.enclosing? e = fs.enclosing? e) : fs.Nested := by
  refine .of_linked hroot ?_ fun e he hne => ?_
  · rw [← hlinks _ hroot]
    exact (h.outermost _ h.root).2 rfl
  · rw [← hlinks e he]
    cases ho : fs'.enclosing? e with
    | none => exact absurd ((h.outermost e (Nat.lt_of_lt_of_le he hsize)).1 ho) hne
    | some o => exact ⟨o, rfl, h.older e o ho⟩

/-! ## access without a bound -/

/-- One link less to go. -/
def hop (fs : Frames α) : FrameRef × Nat → Option (FrameRef × Nat)
  | (_, 0) => none
  | (e, d + 1) => (fs.enclosing? e).map fun o => (o, d)

/-- Something is looked for when there is no link left to go. -/
def arrived (found : FrameRef → Option β) : FrameRef × Nat → Option β
  | (e, 0) => found e
  | (_, _ + 1) => none

/-- The write of a name in a frame that binds it. -/
def rebind? (fs : Frames α) (name : String) (a : α) (o : FrameRef) : Option (Frames α) :=
  (fs.slot? o name).map fun _ => fs.define o name a

/-- All access to names comes to an end, with the result that it has here. -/
structure Decided (fs : Frames α) : Prop where
  find : ∀ e name r, Seeks fs.enclosing? (fs.slot? · name) e r ↔ fs.find? e name = r
  assign : ∀ e name a r, Seeks fs.enclosing? (fs.rebind? name a) e r ↔ fs.assign? e name a = r
  findAt : ∀ e d name r, Seeks fs.hop (arrived (fs.slot? · name)) (e, d) r ↔ fs.findAt? e d name = r
  assignAt : ∀ e d name a r, Seeks fs.hop (arrived (fs.rebind? name a)) (e, d) r ↔ fs.assignAt? e d name a = r

/-- Access at a distance goes that many links, if there are so many. -/
theorem seeks_ancestor? (found : FrameRef → Option β) (e : FrameRef) (d : Nat) :
    Seeks fs.hop (arrived found) (e, d) ((fs.ancestor? e d).bind found) := by
  induction d generalizing e with
  | zero =>
    rw [ancestor?, Option.bind_some]
    cases he : found e with
    | some b => exact .here he
    | none => exact .nowhere he rfl
  | succ d ih =>
    rw [ancestor?]
    cases ho : fs.enclosing? e with
    | some o => exact .further rfl (by rw [hop, ho]; rfl) (ih o)
    | none => exact .nowhere rfl (by rw [hop, ho]; rfl)

/-- The search that is bounded by more than the frames before a frame ends where the one without a bound ends. -/
theorem Grounded.seeks_owner (hg : fs.Grounded) {found : FrameRef → Option β}
    (hfound : ∀ o, found o = none ↔ fs.slot? o name = none) {n : Nat} (hn : e < n) :
    Seeks fs.enclosing? found e ((fs.owner name n e).bind found) := by
  induction n generalizing e with
  | zero => cases hn
  | succ n ih =>
    rw [owner]
    cases hs : fs.slot? e name with
    | some a =>
      have hbound : (Assoc.get? (fs.bindings e) name).isSome := Option.isSome_iff_exists.2 ⟨a, hs⟩
      rw [if_pos hbound, Option.bind_some]
      cases hb : found e with
      | some b => exact .here hb
      | none => cases hs.symm.trans ((hfound e).1 hb)
    | none =>
      have hfree : ¬ (Assoc.get? (fs.bindings e) name).isSome := by
        rw [slot?] at hs
        rw [hs]
        exact Bool.false_ne_true
      have hb := (hfound e).2 hs
      rw [if_neg hfree]
      cases ho : fs.enclosing? e with
      | some o => exact .further hb ho (ih (Nat.lt_of_lt_of_le (hg e o ho) (Nat.le_of_lt_succ hn)))
      | none => exact .nowhere hb ho

theorem Grounded.seeks_owner? (hg : fs.Grounded) {found : FrameRef → Option β}
    (hfound : ∀ o, found o = none ↔ fs.slot? o name = none) (e : FrameRef) :
    Seeks fs.enclosing? found e ((fs.owner? e name).bind found) := by
  rcases Nat.lt_or_ge e fs.size with hlt | hge
  · exact hg.seeks_owner hfound hlt
  · rw [owner?, owner_of_size_le hge]
    have hfree : fs.slot? e name = none := by
      rw [slot?, bindings_of_size_le hge]
      rfl
    exact .nowhere ((hfound e).2 hfree) (enclosing?_of_size_le hge)

theorem rebind?_eq_none_iff {a : α} : fs.rebind? name a o = none ↔ fs.slot? o name = none := by
  rw [rebind?, Option.map_eq_none_iff]

theorem rebind?_of_bound {a : α} (h : (fs.slot? o name).isSome) : fs.rebind? name a o = some (fs.define o name a) := by
  obtain ⟨b, hb⟩ := Option.isSome_iff_exists.1 h
  rw [rebind?, hb]
  rfl

theorem Grounded.assign?_eq (hg : fs.Grounded) (e : FrameRef) (name : String) (a : α) :
    fs.assign? e name a = (fs.owner? e name).bind (fs.rebind? name a) := by
  rw [assign?]
  cases ho : fs.owner? e name with
  | none => rfl
  | some o =>
    obtain ⟨d, hnearest⟩ := hg.owner?_eq_some_iff.1 ho
    exact (rebind?_of_bound hnearest.bound).symm

theorem assignAt?_eq (fs : Frames α) (e : FrameRef) (d : Nat) (name : String) (a : α) :
    fs.assignAt? e d name a = (fs.ancestor? e d).bind (fs.rebind? name a) := by
  rw [assignAt?, ownerAt?]
  cases fs.ancestor? e d with
  | none => rfl
  | some o =>
    cases hs : fs.slot? o name with
    | some b =>
      have hbound : (fs.slot? o name).isSome := by rw [hs]; rfl
      rw [Option.bind_some, rebind?_of_bound hbound]
      rw [slot?] at hbound
      rw [Option.filter_some, if_pos hbound, Option.map_some]
    | none =>
      rw [Option.bind_some, rebind?_eq_none_iff.2 hs]
      rw [slot?] at hs
      rw [Option.filter_some, hs]
      rfl

theorem Grounded.decided (hg : fs.Grounded) : fs.Decided where
  find e name := (hg.seeks_owner? (fun _ => Iff.rfl) e).iff
  assign e name a := by
    rw [hg.assign?_eq]
    exact (hg.seeks_owner? (fun _ => rebind?_eq_none_iff) e).iff
  findAt e d name := (seeks_ancestor? _ e d).iff
  assignAt e d name a := by
    rw [assignAt?_eq]
    exact (seeks_ancestor? _ e d).iff

end Frames

end ScriptLang
