import ScriptLang.Proofs.Running.Faults
import ScriptLang.Proofs.Sessions.Mirror

/-!
# Undefined names

A name that has a distance is bound where the distance leads, with one exception: an assignment in the initializer of
the local variable that it assigns to.  The walk over the text refuses to read a variable in its own initializer, but
not to write it there, and the frame binds the variable only after that.

* `Site.WritesOwn` — the site of such an assignment;
* `Session.Reached.ownerAt?_eq_none_iff` — these are the accesses at a distance that find nothing;
* `Session.Reached.of_raises` — so a node that reports an undefined name is one of them, or looks among the globals;
* `Session.undefined_iff_writesOwn` — the same for what runs report, and that no initializer reads its own variable.
-/

namespace ScriptLang

/-! ## access at a distance -/

namespace Frames

variable {α : Type} {fs : Frames α} {e : FrameRef} {d : Nat} {name : String}

theorem ownerAt?_eq_none_iff :
    fs.ownerAt? e d name = none ↔ ∀ f, fs.ancestor? e d = some f → Assoc.get? (fs.bindings f) name = none := by
  unfold ownerAt?
  cases fs.ancestor? e d <;> simp

theorem findAt?_eq_none_iff : fs.findAt? e d name = none ↔ fs.ownerAt? e d name = none := by
  rw [ownerAt?_eq_none_iff]
  unfold findAt?
  cases fs.ancestor? e d <;> simp

/-- A name that a frame binds is found there. -/
theorem owner?_of_isSome (h : (Assoc.get? (fs.bindings e) name).isSome) : fs.owner? e name = some e := by
  unfold owner?
  cases hn : fs.size with
  | zero =>
    rw [bindings_of_size_le (hn ▸ Nat.zero_le e)] at h
    cases h
  | succ n =>
    unfold owner
    rw [if_pos h]

end Frames

/-- A name is not bound where it is looked for: at its distance, or among the globals. -/
def Heap.Lacks (h : Heap) (e : FrameRef) (name : String) : Option Nat → Prop
  | some d => h.frames.ownerAt? e d name = none
  | none => Assoc.get? (h.frames.bindings Heap.globals) name = none

namespace Exec

variable {fault : Fault} {distance : Option Nat} {e : FrameRef} {m m' : Machine}

theorem readName_failed {name : Token} (h : readName distance e name m = .failed fault m') :
    fault = .runtime (.undefined name) ∧ m.heap.Lacks e name.lexeme distance := by
  unfold readName at h
  cases distance with
  | some d =>
    cases hf : m.heap.frames.findAt? e d name.lexeme with
    | some v => simp [Frames.readAt, Frames.orUndefined, hf] at h
    | none =>
      simp only [Frames.readAt, Frames.orUndefined, hf] at h
      cases h
      exact ⟨rfl, Frames.findAt?_eq_none_iff.1 hf⟩
  | none =>
    cases hf : m.heap.frames.find? Heap.globals name.lexeme with
    | some v => simp [Frames.read, Frames.orUndefined, hf] at h
    | none =>
      simp only [Frames.read, Frames.orUndefined, hf] at h
      cases h
      refine ⟨rfl, Option.not_isSome_iff_eq_none.1 fun hbound => ?_⟩
      unfold Frames.find? at hf
      rw [Frames.owner?_of_isSome hbound] at hf
      exact absurd hbound (by simpa using hf)

theorem writeName_failed {name : Token} {v : Value} (h : writeName distance e name v m = .failed fault m') :
    fault = .runtime (.undefined name) ∧ m.heap.Lacks e name.lexeme distance := by
  unfold writeName at h
  dsimp only at h
  cases distance with
  | some d =>
    split at h
    · cases h
    · next hf =>
      cases h
      exact ⟨rfl, hf⟩
  | none =>
    split at h
    · cases h
    · next hf =>
      cases h
      refine ⟨rfl, Option.not_isSome_iff_eq_none.1 fun hbound => ?_⟩
      rw [Frames.owner?_of_isSome hbound] at hf
      cases hf

/-- Next to an object, a superclass that cannot be read is the only name that can be undefined. -/
theorem getSuper_failed {d : Nat} {keyword method : Token} {o : ObjectRef} {c : Class}
    (ht : m.heap.frames.findAt? e d "this" = some (.object o c)) (hu : fault.isUndefined = true)
    (h : getSuper (some (d + 1)) e keyword method m = .failed fault m') :
    fault = .runtime (.undefined keyword) ∧ m.heap.Lacks e keyword.lexeme (some (d + 1)) := by
  unfold getSuper at h
  dsimp only at h
  rcases bind_failed h with h | ⟨v, m₁, hv, h⟩
  · exact readName_failed h
  obtain rfl : m = m₁ := by
    unfold readName at hv
    dsimp only at hv
    split at hv <;> cases hv
    rfl
  split at h
  · next parent =>
    rcases bind_failed h with h | ⟨this, m₂, hthis, h⟩
    · exact absurd h (clear_nameIn?.not_failed hu)
    obtain ⟨rfl, rfl⟩ : m = m₂ ∧ some (.object o c) = this := by
      unfold nameIn? at hthis
      cases hthis
      exact ⟨rfl, ht.symm⟩
    cases hm : parent.method? method.lexeme with
    | some found =>
      simp only [hm] at h
      exact absurd h (clear_boundMethod.not_failed hu)
    | none =>
      simp only [hm] at h
      exact absurd h ((clear_fail (by simp)).not_failed hu)
  · exact absurd h ((clear_fail (by simp)).not_failed hu)

end Exec

/-- A name that waits in the innermost scope is found there. -/
theorem Scopes.distance?_of_isPending {scopes : Scopes} {name : String} (h : scopes.isPending name = true) :
    scopes.distance? name = some 0 := by
  cases scopes with
  | nil => cases h
  | cons scope outer =>
    have hfalse : Assoc.get? scope name = some false := by simpa [isPending] using h
    simp [distance?, hfalse]

/-- An assignment in the initializer of the local variable that it assigns to. -/
def Site.WritesOwn (site : Site) : Prop :=
  site.occurrence.reference = .assign ∧ site.context.scopes.isPending site.name = true

/-- A name that waits for its initializer is not bound. -/
theorem World.Exact.ownerAt?_eq_none {w : World} {ctx : Context} {e : FrameRef} (h : w.Exact ctx e) {name : String}
    (hp : ctx.scopes.isPending name = true) : w.heap.frames.ownerAt? e 0 name = none := by
  rw [Frames.ownerAt?_eq_none_iff]
  intro f hf
  obtain rfl : e = f := Option.some.inj hf
  cases ctx with
  | nil => cases hp
  | cons r outer =>
    have hfalse : Assoc.get? r.known name = some false := by simpa [Scopes.isPending] using hp
    refine Option.not_isSome_iff_eq_none.1 fun hbound => ?_
    have hready := h name hbound
    rw [hfalse] at hready
    cases hready

/-- Where `super` stands, the frame inside of that of the superclass has an object as `this`. -/
theorem Site.Legal.exists_this {site : Site} (h : site.Legal) (hr : site.occurrence.reference = .super) {w : World}
    {S : Site → Prop} (hw : w.Sound S) {e : FrameRef} (hst : w.Stands site.heading site.context e) :
    ∃ d o c, site.distance? = some (d + 1) ∧ w.heap.frames.findAt? e d "this" = some (.object o c) := by
  obtain ⟨hname, hheading, d, r, hd, hctx, hready⟩ := h.super hr
  rw [← hname] at hd
  rw [hheading] at hst
  obtain ⟨f, hf, hne, hshows⟩ := hst.mirrors.shows hw hctx
  have hskip : (if d = 0 then none else none : Option String) ≠ some "this" := by simp
  have hbound := (hshows.ready "this" hready).resolve_left hskip
  obtain ⟨v, hv⟩ := Option.isSome_iff_exists.1 hbound
  obtain ⟨o, c, rfl⟩ := hw.this f v hne hv
  refine ⟨d, o, c, hd, ?_⟩
  unfold Frames.findAt?
  rw [hf]
  exact hv

/-- Nothing but variables and assignments is looked up among the globals. -/
theorem Site.Legal.reference_of_global {site : Site} (h : site.Legal) (hd : site.distance? = none) :
    site.occurrence.reference = .variable ∨ site.occurrence.reference = .assign := by
  cases hr : site.occurrence.reference with
  | «variable» => exact .inl rfl
  | assign => exact .inr rfl
  | this =>
    have hsome := h.this hr
    rw [hd] at hsome
    cases hsome
  | super =>
    obtain ⟨hname, -, d, _, hsuper, -⟩ := h.super hr
    rw [← hname, show site.context.scopes.distance? site.name = none from hd] at hsuper
    cases hsuper

namespace Session

variable {s s' : Session} {sites : List Site} {source : String} {program : List Stmt} {fuel : Nat} {p : Point}
  {o : Occurrence} {e : FrameRef} {m : Machine}

/-- The accesses at a distance that find nothing. -/
theorem Reached.ownerAt?_eq_none_iff (hs : Reached s sites) (he : s.enter? source = some (s', program))
    (hv : Visits s'.setting ⟨fuel, .program program, s'.machine⟩ p) (ha : Accesses s'.setting p o e m) {d : Nat}
    (hd : s'.setting.distance? o.label = some d) :
    m.heap.frames.ownerAt? e d o.name.lexeme = none ↔
      ∃ site ∈ sites ++ Stmt.sitesAll [] program, site.occurrence = o ∧ site.WritesOwn := by
  obtain ⟨site, hsite, rfl, w, hm, hw, hst⟩ := hs.stands he hv ha
  have hkept := hs.kept.enter he
  have hdist : site.distance? = some d := (hkept.suits.distance site hsite).symm.trans hd
  constructor
  · intro hnone
    refine ⟨site, hsite.1, rfl, ?_⟩
    have hpending : site.context.scopes.isPending site.name ≠ false := by
      intro hp
      obtain ⟨f, hf, hb⟩ := hsite.2.found hdist hp (hst.mirrors.mirror hw)
      rw [hm] at hf hb
      rw [show Assoc.get? _ site.name = none from Frames.ownerAt?_eq_none_iff.1 hnone f hf] at hb
      cases hb
    exact ⟨Decidable.not_not.1 fun hread => hpending (hsite.2.read hread), Bool.not_eq_false _ ▸ hpending⟩
  · rintro ⟨other, hother, ho, -, hp⟩
    -- labels tell sites apart
    obtain rfl : other = site := hkept.labelled.unique other hother site hsite.1 (congrArg Occurrence.label ho)
    obtain rfl : 0 = d := Option.some.inj ((Scopes.distance?_of_isPending hp).symm.trans hdist)
    rw [← hm]
    exact hst.exact.ownerAt?_eq_none hp

/-- A node that reports an undefined name reports its own, which is not bound where it looks for it. -/
theorem Reached.of_raises (hs : Reached s sites) (he : s.enter? source = some (s', program))
    (hv : Visits s'.setting ⟨fuel, .program program, s'.machine⟩ p) {fault : Fault} (hu : fault.isUndefined = true)
    (hr : Raises s'.setting fault p) :
    ∃ o e m, Accesses s'.setting p o e m ∧ fault = .runtime (.undefined o.name) ∧
      m.heap.Lacks e o.name.lexeme (s'.setting.distance? o.label) := by
  cases hr with
  | read h => exact ⟨_, _, _, .begin rfl, Exec.readName_failed h⟩
  | readThis h => exact ⟨_, _, _, .begin rfl, Exec.readName_failed h⟩
  | write hval h => exact ⟨_, _, _, .write hval, Exec.writeName_failed h⟩
  | @readSuper n e label keyword method m _ h =>
    have ha : Accesses s'.setting ⟨n + 1, .eval e (.super label keyword method), m⟩ ⟨.super, label, keyword⟩ e m :=
      .begin rfl
    obtain ⟨site, hsite, ho, w, hm, hw, hst⟩ := hs.stands he hv ha
    obtain ⟨d, o, c, hd, ht⟩ := hsite.2.exists_this (congrArg Occurrence.reference ho) hw hst
    have hdist : s'.setting.distance? label = some (d + 1) := by
      rw [← hd, ← (hs.kept.enter he).suits.distance site hsite]
      exact congrArg (fun o => s'.setting.distance? o.label) ho.symm
    rw [hm] at ht
    rw [hdist] at h
    refine ⟨_, _, _, ha, ?_⟩
    rw [hdist]
    exact Exec.getSuper_failed ht hu h

/-- A run that reports an undefined name failed with that. -/
theorem program_failed_of_mem_diagnostics (he : s.enter? source = some (s', program)) {token : Token} {name : String}
    (h : .runtime token (.undefinedVariable name) ∈ (s.run fuel source).diagnostics) :
    ∃ m', Exec.program fuel s'.setting program s'.machine = .failed (.runtime ⟨token, .undefinedVariable name⟩) m' := by
  rw [run_eq_execute he] at h
  unfold execute at h
  split at h
  · cases h
  · next fault m' hf =>
    have hfault : fault.toDiagnostic = .runtime token (.undefinedVariable name) := (List.mem_singleton.1 h).symm
    cases fault with
    | output cause => cases hfault
    | runtime report =>
      obtain rfl : report = ⟨token, .undefinedVariable name⟩ := by
        cases report
        cases hfault
        rfl
      rcases Exec.bind_failed hf with hf | ⟨_, m₁, -, hf⟩
      · exact ⟨m', hf⟩
      · unfold Exec.flush at hf
        split at hf <;> cases hf
  · cases h

/-- In every run of an accepted source in a session, an access at a recorded distance finds nothing exactly if it is an
assignment in the initializer of its own local variable; every other undefined name that the run reports is a variable
or an assignment that was looked up among the globals; and what stands in the initializer of its own local variable is
an assignment. -/
theorem undefined_iff_writesOwn (hs : Reached s sites) (he : s.enter? source = some (s', program)) :
    (∀ fuel p o e m d, Visits s'.setting ⟨fuel, .program program, s'.machine⟩ p → Accesses s'.setting p o e m →
      s'.setting.distance? o.label = some d →
      (m.heap.frames.ownerAt? e d o.name.lexeme = none ↔
        ∃ site ∈ sites ++ Stmt.sitesAll [] program, site.occurrence = o ∧ site.WritesOwn)) ∧
    (∀ fuel token name, .runtime token (.undefinedVariable name) ∈ (s.run fuel source).diagnostics →
      ∃ p o e m, Visits s'.setting ⟨fuel, .program program, s'.machine⟩ p ∧ Accesses s'.setting p o e m ∧
        token = o.name ∧ name = o.name.lexeme ∧
        ((o.reference = .variable ∨ o.reference = .assign) ∧ s'.setting.distance? o.label = none ∧
            Assoc.get? (m.heap.frames.bindings Heap.globals) o.name.lexeme = none ∨
          ∃ site ∈ sites ++ Stmt.sitesAll [] program, site.occurrence = o ∧ site.WritesOwn)) ∧
    ∀ site ∈ Stmt.sitesAll [] program, site.context.scopes.isPending site.name = true →
      site.occurrence.reference = .assign := by
  refine ⟨fun fuel p o e m d hv ha hd => hs.ownerAt?_eq_none_iff he hv ha hd, ?_, ?_⟩
  · intro fuel token name h
    obtain ⟨m', hf⟩ := program_failed_of_mem_diagnostics he h
    have hfails : Point.Fails s'.setting (.runtime ⟨token, .undefinedVariable name⟩)
        ⟨fuel, .program program, s'.machine⟩ := ⟨m', hf⟩
    obtain ⟨p, hv, hr⟩ := exists_raises_of_fails hfails rfl
    obtain ⟨o, e, m, ha, hfault, hl⟩ := hs.of_raises he hv rfl hr
    cases hfault
    refine ⟨p, o, e, m, hv, ha, rfl, rfl, ?_⟩
    cases hd : s'.setting.distance? o.label with
    | some d =>
      rw [hd] at hl
      exact .inr ((hs.ownerAt?_eq_none_iff he hv ha hd).1 hl)
    | none =>
      rw [hd] at hl
      obtain ⟨site, hsite, rfl, -⟩ := hs.stands he hv ha
      have hdist : site.distance? = none := ((hs.kept.enter he).suits.distance site hsite).symm.trans hd
      exact .inl ⟨hsite.2.reference_of_global hdist, rfl, hl⟩
  · intro site hsite hp
    have hfits := fits_of_enter? he (List.Subset.refl _)
    refine Decidable.not_not.1 fun hread => ?_
    rw [(hfits.of_mem hsite).2.read hread] at hp
    cases hp

/-- An assignment to a variable in its own initializer is accepted and finds no variable. -/
theorem undefined_iff_writesOwn_of_nil : ∃ s' program,
    (start ⟨.unlimited, [], .running 0⟩).enter? "{ var a = (a = nil); }" = some (s', program) ∧
    ∃ p e m, Visits s'.setting ⟨9, .program program, s'.machine⟩ p ∧
      Accesses s'.setting p ⟨.assign, 1, ⟨.identifier, "a", 1⟩⟩ e m ∧ s'.setting.distance? 1 = some 0 ∧
      m.heap.frames.ownerAt? e 0 "a" = none := by
  let a : Token := ⟨.identifier, "a", 1⟩
  let value : Expr := .assign 1 a (.literal .nil)
  let program : List Stmt := [.block [.varDecl a (some (.group value))]]
  have he : (start ⟨.unlimited, [], .running 0⟩).enter? "{ var a = (a = nil); }" = some (_, program) := rfl
  have hv : ∀ σ, Visits σ ⟨9, .program program, (start ⟨.unlimited, [], .running 0⟩).machine⟩ ⟨5, .eval 1 value, _⟩ :=
    fun σ => .head .topStatement <| .head (.block rfl) <| .head .firstStatement <| .head .initialValue <|
      .head .group .refl
  have ha : ∀ σ m, Accesses σ ⟨5, .eval 1 value, m⟩ ⟨.assign, 1, a⟩ 1 m := fun σ m =>
    .write (by simp only [Exec.eval]; rfl)
  have hnone := (undefined_iff_writesOwn (.start _) he).1 9 _ _ _ _ 0 (hv _) (ha _ _) rfl
  exact ⟨_, _, he, _, _, _, hv _, ha _ _, rfl, hnone.2 ⟨_, List.mem_singleton.2 rfl, rfl, rfl, rfl⟩⟩

end Session

end ScriptLang
