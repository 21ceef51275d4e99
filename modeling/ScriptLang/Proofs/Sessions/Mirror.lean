import ScriptLang.Proofs.Sessions.Reached

/-!
# Frames mirror scopes

Wherever a run of an accepted source evaluates a node that refers to a binding, the frames from the node outwards
correspond to the scopes that the walk over the text had around it: there are as many of them up to the globals, each
binds the names that were ready in its scope, and nothing but names its scope declares.  So a name is read in the frame
of the scope that was chosen for it.

There is one exception: while the superclass of a class is evaluated, the scope around the class has its name already,
but the frame binds it only after that.
-/

namespace ScriptLang

/-- The occurrence that an expression itself is. -/
def Expr.occurrence? : Expr → Option Occurrence
  | .variable label name => some ⟨.variable, label, name⟩
  | .assign label name _ => some ⟨.assign, label, name⟩
  | .this label keyword => some ⟨.this, label, keyword⟩
  | .super label keyword _ => some ⟨.super, label, keyword⟩
  | _ => none

theorem Expr.mem_occurrences {x : Expr} {o : Occurrence} (h : x.occurrence? = some o) : o ∈ x.occurrences := by
  unfold Expr.occurrence? at h
  split at h <;> cases h <;> exact List.mem_cons_self

/-- At a point an occurrence is evaluated in a frame on a machine; an assignment is so before its value and behind it. -/
inductive Accesses (σ : Setting) : Point → Occurrence → FrameRef → Machine → Prop
  | begin {n : Nat} {e : FrameRef} {x : Expr} {m : Machine} {o : Occurrence} : x.occurrence? = some o →
      Accesses σ ⟨n, .eval e x, m⟩ o e m
  | write {n : Nat} {e : FrameRef} {label : Label} {name : Token} {x : Expr} {m m' : Machine} {v : Value} :
      Exec.eval n σ e x m = .done v m' →
      Accesses σ ⟨n + 1, .eval e (.assign label name x), m⟩ ⟨.assign, label, name⟩ e m'

/-- The frames from `e` outwards correspond to regions, but the innermost one need not bind an excused name. -/
structure Frames.Mirror (fs : Frames Value) (e : FrameRef) (ctx : Context) (excused : Option String) : Prop where
  /-- There are as many frames before the globals as regions. -/
  depth : ∀ n, fs.ancestor? e n = some Heap.globals ↔ n = ctx.length
  /-- Names that are ready are bound. -/
  ready : ∀ i r name, ctx[i]? = some r → Assoc.get? r.known name = some true → ¬ (i = 0 ∧ excused = some name) →
    ∃ f, fs.ancestor? e i = some f ∧ (Assoc.get? (fs.bindings f) name).isSome
  /-- Names that are bound are declared somewhere in their scope. -/
  declared : ∀ i r f name, ctx[i]? = some r → fs.ancestor? e i = some f →
    (Assoc.get? (fs.bindings f) name).isSome → name ∈ r.names

namespace World

variable {S : Site → Prop} {w : World} {skip : Option String} {ctx : Context} {e : FrameRef}

theorem Mirrors.depth (h : w.Mirrors skip ctx e) (hw : w.Sound S) (n : Nat) :
    w.heap.frames.ancestor? e n = some Heap.globals ↔ n = ctx.length := by
  induction ctx generalizing skip e n with
  | nil =>
    obtain rfl : e = Heap.globals := h
    cases n with
    | zero => simp [Frames.ancestor?]
    | succ n => simp [Frames.ancestor?, hw.top]
  | cons r outer ih =>
    obtain ⟨-, o, ho, hm⟩ := h
    cases n with
    | zero =>
      -- the globals have nothing around them
      have hne : e ≠ Heap.globals := by
        rintro rfl
        rw [hw.top] at ho
        cases ho
      simp [Frames.ancestor?, hne]
    | succ n => simp [Frames.ancestor?, ho, ih hm]

/-- The frame at a level stands for the region at that level. -/
theorem Mirrors.shows (h : w.Mirrors skip ctx e) (hw : w.Sound S) {i : Nat} {r : Region} (hr : ctx[i]? = some r) :
    ∃ f, w.heap.frames.ancestor? e i = some f ∧ f ≠ Heap.globals ∧ w.Shows (if i = 0 then skip else none) r f := by
  induction ctx generalizing skip e i with
  | nil => cases hr
  | cons r₀ outer ih =>
    obtain ⟨hs, o, ho, hm⟩ := h
    cases i with
    | zero =>
      obtain rfl : r₀ = r := by simpa using hr
      refine ⟨e, rfl, ?_, hs⟩
      rintro rfl
      rw [hw.top] at ho
      cases ho
    | succ i =>
      obtain ⟨f, hf, hne, hshows⟩ := ih hm (by simpa using hr)
      refine ⟨f, by simp [Frames.ancestor?, ho, hf], hne, ?_⟩
      split at hshows <;> exact hshows

theorem Mirrors.mirror (h : w.Mirrors skip ctx e) (hw : w.Sound S) : w.heap.frames.Mirror e ctx skip where
  depth := h.depth hw
  ready i r name hr hn he := by
    obtain ⟨f, hf, -, hs⟩ := h.shows hw hr
    refine ⟨f, hf, (hs.ready name hn).resolve_left fun hskip => he ?_⟩
    split at hskip
    · next hi => exact ⟨hi, hskip⟩
    · cases hskip
  declared i r f name hr hf hb := by
    obtain ⟨f', hf', hne, hs⟩ := h.shows hw hr
    obtain rfl : f = f' := Option.some.inj (hf.symm.trans hf')
    exact hs.names ▸ hw.announced f name hne hb

end World

/-- The region that a distance leads to has the name. -/
theorem Context.exists_of_distance? {ctx : Context} {name : String} {d : Nat}
    (h : ctx.scopes.distance? name = some d) : ∃ r, ctx[d]? = some r ∧ (Assoc.get? r.known name).isSome := by
  induction ctx generalizing d with
  | nil => cases h
  | cons r outer ih =>
    rw [Context.scopes_cons] at h
    unfold Scopes.distance? at h
    split at h
    · next hr =>
      obtain rfl := Option.some.inj h
      exact ⟨r, rfl, hr⟩
    · obtain ⟨k, hk, rfl⟩ := Option.map_eq_some_iff.1 h
      obtain ⟨r', hr', hn⟩ := ih hk
      exact ⟨r', by simpa using hr', hn⟩

/-- A name that does not wait for its initializer is ready where its distance leads. -/
theorem Site.Legal.ready {site : Site} (h : site.Legal) {d : Nat} (hd : site.distance? = some d)
    (hp : site.context.scopes.isPending site.name = false) :
    ∃ r, site.context[d]? = some r ∧ Assoc.get? r.known site.name = some true := by
  obtain ⟨r, hr, hn⟩ := Context.exists_of_distance? hd
  refine ⟨r, hr, ?_⟩
  obtain ⟨ready, hready⟩ := Option.isSome_iff_exists.1 hn
  cases ready with
  | true => exact hready
  | false =>
    -- only the innermost region has a name that waits
    have hctx := h.settled
    obtain ⟨occurrence, ctx, heading⟩ := site
    cases ctx with
    | nil => cases hr
    | cons r₀ outer =>
      cases d with
      | zero =>
        obtain rfl : r₀ = r := by simpa using hr
        simp [Scopes.isPending, hready] at hp
      | succ d => exact absurd hready (hctx r (List.mem_of_getElem? (by simpa using hr)) _)

/-- What is read at a distance is found there. -/
theorem Site.Legal.found {site : Site} (h : site.Legal) {d : Nat} (hd : site.distance? = some d)
    (hp : site.context.scopes.isPending site.name = false) {fs : Frames Value} {e : FrameRef}
    (hm : fs.Mirror e site.context site.heading) :
    ∃ f, fs.ancestor? e d = some f ∧ (Assoc.get? (fs.bindings f) site.name).isSome := by
  obtain ⟨r, hr, hn⟩ := h.ready hd hp
  exact hm.ready d r site.name hr hn fun hex => h.heading hex.2

namespace Session

variable {s s' : Session} {sites : List Site} {source : String} {program : List Stmt} {fuel : Nat} {p : Point}

/-- Every point of a run of an accepted source finds the world ready. -/
theorem Reached.ready (hs : Reached s sites) (he : s.enter? source = some (s', program))
    (hv : Visits s'.setting ⟨fuel, .program program, s'.machine⟩ p) :
    p.Ready (Site.LegalIn (sites ++ Stmt.sitesAll [] program)) := by
  have hkept := hs.kept.enter he
  obtain ⟨w, hm, hw⟩ := hkept.world
  exact hv.ready hkept.suits ⟨w, hm, hw, fits_of_enter? he (List.subset_append_right _ _)⟩

/-- Where an occurrence is evaluated, evaluation stands at a legal site of it. -/
theorem Reached.stands (hs : Reached s sites) (he : s.enter? source = some (s', program))
    (hv : Visits s'.setting ⟨fuel, .program program, s'.machine⟩ p) {o : Occurrence} {e : FrameRef} {m : Machine}
    (ha : Accesses s'.setting p o e m) :
    ∃ site, Site.LegalIn (sites ++ Stmt.sitesAll [] program) site ∧ site.occurrence = o ∧
      ∃ w : World, w.heap = m.heap ∧ w.Sound (Site.LegalIn (sites ++ Stmt.sitesAll [] program)) ∧
        w.Stands site.heading site.context e := by
  obtain ⟨w, hm, hw, hr⟩ := hs.ready he hv
  cases ha with
  | begin ho =>
    obtain ⟨ctx, skip, hx, hst⟩ := hr
    exact ⟨⟨o, ctx, skip⟩, hx o (Expr.mem_occurrences ho), rfl, w, hm, hw, hst⟩
  | write hval =>
    obtain ⟨ctx, skip, hx, hst⟩ := hr
    obtain ⟨hsite, hvalue⟩ := List.forall_mem_cons.1 hx
    obtain ⟨w', hm', hw', hst'⟩ := hst.behind_eval (hs.kept.enter he).suits hw hm hvalue hval
    exact ⟨⟨_, ctx, skip⟩, hsite, rfl, w', hm', hw', hst'⟩

/-- In every run of an accepted source in a session, the frames at a node that refers to a binding mirror the scopes
that the walk had around the node, which its label identifies; its distance in the table is that of the walk; and what
is read at a distance is found there. -/
theorem mirror_of_visits (hs : Reached s sites) (he : s.enter? source = some (s', program))
    (hv : Visits s'.setting ⟨fuel, .program program, s'.machine⟩ p) {o : Occurrence} {e : FrameRef} {m : Machine}
    (ha : Accesses s'.setting p o e m) :
    ∃ site ∈ sites ++ Stmt.sitesAll [] program, site.occurrence = o ∧
      (∀ other ∈ sites ++ Stmt.sitesAll [] program, other.label = o.label → other = site) ∧
      m.heap.frames.Mirror e site.context site.heading ∧
      s'.setting.distance? o.label = site.context.scopes.distance? o.name.lexeme ∧
      (o.reference ≠ .assign → ∀ d, s'.setting.distance? o.label = some d →
        ∃ f, m.heap.frames.ancestor? e d = some f ∧ (Assoc.get? (m.heap.frames.bindings f) o.name.lexeme).isSome) := by
  obtain ⟨site, hsite, rfl, w, hm, hw, hst⟩ := hs.stands he hv ha
  have hkept := hs.kept.enter he
  have hmirror := hst.mirrors.mirror hw
  rw [hm] at hmirror
  have hdist : s'.setting.distance? site.label = site.distance? := hkept.suits.distance site hsite
  refine ⟨site, hsite.1, rfl, ?_, hmirror, hdist, fun hread d hd => ?_⟩
  · exact fun other hother hlabel => hkept.labelled.unique other hother site hsite.1 hlabel
  · exact hsite.2.found (hdist.symm.trans hd) (hsite.2.read hread) hmirror

/-- The variable of a block is found in the frame of the block, which is one below the globals. -/
theorem mirror_of_visits_printed : ∃ s' program,
    (start ⟨.unlimited, [], .running 0⟩).enter? "{ var a; print a; }" = some (s', program) ∧
    ∃ p e m, Visits s'.setting ⟨9, .program program, s'.machine⟩ p ∧
      Accesses s'.setting p ⟨.variable, 0, ⟨.identifier, "a", 1⟩⟩ e m ∧
      m.heap.frames.ancestor? e 1 = some Heap.globals ∧
      ∃ f, m.heap.frames.ancestor? e 0 = some f ∧ (Assoc.get? (m.heap.frames.bindings f) "a").isSome := by
  let a : Token := ⟨.identifier, "a", 1⟩
  let program : List Stmt := [.block [.varDecl a none, .print ⟨.keyword .kwPrint, "print", 1⟩ (.variable 0 a)]]
  have he : (start ⟨.unlimited, [], .running 0⟩).enter? "{ var a; print a; }" = some (_, program) := rfl
  have hv : ∀ σ, Visits σ ⟨9, .program program, (start ⟨.unlimited, [], .running 0⟩).machine⟩
      ⟨5, .eval 1 (.variable 0 a), _⟩ := fun σ =>
    .head .topStatement <| .head (.block rfl) <| .head (.otherStatements (by simp only [Exec.exec]; rfl)) <|
      .head .firstStatement <| .head .printed .refl
  obtain ⟨site, hsite, -, -, hmirror, -, hread⟩ := mirror_of_visits (.start _) he (hv _) (.begin rfl)
  obtain rfl : site = _ := List.mem_singleton.1 hsite
  exact ⟨_, _, he, _, _, _, hv _, .begin rfl, (hmirror.depth 1).2 rfl, hread (by simp) 0 rfl⟩

/-- While a superclass is evaluated, the frame does not bind the name of the class, but its scope has it ready. -/
theorem not_mirror_at_superclass : ∃ s' program,
    (start ⟨.unlimited, [], .running 0⟩).enter? "{ class B {} class A < B {} }" = some (s', program) ∧
    ∃ p o e m, Visits s'.setting ⟨9, .program program, s'.machine⟩ p ∧ Accesses s'.setting p o e m ∧
      ∀ site ∈ Stmt.sitesAll [] program, site.occurrence = o → ¬ m.heap.frames.Mirror e site.context none := by
  let b : Token := ⟨.identifier, "B", 1⟩
  let second : Stmt := .classDecl ⟨.identifier, "A", 1⟩ (some (.variable 0 b)) []
  let program : List Stmt := [.block [.classDecl b none [], second]]
  have hv : ∀ σ, Visits σ ⟨9, .program program, (start ⟨.unlimited, [], .running 0⟩).machine⟩
      ⟨5, .eval 1 (.variable 0 b), _⟩ := fun σ =>
    .head .topStatement <| .head (.block rfl) <| .head (.otherStatements (by simp only [Exec.exec]; rfl)) <|
      .head .firstStatement <| .head .superclass .refl
  refine ⟨_, program, rfl, _, _, _, _, hv _, .begin rfl, ?_⟩
  intro site hsite _ hmirror
  obtain rfl : site = _ := List.mem_singleton.1 hsite
  obtain ⟨f, hf, hb⟩ := hmirror.ready 0 _ "A" rfl rfl (by simp)
  obtain rfl := Option.some.inj hf
  revert hb
  decide

end Session

end ScriptLang
