import ScriptLang.Proofs.Scoping.Copies
import ScriptLang.Proofs.Scoping.Rename

/-!
# Loops with their increment inside the body

A loop with an increment runs it behind every round.  So does the loop without one whose body is a block of the old body
and the increment, unless a `continue` leaves that block early.

* `Stmt.continues` — a statement has a `continue` for the loop around it;
* `Stmt.Lowered` — a statement, and what becomes of it if some of its loops are replaced so;
* `Shift`, `Scopes.Padded` — empty scopes come in between, and distances grow accordingly;
* `Stmt.LoweredAll.faults` — a program without faults has none afterwards;
* `Stmt.LoweredAll.labelled` — labels tell occurrences apart afterwards as well.
-/

namespace ScriptLang

/-! ## replacing loops -/

mutual

/-- A statement has a `continue` for the loop around it. -/
def Stmt.continues : Stmt → Bool
  | .block body => Stmt.continuesAny body
  | .ifThen _ t => t.continues
  | .ifElse _ t e => t.continues || e.continues
  | .continueLoop _ => true
  | _ => false

/-- One of some statements has a `continue` for the loop around them. -/
def Stmt.continuesAny : List Stmt → Bool
  | [] => false
  | s :: rest => s.continues || Stmt.continuesAny rest

end

mutual

/-- The second statement is the first with some loops replaced: the increment has become the end of the body. -/
inductive Stmt.Lowered : Stmt → Stmt → Prop
  | expr {x} : Stmt.Lowered (.expr x) (.expr x)
  | print {keyword x} : Stmt.Lowered (.print keyword x) (.print keyword x)
  | varDecl {name x} : Stmt.Lowered (.varDecl name x) (.varDecl name x)
  | block {body body'} : Stmt.LoweredAll body body' → Stmt.Lowered (.block body) (.block body')
  | ifThen {c t t'} : Stmt.Lowered t t' → Stmt.Lowered (.ifThen c t) (.ifThen c t')
  | ifElse {c t t' f f'} : Stmt.Lowered t t' → Stmt.Lowered f f' → Stmt.Lowered (.ifElse c t f) (.ifElse c t' f')
  | loop {c b b' i} : Stmt.Lowered b b' → Stmt.Lowered (.loop c b i) (.loop c b' i)
  | replaced {c b b' x} : b.continues = false → Stmt.Lowered b b' →
      Stmt.Lowered (.loop c b (some x)) (.loop c (.block [b', .expr x]) none)
  | funDecl {d d'} : FunctionDecl.Lowered d d' → Stmt.Lowered (.funDecl d) (.funDecl d')
  | returnFrom {keyword x} : Stmt.Lowered (.returnFrom keyword x) (.returnFrom keyword x)
  | classDecl {name x ms ms'} : FunctionDecl.LoweredAll ms ms' →
      Stmt.Lowered (.classDecl name x ms) (.classDecl name x ms')
  | breakLoop {keyword} : Stmt.Lowered (.breakLoop keyword) (.breakLoop keyword)
  | continueLoop {keyword} : Stmt.Lowered (.continueLoop keyword) (.continueLoop keyword)

/-- The same of statements, one by one. -/
inductive Stmt.LoweredAll : List Stmt → List Stmt → Prop
  | nil : Stmt.LoweredAll [] []
  | cons {s s' rest rest'} : Stmt.Lowered s s' → Stmt.LoweredAll rest rest' →
      Stmt.LoweredAll (s :: rest) (s' :: rest')

/-- The same of a function. -/
inductive FunctionDecl.Lowered : FunctionDecl → FunctionDecl → Prop
  | mk {name params body body'} : Stmt.LoweredAll body body' →
      FunctionDecl.Lowered (.mk name params body) (.mk name params body')

/-- The same of functions, one by one. -/
inductive FunctionDecl.LoweredAll : List FunctionDecl → List FunctionDecl → Prop
  | nil : FunctionDecl.LoweredAll [] []
  | cons {d d' ds ds'} : FunctionDecl.Lowered d d' → FunctionDecl.LoweredAll ds ds' →
      FunctionDecl.LoweredAll (d :: ds) (d' :: ds')

end

theorem FunctionDecl.Lowered.name {d d' : FunctionDecl} (h : d.Lowered d') : d'.name = d.name := by cases h; rfl

theorem FunctionDecl.Lowered.isInit {d d' : FunctionDecl} (h : d.Lowered d') : d'.isInit = d.isInit := by
  unfold FunctionDecl.isInit
  rw [h.name]

/-- What a statement declares stays: nothing that is declared stands in the body of a loop. -/
theorem Stmt.Lowered.declared {s s' : Stmt} (h : s.Lowered s') (hr : s.Regular) : s'.declared = s.declared := by
  cases h with
  | ifThen ht => exact ht.declared hr.2.2
  | ifElse ht hf =>
    simp only [Stmt.declared]
    rw [ht.declared hr.2.1.2, hf.declared hr.2.2.2]
  | loop hb => exact hb.declared hr.2.1.2
  | replaced _ _ => exact hr.2.1.1.symm
  | funDecl hd =>
    simp only [Stmt.declared]
    rw [hd.name]
  | _ => rfl

/-! ## expressions and labels -/

theorem Front.expressions_cons (f : Front) (fs : List Front) : expressions (f :: fs) = f.expression :: expressions fs :=
  rfl

mutual

/-- The expressions are the same, in the same order. -/
theorem Stmt.Lowered.expressions {ctx ctx' : Context} {s s' : Stmt} (h : s.Lowered s') :
    Front.expressions (s'.fronts ctx') = Front.expressions (s.fronts ctx) := by
  cases h with
  | expr => rfl
  | print => rfl
  | varDecl =>
    simp only [Stmt.fronts]
    rw [Front.expressions_frontsIn, Front.expressions_frontsIn]
  | block hb => exact hb.expressions
  | ifThen ht =>
    simp only [Stmt.fronts, Front.expressions_cons]
    rw [ht.expressions]
  | ifElse ht hf =>
    simp only [Stmt.fronts, Front.expressions_cons, Front.expressions_append]
    rw [ht.expressions, hf.expressions]
  | loop hb =>
    simp only [Stmt.fronts, Front.expressions_cons, Front.expressions_append, Front.expressions_frontsIn]
    rw [hb.expressions]
  | @replaced c b b' x _ hb =>
    have hbody : ∀ inner, Front.expressions (b'.fronts inner) = Front.expressions (b.fronts ctx) :=
      fun inner => hb.expressions
    simp only [Stmt.fronts, Stmt.frontsAll, Front.expressions_cons, Front.expressions_append,
      Front.expressions_frontsIn, hbody]
    simp [Front.expressions]
  | funDecl hd => exact hd.expressions
  | returnFrom =>
    simp only [Stmt.fronts]
    rw [Front.expressions_frontsIn, Front.expressions_frontsIn]
  | classDecl hm =>
    simp only [Stmt.fronts, Front.expressions_append, Front.expressions_frontsIn]
    rw [hm.expressions]
  | breakLoop => rfl
  | continueLoop => rfl

theorem Stmt.LoweredAll.expressions {ctx ctx' : Context} {body body' : List Stmt} (h : Stmt.LoweredAll body body') :
    Front.expressions (Stmt.frontsAll ctx' body') = Front.expressions (Stmt.frontsAll ctx body) := by
  cases h with
  | nil => rfl
  | cons hs hrest =>
    simp only [Stmt.frontsAll, Front.expressions_append]
    rw [hs.expressions, hrest.expressions]

theorem FunctionDecl.Lowered.expressions {ctx ctx' : Context} {d d' : FunctionDecl} (h : d.Lowered d') :
    Front.expressions (d'.fronts ctx') = Front.expressions (d.fronts ctx) := by
  cases h with
  | mk hb => exact hb.expressions

theorem FunctionDecl.LoweredAll.expressions {ctx ctx' : Context} {ds ds' : List FunctionDecl}
    (h : FunctionDecl.LoweredAll ds ds') :
    Front.expressions (FunctionDecl.frontsAll ctx' ds') = Front.expressions (FunctionDecl.frontsAll ctx ds) := by
  cases h with
  | nil => rfl
  | cons hd hds =>
    simp only [FunctionDecl.frontsAll, Front.expressions_append]
    rw [hd.expressions, hds.expressions]

end

theorem Expr.sizeOf_lt_of_mem_children {x c : Expr} (h : c ∈ x.children) : sizeOf c < sizeOf x := by
  cases x with
  | literal | «variable» | this | super => cases h
  | group | unary | assign | get =>
    obtain rfl := List.mem_singleton.1 h
    simp +arith
  | binary x op y | logical x op y | set x op y =>
    rcases List.mem_pair.1 h with rfl | rfl <;> simp +arith
  | call f paren args =>
    rcases List.mem_cons.1 h with rfl | h
    · simp +arith
    · have hlt := List.sizeOf_lt_of_mem h
      simp only [Expr.call.sizeOf_spec]
      omega

/-- Every occurrence stands at some path. -/
theorem Expr.exists_at_of_mem (x : Expr) {o : Occurrence} (h : o ∈ x.occurrences) : ∃ p, x.occurrenceAt? p = some o := by
  rw [Expr.occurrences_eq] at h
  rcases List.mem_append.1 h with h | h
  · exact ⟨[], Option.mem_toList.1 h⟩
  · obtain ⟨c, hc, h⟩ := List.mem_flatMap.1 h
    obtain ⟨i, hi⟩ := List.mem_iff_getElem?.1 hc
    obtain ⟨p, hp⟩ := Expr.exists_at_of_mem c h
    refine ⟨i :: p, ?_⟩
    rw [Expr.occurrenceAt?_cons, hi]
    exact hp
termination_by sizeOf x
decreasing_by exact Expr.sizeOf_lt_of_mem_children hc

/-- In stamped expressions a label belongs to one site. -/
theorem Stamped.sites {lo hi : Label} {fs : List Front} (h : Stamped lo hi (Front.expressions fs)) :
    Labelled Site.label lo hi (fs.flatMap Front.sites) := by
  have hmem : ∀ site ∈ fs.flatMap Front.sites, ∃ (i : Nat) (f : Front), fs[i]? = some f ∧ site.occurrence ∈ f.expression.occurrences ∧
      site = ⟨site.occurrence, f.context, f.heading⟩ := by
    intro site hsite
    obtain ⟨f, hf, hsite⟩ := List.mem_flatMap.1 hsite
    obtain ⟨i, hi⟩ := List.mem_iff_getElem?.1 hf
    obtain ⟨o, ho, rfl⟩ := List.mem_map.1 hsite
    exact ⟨i, f, hi, ho, rfl⟩
  have hexpr : ∀ {i : Nat} {f : Front}, fs[i]? = some f → (Front.expressions fs)[i]? = some f.expression := by
    intro i f hi
    rw [Front.expressions, List.getElem?_map, hi, Option.map_some]
  refine ⟨h.le, fun site hsite => ?_, fun site hsite site' hsite' hlabel => ?_⟩
  · obtain ⟨i, f, hi, ho, -⟩ := hmem site hsite
    exact h.range _ (List.mem_of_getElem? (hexpr hi)) _ ho
  · obtain ⟨i, f, hi, ho, he⟩ := hmem site hsite
    obtain ⟨j, g, hj, hu, he'⟩ := hmem site' hsite'
    by_cases hij : i = j
    · obtain rfl : f = g := Option.some.inj (hi.symm.trans (hij ▸ hj))
      obtain ⟨p, hp⟩ := f.expression.exists_at_of_mem ho
      obtain ⟨q, hq⟩ := f.expression.exists_at_of_mem hu
      have htwins := h.single _ (List.mem_of_getElem? (hexpr hi)) p q _ _ hp hq hlabel
      have hsame : some site.occurrence = some site'.occurrence := (hp.symm.trans htwins.occurrenceAt?_eq).trans hq
      rw [he, he', Option.some.inj hsame]
    · have hapart := rel_of_pairwise_of_ne Expr.Apart.symm h.apart hij (hexpr hi) (hexpr hj)
      exact absurd hlabel (hapart _ ho _ hu)

/-- After loops in a program were replaced a label still belongs to one site. -/
theorem Stmt.LoweredAll.labelled {lo hi : Label} {ctx : Context} {body body' : List Stmt} (h : Stmt.LoweredAll body body')
    (hs : Stamped lo hi (Front.expressions (Stmt.frontsAll ctx body))) :
    Labelled Site.label lo hi (Stmt.sitesAll ctx body') := by
  rw [← Stmt.sites_frontsAll]
  refine Stamped.sites ?_
  rwa [h.expressions]

/-! ## scopes with others in between -/

/-- For each distance in one place the distance in another. -/
abbrev Shift : Type := Nat → Nat

namespace Shift

/-- One scope further in on both sides. -/
def cons (δ : Shift) : Shift
  | 0 => 0
  | d + 1 => δ d + 1

/-- One scope further in on the second side only. -/
def skip (δ : Shift) : Shift := fun d => δ d + 1

/-- In the methods of a class. -/
def ofClass (δ : Shift) (superclass : Option Expr) : Shift := if superclass.isSome then δ.cons.cons else δ.cons

@[simp] theorem cons_id : cons id = id := by
  funext d
  cases d <;> rfl

@[simp] theorem ofClass_id (superclass : Option Expr) : ofClass id superclass = id := by
  simp [ofClass]

end Shift

namespace Scopes

variable {scopes scopes' : Scopes}

theorem head?_put (h : scopes'.head? = scopes.head?) (ready : Bool) (name : String) :
    (scopes'.put ready name).head? = (scopes.put ready name).head? := by
  cases scopes <;> cases scopes' <;> simp_all [put]

theorem isPending_eq (h : scopes'.head? = scopes.head?) (name : String) :
    scopes'.isPending name = scopes.isPending name := by
  cases scopes <;> cases scopes' <;> simp_all [isPending]

theorem redeclared_eq (h : scopes'.head? = scopes.head?) (name : Token) :
    redeclared scopes' name = redeclared scopes name := by
  unfold redeclared
  cases scopes <;> cases scopes' <;> simp_all [declares]

theorem resolveParams_eq (h : scopes'.head? = scopes.head?) (params : List Token) :
    resolveParams scopes' params = resolveParams scopes params := by
  induction params generalizing scopes scopes' with
  | nil => rfl
  | cons p ps ih =>
    simp only [resolveParams]
    rw [redeclared_eq h, ih (head?_put h true p.lexeme)]

/-- The second scopes are the first with empty ones in between; `level` says that none of these is the innermost. -/
structure Padded (level : Bool) (δ : Shift) (scopes scopes' : Scopes) : Prop where
  distance : ∀ name, scopes'.distance? name = (scopes.distance? name).map δ
  /-- Nothing comes in between the scope of `super` and that of `this`. -/
  super : ∀ d, scopes.distance? "super" = some d → ∃ k, d = k + 1 ∧ δ (k + 1) = δ k + 1
  pending : ∀ name, scopes'.isPending name = true → scopes.isPending name = true
  level : level = true → scopes'.head? = scopes.head? ∧ δ 0 = 0

namespace Padded

variable {level : Bool} {δ : Shift}

theorem top : Padded true id [] [] := ⟨fun _ => rfl, fun _ h => (by cases h), fun _ h => h, fun _ => ⟨rfl, rfl⟩⟩

theorem put (h : Padded true δ scopes scopes') {name : String} (hn : Ordinary name) (ready : Bool) :
    Padded true δ (scopes.put ready name) (scopes'.put ready name) := by
  obtain ⟨hhead, hzero⟩ := h.level rfl
  have hhead' := head?_put hhead ready name
  refine ⟨fun n => ?_, fun d hd => ?_, fun n hp => ?_, fun _ => ⟨hhead', hzero⟩⟩
  · by_cases hne : name = n
    · subst hne
      cases scopes <;> cases scopes' <;> simp_all [Scopes.put, Scopes.distance?]
    · rw [distance?_put_of_ne hne, distance?_put_of_ne hne, h.distance]
  · rw [distance?_put_of_ne hn.2] at hd
    exact h.super d hd
  · rwa [isPending_eq hhead'] at hp

theorem declareAll (h : Padded true δ scopes scopes') {names : List Token} (hn : ∀ t ∈ names, Ordinary t.lexeme) :
    Padded true δ (scopes.declareAll names) (scopes'.declareAll names) := by
  unfold Scopes.declareAll
  induction names generalizing scopes scopes' with
  | nil => exact h
  | cons name names ih =>
    rw [List.forall_mem_cons] at hn
    exact ih (h.put hn.1 true) hn.2

/-- A scope that both sides have. -/
theorem cons (h : Padded level δ scopes scopes') {scope : Scope} (hs : Assoc.get? scope "super" = none) :
    Padded true δ.cons (scope :: scopes) (scope :: scopes') := by
  refine ⟨fun name => ?_, fun d hd => ?_, fun _ hp => hp, fun _ => ⟨rfl, rfl⟩⟩
  · simp only [Scopes.distance?]
    split
    · rfl
    · rw [h.distance, Option.map_map, Option.map_map]
      rfl
  · rw [distance?_of_eq_none hs] at hd
    obtain ⟨e, he, rfl⟩ := Option.map_eq_some_iff.1 hd
    obtain ⟨k, rfl, hk⟩ := h.super e he
    exact ⟨k + 1, rfl, congrArg (· + 1) hk⟩

/-- An empty scope that only the second side has. -/
theorem skip (h : Padded level δ scopes scopes') : Padded false δ.skip scopes ([] :: scopes') := by
  refine ⟨fun name => ?_, fun d hd => ?_, fun _ hp => (by cases hp), fun hl => (by cases hl)⟩
  · rw [distance?_of_eq_none rfl, h.distance, Option.map_map]
    rfl
  · obtain ⟨k, rfl, hk⟩ := h.super d hd
    exact ⟨k, rfl, congrArg (· + 1) hk⟩

theorem ofClass (h : Padded level δ scopes scopes') (superclass : Option Expr) :
    Padded true (δ.ofClass superclass) (scopes.ofClass superclass) (scopes'.ofClass superclass) := by
  cases superclass with
  | none => exact h.cons rfl
  | some x =>
    refine ⟨fun name => ?_, fun d hd => ?_, fun _ hp => hp, fun _ => ⟨rfl, rfl⟩⟩
    · simp only [Scopes.ofClass, Scopes.distance?]
      split
      · rfl
      · split
        · rfl
        · rw [h.distance]
          simp only [Option.map_map]
          rfl
    · obtain rfl : 1 = d := Option.some.inj hd
      exact ⟨0, rfl, rfl⟩

end Padded

end Scopes

/-! ## faults -/

section

open Findings

variable {place place' : Place} {scopes scopes' : Scopes}

theorem Findings.faults_occurrence (label : Label) (name : Token) : (occurrence scopes label name).faults = [] := by
  unfold occurrence
  cases scopes.distance? name.lexeme <;> rfl

mutual

/-- No fault in an expression where no more names wait for their initializers. -/
theorem Expr.faults_of_pending (hk : place'.klass = place.klass)
    (hp : ∀ name, scopes'.isPending name = true → scopes.isPending name = true) (x : Expr)
    (hf : (x.resolve place scopes).faults = []) : (x.resolve place' scopes').faults = [] := by
  cases x with
  | literal v => rfl
  | group x => exact Expr.faults_of_pending hk hp x hf
  | unary op x => exact Expr.faults_of_pending hk hp x hf
  | binary x op y =>
    simp only [Expr.resolve, faults_append, List.append_eq_nil_iff] at hf ⊢
    exact ⟨Expr.faults_of_pending hk hp x hf.1, Expr.faults_of_pending hk hp y hf.2⟩
  | logical x op y =>
    simp only [Expr.resolve, faults_append, List.append_eq_nil_iff] at hf ⊢
    exact ⟨Expr.faults_of_pending hk hp x hf.1, Expr.faults_of_pending hk hp y hf.2⟩
  | «variable» label name =>
    simp only [Expr.resolve, faults_append, List.append_eq_nil_iff, faults_faultIf] at hf ⊢
    refine ⟨?_, faults_occurrence label name⟩
    rw [← Bool.not_eq_true]
    intro hpending
    rw [hp _ hpending] at hf
    cases hf.1
  | assign label name v =>
    simp only [Expr.resolve, faults_append, List.append_eq_nil_iff] at hf ⊢
    exact ⟨Expr.faults_of_pending hk hp v hf.1, faults_occurrence label name⟩
  | call f paren args =>
    simp only [Expr.resolve, faults_append, List.append_eq_nil_iff] at hf ⊢
    exact ⟨Expr.faults_of_pending hk hp f hf.1, Expr.faultsAll_of_pending hk hp args hf.2⟩
  | get x name => exact Expr.faults_of_pending hk hp x hf
  | set x name v =>
    simp only [Expr.resolve, faults_append, List.append_eq_nil_iff] at hf ⊢
    exact ⟨Expr.faults_of_pending hk hp x hf.1, Expr.faults_of_pending hk hp v hf.2⟩
  | this label keyword =>
    simp only [Expr.resolve, hk] at hf ⊢
    split at hf
    · exact absurd hf (faults_fault _ _)
    · exact faults_occurrence label keyword
  | super label keyword method =>
    simp only [Expr.resolve, hk] at hf ⊢
    split at hf
    · exact absurd hf (faults_fault _ _)
    · exact absurd hf (faults_fault _ _)
    · exact faults_occurrence label keyword

theorem Expr.faultsAll_of_pending (hk : place'.klass = place.klass)
    (hp : ∀ name, scopes'.isPending name = true → scopes.isPending name = true) (xs : List Expr)
    (hf : (Expr.resolveAll place scopes xs).faults = []) : (Expr.resolveAll place' scopes' xs).faults = [] := by
  cases xs with
  | nil => rfl
  | cons x xs =>
    simp only [Expr.resolveAll, faults_append, List.append_eq_nil_iff] at hf ⊢
    exact ⟨Expr.faults_of_pending hk hp x hf.1, Expr.faultsAll_of_pending hk hp xs hf.2⟩

end

theorem Expr.faultsIn_of_pending (hk : place'.klass = place.klass)
    (hp : ∀ name, scopes'.isPending name = true → scopes.isPending name = true) (x : Option Expr)
    (hf : (Expr.resolveIn place scopes x).faults = []) : (Expr.resolveIn place' scopes' x).faults = [] := by
  cases x with
  | none => rfl
  | some x => exact Expr.faults_of_pending hk hp x hf

end

/-- Behind a statement, which declares names only where no empty scope is the innermost. -/
theorem Scopes.Padded.after {level : Bool} {δ : Shift} {scopes scopes' : Scopes} (h : Padded level δ scopes scopes')
    {s s' : Stmt} (hl : s.Lowered s') (hr : s.Regular) (hs : s.declared = [] ∨ level = true) :
    Padded level δ (scopes.after s) (scopes'.after s') := by
  unfold Scopes.after
  rw [hl.declared hr]
  rcases hs with hs | rfl
  · rw [hs]
    exact h
  · exact h.declareAll (Stmt.ordinary_of_mem_declared hr)

section

open Findings

mutual

/-- A statement without faults has none after loops in it were replaced. -/
theorem Stmt.Lowered.faults {s s' : Stmt} (h : s.Lowered s') : ∀ {place : Place} {level : Bool} {δ : Shift}
    {scopes scopes' : Scopes}, s.Regular → scopes.Padded level δ scopes' → s.declared = [] ∨ level = true →
    (s.resolve place scopes).faults = [] → (s'.resolve place scopes').faults = [] := by
  cases h with intro place level δ scopes scopes' hr hp hs hf
  | @expr x => exact Expr.faults_of_pending rfl hp.pending x hf
  | @print keyword x => exact Expr.faults_of_pending rfl hp.pending x hf
  | @varDecl name x =>
    obtain rfl := hs.resolve_left (by simp [Stmt.declared])
    simp only [Stmt.resolve, faults_append, List.append_eq_nil_iff] at hf ⊢
    rw [Scopes.redeclared_eq (hp.level rfl).1]
    exact ⟨hf.1, Expr.faultsIn_of_pending rfl (hp.put hr.1 false).pending x hf.2⟩
  | block hb => exact hb.faults hr (hp.cons rfl) hf
  | @ifThen c t t' ht =>
    simp only [Stmt.resolve, faults_append, List.append_eq_nil_iff] at hf ⊢
    exact ⟨Expr.faults_of_pending rfl hp.pending c hf.1, ht.faults hr.2.2 hp (.inl hr.2.1) hf.2⟩
  | @ifElse c t t' e e' ht he =>
    obtain ⟨-, ⟨hd, hrt⟩, hd', hre⟩ := hr
    simp only [Stmt.resolve, faults_append, List.append_eq_nil_iff] at hf ⊢
    exact ⟨⟨Expr.faults_of_pending rfl hp.pending c hf.1.1, ht.faults hrt hp (.inl hd) hf.1.2⟩,
      he.faults hre (hp.after ht hrt (.inl hd)) (.inl hd') hf.2⟩
  | @loop c b b' i hb =>
    obtain ⟨-, ⟨hd, hrb⟩, -⟩ := hr
    simp only [Stmt.resolve, faults_append, List.append_eq_nil_iff] at hf ⊢
    exact ⟨⟨Expr.faults_of_pending rfl hp.pending c hf.1.1, hb.faults hrb hp (.inl hd) hf.1.2⟩,
      Expr.faultsIn_of_pending rfl (hp.after hb hrb (.inl hd)).pending i hf.2⟩
  | @replaced c b b' x _ hb =>
    obtain ⟨-, ⟨hd, hrb⟩, -⟩ := hr
    simp only [Stmt.resolve, Stmt.resolveAll, faults_append, List.append_eq_nil_iff] at hf ⊢
    have hk : ({ place with inLoop := true } : Place).klass = place.klass := rfl
    have hincrement : (x.resolve { place with inLoop := true } (Scopes.after ([] :: scopes') b')).faults = [] :=
      Expr.faults_of_pending hk (hp.skip.after hb hrb (.inl hd)).pending x hf.2
    exact ⟨⟨Expr.faults_of_pending rfl hp.pending c hf.1.1, hb.faults hrb hp.skip (.inl hd) hf.1.2, hincrement, rfl⟩, rfl⟩
  | @funDecl d d' hd =>
    obtain rfl := hs.resolve_left (by simp [Stmt.declared])
    simp only [Stmt.resolve, faults_append, List.append_eq_nil_iff] at hf ⊢
    rw [hd.name, Scopes.redeclared_eq (hp.level rfl).1]
    exact ⟨hf.1, hd.faults hr.2 (hp.put hr.1 true) hf.2⟩
  | @returnFrom keyword x =>
    simp only [Stmt.resolve, faults_append, List.append_eq_nil_iff] at hf ⊢
    exact ⟨hf.1, Expr.faultsIn_of_pending rfl hp.pending x hf.2⟩
  | @classDecl name x ms ms' hm =>
    obtain rfl := hs.resolve_left (by simp [Stmt.declared])
    simp only [Stmt.resolve, faults_append, List.append_eq_nil_iff] at hf ⊢
    have hinner := hp.put hr.1 true
    rw [Scopes.redeclared_eq (hp.level rfl).1]
    exact ⟨⟨hf.1.1, Expr.faultsIn_of_pending rfl hinner.pending x hf.1.2⟩, hm.faults hr.2.2 (hinner.ofClass x) hf.2⟩
  | breakLoop => exact hf
  | continueLoop => exact hf

theorem Stmt.LoweredAll.faults {body body' : List Stmt} (h : Stmt.LoweredAll body body') : ∀ {place : Place} {δ : Shift}
    {scopes scopes' : Scopes}, Stmt.RegularAll body → scopes.Padded true δ scopes' →
    (Stmt.resolveAll place scopes body).faults = [] → (Stmt.resolveAll place scopes' body').faults = [] := by
  cases h with intro place δ scopes scopes' hr hp hf
  | nil => rfl
  | cons hs hrest =>
    simp only [Stmt.resolveAll, faults_append, List.append_eq_nil_iff] at hf ⊢
    exact ⟨hs.faults hr.1 hp (.inr rfl) hf.1, hrest.faults hr.2 (hp.after hs hr.1 (.inr rfl)) hf.2⟩

theorem FunctionDecl.Lowered.faults {d d' : FunctionDecl} (h : d.Lowered d') : ∀ {place : Place} {δ : Shift}
    {scopes scopes' : Scopes}, d.Regular → scopes.Padded true δ scopes' →
    (d.resolve place scopes).faults = [] → (d'.resolve place scopes').faults = [] := by
  cases h with intro place δ scopes scopes' hr hp hf
  | @mk name params body body' hb =>
    have hinner : Scopes.Padded true δ.cons ([] :: scopes) ([] :: scopes') := hp.cons rfl
    simp only [FunctionDecl.resolve, faults_append, List.append_eq_nil_iff] at hf ⊢
    rw [Scopes.resolveParams_eq (hinner.level rfl).1]
    exact ⟨hf.1, hb.faults hr.2 (hinner.declareAll hr.1) hf.2⟩

theorem FunctionDecl.LoweredAll.faults {ds ds' : List FunctionDecl} (h : FunctionDecl.LoweredAll ds ds') :
    ∀ {klass : ClassPlace} {δ : Shift} {scopes scopes' : Scopes}, FunctionDecl.RegularAll ds →
    scopes.Padded true δ scopes' → (FunctionDecl.resolveMethods klass scopes ds).faults = [] →
    (FunctionDecl.resolveMethods klass scopes' ds').faults = [] := by
  cases h with intro klass δ scopes scopes' hr hp hf
  | nil => rfl
  | @cons d d' ds ds' hd hds =>
    simp only [FunctionDecl.resolveMethods, faults_append, List.append_eq_nil_iff] at hf ⊢
    have hplace : FunctionPlace.ofMethod d' = FunctionPlace.ofMethod d := by
      unfold FunctionPlace.ofMethod
      rw [hd.isInit]
    rw [hplace]
    exact ⟨hd.faults hr.1 hp hf.1, hds.faults hr.2 hp hf.2⟩

end

end

end ScriptLang
