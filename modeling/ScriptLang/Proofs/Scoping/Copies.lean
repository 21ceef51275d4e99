import Mathlib.Logic.Relation
import ScriptLang.Proofs.Scoping.Parsed

/-!
# Nodes that share a label

An update of a property writes its object twice: `o.f += v` stands for `o.f = o.f + v` with one tree for both `o`, labels
included.  Nothing else repeats a label.

* `x.at? path` — the node of an expression at a path;
* `x.Copies p q` — `p` and `q` are corresponding places in the two objects of one update;
* `Front` — an expression of a statement with the regions around it; each occurrence stands in one front;
* `Stamped lo hi xs` — expressions with labels of a range that only copies share;
* `Phrase.Reads.stamped` — what is read from tokens is stamped.
-/

namespace ScriptLang

/-- Two elements at different places of a list whose elements are related pairwise. -/
theorem rel_of_pairwise_of_ne {α : Type} {R : α → α → Prop} (hsymm : ∀ {a b}, R a b → R b a) {xs : List α}
    (h : xs.Pairwise R) {i j : Nat} (hij : i ≠ j) {a b : α} (ha : xs[i]? = some a) (hb : xs[j]? = some b) : R a b := by
  obtain ⟨hi, rfl⟩ := List.getElem?_eq_some_iff.1 ha
  obtain ⟨hj, rfl⟩ := List.getElem?_eq_some_iff.1 hb
  have hpairs := List.pairwise_iff_getElem.1 h
  rcases Nat.lt_or_gt_of_ne hij with hlt | hlt
  · exact hpairs i j hi hj hlt
  · exact hsymm (hpairs j i hj hi hlt)

/-! ## nodes by their paths -/

namespace Expr

/-- The parts of an expression, from left to right. -/
def children : Expr → List Expr
  | literal _ => []
  | group x => [x]
  | unary _ x => [x]
  | binary x _ y => [x, y]
  | logical x _ y => [x, y]
  | .variable _ _ => []
  | assign _ _ v => [v]
  | call f _ args => f :: args
  | get o _ => [o]
  | set o _ v => [o, v]
  | this _ _ => []
  | super _ _ _ => []

/-- How the topmost node refers to a binding, if it does. -/
def own? : Expr → Option Occurrence
  | .variable label name => some ⟨.variable, label, name⟩
  | assign label name _ => some ⟨.assign, label, name⟩
  | this label keyword => some ⟨.this, label, keyword⟩
  | super label keyword _ => some ⟨.super, label, keyword⟩
  | _ => none

/-- The node at a path: each number says which part to go to. -/
def at? : Expr → List Nat → Option Expr
  | x, [] => some x
  | x, i :: path => (x.children[i]?).bind (at? · path)

/-- How the node at a path refers to a binding. -/
def occurrenceAt? (x : Expr) (path : List Nat) : Option Occurrence := (x.at? path).bind own?

theorem occurrencesAll_eq_flatMap (xs : List Expr) : occurrencesAll xs = xs.flatMap occurrences := by
  induction xs with
  | nil => rfl
  | cons x xs ih => rw [occurrencesAll, ih, List.flatMap_cons]

/-- The occurrences are that of the topmost node and those of the parts. -/
theorem occurrences_eq (x : Expr) : x.occurrences = x.own?.toList ++ x.children.flatMap occurrences := by
  cases x <;> simp [occurrences, own?, children, occurrencesAll_eq_flatMap]

theorem at?_cons {x c : Expr} {i : Nat} (hc : x.children[i]? = some c) (p : List Nat) : x.at? (i :: p) = c.at? p := by
  show (x.children[i]?).bind (at? · p) = _
  rw [hc]
  rfl

theorem at?_append (x : Expr) (p q : List Nat) : x.at? (p ++ q) = (x.at? p).bind (at? · q) := by
  induction p generalizing x with
  | nil => rfl
  | cons i p ih =>
    show (x.children[i]?).bind (at? · (p ++ q)) = ((x.children[i]?).bind (at? · p)).bind (at? · q)
    cases x.children[i]? with
    | none => rfl
    | some c => exact ih c

theorem occurrenceAt?_cons (x : Expr) (i : Nat) (p : List Nat) :
    x.occurrenceAt? (i :: p) = (x.children[i]?).bind (occurrenceAt? · p) := by
  unfold occurrenceAt?
  show ((x.children[i]?).bind (at? · p)).bind own? = _
  cases x.children[i]? <;> rfl

theorem occurrenceAt?_of_at? {x y : Expr} {p : List Nat} (h : x.at? p = some y) (q : List Nat) :
    x.occurrenceAt? (p ++ q) = y.occurrenceAt? q := by
  unfold occurrenceAt?
  rw [at?_append, h]
  rfl

/-- What stands at a path is an occurrence of the expression. -/
theorem mem_occurrences_of_at {x : Expr} {p : List Nat} {o : Occurrence} (h : x.occurrenceAt? p = some o) :
    o ∈ x.occurrences := by
  induction p generalizing x with
  | nil =>
    rw [occurrences_eq]
    have hown : x.own? = some o := h
    rw [hown]
    exact List.mem_append_left _ List.mem_cons_self
  | cons i p ih =>
    rw [occurrenceAt?_cons] at h
    obtain ⟨c, hc, ho⟩ := Option.bind_eq_some_iff.1 h
    rw [occurrences_eq]
    exact List.mem_append_right _ (List.mem_flatMap.2 ⟨c, List.mem_of_getElem? hc, ih ho⟩)

/-! ## copies -/

/-- The tree of an update of a property. -/
def update (object : Expr) (name operator : Token) (value : Expr) : Expr :=
  .set object name (.binary (.get object name) operator value)

/-- Two places that correspond in the two objects of one update. -/
inductive Copies (x : Expr) : List Nat → List Nat → Prop
  | intro {object value : Expr} {name operator : Token} (path : List Nat)
      (h : x.at? path = some (update object name operator value)) (place : List Nat) :
      Copies x (path ++ 0 :: place) (path ++ 1 :: 0 :: 0 :: place)

/-- Places that corresponding steps lead to, through updates at any depth. -/
abbrev Twins (x : Expr) : List Nat → List Nat → Prop := Relation.EqvGen x.Copies

variable {x c : Expr} {p q : List Nat}

/-- What corresponds is alike. -/
theorem Copies.occurrenceAt?_eq (h : x.Copies p q) : x.occurrenceAt? p = x.occurrenceAt? q := by
  obtain ⟨path, hpath, place⟩ := h
  rw [occurrenceAt?_of_at? hpath, occurrenceAt?_of_at? hpath]
  rfl

theorem Twins.occurrenceAt?_eq (h : x.Twins p q) : x.occurrenceAt? p = x.occurrenceAt? q := by
  induction h with
  | rel _ _ h => exact h.occurrenceAt?_eq
  | refl _ => rfl
  | symm _ _ _ ih => exact ih.symm
  | trans _ _ _ _ _ ih₁ ih₂ => exact ih₁.trans ih₂

theorem Copies.inside {i : Nat} (hc : x.children[i]? = some c) (h : c.Copies p q) : x.Copies (i :: p) (i :: q) := by
  obtain ⟨path, hpath, place⟩ := h
  exact .intro (i :: path) ((at?_cons hc path).trans hpath) place

/-- Places in a part are places in the whole. -/
theorem Twins.inside {i : Nat} (hc : x.children[i]? = some c) (h : c.Twins p q) : x.Twins (i :: p) (i :: q) := by
  induction h with
  | rel _ _ h => exact .rel _ _ (h.inside hc)
  | refl _ => exact .refl _
  | symm _ _ _ ih => exact .symm _ _ ih
  | trans _ _ _ _ _ ih₁ ih₂ => exact .trans _ _ _ ih₁ ih₂

/-- Places that correspond in an expression with one part are places in the part. -/
theorem Twins.outside (hx : x.children = [c]) (h : x.Twins p q) :
    p = q ∨ ∃ p' q', p = 0 :: p' ∧ q = 0 :: q' ∧ c.Twins p' q' := by
  induction h with
  | rel p q h =>
    obtain ⟨path, hpath, place⟩ := h
    cases path with
    | nil =>
      obtain rfl := Option.some.inj hpath
      cases hx
    | cons i path =>
      have hpart : (x.children[i]?).bind (Expr.at? · path) = some (.update _ _ _ _) := hpath
      rw [hx] at hpart
      cases i with
      | zero => exact .inr ⟨_, _, rfl, rfl, .rel _ _ (.intro path hpart place)⟩
      | succ i => cases hpart
  | refl _ => exact .inl rfl
  | symm _ _ _ ih =>
    rcases ih with rfl | ⟨p', q', rfl, rfl, h⟩
    · exact .inl rfl
    · exact .inr ⟨q', p', rfl, rfl, .symm _ _ h⟩
  | trans _ _ _ _ _ ih₁ ih₂ =>
    rcases ih₁ with rfl | ⟨p', q', rfl, rfl, h₁⟩
    · exact ih₂
    · rcases ih₂ with rfl | ⟨q'', r', hq, rfl, h₂⟩
      · exact .inr ⟨p', q', rfl, rfl, h₁⟩
      · obtain rfl := (List.cons.inj hq).2
        exact .inr ⟨p', r', rfl, rfl, .trans _ _ _ h₁ h₂⟩

/-- Only places that correspond have the same label. -/
def Single (x : Expr) : Prop :=
  ∀ p q o u, x.occurrenceAt? p = some o → x.occurrenceAt? q = some u → o.label = u.label → x.Twins p q

/-- Two expressions have no label in common. -/
def Apart (x y : Expr) : Prop := ∀ o ∈ x.occurrences, ∀ u ∈ y.occurrences, o.label ≠ u.label

theorem Apart.symm {x y : Expr} (h : Apart x y) : Apart y x := fun o ho u hu he => h u hu o ho he.symm

theorem Single.part (hx : x.children = [c]) (h : x.Single) : c.Single := by
  intro p q o u hp hq he
  have hcons : ∀ r, x.occurrenceAt? (0 :: r) = c.occurrenceAt? r := by
    intro r
    rw [occurrenceAt?_cons, hx]
    rfl
  have htwins := h (0 :: p) (0 :: q) o u ((hcons p).trans hp) ((hcons q).trans hq) he
  rcases htwins.outside hx with heq | ⟨p', q', hp', hq', ht⟩
  · obtain rfl := (List.cons.inj heq).2
    exact .refl _
  · obtain rfl := (List.cons.inj hp').2
    obtain rfl := (List.cons.inj hq').2
    exact ht

/-- An expression whose parts have no label in common, nor one with the topmost node. -/
theorem Single.of_children (hchildren : ∀ c ∈ x.children, c.Single) (hapart : x.children.Pairwise Apart)
    (hown : ∀ o ∈ x.own?, ∀ c ∈ x.children, ∀ u ∈ c.occurrences, o.label ≠ u.label) : x.Single := by
  intro p q o u hp hq he
  cases p with
  | nil =>
    cases q with
    | nil => exact .refl _
    | cons j q =>
      rw [occurrenceAt?_cons] at hq
      obtain ⟨c, hc, hu⟩ := Option.bind_eq_some_iff.1 hq
      exact absurd he (hown o hp c (List.mem_of_getElem? hc) u (mem_occurrences_of_at hu))
  | cons i p =>
    rw [occurrenceAt?_cons] at hp
    obtain ⟨c, hc, ho⟩ := Option.bind_eq_some_iff.1 hp
    cases q with
    | nil => exact absurd he.symm (hown u hq c (List.mem_of_getElem? hc) o (mem_occurrences_of_at ho))
    | cons j q =>
      rw [occurrenceAt?_cons] at hq
      obtain ⟨d, hd, hu⟩ := Option.bind_eq_some_iff.1 hq
      by_cases hij : i = j
      · subst hij
        obtain rfl := Option.some.inj (hc.symm.trans hd)
        exact (hchildren c (List.mem_of_getElem? hc) p q o u ho hu he).inside hc
      · have hcd : Apart c d := rel_of_pairwise_of_ne Apart.symm hapart hij hc hd
        exact absurd he (hcd o (mem_occurrences_of_at ho) u (mem_occurrences_of_at hu))

/-- Every occurrence of an update stands in the first object, in the place that corresponds to it, or in the value. -/
theorem occurrenceAt?_update {object value : Expr} {name operator : Token} {o : Occurrence}
    (h : (update object name operator value).occurrenceAt? p = some o) :
    (∃ q, (update object name operator value).Twins p (0 :: q) ∧ object.occurrenceAt? q = some o) ∨
      ∃ q, p = 1 :: 1 :: q ∧ value.occurrenceAt? q = some o := by
  match p with
  | [] => cases h
  | 0 :: q => exact .inl ⟨q, .refl _, h⟩
  | [1] => cases h
  | [1, 0] => cases h
  | 1 :: 0 :: 0 :: q => exact .inl ⟨q, .symm _ _ (.rel _ _ (.intro [] rfl q)), h⟩
  | 1 :: 0 :: (k + 1) :: q => cases h
  | 1 :: 1 :: q => exact .inr ⟨q, rfl, h⟩
  | 1 :: (k + 2) :: q => cases h
  | (k + 2) :: q => cases h

theorem Single.update {object value : Expr} {name operator : Token} (ho : object.Single) (hv : value.Single)
    (hapart : Apart object value) : (update object name operator value).Single := by
  intro p q o u hp hq he
  rcases occurrenceAt?_update hp with ⟨p', hpt, hp'⟩ | ⟨p', rfl, hp'⟩ <;>
    rcases occurrenceAt?_update hq with ⟨q', hqt, hq'⟩ | ⟨q', rfl, hq'⟩
  · have hinner : (Expr.update object name operator value).Twins (0 :: p') (0 :: q') :=
      (ho p' q' o u hp' hq' he).inside rfl
    exact .trans _ _ _ hpt (.trans _ _ _ hinner (.symm _ _ hqt))
  · exact absurd he (hapart o (mem_occurrences_of_at hp') u (mem_occurrences_of_at hq'))
  · exact absurd he.symm (hapart u (mem_occurrences_of_at hq') o (mem_occurrences_of_at hp'))
  · have hinner : (Expr.binary (.get object name) operator value).Twins (1 :: p') (1 :: q') :=
      (hv p' q' o u hp' hq' he).inside rfl
    exact hinner.inside rfl

end Expr

/-! ## fronts -/

/-- An expression that is part of a statement, with what the walk over the text knows there. -/
structure Front where
  expression : Expr
  context : Context
  /-- The class whose superclass the expression is, if it is one. -/
  heading : Option String

/-- The sites of the expression. -/
def Front.sites (f : Front) : List Site := f.expression.sites f.context f.heading

/-- The front of an expression that may be absent. -/
def Expr.frontsIn (ctx : Context) (heading : Option String) (x : Option Expr) : List Front :=
  x.toList.map (⟨·, ctx, heading⟩)

mutual

/-- The fronts of a statement, on the same walk as its sites. -/
def Stmt.fronts (ctx : Context) : Stmt → List Front
  | .expr x => [⟨x, ctx, none⟩]
  | .print _ x => [⟨x, ctx, none⟩]
  | .varDecl name x => Expr.frontsIn (ctx.put false name.lexeme) none x
  | .block body => Stmt.frontsAll (ctx.ofBlock body) body
  | .ifThen c t => ⟨c, ctx, none⟩ :: t.fronts ctx
  | .ifElse c t e => ⟨c, ctx, none⟩ :: (t.fronts ctx ++ e.fronts (ctx.after t))
  | .loop c b i => ⟨c, ctx, none⟩ :: (b.fronts ctx ++ Expr.frontsIn (ctx.after b) none i)
  | .funDecl d => d.fronts (ctx.put true d.name.lexeme)
  | .returnFrom _ x => Expr.frontsIn ctx none x
  | .classDecl name s ms =>
    let inner := ctx.put true name.lexeme
    Expr.frontsIn inner (some name.lexeme) s ++ FunctionDecl.frontsAll (Region.only "this" :: inner.ofClass s) ms
  | .breakLoop _ => []
  | .continueLoop _ => []

/-- The fronts of statements, each in the context behind those before it. -/
def Stmt.frontsAll (ctx : Context) : List Stmt → List Front
  | [] => []
  | s :: rest => s.fronts ctx ++ Stmt.frontsAll (ctx.after s) rest

/-- The fronts of a function body. -/
def FunctionDecl.fronts (ctx : Context) : FunctionDecl → List Front
  | .mk _ params body => Stmt.frontsAll (ctx.ofFunction params body) body

/-- The fronts of function bodies that stand side by side. -/
def FunctionDecl.frontsAll (ctx : Context) : List FunctionDecl → List Front
  | [] => []
  | d :: ds => d.fronts ctx ++ FunctionDecl.frontsAll ctx ds

end

theorem Expr.sites_frontsIn (ctx : Context) (heading : Option String) (x : Option Expr) :
    (Expr.frontsIn ctx heading x).flatMap Front.sites = Expr.sitesIn ctx heading x := by
  cases x with
  | none => rfl
  | some x => exact List.append_nil _

mutual

theorem Stmt.sites_fronts {ctx : Context} (s : Stmt) : (s.fronts ctx).flatMap Front.sites = s.sites ctx := by
  cases s with
  | expr x => exact List.append_nil _
  | print keyword x => exact List.append_nil _
  | varDecl name x => exact Expr.sites_frontsIn _ _ x
  | block body => exact Stmt.sites_frontsAll body
  | ifThen c t =>
    simp only [Stmt.fronts, Stmt.sites, List.flatMap_cons]
    rw [Stmt.sites_fronts t]
    rfl
  | ifElse c t e =>
    simp only [Stmt.fronts, Stmt.sites, List.flatMap_cons, List.flatMap_append]
    rw [Stmt.sites_fronts t, Stmt.sites_fronts e, List.append_assoc]
    rfl
  | loop c b i =>
    simp only [Stmt.fronts, Stmt.sites, List.flatMap_cons, List.flatMap_append]
    rw [Stmt.sites_fronts b, Expr.sites_frontsIn, List.append_assoc]
    rfl
  | funDecl d => exact FunctionDecl.sites_fronts d
  | returnFrom keyword x => exact Expr.sites_frontsIn _ _ x
  | classDecl name x ms =>
    simp only [Stmt.fronts, Stmt.sites, List.flatMap_append]
    rw [Expr.sites_frontsIn, FunctionDecl.sites_frontsAll ms]
  | breakLoop keyword => rfl
  | continueLoop keyword => rfl

/-- The sites of statements are those of their fronts. -/
theorem Stmt.sites_frontsAll {ctx : Context} (body : List Stmt) :
    (Stmt.frontsAll ctx body).flatMap Front.sites = Stmt.sitesAll ctx body := by
  cases body with
  | nil => rfl
  | cons s rest =>
    simp only [Stmt.frontsAll, Stmt.sitesAll, List.flatMap_append]
    rw [Stmt.sites_fronts s, Stmt.sites_frontsAll rest]

theorem FunctionDecl.sites_fronts {ctx : Context} (d : FunctionDecl) :
    (d.fronts ctx).flatMap Front.sites = d.sites ctx := by
  cases d with
  | mk name params body => exact Stmt.sites_frontsAll body

theorem FunctionDecl.sites_frontsAll {ctx : Context} (ds : List FunctionDecl) :
    (FunctionDecl.frontsAll ctx ds).flatMap Front.sites = FunctionDecl.sitesAll ctx ds := by
  cases ds with
  | nil => rfl
  | cons d ds =>
    simp only [FunctionDecl.frontsAll, FunctionDecl.sitesAll, List.flatMap_append]
    rw [FunctionDecl.sites_fronts d, FunctionDecl.sites_frontsAll ds]

end

/-! ## stamped expressions -/

/-- Expressions with labels from a range, which only copies in one expression share. -/
structure Stamped (lo hi : Label) (xs : List Expr) : Prop where
  le : lo ≤ hi
  range : ∀ x ∈ xs, ∀ o ∈ x.occurrences, lo ≤ o.label ∧ o.label < hi
  single : ∀ x ∈ xs, x.Single
  apart : xs.Pairwise Expr.Apart

namespace Stamped

variable {lo mid hi l' : Label} {xs ys : List Expr} {x v target : Expr} {op : Token}

theorem nil (h : lo ≤ hi) : Stamped lo hi [] := ⟨h, by simp, by simp, .nil⟩

theorem append (hx : Stamped lo mid xs) (hy : Stamped mid hi ys) : Stamped lo hi (xs ++ ys) := by
  refine ⟨Nat.le_trans hx.le hy.le, ?_, ?_, ?_⟩
  · intro x hmem o ho
    rcases List.mem_append.1 hmem with h | h
    · have hrange := hx.range x h o ho
      exact ⟨hrange.1, Nat.lt_of_lt_of_le hrange.2 hy.le⟩
    · have hrange := hy.range x h o ho
      exact ⟨Nat.le_trans hx.le hrange.1, hrange.2⟩
  · intro x hmem
    rcases List.mem_append.1 hmem with h | h
    · exact hx.single x h
    · exact hy.single x h
  · refine List.pairwise_append.2 ⟨hx.apart, hy.apart, fun x hxs y hys o ho u hu he => ?_⟩
    have hbefore := (hx.range x hxs o ho).2
    have hbehind := (hy.range y hys u hu).1
    rw [he] at hbefore
    exact Nat.lt_irrefl _ (Nat.lt_of_lt_of_le hbefore hbehind)

theorem perm (h : Stamped lo hi xs) (hp : xs.Perm ys) : Stamped lo hi ys :=
  ⟨h.le, fun x hx => h.range x (hp.mem_iff.2 hx), fun x hx => h.single x (hp.mem_iff.2 hx),
    (hp.pairwise_iff fun hxy => hxy.symm).1 h.apart⟩

theorem widen (h : Stamped mid hi xs) (hl : lo ≤ mid) : Stamped lo hi xs := (Stamped.nil hl).append h

theorem widen_right (h : Stamped lo mid xs) (hl : mid ≤ hi) : Stamped lo hi xs := by
  have happend := h.append (.nil hl)
  rwa [List.append_nil] at happend

/-- A node without a label of its own. -/
theorem node (h : Stamped lo hi x.children) (hown : x.own? = none) : Stamped lo hi [x] := by
  refine ⟨h.le, ?_, ?_, List.pairwise_singleton _ _⟩
  · intro y hy o ho
    obtain rfl := List.mem_singleton.1 hy
    rw [Expr.occurrences_eq, hown, Option.toList_none, List.nil_append] at ho
    obtain ⟨c, hc, ho⟩ := List.mem_flatMap.1 ho
    exact h.range c hc o ho
  · intro y hy
    obtain rfl := List.mem_singleton.1 hy
    refine .of_children h.single h.apart fun o ho => ?_
    rw [hown] at ho
    cases ho

/-- A node with a label that none of its parts has. -/
theorem labelled {o : Occurrence} (h : Stamped lo hi x.children) (hown : x.own? = some o)
    (hl : lo ≤ o.label ∧ o.label < hi) (hfree : ∀ c ∈ x.children, ∀ u ∈ c.occurrences, o.label ≠ u.label) :
    Stamped lo hi [x] := by
  refine ⟨h.le, ?_, ?_, List.pairwise_singleton _ _⟩
  · intro y hy u hu
    obtain rfl := List.mem_singleton.1 hy
    rw [Expr.occurrences_eq, hown] at hu
    rcases List.mem_cons.1 hu with rfl | hu
    · exact hl
    · obtain ⟨c, hc, hu⟩ := List.mem_flatMap.1 hu
      exact h.range c hc u hu
  · intro y hy
    obtain rfl := List.mem_singleton.1 hy
    refine .of_children h.single h.apart fun u hu => ?_
    obtain rfl : o = u := Option.some.inj (hown.symm.trans hu)
    exact hfree

/-- A node without parts. -/
theorem leaf {o : Occurrence} (hx : x.children = []) (hown : x.own? = some o) (hl : o.label = lo) :
    Stamped lo (lo + 1) [x] := by
  refine labelled ?_ hown ⟨Nat.le_of_eq hl.symm, hl ▸ Nat.lt_succ_self _⟩ ?_
  · rw [hx]
    exact .nil (Nat.le_succ lo)
  · rw [hx]
    simp

theorem update {object value : Expr} {name : Token} (ho : Stamped lo mid [object]) (hv : Stamped mid hi [value]) :
    Stamped lo hi [.update object name op value] := by
  have hboth := ho.append hv
  have hapart := List.rel_of_pairwise_cons hboth.apart List.mem_cons_self
  refine ⟨hboth.le, ?_, ?_, List.pairwise_singleton _ _⟩
  · intro y hy o hocc
    obtain rfl := List.mem_singleton.1 hy
    have hmem : o ∈ object.occurrences ∨ o ∈ value.occurrences := by
      simp only [Expr.update, Expr.occurrences, List.mem_append] at hocc
      rcases hocc with h | h | h
      · exact .inl h
      · exact .inl h
      · exact .inr h
    rcases hmem with h | h
    · exact hboth.range object List.mem_cons_self o h
    · exact hboth.range value (List.mem_cons_of_mem _ List.mem_cons_self) o h
  · intro y hy
    obtain rfl := List.mem_singleton.1 hy
    exact .update (ho.single _ List.mem_cons_self) (hv.single _ List.mem_cons_self) hapart

/-- The object of a property. -/
theorem object {object : Expr} {name : Token} (h : Stamped lo hi [.get object name]) : Stamped lo hi [object] := by
  refine ⟨h.le, ?_, ?_, List.pairwise_singleton _ _⟩
  · intro y hy o ho
    obtain rfl := List.mem_singleton.1 hy
    exact h.range _ List.mem_cons_self o ho
  · intro y hy
    obtain rfl := List.mem_singleton.1 hy
    exact (h.single _ List.mem_cons_self).part rfl

theorem assigned (ht : Stamped lo mid [target]) (hv : Stamped mid hi [v]) (h : target.assigned? hi v = some (x, l')) :
    Stamped lo l' [x] := by
  unfold Expr.assigned? at h
  split at h
  · next label name =>
    cases h
    have hnew : Stamped mid (hi + 1) [.assign hi name v] := by
      refine labelled (hv.widen_right (Nat.le_succ hi)) rfl ⟨hv.le, Nat.lt_succ_self hi⟩ fun c hc u hu => ?_
      exact Nat.ne_of_gt (hv.range c hc u hu).2
    exact hnew.widen ht.le
  · cases h
    exact .node (ht.object.append hv) rfl
  · cases h

theorem updated (ht : Stamped lo mid [target]) (hv : Stamped mid hi [v]) (h : target.updated? hi op v = some (x, l')) :
    Stamped lo l' [x] := by
  unfold Expr.updated? at h
  split at h
  · next label name =>
    cases h
    -- the value is read before the two new labels are taken
    have hread : Stamped (hi + 1) (hi + 2) [.variable (hi + 1) name] := leaf rfl rfl rfl
    have hparts : Stamped mid (hi + 2) [v, .variable (hi + 1) name] := (hv.widen_right (Nat.le_succ hi)).append hread
    have hvalue : Stamped mid (hi + 2) [.binary (.variable (hi + 1) name) op v] :=
      node (hparts.perm (List.Perm.swap _ _ _)) rfl
    have hnew : Stamped mid (hi + 2) [.assign hi name (.binary (.variable (hi + 1) name) op v)] := by
      refine labelled hvalue rfl ⟨hv.le, Nat.lt_succ_of_lt (Nat.lt_succ_self hi)⟩ fun c hc u hu => ?_
      obtain rfl := List.mem_singleton.1 hc
      rcases List.mem_cons.1 hu with rfl | hu
      · exact Nat.ne_of_lt (Nat.lt_succ_self hi)
      · exact Nat.ne_of_gt (hv.range v List.mem_cons_self u hu).2
    exact hnew.widen ht.le
  · cases h
    exact ht.object.update hv
  · cases h

theorem one : Stamped lo lo [Rule.one] := .node (.nil (Nat.le_refl lo)) rfl

end Stamped

/-! ## what is read from tokens -/

/-- The expressions of fronts. -/
def Front.expressions (fs : List Front) : List Expr := fs.map Front.expression

theorem Front.expressions_append (fs gs : List Front) : expressions (fs ++ gs) = expressions fs ++ expressions gs :=
  List.map_append

theorem Front.expressions_frontsIn (ctx : Context) (heading : Option String) (x : Option Expr) :
    expressions (Expr.frontsIn ctx heading x) = x.toList := by
  cases x <;> rfl

/-- How the expressions of a phrase are stamped; of the operands and calls behind an expression, what they make of it. -/
def Phrase.Stamps (lo hi : Label) : Phrase → Prop
  | .expression x => Stamped lo hi [x]
  | .binary _ x => Stamped lo hi [x]
  | .operand _ x => Stamped lo hi [x]
  | .binaryRest _ left x => ∀ l, Stamped l lo [left] → Stamped l hi [x]
  | .unary x => Stamped lo hi [x]
  | .call x => Stamped lo hi [x]
  | .callRest f x => ∀ l, Stamped l lo [f] → Stamped l hi [x]
  | .arguments xs => Stamped lo hi xs
  | .argumentList _ xs => Stamped lo hi xs
  | .primary x => Stamped lo hi [x]
  | .varDeclaration s => ∀ ctx, Stamped lo hi (Front.expressions (s.fronts ctx))
  | .expressionStatement s => ∀ ctx, Stamped lo hi (Front.expressions (s.fronts ctx))
  | .forInitializer s => ∀ ctx, Stamped lo hi (Front.expressions (s.elim [] (Stmt.fronts ctx)))
  | .forCondition x => Stamped lo hi [x]
  | .forIncrement x => Stamped lo hi x.toList
  | .statement _ s => ∀ ctx, Stamped lo hi (Front.expressions (s.fronts ctx))
  | .declaration s => ∀ ctx, Stamped lo hi (Front.expressions (s.fronts ctx))
  | .declarations body => ∀ ctx, Stamped lo hi (Front.expressions (Stmt.frontsAll ctx body))
  | .parameters _ => lo ≤ hi
  | .parameterNames _ _ => lo ≤ hi
  | .function d => ∀ ctx, Stamped lo hi (Front.expressions (d.fronts ctx))
  | .superclass x => Stamped lo hi x.toList
  | .methods ds => ∀ ctx, Stamped lo hi (Front.expressions (FunctionDecl.frontsAll ctx ds))

namespace Stamped

variable {lo l₁ l₂ l₃ hi : Label} {c : Expr} {body : Stmt} {i : Option Expr} {ctx : Context} {fs gs : List Front}

theorem fronts_append (hf : Stamped lo l₁ (Front.expressions fs)) (hg : Stamped l₁ hi (Front.expressions gs)) :
    Stamped lo hi (Front.expressions (fs ++ gs)) := by
  rw [Front.expressions_append]
  exact hf.append hg

theorem frontsIn {heading : Option String} {x : Option Expr} (h : Stamped lo hi x.toList) :
    Stamped lo hi (Front.expressions (Expr.frontsIn ctx heading x)) := by
  rw [Front.expressions_frontsIn]
  exact h

/-- The increment of a loop is read before its body and stands behind it. -/
theorem loop (hc : Stamped lo l₁ [c]) (hn : Stamped l₁ l₂ i.toList)
    (hb : ∀ ctx, Stamped l₂ hi (Front.expressions (body.fronts ctx))) :
    Stamped lo hi (Front.expressions ((Stmt.loop c body i).fronts ctx)) := by
  have hread : Stamped l₁ hi (i.toList ++ Front.expressions (body.fronts ctx)) := hn.append (hb ctx)
  have hstands : Stamped lo hi ([c] ++ (Front.expressions (body.fronts ctx) ++ i.toList)) :=
    hc.append (hread.perm List.perm_append_comm)
  rwa [← Front.expressions_frontsIn (ctx.after body) none i, ← Front.expressions_append] at hstands

theorem forLoop {first : Option Stmt} (hf : ∀ ctx, Stamped lo l₁ (Front.expressions (first.elim [] (Stmt.fronts ctx))))
    (hc : Stamped l₁ l₂ [c]) (hn : Stamped l₂ l₃ i.toList)
    (hb : ∀ ctx, Stamped l₃ hi (Front.expressions (body.fronts ctx))) :
    Stamped lo hi (Front.expressions ((Stmt.forLoop first c body i).fronts ctx)) := by
  cases first with
  | none => exact (loop hc hn hb).widen (hf ctx).le
  | some s =>
    have hloop : Stamped l₁ hi
        (Front.expressions ((Stmt.loop c body i).fronts ((ctx.ofBlock [s, .loop c body i]).after s))) :=
      loop hc hn hb
    have hboth := (hf (ctx.ofBlock [s, .loop c body i])).fronts_append hloop
    simpa [Stmt.forLoop, Stmt.fronts, Stmt.frontsAll] using hboth

end Stamped

theorem Level.children_node (l : Level) (left right : Expr) (t : Token) :
    (l.node left t right).children = [left, right] ∧ (l.node left t right).own? = none := by
  cases l <;> exact ⟨rfl, rfl⟩

/-- Reading stamps expressions with the labels it uses up. -/
theorem Phrase.Reads.stamped {p : Phrase} {lo hi : Label} {ts : List Token} (h : p.Reads lo ts hi) :
    p.Stamps lo hi := by
  induction h with
  | operators _ ih => exact ih
  | assign _ _ _ hx iht ihv => exact iht.assigned ihv hx
  | update _ _ _ hx iht ihv => exact iht.updated ihv hx
  | binary _ _ ihl ihr => exact ihr _ ihl
  | tighter _ _ ih => exact ih
  | tightest _ _ ih => exact ih
  | binaryEnd => exact fun l hl => hl
  | @binaryMore level left right _ _ t _ _ _ _ _ _ _ ihr ih =>
    intro l hl
    obtain ⟨hchildren, hown⟩ := level.children_node left right t
    have hboth := hl.append ihr
    refine ih l (.node ?_ hown)
    rw [hchildren]
    exact hboth
  | sign _ _ ih => exact .node ih rfl
  | stepBefore _ _ hx ih => exact ih.updated .one hx
  | stepBehind _ _ hx ih => exact ih.updated .one hx
  | noStep _ ih => exact ih
  | call _ _ ihf ihr => exact ihr _ ihf
  | callEnd => exact fun l hl => hl
  | callArguments _ _ _ _ iha ih => exact fun l hl => ih l (.node (hl.append iha) rfl)
  | callProperty _ _ _ ih => exact fun l hl => ih l (.node hl rfl)
  | noArguments => exact .nil (Nat.le_refl _)
  | someArguments _ ih => exact ih
  | lastArgument _ _ ih => exact ih
  | moreArguments _ _ _ _ ihx ihxs => exact ihx.append ihxs
  | constant _ => exact .node (.nil (Nat.le_refl _)) rfl
  | identifier _ => exact .leaf rfl rfl rfl
  | this _ => exact .leaf rfl rfl rfl
  | super _ _ _ => exact .leaf rfl rfl rfl
  | group _ _ _ ih => exact .node ih rfl
  | varPlain _ _ => exact fun ctx => .nil (Nat.le_refl _)
  | varValue _ _ _ _ ih => exact fun ctx => ih
  | expressionStatement _ _ ih => exact fun ctx => ih
  | noInitializer _ => exact fun ctx => .nil (Nat.le_refl _)
  | varInitializer _ _ ih => exact ih
  | expressionInitializer _ ih => exact ih
  | noCondition => exact .node (.nil (Nat.le_refl _)) rfl
  | someCondition _ ih => exact ih
  | noIncrement => exact .nil (Nat.le_refl _)
  | someIncrement _ ih => exact ih
  | forLoop _ _ _ _ _ _ _ _ ihf ihc ihi ihb => exact fun ctx => .forLoop ihf ihc ihi ihb
  | ifThen _ _ _ _ _ ihc ihs => exact fun ctx => ihc.append (ihs ctx)
  | @ifElse _ c s e _ _ _ _ _ _ _ _ _ _ _ _ _ _ _ _ _ _ ihc iht ihe =>
    exact fun ctx => ihc.append ((iht ctx).fronts_append (ihe (ctx.after s)))
  | whileLoop _ _ _ _ _ ihc ihs => exact fun ctx => .loop ihc (.nil (Nat.le_refl _)) ihs
  | returnNothing _ _ => exact fun ctx => .nil (Nat.le_refl _)
  | returnValue _ _ _ ih => exact fun ctx => ih
  | breakLoop _ _ => exact fun ctx => .nil (Nat.le_refl _)
  | continueLoop _ _ => exact fun ctx => .nil (Nat.le_refl _)
  | block _ _ _ ih => exact fun ctx => ih _
  | print _ _ _ ih => exact fun ctx => ih
  | expressionOnly _ ih => exact ih
  | classDecl _ _ _ _ _ _ ihs ihm => exact fun ctx => ihs.frontsIn.fronts_append (ihm _)
  | funDecl _ _ ih => exact fun ctx => ih _
  | varDecl _ _ ih => exact ih
  | noDeclaration _ ih => exact ih
  | declarationsEnd => exact fun ctx => .nil (Nat.le_refl _)
  | declarationsMore _ _ ihs ihb => exact fun ctx => (ihs ctx).fronts_append (ihb _)
  | noParameters => exact Nat.le_refl _
  | someParameters _ ih => exact ih
  | lastParameter _ _ => exact Nat.le_refl _
  | moreParameters _ _ _ _ ih => exact ih
  | function _ _ _ _ _ _ _ ihp ihb => exact fun ctx => (ihb _).widen ihp
  | noSuperclass => exact .nil (Nat.le_refl _)
  | someSuperclass _ _ => exact .leaf rfl rfl rfl
  | methodsEnd => exact fun ctx => .nil (Nat.le_refl _)
  | methodsMore _ _ ihd ihds => exact fun ctx => (ihd ctx).fronts_append (ihds ctx)

/-! ## records -/

section

open Findings

variable {place : Place} {scopes : Scopes} {p : Label × Nat}

theorem Findings.gives_of_occurrence {o : Occurrence}
    (h : p ∈ (Findings.occurrence scopes o.label o.name).distances) : Occurrence.Gives scopes [o] p :=
  ⟨o, List.mem_cons_self, mem_distances_occurrence.1 h⟩

mutual

/-- A distance that the walk over an expression records is that of an occurrence, whether the walk finds faults or not. -/
theorem Expr.gives_of_mem (x : Expr) (h : p ∈ (x.resolve place scopes).distances) :
    Occurrence.Gives scopes x.occurrences p := by
  cases x with
  | literal v => cases h
  | group x => exact Expr.gives_of_mem x h
  | unary op x => exact Expr.gives_of_mem x h
  | binary x op y =>
    rcases List.mem_append.1 h with h | h
    · exact Occurrence.gives_append.2 (.inl (Expr.gives_of_mem x h))
    · exact Occurrence.gives_append.2 (.inr (Expr.gives_of_mem y h))
  | logical x op y =>
    rcases List.mem_append.1 h with h | h
    · exact Occurrence.gives_append.2 (.inl (Expr.gives_of_mem x h))
    · exact Occurrence.gives_append.2 (.inr (Expr.gives_of_mem y h))
  | «variable» label name =>
    simp only [Expr.resolve, distances_append, distances_faultIf, List.nil_append] at h
    exact gives_of_occurrence (o := ⟨.variable, label, name⟩) h
  | assign label name v =>
    rcases List.mem_append.1 h with h | h
    · exact Occurrence.gives_cons.2 (.inr (Expr.gives_of_mem v h))
    · exact Occurrence.gives_cons.2 (.inl (mem_distances_occurrence.1 h))
  | call f paren args =>
    rcases List.mem_append.1 h with h | h
    · exact Occurrence.gives_append.2 (.inl (Expr.gives_of_mem f h))
    · exact Occurrence.gives_append.2 (.inr (Expr.gives_of_memAll args h))
  | get x name => exact Expr.gives_of_mem x h
  | set x name v =>
    rcases List.mem_append.1 h with h | h
    · exact Occurrence.gives_append.2 (.inl (Expr.gives_of_mem x h))
    · exact Occurrence.gives_append.2 (.inr (Expr.gives_of_mem v h))
  | this label keyword =>
    simp only [Expr.resolve] at h
    split at h
    · cases h
    · exact gives_of_occurrence (o := ⟨.this, label, keyword⟩) h
  | super label keyword method =>
    simp only [Expr.resolve] at h
    split at h
    · cases h
    · cases h
    · exact gives_of_occurrence (o := ⟨.super, label, keyword⟩) h

theorem Expr.gives_of_memAll (xs : List Expr) (h : p ∈ (Expr.resolveAll place scopes xs).distances) :
    Occurrence.Gives scopes (Expr.occurrencesAll xs) p := by
  cases xs with
  | nil => cases h
  | cons x xs =>
    rcases List.mem_append.1 h with h | h
    · exact Occurrence.gives_append.2 (.inl (Expr.gives_of_mem x h))
    · exact Occurrence.gives_append.2 (.inr (Expr.gives_of_memAll xs h))

end

variable {ctx : Context} {heading : Option String}

theorem Expr.gives_sites_of_mem {x : Expr} (h : p ∈ (x.resolve place ctx.scopes).distances) :
    Site.Gives (x.sites ctx heading) p := Site.gives_sites.2 (x.gives_of_mem h)

theorem Expr.gives_sites_of_memIn {x : Option Expr} (h : p ∈ (Expr.resolveIn place ctx.scopes x).distances) :
    Site.Gives (Expr.sitesIn ctx heading x) p := by
  cases x with
  | none => cases h
  | some x => exact Expr.gives_sites_of_mem h

end

section

open Findings

mutual

theorem Stmt.gives_of_mem {place : Place} {ctx : Context} {p : Label × Nat} (s : Stmt)
    (h : p ∈ (s.resolve place ctx.scopes).distances) : Site.Gives (s.sites ctx) p := by
  cases s with
  | expr x => exact Expr.gives_sites_of_mem h
  | print keyword x => exact Expr.gives_sites_of_mem h
  | varDecl name x =>
    simp only [Stmt.resolve, distances_append, redeclared_distances, List.nil_append, ← Context.scopes_put] at h
    exact Expr.gives_sites_of_memIn h
  | block body =>
    simp only [Stmt.resolve, ← Context.scopes_ofBlock ctx body] at h
    exact Stmt.gives_of_memAll body h
  | ifThen c t =>
    rcases List.mem_append.1 h with h | h
    · exact Site.gives_append.2 (.inl (Expr.gives_sites_of_mem h))
    · exact Site.gives_append.2 (.inr (Stmt.gives_of_mem t h))
  | ifElse c t e =>
    simp only [Stmt.resolve, distances_append, List.mem_append, ← Context.scopes_after] at h
    rcases h with (h | h) | h
    · exact Site.gives_append.2 (.inl (Site.gives_append.2 (.inl (Expr.gives_sites_of_mem h))))
    · exact Site.gives_append.2 (.inl (Site.gives_append.2 (.inr (Stmt.gives_of_mem t h))))
    · exact Site.gives_append.2 (.inr (Stmt.gives_of_mem e h))
  | loop c b i =>
    simp only [Stmt.resolve, distances_append, List.mem_append, ← Context.scopes_after] at h
    rcases h with (h | h) | h
    · exact Site.gives_append.2 (.inl (Site.gives_append.2 (.inl (Expr.gives_sites_of_mem h))))
    · exact Site.gives_append.2 (.inl (Site.gives_append.2 (.inr (Stmt.gives_of_mem b h))))
    · exact Site.gives_append.2 (.inr (Expr.gives_sites_of_memIn h))
  | funDecl d =>
    simp only [Stmt.resolve, distances_append, redeclared_distances, List.nil_append, ← Context.scopes_put] at h
    exact FunctionDecl.gives_of_mem d h
  | returnFrom keyword x =>
    simp only [Stmt.resolve, distances_append, distances_faultIf, List.nil_append] at h
    exact Expr.gives_sites_of_memIn h
  | classDecl name x ms =>
    simp only [Stmt.resolve, distances_append, redeclared_distances, selfInheritance_distances, List.nil_append,
      List.mem_append, ← Context.scopes_put, ← Context.scopes_ofClass] at h
    rcases h with h | h
    · exact Site.gives_append.2 (.inl (Expr.gives_sites_of_memIn h))
    · exact Site.gives_append.2 (.inr (FunctionDecl.gives_of_memAll ms h))
  | breakLoop keyword => simp [Stmt.resolve] at h
  | continueLoop keyword => simp [Stmt.resolve] at h

/-- A distance that the walk over statements records is that of a site, whether the walk finds faults or not. -/
theorem Stmt.gives_of_memAll {place : Place} {ctx : Context} {p : Label × Nat} (body : List Stmt)
    (h : p ∈ (Stmt.resolveAll place ctx.scopes body).distances) : Site.Gives (Stmt.sitesAll ctx body) p := by
  cases body with
  | nil => cases h
  | cons s rest =>
    simp only [Stmt.resolveAll, distances_append, List.mem_append, ← Context.scopes_after] at h
    rcases h with h | h
    · exact Site.gives_append.2 (.inl (Stmt.gives_of_mem s h))
    · exact Site.gives_append.2 (.inr (Stmt.gives_of_memAll rest h))

theorem FunctionDecl.gives_of_mem {place : Place} {ctx : Context} {p : Label × Nat} (d : FunctionDecl)
    (h : p ∈ (d.resolve place ctx.scopes).distances) : Site.Gives (d.sites ctx) p := by
  cases d with
  | mk name params body =>
    simp only [FunctionDecl.resolve, distances_append, resolveParams_distances, List.nil_append,
      ← Context.scopes_ofFunction ctx params body] at h
    exact Stmt.gives_of_memAll body h

theorem FunctionDecl.gives_of_memAll {klass : ClassPlace} {ctx : Context} {p : Label × Nat} (ds : List FunctionDecl)
    (h : p ∈ (FunctionDecl.resolveMethods klass ctx.scopes ds).distances) :
    Site.Gives (FunctionDecl.sitesAll ctx ds) p := by
  cases ds with
  | nil => cases h
  | cons d ds =>
    simp only [FunctionDecl.resolveMethods, distances_append, List.mem_append] at h
    rcases h with h | h
    · exact Site.gives_append.2 (.inl (FunctionDecl.gives_of_mem d h))
    · exact Site.gives_append.2 (.inr (FunctionDecl.gives_of_memAll ds h))

end

end

end ScriptLang
