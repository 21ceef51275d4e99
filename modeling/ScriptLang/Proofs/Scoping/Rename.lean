import Mathlib.Logic.Equiv.Basic
import ScriptLang.Proofs.Running.Guise
import ScriptLang.Proofs.Scoping.Fits

/-!
# Renaming a local variable

* `Address` — where in a program a block or a function stands;
* `Renaming` — a new name for the variable or parameter of a name in the scope at an address;
* `Renaming.apply` — renames the declaration in that scope, and the occurrences of the name that are bound to it;
* `Scopes.Renamed` — the scopes around a node before and after: that scope has its names renamed, others do not;
* `Renaming.resolve_apply` — if no fault is found in a program and the new name does not stand in it, then the same is
  found in the renamed program.

The name is renamed in one direction only.  The proofs use that this is the exchange of the two names wherever the new
one does not occur, and an exchange keeps names apart.
-/

namespace ScriptLang

/-! ## renamings -/

/-- The way from the top of a program down to a statement or a method: the positions on it, the last one first. -/
abbrev Address : Type := List Nat

/-- A new name for a local variable or a parameter.  Names are no keywords. -/
structure Renaming where
  /-- Where the block or the function is that declares it. -/
  scope : Address
  old : String
  new : String
  ordinary_old : Ordinary old
  ordinary_new : Ordinary new

/-- The variables that statements declare in the scope they stand in; functions and classes are not among them. -/
def Stmt.variables : List Stmt → List Token
  | [] => []
  | .varDecl name _ :: rest => name :: Stmt.variables rest
  | _ :: rest => Stmt.variables rest

namespace Renaming

/-- Whether the scope at an address, with parameters and a body, is the one that declares the variable. -/
def hits (r : Renaming) (here : Address) (params : List Token) (body : List Stmt) : Bool :=
  here = r.scope && (params ++ Stmt.variables body).any (·.lexeme = r.old)

/-- A token in a scope, renamed if it has the old name and the scope is the one. -/
def token (r : Renaming) (hit : Bool) (t : Token) : Token :=
  if hit && t.lexeme = r.old then { t with lexeme := r.new } else t

end Renaming

mutual

/-- Renames the variables and the targets of assignments that the scopes around an expression bind to the scope. -/
def Expr.rename (r : Renaming) (Γ : Mask) (scopes : Scopes) : Expr → Expr
  | .literal v => .literal v
  | .group x => .group (x.rename r Γ scopes)
  | .unary op x => .unary op (x.rename r Γ scopes)
  | .binary x op y => .binary (x.rename r Γ scopes) op (y.rename r Γ scopes)
  | .logical x op y => .logical (x.rename r Γ scopes) op (y.rename r Γ scopes)
  | .variable l name => .variable l (r.token (Γ.at (scopes.distance? name.lexeme)) name)
  | .assign l name x => .assign l (r.token (Γ.at (scopes.distance? name.lexeme)) name) (x.rename r Γ scopes)
  | .call f paren xs => .call (f.rename r Γ scopes) paren (Expr.renameAll r Γ scopes xs)
  | .get x name => .get (x.rename r Γ scopes) name
  | .set x name y => .set (x.rename r Γ scopes) name (y.rename r Γ scopes)
  | .this l keyword => .this l keyword
  | .super l keyword name => .super l keyword name

/-- Renames in expressions. -/
def Expr.renameAll (r : Renaming) (Γ : Mask) (scopes : Scopes) : List Expr → List Expr
  | [] => []
  | x :: xs => x.rename r Γ scopes :: Expr.renameAll r Γ scopes xs

end

mutual

/-- Renames in a statement at an address.  The mask says which of the scopes around it is the one; scopes are those that
the walk over the text holds. -/
def Stmt.rename (r : Renaming) (here : Address) (Γ : Mask) (scopes : Scopes) : Stmt → Stmt
  | .expr x => .expr (x.rename r Γ scopes)
  | .print keyword x => .print keyword (x.rename r Γ scopes)
  | .varDecl name x => .varDecl (r.token (Γ 0) name) (x.map (Expr.rename r Γ (scopes.put false name.lexeme)))
  | .block body => .block (Stmt.renameAll r here 0 (Γ.cons (r.hits here [] body)) ([] :: scopes) body)
  | .ifThen c t => .ifThen (c.rename r Γ scopes) (t.rename r (0 :: here) Γ scopes)
  | .ifElse c t e =>
    .ifElse (c.rename r Γ scopes) (t.rename r (0 :: here) Γ scopes) (e.rename r (1 :: here) Γ (scopes.after t))
  | .loop c b i =>
    .loop (c.rename r Γ scopes) (b.rename r (0 :: here) Γ scopes) (i.map (Expr.rename r Γ (scopes.after b)))
  | .funDecl d => .funDecl (d.rename r here Γ (scopes.put true d.name.lexeme))
  | .returnFrom keyword x => .returnFrom keyword (x.map (Expr.rename r Γ scopes))
  | .classDecl name s ms =>
    let inner := scopes.put true name.lexeme
    .classDecl name (s.map (Expr.rename r Γ inner)) (FunctionDecl.renameAll r here 0 (Γ.ofClass s) (inner.ofClass s) ms)
  | .breakLoop keyword => .breakLoop keyword
  | .continueLoop keyword => .continueLoop keyword

/-- Renames in statements, of which the first has a position below an address. -/
def Stmt.renameAll (r : Renaming) (above : Address) (n : Nat) (Γ : Mask) (scopes : Scopes) : List Stmt → List Stmt
  | [] => []
  | s :: rest => s.rename r (n :: above) Γ scopes :: Stmt.renameAll r above (n + 1) Γ (scopes.after s) rest

/-- Renames in a function: its parameters and its body share one scope. -/
def FunctionDecl.rename (r : Renaming) (here : Address) (Γ : Mask) (scopes : Scopes) : FunctionDecl → FunctionDecl
  | .mk name params body =>
    .mk name (params.map (r.token (r.hits here params body)))
      (Stmt.renameAll r here 0 (Γ.cons (r.hits here params body)) (Scopes.declareAll ([] :: scopes) params) body)

/-- Renames in the methods of a class. -/
def FunctionDecl.renameAll (r : Renaming) (above : Address) (n : Nat) (Γ : Mask) (scopes : Scopes) :
    List FunctionDecl → List FunctionDecl
  | [] => []
  | d :: ds => d.rename r (n :: above) Γ scopes :: FunctionDecl.renameAll r above (n + 1) Γ scopes ds

end

/-- Renames a local variable in a program. -/
def Renaming.apply (r : Renaming) (program : List Stmt) : List Stmt :=
  Stmt.renameAll r [] 0 Mask.clear [] program

/-! ## the names of a program -/

/-- The names that occur in an expression. -/
def Expr.names (x : Expr) : List String := x.occurrences.map fun o => o.name.lexeme

/-- The names that occur in an expression that may be absent. -/
def Expr.namesIn (x : Option Expr) : List String := x.elim [] Expr.names

mutual

/-- The names that occur in a statement or are declared in it. -/
def Stmt.names : Stmt → List String
  | .expr x => x.names
  | .print _ x => x.names
  | .varDecl name x => name.lexeme :: Expr.namesIn x
  | .block body => Stmt.namesAll body
  | .ifThen c t => c.names ++ t.names
  | .ifElse c t e => c.names ++ t.names ++ e.names
  | .loop c b i => c.names ++ b.names ++ Expr.namesIn i
  | .funDecl d => d.names
  | .returnFrom _ x => Expr.namesIn x
  | .classDecl name s ms => name.lexeme :: Expr.namesIn s ++ FunctionDecl.namesAll ms
  | .breakLoop _ => []
  | .continueLoop _ => []

/-- The names in statements. -/
def Stmt.namesAll : List Stmt → List String
  | [] => []
  | s :: rest => s.names ++ Stmt.namesAll rest

/-- The names in a function. -/
def FunctionDecl.names : FunctionDecl → List String
  | .mk name params body => name.lexeme :: params.map Token.lexeme ++ Stmt.namesAll body

/-- The names in the methods of a class. -/
def FunctionDecl.namesAll : List FunctionDecl → List String
  | [] => []
  | d :: ds => d.names ++ FunctionDecl.namesAll ds

end

/-! ## the exchange of two names -/

namespace Renaming

variable {r : Renaming} {b b' : Bool} {n k : String} {t : Token}

/-- A name in a scope after the exchange. -/
def name (r : Renaming) (hit : Bool) (n : String) : String := if hit then Equiv.swap r.old r.new n else n

theorem name_injective (b : Bool) : Function.Injective (r.name b) := by
  cases b with
  | true => exact (Equiv.swap r.old r.new).injective
  | false => exact fun _ _ h => h

theorem name_of_ne (ho : n ≠ r.old) (hn : n ≠ r.new) : r.name b n = n := by
  cases b with
  | true => exact Equiv.swap_apply_of_ne_of_ne ho hn
  | false => rfl

@[simp] theorem name_this : r.name b "this" = "this" := name_of_ne r.ordinary_old.1.symm r.ordinary_new.1.symm

@[simp] theorem name_super : r.name b "super" = "super" := name_of_ne r.ordinary_old.2.symm r.ordinary_new.2.symm

/-- Without the new name, an exchange in some scopes keeps names apart, also those of different scopes. -/
theorem name_ne (hk : k ≠ r.new) (hn : n ≠ r.new) (h : k ≠ n) : r.name b k ≠ r.name b' n := by
  by_cases hold : k = r.old
  · subst hold
    rw [name_of_ne (b := b') h.symm hn]
    cases b with
    | true => simpa [name] using hn.symm
    | false => exact h
  · rw [name_of_ne hold hk]
    by_cases hold' : n = r.old
    · subst hold'
      cases b' with
      | true => simpa [name] using hk
      | false => exact h
    · rwa [name_of_ne hold' hn]

theorem lexeme_token (h : t.lexeme ≠ r.new) : (r.token b t).lexeme = r.name b t.lexeme := by
  by_cases hold : t.lexeme = r.old
  · cases b <;> simp [token, name, hold]
  · rw [name_of_ne hold h]
    simp [token, hold]

/-- The name of a function or class is no other after the exchange. -/
theorem name_eq_of_spares (hn : n ≠ r.new) (h : b = true → n ≠ r.old) : r.name b n = n := by
  cases b with
  | true => exact name_of_ne (h rfl) hn
  | false => rfl

theorem token_of_ne (h : b = true → t.lexeme ≠ r.old) : r.token b t = t := by
  cases b with
  | true => simp [token, h rfl]
  | false => simp [token]

end Renaming

/-! ## scopes before and after -/

/-- The scopes around a node before and after: those that the mask marks have their names exchanged, and none has the
new name before. -/
inductive Scopes.Renamed (r : Renaming) : Mask → Scopes → Scopes → Prop
  | nil {Γ} : Renamed r Γ [] []
  | cons {Γ scope scope' outer outer'} (b : Bool) : Assoc.Related (r.name b) Eq scope scope' →
      Assoc.get? scope r.new = none → Renamed r Γ outer outer' →
      Renamed r (Γ.cons b) (scope :: outer) (scope' :: outer')

theorem Assoc.Related.get?_eq {α : Type} {rename : String → String} {m m' : Assoc String α}
    (h : Related rename Eq m m') (hr : Function.Injective rename) (k : String) :
    Assoc.get? m' (rename k) = Assoc.get? m k := by
  have hrel := h.get? hr k
  revert hrel
  cases Assoc.get? m k <;> cases Assoc.get? m' (rename k) <;> intro hrel <;> cases hrel
  · rfl
  · next heq => rw [heq]

/-- A name that is not that of a key is not found. -/
theorem Assoc.Related.get?_eq_none {α : Type} {rename : String → String} {m m' : Assoc String α}
    (h : Related rename Eq m m') {k : String} (hk : ∀ n, (Assoc.get? m n).isSome → rename n ≠ k) :
    Assoc.get? m' k = none := by
  by_contra hne
  have hsome : (Assoc.get? m' k).isSome := Option.isSome_iff_ne_none.2 hne
  obtain ⟨p', hp', rfl⟩ := List.mem_map.1 ((Assoc.get?_isSome_iff m' k).1 hsome)
  obtain ⟨i, hi, hget⟩ := List.mem_iff_getElem.1 hp'
  have hlen : i < m.length := List.Forall₂.length_eq h ▸ hi
  have hpair := List.Forall₂.get h hlen hi
  have hmem : (m.get ⟨i, hlen⟩).1 ∈ Assoc.keys m := List.mem_map_of_mem (List.get_mem m ⟨i, hlen⟩)
  refine hk _ ((Assoc.get?_isSome_iff m _).2 hmem) ?_
  rw [← hget]
  exact hpair.1.symm

theorem Scopes.distance?_of_isSome {n : String} {scope : Scope} {outer : Scopes} (h : (Assoc.get? scope n).isSome) :
    Scopes.distance? n (scope :: outer) = some 0 := if_pos h

theorem Scopes.distance?_of_eq_none {n : String} {scope : Scope} {outer : Scopes} (h : Assoc.get? scope n = none) :
    Scopes.distance? n (scope :: outer) = (Scopes.distance? n outer).map (· + 1) := by
  simp [Scopes.distance?, h]

namespace Scopes.Renamed

variable {r : Renaming} {Γ : Mask} {scopes scopes' : Scopes} {n : String} {names : List Token}

theorem declares (h : Renamed r Γ scopes scopes') (n : String) :
    scopes'.declares (r.name (Γ 0) n) = scopes.declares n := by
  cases h with
  | nil => rfl
  | cons b hs _ _ =>
    show (Assoc.get? _ (r.name b n)).isSome = _
    rw [hs.get?_eq (Renaming.name_injective b)]
    rfl

theorem put (h : Renamed r Γ scopes scopes') (hn : n ≠ r.new) (ready : Bool) :
    Renamed r Γ (scopes.put ready n) (scopes'.put ready (r.name (Γ 0) n)) := by
  cases h with
  | nil => exact .nil
  | cons b hs hnew houter =>
    refine .cons b (hs.set (Renaming.name_injective b) n rfl) ?_ houter
    rwa [Assoc.get?_set_of_ne _ hn]

theorem declareAll (h : Renamed r Γ scopes scopes') (hn : ∀ t ∈ names, t.lexeme ≠ r.new) :
    Renamed r Γ (scopes.declareAll names) (scopes'.declareAll (names.map (r.token (Γ 0)))) := by
  induction names generalizing scopes scopes' with
  | nil => exact h
  | cons name names ih =>
    rw [List.forall_mem_cons] at hn
    have hput := h.put hn.1 true
    rw [← Renaming.lexeme_token hn.1] at hput
    exact ih hput hn.2

/-- The exchanged name is found where the name was. -/
theorem distance? (h : Renamed r Γ scopes scopes') (hn : n ≠ r.new) :
    scopes'.distance? (r.name (Γ.at (scopes.distance? n)) n) = scopes.distance? n := by
  induction h with
  | nil => rfl
  | @cons Γ scope scope' outer outer' b hs hnew _ ih =>
    by_cases hfound : (Assoc.get? scope n).isSome
    · have hsome : (Assoc.get? scope' (r.name b n)).isSome := by rwa [hs.get?_eq (Renaming.name_injective b)]
      rw [distance?_of_isSome hfound]
      exact distance?_of_isSome hsome
    · have hmiss : Assoc.get? scope n = none := Option.not_isSome_iff_eq_none.1 hfound
      have hat : (Mask.cons b Γ).at ((outer.distance? n).map (· + 1)) = Γ.at (outer.distance? n) := by
        cases outer.distance? n <;> rfl
      -- a key of this scope is another name, and stays one after the exchange
      have hnone : Assoc.get? scope' (r.name (Γ.at (outer.distance? n)) n) = none := by
        refine hs.get?_eq_none fun k hk => Renaming.name_ne ?_ hn ?_
        · rintro rfl
          simp [hnew] at hk
        · rintro rfl
          exact hfound hk
      rw [distance?_of_eq_none hmiss, hat, distance?_of_eq_none hnone, ih]

theorem isPending (h : Renamed r Γ scopes scopes') (hn : n ≠ r.new) (hp : scopes.isPending n = false) :
    scopes'.isPending (r.name (Γ.at (scopes.distance? n)) n) = false := by
  have hdistance := h.distance? hn
  cases h with
  | nil => rfl
  | @cons Γ scope scope' outer outer' b hs hnew _ =>
    by_cases hfound : (Assoc.get? scope n).isSome
    · rw [distance?_of_isSome hfound]
      show decide (Assoc.get? scope' (r.name b n) = some false) = false
      rw [hs.get?_eq (Renaming.name_injective b)]
      exact hp
    · -- the name is bound further out, so this scope does not have it after the exchange either
      rw [distance?_of_eq_none (Option.not_isSome_iff_eq_none.1 hfound)] at hdistance ⊢
      have hmiss : ¬ (Assoc.get? scope' (r.name ((Mask.cons b Γ).at ((outer.distance? n).map (· + 1))) n)).isSome := by
        intro hsome
        rw [distance?_of_isSome hsome] at hdistance
        cases hd : outer.distance? n <;> simp [hd] at hdistance
      simp only [Scopes.isPending, Option.not_isSome_iff_eq_none.1 hmiss]
      rfl

theorem only (h : Renamed r Γ scopes scopes') (hn : n ≠ r.new) :
    Renamed r (Γ.cons false) (Scope.only n :: scopes) (Scope.only n :: scopes') :=
  .cons false (.cons ⟨rfl, rfl⟩ .nil) (by simp [Scope.only, Assoc.get?, hn]) h

theorem ofClass (h : Renamed r Γ scopes scopes') {s s' : Option Expr} (hs : s'.isSome = s.isSome) :
    Renamed r (Γ.ofClass s) (scopes.ofClass s) (scopes'.ofClass s') := by
  cases s with
  | none =>
    obtain rfl : s' = none := by simpa using hs
    exact h.only r.ordinary_new.1.symm
  | some x =>
    obtain ⟨x', rfl⟩ := Option.isSome_iff_exists.1 (hs.trans rfl)
    exact (h.only r.ordinary_new.2.symm).only r.ordinary_new.1.symm

end Scopes.Renamed

/-! ## a variable shares its scope with no function or class of its name -/

/-- The names of functions and classes among those that a statement adds to the scope it stands in. -/
def Stmt.fixed : Stmt → List Token
  | .funDecl d => [d.name]
  | .classDecl name _ _ => [name]
  | _ => []

theorem Stmt.mem_declared_of_mem_fixed {s : Stmt} {t : Token} (h : t ∈ s.fixed) : t ∈ s.declared := by
  cases s with
  | funDecl d => exact h
  | classDecl name x ms => exact h
  | _ => cases h

theorem Stmt.exists_of_mem_variables {body : List Stmt} {t : Token} (h : t ∈ Stmt.variables body) :
    ∃ x, Stmt.varDecl t x ∈ body := by
  fun_induction Stmt.variables body with
  | case1 => cases h
  | case2 name x rest ih =>
    rcases List.mem_cons.1 h with rfl | h
    · exact ⟨x, List.mem_cons_self⟩
    · exact (ih h).imp fun _ => List.mem_cons_of_mem _
  | case3 s rest _ ih => exact (ih h).imp fun _ => List.mem_cons_of_mem _

open Findings

section

variable {place : Place} {scopes outer : Scopes} {scope : Scope} {n : String}

theorem Scopes.declares_put_self (h : scopes ≠ []) (ready : Bool) : (scopes.put ready n).declares n = true := by
  cases scopes with
  | nil => exact absurd rfl h
  | cons scope outer => simp [Scopes.put, Scopes.declares]

theorem Scopes.declares_put (h : scopes.declares n = true) (ready : Bool) (name : String) :
    (scopes.put ready name).declares n = true := by
  cases scopes with
  | nil => cases h
  | cons scope outer =>
    simp only [Scopes.put, Scopes.declares, Assoc.get?_set]
    split
    · rfl
    · exact h

theorem Scopes.declares_declareAll (h : scopes.declares n = true) (names : List Token) :
    (scopes.declareAll names).declares n = true := by
  induction names generalizing scopes with
  | nil => exact h
  | cons name names ih => exact ih (Scopes.declares_put h true name.lexeme)

theorem Scopes.declares_of_mem (h : scopes ≠ []) {names : List Token} {t : Token} (ht : t ∈ names) :
    (scopes.declareAll names).declares t.lexeme = true := by
  induction names generalizing scopes with
  | nil => cases ht
  | cons name names ih =>
    rcases List.mem_cons.1 ht with rfl | ht
    · exact Scopes.declares_declareAll (Scopes.declares_put_self h true) names
    · refine ih (List.ne_nil_of_length_pos ?_) ht
      rw [Scopes.length_put]
      exact List.length_pos_iff.2 h

theorem Scopes.declares_of_redeclared {name : Token} (hf : (redeclared scopes name).faults = []) :
    scopes.declares name.lexeme = false := by
  simpa [redeclared] using hf

/-- What a statement declares is not known before. -/
theorem Stmt.not_declares {s : Stmt} (hr : s.Regular) (hf : (s.resolve place scopes).faults = []) {t : Token}
    (ht : t ∈ s.declared) : scopes.declares t.lexeme = false := by
  cases s with
  | varDecl name x =>
    simp only [Stmt.resolve, faults_append, List.append_eq_nil_iff] at hf
    obtain rfl := List.mem_singleton.1 ht
    exact Scopes.declares_of_redeclared hf.1
  | funDecl d =>
    simp only [Stmt.resolve, faults_append, List.append_eq_nil_iff] at hf
    obtain rfl := List.mem_singleton.1 ht
    exact Scopes.declares_of_redeclared hf.1
  | classDecl name x ms =>
    simp only [Stmt.resolve, faults_append, List.append_eq_nil_iff] at hf
    obtain rfl := List.mem_singleton.1 ht
    exact Scopes.declares_of_redeclared hf.1.1.1
  | ifThen c s => simp [Stmt.declared, hr.2.1] at ht
  | ifElse c s e => simp [Stmt.declared, hr.2.1.1, hr.2.2.1] at ht
  | loop c b i => simp [Stmt.declared, hr.2.1.1] at ht
  | _ => cases ht

/-- A name that is known is not declared. -/
theorem Stmt.declared_ne {body : List Stmt} (hr : Stmt.RegularAll body)
    (hf : (Stmt.resolveAll place scopes body).faults = []) (hn : scopes.declares n = true) {s : Stmt} (hs : s ∈ body)
    {t : Token} (ht : t ∈ s.declared) : t.lexeme ≠ n := by
  induction body generalizing scopes with
  | nil => cases hs
  | cons first rest ih =>
    simp only [Stmt.resolveAll, faults_append, List.append_eq_nil_iff] at hf
    rcases List.mem_cons.1 hs with rfl | hs
    · rintro rfl
      rw [Stmt.not_declares hr.1 hf.1 ht] at hn
      cases hn
    · exact ih hr.2 hf.2 (Scopes.declares_declareAll hn _) hs

/-- A function or class has the name of no variable beside it. -/
theorem Stmt.fixed_ne_variable {body : List Stmt} (hr : Stmt.RegularAll body)
    (hf : (Stmt.resolveAll place scopes body).faults = []) (hscopes : scopes ≠ []) {v : Token}
    (hv : v ∈ Stmt.variables body) {s : Stmt} (hs : s ∈ body) {t : Token} (ht : t ∈ s.fixed) :
    t.lexeme ≠ v.lexeme := by
  obtain ⟨x, hvar⟩ := Stmt.exists_of_mem_variables hv
  have hdeclared := Stmt.mem_declared_of_mem_fixed ht
  have hself : v ∈ (Stmt.varDecl v x).declared := List.mem_cons_self
  clear hv
  induction body generalizing scopes with
  | nil => cases hs
  | cons first rest ih =>
    simp only [Stmt.resolveAll, faults_append, List.append_eq_nil_iff] at hf
    have hafter : scopes.after first ≠ [] := by
      refine List.ne_nil_of_length_pos ?_
      rw [Scopes.after, Scopes.length_declareAll]
      exact List.length_pos_iff.2 hscopes
    rcases List.mem_cons.1 hvar with rfl | hrest <;> rcases List.mem_cons.1 hs with rfl | hs
    · cases ht
    · -- the variable stands first
      exact Stmt.declared_ne hr.2 hf.2 (Scopes.declares_of_mem hscopes hself) hs hdeclared
    · -- the function or class stands first
      exact (Stmt.declared_ne hr.2 hf.2 (Scopes.declares_of_mem hscopes hdeclared) hrest hself).symm
    · exact ih hr.2 hf.2 hafter hs hrest

end

/-- A statement in a scope declares no function or class with the old name, if the scope is the one. -/
def Stmt.Spares (r : Renaming) (hit : Bool) (s : Stmt) : Prop := hit = true → ∀ t ∈ s.fixed, t.lexeme ≠ r.old

/-- In the scope that declares the variable no function or class has its name. -/
theorem Stmt.spares_of_hits {r : Renaming} {here : Address} {place : Place} {outer : Scopes} {params : List Token}
    {body : List Stmt} (hr : Stmt.RegularAll body)
    (hf : (Stmt.resolveAll place (Scopes.declareAll ([] :: outer) params) body).faults = []) :
    ∀ s ∈ body, s.Spares r (r.hits here params body) := by
  intro s hs hhit t ht
  simp only [Renaming.hits, Bool.and_eq_true, List.any_eq_true, decide_eq_true_eq] at hhit
  obtain ⟨-, v, hv, hold⟩ := hhit
  have hscopes : Scopes.declareAll ([] :: outer) params ≠ [] := by
    refine List.ne_nil_of_length_pos ?_
    simp
  rw [← hold]
  rcases List.mem_append.1 hv with hv | hv
  · have hdeclares := Scopes.declares_of_mem (List.cons_ne_nil [] outer) hv
    exact Stmt.declared_ne hr hf hdeclares hs (Stmt.mem_declared_of_mem_fixed ht)
  · exact Stmt.fixed_ne_variable hr hf hscopes hv hs ht

/-! ## the walk over the renamed program -/

section

variable {r : Renaming} {place : Place} {Γ : Mask} {scopes scopes' : Scopes}

theorem Expr.regular_of_isName {x : Expr} (h : x.IsName) : x.Regular := by
  cases x with
  | «variable» l name => exact List.forall_mem_singleton.2 h
  | _ => exact h.elim

/-- The occurrences in an expression are proper and have other names than the new one. -/
def Expr.Ready (r : Renaming) (x : Expr) : Prop := ∀ o ∈ x.occurrences, o.Proper ∧ o.name.lexeme ≠ r.new

theorem Expr.ready_of_regular {x : Expr} (hr : x.Regular) (hn : r.new ∉ x.names) : x.Ready r :=
  fun o ho => ⟨hr o ho, fun heq => hn (List.mem_map.2 ⟨o, ho, heq⟩)⟩

theorem Findings.occurrence_renamed (hs : scopes.Renamed r Γ scopes') {name : Token} (hn : name.lexeme ≠ r.new)
    (l : Label) : occurrence scopes' l (r.token (Γ.at (scopes.distance? name.lexeme)) name) =
      occurrence scopes l name := by
  unfold occurrence
  rw [Renaming.lexeme_token hn, hs.distance? hn]

theorem Findings.occurrence_keyword (hs : scopes.Renamed r Γ scopes') {keyword : Token}
    (hk : ∀ b, r.name b keyword.lexeme = keyword.lexeme) (hn : keyword.lexeme ≠ r.new) (l : Label) :
    occurrence scopes' l keyword = occurrence scopes l keyword := by
  have hdistance := hs.distance? hn
  rw [hk] at hdistance
  unfold occurrence
  rw [hdistance]

mutual

theorem Expr.resolve_rename (hs : scopes.Renamed r Γ scopes') (x : Expr) (hx : x.Ready r)
    (hf : (x.resolve place scopes).faults = []) :
    (x.rename r Γ scopes).resolve place scopes' = x.resolve place scopes := by
  cases x with
  | literal v => rfl
  | group x => exact Expr.resolve_rename hs x hx hf
  | unary op x => exact Expr.resolve_rename hs x hx hf
  | binary x op y =>
    simp only [Expr.resolve, faults_append, List.append_eq_nil_iff] at hf
    simp only [Expr.Ready, Expr.occurrences, List.forall_mem_append] at hx
    simp only [Expr.rename, Expr.resolve]
    rw [Expr.resolve_rename hs x hx.1 hf.1, Expr.resolve_rename hs y hx.2 hf.2]
  | logical x op y =>
    simp only [Expr.resolve, faults_append, List.append_eq_nil_iff] at hf
    simp only [Expr.Ready, Expr.occurrences, List.forall_mem_append] at hx
    simp only [Expr.rename, Expr.resolve]
    rw [Expr.resolve_rename hs x hx.1 hf.1, Expr.resolve_rename hs y hx.2 hf.2]
  | «variable» l name =>
    have hn := (hx ⟨.variable, l, name⟩ List.mem_cons_self).2
    simp only [Expr.resolve, faults_append, List.append_eq_nil_iff, faults_faultIf] at hf
    simp only [Expr.rename, Expr.resolve]
    rw [Findings.occurrence_renamed hs hn, Renaming.lexeme_token hn, hs.isPending hn hf.1, hf.1]
    rfl
  | assign l name x =>
    simp only [Expr.resolve, faults_append, List.append_eq_nil_iff] at hf
    simp only [Expr.Ready, Expr.occurrences, List.forall_mem_cons] at hx
    simp only [Expr.rename, Expr.resolve]
    rw [Findings.occurrence_renamed hs hx.1.2, Expr.resolve_rename hs x hx.2 hf.1]
  | call f paren xs =>
    simp only [Expr.resolve, faults_append, List.append_eq_nil_iff] at hf
    simp only [Expr.Ready, Expr.occurrences, List.forall_mem_append] at hx
    simp only [Expr.rename, Expr.resolve]
    rw [Expr.resolve_rename hs f hx.1 hf.1, Expr.resolve_renameAll hs xs hx.2 hf.2]
  | get x name => exact Expr.resolve_rename hs x hx hf
  | set x name y =>
    simp only [Expr.resolve, faults_append, List.append_eq_nil_iff] at hf
    simp only [Expr.Ready, Expr.occurrences, List.forall_mem_append] at hx
    simp only [Expr.rename, Expr.resolve]
    rw [Expr.resolve_rename hs x hx.1 hf.1, Expr.resolve_rename hs y hx.2 hf.2]
  | this l keyword =>
    obtain ⟨hk, hn⟩ := hx ⟨.this, l, keyword⟩ List.mem_cons_self
    have hkeep : ∀ b, r.name b keyword.lexeme = keyword.lexeme := by
      rw [show keyword.lexeme = "this" from hk]
      exact fun _ => Renaming.name_this
    simp only [Expr.rename, Expr.resolve]
    rw [Findings.occurrence_keyword hs hkeep hn]
  | super l keyword name =>
    obtain ⟨hk, hn⟩ := hx ⟨.super, l, keyword⟩ List.mem_cons_self
    have hkeep : ∀ b, r.name b keyword.lexeme = keyword.lexeme := by
      rw [show keyword.lexeme = "super" from hk]
      exact fun _ => Renaming.name_super
    simp only [Expr.rename, Expr.resolve]
    rw [Findings.occurrence_keyword hs hkeep hn]

theorem Expr.resolve_renameAll (hs : scopes.Renamed r Γ scopes') (xs : List Expr)
    (hx : ∀ o ∈ Expr.occurrencesAll xs, o.Proper ∧ o.name.lexeme ≠ r.new)
    (hf : (Expr.resolveAll place scopes xs).faults = []) :
    Expr.resolveAll place scopes' (Expr.renameAll r Γ scopes xs) = Expr.resolveAll place scopes xs := by
  cases xs with
  | nil => rfl
  | cons x xs =>
    simp only [Expr.resolveAll, faults_append, List.append_eq_nil_iff] at hf
    simp only [Expr.occurrencesAll, List.forall_mem_append] at hx
    simp only [Expr.renameAll, Expr.resolveAll]
    rw [Expr.resolve_rename hs x hx.1 hf.1, Expr.resolve_renameAll hs xs hx.2 hf.2]

end

theorem Expr.resolveIn_rename (hs : scopes.Renamed r Γ scopes') {x : Option Expr} (hr : ∀ e ∈ x, Expr.Regular e)
    (hn : r.new ∉ Expr.namesIn x) (hf : (Expr.resolveIn place scopes x).faults = []) :
    Expr.resolveIn place scopes' (x.map (Expr.rename r Γ scopes)) = Expr.resolveIn place scopes x := by
  cases x with
  | none => rfl
  | some e => exact Expr.resolve_rename hs e (Expr.ready_of_regular (hr e rfl) hn) hf

theorem redeclared_renamed (hs : scopes.Renamed r Γ scopes') {name : Token} (hn : name.lexeme ≠ r.new)
    (hf : (redeclared scopes name).faults = []) :
    redeclared scopes' (r.token (Γ 0) name) = redeclared scopes name := by
  have hdeclares : scopes'.declares (r.token (Γ 0) name).lexeme = false := by
    rw [Renaming.lexeme_token hn, hs.declares]
    exact Scopes.declares_of_redeclared hf
  unfold redeclared
  rw [hdeclares, Scopes.declares_of_redeclared hf]
  rfl

theorem resolveParams_renamed (hs : scopes.Renamed r Γ scopes') {params : List Token}
    (hn : ∀ t ∈ params, t.lexeme ≠ r.new) (hf : (resolveParams scopes params).faults = []) :
    resolveParams scopes' (params.map (r.token (Γ 0))) = resolveParams scopes params := by
  induction params generalizing scopes scopes' with
  | nil => rfl
  | cons p ps ih =>
    rw [List.forall_mem_cons] at hn
    simp only [resolveParams, faults_append, List.append_eq_nil_iff] at hf
    have hput := hs.put hn.1 true
    rw [← Renaming.lexeme_token hn.1] at hput
    simp only [List.map_cons, resolveParams]
    rw [redeclared_renamed hs hn.1 hf.1, ih hput hn.2 hf.2]

/-- A superclass with another name than the class keeps another name. -/
theorem selfInheritance_rename {name : Token} (hn : name.lexeme ≠ r.new) {s : Option Expr}
    (hr : r.new ∉ Expr.namesIn s) (hs : ∀ x ∈ s, Expr.IsName x) (hf : (selfInheritance name s).faults = []) :
    selfInheritance name (s.map (Expr.rename r Γ scopes)) = selfInheritance name s := by
  cases s with
  | none => rfl
  | some x =>
    cases x with
    | «variable» l other =>
      have hother : other.lexeme ≠ r.new := fun heq => hr (by simp [Expr.namesIn, Expr.names, Expr.occurrences, heq])
      simp only [selfInheritance, faults_faultIf, decide_eq_false_iff_not] at hf
      have hne : (r.token (Γ.at (scopes.distance? other.lexeme)) other).lexeme ≠ r.name false name.lexeme := by
        rw [Renaming.lexeme_token hother]
        exact Renaming.name_ne hother hn hf
      replace hne : _ ≠ name.lexeme := hne
      simp only [Option.map_some, Expr.rename, selfInheritance]
      rw [decide_eq_false hne, decide_eq_false hf]
      rfl
    | _ => exact (hs _ rfl).elim

theorem Stmt.mem_names_of_mem_declared {s : Stmt} (hr : s.Regular) {t : Token} (ht : t ∈ s.declared) :
    t.lexeme ∈ s.names := by
  cases s with
  | varDecl name x =>
    obtain rfl := List.mem_singleton.1 ht
    exact List.mem_cons_self
  | funDecl d =>
    obtain rfl := List.mem_singleton.1 ht
    cases d
    exact List.mem_cons_self
  | classDecl name x ms =>
    obtain rfl := List.mem_singleton.1 ht
    exact List.mem_cons_self
  | ifThen c s => simp [Stmt.declared, hr.2.1] at ht
  | ifElse c s e => simp [Stmt.declared, hr.2.1.1, hr.2.2.1] at ht
  | loop c b i => simp [Stmt.declared, hr.2.1.1] at ht
  | _ => cases ht

theorem FunctionDecl.name_rename (d : FunctionDecl) {here : Address} : (d.rename r here Γ scopes).name = d.name := by
  cases d
  rfl

/-- A statement that declares nothing spares every name. -/
theorem Stmt.spares_of_declared_eq_nil {s : Stmt} (h : s.declared = []) {b : Bool} : s.Spares r b := by
  intro _ t ht
  have hmem := Stmt.mem_declared_of_mem_fixed ht
  rw [h] at hmem
  cases hmem

/-- A renamed statement declares the renamed names. -/
theorem Stmt.declared_rename {here : Address} {scopes : Scopes} (s : Stmt) (hr : s.Regular) (hs : s.Spares r (Γ 0)) :
    (s.rename r here Γ scopes).declared = s.declared.map (r.token (Γ 0)) := by
  cases s with
  | varDecl name x => rfl
  | funDecl d =>
    have hkeep : r.token (Γ 0) d.name = d.name := Renaming.token_of_ne fun hb => hs hb _ List.mem_cons_self
    simp only [Stmt.rename, Stmt.declared, FunctionDecl.name_rename, List.map_cons, List.map_nil, hkeep]
  | classDecl name x ms =>
    have hkeep : r.token (Γ 0) name = name := Renaming.token_of_ne fun hb => hs hb _ List.mem_cons_self
    simp only [Stmt.rename, Stmt.declared, List.map_cons, List.map_nil, hkeep]
  | ifThen c t =>
    simp only [Stmt.rename, Stmt.declared]
    exact Stmt.declared_rename t hr.2.2 (Stmt.spares_of_declared_eq_nil hr.2.1)
  | ifElse c t e =>
    obtain ⟨-, ⟨hd, hrt⟩, hd', hre⟩ := hr
    simp only [Stmt.rename, Stmt.declared, List.map_append]
    rw [Stmt.declared_rename t hrt (Stmt.spares_of_declared_eq_nil hd),
      Stmt.declared_rename e hre (Stmt.spares_of_declared_eq_nil hd')]
  | loop c b i =>
    simp only [Stmt.rename, Stmt.declared]
    exact Stmt.declared_rename b hr.2.1.2 (Stmt.spares_of_declared_eq_nil hr.2.1.1)
  | _ => rfl

theorem Scopes.Renamed.after (h : scopes.Renamed r Γ scopes') {here : Address} {s : Stmt} (hr : s.Regular)
    (hn : r.new ∉ s.names) (hs : s.Spares r (Γ 0)) :
    (scopes.after s).Renamed r Γ (scopes'.after (s.rename r here Γ scopes)) := by
  unfold Scopes.after
  rw [Stmt.declared_rename s hr hs]
  refine h.declareAll fun t ht heq => ?_
  exact hn (heq ▸ Stmt.mem_names_of_mem_declared hr ht)

/-- The mask of a scope that has nothing in it yet. -/
theorem Scopes.Renamed.enter (h : scopes.Renamed r Γ scopes') (b : Bool) :
    Renamed r (Γ.cons b) ([] :: scopes) ([] :: scopes') :=
  .cons b .nil rfl h

end

mutual

/-- Where no fault is found, the same is found after renaming. -/
theorem Stmt.resolve_rename {r : Renaming} {here : Address} {place : Place} {Γ : Mask} {scopes scopes' : Scopes}
    (hs : scopes.Renamed r Γ scopes') (s : Stmt) (hr : s.Regular) (hn : r.new ∉ s.names) (hspare : s.Spares r (Γ 0))
    (hf : (s.resolve place scopes).faults = []) :
    (s.rename r here Γ scopes).resolve place scopes' = s.resolve place scopes := by
  cases s with
  | expr x => exact Expr.resolve_rename hs x (Expr.ready_of_regular hr hn) hf
  | print keyword x => exact Expr.resolve_rename hs x (Expr.ready_of_regular hr hn) hf
  | varDecl name x =>
    simp only [Stmt.resolve, faults_append, List.append_eq_nil_iff] at hf
    simp only [Stmt.names, List.mem_cons, not_or] at hn
    have hname : name.lexeme ≠ r.new := fun heq => hn.1 heq.symm
    have hput := hs.put hname false
    rw [← Renaming.lexeme_token hname] at hput
    simp only [Stmt.rename, Stmt.resolve]
    rw [redeclared_renamed hs hname hf.1, Expr.resolveIn_rename hput hr.2 hn.2 hf.2]
  | block body =>
    have hspares : ∀ s ∈ body, s.Spares r (r.hits here [] body) := Stmt.spares_of_hits hr hf
    exact Stmt.resolve_renameAll (hs.enter _) body hr hn hspares hf
  | ifThen c t =>
    simp only [Stmt.resolve, faults_append, List.append_eq_nil_iff] at hf
    simp only [Stmt.names, List.mem_append, not_or] at hn
    obtain ⟨hrc, hd, hrt⟩ := hr
    simp only [Stmt.rename, Stmt.resolve]
    rw [Expr.resolve_rename hs c (Expr.ready_of_regular hrc hn.1) hf.1,
      Stmt.resolve_rename hs t hrt hn.2 (Stmt.spares_of_declared_eq_nil hd) hf.2]
  | ifElse c t e =>
    simp only [Stmt.resolve, faults_append, List.append_eq_nil_iff] at hf
    simp only [Stmt.names, List.mem_append, not_or] at hn
    obtain ⟨hrc, ⟨hd, hrt⟩, hd', hre⟩ := hr
    have hsparet : t.Spares r (Γ 0) := Stmt.spares_of_declared_eq_nil hd
    have hafter : (scopes.after t).Renamed r Γ (scopes'.after (t.rename r (0 :: here) Γ scopes)) :=
      hs.after hrt hn.1.2 hsparet
    simp only [Stmt.rename, Stmt.resolve]
    rw [Expr.resolve_rename hs c (Expr.ready_of_regular hrc hn.1.1) hf.1.1,
      Stmt.resolve_rename hs t hrt hn.1.2 hsparet hf.1.2,
      Stmt.resolve_rename hafter e hre hn.2 (Stmt.spares_of_declared_eq_nil hd') hf.2]
  | loop c b i =>
    simp only [Stmt.resolve, faults_append, List.append_eq_nil_iff] at hf
    simp only [Stmt.names, List.mem_append, not_or] at hn
    obtain ⟨hrc, ⟨hd, hrb⟩, hri⟩ := hr
    have hspareb : b.Spares r (Γ 0) := Stmt.spares_of_declared_eq_nil hd
    have hafter : (scopes.after b).Renamed r Γ (scopes'.after (b.rename r (0 :: here) Γ scopes)) :=
      hs.after hrb hn.1.2 hspareb
    simp only [Stmt.rename, Stmt.resolve]
    rw [Expr.resolve_rename hs c (Expr.ready_of_regular hrc hn.1.1) hf.1.1,
      Stmt.resolve_rename hs b hrb hn.1.2 hspareb hf.1.2,
      Expr.resolveIn_rename hafter hri hn.2 hf.2]
  | funDecl d =>
    simp only [Stmt.resolve, faults_append, List.append_eq_nil_iff] at hf
    have hname : d.name.lexeme ≠ r.new := by
      rintro heq
      exact hn (heq ▸ Stmt.mem_names_of_mem_declared (s := .funDecl d) hr List.mem_cons_self)
    have hkeep : r.token (Γ 0) d.name = d.name := Renaming.token_of_ne fun hb => hspare hb _ List.mem_cons_self
    have hredeclared := redeclared_renamed hs hname hf.1
    have hput := hs.put hname true
    rw [← Renaming.lexeme_token hname] at hput
    rw [hkeep] at hredeclared hput
    simp only [Stmt.rename, Stmt.resolve, FunctionDecl.name_rename]
    rw [hredeclared, FunctionDecl.resolve_rename hput d hr.2 hn hf.2]
  | returnFrom keyword x =>
    simp only [Stmt.resolve, faults_append, List.append_eq_nil_iff] at hf
    simp only [Stmt.rename, Stmt.resolve, Option.isSome_map]
    rw [Expr.resolveIn_rename hs hr hn hf.2]
  | classDecl name x ms =>
    simp only [Stmt.resolve, faults_append, List.append_eq_nil_iff] at hf
    simp only [Stmt.names, List.cons_append, List.mem_cons, List.mem_append, not_or] at hn
    obtain ⟨⟨⟨hd, hi⟩, hsup⟩, hm⟩ := hf
    have hname : name.lexeme ≠ r.new := fun heq => hn.1 heq.symm
    have hkeep : r.token (Γ 0) name = name := Renaming.token_of_ne fun hb => hspare hb _ List.mem_cons_self
    have hredeclared := redeclared_renamed hs hname hd
    have hput := hs.put hname true
    rw [← Renaming.lexeme_token hname] at hput
    rw [hkeep] at hredeclared hput
    have hregular : ∀ e ∈ x, Expr.Regular e := fun e he => Expr.regular_of_isName (hr.2.1 e he)
    have hplace : ClassPlace.of (x.map (Expr.rename r Γ (scopes.put true name.lexeme))) = ClassPlace.of x := by
      simp [ClassPlace.of]
    simp only [Stmt.rename, Stmt.resolve, hplace]
    rw [hredeclared, selfInheritance_rename hname hn.2.1 hr.2.1 hi, Expr.resolveIn_rename hput hregular hn.2.1 hsup,
      FunctionDecl.resolve_renameAll (hput.ofClass (by simp)) ms hr.2.2 hn.2.2 hm]
  | breakLoop keyword => rfl
  | continueLoop keyword => rfl

theorem Stmt.resolve_renameAll {r : Renaming} {above : Address} {n : Nat} {place : Place} {Γ : Mask}
    {scopes scopes' : Scopes} (hs : scopes.Renamed r Γ scopes') (body : List Stmt) (hr : Stmt.RegularAll body)
    (hn : r.new ∉ Stmt.namesAll body) (hspare : ∀ s ∈ body, s.Spares r (Γ 0))
    (hf : (Stmt.resolveAll place scopes body).faults = []) :
    Stmt.resolveAll place scopes' (Stmt.renameAll r above n Γ scopes body) = Stmt.resolveAll place scopes body := by
  cases body with
  | nil => rfl
  | cons s rest =>
    simp only [Stmt.resolveAll, faults_append, List.append_eq_nil_iff] at hf
    simp only [Stmt.namesAll, List.mem_append, not_or] at hn
    rw [List.forall_mem_cons] at hspare
    have hafter : (scopes.after s).Renamed r Γ (scopes'.after (s.rename r (n :: above) Γ scopes)) :=
      hs.after hr.1 hn.1 hspare.1
    simp only [Stmt.renameAll, Stmt.resolveAll]
    rw [Stmt.resolve_rename hs s hr.1 hn.1 hspare.1 hf.1, Stmt.resolve_renameAll hafter rest hr.2 hn.2 hspare.2 hf.2]

theorem FunctionDecl.resolve_rename {r : Renaming} {here : Address} {place : Place} {Γ : Mask} {scopes scopes' : Scopes}
    (hs : scopes.Renamed r Γ scopes') (d : FunctionDecl) (hr : d.Regular) (hn : r.new ∉ d.names)
    (hf : (d.resolve place scopes).faults = []) :
    (d.rename r here Γ scopes).resolve place scopes' = d.resolve place scopes := by
  cases d with
  | mk name params body =>
    simp only [FunctionDecl.resolve, faults_append, List.append_eq_nil_iff] at hf
    simp only [FunctionDecl.names, List.cons_append, List.mem_cons, List.mem_append, not_or, List.mem_map, not_exists,
      not_and] at hn
    let b := r.hits here params body
    have hspares : ∀ s ∈ body, s.Spares r b := Stmt.spares_of_hits hr.2 hf.2
    have hparams : resolveParams ([] :: scopes') (params.map (r.token b)) = resolveParams ([] :: scopes) params :=
      resolveParams_renamed (hs.enter b) hn.2.1 hf.1
    have hdeclared : Scopes.Renamed r (Γ.cons b) (Scopes.declareAll ([] :: scopes) params)
        (Scopes.declareAll ([] :: scopes') (params.map (r.token b))) := (hs.enter b).declareAll hn.2.1
    simp only [FunctionDecl.rename, FunctionDecl.resolve]
    rw [hparams, Stmt.resolve_renameAll hdeclared body hr.2 hn.2.2 hspares hf.2]

theorem FunctionDecl.resolve_renameAll {r : Renaming} {above : Address} {n : Nat} {klass : ClassPlace} {Γ : Mask}
    {scopes scopes' : Scopes} (hs : scopes.Renamed r Γ scopes') (ds : List FunctionDecl)
    (hr : FunctionDecl.RegularAll ds) (hn : r.new ∉ FunctionDecl.namesAll ds)
    (hf : (FunctionDecl.resolveMethods klass scopes ds).faults = []) :
    FunctionDecl.resolveMethods klass scopes' (FunctionDecl.renameAll r above n Γ scopes ds) =
      FunctionDecl.resolveMethods klass scopes ds := by
  cases ds with
  | nil => rfl
  | cons d ds =>
    simp only [FunctionDecl.resolveMethods, faults_append, List.append_eq_nil_iff] at hf
    simp only [FunctionDecl.namesAll, List.mem_append, not_or] at hn
    have hplace : FunctionPlace.ofMethod (d.rename r (n :: above) Γ scopes) = FunctionPlace.ofMethod d := by
      cases d
      rfl
    simp only [FunctionDecl.renameAll, FunctionDecl.resolveMethods, hplace]
    rw [FunctionDecl.resolve_rename hs d hr.1 hn.1 hf.1, FunctionDecl.resolve_renameAll hs ds hr.2 hn.2 hf.2]

end

/-- A renamed program has the distances of the program, if nothing was found against that. -/
theorem Renaming.resolve_apply {r : Renaming} {program : List Stmt} (hr : Stmt.RegularAll program)
    (hn : r.new ∉ Stmt.namesAll program) (hf : (Stmt.resolveAll .top [] program).faults = []) :
    Stmt.resolveAll .top [] (r.apply program) = Stmt.resolveAll .top [] program :=
  Stmt.resolve_renameAll .nil program hr hn (fun _ _ h => by cases h) hf

end ScriptLang
