import Mathlib.Data.List.Forall2
import Mathlib.Order.Bounds.Basic
import ScriptLang.Check
import ScriptLang.Proofs.Parsing.Completeness
import ScriptLang.Proofs.Scoping.Loci
import ScriptLang.Proofs.Sessions.Reached

/-!
# Lexical addresses

* `Scopes.Holds` — scopes that the walk goes down with have the names that stand in the surroundings of a place;
* `Locus.Binds` — a scope around a locus introduces a name before it;
* `Stmt.meetsAll` — where the walk meets an occurrence, its scopes hold those around the locus;
* `table_lexical` — the table of a program has for each occurrence the least scope that introduces its name, and
  nothing else.
-/

namespace ScriptLang

/-! ## scopes and surroundings -/

/-- Scopes with exactly some names, scope by scope. -/
def Scopes.Holds (scopes : Scopes) (names : List (List String)) : Prop :=
  List.Forall₂ (fun scope ns => ∀ n, (Assoc.get? scope n).isSome ↔ n ∈ ns) scopes names

namespace Surroundings

variable {around : Surroundings} {s : Stmt}

@[simp] theorem scopes_cons (e : Enclosure) : scopes (e :: around) = e.scopes ++ scopes around := rfl

theorem introduced_append (reached : List Stmt) (s : Stmt) :
    Stmt.introduced (reached ++ [s]) = Stmt.introduced reached ++ (s.introduces?.map Token.lexeme).toList := by
  rw [Stmt.introduced, List.filterMap_append]
  cases hs : s.introduces? <;> simp [Stmt.introduced, hs]

/-- A statement that introduces nothing leaves the scopes as they are. -/
theorem scopes_reach (h : s.introduces? = none) : (around.reach s).scopes = around.scopes := by
  unfold reach
  split <;> simp [Enclosure.scopes, introduced_append, h]

theorem Open.reach (h : around.Open) (s : Stmt) : (around.reach s).Open := by
  unfold Surroundings.reach
  split
  · trivial
  · trivial
  · exact h

end Surroundings

namespace Scopes.Holds

variable {scopes : Scopes} {around : Surroundings} {names : List (List String)} {ns : List String} {name : Token}
  {s : Stmt}

theorem cons (h : scopes.Holds names) : Holds ([] :: scopes) ([] :: names) :=
  List.Forall₂.cons (fun n => by simp [Assoc.get?]) h

theorem only (h : scopes.Holds names) (n : String) : Holds (Scope.only n :: scopes) ([n] :: names) :=
  List.Forall₂.cons (fun k => by rw [Assoc.get?_isSome_iff]; rfl) h

/-- A name is set in the innermost scope. -/
theorem put_cons (h : scopes.Holds (ns :: names)) (ready : Bool) (n : String) :
    (scopes.put ready n).Holds ((ns ++ [n]) :: names) := by
  cases h with
  | @cons scope _ outer _ hscope houter =>
    refine List.Forall₂.cons (fun k => ?_) houter
    rw [Assoc.get?_set, List.mem_append, List.mem_singleton, ← hscope k]
    by_cases hk : k = n
    · simp [hk]
    · simp [hk, Ne.symm hk]

theorem put_nil (h : scopes.Holds []) (ready : Bool) (n : String) : (scopes.put ready n).Holds [] := by
  cases h
  exact List.Forall₂.nil

/-- A statement sets the name that it introduces. -/
theorem put_reach (h : scopes.Holds around.scopes) (ho : around.Open) (hs : s.introduces? = some name) (ready : Bool) :
    (scopes.put ready name.lexeme).Holds (around.reach s).scopes := by
  match around, ho with
  | [], _ => exact h.put_nil ready _
  | .block reached :: outer, _ =>
    have hput : (scopes.put ready name.lexeme).Holds
        ((Stmt.introduced reached ++ [name.lexeme]) :: Surroundings.scopes outer) := h.put_cons ready name.lexeme
    simpa [Surroundings.reach, Enclosure.scopes, Surroundings.introduced_append, hs] using hput
  | .function kind f params reached :: outer, _ =>
    have hput : (scopes.put ready name.lexeme).Holds
        ((params.map Token.lexeme ++ Stmt.introduced reached ++ [name.lexeme]) :: Surroundings.scopes outer) :=
      h.put_cons ready name.lexeme
    simpa [Surroundings.reach, Enclosure.scopes, Surroundings.introduced_append, hs, List.append_assoc] using hput

/-- Behind a statement, what it introduces is known. -/
theorem after (h : scopes.Holds around.scopes) (ho : around.Open) (hs : s.Shaped) :
    (scopes.after s).Holds (around.reach s).scopes := by
  unfold Scopes.after
  rw [s.declared_of_shaped hs]
  cases hi : s.introduces? with
  | none =>
    rw [Surroundings.scopes_reach hi]
    exact h
  | some name => exact h.put_reach ho hi true

theorem declareAll_cons (h : scopes.Holds (ns :: names)) (params : List Token) :
    (scopes.declareAll params).Holds ((ns ++ params.map Token.lexeme) :: names) := by
  unfold Scopes.declareAll
  induction params generalizing scopes ns with
  | nil => simpa using h
  | cons p ps ih => simpa using ih (h.put_cons true p.lexeme)

/-- The scopes at the start of a body. -/
theorem function (h : scopes.Holds around.scopes) (kind : Body) (f : Token) (params : List Token) :
    (Scopes.declareAll ([] :: scopes) params).Holds (Surroundings.scopes (.function kind f params [] :: around)) := by
  simpa [Enclosure.scopes, Stmt.introduced] using h.cons.declareAll_cons params

/-- The scopes around methods. -/
theorem ofClass (h : scopes.Holds around.scopes) (superclass : Option Expr) :
    (scopes.ofClass superclass).Holds (Surroundings.scopes (.klass superclass :: around)) := by
  cases superclass with
  | none => exact h.only "this"
  | some x => exact (h.only "super").only "this"

end Scopes.Holds

/-! ## the least scope with a name -/

/-- The `i`-th scope around a locus introduces a name before it. -/
def Locus.Binds (p : Locus) (name : String) (i : Nat) : Prop := ∃ ns, p.scopes[i]? = some ns ∧ name ∈ ns

namespace Scopes.Holds

variable {scopes : Scopes} {names : List (List String)} {n : String}

/-- The walk finds the least scope with a name. -/
theorem distance?_eq_some_iff (h : scopes.Holds names) {d : Nat} :
    scopes.distance? n = some d ↔ IsLeast {i | ∃ ns, names[i]? = some ns ∧ n ∈ ns} d := by
  induction h generalizing d with
  | nil => simp [Scopes.distance?, IsLeast]
  | @cons scope ns outer names hscope _ ih =>
    unfold Scopes.distance?
    by_cases hn : n ∈ ns
    · rw [if_pos ((hscope n).2 hn)]
      have hzero : IsLeast {i | ∃ ns', (ns :: names)[i]? = some ns' ∧ n ∈ ns'} 0 :=
        ⟨⟨ns, rfl, hn⟩, fun i _ => Nat.zero_le i⟩
      exact ⟨fun hd => Option.some.inj hd ▸ hzero, fun hd => congrArg some (hzero.unique hd)⟩
    · rw [if_neg (fun hsome => hn ((hscope n).1 hsome)), Option.map_eq_some_iff]
      constructor
      · rintro ⟨k, hk, rfl⟩
        obtain ⟨hmem, hleast⟩ := ih.1 hk
        refine ⟨hmem, fun i hi => ?_⟩
        cases i with
        | zero =>
          obtain ⟨ns', hns, hmem'⟩ := hi
          exact absurd (Option.some.inj hns ▸ hmem') hn
        | succ i => exact Nat.succ_le_succ (hleast hi)
      · rintro ⟨⟨ns', hns, hmem⟩, hleast⟩
        cases d with
        | zero => exact absurd (Option.some.inj hns ▸ hmem) hn
        | succ k =>
          refine ⟨k, ih.2 ⟨⟨ns', hns, hmem⟩, fun i hi => ?_⟩, rfl⟩
          exact Nat.le_of_succ_le_succ (hleast (show i + 1 ∈ _ from hi))

/-- The walk finds no scope exactly if none has the name. -/
theorem distance?_eq_none_iff (h : scopes.Holds names) : scopes.distance? n = none ↔ ∀ ns ∈ names, n ∉ ns := by
  induction h with
  | nil => simp [Scopes.distance?]
  | @cons scope ns outer names hscope _ ih =>
    unfold Scopes.distance?
    by_cases hn : n ∈ ns
    · simp [(hscope n).2 hn, hn]
    · rw [if_neg (fun hsome => hn ((hscope n).1 hsome)), Option.map_eq_none_iff, ih]
      simp [hn]

end Scopes.Holds

/-! ## loci and sites -/

/-- Among some sites is one at an occurrence, with scopes of which the names are given. -/
def Site.Meets (sites : List Site) (o : Occurrence) (names : List (List String)) : Prop :=
  ∃ site ∈ sites, site.occurrence = o ∧ site.context.scopes.Holds names

namespace Site.Meets

variable {xs ys : List Site} {o : Occurrence} {names : List (List String)}

theorem left (h : Meets xs o names) : Meets (xs ++ ys) o names := by
  obtain ⟨site, hsite, h⟩ := h
  exact ⟨site, List.mem_append_left _ hsite, h⟩

theorem right (h : Meets ys o names) : Meets (xs ++ ys) o names := by
  obtain ⟨site, hsite, h⟩ := h
  exact ⟨site, List.mem_append_right _ hsite, h⟩

end Site.Meets

section

variable {around : Surroundings} {ctx : Context} {heading : Option String} {p : Locus} {o : Occurrence}

theorem Expr.meets {e : Expr} (hh : ctx.scopes.Holds around.scopes) (hp : p ∈ e.loci around)
    (ho : p.feature = .refers o) : Site.Meets (e.sites ctx heading) o p.scopes := by
  obtain ⟨o', hmem, rfl⟩ := List.mem_map.1 hp
  obtain rfl : o' = o := Feature.refers.inj ho
  exact ⟨⟨o', ctx, heading⟩, List.mem_map_of_mem (e.references_perm.mem_iff.1 hmem), rfl, hh⟩

theorem Expr.meetsIn {e : Option Expr} (hh : ctx.scopes.Holds around.scopes) (hp : p ∈ Expr.lociIn around e)
    (ho : p.feature = .refers o) : Site.Meets (Expr.sitesIn ctx heading e) o p.scopes := by
  cases e with
  | none => cases hp
  | some e => exact Expr.meets hh hp ho

theorem ne_refers_of_mem_parameterLoci {kind : Body} {name : Token} {before params : List Token}
    (hp : p ∈ parameterLoci kind name around before params) : p.feature ≠ .refers o := by
  induction params generalizing before with
  | nil => cases hp
  | cons q qs ih =>
    rcases List.mem_cons.1 hp with rfl | hp
    · exact nofun
    · exact ih hp

end

mutual

theorem Stmt.meets {around : Surroundings} {ctx : Context} (s : Stmt) (hs : s.Shaped)
    (hopen : s.introduces?.isSome → around.Open) (hh : ctx.scopes.Holds around.scopes) {p : Locus} {o : Occurrence}
    (hp : p ∈ s.loci around) (ho : p.feature = .refers o) : Site.Meets (s.sites ctx) o p.scopes := by
  cases s with
  | expr e => exact Expr.meets hh hp ho
  | print keyword e => exact Expr.meets hh hp ho
  | varDecl name e =>
    rcases List.mem_cons.1 hp with rfl | hp
    · cases ho
    · refine Expr.meetsIn ?_ hp ho
      rw [Context.scopes_put]
      exact hh.put_reach (hopen rfl) rfl false
  | block body =>
    have hblock : (ctx.ofBlock body).scopes.Holds (Surroundings.scopes (.block [] :: around)) := hh.cons
    exact Stmt.meetsAll body hs (by trivial) hblock hp ho
  | ifThen c t =>
    rcases List.mem_append.1 hp with hp | hp
    · exact (Expr.meets hh hp ho).left
    · exact (Stmt.meets t hs.2 (by simp [hs.1]) hh hp ho).right
  | ifElse c t e =>
    obtain ⟨⟨hit, ht⟩, hie, he⟩ := hs
    have hafter : ctx.after t = ctx := Context.after_of_declared_eq_nil ctx (by rw [t.declared_of_shaped ht, hit]; rfl)
    simp only [Stmt.sites, hafter]
    rcases List.mem_append.1 hp with hp | hp
    · rcases List.mem_append.1 hp with hp | hp
      · exact (Expr.meets hh hp ho).left.left
      · exact (Stmt.meets t ht (by simp [hit]) hh hp ho).right.left
    · exact (Stmt.meets e he (by simp [hie]) hh hp ho).right
  | loop c b i =>
    have hafter : ctx.after b = ctx :=
      Context.after_of_declared_eq_nil ctx (by rw [b.declared_of_shaped hs.2, hs.1]; rfl)
    simp only [Stmt.sites, hafter]
    rcases List.mem_append.1 hp with hp | hp
    · rcases List.mem_append.1 hp with hp | hp
      · exact (Expr.meets hh hp ho).left.left
      · have hloop : ctx.scopes.Holds (Surroundings.scopes (.loop :: around)) := hh
        exact (Stmt.meets b hs.2 (by simp [hs.1]) hloop hp ho).right.left
    · exact (Expr.meetsIn hh hp ho).right
  | funDecl d =>
    rcases List.mem_cons.1 hp with rfl | hp
    · cases ho
    · refine FunctionDecl.meets d hs ?_ hp ho
      rw [Context.scopes_put]
      exact hh.put_reach (hopen rfl) rfl true
  | returnFrom keyword e =>
    rcases List.mem_cons.1 hp with rfl | hp
    · cases ho
    · exact Expr.meetsIn hh hp ho
  | classDecl name s ms =>
    have hinner : (ctx.put true name.lexeme).scopes.Holds (around.reach (.classDecl name s ms)).scopes := by
      rw [Context.scopes_put]
      exact hh.put_reach (hopen rfl) rfl true
    rcases List.mem_cons.1 hp with rfl | hp
    · cases ho
    rcases List.mem_append.1 hp with hp | hp
    · rcases List.mem_append.1 hp with hp | hp
      · -- a superclass as a feature of the class is no occurrence
        obtain ⟨f, hf, rfl⟩ := List.mem_map.1 hp
        obtain rfl : f = .refers o := ho
        unfold Feature.inheritance at hf
        split at hf <;> simp at hf
      · exact (Expr.meetsIn hinner hp ho).left
    · refine (FunctionDecl.meetsAll ms hs.2 ?_ hp ho).right
      rw [Context.scopes_ofClass]
      exact hinner.ofClass s
  | breakLoop keyword =>
    obtain rfl := List.mem_singleton.1 hp
    cases ho
  | continueLoop keyword =>
    obtain rfl := List.mem_singleton.1 hp
    cases ho

/-- Where the walk meets an occurrence, its scopes hold those around the locus. -/
theorem Stmt.meetsAll {around : Surroundings} {ctx : Context} (body : List Stmt) (hs : Stmt.ShapedAll body)
    (hopen : around.Open) (hh : ctx.scopes.Holds around.scopes) {p : Locus} {o : Occurrence}
    (hp : p ∈ Stmt.lociAll around body) (ho : p.feature = .refers o) :
    Site.Meets (Stmt.sitesAll ctx body) o p.scopes := by
  cases body with
  | nil => cases hp
  | cons s rest =>
    rcases List.mem_append.1 hp with hp | hp
    · exact (Stmt.meets s hs.1 (fun _ => hopen) hh hp ho).left
    · refine (Stmt.meetsAll rest hs.2 (hopen.reach s) ?_ hp ho).right
      rw [Context.scopes_after]
      exact hh.after hopen hs.1

theorem FunctionDecl.meets {kind : Body} {around : Surroundings} {ctx : Context} (d : FunctionDecl) (hs : d.Shaped)
    (hh : ctx.scopes.Holds around.scopes) {p : Locus} {o : Occurrence} (hp : p ∈ d.loci kind around)
    (ho : p.feature = .refers o) : Site.Meets (d.sites ctx) o p.scopes := by
  cases d with
  | mk name params body =>
    rcases List.mem_append.1 hp with hp | hp
    · exact absurd ho (ne_refers_of_mem_parameterLoci hp)
    · have hbody : (ctx.ofFunction params body).scopes.Holds
          (Surroundings.scopes (.function kind name params [] :: around)) := by
        rw [Context.scopes_ofFunction]
        exact hh.function kind name params
      exact Stmt.meetsAll body hs (by trivial) hbody hp ho

theorem FunctionDecl.meetsAll {around : Surroundings} {ctx : Context} (ds : List FunctionDecl)
    (hs : FunctionDecl.ShapedAll ds) (hh : ctx.scopes.Holds around.scopes) {p : Locus} {o : Occurrence}
    (hp : p ∈ FunctionDecl.lociAll around ds) (ho : p.feature = .refers o) :
    Site.Meets (FunctionDecl.sitesAll ctx ds) o p.scopes := by
  cases ds with
  | nil => cases hp
  | cons d ds =>
    rcases List.mem_append.1 hp with hp | hp
    · exact (FunctionDecl.meets d hs.1 hh hp ho).left
    · exact (FunctionDecl.meetsAll ds hs.2 hh hp ho).right

end

/-! ## tables of programs -/

section

variable {fresh : Label} {tokens : List Token} {program : List Stmt} {table : Distances}

/-- The table has for the label at a locus what the scopes around the locus say. -/
theorem exists_scopes_of_mem_loci (hp : (parse fresh tokens).result = .ok program)
    (ht : resolveProgram program = .ok table) {p : Locus} (hmem : p ∈ Stmt.programLoci program) {o : Occurrence}
    (ho : p.feature = .refers o) :
    ∃ scopes : Scopes, scopes.Holds p.scopes ∧ Assoc.get? table o.label = scopes.distance? o.name.lexeme := by
  have hreads := reads_of_parse hp
  obtain ⟨hfaults, rfl⟩ := Session.resolveProgram_eq_ok.1 ht
  have hnone : Scopes.Holds (Context.scopes []) (Surroundings.scopes []) := .nil
  obtain ⟨site, hsite, rfl, hholds⟩ := Stmt.meetsAll program hreads.shaped (by trivial) hnone hmem ho
  let found := (Stmt.resolveAll .top [] program).distances
  have htable : Assoc.get? (Assoc.setAll [] (Assoc.setAll [] found)) site.label = site.distance? :=
    Session.get?_table_of_mem (hreads.labelled []) (fun r => Stmt.mem_distancesAll program hfaults) (fun _ _ => rfl)
      hsite
  rw [Assoc.get?_setAll_setAll] at htable
  exact ⟨site.context.scopes, hholds, htable⟩

/-- The labels of a table are those of occurrences in the program. -/
theorem exists_occurrence_of_mem_keys (ht : resolveProgram program = .ok table) {l : Label}
    (hl : l ∈ Assoc.keys table) : ∃ o ∈ Stmt.occurrencesAll program, o.label = l := by
  obtain ⟨hfaults, rfl⟩ := Session.resolveProgram_eq_ok.1 ht
  obtain ⟨r, hr, rfl⟩ := List.mem_map.1 hl
  have hfound := (Assoc.mem_of_mem_setAll hr).resolve_right (by simp)
  have hgives : Site.Gives (Stmt.sitesAll [] program) r := (Stmt.mem_distancesAll program hfaults).1 hfound
  obtain ⟨site, hsite, hlabel, -⟩ := hgives
  have hmem := List.mem_map_of_mem (f := Site.occurrence) hsite
  rw [Stmt.occurrence_sitesAll] at hmem
  exact ⟨site.occurrence, hmem, hlabel⟩

/-- The distances that the check of a program records. -/
structure LexicalTable (program : List Stmt) (table : Distances) : Prop where
  /-- The distance of an occurrence is the least scope around it that introduces its name before it. -/
  distance : ∀ p ∈ Stmt.programLoci program, ∀ o, p.feature = .refers o →
    ∀ d, Assoc.get? table o.label = some d ↔ IsLeast {i | p.Binds o.name.lexeme i} d
  /-- There is none exactly if no scope around it does so. -/
  global : ∀ p ∈ Stmt.programLoci program, ∀ o, p.feature = .refers o →
    (Assoc.get? table o.label = none ↔ ∀ i, ¬ p.Binds o.name.lexeme i)
  /-- The loci are at the occurrences of the program, at each once. -/
  loci : ((Stmt.programLoci program).filterMap Locus.occurrence?).Perm (Stmt.occurrencesAll program)
  /-- There are no other entries. -/
  only : ∀ l ∈ Assoc.keys table, ∃ p ∈ Stmt.programLoci program, ∃ o, p.feature = .refers o ∧ o.label = l

/-- A program that is read from tokens and keeps the rules gets the table of its lexical addresses. -/
theorem table_lexical (hp : (parse fresh tokens).result = .ok program) (ht : resolveProgram program = .ok table) :
    LexicalTable program table := by
  have hperm : ((Stmt.programLoci program).filterMap Locus.occurrence?).Perm (Stmt.occurrencesAll program) :=
    Stmt.lociAll_perm program
  refine ⟨fun p hmem o ho d => ?_, fun p hmem o ho => ?_, hperm, fun l hl => ?_⟩
  · obtain ⟨scopes, hholds, hget⟩ := exists_scopes_of_mem_loci hp ht hmem ho
    rw [hget]
    exact hholds.distance?_eq_some_iff
  · obtain ⟨scopes, hholds, hget⟩ := exists_scopes_of_mem_loci hp ht hmem ho
    rw [hget, hholds.distance?_eq_none_iff]
    constructor
    · rintro h i ⟨ns, hns, hmem'⟩
      exact h ns (List.mem_of_getElem? hns) hmem'
    · intro h ns hns hmem'
      obtain ⟨i, hi⟩ := List.mem_iff_getElem?.1 hns
      exact h i ⟨ns, hi, hmem'⟩
  · obtain ⟨o, ho, rfl⟩ := exists_occurrence_of_mem_keys ht hl
    obtain ⟨p, hmem, hpo⟩ := List.mem_filterMap.1 (hperm.mem_iff.2 ho)
    exact ⟨p, hmem, o, Locus.occurrence?_eq_some.1 hpo, rfl⟩

/-- In a method of a class in a block, `super` is outside of the body and of `this`; the superclass is a global. -/
theorem table_lexical_super :
    ∃ program : List Stmt, ∃ table : Distances,
      (parse 0 (tokensOf "{ class A < B { m() { super.m; } } }")).result = .ok program ∧
      resolveProgram program = .ok table ∧ LexicalTable program table ∧ Assoc.get? table 0 = none ∧
      Assoc.get? table 1 = some 2 := by
  let b : Token := ⟨.identifier, "B", 1⟩
  let m : Token := ⟨.identifier, "m", 1⟩
  let method : FunctionDecl := .mk m [] [.expr (.super 1 ⟨.keyword .kwSuper, "super", 1⟩ m)]
  let program : List Stmt := [.block [.classDecl ⟨.identifier, "A", 1⟩ (some (.variable 0 b)) [method]]]
  have hp : (parse 0 (tokensOf "{ class A < B { m() { super.m; } } }")).result = .ok program := by rfl
  have ht : resolveProgram program = .ok [(1, 2)] := by rfl
  exact ⟨program, _, hp, ht, table_lexical hp ht, rfl, rfl⟩

end

end ScriptLang
