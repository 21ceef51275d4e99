import ScriptLang.Proofs.Scoping.Lawful
import ScriptLang.Proofs.Scoping.Lowering

/-!
# Code that runs under more frames

`Stmt.Shifted D D' level δ s s'` says what the runs of two statements need to know of each other: the second is the first
with some loops replaced, and an occurrence that has the distance `d` in the table `D` has the distance `δ d` in the
table `D'`.  Where `level` is false, the innermost frame is one that only the second run has, and nothing is declared.

* `Stmt.Lowered.shifted` — what is replaced in a text is shifted, if the tables are those of the two texts;
* `Stmt.shifted_refl` — code whose distances are the same in both tables is shifted by nothing.
-/

namespace ScriptLang

/-- The distances of an occurrence in two tables.  The object next to a superclass is as near on both sides. -/
structure Occurrence.Shifted (D D' : Label → Option Nat) (δ : Shift) (o : Occurrence) : Prop where
  distance : D' o.label = (D o.label).map δ
  object : o.reference = .super → ∀ d, D o.label = some d → δ (d - 1) = δ d - 1

/-- The distances of all occurrences in an expression. -/
def Expr.Shifted (D D' : Label → Option Nat) (δ : Shift) (x : Expr) : Prop :=
  ∀ o ∈ x.occurrences, o.Shifted D D' δ

/-- The distances of all occurrences in an expression that may be absent. -/
def Expr.ShiftedIn (D D' : Label → Option Nat) (δ : Shift) (x : Option Expr) : Prop :=
  ∀ e ∈ x, Expr.Shifted D D' δ e

mutual

/-- The second statement is the first with some loops replaced, and its distances are shifted. -/
inductive Stmt.Shifted (D D' : Label → Option Nat) : Bool → Shift → Stmt → Stmt → Prop
  | expr {level δ x} : x.Shifted D D' δ → Stmt.Shifted D D' level δ (.expr x) (.expr x)
  | print {level δ keyword x} : x.Shifted D D' δ → Stmt.Shifted D D' level δ (.print keyword x) (.print keyword x)
  | varDecl {δ name x} : Expr.ShiftedIn D D' δ x → Stmt.Shifted D D' true δ (.varDecl name x) (.varDecl name x)
  | block {level δ body body'} : Stmt.ShiftedAll D D' δ.cons body body' →
      Stmt.Shifted D D' level δ (.block body) (.block body')
  | ifThen {level δ c t t'} : c.Shifted D D' δ → Stmt.Shifted D D' level δ t t' →
      Stmt.Shifted D D' level δ (.ifThen c t) (.ifThen c t')
  | ifElse {level δ c t t' f f'} : c.Shifted D D' δ → Stmt.Shifted D D' level δ t t' →
      Stmt.Shifted D D' level δ f f' → Stmt.Shifted D D' level δ (.ifElse c t f) (.ifElse c t' f')
  | loop {level δ c b b' i} : c.Shifted D D' δ → Stmt.Shifted D D' level δ b b' → Expr.ShiftedIn D D' δ i →
      Stmt.Shifted D D' level δ (.loop c b i) (.loop c b' i)
  | replaced {level δ c b b' x} : b.continues = false → c.Shifted D D' δ → Stmt.Shifted D D' false δ.skip b b' →
      x.Shifted D D' δ.skip → Stmt.Shifted D D' level δ (.loop c b (some x)) (.loop c (.block [b', .expr x]) none)
  | funDecl {δ d d'} : FunctionDecl.Shifted D D' δ d d' → Stmt.Shifted D D' true δ (.funDecl d) (.funDecl d')
  | returnFrom {level δ keyword x} : Expr.ShiftedIn D D' δ x →
      Stmt.Shifted D D' level δ (.returnFrom keyword x) (.returnFrom keyword x)
  | classDecl {δ name x ms ms'} : Expr.ShiftedIn D D' δ x → FunctionDecl.ShiftedAll D D' (δ.ofClass x) ms ms' →
      Stmt.Shifted D D' true δ (.classDecl name x ms) (.classDecl name x ms')
  | breakLoop {level δ keyword} : Stmt.Shifted D D' level δ (.breakLoop keyword) (.breakLoop keyword)
  | continueLoop {level δ keyword} : Stmt.Shifted D D' level δ (.continueLoop keyword) (.continueLoop keyword)

/-- The same of the statements of a body, which has a frame of its own. -/
inductive Stmt.ShiftedAll (D D' : Label → Option Nat) : Shift → List Stmt → List Stmt → Prop
  | nil {δ} : Stmt.ShiftedAll D D' δ [] []
  | cons {δ s s' rest rest'} : Stmt.Shifted D D' true δ s s' → Stmt.ShiftedAll D D' δ rest rest' →
      Stmt.ShiftedAll D D' δ (s :: rest) (s' :: rest')

/-- The same of a function. -/
inductive FunctionDecl.Shifted (D D' : Label → Option Nat) : Shift → FunctionDecl → FunctionDecl → Prop
  | mk {δ name params body body'} : Stmt.ShiftedAll D D' δ.cons body body' →
      FunctionDecl.Shifted D D' δ (.mk name params body) (.mk name params body')

/-- The same of functions, one by one. -/
inductive FunctionDecl.ShiftedAll (D D' : Label → Option Nat) : Shift → List FunctionDecl → List FunctionDecl → Prop
  | nil {δ} : FunctionDecl.ShiftedAll D D' δ [] []
  | cons {δ d d' ds ds'} : FunctionDecl.Shifted D D' δ d d' → FunctionDecl.ShiftedAll D D' δ ds ds' →
      FunctionDecl.ShiftedAll D D' δ (d :: ds) (d' :: ds')

end

section

variable {D D' : Label → Option Nat} {δ : Shift} {d d' : FunctionDecl}

theorem FunctionDecl.Shifted.name (h : d.Shifted D D' δ d') : d'.name = d.name := by cases h; rfl

theorem FunctionDecl.Shifted.params (h : d.Shifted D D' δ d') : d'.params = d.params := by cases h; rfl

theorem FunctionDecl.Shifted.body (h : d.Shifted D D' δ d') : Stmt.ShiftedAll D D' δ.cons d.body d'.body := by
  cases h with
  | mk hb => exact hb

end

/-! ## what is replaced in a text -/

section

variable {D D' : Label → Option Nat} {level : Bool} {δ : Shift} {ctx ctx' : Context} {heading : Option String}

theorem Expr.shifted_of_known {x : Expr} (hr : x.Regular) (hp : ctx.scopes.Padded level δ ctx'.scopes)
    (hs : Site.Known D (x.sites ctx heading)) (hs' : Site.Known D' (x.sites ctx' heading)) : x.Shifted D D' δ := by
  intro o ho
  have hd : D o.label = ctx.scopes.distance? o.name.lexeme := hs _ (List.mem_map_of_mem ho)
  have hd' : D' o.label = ctx'.scopes.distance? o.name.lexeme := hs' _ (List.mem_map_of_mem ho)
  refine ⟨by rw [hd, hd', hp.distance], fun href d hsome => ?_⟩
  have hname : o.name.lexeme = "super" := by
    have hproper := hr o ho
    unfold Occurrence.Proper at hproper
    rwa [href] at hproper
  rw [hd, hname] at hsome
  obtain ⟨k, rfl, hk⟩ := hp.super d hsome
  rw [hk]
  rfl

theorem Expr.shiftedIn_of_known {x : Option Expr} (hr : ∀ e ∈ x, Expr.Regular e)
    (hp : ctx.scopes.Padded level δ ctx'.scopes) (hs : Site.Known D (Expr.sitesIn ctx heading x))
    (hs' : Site.Known D' (Expr.sitesIn ctx' heading x)) : Expr.ShiftedIn D D' δ x := by
  rintro e ⟨⟩
  exact Expr.shifted_of_known (hr e rfl) hp hs hs'

end

mutual

/-- A statement in which loops were replaced has its distances shifted. -/
theorem Stmt.Lowered.shifted {D D' : Label → Option Nat} {s s' : Stmt} (h : s.Lowered s') :
    ∀ {level : Bool} {δ : Shift} {ctx ctx' : Context}, s.Regular → ctx.scopes.Padded level δ ctx'.scopes →
      s.declared = [] ∨ level = true → Site.Known D (s.sites ctx) → Site.Known D' (s'.sites ctx') →
      s.Shifted D D' level δ s' := by
  cases h with intro level δ ctx ctx' hr hp hs hd hd'
  | expr => exact .expr (Expr.shifted_of_known hr hp hd hd')
  | print => exact .print (Expr.shifted_of_known hr hp hd hd')
  | @varDecl name x =>
    obtain rfl := hs.resolve_left (by simp [Stmt.declared])
    have hput := hp.put hr.1 false
    rw [← Context.scopes_put, ← Context.scopes_put] at hput
    exact .varDecl (Expr.shiftedIn_of_known (fun e he => hr.2 e he) hput hd hd')
  | @block body body' hb =>
    have hinner : (ctx.ofBlock body).scopes.Padded true δ.cons (ctx'.ofBlock body').scopes := hp.cons rfl
    exact .block (hb.shifted hr hinner hd hd')
  | ifThen ht =>
    simp only [Stmt.sites, Site.recorded_append] at hd hd'
    exact .ifThen (Expr.shifted_of_known hr.1 hp hd.1 hd'.1) (ht.shifted hr.2.2 hp (.inl hr.2.1) hd.2 hd'.2)
  | @ifElse c t t' e e' ht he =>
    obtain ⟨hrc, ⟨hdt, hrt⟩, hde, hre⟩ := hr
    have hdt' : t'.declared = [] := (ht.declared hrt).trans hdt
    simp only [Stmt.sites, Site.recorded_append, Context.after_of_declared_eq_nil _ hdt] at hd
    simp only [Stmt.sites, Site.recorded_append, Context.after_of_declared_eq_nil _ hdt'] at hd'
    exact .ifElse (Expr.shifted_of_known hrc hp hd.1.1 hd'.1.1) (ht.shifted hrt hp (.inl hdt) hd.1.2 hd'.1.2)
      (he.shifted hre hp (.inl hde) hd.2 hd'.2)
  | @loop c b b' i hb =>
    obtain ⟨hrc, ⟨hdb, hrb⟩, hri⟩ := hr
    have hdb' : b'.declared = [] := (hb.declared hrb).trans hdb
    simp only [Stmt.sites, Site.recorded_append, Context.after_of_declared_eq_nil _ hdb] at hd
    simp only [Stmt.sites, Site.recorded_append, Context.after_of_declared_eq_nil _ hdb'] at hd'
    exact .loop (Expr.shifted_of_known hrc hp hd.1.1 hd'.1.1) (hb.shifted hrb hp (.inl hdb) hd.1.2 hd'.1.2)
      (Expr.shiftedIn_of_known hri hp hd.2 hd'.2)
  | @replaced c b b' x hn hb =>
    obtain ⟨hrc, ⟨hdb, hrb⟩, hri⟩ := hr
    have hdb' : b'.declared = [] := (hb.declared hrb).trans hdb
    simp only [Stmt.sites, Site.recorded_append, Context.after_of_declared_eq_nil _ hdb] at hd
    simp only [Stmt.sites, Stmt.sitesAll, Site.recorded_append, Context.after_of_declared_eq_nil _ hdb'] at hd'
    have hinner : ctx.scopes.Padded false δ.skip (ctx'.ofBlock [b', .expr x]).scopes := hp.skip
    exact .replaced hn (Expr.shifted_of_known hrc hp hd.1.1 hd'.1.1)
      (hb.shifted hrb hinner (.inl hdb) hd.1.2 hd'.1.2.1)
      (Expr.shifted_of_known (hri x rfl) hinner hd.2 hd'.1.2.2.1)
  | @funDecl d d' hdecl =>
    obtain rfl := hs.resolve_left (by simp [Stmt.declared])
    have hput := hp.put hr.1 true
    rw [← Context.scopes_put, ← Context.scopes_put] at hput
    simp only [Stmt.sites] at hd'
    rw [hdecl.name] at hd'
    exact .funDecl (hdecl.shifted hr.2 hput hd hd')
  | returnFrom => exact .returnFrom (Expr.shiftedIn_of_known hr hp hd hd')
  | @classDecl name x ms ms' hm =>
    obtain rfl := hs.resolve_left (by simp [Stmt.declared])
    simp only [Stmt.sites, Site.recorded_append] at hd hd'
    have hput := hp.put hr.1 true
    have hmethods := hput.ofClass x
    rw [← Context.scopes_put, ← Context.scopes_put] at hput hmethods
    rw [← Context.scopes_ofClass, ← Context.scopes_ofClass] at hmethods
    have hregular : ∀ e ∈ x, Expr.Regular e := fun e he => Expr.regular_of_isName (hr.2.1 e he)
    exact .classDecl (Expr.shiftedIn_of_known hregular hput hd.1 hd'.1) (hm.shifted hr.2.2 hmethods hd.2 hd'.2)
  | breakLoop => exact .breakLoop
  | continueLoop => exact .continueLoop

theorem Stmt.LoweredAll.shifted {D D' : Label → Option Nat} {body body' : List Stmt} (h : Stmt.LoweredAll body body') :
    ∀ {δ : Shift} {ctx ctx' : Context}, Stmt.RegularAll body → ctx.scopes.Padded true δ ctx'.scopes →
      Site.Known D (Stmt.sitesAll ctx body) → Site.Known D' (Stmt.sitesAll ctx' body') →
      Stmt.ShiftedAll D D' δ body body' := by
  cases h with intro δ ctx ctx' hr hp hd hd'
  | nil => exact .nil
  | cons hs hrest =>
    simp only [Stmt.sitesAll, Site.recorded_append] at hd hd'
    have hafter := hp.after hs hr.1 (.inr rfl)
    rw [← Context.scopes_after, ← Context.scopes_after] at hafter
    exact .cons (hs.shifted hr.1 hp (.inr rfl) hd.1 hd'.1) (hrest.shifted hr.2 hafter hd.2 hd'.2)

theorem FunctionDecl.Lowered.shifted {D D' : Label → Option Nat} {d d' : FunctionDecl} (h : d.Lowered d') :
    ∀ {δ : Shift} {ctx ctx' : Context}, d.Regular → ctx.scopes.Padded true δ ctx'.scopes →
      Site.Known D (d.sites ctx) → Site.Known D' (d'.sites ctx') → d.Shifted D D' δ d' := by
  cases h with intro δ ctx ctx' hr hp hd hd'
  | @mk name params body body' hb =>
    have hempty : Scopes.Padded true δ.cons ([] :: ctx.scopes) ([] :: ctx'.scopes) := hp.cons rfl
    have hinner := hempty.declareAll hr.1
    rw [← Context.scopes_ofFunction ctx params body, ← Context.scopes_ofFunction ctx' params body'] at hinner
    exact .mk (hb.shifted hr.2 hinner hd hd')

theorem FunctionDecl.LoweredAll.shifted {D D' : Label → Option Nat} {ds ds' : List FunctionDecl}
    (h : FunctionDecl.LoweredAll ds ds') :
    ∀ {δ : Shift} {ctx ctx' : Context}, FunctionDecl.RegularAll ds → ctx.scopes.Padded true δ ctx'.scopes →
      Site.Known D (FunctionDecl.sitesAll ctx ds) → Site.Known D' (FunctionDecl.sitesAll ctx' ds') →
      FunctionDecl.ShiftedAll D D' δ ds ds' := by
  cases h with intro δ ctx ctx' hr hp hd hd'
  | nil => exact .nil
  | cons hdecl hds =>
    simp only [FunctionDecl.sitesAll, Site.recorded_append] at hd hd'
    exact .cons (hdecl.shifted hr.1 hp hd.1 hd'.1) (hds.shifted hr.2 hp hd.2 hd'.2)

end

/-! ## code that stays -/

section

variable {D D' : Label → Option Nat}

theorem Expr.shifted_refl {x : Expr} (h : ∀ o ∈ x.occurrences, D' o.label = D o.label) : x.Shifted D D' id :=
  fun o ho => ⟨by rw [h o ho, Option.map_id_fun, id], fun _ _ _ => rfl⟩

theorem Expr.shiftedIn_refl {x : Option Expr} (h : ∀ o ∈ Expr.occurrencesIn x, D' o.label = D o.label) :
    Expr.ShiftedIn D D' id x := by
  rintro e ⟨⟩
  exact Expr.shifted_refl h

mutual

/-- Code is shifted by nothing if both tables have the same distances for it. -/
theorem Stmt.shifted_refl (s : Stmt) (h : ∀ o ∈ s.occurrences, D' o.label = D o.label) :
    s.Shifted D D' true id s := by
  cases s with
  | expr x => exact .expr (Expr.shifted_refl h)
  | print keyword x => exact .print (Expr.shifted_refl h)
  | varDecl name x => exact .varDecl (Expr.shiftedIn_refl h)
  | block body =>
    refine .block ?_
    rw [Shift.cons_id]
    exact Stmt.shiftedAll_refl body h
  | ifThen c t =>
    simp only [Stmt.occurrences, List.forall_mem_append] at h
    exact .ifThen (Expr.shifted_refl h.1) (Stmt.shifted_refl t h.2)
  | ifElse c t e =>
    simp only [Stmt.occurrences, List.forall_mem_append] at h
    exact .ifElse (Expr.shifted_refl h.1.1) (Stmt.shifted_refl t h.1.2) (Stmt.shifted_refl e h.2)
  | loop c b i =>
    simp only [Stmt.occurrences, List.forall_mem_append] at h
    exact .loop (Expr.shifted_refl h.1.1) (Stmt.shifted_refl b h.1.2) (Expr.shiftedIn_refl h.2)
  | funDecl d => exact .funDecl (FunctionDecl.shifted_refl d h)
  | returnFrom keyword x => exact .returnFrom (Expr.shiftedIn_refl h)
  | classDecl name x ms =>
    simp only [Stmt.occurrences, List.forall_mem_append] at h
    refine .classDecl (Expr.shiftedIn_refl h.1) ?_
    rw [Shift.ofClass_id]
    exact FunctionDecl.shiftedAll_refl ms h.2
  | breakLoop keyword => exact .breakLoop
  | continueLoop keyword => exact .continueLoop

theorem Stmt.shiftedAll_refl (body : List Stmt) (h : ∀ o ∈ Stmt.occurrencesAll body, D' o.label = D o.label) :
    Stmt.ShiftedAll D D' id body body := by
  cases body with
  | nil => exact .nil
  | cons s rest =>
    simp only [Stmt.occurrencesAll, List.forall_mem_append] at h
    exact .cons (Stmt.shifted_refl s h.1) (Stmt.shiftedAll_refl rest h.2)

theorem FunctionDecl.shifted_refl (d : FunctionDecl) (h : ∀ o ∈ d.occurrences, D' o.label = D o.label) :
    d.Shifted D D' id d := by
  cases d with
  | mk name params body =>
    refine .mk ?_
    rw [Shift.cons_id]
    exact Stmt.shiftedAll_refl body h

theorem FunctionDecl.shiftedAll_refl (ds : List FunctionDecl)
    (h : ∀ o ∈ FunctionDecl.occurrencesAll ds, D' o.label = D o.label) : FunctionDecl.ShiftedAll D D' id ds ds := by
  cases ds with
  | nil => exact .nil
  | cons d ds =>
    simp only [FunctionDecl.occurrencesAll, List.forall_mem_append] at h
    exact .cons (FunctionDecl.shifted_refl d h.1) (FunctionDecl.shiftedAll_refl ds h.2)

end

end

end ScriptLang
