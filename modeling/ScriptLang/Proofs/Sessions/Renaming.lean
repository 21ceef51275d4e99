import ScriptLang.Proofs.Running.Simulation
import ScriptLang.Proofs.Running.Still
import ScriptLang.Proofs.Scoping.Rename
import ScriptLang.Proofs.Sessions.Past

/-!
# Renaming a local variable changes nothing

* `Renaming.guise` — the two programs differ in nothing but the two names;
* `Stmt.like_rename` — a statement is alike the renamed one, under the mask that it is renamed with;
* `Session.rename_local` — a renamed program is accepted with the same distances, and is run with the same output, the
  same outcome and the same diagnostics up to the name.

The program may be run in any session that can be reached.  What earlier programs left in it is not renamed.
-/

namespace ScriptLang

/-! ## trees -/

/-- Two programs that differ in the two names, where labels have certain distances. -/
def Renaming.guise (r : Renaming) (δ : Label → Option Nat) : Guise where
  rename := Equiv.swap r.old r.new
  injective := (Equiv.swap r.old r.new).injective
  this := r.name_this (b := true)
  super := r.name_super (b := true)
  lines := Eq
  distance := δ
  admits _ := True

section

variable {r : Renaming} {δ : Label → Option Nat} {b : Bool} {Γ : Mask} {scopes : Scopes} {ctx : Context}

theorem Token.like_self (t : Token) : t.Like (r.guise δ) false t := ⟨rfl, rfl, rfl⟩

theorem Token.like_rename {t : Token} (h : t.lexeme ≠ r.new) : t.Like (r.guise δ) b (r.token b t) := by
  refine ⟨?_, Renaming.lexeme_token h, ?_⟩ <;> unfold Renaming.token <;> split <;> rfl

theorem Token.like_keyword {t : Token} (h : r.name b t.lexeme = t.lexeme) : t.Like (r.guise δ) b t := ⟨rfl, h.symm, rfl⟩

theorem Token.forall₂_like_rename {ts : List Token} (h : ∀ t ∈ ts, t.lexeme ≠ r.new) :
    List.Forall₂ (Token.Like (r.guise δ) b) ts (ts.map (r.token b)) := by
  induction ts with
  | nil => exact .nil
  | cons t ts ih =>
    rw [List.forall_mem_cons] at h
    exact .cons (Token.like_rename h.1) (ih h.2)

mutual

theorem Expr.like_rename (x : Expr) (hx : x.Ready r)
    (hδ : ∀ o ∈ x.occurrences, δ o.label = scopes.distance? o.name.lexeme) :
    x.Like (r.guise δ) Γ (x.rename r Γ scopes) := by
  cases x with
  | literal v => exact .literal
  | group x => exact .group (Expr.like_rename x hx hδ)
  | unary op x => exact .unary op.like_self (Expr.like_rename x hx hδ)
  | binary x op y =>
    simp only [Expr.Ready, Expr.occurrences, List.forall_mem_append] at hx hδ
    exact .binary (Expr.like_rename x hx.1 hδ.1) op.like_self (Expr.like_rename y hx.2 hδ.2)
  | logical x op y =>
    simp only [Expr.Ready, Expr.occurrences, List.forall_mem_append] at hx hδ
    exact .logical (Expr.like_rename x hx.1 hδ.1) op.like_self (Expr.like_rename y hx.2 hδ.2)
  | «variable» l name =>
    have hd := hδ ⟨.variable, l, name⟩ List.mem_cons_self
    have hn := (hx ⟨.variable, l, name⟩ List.mem_cons_self).2
    refine .variable trivial ?_
    rw [show (r.guise δ).distance l = scopes.distance? name.lexeme from hd]
    exact Token.like_rename hn
  | assign l name x =>
    simp only [Expr.Ready, Expr.occurrences, List.forall_mem_cons] at hx hδ
    refine .assign trivial ?_ (Expr.like_rename x hx.2 hδ.2)
    rw [show (r.guise δ).distance l = scopes.distance? name.lexeme from hδ.1]
    exact Token.like_rename hx.1.2
  | call f paren xs =>
    simp only [Expr.Ready, Expr.occurrences, List.forall_mem_append] at hx hδ
    exact .call (Expr.like_rename f hx.1 hδ.1) paren.like_self (Expr.forall₂_like_rename xs hx.2 hδ.2)
  | get x name => exact .get (Expr.like_rename x hx hδ) name.like_self
  | set x name y =>
    simp only [Expr.Ready, Expr.occurrences, List.forall_mem_append] at hx hδ
    exact .set (Expr.like_rename x hx.1 hδ.1) name.like_self (Expr.like_rename y hx.2 hδ.2)
  | this l keyword =>
    have hk : keyword.lexeme = "this" := (hx ⟨.this, l, keyword⟩ List.mem_cons_self).1
    refine .this trivial (Token.like_keyword ?_)
    rw [hk]
    exact Renaming.name_this
  | super l keyword name =>
    have hk : keyword.lexeme = "super" := (hx ⟨.super, l, keyword⟩ List.mem_cons_self).1
    refine .super trivial (Token.like_keyword ?_) name.like_self
    rw [hk]
    exact Renaming.name_super

theorem Expr.forall₂_like_rename (xs : List Expr)
    (hx : ∀ o ∈ Expr.occurrencesAll xs, o.Proper ∧ o.name.lexeme ≠ r.new)
    (hδ : ∀ o ∈ Expr.occurrencesAll xs, δ o.label = scopes.distance? o.name.lexeme) :
    List.Forall₂ (Expr.Like (r.guise δ) Γ) xs (Expr.renameAll r Γ scopes xs) := by
  cases xs with
  | nil => exact .nil
  | cons x xs =>
    simp only [Expr.occurrencesAll, List.forall_mem_append] at hx hδ
    exact .cons (Expr.like_rename x hx.1 hδ.1) (Expr.forall₂_like_rename xs hx.2 hδ.2)

end

theorem Expr.like_rename_sites {x : Expr} {heading : Option String} (hr : x.Regular) (hn : r.new ∉ x.names)
    (hs : Site.Known δ (x.sites ctx heading)) : x.Like (r.guise δ) Γ (x.rename r Γ ctx.scopes) :=
  Expr.like_rename x (Expr.ready_of_regular hr hn) fun _ ho => hs _ (List.mem_map_of_mem ho)

theorem Expr.rel_like_rename {x : Option Expr} {heading : Option String} (hr : ∀ e ∈ x, Expr.Regular e)
    (hn : r.new ∉ Expr.namesIn x) (hs : Site.Known δ (Expr.sitesIn ctx heading x)) :
    Option.Rel (Expr.Like (r.guise δ) Γ) x (x.map (Expr.rename r Γ ctx.scopes)) := by
  cases x with
  | none => exact .none
  | some e => exact .some (Expr.like_rename_sites (hr e rfl) hn hs)

end

open Findings

mutual

/-- A statement is alike the renamed one. -/
theorem Stmt.like_rename {r : Renaming} {δ : Label → Option Nat} {here : Address} {place : Place} {Γ : Mask}
    {ctx : Context} (s : Stmt) (hr : s.Regular) (hn : r.new ∉ s.names) (hspare : s.Spares r (Γ 0))
    (hf : (s.resolve place ctx.scopes).faults = []) (hs : Site.Known δ (s.sites ctx)) :
    s.Like (r.guise δ) Γ (s.rename r here Γ ctx.scopes) := by
  cases s with
  | expr x => exact .expr (Expr.like_rename_sites hr hn hs)
  | print keyword x => exact .print keyword.like_self (Expr.like_rename_sites hr hn hs)
  | varDecl name x =>
    simp only [Stmt.names, List.mem_cons, not_or] at hn
    have hx := Expr.rel_like_rename (Γ := Γ) hr.2 hn.2 hs
    rw [Context.scopes_put] at hx
    exact .varDecl (Token.like_rename fun heq => hn.1 heq.symm) hx
  | block body =>
    have hspares : ∀ s ∈ body, s.Spares r (r.hits here [] body) := Stmt.spares_of_hits hr hf
    rw [Stmt.resolve, ← Context.scopes_ofBlock ctx body] at hf
    exact .block (r.hits here [] body) (Stmt.likeAll_rename body hr hn hspares hf hs)
  | ifThen c t =>
    simp only [Stmt.resolve, faults_append, List.append_eq_nil_iff] at hf
    simp only [Stmt.names, List.mem_append, not_or] at hn
    simp only [Stmt.sites, Site.recorded_append] at hs
    obtain ⟨hrc, hd, hrt⟩ := hr
    exact .ifThen (Expr.like_rename_sites hrc hn.1 hs.1)
      (Stmt.like_rename t hrt hn.2 (Stmt.spares_of_declared_eq_nil hd) hf.2 hs.2)
  | ifElse c t e =>
    simp only [Stmt.resolve, faults_append, List.append_eq_nil_iff, ← Context.scopes_after] at hf
    simp only [Stmt.names, List.mem_append, not_or] at hn
    simp only [Stmt.sites, Site.recorded_append] at hs
    obtain ⟨hrc, ⟨hd, hrt⟩, hd', hre⟩ := hr
    have helse : e.Like (r.guise δ) Γ (e.rename r (1 :: here) Γ (ctx.after t).scopes) :=
      Stmt.like_rename e hre hn.2 (Stmt.spares_of_declared_eq_nil hd') hf.2 hs.2
    rw [Context.scopes_after] at helse
    exact .ifElse (Expr.like_rename_sites hrc hn.1.1 hs.1.1)
      (Stmt.like_rename t hrt hn.1.2 (Stmt.spares_of_declared_eq_nil hd) hf.1.2 hs.1.2) helse
  | loop c b i =>
    simp only [Stmt.resolve, faults_append, List.append_eq_nil_iff, ← Context.scopes_after] at hf
    simp only [Stmt.names, List.mem_append, not_or] at hn
    simp only [Stmt.sites, Site.recorded_append] at hs
    obtain ⟨hrc, ⟨hd, hrb⟩, hri⟩ := hr
    have hincrement := Expr.rel_like_rename (Γ := Γ) hri hn.2 hs.2
    rw [Context.scopes_after] at hincrement
    exact .loop (Expr.like_rename_sites hrc hn.1.1 hs.1.1)
      (Stmt.like_rename b hrb hn.1.2 (Stmt.spares_of_declared_eq_nil hd) hf.1.2 hs.1.2) hincrement
  | funDecl d =>
    simp only [Stmt.resolve, faults_append, List.append_eq_nil_iff, ← Context.scopes_put] at hf
    have hname : d.name.lexeme ≠ r.new := fun heq =>
      hn (heq ▸ Stmt.mem_names_of_mem_declared (s := .funDecl d) hr List.mem_cons_self)
    have hd : d.Like (r.guise δ) Γ (d.rename r here Γ (ctx.put true d.name.lexeme).scopes) :=
      FunctionDecl.like_rename d hr.2 hn hf.2 hs
    rw [Context.scopes_put] at hd
    exact .funDecl (Renaming.name_eq_of_spares hname fun hb => hspare hb _ List.mem_cons_self) hd
  | returnFrom keyword x => exact .returnFrom keyword.like_self (Expr.rel_like_rename hr hn hs)
  | classDecl name x ms =>
    simp only [Stmt.resolve, faults_append, List.append_eq_nil_iff, ← Context.scopes_put,
      ← Context.scopes_ofClass] at hf
    simp only [Stmt.names, List.cons_append, List.mem_cons, List.mem_append, not_or] at hn
    simp only [Stmt.sites, Site.recorded_append] at hs
    have hname : name.lexeme ≠ r.new := fun heq => hn.1 heq.symm
    have hregular : ∀ e ∈ x, Expr.Regular e := fun e he => Expr.regular_of_isName (hr.2.1 e he)
    have hx := Expr.rel_like_rename (Γ := Γ) hregular hn.2.1 hs.1
    let inner := Region.only "this" :: (ctx.put true name.lexeme).ofClass x
    have hms : FunctionDecl.LikeAll (r.guise δ) (Γ.ofClass x) ms
        (FunctionDecl.renameAll r here 0 (Γ.ofClass x) (Context.scopes inner) ms) :=
      FunctionDecl.likeAll_rename ms hr.2.2 hn.2.2 hf.2 hs.2
    rw [Context.scopes_put] at hx
    rw [Context.scopes_ofClass, Context.scopes_put] at hms
    exact .classDecl name.like_self (Renaming.name_eq_of_spares hname fun hb => hspare hb _ List.mem_cons_self) hx hms
  | breakLoop keyword => exact .breakLoop keyword.like_self
  | continueLoop keyword => exact .continueLoop keyword.like_self

theorem Stmt.likeAll_rename {r : Renaming} {δ : Label → Option Nat} {above : Address} {n : Nat} {place : Place}
    {Γ : Mask} {ctx : Context} (body : List Stmt) (hr : Stmt.RegularAll body) (hn : r.new ∉ Stmt.namesAll body)
    (hspare : ∀ s ∈ body, s.Spares r (Γ 0)) (hf : (Stmt.resolveAll place ctx.scopes body).faults = [])
    (hs : Site.Known δ (Stmt.sitesAll ctx body)) :
    Stmt.LikeAll (r.guise δ) Γ body (Stmt.renameAll r above n Γ ctx.scopes body) := by
  cases body with
  | nil => exact .nil
  | cons s rest =>
    simp only [Stmt.resolveAll, faults_append, List.append_eq_nil_iff, ← Context.scopes_after] at hf
    simp only [Stmt.namesAll, List.mem_append, not_or] at hn
    simp only [Stmt.sitesAll, Site.recorded_append] at hs
    rw [List.forall_mem_cons] at hspare
    have hrest : Stmt.LikeAll (r.guise δ) Γ rest (Stmt.renameAll r above (n + 1) Γ (ctx.after s).scopes rest) :=
      Stmt.likeAll_rename rest hr.2 hn.2 hspare.2 hf.2 hs.2
    rw [Context.scopes_after] at hrest
    exact .cons (Stmt.like_rename s hr.1 hn.1 hspare.1 hf.1 hs.1) hrest

theorem FunctionDecl.like_rename {r : Renaming} {δ : Label → Option Nat} {here : Address} {place : Place} {Γ : Mask}
    {ctx : Context} (d : FunctionDecl) (hr : d.Regular) (hn : r.new ∉ d.names)
    (hf : (d.resolve place ctx.scopes).faults = []) (hs : Site.Known δ (d.sites ctx)) :
    d.Like (r.guise δ) Γ (d.rename r here Γ ctx.scopes) := by
  cases d with
  | mk name params body =>
    simp only [FunctionDecl.resolve, faults_append, List.append_eq_nil_iff] at hf
    simp only [FunctionDecl.names, List.cons_append, List.mem_cons, List.mem_append, not_or, List.mem_map, not_exists,
      not_and] at hn
    have hspares : ∀ s ∈ body, s.Spares r (r.hits here params body) := Stmt.spares_of_hits hr.2 hf.2
    rw [← Context.scopes_ofFunction ctx params body] at hf
    have hbody : Stmt.LikeAll (r.guise δ) (Γ.cons (r.hits here params body)) body
        (Stmt.renameAll r here 0 (Γ.cons (r.hits here params body)) (ctx.ofFunction params body).scopes body) :=
      Stmt.likeAll_rename body hr.2 hn.2.2 hspares hf.2 hs
    rw [Context.scopes_ofFunction] at hbody
    exact .mk (r.hits here params body) name.like_self (Token.forall₂_like_rename hn.2.1) hbody

theorem FunctionDecl.likeAll_rename {r : Renaming} {δ : Label → Option Nat} {above : Address} {n : Nat}
    {klass : ClassPlace} {Γ : Mask} {ctx : Context} (ds : List FunctionDecl) (hr : FunctionDecl.RegularAll ds)
    (hn : r.new ∉ FunctionDecl.namesAll ds) (hf : (FunctionDecl.resolveMethods klass ctx.scopes ds).faults = [])
    (hs : Site.Known δ (FunctionDecl.sitesAll ctx ds)) :
    FunctionDecl.LikeAll (r.guise δ) Γ ds (FunctionDecl.renameAll r above n Γ ctx.scopes ds) := by
  cases ds with
  | nil => exact .nil
  | cons d ds =>
    simp only [FunctionDecl.resolveMethods, faults_append, List.append_eq_nil_iff] at hf
    simp only [FunctionDecl.namesAll, List.mem_append, not_or] at hn
    simp only [FunctionDecl.sitesAll, Site.recorded_append] at hs
    exact .cons (FunctionDecl.like_rename d hr.1 hn.1 hf.1 hs.1) (FunctionDecl.likeAll_rename ds hr.2 hn.2 hf.2 hs.2)

end

/-! ## runs -/

/-- The diagnostic with the two names exchanged, in its token and in its wording. -/
def Diagnostic.exchanged (r : Renaming) : Diagnostic → Diagnostic
  | .runtime anchor cause => .runtime { anchor with lexeme := r.name true anchor.lexeme } (cause.renamed (r.name true))
  | d => d

/-- Two runs have the same outcome, the same output and the same diagnostics up to the two names. -/
structure Answer.SameUpTo (r : Renaming) (a a' : Answer) : Prop where
  outcome : a'.outcome = a.outcome
  output : a'.session.output = a.session.output
  diagnostics : List.Forall₂ (fun d d' => d' = d ∨ d' = d.exchanged r) a.diagnostics a'.diagnostics

theorem Token.Like.eq {r : Renaming} {δ : Label → Option Nat} {b : Bool} {t t' : Token}
    (h : t.Like (r.guise δ) b t') : t' = { t with lexeme := r.name b t.lexeme } := by
  obtain ⟨kind, lexeme, line⟩ := t'
  have hkind : kind = t.kind := h.kind
  have hlexeme : lexeme = r.name b t.lexeme := h.lexeme
  have hline : t.line = line := h.line
  rw [hkind, hlexeme, hline]

theorem Fault.Like.exchanged {r : Renaming} {δ : Label → Option Nat} {f f' : Fault} (h : f.Like (r.guise δ) f') :
    f'.toDiagnostic = f.toDiagnostic ∨ f'.toDiagnostic = f.toDiagnostic.exchanged r := by
  cases h with
  | @runtime t t' cause b ht =>
    rw [ht.eq]
    cases b with
    | true => exact .inr rfl
    | false =>
      left
      cases cause <;> rfl
  | output => exact .inl rfl

namespace Session

variable {s s₁ s₂ s' : Session} {sites : List Site} {source : String} {program : List Stmt} {r : Renaming}

/-- What alike programs leave behind and report. -/
theorem sameUpTo_execute {δ : Label → Option Nat} {v : View} {program' : List Stmt} (hm : s₂.machine = s₁.machine)
    (hσ : s₂.setting = s₁.setting) (hδ : s₁.setting.distance? = δ) (hb : ∀ f ∈ s₁.hosts, Host.Blind f)
    (hlike : s₁.machine.Like (r.guise δ) v s₁.machine)
    (hp : Stmt.LikeAll (r.guise δ) (v.mask Heap.globals) program program') (fuel : Nat) :
    (s₁.execute fuel program).SameUpTo r (s₂.execute fuel program') := by
  have hjoins : (r.guise δ).Joins s₁.setting s₁.setting := ⟨fun l _ => congrFun hδ l, fun l _ => congrFun hδ l, rfl, hb⟩
  have hagree : ((do Exec.program fuel s₁.setting program; Exec.flush : Exec Unit) s₁.machine).Agree (r.guise δ) v
      (fun _ _ _ => True) ((do Exec.program fuel s₁.setting program'; Exec.flush : Exec Unit) s₁.machine) :=
    agree_program_flush hjoins hlike hp
  unfold execute
  rw [hm, hσ]
  revert hagree
  generalize (do Exec.program fuel s₁.setting program; Exec.flush : Exec Unit) s₁.machine = x
  generalize (do Exec.program fuel s₁.setting program'; Exec.flush : Exec Unit) s₁.machine = x'
  intro hagree
  cases hagree with
  | done v' _ hm' _ => exact ⟨rfl, congrArg (fun c => c.sink.written) hm'.console, .nil⟩
  | failed v' hf hm' => exact ⟨rfl, congrArg (fun c => c.sink.written) hm'.console, .cons hf.exchanged .nil⟩
  | outOfFuel => exact ⟨rfl, congrArg (fun m => m.console.sink.written) hm, .nil⟩

/-- The run of a renamed program in a session that has accepted the program. -/
theorem sameUpTo_apply (hs : Reached s sites) (hb : ∀ f ∈ s.hosts, Host.Blind f)
    (he : s.enter? source = some (s₁, program)) (hn : r.new ∉ Stmt.namesAll program) (hm : s₂.machine = s₁.machine)
    (hdist : s₂.distances = s₁.distances) (hhost : s₂.hosts = s₁.hosts) (fuel : Nat) :
    (s₁.execute fuel program).SameUpTo r (s₂.execute fuel (r.apply program)) := by
  obtain ⟨hreads, hfaults, hs₁⟩ := enter?_eq_some he
  have hknown : Site.Known s₁.setting.distance? (Stmt.sitesAll [] program) := fun site hsite =>
    (hs.kept.enter he).distance site (List.mem_append_right _ hsite)
  have hlike : Stmt.LikeAll (r.guise s₁.setting.distance?) .clear program
      (Stmt.renameAll r [] 0 .clear (Context.scopes []) program) :=
    Stmt.likeAll_rename program (regular_of_reads hreads) hn (fun _ _ h => by cases h) hfaults hknown
  obtain ⟨runs, hran⟩ := hs.exists_ran
  obtain ⟨w, hw⟩ := hran.scene
  have hself : s₁.machine.Like (r.guise s₁.setting.distance?) (.still s₁.machine.heap) s₁.machine := by
    rw [show s₁.machine = s.machine by rw [hs₁]]
    exact hw.like (fun _ => rfl) fun _ => trivial
  have hhosts : s₁.hosts = s.hosts := by rw [hs₁]
  have hσ : s₂.setting = s₁.setting := by
    unfold setting
    rw [hdist, hhost]
  exact sameUpTo_execute hm hσ rfl (hhosts ▸ hb) hself hlike fuel

/-- A session that may not run refuses such a source, with nothing to report. -/
theorem run_of_not_runnable (hr : s.runnable = false) (hl : lexicalDiagnostics source = [])
    (hp : (parse s.fresh (tokensOf source)).result = .ok program) (fuel : Nat) :
    (s.run fuel source).outcome = .staticError ∧ (s.run fuel source).diagnostics = [] ∧
      (s.run fuel source).session.output = s.output := by
  unfold run
  simp only [hp, hl, hr]
  exact ⟨rfl, rfl, rfl⟩

/-- Rename a variable or parameter of a block or function in a source that passes all checks, to a name that the program
does not have and that is no keyword.  The renamed program has the same distances.  In every session that can be reached
its run has the same outcome, the same output and the same diagnostics up to the two names; so has the run of every
source that reads as the renamed program. -/
theorem rename_local {distances : Distances} (hs : Reached s sites) (hb : ∀ f ∈ s.hosts, Host.Blind f)
    (hl : lexicalDiagnostics source = []) (hp : (parse s.fresh (tokensOf source)).result = .ok program)
    (hd : resolveProgram program = .ok distances) (r : Renaming) (hn : r.new ∉ Stmt.namesAll program) :
    resolveProgram (r.apply program) = .ok distances ∧
    (∀ s' fuel, s.enter? source = some (s', program) →
      (s'.execute fuel program).SameUpTo r (s'.execute fuel (r.apply program))) ∧
    ∀ source', lexicalDiagnostics source' = [] →
      (parse s.fresh (tokensOf source')).result = .ok (r.apply program) →
      ∀ fuel, (s.run fuel source).SameUpTo r (s.run fuel source') := by
  obtain ⟨hfaults, hdistances⟩ := resolveProgram_eq_ok.1 hd
  have hsame : Stmt.resolveAll .top [] (r.apply program) = Stmt.resolveAll .top [] program :=
    Renaming.resolve_apply (regular_of_reads (reads_of_parse hp)) hn hfaults
  have hresolved : resolveProgram (r.apply program) = .ok distances := by
    rw [resolveProgram_eq_ok, hsame]
    exact ⟨hfaults, hdistances⟩
  refine ⟨hresolved, fun s' fuel he => sameUpTo_apply hs hb he hn rfl rfl rfl fuel, fun source' hl' hp' fuel => ?_⟩
  cases hr : s.runnable with
  | true =>
    have he := enter?_of_reads hr hl (reads_of_parse hp) hfaults
    have he' := enter?_of_reads hr hl' (reads_of_parse hp') (by rwa [hsame])
    rw [run_eq_execute he, run_eq_execute he']
    refine sameUpTo_apply hs hb he hn ?_ ?_ ?_ fuel
    · rfl
    · rw [hsame]
    · rfl
  | false =>
    obtain ⟨ho, hds, hout⟩ := run_of_not_runnable hr hl hp fuel
    obtain ⟨ho', hds', hout'⟩ := run_of_not_runnable hr hl' hp' fuel
    refine ⟨ho'.trans ho.symm, hout'.trans hout.symm, ?_⟩
    rw [hds, hds']
    exact .nil

/-- The variable of a block, which a function in it reads and writes. -/
theorem rename_local_captured : ∃ r : Renaming, r.scope = [0] ∧ r.old = "a" ∧ r.new = "b" ∧
    ∀ fuel, ((start ⟨.unlimited, [], .running 0⟩).run fuel "{ var a; fun f() { a = a; } f(); print a; }").SameUpTo r
      ((start ⟨.unlimited, [], .running 0⟩).run fuel "{ var b; fun f() { b = b; } f(); print b; }") := by
  let r : Renaming := ⟨[0], "a", "b", ⟨by decide, by decide⟩, ⟨by decide, by decide⟩⟩
  let a : Token := ⟨.identifier, "a", 1⟩
  let f : Token := ⟨.identifier, "f", 1⟩
  let program : List Stmt := [.block [.varDecl a none, .funDecl (.mk f [] [.expr (.assign 2 a (.variable 1 a))]),
    .expr (.call (.variable 3 f) (.ofMark .rightParen 1) []), .print ⟨.keyword .kwPrint, "print", 1⟩ (.variable 4 a)]]
  have hl : lexicalDiagnostics "{ var a; fun f() { a = a; } f(); print a; }" = [] := rfl
  have hp : (parse 0 (tokensOf "{ var a; fun f() { a = a; } f(); print a; }")).result = .ok program := rfl
  have hd : resolveProgram program = .ok [(1, 1), (2, 1), (3, 0), (4, 0)] := rfl
  have hn : r.new ∉ Stmt.namesAll program := by decide
  have hl' : lexicalDiagnostics "{ var b; fun f() { b = b; } f(); print b; }" = [] := rfl
  have hp' : (parse 0 (tokensOf "{ var b; fun f() { b = b; } f(); print b; }")).result = .ok (r.apply program) := rfl
  have hhosts : ∀ f ∈ (start ⟨.unlimited, [], .running 0⟩).hosts, Host.Blind f := fun f hf =>
    absurd hf (Array.not_mem_empty f)
  exact ⟨r, rfl, rfl, rfl, (rename_local (.start _) hhosts hl hp hd r hn).2.2 _ hl' hp'⟩

end Session

end ScriptLang
