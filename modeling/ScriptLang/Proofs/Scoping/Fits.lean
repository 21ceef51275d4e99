import ScriptLang.Proofs.Scoping.Site

/-!
# What an accepted statement keeps to

* `Stmt.Regular` — what the grammar promises about a tree: branches and loop bodies declare nothing, declared names are
  no keywords, a superclass is a name;
* `Site.Legal` — what the scope rules promise about an occurrence;
* `Stmt.Fits S ctx` — the sites of a statement in `ctx` are all in `S`, and it declares only names that the region
  around it has room for: names that it announces and that are not known yet;
* `Stmt.fits_of_resolve` — a regular statement in which the walk finds no fault fits, and its sites are legal.
-/

namespace ScriptLang

/-- A name that is neither of the keywords that stand for bindings. -/
def Ordinary (name : String) : Prop := name ≠ "this" ∧ name ≠ "super"

/-! ## statements that fit -/

/-- The innermost region announces a name and does not know it yet; the top level has room for every name. -/
def Context.Admits (name : String) : Context → Prop
  | [] => True
  | r :: _ => name ∈ r.names ∧ Assoc.get? r.known name = none ∧ name ≠ "this"

/-- The sites of an expression are in `S`. -/
def Expr.Fits (S : Site → Prop) (ctx : Context) (heading : Option String) (e : Expr) : Prop :=
  ∀ o ∈ e.occurrences, S ⟨o, ctx, heading⟩

/-- The sites of an expression that may be absent are in `S`. -/
def Expr.FitsIn (S : Site → Prop) (ctx : Context) (heading : Option String) (e : Option Expr) : Prop :=
  ∀ x ∈ e, Expr.Fits S ctx heading x

mutual

/-- The sites of a statement are in `S`, and the regions have room for what it declares. -/
def Stmt.Fits (S : Site → Prop) (ctx : Context) : Stmt → Prop
  | .expr e => e.Fits S ctx none
  | .print _ e => e.Fits S ctx none
  | .varDecl name e => ctx.Admits name.lexeme ∧ Expr.FitsIn S (ctx.put false name.lexeme) none e
  | .block body => Stmt.FitsAll S (ctx.ofBlock body) body
  | .ifThen c t => c.Fits S ctx none ∧ t.declared = [] ∧ t.Fits S ctx
  | .ifElse c t e => c.Fits S ctx none ∧ (t.declared = [] ∧ t.Fits S ctx) ∧ e.declared = [] ∧ e.Fits S ctx
  | .loop c b i => c.Fits S ctx none ∧ (b.declared = [] ∧ b.Fits S ctx) ∧ Expr.FitsIn S ctx none i
  | .funDecl d => ctx.Admits d.name.lexeme ∧ d.Fits S (ctx.put true d.name.lexeme)
  | .returnFrom _ e => Expr.FitsIn S ctx none e
  | .classDecl name s ms =>
    ctx.Admits name.lexeme ∧ Expr.FitsIn S (ctx.put true name.lexeme) (some name.lexeme) s ∧
      FunctionDecl.FitsAll S (Region.only "this" :: (ctx.put true name.lexeme).ofClass s) ms
  | .breakLoop _ => True
  | .continueLoop _ => True

/-- Statements fit, each in the context behind those before it. -/
def Stmt.FitsAll (S : Site → Prop) (ctx : Context) : List Stmt → Prop
  | [] => True
  | s :: rest => s.Fits S ctx ∧ Stmt.FitsAll S (ctx.after s) rest

/-- A function body fits. -/
def FunctionDecl.Fits (S : Site → Prop) (ctx : Context) : FunctionDecl → Prop
  | .mk _ params body => (∀ p ∈ params, p.lexeme ≠ "this") ∧ Stmt.FitsAll S (ctx.ofFunction params body) body

/-- Function bodies that stand side by side fit. -/
def FunctionDecl.FitsAll (S : Site → Prop) (ctx : Context) : List FunctionDecl → Prop
  | [] => True
  | d :: ds => d.Fits S ctx ∧ FunctionDecl.FitsAll S ctx ds

end

section

variable {S : Site → Prop} {ctx : Context}

theorem FunctionDecl.FitsAll.fits {ds : List FunctionDecl} (h : FunctionDecl.FitsAll S ctx ds) {d : FunctionDecl}
    (hd : d ∈ ds) : d.Fits S ctx := by
  induction ds with
  | nil => cases hd
  | cons d' ds ih =>
    obtain ⟨h₁, h₂⟩ := h
    rcases List.mem_cons.1 hd with rfl | hd
    · exact h₁
    · exact ih h₂ hd

theorem FunctionDecl.Fits.params {d : FunctionDecl} (h : d.Fits S ctx) : ∀ p ∈ d.params, p.lexeme ≠ "this" := by
  cases d with
  | mk name params body => exact h.1

theorem FunctionDecl.Fits.body {d : FunctionDecl} (h : d.Fits S ctx) :
    Stmt.FitsAll S (ctx.ofFunction d.params d.body) d.body := by
  cases d with
  | mk name params body => exact h.2

end

/-! ## the occurrences of what fits -/

/-- An occurrence has a site in `S`. -/
def Occurrence.Sited (S : Site → Prop) (o : Occurrence) : Prop := ∃ ctx heading, S ⟨o, ctx, heading⟩

section

variable {S : Site → Prop}

theorem Expr.Fits.sited {ctx : Context} {heading : Option String} {e : Expr} (h : e.Fits S ctx heading) :
    ∀ o ∈ e.occurrences, o.Sited S :=
  fun o ho => ⟨ctx, heading, h o ho⟩

theorem Expr.FitsIn.sited {ctx : Context} {heading : Option String} {e : Option Expr}
    (h : Expr.FitsIn S ctx heading e) : ∀ o ∈ Expr.occurrencesIn e, o.Sited S := by
  cases e with
  | none => simp [Expr.occurrencesIn]
  | some x => exact Expr.Fits.sited (h x rfl)

mutual

theorem Stmt.Fits.sited {ctx : Context} {s : Stmt} (h : s.Fits S ctx) : ∀ o ∈ s.occurrences, o.Sited S := by
  cases s with
  | expr e => exact Expr.Fits.sited h
  | print keyword e => exact Expr.Fits.sited h
  | varDecl name e => exact Expr.FitsIn.sited h.2
  | block body => exact Stmt.FitsAll.sited h
  | ifThen c t => exact List.forall_mem_append.2 ⟨Expr.Fits.sited h.1, Stmt.Fits.sited h.2.2⟩
  | ifElse c t e =>
    obtain ⟨hc, ⟨-, ht⟩, -, he⟩ := h
    refine List.forall_mem_append.2 ⟨List.forall_mem_append.2 ⟨Expr.Fits.sited hc, ?_⟩, ?_⟩
    · exact Stmt.Fits.sited ht
    · exact Stmt.Fits.sited he
  | loop c b i =>
    obtain ⟨hc, ⟨-, hb⟩, hi⟩ := h
    refine List.forall_mem_append.2 ⟨List.forall_mem_append.2 ⟨Expr.Fits.sited hc, ?_⟩, Expr.FitsIn.sited hi⟩
    exact Stmt.Fits.sited hb
  | funDecl d => exact FunctionDecl.Fits.sited h.2
  | returnFrom keyword e => exact Expr.FitsIn.sited h
  | classDecl name s ms => exact List.forall_mem_append.2 ⟨Expr.FitsIn.sited h.2.1, FunctionDecl.FitsAll.sited h.2.2⟩
  | breakLoop keyword => simp [Stmt.occurrences]
  | continueLoop keyword => simp [Stmt.occurrences]

theorem Stmt.FitsAll.sited {ctx : Context} {body : List Stmt} (h : Stmt.FitsAll S ctx body) :
    ∀ o ∈ Stmt.occurrencesAll body, o.Sited S := by
  cases body with
  | nil => simp [Stmt.occurrencesAll]
  | cons s rest => exact List.forall_mem_append.2 ⟨Stmt.Fits.sited h.1, Stmt.FitsAll.sited h.2⟩

theorem FunctionDecl.Fits.sited {ctx : Context} {d : FunctionDecl} (h : d.Fits S ctx) :
    ∀ o ∈ d.occurrences, o.Sited S := by
  cases d with
  | mk name params body => exact Stmt.FitsAll.sited h.2

theorem FunctionDecl.FitsAll.sited {ctx : Context} {ds : List FunctionDecl} (h : FunctionDecl.FitsAll S ctx ds) :
    ∀ o ∈ FunctionDecl.occurrencesAll ds, o.Sited S := by
  cases ds with
  | nil => simp [FunctionDecl.occurrencesAll]
  | cons d ds => exact List.forall_mem_append.2 ⟨FunctionDecl.Fits.sited h.1, FunctionDecl.FitsAll.sited h.2⟩

end

end

/-! ## more sites -/

section

variable {S S' : Site → Prop} {ctx : Context} {heading : Option String}

theorem Expr.Fits.mono {e : Expr} (h : e.Fits S ctx heading) (hS : ∀ site, S site → S' site) :
    e.Fits S' ctx heading :=
  fun o ho => hS _ (h o ho)

theorem Expr.FitsIn.mono {e : Option Expr} (h : Expr.FitsIn S ctx heading e) (hS : ∀ site, S site → S' site) :
    Expr.FitsIn S' ctx heading e :=
  fun x hx => (h x hx).mono hS

mutual

theorem Stmt.Fits.mono {ctx : Context} {s : Stmt} (h : s.Fits S ctx) (hS : ∀ site, S site → S' site) :
    s.Fits S' ctx := by
  cases s with
  | expr e => exact Expr.Fits.mono h hS
  | print keyword e => exact Expr.Fits.mono h hS
  | varDecl name e => exact ⟨h.1, Expr.FitsIn.mono h.2 hS⟩
  | block body => exact Stmt.FitsAll.mono h hS
  | ifThen c t => exact ⟨Expr.Fits.mono h.1 hS, h.2.1, Stmt.Fits.mono h.2.2 hS⟩
  | ifElse c t e =>
    obtain ⟨hc, ⟨hd, ht⟩, hd', he⟩ := h
    exact ⟨Expr.Fits.mono hc hS, ⟨hd, Stmt.Fits.mono ht hS⟩, hd', Stmt.Fits.mono he hS⟩
  | loop c b i =>
    obtain ⟨hc, ⟨hd, hb⟩, hi⟩ := h
    exact ⟨Expr.Fits.mono hc hS, ⟨hd, Stmt.Fits.mono hb hS⟩, Expr.FitsIn.mono hi hS⟩
  | funDecl d => exact ⟨h.1, FunctionDecl.Fits.mono h.2 hS⟩
  | returnFrom keyword e => exact Expr.FitsIn.mono h hS
  | classDecl name s ms => exact ⟨h.1, Expr.FitsIn.mono h.2.1 hS, FunctionDecl.FitsAll.mono h.2.2 hS⟩
  | breakLoop keyword => trivial
  | continueLoop keyword => trivial

theorem Stmt.FitsAll.mono {ctx : Context} {body : List Stmt} (h : Stmt.FitsAll S ctx body)
    (hS : ∀ site, S site → S' site) : Stmt.FitsAll S' ctx body := by
  cases body with
  | nil => trivial
  | cons s rest => exact ⟨Stmt.Fits.mono h.1 hS, Stmt.FitsAll.mono h.2 hS⟩

theorem FunctionDecl.Fits.mono {ctx : Context} {d : FunctionDecl} (h : d.Fits S ctx)
    (hS : ∀ site, S site → S' site) : d.Fits S' ctx := by
  cases d with
  | mk name params body => exact ⟨h.1, Stmt.FitsAll.mono h.2 hS⟩

theorem FunctionDecl.FitsAll.mono {ctx : Context} {ds : List FunctionDecl} (h : FunctionDecl.FitsAll S ctx ds)
    (hS : ∀ site, S site → S' site) : FunctionDecl.FitsAll S' ctx ds := by
  cases ds with
  | nil => trivial
  | cons d ds => exact ⟨FunctionDecl.Fits.mono h.1 hS, FunctionDecl.FitsAll.mono h.2 hS⟩

end

end

/-! ## all sites -/

section

variable {S : Site → Prop} {heading : Option String} {site : Site}

theorem Expr.Fits.of_mem {ctx : Context} {e : Expr} (h : e.Fits S ctx heading) (hs : site ∈ e.sites ctx heading) :
    S site := by
  obtain ⟨o, ho, rfl⟩ := List.mem_map.1 hs
  exact h o ho

theorem Expr.FitsIn.of_mem {ctx : Context} {e : Option Expr} (h : Expr.FitsIn S ctx heading e)
    (hs : site ∈ Expr.sitesIn ctx heading e) : S site := by
  cases e with
  | none => cases hs
  | some x => exact (h x rfl).of_mem hs

mutual

theorem Stmt.Fits.of_mem {ctx : Context} {s : Stmt} (h : s.Fits S ctx) (hs : site ∈ s.sites ctx) : S site := by
  cases s with
  | expr e => exact Expr.Fits.of_mem h hs
  | print keyword e => exact Expr.Fits.of_mem h hs
  | varDecl name e => exact Expr.FitsIn.of_mem h.2 hs
  | block body => exact Stmt.FitsAll.of_mem h hs
  | ifThen c t =>
    rcases List.mem_append.1 hs with hs | hs
    · exact Expr.Fits.of_mem h.1 hs
    · exact Stmt.Fits.of_mem h.2.2 hs
  | ifElse c t e =>
    obtain ⟨hc, ⟨hd, ht⟩, -, he⟩ := h
    rcases List.mem_append.1 hs with hs | hs
    · rcases List.mem_append.1 hs with hs | hs
      · exact Expr.Fits.of_mem hc hs
      · exact Stmt.Fits.of_mem ht hs
    · rw [Context.after_of_declared_eq_nil ctx hd] at hs
      exact Stmt.Fits.of_mem he hs
  | loop c b i =>
    obtain ⟨hc, ⟨hd, hb⟩, hi⟩ := h
    rcases List.mem_append.1 hs with hs | hs
    · rcases List.mem_append.1 hs with hs | hs
      · exact Expr.Fits.of_mem hc hs
      · exact Stmt.Fits.of_mem hb hs
    · rw [Context.after_of_declared_eq_nil ctx hd] at hs
      exact Expr.FitsIn.of_mem hi hs
  | funDecl d => exact FunctionDecl.Fits.of_mem h.2 hs
  | returnFrom keyword e => exact Expr.FitsIn.of_mem h hs
  | classDecl name s ms =>
    rcases List.mem_append.1 hs with hs | hs
    · exact Expr.FitsIn.of_mem h.2.1 hs
    · exact FunctionDecl.FitsAll.of_mem h.2.2 hs
  | breakLoop keyword => cases hs
  | continueLoop keyword => cases hs

theorem Stmt.FitsAll.of_mem {ctx : Context} {body : List Stmt} (h : Stmt.FitsAll S ctx body)
    (hs : site ∈ Stmt.sitesAll ctx body) : S site := by
  cases body with
  | nil => cases hs
  | cons s rest =>
    rcases List.mem_append.1 hs with hs | hs
    · exact Stmt.Fits.of_mem h.1 hs
    · exact Stmt.FitsAll.of_mem h.2 hs

theorem FunctionDecl.Fits.of_mem {ctx : Context} {d : FunctionDecl} (h : d.Fits S ctx) (hs : site ∈ d.sites ctx) :
    S site := by
  cases d with
  | mk name params body => exact Stmt.FitsAll.of_mem h.2 hs

theorem FunctionDecl.FitsAll.of_mem {ctx : Context} {ds : List FunctionDecl} (h : FunctionDecl.FitsAll S ctx ds)
    (hs : site ∈ FunctionDecl.sitesAll ctx ds) : S site := by
  cases ds with
  | nil => cases hs
  | cons d ds =>
    rcases List.mem_append.1 hs with hs | hs
    · exact FunctionDecl.Fits.of_mem h.1 hs
    · exact FunctionDecl.FitsAll.of_mem h.2 hs

end

end

/-! ## regular trees -/

/-- The name of an occurrence is of the sort that its node has. -/
def Occurrence.Proper (o : Occurrence) : Prop :=
  match o.reference with
  | .variable => Ordinary o.name.lexeme
  | .assign => Ordinary o.name.lexeme
  | .this => o.name.lexeme = "this"
  | .super => o.name.lexeme = "super"

/-- The occurrences in an expression are proper. -/
def Expr.Regular (e : Expr) : Prop := ∀ o ∈ e.occurrences, o.Proper

/-- A superclass is a name. -/
def Expr.IsName : Expr → Prop
  | .variable _ name => Ordinary name.lexeme
  | _ => False

mutual

/-- What the grammar promises about a statement. -/
def Stmt.Regular : Stmt → Prop
  | .expr e => e.Regular
  | .print _ e => e.Regular
  | .varDecl name e => Ordinary name.lexeme ∧ ∀ x ∈ e, Expr.Regular x
  | .block body => Stmt.RegularAll body
  | .ifThen c t => c.Regular ∧ t.declared = [] ∧ t.Regular
  | .ifElse c t e => c.Regular ∧ (t.declared = [] ∧ t.Regular) ∧ e.declared = [] ∧ e.Regular
  | .loop c b i => c.Regular ∧ (b.declared = [] ∧ b.Regular) ∧ ∀ x ∈ i, Expr.Regular x
  | .funDecl d => Ordinary d.name.lexeme ∧ d.Regular
  | .returnFrom _ e => ∀ x ∈ e, Expr.Regular x
  | .classDecl name s ms => Ordinary name.lexeme ∧ (∀ x ∈ s, Expr.IsName x) ∧ FunctionDecl.RegularAll ms
  | .breakLoop _ => True
  | .continueLoop _ => True

/-- What the grammar promises about statements. -/
def Stmt.RegularAll : List Stmt → Prop
  | [] => True
  | s :: rest => s.Regular ∧ Stmt.RegularAll rest

/-- What the grammar promises about a function. -/
def FunctionDecl.Regular : FunctionDecl → Prop
  | .mk _ params body => (∀ p ∈ params, Ordinary p.lexeme) ∧ Stmt.RegularAll body

/-- What the grammar promises about functions. -/
def FunctionDecl.RegularAll : List FunctionDecl → Prop
  | [] => True
  | d :: ds => d.Regular ∧ FunctionDecl.RegularAll ds

end

/-! ## contexts of accepted statements -/

/-- No name of a region waits for its initializer. -/
def Region.Settled (r : Region) : Prop := ∀ n, Assoc.get? r.known n ≠ some false

theorem Region.settled_only {name : String} : (Region.only name).Settled := by
  intro n hn
  simp only [Region.only, Scope.only, Assoc.get?] at hn
  split at hn <;> cases hn

namespace Scopes

theorem distance?_put_of_ne {n name : String} (h : name ≠ n) (ready : Bool) (scopes : Scopes) :
    (scopes.put ready name).distance? n = scopes.distance? n := by
  cases scopes with
  | nil => rfl
  | cons scope outer => simp only [put, distance?, Assoc.get?_set_of_ne _ h]

theorem isPending_put_of_ne {n name : String} (h : name ≠ n) (ready : Bool) (scopes : Scopes) :
    (scopes.put ready name).isPending n = scopes.isPending n := by
  cases scopes with
  | nil => rfl
  | cons scope outer => simp only [put, isPending, Assoc.get?_set_of_ne _ h]

end Scopes

namespace Context

/-- No name waits for its initializer. -/
def Settled (ctx : Context) : Prop := ∀ r ∈ ctx, r.Settled

/-- At most an ordinary name of the innermost region waits for its initializer. -/
def Sane (ctx : Context) : Prop :=
  (∀ r ∈ ctx.tail, r.Settled) ∧ ∀ n, ctx.scopes.isPending n = true → Ordinary n

/-- The innermost region announces a name. -/
def Announces (name : String) : Context → Prop
  | [] => True
  | r :: _ => name ∈ r.names

/-- Some region binds `this`. -/
def HasThis (ctx : Context) : Prop := (ctx.scopes.distance? "this").isSome

/-- Some region binds `super`, and the one inside of it binds `this`. -/
def HasSuper (ctx : Context) : Prop :=
  ∃ d r, ctx.scopes.distance? "super" = some (d + 1) ∧ ctx[d]? = some r ∧ Assoc.get? r.known "this" = some true

variable {ctx : Context} {r : Region} {name : String} {ready : Bool}

theorem settled_put (h : ctx.Settled) : (ctx.put true name).Settled := by
  cases ctx with
  | nil => exact h
  | cons r outer =>
    intro r' hr'
    rcases List.mem_cons.1 hr' with rfl | hr'
    · intro n hn
      rw [Assoc.get?_set] at hn
      split at hn
      · cases hn
      · exact h r List.mem_cons_self n hn
    · exact h r' (List.mem_cons_of_mem _ hr')

theorem settled_cons (h : ctx.Settled) (hr : r.Settled) : Settled (r :: ctx) := by
  intro r' hr'
  rcases List.mem_cons.1 hr' with rfl | hr'
  · exact hr
  · exact h r' hr'

theorem settled_declareAll (h : ctx.Settled) (names : List Token) : (ctx.declareAll names).Settled := by
  unfold declareAll
  induction names generalizing ctx with
  | nil => exact h
  | cons name names ih => exact ih (settled_put h)

theorem Settled.sane (h : ctx.Settled) : ctx.Sane := by
  refine ⟨fun r hr => h r (List.mem_of_mem_tail hr), fun n hn => ?_⟩
  cases ctx with
  | nil => cases hn
  | cons r outer => exact absurd (of_decide_eq_true hn) (h r List.mem_cons_self n)

/-- While an initializer runs, the name that it is for is the only one that waits. -/
theorem Settled.sane_put (h : ctx.Settled) (hn : Ordinary name) : (ctx.put ready name).Sane := by
  constructor
  · intro r hr
    have htail : (ctx.put ready name).tail = ctx.tail := by cases ctx <;> rfl
    rw [htail] at hr
    exact h r (List.mem_of_mem_tail hr)
  · intro n hp
    by_cases he : name = n
    · exact he ▸ hn
    · rw [scopes_put, Scopes.isPending_put_of_ne he] at hp
      exact h.sane.2 n hp

@[simp] theorem announces_put {n : String} : (ctx.put ready name).Announces n ↔ ctx.Announces n := by
  cases ctx <;> rfl

@[simp] theorem announces_declareAll {n : String} {names : List Token} :
    (ctx.declareAll names).Announces n ↔ ctx.Announces n := by
  unfold declareAll
  induction names generalizing ctx with
  | nil => rfl
  | cons name names ih => rw [List.foldl_cons, ih, announces_put]

theorem hasThis_put (h : ctx.HasThis) (hn : Ordinary name) : (ctx.put ready name).HasThis := by
  unfold HasThis at h ⊢
  rwa [scopes_put, Scopes.distance?_put_of_ne hn.1]

theorem hasThis_cons (h : ctx.HasThis) : HasThis (r :: ctx) := by
  unfold HasThis at h ⊢
  rw [scopes_cons]
  unfold Scopes.distance?
  split
  · rfl
  · simpa using h

theorem hasSuper_put (h : ctx.HasSuper) (hn : Ordinary name) : (ctx.put ready name).HasSuper := by
  obtain ⟨d, r, hd, hr, ht⟩ := h
  have hdist : (ctx.put ready name).scopes.distance? "super" = some (d + 1) := by
    rwa [scopes_put, Scopes.distance?_put_of_ne hn.2]
  cases ctx with
  | nil => cases hr
  | cons r₀ outer =>
    cases d with
    | zero =>
      obtain rfl : r₀ = r := by simpa using hr
      exact ⟨0, _, hdist, rfl, by rwa [Assoc.get?_set_of_ne _ hn.1]⟩
    | succ d => exact ⟨d + 1, r, hdist, by simpa [put] using hr, ht⟩

theorem hasSuper_cons (h : ctx.HasSuper) (hr : Assoc.get? r.known "super" = none) : HasSuper (r :: ctx) := by
  obtain ⟨d, r', hd, hr', ht⟩ := h
  refine ⟨d + 1, r', ?_, by simpa using hr', ht⟩
  rw [scopes_cons]
  simp [Scopes.distance?, hr, hd]

end Context

/-- The regions around a node have what its class provides. -/
def ClassPlace.Suits (klass : ClassPlace) (ctx : Context) : Prop :=
  (klass ≠ .none → ctx.HasThis) ∧ (klass = .derived → ctx.HasSuper)

namespace ClassPlace

variable {klass : ClassPlace} {ctx : Context}

theorem suits_put (h : klass.Suits ctx) {ready : Bool} {name : String} (hn : Ordinary name) :
    klass.Suits (ctx.put ready name) :=
  ⟨fun hk => Context.hasThis_put (h.1 hk) hn, fun hk => Context.hasSuper_put (h.2 hk) hn⟩

theorem suits_declareAll (h : klass.Suits ctx) {names : List Token} (hn : ∀ t ∈ names, Ordinary t.lexeme) :
    klass.Suits (ctx.declareAll names) := by
  unfold Context.declareAll
  induction names generalizing ctx with
  | nil => exact h
  | cons name names ih =>
    rw [List.forall_mem_cons] at hn
    exact ih (suits_put h hn.1) hn.2

theorem suits_cons (h : klass.Suits ctx) {names : List String} : klass.Suits (⟨[], names⟩ :: ctx) :=
  ⟨fun hk => Context.hasThis_cons (h.1 hk), fun hk => Context.hasSuper_cons (h.2 hk) rfl⟩

/-- A class gives its methods what they may refer to. -/
theorem suits_of (s : Option Expr) (ctx : Context) :
    (ClassPlace.of s).Suits (Region.only "this" :: ctx.ofClass s) := by
  refine ⟨fun _ => rfl, fun hk => ?_⟩
  cases s with
  | none => cases hk
  | some x => exact ⟨0, Region.only "this", rfl, rfl, rfl⟩

end ClassPlace

/-! ## legal sites -/

/-- What the scope rules promise about an occurrence. -/
structure Site.Legal (s : Site) : Prop where
  /-- Only a name of the innermost scope may wait for its initializer. -/
  settled : ∀ r ∈ s.context.tail, r.Settled
  /-- A name that waits for its initializer is not read. -/
  read : s.occurrence.reference ≠ .assign → s.context.scopes.isPending s.name = false
  /-- A class is not its own superclass. -/
  heading : s.heading ≠ some s.name
  /-- Nothing is assigned to `this`. -/
  written : s.occurrence.reference = .assign → s.name ≠ "this"
  /-- The keyword `this` stands where it is bound. -/
  this : s.occurrence.reference = .this → s.distance?.isSome
  /-- The keyword `super` stands where it is bound, and next to it `this`. -/
  super : s.occurrence.reference = .super → s.name = "super" ∧ s.heading = none ∧ s.context.HasSuper

/-- What a clean walk says about one occurrence. -/
def Occurrence.Accepted (klass : ClassPlace) (scopes : Scopes) (o : Occurrence) : Prop :=
  match o.reference with
  | .variable => scopes.isPending o.name.lexeme = false
  | .assign => True
  | .this => klass ≠ .none
  | .super => klass = .derived

section

open Findings

variable {place : Place} {scopes : Scopes}

mutual

theorem Expr.accepted_of_resolve (e : Expr) (hf : (e.resolve place scopes).faults = []) :
    ∀ o ∈ e.occurrences, o.Accepted place.klass scopes := by
  cases e with
  | literal v => simp [Expr.occurrences]
  | group inner => exact Expr.accepted_of_resolve inner hf
  | unary op r => exact Expr.accepted_of_resolve r hf
  | binary l op r =>
    simp only [Expr.resolve, faults_append, List.append_eq_nil_iff] at hf
    exact List.forall_mem_append.2 ⟨Expr.accepted_of_resolve l hf.1, Expr.accepted_of_resolve r hf.2⟩
  | logical l op r =>
    simp only [Expr.resolve, faults_append, List.append_eq_nil_iff] at hf
    exact List.forall_mem_append.2 ⟨Expr.accepted_of_resolve l hf.1, Expr.accepted_of_resolve r hf.2⟩
  | «variable» label name =>
    simp only [Expr.resolve, faults_append, List.append_eq_nil_iff, faults_faultIf] at hf
    rintro o (_ | ⟨_, ⟨⟩⟩)
    exact hf.1
  | assign label name v =>
    simp only [Expr.resolve, faults_append, List.append_eq_nil_iff] at hf
    exact List.forall_mem_cons.2 ⟨trivial, Expr.accepted_of_resolve v hf.1⟩
  | call f paren args =>
    simp only [Expr.resolve, faults_append, List.append_eq_nil_iff] at hf
    exact List.forall_mem_append.2 ⟨Expr.accepted_of_resolve f hf.1, Expr.accepted_of_resolveAll args hf.2⟩
  | get o name => exact Expr.accepted_of_resolve o hf
  | set o name v =>
    simp only [Expr.resolve, faults_append, List.append_eq_nil_iff] at hf
    exact List.forall_mem_append.2 ⟨Expr.accepted_of_resolve o hf.1, Expr.accepted_of_resolve v hf.2⟩
  | this label keyword =>
    simp only [Expr.resolve] at hf
    rintro o (_ | ⟨_, ⟨⟩⟩)
    intro hk
    rw [hk] at hf
    exact faults_fault _ _ hf
  | super label keyword method =>
    simp only [Expr.resolve] at hf
    rintro o (_ | ⟨_, ⟨⟩⟩)
    show place.klass = .derived
    cases hk : place.klass with
    | none => exact absurd (hk ▸ hf) (faults_fault _ _)
    | plain => exact absurd (hk ▸ hf) (faults_fault _ _)
    | derived => rfl

theorem Expr.accepted_of_resolveAll (es : List Expr) (hf : (Expr.resolveAll place scopes es).faults = []) :
    ∀ o ∈ Expr.occurrencesAll es, o.Accepted place.klass scopes := by
  cases es with
  | nil => simp [Expr.occurrencesAll]
  | cons e es =>
    simp only [Expr.resolveAll, faults_append, List.append_eq_nil_iff] at hf
    exact List.forall_mem_append.2 ⟨Expr.accepted_of_resolve e hf.1, Expr.accepted_of_resolveAll es hf.2⟩

end

end

/-- An accepted occurrence stands at a legal site. -/
theorem Occurrence.legal {o : Occurrence} {klass : ClassPlace} {ctx : Context} (ha : o.Accepted klass ctx.scopes)
    (ho : o.Proper) (hc : ctx.Sane) (hk : klass.Suits ctx) : Site.Legal ⟨o, ctx, none⟩ := by
  obtain ⟨reference, label, name⟩ := o
  have hkeyword : ¬ Ordinary name.lexeme → ctx.scopes.isPending name.lexeme = false := by
    intro hn
    rw [← Bool.not_eq_true]
    exact fun hp => hn (hc.2 _ hp)
  have hnone : (none : Option String) ≠ some name.lexeme := by simp
  cases reference with
  | «variable» => exact ⟨hc.1, fun _ => ha, hnone, by simp, by simp, by simp⟩
  | assign => exact ⟨hc.1, by simp, hnone, fun _ => ho.1, by simp, by simp⟩
  | this =>
    have hname : name.lexeme = "this" := ho
    refine ⟨hc.1, fun _ => hkeyword fun h => h.1 hname, hnone, by simp, fun _ => ?_, by simp⟩
    show (ctx.scopes.distance? name.lexeme).isSome
    rw [hname]
    exact hk.1 ha
  | super =>
    have hname : name.lexeme = "super" := ho
    exact ⟨hc.1, fun _ => hkeyword fun h => h.2 hname, hnone, by simp, by simp, fun _ => ⟨hname, rfl, hk.2 ha⟩⟩

/-- A superclass that is another name stands at a legal site. -/
theorem Occurrence.legal_heading {label : Label} {other : Token} {ctx : Context} {name : String}
    (ha : ctx.scopes.isPending other.lexeme = false) (hne : other.lexeme ≠ name) (hc : ctx.Sane) :
    Site.Legal ⟨⟨.variable, label, other⟩, ctx, some name⟩ :=
  ⟨hc.1, fun _ => ha, fun h => hne (Option.some.inj h).symm, by simp, by simp, by simp⟩

/-! ## accepted statements fit -/

section

open Findings

variable {all : List Site} {place : Place} {ctx : Context}

/-- The site is among those of the whole, and legal. -/
def Site.LegalIn (all : List Site) (s : Site) : Prop := s ∈ all ∧ s.Legal

theorem Expr.fits_of_resolve {e : Expr} (hr : e.Regular) (hc : ctx.Sane) (hk : place.klass.Suits ctx)
    (hf : (e.resolve place ctx.scopes).faults = []) (hs : e.sites ctx none ⊆ all) :
    e.Fits (Site.LegalIn all) ctx none := by
  intro o ho
  refine ⟨hs (List.mem_map_of_mem ho), ?_⟩
  exact Occurrence.legal (Expr.accepted_of_resolve e hf o ho) (hr o ho) hc hk

theorem Expr.fitsIn_of_resolve {e : Option Expr} (hr : ∀ x ∈ e, Expr.Regular x) (hc : ctx.Sane)
    (hk : place.klass.Suits ctx) (hf : (Expr.resolveIn place ctx.scopes e).faults = [])
    (hs : Expr.sitesIn ctx none e ⊆ all) : Expr.FitsIn (Site.LegalIn all) ctx none e := by
  rintro x ⟨⟩
  exact Expr.fits_of_resolve (hr x rfl) hc hk hf hs

/-- A name that is declared without a fault is one the region has room for. -/
theorem Context.admits_of_redeclared {name : Token} (hf : (redeclared ctx.scopes name).faults = [])
    (ha : ctx.Announces name.lexeme) (hn : Ordinary name.lexeme) : ctx.Admits name.lexeme := by
  cases ctx with
  | nil => trivial
  | cons r outer =>
    simp only [redeclared, faults_faultIf, Context.scopes_cons, Scopes.declares, Option.isSome_eq_false_iff,
      Option.isNone_iff_eq_none] at hf
    exact ⟨ha, hf, hn.1⟩

/-- A superclass fits: the rules allow no class to be its own. -/
theorem Expr.fitsIn_heading {s : Option Expr} {name : Token} (hr : ∀ x ∈ s, Expr.IsName x)
    (hi : (selfInheritance name s).faults = []) (hc : ctx.Sane) (hf : (Expr.resolveIn place ctx.scopes s).faults = [])
    (hs : Expr.sitesIn ctx (some name.lexeme) s ⊆ all) :
    Expr.FitsIn (Site.LegalIn all) ctx (some name.lexeme) s := by
  rintro x ⟨⟩
  have hx := hr x rfl
  cases x with
  | «variable» label other =>
    intro o ho
    refine ⟨hs (List.mem_map_of_mem ho), ?_⟩
    have ha := Expr.accepted_of_resolve _ hf o ho
    simp only [selfInheritance, faults_faultIf, decide_eq_false_iff_not] at hi
    obtain rfl := List.mem_singleton.1 ho
    exact Occurrence.legal_heading ha hi hc
  | _ => exact hx.elim

theorem Stmt.ordinary_of_mem_declared {s : Stmt} (hr : s.Regular) : ∀ t ∈ s.declared, Ordinary t.lexeme := by
  cases s with
  | varDecl name e => exact List.forall_mem_singleton.2 hr.1
  | funDecl d => exact List.forall_mem_singleton.2 hr.1
  | classDecl name s ms => exact List.forall_mem_singleton.2 hr.1
  | ifThen c t => simp [Stmt.declared, hr.2.1]
  | ifElse c t e => simp [Stmt.declared, hr.2.1.1, hr.2.2.1]
  | loop c b i => simp [Stmt.declared, hr.2.1.1]
  | _ => simp [Stmt.declared]

mutual

/-- A regular statement in which the walk finds no fault fits where it stands. -/
theorem Stmt.fits_of_resolve {place : Place} {ctx : Context} (s : Stmt) (hr : s.Regular) (hc : ctx.Settled)
    (hk : place.klass.Suits ctx) (ha : ∀ t ∈ s.declared, ctx.Announces t.lexeme)
    (hf : (s.resolve place ctx.scopes).faults = []) (hs : s.sites ctx ⊆ all) :
    s.Fits (Site.LegalIn all) ctx := by
  cases s with
  | expr e => exact Expr.fits_of_resolve hr hc.sane hk hf hs
  | print keyword e => exact Expr.fits_of_resolve hr hc.sane hk hf hs
  | varDecl name e =>
    simp only [Stmt.resolve, faults_append, List.append_eq_nil_iff, ← Context.scopes_put] at hf
    refine ⟨Context.admits_of_redeclared hf.1 (ha name List.mem_cons_self) hr.1, ?_⟩
    exact Expr.fitsIn_of_resolve hr.2 (hc.sane_put hr.1) (ClassPlace.suits_put hk hr.1) hf.2 hs
  | block body =>
    simp only [Stmt.resolve, ← Context.scopes_ofBlock ctx body] at hf
    exact Stmt.fitsAll_of_resolve body hr (Context.settled_cons hc (by simp [Region.Settled]))
      (ClassPlace.suits_cons hk) (fun n hn => hn) hf hs
  | ifThen c t =>
    simp only [Stmt.resolve, faults_append, List.append_eq_nil_iff] at hf
    simp only [Stmt.sites, List.append_subset] at hs
    obtain ⟨hrc, hd, hrt⟩ := hr
    exact ⟨Expr.fits_of_resolve hrc hc.sane hk hf.1 hs.1, hd,
      Stmt.fits_of_resolve t hrt hc hk (by simp [hd]) hf.2 hs.2⟩
  | ifElse c t e =>
    obtain ⟨hrc, ⟨hd, hrt⟩, hd', hre⟩ := hr
    simp only [Stmt.resolve, faults_append, List.append_eq_nil_iff, ← Context.scopes_after,
      Context.after_of_declared_eq_nil ctx hd] at hf
    simp only [Stmt.sites, List.append_subset, Context.after_of_declared_eq_nil ctx hd] at hs
    exact ⟨Expr.fits_of_resolve hrc hc.sane hk hf.1.1 hs.1.1,
      ⟨hd, Stmt.fits_of_resolve t hrt hc hk (by simp [hd]) hf.1.2 hs.1.2⟩,
      hd', Stmt.fits_of_resolve e hre hc hk (by simp [hd']) hf.2 hs.2⟩
  | loop c b i =>
    obtain ⟨hrc, ⟨hd, hrb⟩, hri⟩ := hr
    simp only [Stmt.resolve, faults_append, List.append_eq_nil_iff, ← Context.scopes_after,
      Context.after_of_declared_eq_nil ctx hd] at hf
    simp only [Stmt.sites, List.append_subset, Context.after_of_declared_eq_nil ctx hd] at hs
    exact ⟨Expr.fits_of_resolve hrc hc.sane hk hf.1.1 hs.1.1,
      ⟨hd, Stmt.fits_of_resolve b hrb hc (by exact hk) (by simp [hd]) hf.1.2 hs.1.2⟩,
      Expr.fitsIn_of_resolve hri hc.sane hk hf.2 hs.2⟩
  | funDecl d =>
    simp only [Stmt.resolve, faults_append, List.append_eq_nil_iff, ← Context.scopes_put] at hf
    refine ⟨Context.admits_of_redeclared hf.1 (ha d.name List.mem_cons_self) hr.1, ?_⟩
    exact FunctionDecl.fits_of_resolve d hr.2 (Context.settled_put hc) (by exact ClassPlace.suits_put hk hr.1) hf.2 hs
  | returnFrom keyword e =>
    simp only [Stmt.resolve, faults_append, List.append_eq_nil_iff] at hf
    exact Expr.fitsIn_of_resolve hr hc.sane hk hf.2 hs
  | classDecl name s ms =>
    simp only [Stmt.resolve, faults_append, List.append_eq_nil_iff, ← Context.scopes_put,
      ← Context.scopes_ofClass] at hf
    simp only [Stmt.sites, List.append_subset] at hs
    obtain ⟨⟨⟨hd, hi⟩, hsup⟩, hm⟩ := hf
    have hinner : (ctx.put true name.lexeme).Settled := Context.settled_put hc
    refine ⟨Context.admits_of_redeclared hd (ha name List.mem_cons_self) hr.1,
      Expr.fitsIn_heading hr.2.1 hi hinner.sane hsup hs.1, ?_⟩
    refine FunctionDecl.fitsAll_of_resolve ms hr.2.2 (Context.settled_cons ?_ Region.settled_only)
      (ClassPlace.suits_of s _) hm hs.2
    cases s with
    | none => exact hinner
    | some x => exact Context.settled_cons hinner Region.settled_only
  | breakLoop keyword => trivial
  | continueLoop keyword => trivial

theorem Stmt.fitsAll_of_resolve {place : Place} {ctx : Context} (body : List Stmt) (hr : Stmt.RegularAll body)
    (hc : ctx.Settled) (hk : place.klass.Suits ctx) (ha : ∀ n ∈ Stmt.declaredAll body, ctx.Announces n)
    (hf : (Stmt.resolveAll place ctx.scopes body).faults = []) (hs : Stmt.sitesAll ctx body ⊆ all) :
    Stmt.FitsAll (Site.LegalIn all) ctx body := by
  cases body with
  | nil => trivial
  | cons s rest =>
    simp only [Stmt.resolveAll, faults_append, List.append_eq_nil_iff, ← Context.scopes_after] at hf
    simp only [Stmt.sitesAll, List.append_subset] at hs
    simp only [Stmt.declaredAll, List.flatMap_cons, List.forall_mem_append, List.forall_mem_map] at ha
    refine ⟨Stmt.fits_of_resolve s hr.1 hc hk ha.1 hf.1 hs.1, ?_⟩
    exact Stmt.fitsAll_of_resolve rest hr.2 (Context.settled_declareAll hc _)
      (ClassPlace.suits_declareAll hk (Stmt.ordinary_of_mem_declared hr.1))
      (fun n hn => Context.announces_declareAll.2 (ha.2 n hn)) hf.2 hs.2

theorem FunctionDecl.fits_of_resolve {place : Place} {ctx : Context} (d : FunctionDecl) (hr : d.Regular)
    (hc : ctx.Settled) (hk : place.klass.Suits ctx) (hf : (d.resolve place ctx.scopes).faults = [])
    (hs : d.sites ctx ⊆ all) : d.Fits (Site.LegalIn all) ctx := by
  cases d with
  | mk name params body =>
    simp only [FunctionDecl.resolve, faults_append, List.append_eq_nil_iff,
      ← Context.scopes_ofFunction ctx params body] at hf
    refine ⟨fun p hp => (hr.1 p hp).1, ?_⟩
    have hempty : Region.Settled ⟨[], params.map Token.lexeme ++ Stmt.declaredAll body⟩ := by simp [Region.Settled]
    exact Stmt.fitsAll_of_resolve body hr.2 (Context.settled_declareAll (Context.settled_cons hc hempty) params)
      (ClassPlace.suits_declareAll (ClassPlace.suits_cons hk) hr.1)
      (fun n hn => Context.announces_declareAll.2 (List.mem_append_right _ hn)) hf.2 hs

theorem FunctionDecl.fitsAll_of_resolve {klass : ClassPlace} {ctx : Context} (ds : List FunctionDecl)
    (hr : FunctionDecl.RegularAll ds) (hc : ctx.Settled) (hk : klass.Suits ctx)
    (hf : (FunctionDecl.resolveMethods klass ctx.scopes ds).faults = []) (hs : FunctionDecl.sitesAll ctx ds ⊆ all) :
    FunctionDecl.FitsAll (Site.LegalIn all) ctx ds := by
  cases ds with
  | nil => trivial
  | cons d ds =>
    simp only [FunctionDecl.resolveMethods, faults_append, List.append_eq_nil_iff] at hf
    simp only [FunctionDecl.sitesAll, List.append_subset] at hs
    exact ⟨FunctionDecl.fits_of_resolve d hr.1 hc hk hf.1 hs.1,
      FunctionDecl.fitsAll_of_resolve ds hr.2 hc hk hf.2 hs.2⟩

end

end

end ScriptLang
