import Mathlib.Data.List.Perm.Subperm
import ScriptLang.Proofs.Scoping.Violations

/-!
# Tokens of violations

An update with a property as its target has the object twice in the tree, each copy with the labels of the other.  Apart
from such copies each node with a fault has a token of its own.

* `Seat` — a token at which a rule may be broken, with the label of the node there;
* `Seat.Anchored` — of seats at different nodes each has a token of its own;
* `Phrase.Reads.anchored` — what is read from tokens has its seats at these tokens;
* `reported_per_token` — how often a diagnostic is reported.
-/

namespace ScriptLang

/-! ## seats -/

/-- A token at which a rule may be broken, with the label of the node if it has one. -/
structure Seat where
  label? : Option Label
  token : Token

namespace Seat

/-- Two seats are not at nodes of one label. -/
def Apart (a b : Seat) : Prop := ∀ l, a.label? = some l → b.label? ≠ some l

theorem apart_of_ne {a b : Seat} (h : a.label? ≠ b.label?) : a.Apart b := fun _ ha hb => h (ha.trans hb.symm)

theorem Apart.symm {a b : Seat} (h : a.Apart b) : b.Apart a := fun l hb ha => h l ha hb

/-- Of seats at different nodes each has a token of its own. -/
def Anchored (seats : List Seat) (tokens : List Token) : Prop :=
  ∀ xs : List Seat, xs.Subperm seats → xs.Pairwise Apart → (xs.map token).Subperm tokens

namespace Anchored

variable {seats seats' : List Seat} {tokens tokens' : List Token}

theorem nil (tokens : List Token) : Anchored [] tokens := by
  intro xs hxs _
  obtain rfl := List.subperm_nil.1 hxs
  exact List.nil_subperm

theorem of_subperm (h : Anchored seats tokens) (hs : seats'.Subperm seats) : Anchored seats' tokens :=
  fun xs hxs hapart => h xs (hxs.trans hs) hapart

theorem mono (h : Anchored seats tokens) (ht : tokens.Subperm tokens') : Anchored seats tokens' :=
  fun xs hxs hapart => (h xs hxs hapart).trans ht

theorem append (h : Anchored seats tokens) (h' : Anchored seats' tokens') :
    Anchored (seats ++ seats') (tokens ++ tokens') := by
  rintro xs ⟨ys, hperm, hsub⟩ hapart
  obtain ⟨as, bs, rfl, has, hbs⟩ := List.sublist_append_iff.1 hsub
  have hparts : (as ++ bs).Pairwise Apart := (hperm.pairwise_iff fun h => h.symm).2 hapart
  obtain ⟨ha, hb, -⟩ := List.pairwise_append.1 hparts
  rw [← (hperm.map token).subperm_right, List.map_append]
  exact (h as has.subperm ha).append (h' bs hbs.subperm hb)

/-- More tokens before, or behind, make no difference. -/
theorem cons (h : Anchored seats tokens) (t : Token) : Anchored seats (t :: tokens) := h.mono (.cons_self)

theorem left (h : Anchored seats tokens) (more : List Token) : Anchored seats (tokens ++ more) :=
  h.mono (List.sublist_append_left ..).subperm

theorem right (h : Anchored seats tokens) (more : List Token) : Anchored seats (more ++ tokens) :=
  h.mono (List.sublist_append_right ..).subperm

/-- A seat has its token. -/
theorem singleton (s : Seat) : Anchored [s] [s.token] := by
  rintro xs ⟨ys, hperm, hsub⟩ -
  exact (hperm.map token).subperm_right.1 (hsub.map token).subperm

/-- Copies of nodes need no tokens. -/
theorem double (h : Anchored seats tokens) (hl : ∀ s ∈ seats, s.label?.isSome) : Anchored (seats ++ seats) tokens := by
  intro xs hxs hapart
  have hsub : xs ⊆ seats := fun s hs => by simpa using hxs.subset hs
  have hnodup : xs.Nodup := by
    refine hapart.imp_of_mem fun {a b} ha _ hab => ?_
    rintro rfl
    obtain ⟨l, hl⟩ := Option.isSome_iff_exists.1 (hl a (hsub ha))
    exact hab l hl hl
  exact h xs (hnodup.subperm hsub) hapart

end Anchored

end Seat

/-! ## seats of trees -/

/-- The label of the node that a feature is at, if it has one. -/
def Feature.label? : Feature → Option Label
  | refers o => some o.label
  | _ => none

theorem Feature.label?_eq_some {feature : Feature} {l : Label} :
    feature.label? = some l ↔ ∃ o, feature = .refers o ∧ o.label = l := by
  cases feature <;> simp [label?]

/-- The seat of a feature. -/
def Feature.seat (feature : Feature) : Seat := ⟨feature.label?, feature.anchor⟩

/-- The seats of a rule in features. -/
def Feature.seats (rule : ScopeFault) (features : List Feature) : List Seat :=
  (features.filter fun f => rule ∈ f.rules).map Feature.seat

/-- The seats of a rule in an expression. -/
def Expr.seats (rule : ScopeFault) (e : Expr) : List Seat := Feature.seats rule (e.references.map .refers)

/-- The seats of a rule at loci. -/
def Locus.seats (rule : ScopeFault) (ps : List Locus) : List Seat := Feature.seats rule (ps.map Locus.feature)

section

variable {rule : ScopeFault} {around : Surroundings}

@[simp] theorem Feature.seats_append (fs gs : List Feature) :
    Feature.seats rule (fs ++ gs) = Feature.seats rule fs ++ Feature.seats rule gs := by
  simp [Feature.seats]

@[simp] theorem Locus.seats_append (ps qs : List Locus) :
    Locus.seats rule (ps ++ qs) = Locus.seats rule ps ++ Locus.seats rule qs := by
  simp [Locus.seats]

@[simp] theorem Locus.seats_cons (p : Locus) (ps : List Locus) :
    Locus.seats rule (p :: ps) = Feature.seats rule [p.feature] ++ Locus.seats rule ps :=
  Locus.seats_append [p] ps

theorem Expr.seats_loci (e : Expr) : Locus.seats rule (e.loci around) = e.seats rule := by
  rw [Locus.seats, Expr.loci, List.map_map]
  rfl

/-- No rule speaks about the target of an assignment. -/
theorem Expr.seats_assign (label : Label) (name : Token) (v : Expr) :
    (assign label name v).seats rule = v.seats rule := by
  simp [Expr.seats, Expr.references, Feature.seats, Feature.rules]

theorem Expr.isSome_label_of_mem_seats {e : Expr} {s : Seat} (h : s ∈ e.seats rule) : s.label?.isSome := by
  obtain ⟨f, hf, rfl⟩ := List.mem_map.1 h
  obtain ⟨o, -, rfl⟩ := List.mem_map.1 (List.mem_filter.1 hf).1
  rfl

end

/-- The tree of a phrase has its seats at tokens; operands and calls behind an expression add theirs to those before. -/
def Phrase.Anchored (rule : ScopeFault) (tokens : List Token) : Phrase → Prop
  | .expression x => Seat.Anchored (x.seats rule) tokens
  | .binary _ x => Seat.Anchored (x.seats rule) tokens
  | .operand _ x => Seat.Anchored (x.seats rule) tokens
  | .unary x => Seat.Anchored (x.seats rule) tokens
  | .call x => Seat.Anchored (x.seats rule) tokens
  | .primary x => Seat.Anchored (x.seats rule) tokens
  | .forCondition x => Seat.Anchored (x.seats rule) tokens
  | .binaryRest _ left x =>
    ∀ before, Seat.Anchored (left.seats rule) before → Seat.Anchored (x.seats rule) (before ++ tokens)
  | .callRest f x => ∀ before, Seat.Anchored (f.seats rule) before → Seat.Anchored (x.seats rule) (before ++ tokens)
  | .arguments xs => Seat.Anchored (Feature.seats rule ((Expr.referencesAll xs).map .refers)) tokens
  | .argumentList _ xs => Seat.Anchored (Feature.seats rule ((Expr.referencesAll xs).map .refers)) tokens
  | .varDeclaration s => ∀ around, Seat.Anchored (Locus.seats rule (s.loci around)) tokens
  | .expressionStatement s => ∀ around, Seat.Anchored (Locus.seats rule (s.loci around)) tokens
  | .forInitializer s => ∀ x ∈ s, ∀ around, Seat.Anchored (Locus.seats rule (Stmt.loci around x)) tokens
  | .forIncrement x => ∀ around, Seat.Anchored (Locus.seats rule (Expr.lociIn around x)) tokens
  | .statement _ s => ∀ around, Seat.Anchored (Locus.seats rule (s.loci around)) tokens
  | .declaration s => ∀ around, Seat.Anchored (Locus.seats rule (s.loci around)) tokens
  | .declarations body => ∀ around, Seat.Anchored (Locus.seats rule (Stmt.lociAll around body)) tokens
  | .parameters names => Seat.Anchored (Feature.seats rule (names.map .declares)) tokens
  | .parameterNames _ names => Seat.Anchored (Feature.seats rule (names.map .declares)) tokens
  | .function d => ∀ kind around,
      Seat.Anchored (Feature.seats rule [.declares d.name] ++ Locus.seats rule (d.loci kind around)) tokens
  | .superclass s => ∀ name around, Seat.Anchored
      (Feature.seats rule (Feature.inheritance name s) ++ Locus.seats rule (Expr.lociIn around s)) tokens
  | .methods ds => ∀ around, Seat.Anchored (Locus.seats rule (FunctionDecl.lociAll around ds)) tokens

/-! ## what is read from tokens -/

section

variable {rule : ScopeFault} {around : Surroundings}

theorem Level.references_node (l : Level) (left right : Expr) (t : Token) :
    (l.node left t right).references = left.references ++ right.references := by
  cases l <;> rfl

/-- A feature has its seats at its anchor. -/
theorem Feature.anchored (feature : Feature) {tokens : List Token} (h : feature.anchor ∈ tokens) :
    Seat.Anchored (Feature.seats rule [feature]) tokens := by
  have hseat : Seat.Anchored [feature.seat] tokens :=
    (Seat.Anchored.singleton feature.seat).mono (List.singleton_subperm_iff.2 h)
  refine hseat.of_subperm (List.Sublist.subperm ?_)
  exact (List.filter_sublist (l := [feature])).map Feature.seat

namespace Seat.Anchored

variable {tokens before behind : List Token} {target value x : Expr} {fresh hi : Label} {operator : Token}

theorem expr_append {e l r : Expr} (hl : Anchored (l.seats rule) before) (hr : Anchored (r.seats rule) behind)
    (he : e.references = l.references ++ r.references) : Anchored (e.seats rule) (before ++ behind) := by
  rw [Expr.seats, he, List.map_append, Feature.seats_append]
  exact hl.append hr

/-- A node may have another label. -/
theorem relabel {l l' : Label} {reference : Reference} {name : Token}
    (h : Anchored (Feature.seats rule [.refers ⟨reference, l, name⟩]) tokens) :
    Anchored (Feature.seats rule [.refers ⟨reference, l', name⟩]) tokens := by
  have hrules : (Feature.refers ⟨reference, l', name⟩).rules = (Feature.refers ⟨reference, l, name⟩).rules := by
    cases reference <;> rfl
  by_cases hr : rule ∈ (Feature.refers ⟨reference, l, name⟩).rules
  · have hseats : Feature.seats rule [.refers ⟨reference, l, name⟩] = [⟨some l, name⟩] := by
      simp [Feature.seats, hr, Feature.seat, Feature.label?, Feature.anchor]
    rw [hseats] at h
    have htoken : [name].Subperm tokens := h [⟨some l, name⟩] (.refl _) (List.pairwise_singleton ..)
    exact Feature.anchored _ (List.singleton_subperm_iff.1 htoken)
  · have hseats : Feature.seats rule [.refers ⟨reference, l', name⟩] = [] := by
      simp [Feature.seats, hrules, hr]
    rw [hseats]
    exact nil tokens

theorem assigned (ht : Anchored (target.seats rule) before) (hv : Anchored (value.seats rule) behind)
    (hx : target.assigned? fresh value = some (x, hi)) : Anchored (x.seats rule) (before ++ behind) := by
  cases target with
  | «variable» label name =>
    obtain ⟨rfl, -⟩ := Prod.mk.inj (Option.some.inj hx)
    rw [Expr.seats_assign]
    exact hv.right before
  | get o name =>
    obtain ⟨rfl, -⟩ := Prod.mk.inj (Option.some.inj hx)
    exact expr_append ht hv rfl
  | _ => cases hx

theorem updated (ht : Anchored (target.seats rule) before) (hv : Anchored (value.seats rule) behind)
    (hx : target.updated? fresh operator value = some (x, hi)) : Anchored (x.seats rule) (before ++ behind) := by
  cases target with
  | «variable» label name =>
    obtain ⟨rfl, -⟩ := Prod.mk.inj (Option.some.inj hx)
    rw [Expr.seats_assign]
    exact expr_append (l := .variable (fresh + 1) name) (relabel ht) hv rfl
  | get o name =>
    obtain ⟨rfl, -⟩ := Prod.mk.inj (Option.some.inj hx)
    -- the object is there twice
    have hobject : Anchored (o.seats rule ++ o.seats rule) before :=
      double ht fun s hs => Expr.isSome_label_of_mem_seats hs
    have hseats : (Expr.set o name (.binary (.get o name) operator value)).seats rule =
        o.seats rule ++ o.seats rule ++ value.seats rule := by
      simp [Expr.seats, Expr.references]
    rw [hseats]
    exact hobject.append hv
  | _ => cases hx

end Seat.Anchored

theorem Locus.seats_map (fs : List Feature) :
    Locus.seats rule (fs.map fun f => ⟨f, around⟩) = Feature.seats rule fs := by
  rw [Locus.seats, List.map_map]
  exact congrArg _ (List.map_id fs)

theorem parameterLoci_features (kind : Body) (name : Token) (before params : List Token) :
    (parameterLoci kind name around before params).map Locus.feature = params.map .declares := by
  induction params generalizing before with
  | nil => rfl
  | cons p ps ih => exact congrArg _ (ih _)

/-- The increment of a loop comes before the body in the text. -/
theorem Stmt.anchored_loop {c : Expr} {b : Stmt} {i : Option Expr} {ts us vs : List Token}
    (hc : Seat.Anchored (c.seats rule) ts) (hi : ∀ around, Seat.Anchored (Locus.seats rule (Expr.lociIn around i)) us)
    (hb : ∀ around, Seat.Anchored (Locus.seats rule (b.loci around)) vs) :
    Seat.Anchored (Locus.seats rule ((Stmt.loop c b i).loci around)) (ts ++ (us ++ vs)) := by
  rw [Stmt.loci, Locus.seats_append, Locus.seats_append, Expr.seats_loci, List.append_assoc]
  exact (hc.append ((hi around).append (hb _))).of_subperm (List.perm_append_comm.append_left _).subperm

end

/-- What is read from tokens has its seats at these tokens. -/
theorem Phrase.Reads.anchored {p : Phrase} {lo hi : Label} {ts : List Token} (h : p.Reads lo ts hi)
    (rule : ScopeFault) : p.Anchored rule ts := by
  have hexpr : ∀ {around : Surroundings} {x : Expr} {ts : List Token}, Seat.Anchored (x.seats rule) ts →
      Seat.Anchored (Locus.seats rule (x.loci around)) ts := by
    intro around x ts hx
    rwa [Expr.seats_loci]
  induction h with
  | operators _ ih => exact ih
  | assign _ _ _ hx iht ihv => exact iht.assigned (ihv.cons _) hx
  | update _ _ _ hx iht ihv => exact iht.updated (ihv.cons _) hx
  | binary _ _ ihl ihr => exact ihr _ ihl
  | tighter _ _ ih => exact ih
  | tightest _ _ ih => exact ih
  | binaryEnd => exact fun before hbefore => hbefore.left []
  | @binaryMore l left right x _ t ts _ us _ _ _ _ ihr ih =>
    intro before hbefore
    have hnode : Seat.Anchored ((l.node left t right).seats rule) (before ++ t :: ts) :=
      hbefore.expr_append (Seat.Anchored.cons ihr t) (Level.references_node ..)
    have hall := ih _ hnode
    rwa [List.append_assoc] at hall
  | sign _ _ ih => exact ih.cons _
  | @stepBefore target x op _ t ts _ _ _ _ hx ih =>
    have hone : Seat.Anchored (Rule.one.seats rule) [] := .nil []
    have hall := (Seat.Anchored.cons ih t).updated hone hx
    rwa [List.append_nil] at hall
  | @stepBehind target x op _ ts t _ _ _ _ hx ih =>
    have hone : Seat.Anchored (Rule.one.seats rule) [t] := .nil [t]
    exact ih.updated hone hx
  | noStep _ ih => exact ih
  | call _ _ ihf ihr => exact ihr _ ihf
  | callEnd => exact fun before hbefore => hbefore.left []
  | @callArguments f args x _ t ts paren _ us _ _ _ _ _ iha ih =>
    intro before hbefore
    have hcall : Seat.Anchored ((Expr.call f paren args).seats rule) (before ++ t :: ts) := by
      rw [Expr.seats, Expr.references, List.map_append, Feature.seats_append]
      exact hbefore.append (Seat.Anchored.cons iha t)
    have hall := ih _ (hcall.left [paren])
    rwa [List.append_assoc, List.append_assoc] at hall
  | @callProperty f x _ t name us _ _ _ _ ih =>
    intro before hbefore
    have hall := ih _ (Seat.Anchored.left hbefore [t, name])
    rwa [List.append_assoc] at hall
  | noArguments => exact .nil _
  | someArguments _ ih => exact ih
  | lastArgument _ _ ih => simpa [Phrase.Anchored, Expr.referencesAll, Expr.seats] using ih
  | moreArguments _ _ _ _ ihx ihxs =>
    simp only [Phrase.Anchored, Expr.referencesAll, List.map_append, Feature.seats_append]
    exact ihx.append (ihxs.cons _)
  | constant _ => exact .nil _
  | identifier _ => exact Feature.anchored _ (List.mem_singleton_self _)
  | this _ => exact Feature.anchored _ (List.mem_singleton_self _)
  | super _ _ _ => exact Feature.anchored _ List.mem_cons_self
  | group _ _ _ ih => exact (ih.left _).cons _
  | varPlain _ _ => exact fun around => Feature.anchored _ List.mem_cons_self
  | @varValue x _ name t ts semi _ _ _ _ _ ih =>
    intro around
    rw [Stmt.loci, Locus.seats_cons]
    have hname : Seat.Anchored (Feature.seats rule [.declares name]) [name, t] := Feature.anchored _ List.mem_cons_self
    exact hname.append ((hexpr ih).left [semi])
  | expressionStatement _ _ ih => exact fun around => (hexpr ih).left _
  | noInitializer _ => exact fun x hx => by cases hx
  | varInitializer _ _ ih =>
    rintro x ⟨⟩ around
    exact (ih around).cons _
  | expressionInitializer _ ih =>
    rintro x ⟨⟩ around
    exact ih around
  | noCondition => exact .nil _
  | someCondition _ ih => exact ih
  | noIncrement => exact fun _ => .nil _
  | someIncrement _ ih => exact fun _ => hexpr ih
  | @forLoop o first c i body _ k t₁ ts₁ _ ts₂ _ t₂ ts₃ _ t₃ ts₄ _ _ _ _ _ _ _ _ _ ihf ihc ihi ihb =>
    intro around
    have hloop : ∀ around, Seat.Anchored (Locus.seats rule ((Stmt.loop c body i).loci around))
        (ts₂ ++ t₂ :: (ts₃ ++ t₃ :: ts₄)) :=
      fun _ => Stmt.anchored_loop ihc (fun _ => (ihi _).cons t₂) (fun _ => (ihb _).cons t₃)
    cases first with
    | none => exact (hloop around).right (k :: t₁ :: ts₁)
    | some s =>
      have hfirst : Seat.Anchored (Locus.seats rule (s.loci (.block [] :: around))) ts₁ := ihf s rfl _
      simp only [Stmt.forLoop, Stmt.loci, Stmt.lociAll, List.append_nil, Locus.seats_append]
      rw [← Locus.seats_append, ← Locus.seats_append, ← Stmt.loci]
      exact ((hfirst.cons t₁).cons k).append (hloop _)
  | ifThen _ _ _ _ _ ihc ihs =>
    intro around
    rw [Stmt.loci, Locus.seats_append]
    exact (((hexpr ihc).cons _).cons _).append ((ihs around).cons _)
  | ifElse _ _ _ _ _ _ _ ihc iht ihe =>
    intro around
    rw [Stmt.loci, Locus.seats_append, Locus.seats_append, List.append_assoc]
    exact (((hexpr ihc).cons _).cons _).append (((iht around).append ((ihe around).cons _)).cons _)
  | whileLoop _ _ _ _ _ ihc ihs =>
    intro around
    have hnone : ∀ around, Seat.Anchored (Locus.seats rule (Expr.lociIn around none)) [] := fun _ => .nil []
    exact Stmt.anchored_loop ((ihc.cons _).cons _) hnone (fun around => (ihs around).cons _)
  | returnNothing _ _ => exact fun around => Feature.anchored _ List.mem_cons_self
  | returnValue _ _ _ ih =>
    intro around
    rw [Stmt.loci, Locus.seats_cons]
    exact (Feature.anchored _ (List.mem_singleton_self _)).append ((hexpr ih).left _)
  | breakLoop _ _ => exact fun around => Feature.anchored _ List.mem_cons_self
  | continueLoop _ _ => exact fun around => Feature.anchored _ List.mem_cons_self
  | block _ _ _ ih => exact fun around => ((ih _).left _).cons _
  | print _ _ _ ih => exact fun around => ((hexpr ih).left _).cons _
  | expressionOnly _ ih => exact ih
  | @classDecl name s ms _ k ts₁ _ t₁ ts₂ _ t₂ _ _ _ _ _ _ ihs ihm =>
    intro around
    have hname : Seat.Anchored (Feature.seats rule [.declares name]) [k, name] :=
      Feature.anchored _ (List.mem_cons_of_mem _ List.mem_cons_self)
    simp only [Stmt.loci, Locus.seats_cons, Locus.seats_append, Locus.seats_map]
    exact hname.append ((ihs name _).append (((ihm _).left [t₂]).cons t₁))
  | funDecl _ _ ih =>
    intro around
    rw [Stmt.loci, Locus.seats_cons]
    exact (ih .function _).cons _
  | varDecl _ _ ih => exact fun around => (ih around).cons _
  | noDeclaration _ ih => exact ih
  | declarationsEnd => exact fun _ => .nil _
  | declarationsMore _ _ ihs ihb =>
    intro around
    rw [Stmt.lociAll, Locus.seats_append]
    exact (ihs around).append (ihb _)
  | noParameters => exact .nil _
  | someParameters _ ih => exact ih
  | lastParameter _ _ => exact Feature.anchored _ (List.mem_singleton_self _)
  | @moreParameters count names lo name t us hi _ _ _ _ ih =>
    have hname : Seat.Anchored (Feature.seats rule [.declares name]) [name, t] := Feature.anchored _ List.mem_cons_self
    have hall := hname.append ih
    rwa [← Feature.seats_append] at hall
  | @function params body _ name t₁ ts _ t₂ t₃ us _ t₄ _ _ _ _ _ _ _ ihp ihb =>
    intro kind around
    have hname : Seat.Anchored (Feature.seats rule [.declares name]) [name, t₁] := Feature.anchored _ List.mem_cons_self
    have hparams : Seat.Anchored (Locus.seats rule (parameterLoci kind name around [] params)) ts := by
      rwa [Locus.seats, parameterLoci_features]
    rw [FunctionDecl.loci, Locus.seats_append]
    exact hname.append (hparams.append ((((ihb _).left [t₄]).cons t₃).cons t₂))
  | noSuperclass => exact fun _ _ => .nil _
  | @someSuperclass lo t superclass _ _ =>
    -- the rule about superclasses says nothing about variables
    intro name around
    by_cases hr : rule = .selfInheritance
    · subst hr
      have hseats : Locus.seats .selfInheritance (Expr.lociIn around (some (.variable lo superclass))) = [] := rfl
      rw [hseats, List.append_nil]
      exact Feature.anchored _ (by simp [Feature.anchor])
    · have hseats : Feature.seats rule (Feature.inheritance name (some (.variable lo superclass))) = [] := by
        simp [Feature.seats, Feature.inheritance, Feature.rules, hr]
      rw [hseats, List.nil_append]
      exact Feature.anchored _ (by simp [Feature.anchor])
  | methodsEnd => exact fun _ => .nil _
  | methodsMore _ _ ihd ihds =>
    intro around
    have hmethod := (ihd .method around).of_subperm (List.sublist_append_right ..).subperm
    rw [FunctionDecl.lociAll, Locus.seats_append]
    exact hmethod.append (ihds around)

/-! ## diagnostics and tokens -/

/-- Different rules have different messages. -/
theorem ScopeFault.message_injective : Function.Injective ScopeFault.message := by
  intro a b h
  cases a <;> cases b <;> first | rfl | exact absurd h (by decide)

/-- A token is on a line with a lexeme. -/
def Token.writes (line : Nat) (lexeme : String) (t : Token) : Bool := t.line = line && t.lexeme = lexeme

/-- A diagnostic is at a token on a line with a lexeme, and has a message. -/
def Diagnostic.shows (line : Nat) (lexeme message : String) (d : Diagnostic) : Bool :=
  d.anchor?.any (Token.writes line lexeme) && d.message = message

namespace Violation

/-- The seat of a violation. -/
def seat (v : Violation) : Seat := v.locus.feature.seat

/-- Two violations are not at nodes of one label. -/
def Apart (v w : Violation) : Prop := v.seat.Apart w.seat

/-- The violations of one rule at a locus. -/
theorem filter_violations (p : Locus) (rule : ScopeFault) :
    (p.violations.filter fun v => v.rule = rule) = if p.feature.violates p.around rule then [⟨p, rule⟩] else [] := by
  have hall : ScopeFault.all.filter (· = rule) = [rule] := by cases rule <;> rfl
  have hcomm : (ScopeFault.all.filter (p.feature.violates p.around)).filter (· = rule) =
      [rule].filter (p.feature.violates p.around) := by
    rw [← hall, List.filter_filter, List.filter_filter]
    exact List.filter_congr fun r _ => Bool.and_comm ..
  rw [Locus.violations, List.filter_map]
  refine (congrArg (List.map (Violation.mk p)) hcomm).trans ?_
  cases h : p.feature.violates p.around rule <;> simp [h]

/-- The violations of a rule at loci are at seats of the rule. -/
theorem seats_sublist (rule : ScopeFault) (ps : List Locus) :
    (((ps.flatMap Locus.violations).filter fun v => v.rule = rule).map seat).Sublist (Locus.seats rule ps) := by
  induction ps with
  | nil => exact List.Sublist.refl _
  | cons p ps ih =>
    rw [List.flatMap_cons, List.filter_append, List.map_append, Locus.seats_cons]
    refine List.Sublist.append ?_ ih
    rw [filter_violations]
    split
    · next h =>
      have hrule : rule ∈ p.feature.rules := Feature.mem_rules_of_violates h
      have hseats : Feature.seats rule [p.feature] = [p.feature.seat] := by simp [Feature.seats, hrule]
      rw [hseats]
      exact List.Sublist.refl _
    · exact List.nil_sublist _

variable {vs : List Violation} {tokens : List Token} {program : List Stmt} {lo hi : Label}

/-- Of violations of one rule at different nodes each has a token of its own. -/
theorem anchors_subperm (hp : (Phrase.declarations program).Reads lo tokens hi)
    (hvs : vs.Subperm (Stmt.violations program)) (hapart : vs.Pairwise Apart) (rule : ScopeFault) :
    ((vs.filter fun v => v.rule = rule).map fun v => v.locus.feature.anchor).Subperm tokens := by
  have hanchored : Seat.Anchored (Locus.seats rule (Stmt.programLoci program)) tokens := hp.anchored rule []
  have hseats : ((vs.filter fun v => v.rule = rule).map seat).Subperm
      (Locus.seats rule (Stmt.programLoci program)) := by
    obtain ⟨ws, hperm, hsub⟩ := hvs.filter fun v => v.rule = rule
    rw [← (hperm.map seat).subperm_right]
    exact ((hsub.map seat).trans (seats_sublist rule _)).subperm
  have htokens := hanchored _ hseats (List.pairwise_map.2 (hapart.filter _))
  rwa [List.map_map] at htokens

/-- Violations at different nodes are reported at no more places with a lexeme than there are tokens. -/
theorem countP_shows_le (hp : (Phrase.declarations program).Reads lo tokens hi)
    (hvs : vs.Subperm (Stmt.violations program)) (hapart : vs.Pairwise Apart) (line : Nat) (lexeme message : String) :
    (vs.map diagnostic).countP (Diagnostic.shows line lexeme message) ≤ tokens.countP (Token.writes line lexeme) := by
  have hshows : ∀ v : Violation, Diagnostic.shows line lexeme message v.diagnostic =
      (Token.writes line lexeme v.locus.feature.anchor && decide (v.rule.message = message)) := fun _ => rfl
  by_cases hrule : ∃ rule : ScopeFault, rule.message = message
  · obtain ⟨rule, rfl⟩ := hrule
    refine le_trans (le_of_eq ?_) ((anchors_subperm hp hvs hapart rule).countP_le (Token.writes line lexeme))
    rw [List.countP_map, List.countP_map, List.countP_filter]
    refine List.countP_congr fun v _ => ?_
    simp only [Function.comp_apply, hshows, ScopeFault.message_injective.eq_iff]
  · refine le_trans (le_of_eq (List.countP_eq_zero.2 ?_)) (Nat.zero_le _)
    intro d hd
    obtain ⟨v, -, rfl⟩ := List.mem_map.1 hd
    have hmessage : v.rule.message ≠ message := fun h => hrule ⟨v.rule, h⟩
    simp [hshows, hmessage]

end Violation

/-- How often the check of a program that was read from tokens reports a violation. -/
structure ReportedPerToken (tokens : List Token) (program : List Stmt) : Prop where
  /-- Violations at different nodes: of those at a line with a lexeme and a message there are no more than tokens. -/
  nodes : ∀ vs : List Violation, vs.Subperm (Stmt.violations program) → vs.Pairwise Violation.Apart →
    ∀ line lexeme message, (vs.map Violation.diagnostic).countP (Diagnostic.shows line lexeme message) ≤
      tokens.countP (Token.writes line lexeme)
  /-- Violations at nodes of one label are at copies of one node. -/
  copies : ∀ v ∈ Stmt.violations program, ∀ w ∈ Stmt.violations program, ¬ v.Apart w →
    v.locus.feature = w.locus.feature
  /-- If no node with a violation was copied, the same holds of all diagnostics. -/
  diagnostics : ∀ ds, checkProgram program = .refused .resolve ds → (Stmt.violations program).Pairwise Violation.Apart →
    ∀ line lexeme message, ds.countP (Diagnostic.shows line lexeme message) ≤ tokens.countP (Token.writes line lexeme)

section

variable {fresh : Label} {tokens : List Token} {program : List Stmt}

/-- In a program that is read from tokens, occurrences with one label are one. -/
theorem Stmt.refers_inj {lo hi : Label} (hp : (Phrase.declarations program).Reads lo tokens hi) {p q : Locus}
    (hpm : p ∈ Stmt.programLoci program) (hqm : q ∈ Stmt.programLoci program) {o u : Occurrence}
    (ho : p.feature = .refers o) (hu : q.feature = .refers u) (hl : o.label = u.label) : o = u := by
  have hperm : ((Stmt.programLoci program).filterMap Locus.occurrence?).Perm (Stmt.occurrencesAll program) :=
    Stmt.lociAll_perm program
  have hsites : (Stmt.sitesAll [] program).map Site.occurrence = Stmt.occurrencesAll program :=
    Stmt.occurrence_sitesAll program
  have hsite : ∀ {p : Locus} {o : Occurrence}, p ∈ Stmt.programLoci program → p.feature = .refers o →
      ∃ site ∈ Stmt.sitesAll [] program, site.occurrence = o := by
    intro p o hpm ho
    have hmem : o ∈ (Stmt.programLoci program).filterMap Locus.occurrence? :=
      List.mem_filterMap.2 ⟨p, hpm, Locus.occurrence?_eq_some.2 ho⟩
    rw [hperm.mem_iff, ← hsites] at hmem
    exact List.mem_map.1 hmem
  obtain ⟨site, hs, rfl⟩ := hsite hpm ho
  obtain ⟨site', hs', rfl⟩ := hsite hqm hu
  rw [(hp.labelled []).unique site hs site' hs' hl]

theorem checkProgram_eq_refused {ds : List Diagnostic} (h : checkProgram program = .refused .resolve ds) :
    ∃ faults, resolveProgram program = .error faults ∧ ds = faults.map Diagnostic.ofScope := by
  unfold checkProgram at h
  cases hr : resolveProgram program with
  | ok table => rw [hr] at h; cases h
  | error faults =>
    rw [hr] at h
    cases h
    exact ⟨faults, rfl, rfl⟩

/-- For each node and rule there is one diagnostic at most for each token, and more only for copies of a node. -/
theorem reported_per_token (hp : (parse fresh tokens).result = .ok program) :
    ReportedPerToken tokens program := by
  have hreads := reads_of_parse hp
  have hnodes : ∀ vs : List Violation, vs.Subperm (Stmt.violations program) → vs.Pairwise Violation.Apart →
      ∀ line lexeme message, (vs.map Violation.diagnostic).countP (Diagnostic.shows line lexeme message) ≤
        tokens.countP (Token.writes line lexeme) := fun vs hvs hapart line lexeme message =>
    (Violation.countP_shows_le hreads hvs hapart line lexeme message).trans (List.takeWhile_sublist _).countP_le
  refine ⟨hnodes, fun v hv w hw hcopies => ?_, fun ds hds hapart => ?_⟩
  · simp only [Violation.Apart, Seat.Apart, not_forall, not_not] at hcopies
    obtain ⟨l, hvl, hwl⟩ := hcopies
    obtain ⟨o, ho, hol⟩ := Feature.label?_eq_some.1 hvl
    obtain ⟨u, hu, hul⟩ := Feature.label?_eq_some.1 hwl
    rw [ho, hu, Stmt.refers_inj hreads (Stmt.mem_violations.1 hv).1 (Stmt.mem_violations.1 hw).1 ho hu
      (hol.trans hul.symm)]
  · obtain ⟨faults, hfaults, rfl⟩ := checkProgram_eq_refused hds
    obtain ⟨rfl, -⟩ := resolveProgram_eq_error.1 hfaults
    rw [Stmt.faults_program hreads.shaped, List.map_map]
    exact hnodes _ (.refl _) hapart

/-- The object of an update is there twice, so that its `this` is reported twice; the other one is reported once. -/
theorem reported_per_token_update :
    let tokens := tokensOf "this.f += this;"
    let message := "Can't use 'this' outside of a class"
    ∃ program : List Stmt, (parse 0 tokens).result = .ok program ∧ ReportedPerToken tokens program ∧
      ((Stmt.violations program).map Violation.diagnostic).countP (Diagnostic.shows 1 "this" message) = 3 ∧
      tokens.countP (Token.writes 1 "this") = 2 ∧
      (((Stmt.violations program).tail.map Violation.diagnostic).countP (Diagnostic.shows 1 "this" message) ≤ 2) := by
  let word : Token := ⟨.keyword .kwThis, "this", 1⟩
  let f : Token := ⟨.identifier, "f", 1⟩
  let update : Expr := .binary (.get (.this 0 word) f) (.ofMark .plus 1) (.this 1 word)
  let program : List Stmt := [.expr (.set (.this 0 word) f update)]
  have hp : (parse 0 (tokensOf "this.f += this;")).result = .ok program := by rfl
  have hreported := reported_per_token hp
  have hlabels : ((Stmt.violations program).tail.map fun v => v.seat.label?).Nodup := by decide
  have hapart : (Stmt.violations program).tail.Pairwise Violation.Apart :=
    (List.pairwise_map.1 hlabels).imp fun h => Seat.apart_of_ne h
  have htokens : (tokensOf "this.f += this;").countP (Token.writes 1 "this") = 2 := by decide +kernel
  have hcount := hreported.nodes _ (List.tail_sublist _).subperm hapart 1 "this" "Can't use 'this' outside of a class"
  exact ⟨program, hp, hreported, by decide +kernel, htokens, htokens ▸ hcount⟩

end

end ScriptLang
