import ScriptLang.Proofs.Parsing.Phrase
import ScriptLang.Proofs.Scanning.Words
import ScriptLang.Proofs.Scoping.Fits

/-!
# Trees that were read from tokens

* `Reads.regular` — a tree that is read from tokens with the right spellings is regular;
* `Reads.labelled` — its sites have labels from the range that the reading used up, and no two sites share a label.

Both are inductions on the reading.  A label may occur twice in one expression, because an update of a property writes
its object twice; then the two occurrences are equal and stand in one place.
-/

namespace ScriptLang

/-! ## regular trees -/

theorem Token.Spelled.ordinary {t : Token} (h : t.Spelled) (hk : t.kind = .identifier) : Ordinary t.lexeme :=
  ⟨h.2 hk .kwThis, h.2 hk .kwSuper⟩

theorem Level.occurrences_node (l : Level) (left right : Expr) (t : Token) :
    (l.node left t right).occurrences = left.occurrences ++ right.occurrences := by
  cases l <;> rfl

/-- What the tree of a phrase keeps to; of the operands and calls behind an expression, what they add to it. -/
def Phrase.Regular : Phrase → Prop
  | .expression x => x.Regular
  | .binary _ x => x.Regular
  | .operand _ x => x.Regular
  | .binaryRest _ left x => left.Regular → x.Regular
  | .unary x => x.Regular
  | .call x => x.Regular
  | .callRest f x => f.Regular → x.Regular
  | .arguments xs => ∀ o ∈ Expr.occurrencesAll xs, o.Proper
  | .argumentList _ xs => ∀ o ∈ Expr.occurrencesAll xs, o.Proper
  | .primary x => x.Regular
  | .varDeclaration s => s.Regular
  | .expressionStatement s => s.declared = [] ∧ s.Regular
  | .forInitializer s => ∀ x ∈ s, Stmt.Regular x
  | .forCondition x => x.Regular
  | .forIncrement x => ∀ e ∈ x, Expr.Regular e
  | .statement _ s => s.declared = [] ∧ s.Regular
  | .declaration s => s.Regular
  | .declarations body => Stmt.RegularAll body
  | .parameters names => ∀ p ∈ names, Ordinary p.lexeme
  | .parameterNames _ names => ∀ p ∈ names, Ordinary p.lexeme
  | .function d => Ordinary d.name.lexeme ∧ d.Regular
  | .superclass x => ∀ e ∈ x, Expr.IsName e
  | .methods ds => FunctionDecl.RegularAll ds

namespace Expr

variable {target v x : Expr} {op : Token} {l l' : Label}

theorem Regular.append {y z : Expr} (hy : y.Regular) (hz : z.Regular)
    (h : x.occurrences = y.occurrences ++ z.occurrences) : x.Regular := by
  unfold Regular
  rw [h]
  exact List.forall_mem_append.2 ⟨hy, hz⟩

theorem Regular.assigned (ht : target.Regular) (hv : v.Regular) (h : target.assigned? l v = some (x, l')) :
    x.Regular := by
  unfold assigned? at h
  split at h
  · next label name =>
    cases h
    have hname : Ordinary name.lexeme := ht ⟨.variable, label, name⟩ List.mem_cons_self
    exact List.forall_mem_cons.2 ⟨hname, hv⟩
  · cases h
    exact ht.append hv rfl
  · cases h

theorem Regular.updated (ht : target.Regular) (hv : v.Regular) (h : target.updated? l op v = some (x, l')) :
    x.Regular := by
  unfold updated? at h
  split at h
  · next label name =>
    cases h
    have hname : Ordinary name.lexeme := ht ⟨.variable, label, name⟩ List.mem_cons_self
    exact List.forall_mem_cons.2 ⟨hname, List.forall_mem_cons.2 ⟨hname, hv⟩⟩
  · cases h
    refine List.forall_mem_append.2 ⟨ht, ?_⟩
    exact List.forall_mem_append.2 ⟨ht, hv⟩
  · cases h

theorem regular_one : Rule.one.Regular := by
  intro o ho
  cases ho

end Expr

theorem Stmt.Regular.forLoop {first : Option Stmt} {c : Expr} {body : Stmt} {i : Option Expr}
    (hf : ∀ s ∈ first, Stmt.Regular s) (hc : c.Regular) (hb : body.declared = [] ∧ body.Regular)
    (hi : ∀ x ∈ i, Expr.Regular x) :
    (Stmt.forLoop first c body i).declared = [] ∧ (Stmt.forLoop first c body i).Regular := by
  cases first with
  | none => exact ⟨hb.1, hc, hb, hi⟩
  | some s => exact ⟨rfl, hf s rfl, ⟨hc, hb, hi⟩, trivial⟩

/-- What is read from words with the right spellings is regular. -/
theorem Phrase.Reads.regular {p : Phrase} {lo hi : Label} {ts : List Token} (h : p.Reads lo ts hi)
    (hs : ∀ t ∈ ts, t.Spelled) : p.Regular := by
  induction h with
  | operators _ ih => exact ih hs
  | assign _ _ _ hx iht ihv =>
    simp only [List.forall_mem_append, List.forall_mem_cons] at hs
    exact (iht hs.1).assigned (ihv hs.2.2) hx
  | update _ _ _ hx iht ihv =>
    simp only [List.forall_mem_append, List.forall_mem_cons] at hs
    exact (iht hs.1).updated (ihv hs.2.2) hx
  | binary _ _ ihl ihr =>
    rw [List.forall_mem_append] at hs
    exact ihr hs.2 (ihl hs.1)
  | tighter _ _ ih => exact ih hs
  | tightest _ _ ih => exact ih hs
  | binaryEnd => exact id
  | binaryMore _ _ _ ihr ih =>
    simp only [List.cons_append, List.forall_mem_cons, List.forall_mem_append] at hs
    intro hl
    exact ih hs.2.2 (Expr.Regular.append hl (ihr hs.2.1) (Level.occurrences_node ..))
  | sign _ _ ih => exact ih fun t ht => hs t (List.mem_cons_of_mem _ ht)
  | stepBefore _ _ hx ih => exact (ih fun t ht => hs t (List.mem_cons_of_mem _ ht)).updated Expr.regular_one hx
  | stepBehind _ _ hx ih => exact (ih fun t ht => hs t (List.mem_append_left _ ht)).updated Expr.regular_one hx
  | noStep _ ih => exact ih hs
  | call _ _ ihf ihr =>
    rw [List.forall_mem_append] at hs
    exact ihr hs.2 (ihf hs.1)
  | callEnd => exact id
  | callArguments _ _ _ _ iha ih =>
    simp only [List.cons_append, List.forall_mem_cons, List.forall_mem_append] at hs
    intro hf
    exact ih hs.2.2.2 (List.forall_mem_append.2 ⟨hf, iha hs.2.1⟩)
  | callProperty _ _ _ ih =>
    simp only [List.forall_mem_cons] at hs
    exact ih hs.2.2
  | noArguments => exact fun o ho => by cases ho
  | someArguments _ ih => exact ih hs
  | lastArgument _ _ ih => exact List.forall_mem_append.2 ⟨ih hs, fun o ho => by cases ho⟩
  | moreArguments _ _ _ _ ihx ihxs =>
    simp only [List.forall_mem_append, List.forall_mem_cons] at hs
    exact List.forall_mem_append.2 ⟨ihx hs.1, ihxs hs.2.2⟩
  | constant _ => exact fun o ho => by cases ho
  | @identifier _ t hk => exact List.forall_mem_singleton.2 ((hs t List.mem_cons_self).ordinary hk)
  | @this _ t hk => exact List.forall_mem_singleton.2 ((hs t List.mem_cons_self).1 _ hk)
  | @super _ t _ _ hk _ _ => exact List.forall_mem_singleton.2 ((hs t List.mem_cons_self).1 _ hk)
  | group _ _ _ ih =>
    simp only [List.cons_append, List.forall_mem_cons, List.forall_mem_append] at hs
    exact ih hs.2.1
  | @varPlain _ name _ hk _ => exact ⟨(hs name List.mem_cons_self).ordinary hk, fun x hx => by cases hx⟩
  | varValue hk _ _ _ ih =>
    simp only [List.cons_append, List.forall_mem_cons, List.forall_mem_append] at hs
    refine ⟨hs.1.ordinary hk, ?_⟩
    rintro x ⟨⟩
    exact ih hs.2.2.1
  | expressionStatement _ _ ih => exact ⟨rfl, ih fun t ht => hs t (List.mem_append_left _ ht)⟩
  | noInitializer _ => exact fun x hx => by cases hx
  | varInitializer _ _ ih =>
    rintro x ⟨⟩
    exact ih fun t ht => hs t (List.mem_cons_of_mem _ ht)
  | expressionInitializer _ ih =>
    rintro x ⟨⟩
    exact (ih hs).2
  | noCondition => exact fun o ho => by cases ho
  | someCondition _ ih => exact ih hs
  | noIncrement => exact fun x hx => by cases hx
  | someIncrement _ ih =>
    rintro x ⟨⟩
    exact ih hs
  | forLoop _ _ _ _ _ _ _ _ ihf ihc ihi ihb =>
    simp only [List.cons_append, List.forall_mem_cons, List.forall_mem_append] at hs
    obtain ⟨-, -, hf, hc, -, hi, -, hb⟩ := hs
    exact Stmt.Regular.forLoop (ihf hf) (ihc hc) (ihb hb) (ihi hi)
  | ifThen _ _ _ _ _ ihc ihs =>
    simp only [List.cons_append, List.forall_mem_cons, List.forall_mem_append] at hs
    obtain ⟨-, -, hc, -, ht⟩ := hs
    exact ⟨(ihs ht).1, ihc hc, ihs ht⟩
  | ifElse _ _ _ _ _ _ _ ihc iht ihe =>
    simp only [List.cons_append, List.forall_mem_cons, List.forall_mem_append] at hs
    obtain ⟨-, -, hc, -, ht, -, he⟩ := hs
    have hd : _ ++ _ = [] := List.append_eq_nil_iff.2 ⟨(iht ht).1, (ihe he).1⟩
    exact ⟨hd, ihc hc, iht ht, ihe he⟩
  | whileLoop _ _ _ _ _ ihc ihs =>
    simp only [List.cons_append, List.forall_mem_cons, List.forall_mem_append] at hs
    obtain ⟨-, -, hc, -, hb⟩ := hs
    exact ⟨(ihs hb).1, ihc hc, ihs hb, fun x hx => by cases hx⟩
  | returnNothing _ _ => exact ⟨rfl, fun x hx => by cases hx⟩
  | returnValue _ _ _ ih =>
    simp only [List.cons_append, List.forall_mem_cons, List.forall_mem_append] at hs
    refine ⟨rfl, ?_⟩
    rintro x ⟨⟩
    exact ih hs.2.1
  | breakLoop _ _ => exact ⟨rfl, trivial⟩
  | continueLoop _ _ => exact ⟨rfl, trivial⟩
  | block _ _ _ ih =>
    simp only [List.cons_append, List.forall_mem_cons, List.forall_mem_append] at hs
    exact ⟨rfl, ih hs.2.1⟩
  | print _ _ _ ih =>
    simp only [List.cons_append, List.forall_mem_cons, List.forall_mem_append] at hs
    exact ⟨rfl, ih hs.2.1⟩
  | expressionOnly _ ih => exact ih hs
  | classDecl _ hn _ _ _ _ ihs ihm =>
    simp only [List.cons_append, List.forall_mem_cons, List.forall_mem_append] at hs
    obtain ⟨-, hname, hs₁, -, hs₂, -⟩ := hs
    exact ⟨hname.ordinary hn, ihs hs₁, ihm hs₂⟩
  | funDecl _ _ ih => exact ih fun t ht => hs t (List.mem_cons_of_mem _ ht)
  | varDecl _ _ ih => exact ih fun t ht => hs t (List.mem_cons_of_mem _ ht)
  | noDeclaration _ ih => exact (ih hs).2
  | declarationsEnd => trivial
  | declarationsMore _ _ ihs ihb =>
    rw [List.forall_mem_append] at hs
    exact ⟨ihs hs.1, ihb hs.2⟩
  | noParameters => exact fun p hp => by cases hp
  | someParameters _ ih => exact ih hs
  | lastParameter _ hn => exact List.forall_mem_singleton.2 ((hs _ List.mem_cons_self).ordinary hn)
  | moreParameters _ hn _ _ ih =>
    simp only [List.forall_mem_cons] at hs
    exact List.forall_mem_cons.2 ⟨hs.1.ordinary hn, ih hs.2.2⟩
  | function hn _ _ _ _ _ _ ihp ihb =>
    simp only [List.cons_append, List.forall_mem_cons, List.forall_mem_append] at hs
    obtain ⟨hname, -, hp, -, -, hb, -⟩ := hs
    exact ⟨hname.ordinary hn, ihp hp, ihb hb⟩
  | noSuperclass => exact fun x hx => by cases hx
  | someSuperclass _ hn =>
    rintro x ⟨⟩
    simp only [List.forall_mem_cons] at hs
    exact hs.2.1.ordinary hn
  | methodsEnd => trivial
  | methodsMore _ _ ihd ihds =>
    rw [List.forall_mem_append] at hs
    exact ⟨(ihd hs.1).2, ihds hs.2⟩

/-! ## labels -/

/-- Labels are from a range, and a label belongs to one element only. -/
structure Labelled {α : Type} (label : α → Nat) (lo hi : Nat) (xs : List α) : Prop where
  le : lo ≤ hi
  range : ∀ x ∈ xs, lo ≤ label x ∧ label x < hi
  unique : ∀ x ∈ xs, ∀ y ∈ xs, label x = label y → x = y

namespace Labelled

variable {α : Type} {label : α → Nat} {lo mid hi : Nat} {xs ys : List α}

theorem nil (h : lo ≤ hi) : Labelled label lo hi [] := ⟨h, by simp, by simp⟩

theorem singleton {x : α} (h : label x = lo) : Labelled label lo (lo + 1) [x] :=
  ⟨Nat.le_succ lo, by simp [h], by simp⟩

theorem append (hx : Labelled label lo mid xs) (hy : Labelled label mid hi ys) : Labelled label lo hi (xs ++ ys) := by
  have hle := Nat.le_trans hx.le hy.le
  refine ⟨hle, ?_, ?_⟩
  · intro x hx'
    rcases List.mem_append.1 hx' with h | h
    · have := hx.range x h
      have := hy.le
      omega
    · have := hy.range x h
      have := hx.le
      omega
  · intro x hx' y hy' he
    rcases List.mem_append.1 hx' with h | h <;> rcases List.mem_append.1 hy' with h' | h'
    · exact hx.unique x h y h' he
    · have h₁ := hx.range x h
      have h₂ := hy.range y h'
      omega
    · have h₁ := hy.range x h
      have h₂ := hx.range y h'
      omega
    · exact hy.unique x h y h' he

/-- Order and repetition of the elements do not matter. -/
theorem of_subset (h : Labelled label lo hi xs) (hs : ys ⊆ xs) : Labelled label lo hi ys :=
  ⟨h.le, fun x hx => h.range x (hs hx), fun x hx y hy => h.unique x (hs hx) y (hs hy)⟩

theorem widen (h : Labelled label lo hi xs) {lo' : Nat} (hl : lo' ≤ lo) : Labelled label lo' hi xs := by
  refine ⟨Nat.le_trans hl h.le, fun x hx => ?_, h.unique⟩
  have := h.range x hx
  omega

theorem widen_right (h : Labelled label lo hi xs) {hi' : Nat} (hl : hi ≤ hi') : Labelled label lo hi' xs := by
  refine ⟨Nat.le_trans h.le hl, fun x hx => ?_, h.unique⟩
  have := h.range x hx
  omega

end Labelled

section

variable {lo mid hi l' : Label} {x v target : Expr} {op : Token} {ctx : Context} {heading : Option String}

theorem Labelled.sites (h : Labelled Occurrence.label lo hi x.occurrences) :
    Labelled Site.label lo hi (x.sites ctx heading) := by
  refine ⟨h.le, ?_, ?_⟩
  · intro s hs
    obtain ⟨o, ho, rfl⟩ := List.mem_map.1 hs
    exact h.range o ho
  · intro s hs s' hs' he
    obtain ⟨o, ho, rfl⟩ := List.mem_map.1 hs
    obtain ⟨o', ho', rfl⟩ := List.mem_map.1 hs'
    rw [h.unique o ho o' ho' he]

theorem Labelled.sitesIn {x : Option Expr} (h : Labelled Occurrence.label lo hi (Expr.occurrencesIn x)) :
    Labelled Site.label lo hi (Expr.sitesIn ctx heading x) := by
  cases x with
  | none => exact .nil h.le
  | some x => exact h.sites

theorem Labelled.assigned (ht : Labelled Occurrence.label lo mid target.occurrences)
    (hv : Labelled Occurrence.label mid hi v.occurrences) (h : target.assigned? hi v = some (x, l')) :
    Labelled Occurrence.label lo l' x.occurrences := by
  unfold Expr.assigned? at h
  split at h
  · next label name =>
    cases h
    have hnew : Labelled Occurrence.label hi (hi + 1) [⟨.assign, hi, name⟩] := .singleton rfl
    exact ((hv.append hnew).widen ht.le).of_subset (by simp [Expr.occurrences])
  · cases h
    exact ht.append hv
  · cases h

theorem Labelled.updated (ht : Labelled Occurrence.label lo mid target.occurrences)
    (hv : Labelled Occurrence.label mid hi v.occurrences) (h : target.updated? hi op v = some (x, l')) :
    Labelled Occurrence.label lo l' x.occurrences := by
  unfold Expr.updated? at h
  split at h
  · next label name =>
    cases h
    have hnew : Labelled Occurrence.label hi (hi + 1 + 1) ([⟨.assign, hi, name⟩] ++ [⟨.variable, hi + 1, name⟩]) :=
      .append (.singleton rfl) (.singleton rfl)
    exact ((hv.append hnew).widen ht.le).of_subset (by simp [Expr.occurrences])
  · cases h
    exact (ht.append hv).of_subset (by simp [Expr.occurrences])
  · cases h

theorem Labelled.one : Labelled Occurrence.label lo lo Rule.one.occurrences := .nil (Nat.le_refl lo)

end

/-- Where the labels of a phrase come from; of the operands and calls behind an expression, of those that they add. -/
def Phrase.Labels (lo hi : Label) : Phrase → Prop
  | .expression x => Labelled Occurrence.label lo hi x.occurrences
  | .binary _ x => Labelled Occurrence.label lo hi x.occurrences
  | .operand _ x => Labelled Occurrence.label lo hi x.occurrences
  | .binaryRest _ left x => ∀ l, Labelled Occurrence.label l lo left.occurrences →
      Labelled Occurrence.label l hi x.occurrences
  | .unary x => Labelled Occurrence.label lo hi x.occurrences
  | .call x => Labelled Occurrence.label lo hi x.occurrences
  | .callRest f x => ∀ l, Labelled Occurrence.label l lo f.occurrences → Labelled Occurrence.label l hi x.occurrences
  | .arguments xs => Labelled Occurrence.label lo hi (Expr.occurrencesAll xs)
  | .argumentList _ xs => Labelled Occurrence.label lo hi (Expr.occurrencesAll xs)
  | .primary x => Labelled Occurrence.label lo hi x.occurrences
  | .varDeclaration s => ∀ ctx, Labelled Site.label lo hi (s.sites ctx)
  | .expressionStatement s => ∀ ctx, Labelled Site.label lo hi (s.sites ctx)
  | .forInitializer s => ∀ ctx, Labelled Site.label lo hi (s.elim [] (Stmt.sites ctx))
  | .forCondition x => Labelled Occurrence.label lo hi x.occurrences
  | .forIncrement x => Labelled Occurrence.label lo hi (Expr.occurrencesIn x)
  | .statement _ s => ∀ ctx, Labelled Site.label lo hi (s.sites ctx)
  | .declaration s => ∀ ctx, Labelled Site.label lo hi (s.sites ctx)
  | .declarations body => ∀ ctx, Labelled Site.label lo hi (Stmt.sitesAll ctx body)
  | .parameters _ => lo ≤ hi
  | .parameterNames _ _ => lo ≤ hi
  | .function d => ∀ ctx, Labelled Site.label lo hi (d.sites ctx)
  | .superclass x => Labelled Occurrence.label lo hi (Expr.occurrencesIn x)
  | .methods ds => ∀ ctx, Labelled Site.label lo hi (FunctionDecl.sitesAll ctx ds)

section

variable {lo l₁ l₂ l₃ hi : Label} {c : Expr} {body : Stmt} {i : Option Expr} {ctx : Context}

/-- The increment of a loop is read before its body and stands behind it. -/
theorem Labelled.loop (hc : Labelled Occurrence.label lo l₁ c.occurrences)
    (hn : Labelled Occurrence.label l₁ l₂ (Expr.occurrencesIn i))
    (hb : ∀ ctx, Labelled Site.label l₂ hi (body.sites ctx)) :
    Labelled Site.label lo hi ((Stmt.loop c body i).sites ctx) := by
  have hcond : Labelled Site.label lo l₁ (c.sites ctx none) := hc.sites
  have hincr : Labelled Site.label l₁ l₂ (Expr.sitesIn (ctx.after body) none i) := hn.sitesIn
  refine (hcond.append (hincr.append (hb ctx))).of_subset ?_
  simp only [Stmt.sites, List.append_assoc]
  exact List.append_subset.2 ⟨List.subset_append_left _ _, List.append_subset.2
    ⟨fun s hs => List.mem_append_right _ (List.mem_append_right _ hs),
      fun s hs => List.mem_append_right _ (List.mem_append_left _ hs)⟩⟩

theorem Labelled.forLoop {first : Option Stmt} (hf : ∀ ctx, Labelled Site.label lo l₁ (first.elim [] (Stmt.sites ctx)))
    (hc : Labelled Occurrence.label l₁ l₂ c.occurrences)
    (hn : Labelled Occurrence.label l₂ l₃ (Expr.occurrencesIn i))
    (hb : ∀ ctx, Labelled Site.label l₃ hi (body.sites ctx)) :
    Labelled Site.label lo hi ((Stmt.forLoop first c body i).sites ctx) := by
  cases first with
  | none => exact (Labelled.loop hc hn hb).widen (hf ctx).le
  | some s =>
    have hloop : Labelled Site.label l₁ hi
        ((Stmt.loop c body i).sites ((ctx.ofBlock [s, .loop c body i]).after s)) := Labelled.loop hc hn hb
    simpa [Stmt.forLoop, Stmt.sites, Stmt.sitesAll] using (hf (ctx.ofBlock [s, .loop c body i])).append hloop

end

/-- Reading gives labels from the range it uses up, and different ones to different sites. -/
theorem Phrase.Reads.labelled {p : Phrase} {lo hi : Label} {ts : List Token} (h : p.Reads lo ts hi) :
    p.Labels lo hi := by
  induction h with
  | operators _ ih => exact ih
  | assign _ _ _ hx iht ihv => exact iht.assigned ihv hx
  | update _ _ _ hx iht ihv => exact iht.updated ihv hx
  | binary _ _ ihl ihr => exact ihr _ ihl
  | tighter _ _ ih => exact ih
  | tightest _ _ ih => exact ih
  | binaryEnd => exact fun l hl => hl
  | binaryMore _ _ _ ihr ih =>
    intro l hl
    refine ih l ?_
    rw [Level.occurrences_node]
    exact hl.append ihr
  | sign _ _ ih => exact ih
  | stepBefore _ _ hx ih => exact ih.updated .one hx
  | stepBehind _ _ hx ih => exact ih.updated .one hx
  | noStep _ ih => exact ih
  | call _ _ ihf ihr => exact ihr _ ihf
  | callEnd => exact fun l hl => hl
  | callArguments _ _ _ _ iha ih => exact fun l hl => ih l (hl.append iha)
  | callProperty _ _ _ ih => exact fun l hl => ih l hl
  | noArguments => exact .nil (Nat.le_refl _)
  | someArguments _ ih => exact ih
  | lastArgument _ _ ih => simpa [Labels, Expr.occurrencesAll] using ih
  | moreArguments _ _ _ _ ihx ihxs => exact ihx.append ihxs
  | constant _ => exact .nil (Nat.le_refl _)
  | identifier _ => exact .singleton rfl
  | this _ => exact .singleton rfl
  | super _ _ _ => exact .singleton rfl
  | group _ _ _ ih => exact ih
  | varPlain _ _ => exact fun ctx => .nil (Nat.le_refl _)
  | varValue _ _ _ _ ih => exact fun ctx => ih.sites
  | expressionStatement _ _ ih => exact fun ctx => ih.sites
  | noInitializer _ => exact fun ctx => .nil (Nat.le_refl _)
  | varInitializer _ _ ih => exact ih
  | expressionInitializer _ ih => exact ih
  | noCondition => exact .nil (Nat.le_refl _)
  | someCondition _ ih => exact ih
  | noIncrement => exact .nil (Nat.le_refl _)
  | someIncrement _ ih => exact ih
  | forLoop _ _ _ _ _ _ _ _ ihf ihc ihi ihb => exact fun ctx => Labelled.forLoop ihf ihc ihi ihb
  | ifThen _ _ _ _ _ ihc ihs => exact fun ctx => ihc.sites.append (ihs ctx)
  | ifElse _ _ _ _ _ _ _ ihc iht ihe => exact fun ctx => (ihc.sites.append (iht ctx)).append (ihe _)
  | whileLoop _ _ _ _ _ ihc ihs => exact fun ctx => Labelled.loop ihc (.nil (Nat.le_refl _)) ihs
  | returnNothing _ _ => exact fun ctx => .nil (Nat.le_refl _)
  | returnValue _ _ _ ih => exact fun ctx => ih.sites
  | breakLoop _ _ => exact fun ctx => .nil (Nat.le_refl _)
  | continueLoop _ _ => exact fun ctx => .nil (Nat.le_refl _)
  | block _ _ _ ih => exact fun ctx => ih _
  | print _ _ _ ih => exact fun ctx => ih.sites
  | expressionOnly _ ih => exact ih
  | classDecl _ _ _ _ _ _ ihs ihm => exact fun ctx => ihs.sitesIn.append (ihm _)
  | funDecl _ _ ih => exact fun ctx => ih _
  | varDecl _ _ ih => exact ih
  | noDeclaration _ ih => exact ih
  | declarationsEnd => exact fun ctx => .nil (Nat.le_refl _)
  | declarationsMore _ _ ihs ihb => exact fun ctx => (ihs ctx).append (ihb _)
  | noParameters => exact Nat.le_refl _
  | someParameters _ ih => exact ih
  | lastParameter _ _ => exact Nat.le_refl _
  | moreParameters _ _ _ _ ih => exact ih
  | function _ _ _ _ _ _ _ ihp ihb => exact fun ctx => (ihb _).widen ihp
  | noSuperclass => exact .nil (Nat.le_refl _)
  | someSuperclass _ _ => exact .singleton rfl
  | methodsEnd => exact fun ctx => .nil (Nat.le_refl _)
  | methodsMore _ _ ihd ihds => exact fun ctx => (ihd ctx).append (ihds ctx)

end ScriptLang
