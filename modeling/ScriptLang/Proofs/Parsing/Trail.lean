import Mathlib.Data.List.Chain
import ScriptLang.Proofs.Parsing.Building
import ScriptLang.Proofs.Parsing.Neighbours
import ScriptLang.Token.Scan

/-!
# Where the parser stands

* `r.Trail c cs` — the rule `r`, started at `c`, stands at the cursors `cs` one after the other.  At each of them there is
  a token to look at, and a token that is left behind does not end the source;
* `Rule.goes_of_built` — a rule that is built from such steps has a trail from every cursor with an end of the source ahead;
* `Rule.Trail.isChain` — along a trail the parser goes forward;
* `parse_goes_forward` — parsing goes forward through the whole list, each declaration by at least one token, and stops
  at its first end.

A trail follows the text of a rule down to single reads, so it tells where the parser stands inside of every rule, also
of one that refuses its tokens.
-/

namespace ScriptLang

/-! ## cursors -/

namespace Cursor

/-- A token that ends the source is still ahead. -/
def HasEnd (c : Cursor) : Prop := ∃ t ∈ c.rest, t.kind = .eof

/-- One cursor stands where another does, or behind the next token, which does not end the source. -/
def Step (c c' : Cursor) : Prop := c'.rest = c.rest ∧ c.fresh ≤ c'.fresh ∨ c.peek.kind ≠ .eof ∧ c' = c.skip

variable {c c' : Cursor}

theorem HasEnd.ne_nil (h : c.HasEnd) : c.rest ≠ [] := by
  obtain ⟨t, ht, -⟩ := h
  exact List.ne_nil_of_mem ht

/-- What is passed does not end the source, so the end is still ahead. -/
theorem HasEnd.of_passes (h : c.HasEnd) (hp : c.Passes c') : c'.HasEnd := by
  obtain ⟨read, hread, hne, -⟩ := hp
  obtain ⟨t, ht, heof⟩ := h
  rw [hread, List.mem_append] at ht
  exact ⟨t, ht.resolve_left fun hmem => hne t hmem heof, heof⟩

theorem Step.refl (c : Cursor) : c.Step c := .inl ⟨rfl, Nat.le_refl _⟩

/-- What is passed is passed token by token. -/
theorem Passes.exists_steps {ts us : List Token} {fresh : Label} (h : (Cursor.mk ts fresh).Passes ⟨us, fresh⟩) :
    ∃ cs, (Cursor.mk ts fresh :: cs).IsChain Step ∧ (Cursor.mk ts fresh :: cs).getLast? = some ⟨us, fresh⟩ := by
  obtain ⟨read, hread, hne, -⟩ := h
  obtain rfl : ts = read ++ us := hread
  induction read with
  | nil => exact ⟨[], .singleton _, rfl⟩
  | cons t read ih =>
    obtain ⟨cs, hsteps, hlast⟩ := ih fun u hu => hne u (List.mem_cons_of_mem _ hu)
    refine ⟨⟨read ++ us, fresh⟩ :: cs, .cons_cons (.inr ⟨hne t List.mem_cons_self, rfl⟩) hsteps, ?_⟩
    rwa [List.getLast?_cons_cons]

theorem Step.passes (h : c.Step c') : c.Passes c' := by
  rcases h with ⟨hrest, hfresh⟩ | ⟨hne, rfl⟩
  · exact ⟨[], hrest.symm, by simp, hfresh⟩
  · exact .skip hne

end Cursor

/-- Where an answer leaves the parser. -/
def Reply.next? {α : Type} : Reply α → Option Cursor
  | .ok _ next _ => some next
  | .refused _ next _ => some next
  | .outOfFuel => none

@[simp] theorem Reply.next?_after {α : Type} (earlier : List (Report SyntaxFault)) (y : Reply α) :
    (y.after earlier).next? = y.next? := by
  cases y <;> rfl

theorem Reply.eq_ok_of_after {α : Type} {earlier reports : List (Report SyntaxFault)} {y : Reply α} {a : α}
    {next : Cursor} (h : y.after earlier = .ok a next reports) : ∃ reports', y = .ok a next reports' := by
  cases y with
  | ok a' next' reports' =>
    cases h
    exact ⟨reports', rfl⟩
  | refused cause next' reports' => cases h
  | outOfFuel => cases h

namespace Rule

/-! ## trails -/

/-- The rules that look at one token at most. -/
inductive Primitive : {α : Type} → Rule α → Prop
  | succeed {α : Type} (a : α) : Primitive (pure a : Rule α)
  | outOfFuel {α : Type} : Primitive (outOfFuel : Rule α)
  | refuse {α : Type} (cause : SyntaxFault) : Primitive (refuse cause : Rule α)
  | report (anchor : Token) (cause : SyntaxFault) : Primitive (report anchor cause)
  | peek : Primitive peek
  | nextIs (k : Kind) : Primitive (nextIs k)
  | advance : Primitive advance
  | acceptBy {γ : Type} (meaning : Kind → Option γ) : Primitive (acceptBy meaning)
  | accept (k : Kind) : Primitive (accept k)
  | expect (k : Kind) (what : Expected) : Primitive (expect k what)
  | label : Primitive label

/-- Where a rule stands, one cursor after the other, with a token to look at under each of them. -/
inductive Trail : {α : Type} → Rule α → Cursor → List Cursor → Prop
  | primitive {α : Type} {r : Rule α} {c : Cursor} (hr : Primitive r) (htoken : c.rest ≠ [])
      (hstep : c.Step ((r c).next?.getD c)) : Trail r c [c, (r c).next?.getD c]
  | bind {α β : Type} {r : Rule α} {f : α → Rule β} {c next : Cursor} {a : α} {reports : List (Report SyntaxFault)}
      {cs cs' : List Cursor} (hr : r c = .ok a next reports) (hfirst : Trail r c cs) (hsecond : Trail (f a) next cs') :
      Trail (r >>= f) c (cs ++ cs')
  /-- A rule that does not succeed is the last one. -/
  | stop {α β : Type} {r : Rule α} {f : α → Rule β} {c : Cursor} {cs : List Cursor}
      (hr : ∀ a next reports, r c ≠ .ok a next reports) (hfirst : Trail r c cs) : Trail (r >>= f) c cs
  | recover {α : Type} {r : Rule α} {c : Cursor} {cs : List Cursor}
      (hr : ∀ cause next reports, r c ≠ .refused cause next reports) (hinner : Trail r c cs) : Trail (recover r) c cs
  /-- Recovery goes on token by token, to the place where it stops. -/
  | skip {α : Type} {r : Rule α} {c next : Cursor} {cause : Report SyntaxFault} {reports : List (Report SyntaxFault)}
      {cs cs' : List Cursor} (hr : r c = .refused cause next reports) (hinner : Trail r c cs)
      (hsteps : (next :: cs').IsChain Cursor.Step)
      (hlast : (next :: cs').getLast? = some { next with rest := synchronize next.rest })
      (htoken : synchronize next.rest ≠ []) : Trail (recover r) c (cs ++ next :: cs')

section

variable {α β : Type} {r : Rule α} {f : α → Rule β} {c next : Cursor} {a : α} {reports : List (Report SyntaxFault)}
  {cs : List Cursor} {k least : Nat}

theorem bind_ne_ok (h : ∀ a next reports, r c ≠ .ok a next reports) (b : β) (last : Cursor)
    (more : List (Report SyntaxFault)) : (r >>= f) c ≠ .ok b last more := by
  show andThen r f c ≠ _
  unfold andThen
  cases e : r c with
  | ok a next reports => exact absurd e (h a next reports)
  | refused cause next reports => nofun
  | outOfFuel => nofun

theorem next?_bind_of_stop (h : ∀ a next reports, r c ≠ .ok a next reports) : ((r >>= f) c).next? = (r c).next? := by
  show (andThen r f c).next? = _
  unfold andThen
  cases e : r c with
  | ok a next reports => exact absurd e (h a next reports)
  | refused cause next reports => rfl
  | outOfFuel => rfl

/-- A trail begins where the rule starts, goes forward step by step, and ends where the answer leaves the parser. -/
theorem Trail.isChain (h : Trail r c cs) : cs.head? = some c ∧ cs.IsChain Cursor.Step ∧
    ∀ next, (r c).next? = some next → cs.getLast? = some next := by
  induction h with
  | primitive hr htoken hstep =>
    refine ⟨rfl, .cons_cons hstep (.singleton _), fun next hnext => ?_⟩
    rw [hnext]
    rfl
  | @bind _ _ _ _ _ _ _ _ cs cs' hr _ _ ih ih' =>
    obtain ⟨hhead, hchain, hlast⟩ := ih
    obtain ⟨hhead', hchain', hlast'⟩ := ih'
    obtain ⟨tail, rfl⟩ : ∃ tail, cs' = _ :: tail := (List.head?_eq_some_iff.1 hhead')
    refine ⟨by rw [List.head?_append, hhead]; rfl, ?_, fun next hnext => ?_⟩
    · refine List.isChain_append.2 ⟨hchain, hchain', fun x hx y hy => ?_⟩
      -- the second rule starts where the first one ends
      have hx' := (hlast _ (by rw [hr]; rfl)).symm.trans hx
      rw [hhead'] at hy
      cases hx'
      cases hy
      exact .refl _
    · rw [bind_of_ok hr, Reply.next?_after] at hnext
      rw [List.getLast?_append, hlast' next hnext]
      rfl
  | stop hr _ ih =>
    refine ⟨ih.1, ih.2.1, fun next hnext => ih.2.2 next ?_⟩
    rwa [next?_bind_of_stop hr] at hnext
  | @recover _ r c _ hr _ ih =>
    refine ⟨ih.1, ih.2.1, fun next hnext => ih.2.2 next ?_⟩
    unfold Rule.recover at hnext
    cases e : r c with
    | ok a last reports =>
      rw [e] at hnext
      exact hnext
    | refused cause last reports => exact absurd e (hr cause last reports)
    | outOfFuel =>
      rw [e] at hnext
      cases hnext
  | @skip _ r c next _ _ _ _ hr _ hsteps hends _ ih =>
    obtain ⟨hhead, hchain, hlast⟩ := ih
    refine ⟨by rw [List.head?_append, hhead]; rfl, ?_, fun last hnext => ?_⟩
    · refine List.isChain_append.2 ⟨hchain, hsteps, fun x hx y hy => ?_⟩
      -- recovery starts at the token that was refused
      have hx' := (hlast next (by rw [hr]; rfl)).symm.trans hx
      cases hx'
      cases hy
      exact .refl _
    · unfold Rule.recover at hnext
      rw [hr] at hnext
      cases hnext
      rw [List.getLast?_append, hends]
      rfl

/-- Whatever a rule looks at later stands behind what it looks at before. -/
theorem Trail.pairwise (h : Trail r c cs) : cs.Pairwise Cursor.Passes :=
  have : Trans Cursor.Passes Cursor.Passes Cursor.Passes := ⟨Cursor.Passes.trans⟩
  List.isChain_iff_pairwise.1 (h.isChain.2.1.imp fun _ _ => Cursor.Step.passes)

theorem Trail.passes_of_mem (h : Trail r c cs) (hmem : next ∈ cs) : c.Passes next := by
  obtain ⟨tail, rfl⟩ := List.head?_eq_some_iff.1 h.isChain.1
  rcases List.mem_cons.1 hmem with rfl | hmem
  · exact .refl _
  · exact (List.pairwise_cons.1 h.pairwise).1 next hmem

/-- An answer leaves the parser at or behind the place where the rule started. -/
theorem Trail.passes (h : Trail r c cs) (hnext : (r c).next? = some next) : c.Passes next :=
  h.passes_of_mem (List.mem_of_getLast? (h.isChain.2.2 next hnext))

/-! ## rules that are built go forward -/

/-- The rule has a trail, and it reads at least so many tokens when it succeeds. -/
def Goes (least : Nat) (r : Rule α) (c : Cursor) : Prop :=
  (∃ cs, Trail r c cs) ∧ ∀ a next reports, r c = .ok a next reports → next.rest.length + least ≤ c.rest.length

theorem goes_primitive (hr : Primitive r) (hend : c.HasEnd) (hstep : c.Step ((r c).next?.getD c))
    (hleast : ∀ a next reports, r c = .ok a next reports → next.rest.length + least ≤ c.rest.length) :
    Goes least r c :=
  ⟨⟨_, .primitive hr hend.ne_nil hstep⟩, hleast⟩

/-- A primitive rule that stays where it is. -/
theorem goes_stay (hr : Primitive r) (hend : c.HasEnd) (hrest : ((r c).next?.getD c).rest = c.rest)
    (hfresh : c.fresh ≤ ((r c).next?.getD c).fresh) : Goes 0 r c := by
  refine goes_primitive hr hend (.inl ⟨hrest, hfresh⟩) fun a next reports h => ?_
  rw [h] at hrest
  exact Nat.le_of_eq (congrArg List.length hrest)

/-- A primitive rule that reads a token if it succeeds. -/
theorem goes_read (hr : Primitive r) (hend : c.HasEnd) (hne : c.peek.kind ≠ .eof) (h : r c = .ok a c.skip reports) :
    Goes 1 r c := by
  refine goes_primitive hr hend (.inr ⟨hne, by rw [h]; rfl⟩) fun a' next reports' h' => ?_
  rw [h] at h'
  cases h'
  exact Nat.le_of_eq (Cursor.length_skip hne)

/-- Recovery skips the token that was refused, unless the rule read one before it. -/
theorem goes_recover (hend : c.HasEnd) (hne : c.peek.kind ≠ .eof) (hr : Goes 1 r c) : Goes 1 (recover r) c := by
  obtain ⟨⟨cs, hcs⟩, hleast⟩ := hr
  cases e : r c with
  | ok a next reports =>
    have hok : recover r c = .ok (some a) next reports := by rw [recover, e]
    refine ⟨⟨_, .recover (fun _ _ _ h => by rw [e] at h; cases h) hcs⟩, fun b last more hlast => ?_⟩
    rw [hok] at hlast
    cases hlast
    exact hleast a next reports e
  | refused cause next reports =>
    have hok : recover r c = .ok none { next with rest := synchronize next.rest } (reports ++ [cause]) := by
      rw [recover, e]
    have hpasses : c.Passes next := hcs.passes (by rw [e]; rfl)
    have hsync := (synchronize_passes next.rest next.fresh).1
    obtain ⟨cs', hsteps, hends⟩ := hsync.exists_steps
    refine ⟨⟨_, .skip e hcs hsteps hends ((hend.of_passes hpasses).of_passes hsync).ne_nil⟩, fun b last more hlast => ?_⟩
    rw [hok] at hlast
    cases hlast
    exact length_synchronize hne hpasses
  | outOfFuel =>
    have hout : recover r c = .outOfFuel := by rw [recover, e]
    refine ⟨⟨_, .recover (fun _ _ _ h => by rw [e] at h; cases h) hcs⟩, fun b last more hlast => ?_⟩
    rw [hout] at hlast
    cases hlast

theorem goes_bind (hend : c.HasEnd) (hr : Goes k r c)
    (hf : ∀ a next reports, next.HasEnd → r c = .ok a next reports → Goes (least - k) (f a) next) :
    Goes least (r >>= f) c := by
  obtain ⟨⟨cs, hcs⟩, hk⟩ := hr
  by_cases hok : ∃ a next reports, r c = .ok a next reports
  · obtain ⟨a, next, reports, e⟩ := hok
    have hnext : next.HasEnd := hend.of_passes (hcs.passes (by rw [e]; rfl))
    obtain ⟨⟨cs', hcs'⟩, hleast⟩ := hf a next reports hnext e
    refine ⟨⟨_, .bind e hcs hcs'⟩, fun b last more hlast => ?_⟩
    rw [bind_of_ok e] at hlast
    obtain ⟨more', e'⟩ := Reply.eq_ok_of_after hlast
    have hfirst := hk a next reports e
    have hsecond := hleast b last more' e'
    omega
  · have hstop : ∀ a next reports, r c ≠ .ok a next reports := fun a next reports h => hok ⟨a, next, reports, h⟩
    exact ⟨⟨_, .stop hstop hcs⟩, fun b last more hlast => absurd hlast (bind_ne_ok hstop b last more)⟩

end

/-- A rule that is built goes forward from every cursor with an end of the source ahead. -/
theorem goes_of_built {α : Type} {r : Rule α} {known : Option Token} {least : Nat} (h : r.Built known least) {c : Cursor}
    (hend : c.HasEnd) (hk : ∀ t ∈ known, c.peek = t) : Goes least r c := by
  induction h generalizing c with
  | succeed a => exact goes_stay (.succeed a) hend rfl (Nat.le_refl _)
  | outOfFuel => exact goes_primitive .outOfFuel hend (.refl c) fun _ _ _ h => by cases h
  | refuse cause => exact goes_primitive (.refuse cause) hend (.refl c) fun _ _ _ h => by cases h
  | report anchor cause => exact goes_stay (.report anchor cause) hend rfl (Nat.le_refl _)
  | nextIs k => exact goes_stay (.nextIs k) hend rfl (Nat.le_refl _)
  | label => exact goes_stay .label hend rfl (Nat.le_succ _)
  | @advance t h =>
    have hne : c.peek.kind ≠ .eof := by rwa [hk t rfl]
    exact goes_read .advance hend hne rfl
  | @expect k h what =>
    by_cases he : c.peek.kind = k
    · have hne : c.peek.kind ≠ .eof := by rwa [he]
      exact goes_read (.expect k what) hend hne (if_pos he)
    · have hrefused : expect k what c = .refused ⟨c.peek, .expected what⟩ c [] := if_neg he
      refine goes_primitive (.expect k what) hend (.inl ?_) fun _ _ _ h => ?_
      · rw [hrefused]
        exact ⟨rfl, Nat.le_refl _⟩
      · rw [hrefused] at h
        cases h
  | @accept β least k f h hyes hno ihyes ihno =>
    by_cases he : c.peek.kind = k
    · have hne : c.peek.kind ≠ .eof := by rwa [he]
      have hok : accept k c = .ok true c.skip [] := if_pos he
      refine goes_bind hend (goes_read (.accept k) hend hne hok) fun b next reports hnext hb => ?_
      rw [hok] at hb
      cases hb
      exact ihyes hnext nofun
    · have hok : accept k c = .ok false c [] := if_neg he
      refine goes_bind hend (goes_stay (.accept k) hend (by rw [hok]; rfl) (by rw [hok]; exact Nat.le_refl _))
        fun b next reports hnext hb => ?_
      rw [hok] at hb
      cases hb
      exact ihno hnext nofun
  | @acceptBy β γ least meaning f h hsome hnone ihsome ihnone =>
    cases he : meaning c.peek.kind with
    | some b =>
      have hne : c.peek.kind ≠ .eof := fun heof => by
        rw [heof, h] at he
        cases he
      have hok : acceptBy meaning c = .ok (some (c.peek, b)) c.skip [] := by rw [acceptBy, he]
      refine goes_bind hend (goes_read (.acceptBy meaning) hend hne hok) fun x next reports hnext hx => ?_
      rw [hok] at hx
      cases hx
      exact ihsome _ hnext nofun
    | none =>
      have hok : acceptBy meaning c = .ok none c [] := by rw [acceptBy, he]
      refine goes_bind hend (goes_stay (.acceptBy meaning) hend (by rw [hok]; rfl) (by rw [hok]; exact Nat.le_refl _))
        fun x next reports hnext hx => ?_
      rw [hok] at hx
      cases hx
      exact ihnone hnext nofun
  | look hf ih =>
    refine goes_bind hend (goes_stay .peek hend rfl (Nat.le_refl _)) fun t next reports hnext ht => ?_
    cases ht
    exact ih _ hnext fun t ht => Option.some.inj ht
  | bind hr hf ihr ihf => exact goes_bind hend (ihr hend hk) fun a next reports hnext _ => ihf a hnext nofun
  | @recover _ t r h hr ih =>
    have hne : c.peek.kind ≠ .eof := by rwa [hk t rfl]
    exact goes_recover hend hne (ih hend nofun)
  | forget hr ih => exact ih hend nofun
  | fewer hr hl ih =>
    obtain ⟨htrail, hleast⟩ := ih hend hk
    exact ⟨htrail, fun a next reports h => by have := hleast a next reports h; omega⟩

/-- Declarations are read up to an end of the source, whatever is reported about them. -/
theorem declarations_stop {n : Nat} {c : Cursor} (h : declarations n false c ≠ .outOfFuel) :
    ∃ program last reports, declarations n false c = .ok program last reports ∧ headKind last.rest = .eof := by
  induction n generalizing c with
  | zero => exact absurd rfl h
  | succ n ih =>
    obtain ⟨ts, lo⟩ := c
    by_cases hend : headKind ts = .eof
    · exact ⟨_, _, _, declarations_end hend h, hend⟩
    · obtain ⟨t, us, rfl, ht⟩ := eq_cons_of_headKind rfl hend
      obtain ⟨s, c, reports, -, hmore, hsplit⟩ := exists_declaration hend h
      obtain ⟨program, last, more, hok, hlast⟩ := ih hmore
      rw [hok] at hsplit
      exact ⟨_, _, _, hsplit, hlast⟩

end Rule

/-! ## token lists -/

section

variable {tokens : List Token} {c c' : Cursor}

/-- The index of the first token that ends the source. -/
def firstEnd (tokens : List Token) : Nat := (beforeEnd tokens).length

/-- The index of the token at a cursor, of which the tokens from there on are left. -/
def Cursor.index (tokens : List Token) (c : Cursor) : Nat := tokens.length - c.rest.length

/-- A cursor stands in a list of tokens, before or at its first end. -/
def Cursor.Inside (tokens : List Token) (c : Cursor) : Prop :=
  c.rest = tokens.drop (c.index tokens) ∧ c.index tokens ≤ firstEnd tokens

/-- What is reached without passing an end lies before or at the first one. -/
theorem Cursor.Inside.of_passes {fresh : Label} (h : (Cursor.mk tokens fresh).Passes c) : c.Inside tokens := by
  obtain ⟨read, hread, hne, -⟩ := h
  have htokens : tokens = read ++ c.rest := hread
  have hindex : c.index tokens = read.length := by
    rw [Cursor.index, htokens, List.length_append]
    omega
  refine ⟨by rw [hindex, htokens, List.drop_left], ?_⟩
  rw [hindex, firstEnd, htokens, beforeEnd, List.takeWhile_append_of_pos (by simpa using hne), List.length_append]
  omega

/-- A cursor inside of a list has been reached without passing an end. -/
theorem Cursor.Inside.passes (h : c.Inside tokens) : (Cursor.mk tokens c.fresh).Passes c := by
  obtain ⟨hrest, hindex⟩ := h
  refine ⟨tokens.take (c.index tokens), ?_, fun t ht => ?_, Nat.le_refl _⟩
  · rw [hrest]
    exact (List.take_append_drop _ _).symm
  · have htake : beforeEnd tokens = tokens.take (firstEnd tokens) :=
      List.prefix_iff_eq_take.1 (List.takeWhile_prefix _)
    have htake : tokens.take (c.index tokens) = (beforeEnd tokens).take (c.index tokens) := by
      rw [htake, List.take_take, Nat.min_eq_left hindex]
    rw [htake] at ht
    simpa using List.all_eq_true.1 List.all_takeWhile t (List.mem_of_mem_take ht)

/-- Only at the first end stands a token that ends the source. -/
theorem Cursor.Inside.kind_peek (h : c.Inside tokens) (hbefore : c.index tokens < firstEnd tokens) :
    c.peek.kind ≠ .eof := by
  obtain ⟨rest, htokens⟩ : beforeEnd tokens <+: tokens := List.takeWhile_prefix _
  have hget : tokens[c.index tokens]? = some (beforeEnd tokens)[c.index tokens] := by
    have happend : (beforeEnd tokens ++ rest)[c.index tokens]? = (beforeEnd tokens)[c.index tokens]? :=
      List.getElem?_append_left hbefore
    rw [htokens] at happend
    rw [happend, List.getElem?_eq_getElem hbefore]
  rw [Cursor.peek, h.1, List.headD_eq_head?_getD, List.head?_drop, hget]
  simpa using List.all_eq_true.1 List.all_takeWhile _ (List.getElem_mem hbefore)

/-- At the first end stands a token that ends the source. -/
theorem kind_firstEnd {fresh : Label} (h : (Cursor.mk tokens fresh).HasEnd) :
    tokens[firstEnd tokens]?.map Token.kind = some .eof := by
  obtain ⟨rest, htokens, hrest⟩ := exists_eq_beforeEnd_append tokens
  cases rest with
  | nil =>
    -- then nothing in the list would end the source
    obtain ⟨t, ht, hk⟩ := h
    have hmem : t ∈ beforeEnd tokens := List.append_nil (beforeEnd tokens) ▸ htokens ▸ ht
    simpa [hk] using List.all_eq_true.1 List.all_takeWhile t hmem
  | cons t us =>
    have hget : (beforeEnd tokens ++ t :: us)[firstEnd tokens]? = some t := by simp [firstEnd]
    rw [← htokens] at hget
    rw [hget]
    exact congrArg some hrest

theorem Cursor.index_le_of_passes (h : c.Passes c') : c.index tokens ≤ c'.index tokens :=
  Nat.sub_le_sub_left h.length_le _

theorem Cursor.hasEnd_of_getLast? (h : tokens.getLast?.map Token.kind = some .eof) (fresh : Label) :
    (Cursor.mk tokens fresh).HasEnd := by
  obtain ⟨t, ht, hk⟩ := Option.map_eq_some_iff.1 h
  exact ⟨t, List.mem_of_getLast? ht, hk⟩

/-- Before the first end, a declaration goes forward by at least one token, whether it is well formed or not, unless it
has too little fuel. -/
theorem Cursor.Inside.declaration (hend : (Cursor.mk tokens c.fresh).HasEnd) (hc : c.Inside tokens)
    (hbefore : c.index tokens < firstEnd tokens) (n : Nat) :
    match Rule.declaration n c with
    | .ok _ next _ => next.Inside tokens ∧ c.index tokens < next.index tokens
    | .refused _ _ _ => False
    | .outOfFuel => n < 20 * c.rest.length + 18 := by
  have hne := hc.kind_peek hbefore
  cases e : Rule.declaration n c with
  | ok s next reports =>
    obtain ⟨⟨cs, hcs⟩, hleast⟩ := Rule.goes_of_built ((Rule.statements_built n).declaration c.peek hne)
      (hend.of_passes hc.passes) (fun t ht => Option.some.inj ht)
    have hlength := hleast s next reports e
    have hpasses := hcs.passes (by rw [e]; rfl)
    have hshorter : c.rest.length ≤ tokens.length := hc.passes.length_le
    refine ⟨.of_passes (hc.passes.trans hpasses), ?_⟩
    unfold Cursor.index
    omega
  | refused cause next reports => exact Rule.declaration_ne_refused n c next cause reports e
  | outOfFuel =>
    by_contra hfuel
    have hruns := (Rule.statements_run n).declaration c hne (Nat.le_of_not_lt hfuel)
    rw [Rule.Runs, e] at hruns
    exact hruns

end

/-- Parsing goes forward through a list of tokens up to its first end and no further. -/
structure GoesForward (fresh : Label) (tokens : List Token) : Prop where
  /-- There is an end in the list. -/
  bounded : tokens[firstEnd tokens]?.map Token.kind = some .eof
  /-- The parser answers, and its answer is what parsing gives.  It goes through the list step by step, stands on none of
  the tokens behind the first end, never goes back, and stops at the first end. -/
  run : ∃ program last reports cs,
    Rule.declarations (Rule.fuelFor tokens) false ⟨tokens, fresh⟩ = .ok program last reports ∧
    parse fresh tokens = ⟨if reports = [] then .ok program else .error reports, last.fresh⟩ ∧
    Rule.Trail (Rule.declarations (Rule.fuelFor tokens) false) ⟨tokens, fresh⟩ cs ∧
    cs.IsChain Cursor.Step ∧ (∀ c ∈ cs, c.Inside tokens) ∧ (cs.map (Cursor.index tokens)).Pairwise (· ≤ ·) ∧
    cs.getLast? = some last ∧ last.index tokens = firstEnd tokens
  /-- A declaration that is started before the first end reads at least one token and does not go past the end.  It never
  refuses its tokens, and only for want of fuel it has no answer. -/
  declaration : ∀ n (c : Cursor), c.Inside tokens → c.index tokens < firstEnd tokens →
    match Rule.declaration n c with
    | .ok _ next _ => next.Inside tokens ∧ c.index tokens < next.index tokens
    | .refused _ _ _ => False
    | .outOfFuel => n < 20 * c.rest.length + 18

/-- Parsing goes forward through every list of tokens that ends with an end of the source. -/
theorem parse_goes_forward {tokens : List Token} (hend : tokens.getLast?.map Token.kind = some .eof) (fresh : Label) :
    GoesForward fresh tokens := by
  have hstart := Cursor.hasEnd_of_getLast? hend
  refine ⟨kind_firstEnd (hstart fresh), ?_, fun n c hc hbefore => hc.declaration (hstart c.fresh) hbefore n⟩
  obtain ⟨program, last, reports, hok, hlast⟩ := Rule.declarations_stop (parse_not_outOfFuel fresh tokens)
  obtain ⟨⟨cs, hcs⟩, -⟩ := Rule.goes_of_built ((Rule.statements_built (Rule.fuelFor tokens)).declarations false)
    (hstart fresh) nofun
  have hinside : ∀ c ∈ cs, c.Inside tokens := fun c hc => .of_passes (hcs.passes_of_mem hc)
  have hends : cs.getLast? = some last := hcs.isChain.2.2 last (by rw [hok]; rfl)
  have hlastInside := hinside last (List.mem_of_getLast? hends)
  refine ⟨program, last, reports, cs, hok, ?_, hcs, hcs.isChain.2.1, hinside, ?_, hends, ?_⟩
  · cases reports <;> simp [parse, hok]
  · exact hcs.pairwise.map _ fun c c' h => Cursor.index_le_of_passes h
  · -- before the first end there would be one more declaration
    exact Nat.le_antisymm hlastInside.2 (Nat.le_of_not_lt fun hbefore => hlastInside.kind_peek hbefore hlast)

theorem parse_goes_forward_malformed :
    let tokens := tokensOf "class < \x7b var ; fun f( \x7d print 1; )"
    tokens.getLast?.map Token.kind = some .eof ∧ firstEnd tokens = 13 ∧ (parse 0 tokens).reports.length = 4 ∧
      GoesForward 0 tokens := by
  intro tokens
  have hend : tokens.getLast?.map Token.kind = some .eof := by rfl
  exact ⟨hend, by rfl, by rfl, parse_goes_forward hend 0⟩

end ScriptLang
