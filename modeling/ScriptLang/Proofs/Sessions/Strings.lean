import ScriptLang.Proofs.Running.Making
import ScriptLang.Proofs.Scanning.Pairing
import ScriptLang.Proofs.Sessions.Past

/-!
# Strings of a session

* `Text.Inherent P` — literals of every source have the property `P`, and strings keep it when they are put together;
* `Session.Ran.made`, `Session.Ran.made_at` — then all strings in a session have it, also at every point of the next run,
  if those have it that built-in functions give;
* `Session.strings_paired` — so every string of a run is paired.  What `+` puts together is decoded part by part, and
  decoding never comes to a lone backslash.
-/

namespace ScriptLang

/-- A property that every string literal of a source has, and that strings keep when they are put together. -/
structure Text.Inherent (P : String → Prop) : Prop where
  literal : ∀ {source raw : String} {t : Token}, t ∈ tokensOf source → t.kind = .string raw → P raw
  append : ∀ a b, P a → P b → P (a ++ b)

theorem Text.inherent_true : Text.Inherent fun _ => True := ⟨fun _ _ => trivial, fun _ _ _ _ => trivial⟩

theorem Text.inherent_paired : Text.Inherent Text.Paired := ⟨paired_of_mem_tokensOf, fun _ _ => Text.Paired.append⟩

namespace Session

variable {P : String → Prop} {s s' : Session} {sites : List Site} {runs : List Run} {source : String}
  {program : List Stmt} {fuel : Nat}

/-- The string literals of an accepted program have the property. -/
theorem forall_strings_of_enter? (hP : Text.Inherent P) (he : s.enter? source = some (s', program)) :
    ∀ raw ∈ Stmt.stringsAll program, P raw := by
  intro raw hraw
  have hmem : raw ∈ stringsOf (beforeEnd (tokensOf source)) := (enter?_eq_some he).1.strings hraw
  obtain ⟨t, ht, hkind⟩ := List.mem_flatMap.1 hmem
  exact hP.literal ((List.takeWhile_sublist _).subset ht) (Token.kind_of_mem_strings hkind)

theorem Kept.joins (h : s.Kept sites) (hP : Text.Inherent P) : s.setting.Joins P := ⟨h.hosts, hP.append⟩

theorem made_defineBuiltin (h : s.machine.heap.MadeOf P) (b : Builtin) : (s.defineBuiltin b).machine.heap.MadeOf P := by
  have hdefined := h.define Heap.globals b.name (v := .builtin s.machine.heap.nextTag b) trivial
  exact ⟨hdefined.value, hdefined.field⟩

theorem made_initial : Heap.initial.MadeOf P := by
  refine ⟨fun e p hp => ?_, fun o p hp => ?_⟩
  · cases e <;> cases hp
  · cases hp

theorem made_start (console : Console) : (start console).machine.heap.MadeOf P := by
  have h : (Session.machine ⟨⟨Heap.initial, console⟩, [], #[], 0, true, false⟩).heap.MadeOf P := made_initial
  exact made_defineBuiltin (made_defineBuiltin (made_defineBuiltin h _) _) _

/-- The first point of the run of an accepted source. -/
theorem made_first (hP : Text.Inherent P) (he : s.enter? source = some (s', program)) (hs : s.machine.heap.MadeOf P) :
    (Run.first ⟨s', fuel, program⟩).Made P := by
  refine ⟨?_, forall_strings_of_enter? hP he⟩
  show s'.machine.heap.MadeOf P
  rw [(enter?_eq_some he).2.2]
  exact hs

/-- A run keeps the heap so, however it ends. -/
theorem made_execute (hσ : s.setting.Joins P) (hp : (Run.first ⟨s, fuel, program⟩).Made P)
    (hg : s.setting.GivesOnly P (Run.first ⟨s, fuel, program⟩)) :
    (s.execute fuel program).session.machine.heap.MadeOf P := by
  have hmakes : ((do Exec.program fuel s.setting program; Exec.flush : Exec Unit) s.machine).Makes P
      s.machine.heap.objects.size fun _ _ => True :=
    Exec.makes_bind (makes_program hσ hp hg) fun _ m _ _ hm _ => Exec.makes_flush hm
  unfold execute
  cases he : (do Exec.program fuel s.setting program; Exec.flush : Exec Unit) s.machine with
  | done u machine =>
    rw [he] at hmakes
    exact hmakes.2.1
  | failed fault machine =>
    rw [he] at hmakes
    exact hmakes.2
  | outOfFuel => exact hp.1

/-- The strings in a session have the property, and its objects are those that were made. -/
theorem Ran.made (hP : Text.Inherent P) (h : Ran s sites runs)
    (hg : ∀ r ∈ runs, r.session.setting.GivesOnly P r.first) : s.machine.heap.MadeOf P := by
  induction h with
  | start console => exact made_start console
  | @host s sites runs name arity f _ _ ih =>
    have hs : (Session.machine { s with hosts := s.hosts.push f }).heap.MadeOf P := ih hg
    exact made_defineBuiltin hs _
  | reset _ ih => exact ih hg
  | @run s sites runs fuel source hran ih =>
    have hs := ih fun r hr => hg r (List.mem_append_left _ hr)
    cases he : s.enter? source with
    | none =>
      obtain ⟨ds, hrun⟩ := run_eq_refuse fuel he
      rw [hrun]
      exact hs
    | some entered =>
      obtain ⟨s', program⟩ := entered
      rw [run_eq_execute he]
      have hfirst : (Run.first ⟨s', fuel, program⟩).Made P := made_first hP he hs
      unfold runsOf at hg
      rw [he, Option.elim_some] at hg
      split at hg
      · next hu =>
        rw [machine_of_unfinished hu]
        exact hfirst.1
      · exact made_execute ((hran.reached.kept.enter he).joins hP) hfirst (hg ⟨s', fuel, program⟩ (by simp))

/-- Every point of the next run is made so. -/
theorem Ran.made_at (hP : Text.Inherent P) (h : Ran s sites runs) (he : s.enter? source = some (s', program))
    (hg : ∀ r ∈ runs ++ [⟨s', fuel, program⟩], r.session.setting.GivesOnly P r.first) {p : Point}
    (hv : Visits s'.setting ⟨fuel, .program program, s'.machine⟩ p) : p.Made P := by
  have hs := h.made hP fun r hr => hg r (List.mem_append_left _ hr)
  exact hv.made ((h.reached.kept.enter he).joins hP) (hg ⟨s', fuel, program⟩ (by simp)) (made_first hP he hs)

/-! ## every string of a run -/

/-- A string is the value of an expression in a run. -/
def Produced (r : Run) (raw : String) : Prop :=
  ∃ n e x m m', Visits r.session.setting r.first ⟨n, .eval e x, m⟩ ∧
    Exec.eval n r.session.setting e x m = .done (.string raw) m'

/-- If no built-in function gave a string, every string of a run is paired.  So decoding it never comes to a lone
backslash; of any two of them, what `+` makes is decoded as the one and then the other, or fails at the first character
that makes no escape in the one, and if there is none, in the other; and so it is printed. -/
theorem strings_paired (hs : Ran s sites runs) (he : s.enter? source = some (s', program)) (fuel : Nat)
    (hnone : ∀ σ n tag b vs paren m raw m',
      Visited (runs ++ [⟨s', fuel, program⟩]) σ ⟨n, .call (.builtin tag b) vs paren, m⟩ →
      Exec.call n σ (.builtin tag b) vs paren m ≠ .done (.string raw) m') :
    (∀ a, Produced ⟨s', fuel, program⟩ a →
      Text.Paired a ∧ ∀ t, Relation.ReflTransGen Text.Decodes a.toList t → t ≠ ['\\']) ∧
    ∀ a b, Produced ⟨s', fuel, program⟩ a → Produced ⟨s', fuel, program⟩ b →
      (Text.unescape (a ++ b) =
        match Text.unescape a, Text.unescape b with
        | .ok x, .ok y => .ok (x ++ y)
        | .ok _, .error c => .error c
        | .error c, _ => .error c) ∧
      ∀ keyword, Exec.print keyword (.string (a ++ b)) =
        match Text.unescape a, Text.unescape b with
        | .ok x, .ok y => Exec.write (x ++ y ++ "\n")
        | .ok _, .error c => Exec.fail keyword (.invalidEscape c)
        | .error c, _ => Exec.fail keyword (.invalidEscape c) := by
  have hgives : ∀ r ∈ runs ++ [(⟨s', fuel, program⟩ : Run)], r.session.setting.GivesOnly Text.Paired r.first := by
    rintro r hr raw ⟨n, tag, b, vs, paren, m, m', hv, hcall⟩
    exact absurd hcall (hnone _ n tag b vs paren m raw m' ⟨r, hr, rfl, hv⟩)
  have hpaired : ∀ a, Produced ⟨s', fuel, program⟩ a → Text.Paired a := by
    rintro a ⟨n, e, x, m, m', hv, heval⟩
    have hpoint := hs.made_at Text.inherent_paired he hgives hv
    have hσ := (hs.reached.kept.enter he).joins Text.inherent_paired
    exact (made_behind_eval heval hσ hpoint ((hgives ⟨s', fuel, program⟩ (by simp)).visits hv)).2.2
  refine ⟨fun a ha => ⟨hpaired a ha, fun t ht => (hpaired a ha).ne_lone ht⟩, fun a b ha _ => ?_⟩
  have happend := Text.unescape_append (hpaired a ha) b
  refine ⟨happend, fun keyword => ?_⟩
  unfold Exec.print
  simp only [happend]
  cases Text.unescape a with
  | error c => rfl
  | ok x => cases Text.unescape b <;> rfl

/-- An escaped backslash and a letter make no new escape. -/
theorem strings_paired_sum : ∃ s' program,
    (start ⟨.unlimited, [], .running 0⟩).enter? "\"\\\\\" + \"n\";" = some (s', program) ∧
    Produced ⟨s', 9, program⟩ "\\\\" ∧ Produced ⟨s', 9, program⟩ "n" ∧ Produced ⟨s', 9, program⟩ "\\\\n" ∧
    Text.unescape "\\\\" = .ok "\\" ∧ Text.unescape "\\\\n" = .ok "\\n" ∧
    ∀ t, Relation.ReflTransGen Text.Decodes "\\\\n".toList t → t ≠ ['\\'] := by
  let left : Expr := .literal (.string "\\\\")
  let right : Expr := .literal (.string "n")
  let sum : Expr := .binary left (.ofMark .plus 1) right
  let program : List Stmt := [.expr sum]
  let s' : Session := start ⟨.unlimited, [], .running 0⟩
  have he : (start ⟨.unlimited, [], .running 0⟩).enter? "\"\\\\\" + \"n\";" = some (s', program) := rfl
  -- the tasks of the run, none of which is a call
  let tasks : Task → Prop := fun task => task = .program program ∨ task = .program [] ∨
    task = .exec Heap.globals (.expr sum) ∨ task = .eval Heap.globals sum ∨ task = .eval Heap.globals left ∨
    task = .eval Heap.globals right
  have hstep : ∀ σ p q, Calls σ p q → tasks p.task → tasks q.task := by
    rintro σ ⟨n, task, m⟩ q hc (rfl | rfl | rfl | rfl | rfl | rfl) <;>
      simp -failIfUnchanged only [program, sum, left, right] at hc <;>
      cases hc <;> simp [tasks, program, sum, left, right]
  have hnone : ∀ σ n tag b vs paren m raw m', Visited ([] ++ [⟨s', 9, program⟩]) σ ⟨n, .call (.builtin tag b) vs paren, m⟩ →
      Exec.call n σ (.builtin tag b) vs paren m ≠ .done (.string raw) m' := by
    rintro σ n tag b vs paren m raw m' ⟨r, hr, -, hv⟩
    obtain rfl := List.mem_singleton.1 hr
    have htask : tasks (.call (.builtin tag b) vs paren) := by
      generalize hq : Point.mk n (.call (.builtin tag b) vs paren) m = q at hv
      have hall : tasks q.task := by
        clear hq
        induction hv with
        | refl => exact .inl rfl
        | tail _ hc ih => exact hstep _ _ _ hc ih
      rwa [← hq] at hall
    simp [tasks] at htask
  have hsum : Visits s'.setting ⟨9, .program program, s'.machine⟩ ⟨8, .eval Heap.globals sum, s'.machine⟩ :=
    .head .topStatement (.head .expression .refl)
  have hleft : Produced ⟨s', 9, program⟩ "\\\\" :=
    ⟨7, _, left, _, s'.machine, hsum.tail .binaryLeft, by simp only [left, Exec.eval]; rfl⟩
  have hright : Produced ⟨s', 9, program⟩ "n" :=
    ⟨7, _, right, _, s'.machine, hsum.tail (.binaryRight (v := .string "\\\\") (by simp only [left, Exec.eval]; rfl)),
      by simp only [right, Exec.eval]; rfl⟩
  have htogether : Produced ⟨s', 9, program⟩ "\\\\n" :=
    ⟨8, _, sum, _, s'.machine, hsum, by simp only [left, right, sum, Exec.eval]; rfl⟩
  obtain ⟨hpaired, hparts⟩ := strings_paired (.start _) he 9 hnone
  exact ⟨s', program, he, hleft, hright, htogether, rfl, (hparts _ _ hleft hright).1, (hpaired _ htogether).2⟩

end Session

end ScriptLang
