import ScriptLang.Proofs.Running.Closed

/-!
# Runs with a limit on the output

A computation never looks at its output, so a limit on it changes nothing as long as what is written fits.  From there
on the computation is over: the sink has kept the bytes that fit, and nothing takes the fault back.

* `Exec.Appends` — a computation only adds bytes behind the output;
* `Ending.Cut limit x y` — how a computation ends without a limit, and how with one;
* `Exec.Cuts`, `Exec.cuts_closed` — these hold of all of evaluation.
-/

namespace ScriptLang

/-! ## sinks with a limit -/

/-- A sink that takes and hands on all that is written. -/
structure Sink.Open (s : Sink) : Prop where
  unlimited : s.limit = none
  flushes : s.flushFails = false

/-- The sink with a limit. -/
def Sink.limited (limit : Nat) (s : Sink) : Sink := { s with limit := some limit }

/-- The bytes of a sink that fit into one with a limit. -/
def Sink.cut (limit : Nat) (s : Sink) : Sink := { s with limit := some limit, written := s.written.extract 0 limit }

namespace Machine

/-- The same state with another sink. -/
def withSink (m : Machine) (sink : Sink) : Machine := { m with console := { m.console with sink } }

/-- The same state with a limit on the output. -/
def limited (limit : Nat) (m : Machine) : Machine := m.withSink (m.console.sink.limited limit)

/-- What was written. -/
def output (m : Machine) : ByteArray := m.console.sink.written

@[simp] theorem heap_limited (limit : Nat) (m : Machine) : (m.limited limit).heap = m.heap := rfl

@[simp] theorem sink_limited (limit : Nat) (m : Machine) :
    (m.limited limit).console.sink = m.console.sink.limited limit := rfl

end Machine

theorem extract_of_size_le {bytes : ByteArray} {n : Nat} (h : bytes.size ≤ n) : bytes.extract 0 n = bytes := by
  have hmax : bytes.extract 0 (max n bytes.size) = bytes := ByteArray.extract_zero_max_size
  rwa [Nat.max_eq_left h] at hmax

namespace Sink

variable {s : Sink} {limit : Nat} {bytes : ByteArray}

theorem fits_of_unlimited (h : s.limit = none) (count : Nat) : s.fits count = true := by
  unfold fits
  rw [h]

theorem write_of_unlimited (h : s.limit = none) (bytes : ByteArray) :
    s.write bytes = { s with written := s.written ++ bytes } := by
  unfold write
  rw [h]

theorem fits_limited (count : Nat) : (s.limited limit).fits count = decide (s.written.size + count ≤ limit) := rfl

/-- What fits is written as it would be without the limit. -/
theorem write_limited (h : s.written.size + bytes.size ≤ limit) :
    (s.limited limit).write bytes = limited limit { s with written := s.written ++ bytes } := by
  have hall : bytes.extract 0 (limit - s.written.size) = bytes := extract_of_size_le (by omega)
  simp only [write, limited, hall]

/-- Of what does not fit as many bytes are written as are left to the limit. -/
theorem write_limited_full (h : s.written.size ≤ limit) :
    (s.limited limit).write bytes = cut limit { s with written := s.written ++ bytes } := by
  simp only [write, limited, cut, ByteArray.extract_append, extract_of_size_le h, Nat.zero_sub]

/-- Behind a full sink nothing more is kept. -/
theorem cut_append (h : limit ≤ s.written.size) (bytes : ByteArray) :
    cut limit { s with written := s.written ++ bytes } = s.cut limit := by
  simp only [cut, ByteArray.extract_append, Nat.sub_eq_zero_of_le h, Nat.zero_sub, ByteArray.extract_same,
    ByteArray.append_empty]

end Sink

/-! ## computations that add to the output -/

/-- The machine that a computation leaves. -/
def Ending.machine? {α : Type} : Ending α → Option Machine
  | .done _ m => some m
  | .failed _ m => some m
  | .outOfFuel => none

namespace Exec

variable {α β : Type}

/-- A computation adds bytes to the output and leaves what else the sink is. -/
def Appends (x : Exec α) : Prop := ∀ m m', (x m).machine? = some m' →
  ∃ bytes, m'.console.sink = { m.console.sink with written := m.output ++ bytes }

/-- A computation that does not touch the sink. -/
theorem appends_of_sink {x : Exec α} (h : ∀ m m', (x m).machine? = some m' → m'.console.sink = m.console.sink) :
    x.Appends := fun m m' hx => ⟨.empty, by rw [h m m' hx, ByteArray.append_empty]; rfl⟩

theorem appends_bind {x : Exec α} {f : α → Exec β} (hx : x.Appends) (hf : ∀ a, (f a).Appends) :
    (x >>= f).Appends := by
  intro m m' h
  change (andThen x f m).machine? = some m' at h
  unfold andThen at h
  cases he : x m with
  | done a m₁ =>
    rw [he] at h
    obtain ⟨bytes, h₁⟩ := hx m m₁ (by rw [he]; rfl)
    obtain ⟨bytes', h₂⟩ := hf a m₁ m' h
    refine ⟨bytes ++ bytes', ?_⟩
    rw [h₂, Machine.output, h₁, ByteArray.append_assoc]
  | failed fault m₁ =>
    rw [he] at h
    exact hx m m' (he ▸ h)
  | outOfFuel =>
    rw [he] at h
    cases h

theorem write_eq (s : String) (m : Machine) : write s m =
    if m.console.sink.fits s.toUTF8.size then .done () (m.withSink (m.console.sink.write s.toUTF8))
    else .failed (.output .limitReached) (m.withSink (m.console.sink.write s.toUTF8)) := rfl

theorem appends_write (s : String) : (write s).Appends := by
  intro m m' h
  rw [write_eq] at h
  have hm : m' = m.withSink (m.console.sink.write s.toUTF8) := by
    split at h <;> exact (Option.some.inj h).symm
  rw [hm, Machine.withSink, Sink.write]
  split
  · exact ⟨_, rfl⟩
  · exact ⟨_, rfl⟩

end Exec

/-! ## the same with a limit -/

/-- How a computation ends without a limit on the output, and how with one: if what is written fits, in the same way,
otherwise with the fault of the sink, which has kept the bytes that fit. -/
inductive Ending.Cut {α : Type} (limit : Nat) : Ending α → Ending α → Prop
  | done {a m} : m.output.size ≤ limit → Cut limit (.done a m) (.done a (m.limited limit))
  | failed {fault m} : m.output.size ≤ limit → Cut limit (.failed fault m) (.failed fault (m.limited limit))
  | full {x m m'} : x.machine? = some m → limit < m.output.size → m'.console.sink = m.console.sink.cut limit →
      Cut limit x (.failed (.output .limitReached) m')
  | outOfFuel {y} : Cut limit .outOfFuel y

namespace Exec

variable {α β : Type} {limit : Nat}

/-- A computation adds to the output, and a limit only cuts it. -/
structure Cuts (limit : Nat) (x : Exec α) : Prop where
  appends : x.Appends
  cut : ∀ m, m.console.sink.Open → m.output.size ≤ limit → (x m).Cut limit (x (m.limited limit))

theorem cuts_onHeap (f : Heap → Except (Report RuntimeFault) (α × Heap)) : Cuts limit (onHeap f) where
  appends := appends_of_sink fun m m' h => by
    unfold onHeap at h
    split at h <;> cases h <;> rfl
  cut m _ hm := by
    unfold onHeap
    rw [Machine.heap_limited]
    cases f m.heap with
    | ok result => exact .done hm
    | error report => exact .failed hm

theorem cuts_write (s : String) : Cuts limit (write s) where
  appends := appends_write s
  cut m hopen hm := by
    have hdone : write s m = .done () (m.withSink { m.console.sink with written := m.output ++ s.toUTF8 }) := by
      rw [write_eq, if_pos (Sink.fits_of_unlimited hopen.unlimited _), Sink.write_of_unlimited hopen.unlimited]
      rfl
    rw [hdone, write_eq, Machine.sink_limited, Sink.fits_limited]
    by_cases hfits : m.console.sink.written.size + s.toUTF8.size ≤ limit
    · rw [if_pos (decide_eq_true hfits), Sink.write_limited hfits]
      exact .done (ByteArray.size_append ▸ hfits)
    · rw [if_neg (by simpa using hfits), Sink.write_limited_full hm]
      refine .full rfl ?_ rfl
      show limit < (m.console.sink.written ++ s.toUTF8).size
      rw [ByteArray.size_append]
      omega

/-- Built-in functions neither read nor write the output. -/
theorem run_limited (limit : Nat) (hosts : Array Host) (arguments : List Value) (m : Machine) (action : Action) :
    (action.run hosts arguments m.console).2.sink = m.console.sink ∧
      action.run hosts arguments (m.limited limit).console =
        ((action.run hosts arguments m.console).1,
          { (action.run hosts arguments m.console).2 with sink := m.console.sink.limited limit }) := by
  unfold Action.run
  cases action with
  | clock => exact ⟨rfl, rfl⟩
  | read => exact ⟨rfl, rfl⟩
  | wait =>
    cases Builtin.waitTime arguments with
    | ok seconds => exact ⟨rfl, rfl⟩
    | error message => exact ⟨rfl, rfl⟩
  | host position =>
    dsimp only
    cases hosts[position]? with
    | some f => exact ⟨rfl, rfl⟩
    | none => exact ⟨rfl, rfl⟩

theorem cuts_runBuiltin (hosts : Array Host) (b : Builtin) (arguments : List Value) (paren : Token) :
    Cuts limit (runBuiltin hosts b arguments paren) where
  appends := appends_of_sink fun m m' h => by
    have hsink := (run_limited 0 hosts arguments m b.action).1
    unfold runBuiltin at h
    split at h <;> next heq => cases h; rw [heq] at hsink; exact hsink
  cut m _ hm := by
    obtain ⟨hsink, hrun⟩ := run_limited limit hosts arguments m b.action
    unfold runBuiltin
    rw [hrun]
    generalize b.action.run hosts arguments m.console = reply at hsink
    obtain ⟨result, sink, unread, clock⟩ := reply
    obtain rfl : sink = m.console.sink := hsink
    cases result with
    | ok v => exact .done hm
    | error message => exact .failed hm

theorem cuts_bind {x : Exec α} {f : α → Exec β} (hx : Cuts limit x) (hf : ∀ a, Cuts limit (f a)) :
    Cuts limit (x >>= f) where
  appends := appends_bind hx.appends fun a => (hf a).appends
  cut m hopen hm := by
    show (andThen x f m).Cut limit (andThen x f (m.limited limit))
    have hcut := hx.cut m hopen hm
    have happends := hx.appends m
    unfold andThen
    generalize x m = ending at hcut happends
    generalize x (m.limited limit) = ending' at hcut
    cases hcut with
    | @done a m₁ hm₁ =>
      obtain ⟨bytes, hsink⟩ := happends m₁ rfl
      exact (hf a).cut m₁ (by rw [hsink]; exact ⟨hopen.unlimited, hopen.flushes⟩) hm₁
    | failed hm₁ => exact .failed hm₁
    | @full _ m₁ m' hend hlt hsink =>
      -- the limited run is over; what the other one still writes is cut off
      cases ending with
      | done a m₂ =>
        obtain rfl : m₂ = m₁ := Option.some.inj hend
        show Ending.Cut limit (f a m₂) _
        cases hfa : (f a m₂).machine? with
        | some m₃ =>
          obtain ⟨bytes, h₃⟩ := (hf a).appends m₂ m₃ hfa
          refine .full hfa ?_ ?_
          · rw [Machine.output, h₃, ByteArray.size_append]
            omega
          · rw [hsink, h₃]
            exact (Sink.cut_append (Nat.le_of_lt hlt) bytes).symm
        | none =>
          cases hf₂ : f a m₂ with
          | outOfFuel => exact .outOfFuel
          | done b m₃ => rw [hf₂] at hfa; cases hfa
          | failed fault m₃ => rw [hf₂] at hfa; cases hfa
      | failed fault m₂ => exact .full hend hlt hsink
      | outOfFuel => cases hend
    | outOfFuel => exact .outOfFuel

/-- A limit only cuts the output of whatever is evaluated. -/
theorem cuts_closed (hosts : Array Host) (limit : Nat) : Closed hosts (Cuts limit) where
  onHeap := cuts_onHeap
  write := cuts_write
  runBuiltin := cuts_runBuiltin hosts
  outOfFuel := ⟨fun _ _ h => (nomatch h), fun _ _ _ => .outOfFuel⟩
  bind := cuts_bind

/-- Handing on the output looks at nothing that was written. -/
theorem cuts_flush (limit : Nat) : Cuts limit flush where
  appends := appends_of_sink fun m m' h => by
    unfold flush at h
    split at h <;> cases h <;> rfl
  cut m hopen hm := by
    have hflush : (m.limited limit).console.sink.flushFails = false := hopen.flushes
    unfold flush
    rw [hflush, hopen.flushes]
    exact .done hm

end Exec

end ScriptLang
