import ScriptLang.Diagnostic
import ScriptLang.Text.Utf8

/-!
# The console of a program

What a program can reach outside itself: a sink for its output, the input it has not read yet, and a clock.  Nothing is
assumed of what the clock shows: its readings are given from outside, and each of them can fail.
-/

namespace ScriptLang

/-- Where output goes.  It keeps the bytes that fit and refuses the first that does not. -/
structure Sink where
  written : ByteArray
  /-- How many bytes it takes in all; any number if absent. -/
  limit : Option Nat
  flushFails : Bool

namespace Sink

/-- An empty sink without limit. -/
def unlimited : Sink := ⟨ByteArray.empty, none, false⟩

/-- Whether so many more bytes fit. -/
def fits (s : Sink) (count : Nat) : Bool :=
  match s.limit with
  | none => true
  | some n => s.written.size + count ≤ n

/-- The sink with as many of the bytes as fit. -/
def write (s : Sink) (bytes : ByteArray) : Sink :=
  match s.limit with
  | none => { s with written := s.written ++ bytes }
  | some n => { s with written := s.written ++ bytes.extract 0 (n - s.written.size) }

end Sink

/-- A clock is the stream of its readings.  A reading is a time in seconds since the start of 1970 or says why there is
none, and it can depend on how many were taken before it and how many seconds were waited. -/
structure Clock where
  reading : Nat → Float → Except String Float
  taken : Nat
  waited : Float

namespace Clock

/-- The next reading, and the clock after it was taken. -/
def read (k : Clock) : Except String Float × Clock := (k.reading k.taken k.waited, { k with taken := k.taken + 1 })

/-- The clock after so many seconds. -/
def wait (k : Clock) (seconds : Float) : Clock := { k with waited := k.waited + seconds }

/-- What one reading of a running clock takes, in seconds. -/
def tick : Float := 0.000001

/-- A clock that never fails: it goes on by one tick whenever it is read and by the time that is waited. -/
def running (start : Float) : Clock := ⟨fun taken waited => .ok (start + taken.toFloat * tick + waited), 0, 0⟩

instance : Coe Float Clock := ⟨running⟩

end Clock

/-- What a program can reach outside itself. -/
structure Console where
  sink : Sink
  unread : List UInt8
  clock : Clock

namespace Console

/-- What the clock shows, and the console after it was read. -/
def readClock (c : Console) : Except String Float × Console := (c.clock.read.1, { c with clock := c.clock.read.2 })

/-- The console after waiting. -/
def wait (c : Console) (seconds : Float) : Console := { c with clock := c.clock.wait seconds }

/-- Splits input behind the first line end. -/
def splitLine : List UInt8 → List UInt8 × List UInt8
  | [] => ([], [])
  | b :: bytes =>
    if b = 10 then ([b], bytes)
    else
      let (line, rest) := splitLine bytes
      (b :: line, rest)

/-- The next line of the input with its end, and the console after it was read. -/
def readLine (c : Console) : List UInt8 × Console :=
  let (line, rest) := splitLine c.unread
  (line, { c with unread := rest })

end Console

end ScriptLang
