import Mathlib.Algebra.BigOperators.Group.Finset.Defs
import Mathlib.Algebra.Order.Ring.Rat
import Stra2us.Foundation.Quantity
import Stra2us.Foundation.Repr

namespace Stra2us.Client.Synth

open Foundation

section Duration

-- A `ValueError` with its text, or another exception by its class name.
inductive Failure
  | value (detail : Text)
  | other (name : Text)
deriving DecidableEq

def durationUnit : Char → Option Nat
  | 's' => some 1
  | 'm' => some 60
  | 'h' => some 3600
  | _ => none

-- The product of a float and a small integer, rounded.
def scale (x : Binary64) (unit : Nat) : Binary64 :=
  if x.isFinite then .ofRatio x.isNegative (x.toRatio.1 * unit) x.toRatio.2 else x

def invalidDuration (py : Interpreter) (s : Text) : Failure :=
  .value ("invalid duration: ".toList ++ py.reprUnits (s.map Char.toNat))

def parseDuration (py : Interpreter) (text : Text) : Except Failure Binary64 :=
  let s := strip text
  match s.getLast? with
  | none => .error (.value "empty duration string".toList)
  | some last =>
      match durationUnit last with
      | some unit =>
          match parseFloat s.dropLast with
          | some value => .ok (scale value unit)
          | none => .error (invalidDuration py s)
      | none =>
          match parseFloat s with
          | some value => .ok value
          | none => .error (invalidDuration py s)

end Duration

section Surroundings

-- What the run asks of the client.
inductive Call
  | postQueue (topic : Text) (payload : Value)
  | put (key payload : Text)
  | get (key : Text)

-- The clock, and how many things have been done by it.
structure Moment where
  time : ℚ
  events : Nat

-- How long each thing takes, and what the client returns or fails with. The clock goes on
-- for ever, though not with every thing that is done.
structure Environment where
  elapse : Nat → ℚ
  elapse_nonneg : ∀ n, 0 ≤ elapse n
  advances : ∀ time, ∃ n, time ≤ ∑ i ∈ Finset.range n, elapse i
  answer : Nat → Call → Except Text Value

def Moment.pass (env : Environment) (asked : ℚ) (m : Moment) : Moment :=
  ⟨m.time + asked + env.elapse m.events, m.events + 1⟩

-- A sleep is no shorter than asked.
def sleep (env : Environment) (m : Moment) : Quantity → Except Failure Moment
  | .finite seconds =>
      if seconds < 0 then .error (.value "sleep length must be non-negative".toList)
      else .ok (m.pass env seconds)
  | .infinite _ => .error (.other "OverflowError".toList)
  | .nan => .error (.value "Invalid value NaN (not a number)".toList)

end Surroundings

section Run

structure SynthResult where
  elapsedSeconds : ℚ
  queuePosts : Nat
  queueErrors : Nat
  kvPuts : Nat
  kvPutErrors : Nat
  kvGets : Nat
  kvGetErrors : Nat
  kvGetMismatches : Nat
  lastError : Option Text
deriving DecidableEq

def SynthResult.zero : SynthResult := ⟨0, 0, 0, 0, 0, 0, 0, 0, none⟩

-- The arguments but for the client, which is part of the environment.
structure Arguments where
  queueTopic : Option Text
  kvKey : Option Text
  durationSeconds : Binary64
  rateHz : Binary64
  mode : Text
  maxRateHz : Binary64
  hasProgressStream : Bool

def defaultMaxRateHz : Binary64 := .ofRatio false 100 1

def given : Option Text → Bool
  | some (_ :: _) => true
  | _ => false

variable (py : Interpreter) (lower : Text → Text)

def inMode (mode : Text) (one : String) : Bool :=
  mode = one.toList || mode = "both".toList

-- The mode to run in, which `lower` has made of the one given.
def checked (args : Arguments) : Except Failure Text :=
  let mode := lower args.mode
  let quoted := py.reprUnits (mode.map Char.toNat)
  if (Quantity.ofBinary64 args.rateHz).le (.finite 0) then
    .error (.value ("rate_hz must be positive (got ".toList ++ args.rateHz.text ++ [')']))
  else if (Quantity.ofBinary64 args.maxRateHz).lt (.ofBinary64 args.rateHz) then
    .error (.value ("rate_hz ".toList ++ args.rateHz.text ++ " exceeds the ".toList ++
      args.maxRateHz.text ++ " Hz ceiling. Pass --allow-high-rate to bypass this guard if ".toList ++
      "you're intentionally generating high-rate traffic.".toList))
  else if (Quantity.ofBinary64 args.durationSeconds).le (.finite 0) then
    .error (.value ("duration_seconds must be positive (got ".toList ++
      args.durationSeconds.text ++ [')']))
  else if mode ∉ ["q-only".toList, "kv-only".toList, "both".toList] then
    .error (.value ("mode must be one of 'q-only' | 'kv-only' | 'both' (got ".toList ++
      quoted ++ [')']))
  else if inMode mode "q-only" && !given args.queueTopic then
    .error (.value ("mode=".toList ++ quoted ++ " requires --queue <topic>".toList))
  else if inMode mode "kv-only" && !given args.kvKey then
    .error (.value ("mode=".toList ++ quoted ++ " requires --kv-key <path>".toList))
  else .ok mode

variable (env : Environment)

-- The part of a tick that posts.
def queuePart (args : Arguments) (mode : Text) (tickCount : Nat) (tickStart : ℚ)
    (result : SynthResult) (m : Moment) : SynthResult × Moment :=
  if inMode mode "q-only" then
    let payload : Value := .dict [(.str "tick".toList, .int tickCount),
      (.str "ts".toList, .int (tickStart.num.tdiv tickStart.den)),
      (.str "synth".toList, .bool true)]
    match env.answer m.events (.postQueue (args.queueTopic.getD []) payload) with
    | .ok _ => ({ result with queuePosts := result.queuePosts + 1 }, m.pass env 0)
    | .error e =>
        ({ result with queueErrors := result.queueErrors + 1, lastError := some e }, m.pass env 0)
  else (result, m)

def mismatch (key payload : Text) (got : Text) : Text :=
  "kv round-trip mismatch on ".toList ++ key ++ ": wrote ".toList ++
    py.reprUnits (payload.map Char.toNat) ++ ", got ".toList ++ got

def isText : Value → Text → Bool
  | .str got, payload => decide (got = payload)
  | _, _ => false

def getPart (key payload : Text) (result : SynthResult) (m : Moment) :
    Except Failure (SynthResult × Moment) :=
  match env.answer m.events (.get key) with
  | .ok got =>
      let fetched := { result with kvGets := result.kvGets + 1 }
      if isText got payload then .ok (fetched, m.pass env 0)
      else
        match py.repr py.reprDepth got with
        | some shown => .ok ({ fetched with
            kvGetMismatches := fetched.kvGetMismatches + 1
            lastError := some (mismatch py key payload shown) }, m.pass env 0)
        | none => .error (.other "RecursionError".toList)
  | .error e => .ok
      ({ result with kvGetErrors := result.kvGetErrors + 1, lastError := some e }, m.pass env 0)

-- A value is only read back where it has been written.
def kvPart (args : Arguments) (mode : Text) (tickCount : Nat) (result : SynthResult) (m : Moment) :
    Except Failure (SynthResult × Moment) :=
  if inMode mode "kv-only" then
    let key := args.kvKey.getD []
    let payload := "synth-tick-".toList ++ natText tickCount
    match env.answer m.events (.put key payload) with
    | .ok _ => getPart py env key payload { result with kvPuts := result.kvPuts + 1 } (m.pass env 0)
    | .error e => .ok
        ({ result with kvPutErrors := result.kvPutErrors + 1, lastError := some e }, m.pass env 0)
  else .ok (result, m)

-- `int` of a float.
def truncate : Quantity → Except Failure Int
  | .finite x => .ok (x.num.tdiv x.den)
  | .nan => .error (.value "cannot convert float NaN to integer".toList)
  | .infinite _ => .error (.other "OverflowError".toList)

-- The status line reads the clock and is written out; its text is left out.
def progressPart (args : Arguments) (tickCount : Nat) (m : Moment) : Except Failure Moment :=
  if args.hasProgressStream then
    match truncate (.ofBinary64 args.rateHz) with
    | .error failure => .error failure
    | .ok rate =>
        if (tickCount : Int) % max 1 rate = 0 then .ok ((m.pass env 0).pass env 0) else .ok m
  else .ok m

def pace (deadline tickInterval : Quantity) (tickStart : ℚ) (m : Moment) : Except Failure Moment :=
  let tickElapsed := m.time - tickStart
  let m₁ := m.pass env 0
  let sleepFor := tickInterval.sub (.finite tickElapsed)
  if (Quantity.finite 0).lt sleepFor then
    let remaining := deadline.sub (.finite m₁.time)
    let m₂ := m₁.pass env 0
    sleep env m₂ (sleepFor.smaller ((Quantity.finite 0).larger remaining))
  else .ok m₁

def tick (args : Arguments) (mode : Text) (deadline tickInterval : Quantity) (tickCount : Nat)
    (tickStart : ℚ) (result : SynthResult) (m : Moment) :
    Except Failure (SynthResult × Moment) := do
  let posted := queuePart env args mode tickCount tickStart result m
  let stored ← kvPart py env args mode tickCount posted.1 posted.2
  let m ← progressPart env args tickCount stored.2
  let m ← pace env deadline tickInterval tickStart m
  .ok (stored.1, m)

-- When its ticks started, and how the run ended if it did.
structure Trace where
  starts : List ℚ
  outcome : Option (Except Failure SynthResult)

def loop (args : Arguments) (mode : Text) (deadline tickInterval : Quantity) (start : ℚ) :
    Nat → Nat → SynthResult → Moment → Trace
  | 0, _, _, _ => ⟨[], none⟩
  | fuel + 1, tickCount, result, m =>
      let tickStart := m.time
      let m := m.pass env 0
      if deadline.le (.finite tickStart) then
        ⟨[], some (.ok { result with elapsedSeconds := m.time - start })⟩
      else
        match tick py env args mode deadline tickInterval (tickCount + 1) tickStart result m with
        | .error failure => ⟨[tickStart], some (.error failure)⟩
        | .ok (result, m) =>
            let rest := loop args mode deadline tickInterval start fuel (tickCount + 1) result m
            { rest with starts := tickStart :: rest.starts }

def deadlineOf (args : Arguments) (start : ℚ) : Quantity :=
  (Quantity.finite start).add (.ofBinary64 args.durationSeconds)

def run (args : Arguments) (fuel : Nat) (start : ℚ) : Trace :=
  match checked py lower args with
  | .error failure => ⟨[], some (.error failure)⟩
  | .ok mode =>
      match (Quantity.ofBinary64 args.rateHz).inverse with
      | none => ⟨[], some (.error (.other "ZeroDivisionError".toList))⟩
      | some tickInterval =>
          let m : Moment := ⟨start, 0⟩
          loop py env args mode (deadlineOf args start) tickInterval start fuel 0 .zero
            (m.pass env 0)

end Run

end Stra2us.Client.Synth
