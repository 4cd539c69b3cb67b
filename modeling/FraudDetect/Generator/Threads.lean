/-
The process of `trans-generator`: the thread of `startThread` and any number of requests to `/api/generate`, their
steps interleaved in any way. They share the clock and nothing else: each makes its ids of a reading of the clock and
a counter `i` of its own.
-/
import FraudDetect.Generator.Publish
import FraudDetect.Lib.Lts

namespace FraudDetect.Generator

/-! ## States -/

/-- An id, `System.currentTimeMillis() + "-" + i`, before it is made a string. -/
structure Id where
  millis : Int64
  i : Int32
deriving DecidableEq, Repr

def Id.text (id : Id) : String := idOf id.millis id.i

/-- The counter after `i++`, wrapped. -/
theorem ofNat_succ (n : Nat) : Int32.ofNat (n + 1) = Int32.ofNat n + 1 := Int32.ofNat_add ..

/-- Who makes ids: the background thread and the requests, numbered as they come. -/
inductive Source
  | startThread
  | generate (request : Nat)
deriving DecidableEq, Repr

/-- Where the thread of `startThread` is. -/
inductive ThreadPoint
  /-- At the test of `while (isRunning)`. -/
  | testing
  /-- At the test of the inner loop, `j < 100`. -/
  | looping (j : Nat)
  /-- Before `publishMessage(id)`. -/
  | publishing (j : Nat) (id : Id)
  | ended
deriving DecidableEq, Repr

/-- The thread: its `i`, where it is, and the calls its `publishMessage`s have made. -/
structure GeneratorThread where
  i : Int32
  point : ThreadPoint
  calls : List Event
deriving DecidableEq, Repr

/-- Where a call of `generate` is. -/
inductive RequestPoint
  /-- At the test `i < count`. -/
  | looping
  /-- Before `publishMessage(id)`. -/
  | publishing (id : Id)
  | responded (response : String)
deriving DecidableEq, Repr

/-- A call of `generate`: its `count` and `i`, where it is, and the calls its `publishMessage`s have made. -/
structure Request where
  count : Int32
  i : Int32
  point : RequestPoint
  calls : List Event
deriving DecidableEq, Repr

/-- The process, with the last reading of the clock and the ids passed to `publishMessage` so far. -/
structure TransGenerator where
  queueName : String
  isRunning : Bool
  thread : Option GeneratorThread
  requests : List Request
  lastReading : Option Int64
  published : List (Source × Id)

/-! ## Steps of the thread and of a request -/

namespace GeneratorThread

def start : GeneratorThread := ⟨0, .testing, []⟩

variable (t : GeneratorThread)

def testRunning (isRunning : Bool) : Option GeneratorThread :=
  match t.point with
  | .testing => some { t with point := if isRunning then .looping 0 else .ended }
  | _ => none

/-- The clock is read before `i++`. -/
def currentTimeMillis (millis : Int64) : Option GeneratorThread :=
  match t.point with
  | .looping j => if j < 100 then some { t with i := t.i + 1, point := .publishing j ⟨millis, t.i⟩ } else none
  | _ => none

def publishMessage (queueName : String) (c : Callees) : Option (Id × GeneratorThread) :=
  match t.point with
  | .publishing j id =>
    some (id, { t with point := .looping (j + 1), calls := t.calls ++ publishCalls queueName c id.text })
  | _ => none

/-- The thread goes on whether its sleep is interrupted or not. -/
def sleep : Option GeneratorThread :=
  match t.point with
  | .looping j => if j < 100 then none else some { t with point := .testing }
  | _ => none

end GeneratorThread

namespace Request

/-- A request for no message is answered at once. -/
def receive (count : Int32) : Request :=
  ⟨count, 0, if count ≤ 0 then .responded "Count must be greater than 0" else .looping, []⟩

variable (q : Request)

def currentTimeMillis (millis : Int64) : Option Request :=
  match q.point with
  | .looping => if q.i < q.count then some { q with point := .publishing ⟨millis, q.i⟩ } else none
  | _ => none

def publishMessage (queueName : String) (c : Callees) : Option (Id × Request) :=
  match q.point with
  | .publishing id =>
    some (id, { q with i := q.i + 1, point := .looping, calls := q.calls ++ publishCalls queueName c id.text })
  | _ => none

def respond : Option Request :=
  match q.point with
  | .looping => if q.i < q.count then none else some { q with point := .responded (response q.count.toInt) }
  | _ => none

end Request

/-! ## Steps of the process -/

/-- What a source does to the process, it does by a step of its own. -/
theorem own_step {α β γ : Type} {source : Option α} {f : α → Option β} {put : β → γ} {g : γ}
    (h : (source.bind f).map put = some g) : ∃ a b, source = some a ∧ f a = some b ∧ g = put b := by
  obtain ⟨b, hb, rfl⟩ := Option.map_eq_some_iff.1 h
  obtain ⟨a, ha, hf⟩ := Option.bind_eq_some_iff.1 hb
  exact ⟨a, b, ha, hf, rfl⟩

inductive Action
  /-- A request comes in. -/
  | generate (count : Int32)
  | testRunning
  /-- A source reads the clock and makes its next id. -/
  | currentTimeMillis (src : Source) (millis : Int64)
  /-- A source passes its id to `publishMessage`, whose calls end as the callees say. -/
  | publishMessage (src : Source) (callees : Callees)
  | sleep
  | respond (request : Nat)

namespace TransGenerator

/-- The process after `startThread` has been called on the new service. -/
def new (queueName : String) (isRunning : Bool) : TransGenerator :=
  ⟨queueName, isRunning, if isRunning then some .start else none, [], none, []⟩

def currentTimeMillis (g : TransGenerator) (millis : Int64) : Source → Option TransGenerator
  | .startThread =>
    (g.thread.bind (·.currentTimeMillis millis)).map fun t => { g with thread := some t, lastReading := some millis }
  | .generate r => (g.requests[r]?.bind (·.currentTimeMillis millis)).map fun q =>
    { g with requests := g.requests.set r q, lastReading := some millis }

def publishMessage (g : TransGenerator) (c : Callees) : Source → Option TransGenerator
  | .startThread => (g.thread.bind (·.publishMessage g.queueName c)).map fun (id, t) =>
    { g with thread := some t, published := g.published ++ [(.startThread, id)] }
  | .generate r => (g.requests[r]?.bind (·.publishMessage g.queueName c)).map fun (id, q) =>
    { g with requests := g.requests.set r q, published := g.published ++ [(.generate r, id)] }

def step (g : TransGenerator) : Action → Option TransGenerator
  | .generate count => some { g with requests := g.requests ++ [.receive count] }
  | .testRunning => (g.thread.bind (·.testRunning g.isRunning)).map fun t => { g with thread := some t }
  | .currentTimeMillis src millis => g.currentTimeMillis millis src
  | .publishMessage src c => g.publishMessage c src
  | .sleep => (g.thread.bind (·.sleep)).map fun t => { g with thread := some t }
  | .respond r => (g.requests[r]?.bind (·.respond)).map fun q => { g with requests := g.requests.set r q }

end TransGenerator

end FraudDetect.Generator
