/-
`trans-generator`: the transaction `TransGenerateService` draws for an id, `publishMessage`, which absorbs every
exception of the calls it makes, and the `/api/generate` endpoint, which reports as many messages as it has made
iterations. Logging is left out.
-/
import FraudDetect.Lib.Calls
import FraudDetect.Lib.Decimal
import FraudDetect.Lib.Double
import FraudDetect.Service.ProcessMessage
import Mathlib.Algebra.Order.Floor.Semiring
import Mathlib.Data.Rat.Floor
import Mathlib.Order.Interval.Set.Defs

namespace FraudDetect.Generator

open Calls
open FraudDetect.Service (JavaException)

/-! ## Random transactions -/

/-- A `model.Transaction` of trans-generator; a `Date` is its number of milliseconds. -/
structure Transaction where
  id : String
  amount : Double
  accountId : String
  timestamp : Int64
deriving DecidableEq, Repr

/-- What `RandomStringUtils.randomAlphabetic(count)` returns: that many ASCII letters. -/
structure Alphabetic (count : Nat) where
  text : String
  length : text.toList.length = count
  letters : ∀ c ∈ text.toList, c.isAlpha = true

/-- What one `generateRandomTransaction` draws: the values of `Math.random()` for the amount and for the account, the
random strings and the date. The values are exact numbers, and what is made of them is not rounded: Java's product with
10000 is the nearest `double`, and so is its constant 0.8. -/
structure Draws (K : Type*) [Zero K] [One K] [Preorder K] where
  amount : Set.Ico (0 : K) 1
  account : Set.Ico (0 : K) 1
  randomAlphabetic : (count : Nat) → Alphabetic count
  date : Int64

section

variable {K : Type*} [Field K] [LinearOrder K] [FloorSemiring K]

/-- `1 + (int)(Math.random() * 10000)` on exact numbers: the product is not negative, so the cast takes its floor. -/
def Draws.drawnAmount (d : Draws K) : Nat := 1 + ⌊(d.amount : K) * 10000⌋₊

def generateRandomTransaction (d : Draws K) (id : String) : Transaction where
  id := id
  amount := .ofNat d.drawnAmount
  accountId := if 8 / 10 < (d.account : K) then "bad" ++ (d.randomAlphabetic 7).text else (d.randomAlphabetic 10).text
  timestamp := d.date

/-- The generator made the transaction suspicious: an amount above 9000 or an account of the "bad" branch. -/
def Draws.Suspicious (d : Draws K) : Prop := 8 / 10 < (d.account : K) ∨ 9 / 10 ≤ (d.amount : K)

end

/-! ## Publishing -/

/-- A call made by `publishMessage` and whether it completed normally. -/
inductive Event
  | getQueueUrl (queueName : String) (ok : Bool)
  | writeValueAsString (ok : Bool)
  | sendMessage (queueUrl body : String) (ok : Bool)
deriving DecidableEq, Repr

/-- A message has been sent to the queue. -/
def Event.isSent : Event → Bool
  | .sendMessage _ _ ok => ok
  | _ => false

/-- What one `publishMessage` draws and what its callees do, every call of which may throw. A `Math.random()` is a
multiple of `2^-53`. -/
structure Callees where
  draws : Draws ℚ
  getQueueUrl : Except JavaException String
  writeValueAsString : Transaction → Except JavaException String
  sendMessage : String → String → Except JavaException Unit

def publishMessage (queueName : String) (c : Callees) (id : String) : Prog JavaException Event Unit :=
  tryCatch
    (do
      let queueUrl ← call (.getQueueUrl queueName) c.getQueueUrl
      let message := generateRandomTransaction c.draws id
      let body ← call .writeValueAsString (c.writeValueAsString message)
      call (.sendMessage queueUrl body) (c.sendMessage queueUrl body))
    fun _ => pure ()

/-- The calls made by one `publishMessage`. -/
def publishCalls (queueName : String) (c : Callees) (id : String) : List Event :=
  (exec (publishMessage queueName c id) []).2

/-- The three calls of `publishMessage` complete normally. -/
def Callees.Completes (c : Callees) (id : String) : Prop :=
  ∃ queueUrl body, c.getQueueUrl = .ok queueUrl ∧
    c.writeValueAsString (generateRandomTransaction c.draws id) = .ok body ∧ c.sendMessage queueUrl body = .ok ()

section Calls

variable (queueName : String) (c : Callees) (id : String)

/-- `publishMessage` never throws, and makes the same calls whatever was called before. -/
theorem exec_publishMessage (log : List Event) :
    exec (publishMessage queueName c id) log = (.ok (), log ++ publishCalls queueName c id) := by
  unfold publishCalls publishMessage
  simp only [exec_tryCatch, exec_bind, exec_call]
  cases c.getQueueUrl with
  | error e => rfl
  | ok queueUrl =>
    simp only []
    cases c.writeValueAsString (generateRandomTransaction c.draws id) with
    | error e => simp
    | ok body =>
      simp only []
      cases c.sendMessage queueUrl body <;> simp

/-- The calls of one `publishMessage`, of which at most the last is a send. -/
theorem publishCalls_cases : (publishCalls queueName c id).countP Event.isSent ≤ 1 ∧
    ((publishCalls queueName c id).any Event.isSent = true ↔ c.Completes id) := by
  unfold publishCalls publishMessage Callees.Completes
  simp only [exec_tryCatch, exec_bind, exec_call]
  cases hurl : c.getQueueUrl with
  | error e => simp [Event.isSent]
  | ok queueUrl =>
    simp only []
    cases hbody : c.writeValueAsString (generateRandomTransaction c.draws id) with
    | error e => simp [Event.isSent]
    | ok body =>
      simp only []
      cases hsend : c.sendMessage queueUrl body <;> simp [Event.isSent, hsend, Except.toBool]

end Calls

/-! ## The generate endpoint -/

/-- The id made of a reading of `System.currentTimeMillis()` and a counter. -/
def idOf (millis : Int64) (i : Int32) : String := toString millis ++ "-" ++ toString i

/-- The clock reading of one iteration and what its `publishMessage` draws and calls. -/
structure Iteration where
  millis : Int64
  callees : Callees

/-- The number of messages reported as generated. -/
def response (n : Int) : String := toString n ++ " messages generated successfully."

/-- The body of the loop for the value `i` of its counter. -/
def generateBody (queueName : String) (iteration : Nat → Iteration) (i : Nat) : Prog JavaException Event Unit :=
  publishMessage queueName (iteration i).callees (idOf (iteration i).millis (Int32.ofNat i))

/-- `TransGeneratorController.generate`. -/
def generate (queueName : String) (iteration : Nat → Iteration) (count : Int32) : Prog JavaException Event String :=
  if count ≤ 0 then pure "Count must be greater than 0"
  else do
    (List.range count.toNatClampNeg).forM (generateBody queueName iteration)
    pure (response count.toInt)

section Generate

variable (queueName : String) (iteration : Nat → Iteration) (count : Int32)

/-- The calls of the iteration for `i`. -/
def iterationCalls (i : Nat) : List Event :=
  publishCalls queueName (iteration i).callees (idOf (iteration i).millis (Int32.ofNat i))

/-- A positive count is what the response reports, whatever became of the messages. -/
theorem exec_generate (hcount : 0 < count) : exec (generate queueName iteration count) [] =
    (.ok (response count.toInt), (List.range count.toNatClampNeg).flatMap (iterationCalls queueName iteration)) := by
  have hnot : ¬ count ≤ 0 := Int32.not_le.2 hcount
  unfold generate
  have hbody : ∀ i log, exec (generateBody queueName iteration i) log =
      (.ok (), log ++ iterationCalls queueName iteration i) :=
    fun i log => exec_publishMessage queueName _ _ log
  rw [if_neg hnot, exec_bind, exec_forM hbody]
  rfl

/-- The iterations whose `sendMessage` completed normally. -/
def sentIterations : Nat :=
  (List.range count.toNatClampNeg).countP fun i => (iterationCalls queueName iteration i).any Event.isSent

/-- They are counted by the sends that completed. -/
theorem sentIterations_eq :
    ((List.range count.toNatClampNeg).flatMap (iterationCalls queueName iteration)).countP Event.isSent =
      sentIterations queueName iteration count :=
  countP_flatMap_any (fun _ => (publishCalls_cases queueName _ _).1) _

end Generate

theorem response_injective : Function.Injective response := by
  intro n m h
  exact Decimal.toString_injective ((String.append_left_inj _).1 h)

/-- For every positive count and every pattern of exceptions of the three calls over the iterations: the number in the
response is the number of iterations whose `sendMessage` completed normally exactly when no call threw. -/
theorem generate_truthful_iff (queueName : String) (iteration : Nat → Iteration) (count : Int32) (hcount : 0 < count) :
    (exec (generate queueName iteration count) []).1 = .ok (response (sentIterations queueName iteration count)) ↔
      ∀ i < count.toNatClampNeg, (iteration i).callees.Completes (idOf (iteration i).millis (Int32.ofNat i)) := by
  have hint : count.toInt = count.toNatClampNeg := (Int32.cast_toNatClampNeg count (Int32.le_of_lt hcount)).symm
  rw [exec_generate queueName iteration count hcount]
  constructor
  · intro h
    have hn : count.toInt = sentIterations queueName iteration count := response_injective (Except.ok.inj h)
    rw [hint] at hn
    have hlen : sentIterations queueName iteration count = (List.range count.toNatClampNeg).length := by
      rw [List.length_range]
      exact_mod_cast hn.symm
    intro i hi
    exact (publishCalls_cases queueName _ _).2.1 (List.countP_eq_length.1 hlen i (List.mem_range.2 hi))
  · intro h
    have hlen : sentIterations queueName iteration count = (List.range count.toNatClampNeg).length :=
      List.countP_eq_length.2 fun i hi => (publishCalls_cases queueName _ _).2.2 (h i (List.mem_range.1 hi))
    rw [hlen, List.length_range, hint]

/-- The same letter throughout. -/
def Alphabetic.replicate (count : Nat) (c : Char) (hc : c.isAlpha = true) : Alphabetic count where
  text := String.ofList (List.replicate count c)
  length := by simp
  letters x hx := by
    rw [String.toList_ofList] at hx
    rw [List.eq_of_mem_replicate hx]
    exact hc

/-- Draws of a transaction that satisfies no rule. -/
def normalDraws : Draws ℚ where
  amount := ⟨0, by norm_num⟩
  account := ⟨0, by norm_num⟩
  randomAlphabetic count := .replicate count 'a' rfl
  date := 0

/-- Callees that complete, but for `getQueueUrl` as told. -/
def sampleCallees (getQueueUrl : Except JavaException String) : Callees where
  draws := normalDraws
  getQueueUrl := getQueueUrl
  writeValueAsString t := .ok t.id
  sendMessage _ _ := .ok ()

theorem generate_truthful_completed :
    (exec (generate "transaction-queue" (fun _ => ⟨0, sampleCallees (.ok "transactions")⟩) 3) []).1 =
      .ok (response (sentIterations "transaction-queue" (fun _ => ⟨0, sampleCallees (.ok "transactions")⟩) 3)) :=
  (generate_truthful_iff "transaction-queue" _ 3 (by decide)).2 fun _ _ => ⟨_, _, rfl, rfl, rfl⟩

/-- With a queue that cannot be resolved no message is sent, and one is reported. -/
theorem message_reported_not_sent : ¬ ∀ (queueName : String) (iteration : Nat → Iteration) (count : Int32), 0 < count →
    (exec (generate queueName iteration count) []).1 = .ok (response (sentIterations queueName iteration count)) := by
  intro h
  have hr := h "transaction-queue" (fun _ => ⟨0, sampleCallees (.error (.thrown "no such queue"))⟩) 1 (by decide)
  rw [exec_generate _ _ _ (by decide)] at hr
  have hn := response_injective (Except.ok.inj hr)
  revert hn
  decide

end FraudDetect.Generator
