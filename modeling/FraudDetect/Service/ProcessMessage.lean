/-
`FraudDetectionServiceImpl.processMessage` for one delivery: the calls it makes out of the service,
each of which may throw, with its `try` block and its recovery delete. Logging is left out except
for the `transaction.getId()` it evaluates, which throws on `null`.
-/
import FraudDetect.Drools.Rules
import FraudDetect.Lib.Calls

namespace FraudDetect.Service

open Calls
open FraudDetect.Drools

/-! ## Deliveries and calls -/

/-- An SQS message as received: each delivery has a receipt handle of its own. -/
structure Message where
  body : String
  receiptHandle : String
deriving DecidableEq, Repr

structure QueueUrls where
  transactionQueueUrl : String
  notifyQueueUrl : String
deriving DecidableEq, Repr

inductive JavaException
  | nullPointer
  | thrown (message : String)
deriving DecidableEq, Repr

/-- A call made by `processMessage` and whether it completed normally. -/
inductive Event
  | readValue (ok : Bool)
  | evaluate (ok : Bool)
  | writeValueAsString (ok : Bool)
  | sendMessage (queueUrl body : String) (ok : Bool)
  | deleteMessage (queueUrl receiptHandle : String) (ok : Bool)
deriving DecidableEq, Repr

def Event.isDelete : Event → Bool
  | .deleteMessage .. => true
  | _ => false

def Event.isSend : Event → Bool
  | .sendMessage .. => true
  | _ => false

/-- What the callees do: the mapper, the rule engine and the SQS client, every call of which may
throw. `evaluated` is the object as `evaluate` leaves it. A delete is told whether it is the one of
the recovery path, so that its two calls may end differently. -/
structure Callees where
  readValue : String → Except JavaException (Option Transaction)
  evaluate : Option Transaction → Except JavaException Bool
  evaluated : Transaction → Transaction
  writeValueAsString : Transaction → Except JavaException String
  sendMessage : String → String → Except JavaException Unit
  deleteMessage : Bool → String → String → Except JavaException Unit

/-! ## The method -/

/-- Java code that makes calls and may throw. -/
abbrev Java := Prog JavaException Event

/-- `detectFraud`. -/
def detectFraud (c : Callees) (transaction : Option Transaction) : Java Bool :=
  call .evaluate (c.evaluate transaction)

section Blocks

variable (c : Callees) (urls : QueueUrls) (message : Message)

/-- The `try` block of `processMessage`. -/
def tryBlock : Java Unit := do
  let transaction ← call .readValue (c.readValue message.body)
  let isFraud ← detectFraud c transaction
  -- `log.info` reads `transaction.getId()`
  match transaction with
  | none => throw .nullPointer
  | some t =>
    if isFraud then
      let body ← call .writeValueAsString (c.writeValueAsString (c.evaluated t))
      call (.sendMessage urls.notifyQueueUrl body) (c.sendMessage urls.notifyQueueUrl body)
    call (.deleteMessage urls.transactionQueueUrl message.receiptHandle)
      (c.deleteMessage false urls.transactionQueueUrl message.receiptHandle)

/-- Its `catch` block. -/
def catchBlock : Java Unit :=
  call (.deleteMessage urls.transactionQueueUrl message.receiptHandle)
    (c.deleteMessage true urls.transactionQueueUrl message.receiptHandle)

def processMessage : Java Unit := tryCatch (tryBlock c urls message) fun _ => catchBlock c urls message

/-- The calls made by one `processMessage`. -/
def trace : List Event := (exec (processMessage c urls message) []).2

end Blocks

/-! ## The calls from each program point on -/

section Points

variable (c : Callees) (urls : QueueUrls) (message : Message)

/-- The delete of the `catch` block. -/
def fromRecovery : List Event :=
  [.deleteMessage urls.transactionQueueUrl message.receiptHandle
    (c.deleteMessage true urls.transactionQueueUrl message.receiptHandle).toBool]

/-- The delete that ends the `try` block. -/
def fromDelete : List Event :=
  match c.deleteMessage false urls.transactionQueueUrl message.receiptHandle with
  | .ok _ => [.deleteMessage urls.transactionQueueUrl message.receiptHandle true]
  | .error _ => .deleteMessage urls.transactionQueueUrl message.receiptHandle false :: fromRecovery c urls message

def fromSend (body : String) : List Event :=
  match c.sendMessage urls.notifyQueueUrl body with
  | .ok _ => .sendMessage urls.notifyQueueUrl body true :: fromDelete c urls message
  | .error _ => .sendMessage urls.notifyQueueUrl body false :: fromRecovery c urls message

def fromWrite (t : Transaction) : List Event :=
  match c.writeValueAsString t with
  | .ok body => .writeValueAsString true :: fromSend c urls message body
  | .error _ => .writeValueAsString false :: fromRecovery c urls message

def fromEvaluate (transaction : Option Transaction) : List Event :=
  match c.evaluate transaction, transaction with
  | .error _, _ => .evaluate false :: fromRecovery c urls message
  | .ok _, none => .evaluate true :: fromRecovery c urls message
  | .ok true, some t => .evaluate true :: fromWrite c urls message (c.evaluated t)
  | .ok false, some _ => .evaluate true :: fromDelete c urls message

def fromRead : List Event :=
  match c.readValue message.body with
  | .ok transaction => .readValue true :: fromEvaluate c urls message transaction
  | .error _ => .readValue false :: fromRecovery c urls message

end Points

theorem trace_eq (c : Callees) (urls : QueueUrls) (message : Message) :
    trace c urls message = fromRead c urls message := by
  unfold trace processMessage tryBlock detectFraud fromRead
  rw [exec_tryCatch, exec_bind, exec_call]
  cases c.readValue message.body with
  | error e => rfl
  | ok transaction =>
    simp only [exec_bind, exec_call, fromEvaluate]
    cases c.evaluate transaction with
    | error e => rfl
    | ok isFraud =>
      cases transaction with
      | none => rfl
      | some t =>
        cases isFraud with
        | false =>
          simp only [fromDelete]
          cases c.deleteMessage false urls.transactionQueueUrl message.receiptHandle <;> rfl
        | true =>
          simp only [fromWrite, exec_bind, exec_call, if_true]
          cases c.writeValueAsString (c.evaluated t) with
          | error e => rfl
          | ok body =>
            simp only [fromSend]
            cases c.sendMessage urls.notifyQueueUrl body with
            | error e => rfl
            | ok _ =>
              simp only [fromDelete]
              cases c.deleteMessage false urls.transactionQueueUrl message.receiptHandle <;> rfl

end FraudDetect.Service
