/-
The deployment: any number of `trans-generator` processes and of replicas of the detector, over the transaction queue,
which delivers at least once, and the notify queue. A process that crashes makes no more steps, and one that is started
later has made none before. A call that throws may have taken effect all the same; a call that completes has, save that
a delete under an outdated receipt may do nothing. One `sendMessage` puts at most one message on its queue: that the client
tries a failed request again by itself, and may so send a message twice, is left out. Other senders may use the transaction
queue as well.
-/
import FraudDetect.Generator.Threads
import FraudDetect.Lib.Queue
import FraudDetect.Service.Lifecycle

namespace FraudDetect.System

open Service (FraudDetectionService Message Call)
open Generator (TransGenerator Draws Source publishCalls)

/-! ## The queues -/

/-- Who put a message on the transaction queue: the generator `g`, for the id number `k` it passed to `publishMessage`,
or some other sender. -/
inductive Origin (γ : Type)
  | published (g : γ) (k : Nat) (draws : Draws ℚ)
  | other

/-- A message on the transaction queue. -/
structure Letter (γ : Type) where
  body : String
  origin : Origin γ

/-- A message on the notify queue, with the replica that sent it and the delivery it was sent for. -/
structure Notification (ι : Type) where
  sender : ι
  delivery : Message
  body : String
deriving DecidableEq, Repr

/-- The transaction queue, which delivers to the replicas. -/
abbrev Transactions (γ ι : Type) := Queue.State (Letter γ) ι

/-- How the deployment is set up: the queue both programs are configured with, the detector's settings, the generator's
`ObjectMapper.writeValueAsString` and the receipt handles SQS gives out. -/
structure Setting where
  queueName : String
  cfg : Service.Config
  writeValueAsString : Generator.Transaction → String
  handle : Nat → String
  handle_injective : Function.Injective handle

/-- Which calls of a `publishMessage` complete normally. -/
structure Outcome where
  resolves : Bool
  writes : Bool
  sends : Bool

/-- What happens to the transaction queue by itself or by other senders. -/
inductive QueueEvent
  | send (body : String)
  | reappear (message : Nat)
  | expire (message : Nat)

def QueueEvent.action {γ ι : Type} : QueueEvent → Queue.Action (Letter γ) ι
  | send body => .send ⟨body, .other⟩
  | reappear i => .reappear i
  | expire i => .expire i

namespace Setting

variable {γ ι : Type} (S : Setting)

/-- The callees of a generator. -/
def callees (draws : Draws ℚ) (o : Outcome) : Generator.Callees where
  draws := draws
  getQueueUrl := if o.resolves then .ok S.cfg.urls.transactionQueueUrl else .error (.thrown "getQueueUrl")
  writeValueAsString t := if o.writes then .ok (S.writeValueAsString t) else .error (.thrown "writeValueAsString")
  sendMessage _ _ := if o.sends then .ok () else .error (.thrown "sendMessage")

/-- What a generator's call does to the transaction queue; `kept` says whether one that throws takes effect. -/
def stores (origin : Origin γ) (kept : Bool) : Generator.Event → List (Queue.Action (Letter γ) ι)
  | .sendMessage queueUrl body ok =>
    if queueUrl = S.cfg.urls.transactionQueueUrl ∧ (ok || kept) = true then [.send ⟨body, origin⟩] else []
  | _ => []

/-- What the ids passed to `publishMessage` in a step of generator `g` do to the transaction queue. -/
def stored (g : γ) (x x' : TransGenerator) (draws : Draws ℚ) (o : Outcome) (kept : Bool) :
    List (Queue.Action (Letter γ) ι) :=
  (x'.published.drop x.published.length).flatMap fun p =>
    (publishCalls x.queueName (S.callees draws o) p.2.text).flatMap
      (S.stores (.published g x.published.length draws) kept)

/-- The delivery with this receipt handle. -/
def receipt? (q : Transactions γ ι) (receiptHandle : String) : Option Nat :=
  (List.range q.deliveries.length).find? (S.handle · = receiptHandle)

/-- What a replica's call does to the transaction queue; `kept` says whether a delete that throws or has an outdated
receipt takes effect. -/
def deletes (q : Transactions γ ι) (kept : Bool) : Service.Event → List (Queue.Action (Letter γ) ι)
  | .deleteMessage queueUrl receiptHandle ok =>
    if queueUrl = S.cfg.urls.transactionQueueUrl then
      match S.receipt? q receiptHandle with
      | some k => if ((ok && q.isLast k) || kept) = true then [.delete k] else []
      | none => []
    else []
  | _ => []

/-- What a replica's call leaves on the notify queue. -/
def notifies (j : ι) (kept : Bool) (c : Call) : List (Notification ι) :=
  match c.event with
  | .sendMessage queueUrl body ok =>
    if queueUrl = S.cfg.urls.notifyQueueUrl ∧ (ok || kept) = true then [⟨j, c.delivery, body⟩] else []
  | _ => []

/-- The messages as `receiveMessage` returns them, with the receipts of the deliveries to come. -/
def batch (q : Transactions γ ι) (messages : List Nat) : List Message :=
  messages.mapIdx fun x i => ⟨(q.sent[i]?.map Letter.body).getD "", S.handle (q.deliveries.length + x)⟩

end Setting

/-! ## States and steps -/

structure Deployment (γ ι : Type) (n : Nat) where
  generators : γ → TransGenerator
  replicas : ι → FraudDetectionService n
  transactions : Transactions γ ι
  notifications : List (Notification ι)

/-- The steps: of a generator, of a replica and of the queue. The two steps by which messages are put on and taken off
the transaction queue stand for themselves. -/
inductive Action (γ ι : Type) (n : Nat)
  | generator (g : γ) (a : Generator.Action)
  | publishMessage (g : γ) (src : Source) (draws : Draws ℚ) (outcome : Outcome) (kept : Bool)
  | replica (j : ι) (a : Service.Action n) (kept : Bool)
  | receiveReturns (j : ι) (p : Nat) (messages : List Nat)
  | queue (event : QueueEvent)

/-- `withMaxNumberOfMessages(10)`. -/
def maxNumberOfMessages : Nat := 10

def publishes : Generator.Action → Bool
  | .publishMessage .. => true
  | _ => false

def receives {n : Nat} : Service.Action n → Bool
  | .receiveReturns .. => true
  | _ => false

/-- The calls made in a step. -/
def made {n : Nat} (s s' : FraudDetectionService n) : List Call := s'.pool.calls.drop s.pool.calls.length

/-- A setting with the sample mapper on both sides, and receipt handles told apart by their length. -/
def sampleSetting : Setting where
  queueName := "transaction-queue"
  cfg := Service.sampleConfig
  writeValueAsString _ := Service.highText
  handle k := String.ofList (List.replicate k 'r')
  handle_injective := by
    intro k k' h
    have hlist := congrArg String.toList h
    simp only [String.toList_ofList] at hlist
    simpa using congrArg List.length hlist

namespace Deployment

variable {γ ι : Type} [DecidableEq γ] [DecidableEq ι] {n : Nat}

/-- The deployment before any step; `enabled` and `running` are the settings of each process. -/
def new (S : Setting) (n : Nat) (enabled : γ → Bool) (running : ι → Bool) : Deployment γ ι n where
  generators g := .new S.queueName (enabled g)
  replicas j := .new n (running j)
  transactions := Queue.new
  notifications := []

def step (S : Setting) (d : Deployment γ ι n) : Action γ ι n → Option (Deployment γ ι n)
  | .generator g a =>
    if publishes a then none
    else ((d.generators g).step a).map fun x => { d with generators := Function.update d.generators g x }
  | .publishMessage g src draws o kept =>
    ((d.generators g).step (.publishMessage src (S.callees draws o))).bind fun x =>
      (Lts.run Queue.step d.transactions (S.stored g (d.generators g) x draws o kept)).map fun q =>
        { d with generators := Function.update d.generators g x, transactions := q }
  | .replica j a kept =>
    if receives a then none
    else ((d.replicas j).step S.cfg a).bind fun s =>
      (Lts.run Queue.step d.transactions
        ((made (d.replicas j) s).flatMap fun c => S.deletes d.transactions kept c.event)).map fun q =>
          { d with
            replicas := Function.update d.replicas j s
            transactions := q
            notifications := d.notifications ++ (made (d.replicas j) s).flatMap (S.notifies j kept) }
  | .receiveReturns j p messages =>
    if messages.length ≤ maxNumberOfMessages then
      (Lts.run Queue.step d.transactions (messages.map (.receive · j))).bind fun q =>
        ((d.replicas j).step S.cfg (.receiveReturns p (S.batch d.transactions messages))).map fun s =>
          { d with replicas := Function.update d.replicas j s, transactions := q }
    else none
  | .queue event => (Queue.step d.transactions event.action).map fun q => { d with transactions := q }

section

variable {S : Setting} {d d' : Deployment γ ι n} {g : γ} {j : ι}

theorem step_generator {a : Generator.Action} : d.step S (.generator g a) = some d' ↔ publishes a = false ∧
    ∃ x, (d.generators g).step a = some x ∧ d' = { d with generators := Function.update d.generators g x } := by
  simp only [step]
  cases publishes a <;> simp [Option.map_eq_some_iff, @eq_comm _ _ d']

theorem step_publishMessage {src : Source} {draws : Draws ℚ} {o : Outcome} {kept : Bool} :
    d.step S (.publishMessage g src draws o kept) = some d' ↔
      ∃ x q, (d.generators g).step (.publishMessage src (S.callees draws o)) = some x ∧
        Lts.run Queue.step d.transactions (S.stored g (d.generators g) x draws o kept) = some q ∧
        d' = { d with generators := Function.update d.generators g x, transactions := q } := by
  simp [step, Option.bind_eq_some_iff, Option.map_eq_some_iff, @eq_comm _ _ d']

theorem step_replica {a : Service.Action n} {kept : Bool} : d.step S (.replica j a kept) = some d' ↔
    receives a = false ∧ ∃ s q, (d.replicas j).step S.cfg a = some s ∧
      Lts.run Queue.step d.transactions
        ((made (d.replicas j) s).flatMap fun c => S.deletes d.transactions kept c.event) = some q ∧
      d' = { d with
              replicas := Function.update d.replicas j s
              transactions := q
              notifications := d.notifications ++ (made (d.replicas j) s).flatMap (S.notifies j kept) } := by
  simp only [step]
  cases receives a <;> simp [Option.bind_eq_some_iff, Option.map_eq_some_iff, @eq_comm _ _ d']

theorem step_receiveReturns {p : Nat} {messages : List Nat} : d.step S (.receiveReturns j p messages) = some d' ↔
    messages.length ≤ maxNumberOfMessages ∧ ∃ q s,
      Lts.run Queue.step d.transactions (messages.map (.receive · j)) = some q ∧
      (d.replicas j).step S.cfg (.receiveReturns p (S.batch d.transactions messages)) = some s ∧
      d' = { d with replicas := Function.update d.replicas j s, transactions := q } := by
  simp only [step]
  split
  · rename_i hle
    simp [hle, Option.bind_eq_some_iff, Option.map_eq_some_iff, @eq_comm _ _ d']
  · rename_i hgt
    simp [hgt]

theorem step_queue {event : QueueEvent} : d.step S (.queue event) = some d' ↔
    ∃ q, Queue.step d.transactions event.action = some q ∧ d' = { d with transactions := q } := by
  simp [step, Option.map_eq_some_iff, @eq_comm _ _ d']

end

/-! ## The parts of a run -/

/-- The steps of replica `j`. -/
def replicaLabels (S : Setting) (j : ι) (d : Deployment γ ι n) : Action γ ι n → List (Service.Action n)
  | .replica j' a _ => if j' = j then [a] else []
  | .receiveReturns j' p messages => if j' = j then [.receiveReturns p (S.batch d.transactions messages)] else []
  | _ => []

/-- The other processes do not touch a replica. -/
def replica (S : Setting) (j : ι) :
    Lts.Simulation (step S : Deployment γ ι n → _) (FraudDetectionService.step S.cfg : _ → Service.Action n → _) where
  abs d := d.replicas j
  labels := replicaLabels S j
  admits _ _ := True
  step_run := by
    intro d a d' _ h
    -- the replica that steps, and any other
    have hupdate : ∀ {j' : ι} {a : Service.Action n} {s : FraudDetectionService n},
        (d.replicas j').step S.cfg a = some s →
        Lts.run (FraudDetectionService.step S.cfg) (d.replicas j) (if j' = j then [a] else []) =
          some (Function.update d.replicas j' s j) := by
      intro j' a s hs
      by_cases hj : j' = j
      · subst hj
        rw [if_pos rfl, Function.update_self]
        exact Lts.run_single.2 hs
      · rw [if_neg hj, Function.update_of_ne (Ne.symm hj)]
        rfl
    cases a with
    | generator g a => obtain ⟨-, x, -, rfl⟩ := step_generator.1 h; rfl
    | publishMessage g src draws o kept => obtain ⟨x, q, -, -, rfl⟩ := step_publishMessage.1 h; rfl
    | replica j' a kept => obtain ⟨-, s, q, hs, -, rfl⟩ := step_replica.1 h; exact hupdate hs
    | receiveReturns j' p messages => obtain ⟨-, q, s, -, hs, rfl⟩ := step_receiveReturns.1 h; exact hupdate hs
    | queue event => obtain ⟨q, -, rfl⟩ := step_queue.1 h; rfl

/-- The steps of generator `g`. -/
def generatorLabels (S : Setting) (g : γ) : Action γ ι n → List Generator.Action
  | .generator g' a => if g' = g then [a] else []
  | .publishMessage g' src draws o _ => if g' = g then [.publishMessage src (S.callees draws o)] else []
  | _ => []

/-- The other processes do not touch a generator. -/
def generator (S : Setting) (g : γ) :
    Lts.Simulation (step S : Deployment γ ι n → _) TransGenerator.step where
  abs d := d.generators g
  labels _ := generatorLabels S g
  admits _ _ := True
  step_run := by
    intro d a d' _ h
    have hupdate : ∀ {g' : γ} {a : Generator.Action} {x : TransGenerator}, (d.generators g').step a = some x →
        Lts.run TransGenerator.step (d.generators g) (if g' = g then [a] else []) =
          some (Function.update d.generators g' x g) := by
      intro g' a x hx
      by_cases hg : g' = g
      · subst hg
        rw [if_pos rfl, Function.update_self]
        exact Lts.run_single.2 hx
      · rw [if_neg hg, Function.update_of_ne (Ne.symm hg)]
        rfl
    cases a with
    | generator g' a => obtain ⟨-, x, hx, rfl⟩ := step_generator.1 h; exact hupdate hx
    | publishMessage g' src draws o kept => obtain ⟨x, q, hx, -, rfl⟩ := step_publishMessage.1 h; exact hupdate hx
    | replica j a kept => obtain ⟨-, s, q, -, -, rfl⟩ := step_replica.1 h; rfl
    | receiveReturns j p messages => obtain ⟨-, q, s, -, -, rfl⟩ := step_receiveReturns.1 h; rfl
    | queue event => obtain ⟨q, -, rfl⟩ := step_queue.1 h; rfl

/-- What a step does to the transaction queue. -/
def queueLabels (S : Setting) (d d' : Deployment γ ι n) : Action γ ι n → List (Queue.Action (Letter γ) ι)
  | .generator _ _ => []
  | .publishMessage g _ draws o kept => S.stored g (d.generators g) (d'.generators g) draws o kept
  | .replica j _ kept => (made (d.replicas j) (d'.replicas j)).flatMap fun c => S.deletes d.transactions kept c.event
  | .receiveReturns j _ messages => messages.map (.receive · j)
  | .queue event => [event.action]

theorem queue_step {S : Setting} {d d' : Deployment γ ι n} {a : Action γ ι n} (h : d.step S a = some d') :
    Lts.run Queue.step d.transactions (queueLabels S d d' a) = some d'.transactions := by
  cases a with
  | generator g a => obtain ⟨-, x, -, rfl⟩ := step_generator.1 h; rfl
  | publishMessage g src draws o kept =>
    obtain ⟨x, q, -, hq, rfl⟩ := step_publishMessage.1 h
    simp only [queueLabels, Function.update_self]
    exact hq
  | replica j a kept =>
    obtain ⟨-, s, q, -, hq, rfl⟩ := step_replica.1 h
    simp only [queueLabels, Function.update_self]
    exact hq
  | receiveReturns j p messages => obtain ⟨-, q, s, hq, -, rfl⟩ := step_receiveReturns.1 h; exact hq
  | queue event => obtain ⟨q, hq, rfl⟩ := step_queue.1 h; exact Lts.run_single.2 hq

theorem logs_step {S : Setting} {d d' : Deployment γ ι n} {a : Action γ ι n} (h : d.step S a = some d') :
    Queue.Logs (queueLabels S d d' a) d.transactions d'.transactions := Queue.logs_run (queue_step h)

section Run

variable {S : Setting} {enabled : γ → Bool} {running : ι → Bool} {actions : List (Action γ ι n)} {d : Deployment γ ι n}
  (h : Lts.run (step S) (new S n enabled running) actions = some d)
include h

/-- A run of the deployment is a run of each replica. -/
theorem replica_run (j : ι) : Lts.run (FraudDetectionService.step S.cfg) (.new n (running j))
    ((replica S j).trace (new S n enabled running) actions) = some (d.replicas j) :=
  (replica S j).run_trace Lts.along_true h

/-- A run of the deployment is a run of each generator. -/
theorem generator_run (g : γ) : Lts.run TransGenerator.step (.new S.queueName (enabled g))
    ((generator S g).trace (new S n enabled running) actions) = some (d.generators g) :=
  (generator S g).run_trace Lts.along_true h

end Run

end Deployment

end FraudDetect.System
