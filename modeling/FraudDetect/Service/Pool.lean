/-
The workers of the pool: `n` threads that run `processMessage` on the deliveries handed to them,
over the one rule engine, one call at a time and interleaved in any way. A call may throw wherever
the label says so. The rule-engine part of every step is a step of `Engine`, so a run in which
`evaluate` does not throw is a run of the concurrent calls studied there.
-/
import FraudDetect.Drools.Firings
import FraudDetect.Service.ProcessMessage

namespace FraudDetect.Service

open FraudDetect.Drools

/-! ## States and steps -/

/-- What Jackson makes of a body (`none`: it does not decode; `some none`: JSON `null`) and of a
transaction. -/
structure ObjectMapper where
  readValue : String → Option (Option Transaction)
  writeValueAsString : Transaction → String

structure Config where
  mapper : ObjectMapper
  urls : QueueUrls

/-- What `readValue` gives for a delivery, or `none` when it throws: always on a body that does not
decode, and on any other when the label says so. -/
def Config.decode (cfg : Config) (m : Message) (ok : Bool) : Option (Option Transaction) :=
  if ok then cfg.mapper.readValue m.body else none

/-- The JSON text of a sample transaction. -/
def sampleText (id amount fraudReason : String) : String :=
  "\x7b\"id\":" ++ id ++ ",\"amount\":" ++ amount ++
    ",\"accountId\":\"Normal Account\",\"timestamp\":null,\"fraudReason\":" ++ fraudReason ++ "\x7d"

def normalText : String := sampleText "\"1\"" "100.0" "null"

def normalClaimedText : String := sampleText "\"1\"" "100.0" "\"claimed by the sender\""

def highText : String := sampleText "\"2\"" "10000.0" "null"

def highClaimedText : String := sampleText "\"2\"" "10000.0" "\"claimed by the sender\""

def highFlaggedText : String := sampleText "\"2\"" "10000.0" "\"High transaction amount\""

/-- The texts Jackson is looked at on, and what they stand for. -/
def sampleTexts : List (String × Option Transaction) :=
  [("null", none), (normalText, some normalTransaction),
    (normalClaimedText, some (normalTransaction.setFraudReason "claimed by the sender")), (highText, some highTransaction),
    (highClaimedText, some (highTransaction.setFraudReason "claimed by the sender")),
    (highFlaggedText, some (highTransaction.setFraudReason Rule.highTransactionAmount.reason))]

/-- Jackson on the sample texts; no other text decodes. -/
def sampleMapper : ObjectMapper where
  readValue body := (sampleTexts.find? (·.1 = body)).map Prod.snd
  writeValueAsString t := ((sampleTexts.find? (·.2 = some t)).map Prod.fst).getD ""

def sampleConfig : Config := ⟨sampleMapper, ⟨"transactions", "notify"⟩⟩

/-- Where a worker is: not created yet, waiting for a task, or at a call of `processMessage`. -/
inductive Point
  | unborn
  | idle
  | reading (m : Message)
  | evaluating (m : Message)
  | writing (m : Message) (transaction : Ref)
  | sending (m : Message) (body : String)
  | deleting (m : Message)
  | recovering (m : Message)
deriving DecidableEq, Repr

/-- The delivery a worker is processing. -/
def Point.message? : Point → Option Message
  | unborn => none
  | idle => none
  | reading m => some m
  | evaluating m => some m
  | writing m _ => some m
  | sending m _ => some m
  | deleting m => some m
  | recovering m => some m

/-- Where a worker goes on when `evaluate` has returned: `transaction.getId()` throws on `null`. -/
def afterEvaluate (m : Message) : Option Ref → Bool → Point
  | none, _ => .recovering m
  | some r, true => .writing m r
  | some _, false => .deleting m

/-- A call made while a delivery is processed. -/
structure Call where
  delivery : Message
  event : Event
deriving DecidableEq, Repr

/-- The workers, with the deliveries assigned to them, those whose processing has ended and the calls made
so far, oldest first. A worker may take its first step for a delivery after another one has taken steps for
a delivery assigned later. -/
structure Pool (n : Nat) where
  engine : Engine n
  point : Fin n → Point
  assigned : List Message
  finished : List Message
  calls : List Call

/-- The steps of the workers; `ok` says whether a call completes normally. A throwing `evaluate`
has run the consequences `done` and left `rest` pending. -/
inductive PoolAction (n : Nat)
  | take (w : Fin n) (m : Message)
  | readValue (w : Fin n) (ok : Bool)
  | insert (w : Fin n)
  | fireAllRules (w : Fin n) (order : List Activation)
  | evaluateThrows (w : Fin n) (done rest : List Activation)
  | writeValueAsString (w : Fin n) (ok : Bool)
  | sendMessage (w : Fin n) (ok : Bool)
  | deleteMessage (w : Fin n) (ok : Bool)

namespace Pool

variable {n : Nat}

def new (n : Nat) : Pool n := ⟨.new n, fun _ => .unborn, [], [], []⟩

def move (s : Pool n) (w : Fin n) (p : Point) : Pool n := { s with point := Function.update s.point w p }

def record (s : Pool n) (m : Message) (event : Event) : Pool n := { s with calls := s.calls ++ [⟨m, event⟩] }

def withEngine (s : Pool n) (e : Engine n) : Pool n := { s with engine := e }

/-- The task ends; an exception that leaves `processMessage` stays in its `Future`. -/
def finish (s : Pool n) (w : Fin n) (m : Message) : Pool n :=
  { s.move w .idle with finished := s.finished ++ [m] }

/-- The worker is given the task of a delivery. -/
def assign (s : Pool n) (w : Fin n) (m : Message) : Pool n :=
  { s.move w (.reading m) with assigned := s.assigned ++ [m] }

section

variable (cfg : Config)

def step (s : Pool n) : PoolAction n → Option (Pool n)
  | .take w m =>
    if s.point w = .unborn ∨ s.point w = .idle then some (s.assign w m) else none
  | .readValue w ok =>
    match s.point w with
    | .reading m =>
      match cfg.decode m ok with
      | none => some ((s.record m (.readValue false)).move w (.recovering m))
      | some t => (s.engine.step (.call w t)).map fun e =>
          ((s.record m (.readValue true)).withEngine e).move w (.evaluating m)
    | _ => none
  | .insert w =>
    match s.point w with
    | .evaluating _ => (s.engine.step (.insert w)).map s.withEngine
    | _ => none
  | .fireAllRules w order =>
    match s.point w, s.engine.phase w with
    | .evaluating m, .inserted o => (s.engine.step (.fireAllRules w order)).map fun e =>
        ((s.record m (.evaluate true)).withEngine e).move w (afterEvaluate m o (decide (order.length > 0)))
    | _, _ => none
  | .evaluateThrows w done rest =>
    match s.point w with
    | .evaluating m =>
      -- an `insert` that throws has fired nothing
      if (done ++ rest).Perm s.engine.session.agenda ∧ (done = [] ∨ (s.engine.phase w).isInserted = true) then
        some (((s.record m (.evaluate false)).withEngine (s.engine.abort w done rest)).move w (.recovering m))
      else none
    | _ => none
  | .writeValueAsString w ok =>
    match s.point w with
    | .writing m r =>
      some ((s.record m (.writeValueAsString ok)).move w
        (if ok then .sending m (cfg.mapper.writeValueAsString (s.engine.heap.obj r)) else .recovering m))
    | _ => none
  | .sendMessage w ok =>
    match s.point w with
    | .sending m body =>
      some ((s.record m (.sendMessage cfg.urls.notifyQueueUrl body ok)).move w
        (if ok then .deleting m else .recovering m))
    | _ => none
  | .deleteMessage w ok =>
    match s.point w with
    | .deleting m =>
      let s' := s.record m (.deleteMessage cfg.urls.transactionQueueUrl m.receiptHandle ok)
      some (if ok then s'.finish w m else s'.move w (.recovering m))
    | .recovering m =>
      some ((s.record m (.deleteMessage cfg.urls.transactionQueueUrl m.receiptHandle ok)).finish w m)
    | _ => none

end

section

variable {cfg : Config} {s s' : Pool n} {w : Fin n} {m : Message} {ok : Bool} {order done rest : List Activation}

theorem step_take : s.step cfg (.take w m) = some s' ↔
    (s.point w = .unborn ∨ s.point w = .idle) ∧ s' = s.assign w m := by
  simp only [step]
  split
  · rename_i h; simp only [h, true_and, Option.some.injEq]; exact eq_comm
  · rename_i h; simp [h]

theorem step_readValue : s.step cfg (.readValue w ok) = some s' ↔ ∃ m, s.point w = .reading m ∧
    ((cfg.decode m ok = none ∧
        s' = (s.record m (.readValue false)).move w (.recovering m)) ∨
      ∃ t e, cfg.decode m ok = some t ∧ s.engine.step (.call w t) = some e ∧
        s' = ((s.record m (.readValue true)).withEngine e).move w (.evaluating m)) := by
  simp only [step]
  cases s.point w <;> simp
  rename_i m
  cases cfg.decode m ok <;> simp [eq_comm]

theorem step_insert : s.step cfg (.insert w) = some s' ↔ ∃ m e, s.point w = .evaluating m ∧
    s.engine.step (.insert w) = some e ∧ s' = s.withEngine e := by
  simp only [step]
  cases s.point w <;> simp [eq_comm]

theorem step_fireAllRules : s.step cfg (.fireAllRules w order) = some s' ↔ ∃ m o e, s.point w = .evaluating m ∧
    s.engine.phase w = .inserted o ∧ s.engine.step (.fireAllRules w order) = some e ∧
    s' = ((s.record m (.evaluate true)).withEngine e).move w (afterEvaluate m o (decide (order.length > 0))) := by
  simp only [step]
  cases s.point w <;> simp
  cases s.engine.phase w <;> simp [eq_comm]

theorem step_evaluateThrows : s.step cfg (.evaluateThrows w done rest) = some s' ↔ ∃ m, s.point w = .evaluating m ∧
    (done ++ rest).Perm s.engine.session.agenda ∧ (done = [] ∨ (s.engine.phase w).isInserted = true) ∧
    s' = ((s.record m (.evaluate false)).withEngine (s.engine.abort w done rest)).move w (.recovering m) := by
  simp only [step]
  cases s.point w <;> simp [@eq_comm _ _ s', and_assoc]

theorem step_writeValueAsString : s.step cfg (.writeValueAsString w ok) = some s' ↔ ∃ m r, s.point w = .writing m r ∧
    s' = (s.record m (.writeValueAsString ok)).move w
      (if ok then .sending m (cfg.mapper.writeValueAsString (s.engine.heap.obj r)) else .recovering m) := by
  simp only [step]
  cases s.point w <;> simp [eq_comm]

theorem step_sendMessage : s.step cfg (.sendMessage w ok) = some s' ↔ ∃ m body, s.point w = .sending m body ∧
    s' = (s.record m (.sendMessage cfg.urls.notifyQueueUrl body ok)).move w
      (if ok then .deleting m else .recovering m) := by
  simp only [step]
  cases s.point w <;> simp [eq_comm]

theorem step_deleteMessage : s.step cfg (.deleteMessage w ok) = some s' ↔ ∃ m,
    (s.point w = .deleting m ∧ ok = false ∧
      s' = (s.record m (.deleteMessage cfg.urls.transactionQueueUrl m.receiptHandle ok)).move w (.recovering m)) ∨
    ((s.point w = .deleting m ∧ ok = true ∨ s.point w = .recovering m) ∧
      s' = (s.record m (.deleteMessage cfg.urls.transactionQueueUrl m.receiptHandle ok)).finish w m) := by
  simp only [step]
  cases s.point w <;> cases ok <;> simp [eq_comm]

end

/-! ## What a step can do -/

/-- A delete made for a delivery is of its own receipt on the transaction queue. -/
def OwnDelete (cfg : Config) (m : Message) (event : Event) : Prop :=
  ∀ queueUrl receiptHandle ok, event = .deleteMessage queueUrl receiptHandle ok →
    queueUrl = cfg.urls.transactionQueueUrl ∧ receiptHandle = m.receiptHandle

/-- Worker `w` goes on with the delivery `m` it is processing: it makes at most one call and either
stays with `m` or ends its processing. -/
structure Works (cfg : Config) (s s' : Pool n) (w : Fin n) (m : Message) : Prop where
  message : (s.point w).message? = some m
  assigned : s'.assigned = s.assigned
  calls : s'.calls = s.calls ∨ ∃ event, s'.calls = s.calls ++ [⟨m, event⟩] ∧ OwnDelete cfg m event
  moves : (∃ p, p.message? = some m ∧ s'.point = Function.update s.point w p ∧ s'.finished = s.finished) ∨
    (s'.point = Function.update s.point w .idle ∧ s'.finished = s.finished ++ [m])

theorem works_move {cfg : Config} {s : Pool n} {w : Fin n} {m : Message} {event : Event} {p : Point} {e : Engine n}
    (hw : (s.point w).message? = some m) (hp : p.message? = some m) (he : OwnDelete cfg m event) :
    Works cfg s (((s.record m event).withEngine e).move w p) w m :=
  ⟨hw, rfl, .inr ⟨event, rfl, he⟩, .inl ⟨p, hp, rfl, rfl⟩⟩

theorem afterEvaluate_message (m : Message) (o : Option Ref) (isFraud : Bool) :
    (afterEvaluate m o isFraud).message? = some m := by
  cases o with
  | none => rfl
  | some r => cases isFraud <;> rfl

/-- A step gives a worker the task of a delivery, or goes on with one. -/
theorem step_cases {cfg : Config} {s s' : Pool n} {a : PoolAction n} (h : s.step cfg a = some s') :
    (∃ w m, a = .take w m ∧ (s.point w = .unborn ∨ s.point w = .idle) ∧ s' = s.assign w m) ∨
      ∃ w m, Works cfg s s' w m := by
  have hno : ∀ {m : Message} {event : Event}, event.isDelete = false → OwnDelete cfg m event := by
    rintro m event hd url handle ok rfl
    cases hd
  cases a with
  | take w m =>
    obtain ⟨hw, rfl⟩ := step_take.1 h
    exact .inl ⟨w, m, rfl, hw, rfl⟩
  | readValue w ok =>
    obtain ⟨m, hp, ⟨-, rfl⟩ | ⟨t, e, -, -, rfl⟩⟩ := step_readValue.1 h
    · exact .inr ⟨w, m, works_move (e := s.engine) (by rw [hp]; rfl) rfl (hno rfl)⟩
    · exact .inr ⟨w, m, works_move (by rw [hp]; rfl) rfl (hno rfl)⟩
  | insert w =>
    obtain ⟨m, e, hp, -, rfl⟩ := step_insert.1 h
    exact .inr ⟨w, m, by rw [hp]; rfl, rfl, .inl rfl,
      .inl ⟨s.point w, by rw [hp]; rfl, (Function.update_eq_self ..).symm, rfl⟩⟩
  | fireAllRules w order =>
    obtain ⟨m, o, e, hp, -, -, rfl⟩ := step_fireAllRules.1 h
    exact .inr ⟨w, m, works_move (by rw [hp]; rfl) (afterEvaluate_message ..) (hno rfl)⟩
  | evaluateThrows w done rest =>
    obtain ⟨m, hp, -, -, rfl⟩ := step_evaluateThrows.1 h
    exact .inr ⟨w, m, works_move (by rw [hp]; rfl) rfl (hno rfl)⟩
  | writeValueAsString w ok =>
    obtain ⟨m, r, hp, rfl⟩ := step_writeValueAsString.1 h
    refine .inr ⟨w, m, works_move (e := s.engine) (by rw [hp]; rfl) ?_ (hno rfl)⟩
    cases ok <;> rfl
  | sendMessage w ok =>
    obtain ⟨m, body, hp, rfl⟩ := step_sendMessage.1 h
    refine .inr ⟨w, m, works_move (e := s.engine) (by rw [hp]; rfl) ?_ (hno rfl)⟩
    cases ok <;> rfl
  | deleteMessage w ok =>
    have hown : ∀ m, OwnDelete cfg m (.deleteMessage cfg.urls.transactionQueueUrl m.receiptHandle ok) := by
      intro m url handle ok' he
      cases he; exact ⟨rfl, rfl⟩
    obtain ⟨m, ⟨hp, -, rfl⟩ | ⟨hp, rfl⟩⟩ := step_deleteMessage.1 h
    · exact .inr ⟨w, m, works_move (e := s.engine) (by rw [hp]; rfl) rfl (hown m)⟩
    · have hm : (s.point w).message? = some m := by
        rcases hp with ⟨hp, -⟩ | hp <;> rw [hp] <;> rfl
      exact .inr ⟨w, m, hm, rfl, .inr ⟨_, rfl, hown m⟩, .inr ⟨rfl, rfl⟩⟩

/-! ## The rule engine's share of a run -/

/-- The steps of the rule engine a worker's step stands for. -/
def engineLabels (cfg : Config) (s : Pool n) : PoolAction n → List (EngineAction n)
  | .readValue w ok =>
    match s.point w with
    | .reading m => (cfg.decode m ok).elim [] fun t => [.call w t]
    | _ => []
  | .insert w => [.insert w]
  | .fireAllRules w order => [.fireAllRules w order]
  | _ => []

/-- The rule engine does not throw. -/
def EngineSafe : PoolAction n → Prop
  | .evaluateThrows .. => False
  | _ => True

/-- The workers run the concurrent calls of `evaluate` that `Engine` describes. -/
def engineSimulation (cfg : Config) : Lts.Simulation (step (n := n) cfg) (Engine.step (n := n)) where
  abs := Pool.engine
  labels := engineLabels cfg
  admits _ a := EngineSafe a
  step_run := by
    intro s a s' hsafe h
    cases a with
    | take w m => obtain ⟨-, rfl⟩ := step_take.1 h; rfl
    | readValue w ok =>
      obtain ⟨m, hp, ⟨hd, rfl⟩ | ⟨t, e, hd, he, rfl⟩⟩ := step_readValue.1 h
      · simp only [engineLabels, hp, hd]; rfl
      · simp only [engineLabels, hp, hd]; exact Lts.run_single.2 he
    | insert w =>
      obtain ⟨m, e, -, he, rfl⟩ := step_insert.1 h
      exact Lts.run_single.2 he
    | fireAllRules w order =>
      obtain ⟨m, o, e, -, -, he, rfl⟩ := step_fireAllRules.1 h
      exact Lts.run_single.2 he
    | evaluateThrows w done rest => exact hsafe.elim
    | writeValueAsString w ok => obtain ⟨m, r, -, rfl⟩ := step_writeValueAsString.1 h; rfl
    | sendMessage w ok => obtain ⟨m, body, -, rfl⟩ := step_sendMessage.1 h; rfl
    | deleteMessage w ok => obtain ⟨m, ⟨-, -, rfl⟩ | ⟨-, rfl⟩⟩ := step_deleteMessage.1 h <;> rfl

end Pool

end FraudDetect.Service
