/-
`FraudDetectionServiceImpl` as a whole: the pollers started by `startProcessingThread`, the fixed
thread pool with its queue, and the caller of the lifecycle methods, whose `stopRuning` is several
steps. All of them are interleaved in any way. The lifecycle calls are made one after another.
-/
import FraudDetect.Lib.Slots
import FraudDetect.Service.Pool

namespace FraudDetect.Service

/-! ## States -/

/-- Where a polling thread is. -/
inductive Poller
  | testing                            -- about to read `isRunning`
  | polling                            -- in `detectFraudAndNotify`, about to call `receiveMessage`
  | receiving                          -- in `receiveMessage`
  | submitting (rest : List Message)   -- in the `for` loop, with `rest` still to be submitted
  | sleeping
  | exited                             -- `isRunning` was false
  | died                               -- by an unchecked exception
deriving DecidableEq, Repr

namespace Poller

def alive : Poller → Bool
  | exited => false
  | died => false
  | _ => true

/-- The deliveries a poller has received and not handed over. -/
def held : Poller → List Message
  | submitting rest => rest
  | _ => []

/-- The poller is between two polls, or has ended. -/
def outsidePoll : Poller → Bool
  | polling => false
  | receiving => false
  | submitting _ => false
  | _ => true

end Poller

/-- Where the caller of the lifecycle methods is. -/
inductive Control
  | ready
  | flagged                            -- in `stopRuning`, `isRunning` cleared
  | awaiting                           -- in `awaitTermination`, after `shutdown`
  | expired                            -- `awaitTermination` returned false
  | interrupted                        -- `awaitTermination` threw `InterruptedException`
  | returned (terminated : Bool)       -- `stopRuning` returned; whether after termination
deriving DecidableEq, Repr

/-- No lifecycle call is in progress. -/
def Control.free : Control → Bool
  | ready => true
  | returned _ => true
  | _ => false

/-- How `awaitTermination` ends. -/
inductive Await
  | terminated
  | timedOut
  | interrupted
deriving DecidableEq, Repr

/-- The service. `received`, `accepted`, `refused` and `discarded` record the deliveries returned by
`receiveMessage`, those a `submit` accepted, those a rejected `submit` lost with the rest of its
batch, and those `shutdownNow` took from the queue. -/
structure FraudDetectionService (n : Nat) where
  isRunning : Bool
  pollers : List Poller
  control : Control
  shutdown : Bool
  queue : List Message
  pool : Pool n
  received : List Message
  accepted : List Message
  refused : List Message
  discarded : List Message

/-- The steps: of the lifecycle caller, of poller `p`, and of the pool. -/
inductive Action (n : Nat)
  | startProcessingThread (ok : Bool)
  | setRunning (running : Bool)
  | stopRuning
  | shutdown
  | awaitTermination (result : Await)
  | shutdownNow
  | testRunning (p : Nat)
  | receiveMessage (p : Nat)
  | receiveReturns (p : Nat) (batch : List Message)
  | receiveThrows (p : Nat)
  | submit (p : Nat)
  | sleep (p : Nat) (interrupted : Bool)
  | takeTask (w : Fin n)
  | work (a : PoolAction n)

/-- The first worker the pool has not created yet. -/
def Pool.unborn? {n : Nat} (s : Pool n) : Option (Fin n) := (List.finRange n).find? fun w => s.point w = .unborn

/-- A step of the lifecycle caller. -/
def Action.lifecycle {n : Nat} : Action n → Bool
  | startProcessingThread _ => true
  | setRunning _ => true
  | stopRuning => true
  | shutdown => true
  | awaitTermination _ => true
  | shutdownNow => true
  | _ => false

/-- The deliveries the workers are processing. -/
def Pool.processing {n : Nat} (s : Pool n) : List Message := Slots.contents fun w => (s.point w).message?

namespace FraudDetectionService

variable {n : Nat}

/-- A freshly constructed service. -/
def new (n : Nat) (isRunning : Bool) : FraudDetectionService n :=
  ⟨isRunning, [], .ready, false, [], .new n, [], [], [], []⟩

def setPoller (s : FraudDetectionService n) (p : Nat) (x : Poller) : FraudDetectionService n :=
  { s with pollers := s.pollers.set p x }

def setControl (s : FraudDetectionService n) (c : Control) : FraudDetectionService n := { s with control := c }

/-- The deliveries the pollers hold. -/
def held (s : FraudDetectionService n) : List Message := s.pollers.flatMap Poller.held

/-- `executorService.submit` on a running executor: the pool creates a worker for the task as long
as it has fewer than `n`, else the task is queued. -/
def accept (s : FraudDetectionService n) (m : Message) : FraudDetectionService n :=
  match s.pool.unborn? with
  | some w => { s with pool := s.pool.assign w m, accepted := s.accepted ++ [m] }
  | none => { s with queue := s.queue ++ [m], accepted := s.accepted ++ [m] }

/-- The executor is shut down, its queue empty and no task running. -/
def terminated (s : FraudDetectionService n) : Bool := s.shutdown && s.queue.isEmpty && s.pool.processing.isEmpty

/-! ## Steps -/

def step (cfg : Config) (s : FraudDetectionService n) : Action n → Option (FraudDetectionService n)
  | .startProcessingThread ok =>
    -- `ok`: the two `getQueueUrl` calls complete normally
    if s.control.free then
      some { s with control := .ready, pollers := s.pollers ++ if s.isRunning && ok then [.testing] else [] }
    else none
  | .setRunning running => if s.control.free then some { s with control := .ready, isRunning := running } else none
  | .stopRuning => if s.control.free then some { s with control := .flagged, isRunning := false } else none
  | .shutdown => if s.control = .flagged then some { s with control := .awaiting, shutdown := true } else none
  | .awaitTermination .terminated =>
    if s.control = .awaiting ∧ s.terminated = true then some (s.setControl (.returned true)) else none
  | .awaitTermination .timedOut => if s.control = .awaiting then some (s.setControl .expired) else none
  | .awaitTermination .interrupted => if s.control = .awaiting then some (s.setControl .interrupted) else none
  | .shutdownNow =>
    if s.control = .expired ∨ s.control = .interrupted then
      some { s with control := .returned false, shutdown := true, queue := [], discarded := s.discarded ++ s.queue }
    else none
  | .testRunning p =>
    if s.pollers[p]? = some .testing then some (s.setPoller p (if s.isRunning then .polling else .exited)) else none
  | .receiveMessage p => if s.pollers[p]? = some .polling then some (s.setPoller p .receiving) else none
  | .receiveReturns p batch =>
    if s.pollers[p]? = some .receiving then
      some { s.setPoller p (.submitting batch) with received := s.received ++ batch }
    else none
  | .receiveThrows p => if s.pollers[p]? = some .receiving then some (s.setPoller p .died) else none
  | .submit p =>
    match s.pollers[p]? with
    | some (.submitting []) => some (s.setPoller p .sleeping)
    | some (.submitting (m :: rest)) =>
      if s.shutdown then some { s.setPoller p .died with refused := s.refused ++ m :: rest }
      else some ((s.setPoller p (.submitting rest)).accept m)
    | _ => none
  | .sleep p _ =>
    -- an `InterruptedException` is caught inside the loop
    if s.pollers[p]? = some .sleeping then some (s.setPoller p .testing) else none
  | .takeTask w =>
    match s.queue with
    | [] => none
    | m :: queue =>
      if s.pool.point w = .idle then some { s with queue := queue, pool := s.pool.assign w m } else none
  | .work (.take ..) => none
  | .work a => (s.pool.step cfg a).map fun pool => { s with pool := pool }

theorem ite_some_eq_some {α : Type} {c : Prop} [Decidable c] {a b : α} :
    (if c then some a else none) = some b ↔ c ∧ b = a := by
  rw [Option.ite_none_right_eq_some, Option.some.injEq]
  exact and_congr_right fun _ => eq_comm

section

variable {cfg : Config} {s s' : FraudDetectionService n} {p : Nat} {m : Message} {batch : List Message}

theorem step_startProcessingThread {ok : Bool} : s.step cfg (.startProcessingThread ok) = some s' ↔
    s.control.free = true ∧
      s' = { s with control := .ready, pollers := s.pollers ++ if s.isRunning && ok then [.testing] else [] } :=
  ite_some_eq_some

theorem step_setRunning {running : Bool} : s.step cfg (.setRunning running) = some s' ↔
    s.control.free = true ∧ s' = { s with control := .ready, isRunning := running } :=
  ite_some_eq_some

theorem step_stopRuning : s.step cfg .stopRuning = some s' ↔
    s.control.free = true ∧ s' = { s with control := .flagged, isRunning := false } :=
  ite_some_eq_some

theorem step_shutdown : s.step cfg .shutdown = some s' ↔
    s.control = .flagged ∧ s' = { s with control := .awaiting, shutdown := true } :=
  ite_some_eq_some

theorem step_awaitTermination {result : Await} : s.step cfg (.awaitTermination result) = some s' ↔
    s.control = .awaiting ∧ (result = .terminated → s.terminated = true) ∧
      s' = s.setControl (match result with
        | .terminated => .returned true
        | .timedOut => .expired
        | .interrupted => .interrupted) := by
  cases result <;> simp only [step, ite_some_eq_some, and_assoc] <;> simp

theorem step_shutdownNow : s.step cfg .shutdownNow = some s' ↔
    (s.control = .expired ∨ s.control = .interrupted) ∧
      s' = { s with control := .returned false, shutdown := true, queue := [], discarded := s.discarded ++ s.queue } :=
  ite_some_eq_some

theorem step_testRunning : s.step cfg (.testRunning p) = some s' ↔
    s.pollers[p]? = some .testing ∧ s' = s.setPoller p (if s.isRunning then .polling else .exited) :=
  ite_some_eq_some

theorem step_receiveMessage : s.step cfg (.receiveMessage p) = some s' ↔
    s.pollers[p]? = some .polling ∧ s' = s.setPoller p .receiving :=
  ite_some_eq_some

theorem step_receiveReturns : s.step cfg (.receiveReturns p batch) = some s' ↔
    s.pollers[p]? = some .receiving ∧
      s' = { s.setPoller p (.submitting batch) with received := s.received ++ batch } :=
  ite_some_eq_some

theorem step_receiveThrows : s.step cfg (.receiveThrows p) = some s' ↔
    s.pollers[p]? = some .receiving ∧ s' = s.setPoller p .died :=
  ite_some_eq_some

/-- A `submit` step ends the `for` loop, is rejected, or hands the first message over. -/
theorem step_submit : s.step cfg (.submit p) = some s' ↔
    (s.pollers[p]? = some (.submitting []) ∧ s' = s.setPoller p .sleeping) ∨
      ∃ m rest, s.pollers[p]? = some (.submitting (m :: rest)) ∧
        ((s.shutdown = true ∧ s' = { s.setPoller p .died with refused := s.refused ++ m :: rest }) ∨
          (s.shutdown = false ∧ s' = (s.setPoller p (.submitting rest)).accept m)) := by
  simp only [step]
  rcases s.pollers[p]? with _ | x
  · simp
  cases x with
  | submitting rest =>
    cases rest with
    | nil => simp [@eq_comm _ _ s']
    | cons m rest => cases s.shutdown <;> simp [@eq_comm _ _ s']
  | _ => simp

theorem step_sleep {interrupted : Bool} : s.step cfg (.sleep p interrupted) = some s' ↔
    s.pollers[p]? = some .sleeping ∧ s' = s.setPoller p .testing :=
  ite_some_eq_some

theorem step_takeTask {w : Fin n} : s.step cfg (.takeTask w) = some s' ↔
    ∃ m queue, s.queue = m :: queue ∧ s.pool.point w = .idle ∧
      s' = { s with queue := queue, pool := s.pool.assign w m } := by
  simp only [step]
  rcases s.queue with _ | ⟨m, queue⟩
  · simp
  · simp only [ite_some_eq_some]
    constructor
    · rintro ⟨hw, rfl⟩; exact ⟨m, queue, rfl, hw, rfl⟩
    · rintro ⟨m', queue', hq, hw, rfl⟩; cases hq; exact ⟨hw, rfl⟩

theorem step_work {a : PoolAction n} : s.step cfg (.work a) = some s' ↔
    (∀ w m, a ≠ .take w m) ∧ ∃ pool, s.pool.step cfg a = some pool ∧ s' = { s with pool := pool } := by
  cases a <;> simp [step, @eq_comm _ _ s']

/-- An accepted task goes to a worker made for it, or to the queue when the pool has all its workers. -/
theorem accept_cases (s : FraudDetectionService n) (m : Message) :
    (∃ w, s.pool.point w = .unborn ∧
        s.accept m = { s with pool := s.pool.assign w m, accepted := s.accepted ++ [m] }) ∨
      ((∀ w, s.pool.point w ≠ .unborn) ∧
        s.accept m = { s with queue := s.queue ++ [m], accepted := s.accepted ++ [m] }) := by
  unfold accept
  split
  · rename_i w hw
    have hu := List.find?_some hw
    exact .inl ⟨w, by simpa using hu, rfl⟩
  · rename_i hw
    refine .inr ⟨fun w => ?_, rfl⟩
    have hu := List.find?_eq_none.1 hw w (List.mem_finRange w)
    simpa using hu

/-- Pollers and workers do not touch what the lifecycle caller works with. -/
theorem step_frame {a : Action n} (ha : a.lifecycle = false) (h : s.step cfg a = some s') :
    s'.isRunning = s.isRunning ∧ s'.control = s.control ∧ s'.shutdown = s.shutdown ∧
      s'.discarded = s.discarded := by
  cases a with
  | testRunning p => obtain ⟨-, rfl⟩ := step_testRunning.1 h; exact ⟨rfl, rfl, rfl, rfl⟩
  | receiveMessage p => obtain ⟨-, rfl⟩ := step_receiveMessage.1 h; exact ⟨rfl, rfl, rfl, rfl⟩
  | receiveReturns p batch => obtain ⟨-, rfl⟩ := step_receiveReturns.1 h; exact ⟨rfl, rfl, rfl, rfl⟩
  | receiveThrows p => obtain ⟨-, rfl⟩ := step_receiveThrows.1 h; exact ⟨rfl, rfl, rfl, rfl⟩
  | submit p =>
    rcases step_submit.1 h with ⟨-, rfl⟩ | ⟨m, rest, -, ⟨-, rfl⟩ | ⟨-, rfl⟩⟩
    · exact ⟨rfl, rfl, rfl, rfl⟩
    · exact ⟨rfl, rfl, rfl, rfl⟩
    · rcases accept_cases (s.setPoller p (.submitting rest)) m with ⟨w, -, hacc⟩ | ⟨-, hacc⟩ <;> rw [hacc] <;>
        exact ⟨rfl, rfl, rfl, rfl⟩
  | sleep p interrupted => obtain ⟨-, rfl⟩ := step_sleep.1 h; exact ⟨rfl, rfl, rfl, rfl⟩
  | takeTask w => obtain ⟨m, queue, -, -, rfl⟩ := step_takeTask.1 h; exact ⟨rfl, rfl, rfl, rfl⟩
  | work a => obtain ⟨-, pool, -, rfl⟩ := step_work.1 h; exact ⟨rfl, rfl, rfl, rfl⟩
  | _ => cases ha

/-- What a step does to the executor and its logs. -/
inductive ExecutorStep (cfg : Config) (s s' : FraudDetectionService n) : Prop
  | none (hqueue : s'.queue = s.queue) (hpool : s'.pool = s.pool) (haccepted : s'.accepted = s.accepted)
      (hdiscarded : s'.discarded = s.discarded) (hshutdown : s.shutdown = true → s'.shutdown = true)
  | assign (w : Fin n) (m : Message) (hw : s.pool.point w = .unborn) (hrun : s.shutdown = false)
      (hqueue : s'.queue = s.queue) (hpool : s'.pool = s.pool.assign w m) (haccepted : s'.accepted = s.accepted ++ [m])
      (hdiscarded : s'.discarded = s.discarded)
  | enqueue (m : Message) (hborn : ∀ w, s.pool.point w ≠ .unborn) (hrun : s.shutdown = false)
      (hqueue : s'.queue = s.queue ++ [m]) (hpool : s'.pool = s.pool) (haccepted : s'.accepted = s.accepted ++ [m])
      (hdiscarded : s'.discarded = s.discarded)
  | take (w : Fin n) (m : Message) (hw : s.pool.point w = .idle) (hqueue : s.queue = m :: s'.queue)
      (hpool : s'.pool = s.pool.assign w m) (haccepted : s'.accepted = s.accepted)
      (hdiscarded : s'.discarded = s.discarded)
  | work (w : Fin n) (m : Message) (hw : Pool.Works cfg s.pool s'.pool w m) (hqueue : s'.queue = s.queue)
      (haccepted : s'.accepted = s.accepted) (hdiscarded : s'.discarded = s.discarded)
      (hshutdown : s'.shutdown = s.shutdown)
  | discard (hqueue : s'.queue = []) (hpool : s'.pool = s.pool) (haccepted : s'.accepted = s.accepted)
      (hdiscarded : s'.discarded = s.discarded ++ s.queue) (hshutdown : s'.shutdown = true)

theorem executor_step {a : Action n} (h : s.step cfg a = some s') : ExecutorStep cfg s s' := by
  cases a with
  | startProcessingThread ok => obtain ⟨-, rfl⟩ := step_startProcessingThread.1 h; exact .none rfl rfl rfl rfl id
  | setRunning running => obtain ⟨-, rfl⟩ := step_setRunning.1 h; exact .none rfl rfl rfl rfl id
  | stopRuning => obtain ⟨-, rfl⟩ := step_stopRuning.1 h; exact .none rfl rfl rfl rfl id
  | shutdown => obtain ⟨-, rfl⟩ := step_shutdown.1 h; exact .none rfl rfl rfl rfl fun _ => rfl
  | awaitTermination result => obtain ⟨-, -, rfl⟩ := step_awaitTermination.1 h; exact .none rfl rfl rfl rfl id
  | shutdownNow => obtain ⟨-, rfl⟩ := step_shutdownNow.1 h; exact .discard rfl rfl rfl rfl rfl
  | testRunning p => obtain ⟨-, rfl⟩ := step_testRunning.1 h; exact .none rfl rfl rfl rfl id
  | receiveMessage p => obtain ⟨-, rfl⟩ := step_receiveMessage.1 h; exact .none rfl rfl rfl rfl id
  | receiveReturns p batch => obtain ⟨-, rfl⟩ := step_receiveReturns.1 h; exact .none rfl rfl rfl rfl id
  | receiveThrows p => obtain ⟨-, rfl⟩ := step_receiveThrows.1 h; exact .none rfl rfl rfl rfl id
  | submit p =>
    rcases step_submit.1 h with ⟨-, rfl⟩ | ⟨m, rest, -, ⟨-, rfl⟩ | ⟨hsd, rfl⟩⟩
    · exact .none rfl rfl rfl rfl id
    · exact .none rfl rfl rfl rfl id
    · rcases accept_cases (s.setPoller p (.submitting rest)) m with ⟨w, hw, ha⟩ | ⟨hw, ha⟩
      · rw [ha]; exact .assign w m hw hsd rfl rfl rfl rfl
      · rw [ha]; exact .enqueue m hw hsd rfl rfl rfl rfl
  | sleep p interrupted => obtain ⟨-, rfl⟩ := step_sleep.1 h; exact .none rfl rfl rfl rfl id
  | takeTask w =>
    obtain ⟨m, queue, hq, hw, rfl⟩ := step_takeTask.1 h
    exact .take w m hw hq rfl rfl rfl
  | work a =>
    obtain ⟨ha, pool, hp, rfl⟩ := step_work.1 h
    rcases Pool.step_cases hp with ⟨w, m, rfl, -⟩ | ⟨w, m, hw⟩
    · exact absurd rfl (ha w m)
    · exact .work w m hw rfl rfl rfl rfl

/-- A call that has been made stays recorded. -/
theorem calls_grow {a : Action n} (h : s.step cfg a = some s') : s.pool.calls <+: s'.pool.calls := by
  cases executor_step h with
  | none hqueue hpool => rw [hpool]
  | assign w m hw hrun hqueue hpool => rw [hpool]; exact List.prefix_rfl
  | enqueue m hborn hrun hqueue hpool => rw [hpool]
  | take w m hw hqueue hpool => rw [hpool]; exact List.prefix_rfl
  | work w m hw =>
    rcases hw.calls with hc | ⟨event, hc, -⟩
    · rw [hc]
    · rw [hc]; exact List.prefix_append ..
  | discard hqueue hpool => rw [hpool]

end

end FraudDetectionService

end FraudDetect.Service
