/-
Nothing gets stuck. However its calls end, a worker has a bounded number of steps left for the delivery it is processing
and can take the next one; so workers left to themselves run the executor empty under every schedule, and a waiting
`stopRuning` can always see it terminate. A live poller of a running service can always get to its next `receiveMessage`.
-/
import FraudDetect.Service.Layers
import FraudDetect.Service.Pollers
import FraudDetect.Service.Shutdown

namespace FraudDetect.Service

open FraudDetect.Drools

/-! ## One worker -/

/-- The worker that takes the step. -/
def PoolAction.worker {n : Nat} : PoolAction n → Fin n
  | .take w _ => w
  | .readValue w _ => w
  | .insert w => w
  | .fireAllRules w _ => w
  | .evaluateThrows w _ _ => w
  | .writeValueAsString w _ => w
  | .sendMessage w _ => w
  | .deleteMessage w _ => w

/-- How many steps a worker in the given phase has left at most. -/
def Point.left (phase : Phase) : Point → Nat
  | .unborn => 0
  | .idle => 0
  | .reading _ => 7
  | .evaluating _ => if phase.isInserted then 5 else 6
  | .writing .. => 4
  | .sending .. => 3
  | .deleting _ => 2
  | .recovering _ => 1

theorem Point.left_le (phase : Phase) (p : Point) : p.left phase ≤ 7 := by
  cases p with
  | evaluating m => simp only [left]; split <;> omega
  | _ => simp [left]

namespace Pool

variable {n : Nat} {cfg : Config} {s s' : Pool n} {w : Fin n} {m : Message}

def left (s : Pool n) (w : Fin n) : Nat := (s.point w).left (s.engine.phase w)

theorem left_at {p : Point} (hp : s.point w = p) : s.left w = p.left (s.engine.phase w) := by
  unfold left
  rw [hp]

theorem afterEvaluate_left (phase : Phase) (m : Message) (o : Option Ref) (isFraud : Bool) :
    (afterEvaluate m o isFraud).left phase ≤ 4 := by
  cases o with
  | none => show 1 ≤ 4; omega
  | some r =>
    cases isFraud
    · show 2 ≤ 4; omega
    · show 4 ≤ 4; omega

/-- Worker `w` goes to `p`, with fewer steps left there, and the others stay where they are. -/
theorem left_update {p : Point} (hpoint : s'.point = Function.update s.point w p)
    (hphase : ∀ v, v ≠ w → s'.engine.phase v = s.engine.phase v) (hless : p.left (s'.engine.phase w) < s.left w) :
    s'.left w < s.left w ∧ ∀ v, v ≠ w → s'.left v = s.left v := by
  refine ⟨?_, fun v hv => ?_⟩
  · rw [left_at (show s'.point w = p by rw [hpoint, Function.update_self])]
    exact hless
  · unfold left
    rw [hpoint, Function.update_of_ne hv, hphase v hv]

/-- Every step of a worker with its delivery, however the call ends, is one of those it had left. -/
theorem work_left {a : PoolAction n} (ha : ∀ w m, a ≠ .take w m) (h : s.step cfg a = some s') :
    s'.left a.worker < s.left a.worker ∧ ∀ v, v ≠ a.worker → s'.left v = s.left v := by
  cases a with
  | take w m => exact absurd rfl (ha w m)
  | readValue w ok =>
    obtain ⟨m, hp, ⟨-, rfl⟩ | ⟨t, e, -, he, rfl⟩⟩ := step_readValue.1 h
    · refine left_update (w := w) rfl (fun _ _ => rfl) ?_
      rw [left_at hp]; show 1 < 7; omega
    · obtain ⟨-, rfl⟩ := Engine.step_call.1 he
      refine left_update (w := w) rfl (fun v hv => Engine.call_phase_of_ne _ t hv) ?_
      show Point.left ((s.engine.call w t).phase w) _ < _
      rw [left_at hp, Engine.call_phase_self]; show 6 < 7; omega
  | insert w =>
    obtain ⟨m, e, hp, he, rfl⟩ := step_insert.1 h
    obtain ⟨o, ho, rfl⟩ := Engine.step_insert.1 he
    refine left_update (w := w) (p := s.point w) (Function.update_eq_self ..).symm
      (fun v hv => Engine.insert_phase_of_ne _ o hv) ?_
    show Point.left ((s.engine.insert w o).phase w) _ < _
    rw [left_at hp, hp, ho, Engine.insert_phase_self]; show 5 < 6; omega
  | fireAllRules w order =>
    obtain ⟨m, o, e, hp, ho, he, rfl⟩ := step_fireAllRules.1 h
    obtain ⟨o', -, -, rfl⟩ := Engine.step_fireAllRules.1 he
    refine left_update (w := w) rfl (fun v hv => Engine.fireAllRules_phase_of_ne _ o' order hv) ?_
    have hafter := afterEvaluate_left ((s.engine.fireAllRules w o' order).phase w) m o (decide (order.length > 0))
    rw [left_at hp, ho]
    show _ < 5
    exact Nat.lt_of_le_of_lt hafter (by omega)
  | evaluateThrows w done rest =>
    obtain ⟨m, hp, -, -, rfl⟩ := step_evaluateThrows.1 h
    refine left_update (w := w) rfl (fun v hv => Function.update_of_ne hv ..) ?_
    rw [left_at hp]
    show 1 < if (s.engine.phase w).isInserted then 5 else 6
    split <;> omega
  | writeValueAsString w ok =>
    obtain ⟨m, r, hp, rfl⟩ := step_writeValueAsString.1 h
    refine left_update (w := w) rfl (fun _ _ => rfl) ?_
    rw [left_at hp]
    cases ok
    · show 1 < 4; omega
    · show 3 < 4; omega
  | sendMessage w ok =>
    obtain ⟨m, body, hp, rfl⟩ := step_sendMessage.1 h
    refine left_update (w := w) rfl (fun _ _ => rfl) ?_
    rw [left_at hp]
    cases ok
    · show 1 < 3; omega
    · show 2 < 3; omega
  | deleteMessage w ok =>
    obtain ⟨m, ⟨hp, -, rfl⟩ | ⟨hp, rfl⟩⟩ := step_deleteMessage.1 h
    · refine left_update (w := w) rfl (fun _ _ => rfl) ?_
      rw [left_at hp]; show 1 < 2; omega
    · refine left_update (w := w) (p := .idle) rfl (fun _ _ => rfl) ?_
      rcases hp with ⟨hp, -⟩ | hp <;> rw [left_at hp]
      · show 0 < 2; omega
      · show 0 < 1; omega

/-- The next step of worker `w`, if the call it makes is to end as `ok` says. -/
def next (s : Pool n) (w : Fin n) (ok : Bool) : PoolAction n :=
  match s.point w with
  | .reading _ => .readValue w ok
  | .evaluating _ => if (s.engine.phase w).isInserted then .fireAllRules w s.engine.session.agenda else .insert w
  | .writing .. => .writeValueAsString w ok
  | .sending .. => .sendMessage w ok
  | _ => .deleteMessage w ok

/-- A step of a worker that goes on with its delivery, the rule engine not throwing. -/
def GoesOn (a : PoolAction n) : Prop := EngineSafe a ∧ ∀ v m, a ≠ .take v m

theorem next_goesOn (s : Pool n) (w : Fin n) (ok : Bool) : GoesOn (s.next w ok) := by
  unfold next
  split
  case h_2 => split <;> exact ⟨trivial, nofun⟩
  all_goals exact ⟨trivial, nofun⟩

theorem next_worker (s : Pool n) (w : Fin n) (ok : Bool) : (s.next w ok).worker = w := by
  unfold next
  split
  case h_2 => split <;> rfl
  all_goals rfl

/-- The delete of a delivery. -/
def deleteCall (cfg : Config) (m : Message) (ok : Bool) : Call :=
  ⟨m, .deleteMessage cfg.urls.transactionQueueUrl m.receiptHandle ok⟩

/-- Worker `w` still has `m`, or has finished it with a delete that ended as `ok` says. -/
structure Goes (cfg : Config) (ok : Bool) (s s' : Pool n) (w : Fin n) (m : Message) : Prop where
  point : ∃ p, s'.point = Function.update s.point w p
  moves : ((s'.point w).message? = some m ∧ s'.finished = s.finished) ∨
    (s'.point w = .idle ∧ s'.finished = s.finished ++ [m] ∧ s'.calls = s.calls ++ [deleteCall cfg m ok])

theorem goes_call {ok : Bool} {event : Event} {p : Point} {e : Engine n} (hp : p.message? = some m) :
    Goes cfg ok s (((s.record m event).withEngine e).move w p) w m := by
  have hpt : (((s.record m event).withEngine e).move w p).point w = p := Function.update_self ..
  exact ⟨⟨p, rfl⟩, .inl ⟨by rw [hpt]; exact hp, rfl⟩⟩

theorem goes_finish {ok : Bool} : Goes cfg ok s ((s.record m (deleteCall cfg m ok).event).finish w m) w m :=
  ⟨⟨.idle, rfl⟩, .inr ⟨Function.update_self .., rfl, rfl⟩⟩

/-- Whatever the outcome of its next call, a worker with a delivery can make it. -/
theorem next_step (cfg : Config) (hI : s.PhasesFit) (hw : (s.point w).message? = some m) (ok : Bool) :
    ∃ s', s.step cfg (s.next w ok) = some s' ∧ Goes cfg ok s s' w m := by
  unfold next
  cases hp : s.point w with
  | unborn => rw [hp] at hw; cases hw
  | idle => rw [hp] at hw; cases hw
  | reading m' =>
    rw [hp] at hw; cases hw
    cases hd : cfg.decode m ok with
    | none => exact ⟨_, step_readValue.2 ⟨m, hp, .inl ⟨hd, rfl⟩⟩, goes_call (e := s.engine) rfl⟩
    | some t =>
      have hidle : s.engine.phase w = .idle := hI.idle fun m' hm => by rw [hp] at hm; cases hm
      exact ⟨_, step_readValue.2 ⟨m, hp, .inr ⟨t, _, hd, Engine.step_call.2 ⟨hidle, rfl⟩, rfl⟩⟩, goes_call rfl⟩
  | evaluating m' =>
    rw [hp] at hw; cases hw
    -- inside `evaluate`, the engine says which of its two steps comes next
    cases hph : s.engine.phase w with
    | idle => exact absurd hph ((hI w).2 ⟨m, hp⟩)
    | called o =>
      refine ⟨_, step_insert.2 ⟨m, _, hp, Engine.step_insert.2 ⟨o, hph, rfl⟩, rfl⟩,
        ⟨s.point w, (Function.update_eq_self ..).symm⟩, .inl ⟨?_, rfl⟩⟩
      show (s.point w).message? = some m
      rw [hp]; rfl
    | inserted o =>
      exact ⟨_, step_fireAllRules.2 ⟨m, o, _, hp, hph, Engine.step_fireAllRules.2 ⟨o, hph, .refl _, rfl⟩, rfl⟩,
        goes_call (afterEvaluate_message ..)⟩
  | writing m' r =>
    rw [hp] at hw; cases hw
    exact ⟨_, step_writeValueAsString.2 ⟨m, r, hp, rfl⟩, goes_call (e := s.engine) (by cases ok <;> rfl)⟩
  | sending m' body =>
    rw [hp] at hw; cases hw
    exact ⟨_, step_sendMessage.2 ⟨m, body, hp, rfl⟩, goes_call (e := s.engine) (by cases ok <;> rfl)⟩
  | deleting m' =>
    rw [hp] at hw; cases hw
    cases ok with
    | true => exact ⟨_, step_deleteMessage.2 ⟨m, .inr ⟨.inl ⟨hp, rfl⟩, rfl⟩⟩, goes_finish⟩
    | false => exact ⟨_, step_deleteMessage.2 ⟨m, .inl ⟨hp, rfl, rfl⟩⟩, goes_call (e := s.engine) rfl⟩
  | recovering m' =>
    rw [hp] at hw; cases hw
    exact ⟨_, step_deleteMessage.2 ⟨m, .inr ⟨.inr hp, rfl⟩⟩, goes_finish⟩

/-- For every way its calls may end, given by the steps left at each, a worker can finish its delivery, with a delete. -/
theorem can_finish (cfg : Config) (oks : Nat → Bool) : ∀ {s : Pool n}, s.PhasesFit → (s.point w).message? = some m →
    ∃ actions s' k, (∀ a ∈ actions, GoesOn a) ∧ Lts.run (step cfg) s actions = some s' ∧ s'.PhasesFit ∧
      s'.point = Function.update s.point w .idle ∧ s'.finished = s.finished ++ [m] ∧
      deleteCall cfg m (oks k) ∈ s'.calls := by
  intro s hI hw
  induction hk : s.left w using Nat.strong_induction_on generalizing s with
  | _ k ih =>
    obtain ⟨s₁, hs₁, ⟨p, hp⟩, hmoves⟩ := next_step cfg hI hw (oks (s.left w))
    have hI₁ := phasesFit_step hI hs₁
    rcases hmoves with ⟨hm, hf⟩ | ⟨hidle, hf, hcalls⟩
    · obtain ⟨hlt, -⟩ := work_left (next_goesOn ..).2 hs₁
      rw [next_worker] at hlt
      obtain ⟨actions, s', k', hgo, hrun, hI', hp', hf', hcall⟩ := ih _ (hk ▸ hlt) hI₁ hm rfl
      refine ⟨_ :: actions, s', k', List.forall_mem_cons.2 ⟨next_goesOn .., hgo⟩, Lts.run_cons.2 ⟨s₁, hs₁, hrun⟩, hI',
        ?_, ?_, hcall⟩
      · rw [hp', hp, Function.update_idem]
      · rw [hf', hf]
    · refine ⟨[_], s₁, s.left w, List.forall_mem_singleton.2 (next_goesOn ..), Lts.run_single.2 hs₁, hI₁, ?_, hf, ?_⟩
      · rw [hp, Function.update_self] at hidle
        rw [hp, hidle]
      · rw [hcalls]
        exact List.mem_append_right _ (List.mem_singleton_self _)

end Pool

/-! ## The service -/

namespace FraudDetectionService

variable {n : Nat} {cfg : Config} {s s' : FraudDetectionService n}

/-- Steps of the workers are steps of the service. -/
theorem work_run : ∀ {actions : List (PoolAction n)} {s : FraudDetectionService n} {pool : Pool n},
    (∀ a ∈ actions, Pool.GoesOn a) → Lts.run (Pool.step cfg) s.pool actions = some pool →
    Lts.run (step cfg) s (actions.map .work) = some { s with pool := pool }
  | [], _, _, _, h => by cases h; rfl
  | a :: actions, s, _, hgo, h => by
    obtain ⟨ha, hrest⟩ := List.forall_mem_cons.1 hgo
    obtain ⟨pool₁, h1, h2⟩ := Lts.run_cons.1 h
    have hs₁ : s.step cfg (.work a) = some { s with pool := pool₁ } := step_work.2 ⟨ha.2, pool₁, h1, rfl⟩
    exact Lts.run_cons.2 ⟨_, hs₁, work_run hrest h2⟩

/-- A step of a worker, which takes a task or goes on with its delivery. -/
def WorkerStep : Action n → Prop
  | .takeTask _ => True
  | .work _ => True
  | _ => False

/-- Workers leave the rest of the service as it is. -/
theorem workers_frame {actions : List (Action n)} (ha : ∀ a ∈ actions, WorkerStep a)
    (h : Lts.run (step cfg) s actions = some s') :
    (s'.isRunning = s.isRunning ∧ s'.shutdown = s.shutdown) ∧ s'.control = s.control ∧ s'.pollers = s.pollers ∧
      s'.accepted = s.accepted ∧ s'.discarded = s.discarded := by
  refine Lts.run_inv_along (C := fun _ a => WorkerStep a)
    (I := fun t : FraudDetectionService n =>
      (t.isRunning = s.isRunning ∧ t.shutdown = s.shutdown) ∧ t.control = s.control ∧ t.pollers = s.pollers ∧
        t.accepted = s.accepted ∧ t.discarded = s.discarded)
    ?_ ⟨⟨rfl, rfl⟩, rfl, rfl, rfl, rfl⟩ (Lts.along_of_forall fun a hmem _ => ha a hmem) h
  intro t a t' ht ha hs
  cases a with
  | takeTask w => obtain ⟨m, queue, -, -, rfl⟩ := step_takeTask.1 hs; exact ht
  | work a => obtain ⟨-, pool, -, rfl⟩ := step_work.1 hs; exact ht
  | _ => exact ha.elim

/-- While tasks are queued and none is in processing, the first worker is idle. -/
theorem idle_of_queued (hn : 0 < n) (hE : s.Employed) (hproc : s.pool.processing = []) (hq : s.queue ≠ []) :
    s.pool.point ⟨0, hn⟩ = .idle := by
  have hw := Slots.contents_eq_nil.1 hproc ⟨0, hn⟩
  have hborn := hE hq ⟨0, hn⟩
  cases hp : s.pool.point ⟨0, hn⟩ with
  | unborn => exact absurd hp hborn
  | idle => rfl
  | _ => rw [hp] at hw; cases hw

/-! ## How long the workers take -/

/-- How many steps the workers have left at most, with the tasks that are queued. -/
def todo (s : FraudDetectionService n) : Nat := 8 * s.queue.length + ∑ w, s.pool.left w

theorem todo_step {a : Action n} (ha : WorkerStep a) (h : s.step cfg a = some s') : s'.todo < s.todo := by
  cases a with
  | takeTask w =>
    obtain ⟨m, queue, hq, hw, rfl⟩ := step_takeTask.1 h
    have hself : (s.pool.assign w m).left w = 7 := Pool.left_at (p := .reading m) (Function.update_self ..)
    have hsum : ∑ v, (s.pool.assign w m).left v + s.pool.left w = ∑ v, s.pool.left v + (s.pool.assign w m).left w := by
      refine Slots.sum_of_others fun v hv => ?_
      show Point.left (s.pool.engine.phase v) (Function.update s.pool.point w (.reading m) v) = s.pool.left v
      rw [Function.update_of_ne hv]
      rfl
    show 8 * queue.length + ∑ v, (s.pool.assign w m).left v < 8 * s.queue.length + ∑ v, s.pool.left v
    rw [hq, List.length_cons]
    omega
  | work a =>
    obtain ⟨hne, pool, hpool, rfl⟩ := step_work.1 h
    obtain ⟨hless, hothers⟩ := Pool.work_left hne hpool
    have hsum := Slots.sum_of_others hothers
    show 8 * s.queue.length + ∑ v, pool.left v < 8 * s.queue.length + ∑ v, s.pool.left v
    omega
  | _ => exact ha.elim

theorem todo_le (s : FraudDetectionService n) : s.todo ≤ 8 * s.queue.length + 7 * n := by
  have hsum : ∑ w, s.pool.left w ≤ n * 7 := by
    simpa using Finset.sum_le_card_nsmul Finset.univ s.pool.left 7 fun w _ => Point.left_le ..
  unfold todo
  omega

/-- No worker can take a step exactly when the executor is empty. -/
theorem stuck_iff (hn : 0 < n) (hI : s.pool.PhasesFit) (hE : s.Employed) :
    (∀ a, WorkerStep a → s.step cfg a = none) ↔ s.queue = [] ∧ s.pool.processing = [] := by
  constructor
  · intro hstuck
    have hproc : s.pool.processing = [] := by
      by_contra hne
      obtain ⟨m, hm⟩ := List.exists_mem_of_ne_nil _ hne
      obtain ⟨w, hw⟩ := Slots.mem_contents.1 hm
      obtain ⟨pool, hpool, -⟩ := Pool.next_step cfg hI hw true
      have hnone := hstuck (.work (s.pool.next w true)) trivial
      rw [step_work.2 ⟨(Pool.next_goesOn ..).2, pool, hpool, rfl⟩] at hnone
      cases hnone
    refine ⟨?_, hproc⟩
    cases hq : s.queue with
    | nil => rfl
    | cons m queue =>
      have hidle := idle_of_queued hn hE hproc (by rw [hq]; exact List.cons_ne_nil _ _)
      have hnone := hstuck (.takeTask ⟨0, hn⟩) trivial
      rw [step_takeTask.2 ⟨m, queue, hq, hidle, rfl⟩] at hnone
      cases hnone
  · rintro ⟨hq, hproc⟩ a ha
    rw [Option.eq_none_iff_forall_not_mem]
    intro s' hs
    cases a with
    | takeTask w =>
      obtain ⟨m, queue, hm, -⟩ := step_takeTask.1 hs
      rw [hq] at hm
      cases hm
    | work a =>
      obtain ⟨hne, pool, hpool, -⟩ := step_work.1 hs
      rcases Pool.step_cases hpool with ⟨w, m, rfl, -⟩ | ⟨w, m, hw⟩
      · exact hne w m rfl
      · have hnone := Slots.contents_eq_nil.1 hproc w
        rw [hw.message] at hnone
        cases hnone
    | _ => exact ha

/-- From every reachable state the workers, left to themselves, come to an end under every schedule and whatever their calls
throw: they take a bounded number of steps, and when none can take another, each delivery that was queued or in processing
has been finished. -/
theorem workers_finish (n : Nat) (hn : 0 < n) (cfg : Config) (running : Bool) (actions : List (Action n))
    (s : FraudDetectionService n) (h : Lts.run (step cfg) (new n running) actions = some s) (more : List (Action n))
    (s' : FraudDetectionService n) (hmore : ∀ a ∈ more, WorkerStep a) (hrun : Lts.run (step cfg) s more = some s') :
    more.length ≤ 8 * s.queue.length + 7 * n ∧ ((∀ a, WorkerStep a → s'.step cfg a = none) →
      s'.queue = [] ∧ s'.pool.processing = [] ∧
        s'.pool.finished.Perm (s.queue ++ (s.pool.processing ++ s.pool.finished))) := by
  have hlength := Lts.length_add_le (fun _ _ _ => todo_step) hmore hrun
  have hall := Lts.run_append.2 ⟨s, h, hrun⟩
  refine ⟨?_, fun hstuck => ?_⟩
  · have hle := s.todo_le
    omega
  · obtain ⟨hq, hproc⟩ := (stuck_iff hn (phasesFit_run hall) (employed_run hall)).1 hstuck
    obtain ⟨-, -, -, haccepted, hdiscarded⟩ := workers_frame hmore hrun
    have hA := accounted_run h
    have hA' := accounted_run hall
    have hassigned : s'.pool.assigned.Perm (s.queue ++ s.pool.assigned) := by
      have hacc := hA'.accepted
      rw [hq, List.nil_append, haccepted, hdiscarded] at hacc
      exact (List.perm_append_right_iff _).1 (hacc.symm.trans hA.accepted)
    have hfinished := hA'.pool.assigned
    rw [hproc, List.nil_append] at hfinished
    exact ⟨hq, hproc, (hfinished.symm.trans hassigned).trans (hA.pool.assigned.append_left _)⟩

/-- A message in `processMessage` and another one queued. -/
def queuedRun : List (Action 1) :=
  [.startProcessingThread true, .testRunning 0, .receiveMessage 0,
    .receiveReturns 0 [⟨highText, "receipt 1"⟩, ⟨normalText, "receipt 2"⟩], .submit 0, .submit 0]

/-- The first is given up at its `evaluate`, the second processed. -/
def finishingRun (w : Fin 1) : List (Action 1) :=
  [.work (.readValue w true), .work (.insert w), .work (.evaluateThrows w [] [⟨0, .highTransactionAmount⟩]),
    .work (.deleteMessage w false), .takeTask w, .work (.readValue w false), .work (.deleteMessage w true)]

theorem workers_finish_queued : ∃ s s', Lts.run (step sampleConfig) (new 1 true) queuedRun = some s ∧
    Lts.run (step sampleConfig) s (finishingRun 0) = some s' ∧ (finishingRun 0).length ≤ 8 * s.queue.length + 7 * 1 ∧
      s'.pool.finished.Perm (s.queue ++ (s.pool.processing ++ s.pool.finished)) := by
  have hrun : (Lts.run (step sampleConfig) (new 1 true) (queuedRun ++ finishingRun 0)).map
      (fun s => (s.queue, s.pool.processing)) = some ([], []) := by decide
  obtain ⟨s', hs', hstate⟩ := Option.map_eq_some_iff.1 hrun
  simp only [Prod.mk.injEq] at hstate
  obtain ⟨s, hs, hrest⟩ := Lts.run_append.1 hs'
  obtain ⟨hlength, hfinish⟩ := workers_finish 1 Nat.one_pos sampleConfig true queuedRun s hs (finishingRun 0) s'
    (by simp [finishingRun, WorkerStep]) hrest
  have hstuck : ∀ a, WorkerStep a → s'.step sampleConfig a = none :=
    (stuck_iff Nat.one_pos (phasesFit_run hs') (employed_run hs')).2 hstate
  exact ⟨s, s', hs, hrest, hlength, (hfinish hstuck).2.2⟩

/-! ## A way to finish -/

/-- A step of a worker, the rule engine not throwing. -/
def Drains : Action n → Prop
  | .takeTask _ => True
  | .work a => Pool.EngineSafe a
  | _ => False

theorem workerStep_of_drains {a : Action n} (ha : Drains a) : WorkerStep a := by
  cases a with
  | takeTask w => trivial
  | work a => trivial
  | _ => exact ha.elim

theorem calls_run {actions : List (Action n)} (h : Lts.run (step cfg) s actions = some s') :
    s.pool.calls <+: s'.pool.calls :=
  Lts.run_inv (I := fun t : FraudDetectionService n => s.pool.calls <+: t.pool.calls)
    (fun _ _ _ hI hs => hI.trans (calls_grow hs)) List.prefix_rfl h

/-- The executor can be run empty: a worker with a delivery can finish it, and one without can take a task. Every delivery
it had is deleted without an exception. -/
theorem can_drain (cfg : Config) (hn : 0 < n) : ∀ {s : FraudDetectionService n}, s.pool.PhasesFit → s.Employed →
    ∃ actions s', (∀ a ∈ actions, Drains a) ∧ Lts.run (step cfg) s actions = some s' ∧
      (s'.queue = [] ∧ s'.pool.processing = []) ∧
      ∀ m ∈ s.queue ++ s.pool.processing, Pool.deleteCall cfg m true ∈ s'.pool.calls := by
  intro s hI hE
  induction hk : 2 * s.queue.length + s.pool.processing.length using Nat.strong_induction_on generalizing s with
  | _ k ih =>
    cases hproc : s.pool.processing with
    | cons m rest =>
      -- finish a delivery
      obtain ⟨w, hw⟩ := Slots.mem_contents.1 (show m ∈ s.pool.processing by rw [hproc]; exact List.mem_cons_self ..)
      obtain ⟨first, pool, _, hgo, hrun, hI₁, hpt, -, hcall⟩ := Pool.can_finish cfg (fun _ => true) hI hw
      have hfirst := work_run hgo hrun
      have hE₁ : FraudDetectionService.Employed { s with pool := pool } :=
        Lts.run_inv (fun _ _ _ => employed_step) hE hfirst
      have hperm : s.pool.processing.Perm (m :: pool.processing) := by
        rw [Pool.processing_of_point hpt]
        exact Slots.contents_clear hw
      have hless : s.pool.processing.length = pool.processing.length + 1 := hperm.length_eq
      obtain ⟨more, s', hd, hmore, hdone, hdeleted⟩ :=
        ih (2 * s.queue.length + pool.processing.length) (by omega) hI₁ hE₁ rfl
      refine ⟨first.map .work ++ more, s', ?_, Lts.run_append.2 ⟨_, hfirst, hmore⟩, hdone, fun m' hm' => ?_⟩
      · intro a ha
        rcases List.mem_append.1 ha with ha | ha
        · obtain ⟨b, hb, rfl⟩ := List.mem_map.1 ha
          exact (hgo b hb).1
        · exact hd a ha
      · rw [← hproc] at hm'
        rcases List.mem_append.1 hm' with hm' | hm'
        · exact hdeleted m' (List.mem_append_left _ hm')
        · rcases List.mem_cons.1 (hperm.mem_iff.1 hm') with rfl | hm'
          · exact (calls_run hmore).subset hcall
          · exact hdeleted m' (List.mem_append_right _ hm')
    | nil =>
      cases hq : s.queue with
      | nil => exact ⟨[], s, nofun, rfl, ⟨hq, hproc⟩, nofun⟩
      | cons m queue =>
        -- take a task
        have hidle := idle_of_queued hn hE hproc (by rw [hq]; exact List.cons_ne_nil _ _)
        have hs₁ : s.step cfg (.takeTask ⟨0, hn⟩) = some { s with queue := queue, pool := s.pool.assign ⟨0, hn⟩ m } :=
          step_takeTask.2 ⟨m, queue, hq, hidle, rfl⟩
        have htake : s.pool.step cfg (.take ⟨0, hn⟩ m) = some (s.pool.assign ⟨0, hn⟩ m) :=
          Pool.step_take.2 ⟨.inr hidle, rfl⟩
        have hI₁ : (s.pool.assign ⟨0, hn⟩ m).PhasesFit := Pool.phasesFit_step hI htake
        have hperm : (s.pool.assign ⟨0, hn⟩ m).processing.Perm [m] := by
          have hstart := Pool.processing_assign (m := m) (Or.inr hidle)
          rwa [hproc] at hstart
        have hless : (s.pool.assign ⟨0, hn⟩ m).processing.length = 1 := hperm.length_eq
        obtain ⟨more, s', hd, hmore, hdone, hdeleted⟩ :=
          ih (2 * queue.length + (s.pool.assign ⟨0, hn⟩ m).processing.length)
            (by rw [← hk, hq, List.length_cons]; omega) hI₁ (employed_step hE hs₁) rfl
        refine ⟨.takeTask ⟨0, hn⟩ :: more, s', List.forall_mem_cons.2 ⟨trivial, hd⟩, Lts.run_cons.2 ⟨_, hs₁, hmore⟩,
          hdone, fun m' hm' => hdeleted m' ?_⟩
        rw [List.append_nil] at hm'
        rcases List.mem_cons.1 hm' with rfl | hm'
        · exact List.mem_append_right _ (hperm.mem_iff.2 (List.mem_singleton_self _))
        · exact List.mem_append_left _ hm'

/-- In every reachable state in which `stopRuning` is waiting, the workers can go on until the executor has
terminated, and `stopRuning` can return then. -/
theorem stop_can_return {running : Bool} {actions : List (Action n)} (hn : 0 < n)
    (h : Lts.run (step cfg) (new n running) actions = some s) (hc : s.control = .awaiting) :
    ∃ more s', (∀ a ∈ more, Drains a) ∧
      Lts.run (step cfg) s (more ++ [.awaitTermination .terminated]) = some s' ∧ s'.control = .returned true := by
  obtain ⟨more, s₁, hd, hmore, ⟨hq, hp⟩, -⟩ := can_drain cfg hn (phasesFit_run h) (employed_run h)
  obtain ⟨⟨-, hshutdown⟩, hcontrol, -⟩ := workers_frame (fun a ha => workerStep_of_drains (hd a ha)) hmore
  have hsd : s₁.shutdown = true := by
    rw [hshutdown]
    exact (stopping_run h).shutdown (by rw [hc]; exact nofun) (by rw [hc]; exact nofun)
  have hlast : s₁.step cfg (.awaitTermination .terminated) = some (s₁.setControl (.returned true)) :=
    step_awaitTermination.2 ⟨hcontrol.trans hc, fun _ => terminated_iff.2 ⟨hsd, hq, hp⟩, rfl⟩
  exact ⟨more, _, hd, Lts.run_append.2 ⟨s₁, hmore, Lts.run_single.2 hlast⟩, rfl⟩

/-- Stopped with a message in `processMessage` and another one queued. -/
def stoppedRun : List (Action 1) :=
  [.startProcessingThread true, .testRunning 0, .receiveMessage 0,
    .receiveReturns 0 [⟨highText, "receipt 1"⟩, ⟨normalText, "receipt 2"⟩], .submit 0, .submit 0, .stopRuning, .shutdown]

theorem stop_can_return_stopped : ∃ s, Lts.run (step sampleConfig) (new 1 true) stoppedRun = some s ∧
    s.queue = [⟨normalText, "receipt 2"⟩] ∧ ∃ more s', (∀ a ∈ more, Drains a) ∧
      Lts.run (step sampleConfig) s (more ++ [.awaitTermination .terminated]) = some s' ∧ s'.control = .returned true := by
  have hrun : (Lts.run (step sampleConfig) (new 1 true) stoppedRun).map (fun s => (s.control, s.queue)) =
      some (.awaiting, [⟨normalText, "receipt 2"⟩]) := by decide
  obtain ⟨s, hs, hstate⟩ := Option.map_eq_some_iff.1 hrun
  simp only [Prod.mk.injEq] at hstate
  exact ⟨s, hs, hstate.2, stop_can_return Nat.one_pos hs hstate.1⟩

/-! ## A poller -/

/-- The service accepts tasks and its pollers go on polling. -/
def Open (s : FraudDetectionService n) : Prop := s.isRunning = true ∧ s.shutdown = false

/-- A step of poller `p` other than the return of `receiveMessage`. -/
def Polls (p : Nat) (a : Action n) : Prop :=
  a = .testRunning p ∨ a = .receiveMessage p ∨ a = .submit p ∨ a = .sleep p false

theorem setPoller_self {p : Nat} {x y : Poller} (hp : s.pollers[p]? = some y) :
    (s.setPoller p x).pollers[p]? = some x := by
  obtain ⟨hlt, -⟩ := List.getElem?_eq_some_iff.1 hp
  exact List.getElem?_set_self hlt

/-- A running executor takes the first message of a batch. -/
theorem submit_first (cfg : Config) {p : Nat} {m : Message} {rest : List Message} (hopen : s.Open)
    (hp : s.pollers[p]? = some (.submitting (m :: rest))) :
    ∃ s', s.step cfg (.submit p) = some s' ∧ s'.Open ∧ s'.pollers[p]? = some (.submitting rest) ∧
      m ∈ s'.queue ++ s'.pool.processing := by
  refine ⟨_, step_submit.2 (.inr ⟨m, rest, hp, .inr ⟨hopen.2, rfl⟩⟩), ?_⟩
  rcases accept_cases (s.setPoller p (.submitting rest)) m with ⟨w, hw, ha⟩ | ⟨-, ha⟩
  · rw [ha]
    refine ⟨hopen, setPoller_self hp, List.mem_append_right _ ?_⟩
    exact (Pool.processing_assign (.inl hw)).mem_iff.2 (List.mem_cons_self ..)
  · rw [ha]
    exact ⟨hopen, setPoller_self hp, List.mem_append_left _ (List.mem_append_right _ (List.mem_singleton_self _))⟩

/-- The service can go on, by steps of poller `p` alone, until that poller is in `receiveMessage`. -/
def CanReceive (cfg : Config) (p : Nat) (s : FraudDetectionService n) : Prop :=
  ∃ actions s', (∀ a ∈ actions, Polls p a) ∧ Lts.run (step cfg) s actions = some s' ∧ s'.Open ∧
    s'.pollers[p]? = some .receiving

theorem CanReceive.of_step {p : Nat} {a : Action n} (ha : Polls p a) (hs : s.step cfg a = some s')
    (h : CanReceive cfg p s') : CanReceive cfg p s := by
  obtain ⟨actions, s'', hpolls, hrun, hdone⟩ := h
  exact ⟨a :: actions, s'', List.forall_mem_cons.2 ⟨ha, hpolls⟩, Lts.run_cons.2 ⟨s', hs, hrun⟩, hdone⟩

/-- A live poller of an open service can get to its next `receiveMessage`, from wherever it is in its loop. -/
theorem can_receive {p : Nat} (hopen : s.Open) (hp : s.PollerAlive p) : CanReceive cfg p s := by
  have hreceiving : ∀ {s : FraudDetectionService n}, s.Open → s.pollers[p]? = some .receiving → CanReceive cfg p s :=
    fun hopen hp => ⟨[], _, nofun, rfl, hopen, hp⟩
  have hpolling : ∀ {s : FraudDetectionService n}, s.Open → s.pollers[p]? = some .polling → CanReceive cfg p s := by
    intro s hopen hp
    exact .of_step (.inr (.inl rfl)) (step_receiveMessage.2 ⟨hp, rfl⟩) (hreceiving hopen (setPoller_self hp))
  have htesting : ∀ {s : FraudDetectionService n}, s.Open → s.pollers[p]? = some .testing → CanReceive cfg p s := by
    intro s hopen hp
    refine .of_step (.inl rfl) (step_testRunning.2 ⟨hp, rfl⟩) ?_
    rw [hopen.1]
    exact hpolling hopen (setPoller_self hp)
  have hsleeping : ∀ {s : FraudDetectionService n}, s.Open → s.pollers[p]? = some .sleeping → CanReceive cfg p s := by
    intro s hopen hp
    exact .of_step (.inr (.inr (.inr rfl))) (step_sleep.2 ⟨hp, rfl⟩) (htesting hopen (setPoller_self hp))
  -- the rest of a batch is submitted first
  have hsubmitting : ∀ {batch : List Message} {s : FraudDetectionService n}, s.Open →
      s.pollers[p]? = some (.submitting batch) → CanReceive cfg p s := by
    intro batch
    induction batch with
    | nil =>
      intro s hopen hp
      exact .of_step (.inr (.inr (.inl rfl))) (step_submit.2 (.inl ⟨hp, rfl⟩)) (hsleeping hopen (setPoller_self hp))
    | cons m rest ih =>
      intro s hopen hp
      obtain ⟨s₁, hs₁, hopen₁, hp₁, -⟩ := submit_first cfg hopen hp
      exact .of_step (.inr (.inr (.inl rfl))) hs₁ (ih hopen₁ hp₁)
  obtain ⟨y, hy, halive⟩ := hp
  cases y with
  | testing => exact htesting hopen hy
  | polling => exact hpolling hopen hy
  | receiving => exact hreceiving hopen hy
  | submitting batch => exact hsubmitting hopen hy
  | sleeping => exact hsleeping hopen hy
  | exited => cases halive
  | died => cases halive

/-- Without a live poller and a new one, the pollers stay as they are. -/
theorem pollers_dead_step {a : Action n} (hdead : ∀ p, ¬ s.PollerAlive p)
    (ha : a = .startProcessingThread true → s.isRunning = false) (h : s.step cfg a = some s') :
    s'.pollers = s.pollers := by
  rcases pollers_step h with he | ⟨hs, hrun, -⟩ | ⟨p, y, x, hp, hy, -⟩
  · exact he
  · rw [ha hs] at hrun; cases hrun
  · exact absurd ⟨y, hp, hy⟩ (hdead p)

end FraudDetectionService

end FraudDetect.Service
