/-
The whole pipeline with a pool of one worker: what is received by one poller at a time is submitted, queued
and processed in the order of receipt, so the SQS calls of any run are those of the stateless reference,
message by message.
-/
import FraudDetect.Service.Layers
import FraudDetect.Service.Refinement
import FraudDetect.Service.Pollers
import FraudDetect.Service.Conservation

namespace FraudDetect.Service.FraudDetectionService

open FraudDetect.Drools

/-! ## The order of the tasks -/

/-- The workers take the accepted tasks in the order of their submission. -/
structure Fifo {n : Nat} (s : FraudDetectionService n) : Prop where
  accepted : s.accepted = s.pool.assigned ++ s.queue ++ s.discarded
  discarded : s.discarded = [] ∨ (s.queue = [] ∧ s.shutdown = true)

theorem fifo_new {n : Nat} (running : Bool) : (new n running).Fifo := ⟨rfl, .inl rfl⟩

theorem Fifo.discarded_nil {n : Nat} {s : FraudDetectionService n} (hI : s.Fifo) (h : s.queue ≠ [] ∨ s.shutdown = false) :
    s.discarded = [] := by
  rcases hI.discarded with hd | ⟨hq, hsd⟩
  · exact hd
  · rcases h with h | h
    · exact absurd hq h
    · rw [hsd] at h; cases h

theorem fifo_step {n : Nat} {cfg : Config} {s s' : FraudDetectionService n} {a : Action n} (hI : s.Fifo) (hE : s.Employed)
    (h : s.step cfg a = some s') : s'.Fifo := by
  have hacc := hI.accepted
  cases executor_step h with
  | none hqueue hpool haccepted hdiscarded hshutdown =>
    refine ⟨by rw [hqueue, hpool, haccepted, hdiscarded]; exact hacc, ?_⟩
    rw [hqueue, hdiscarded]
    exact hI.discarded.imp_right fun hd => ⟨hd.1, hshutdown hd.2⟩
  | assign w m hw hrun hqueue hpool haccepted hdiscarded =>
    have hd := hI.discarded_nil (.inr hrun)
    -- the worker had not been created, so nothing was queued before `m`
    have hq : s.queue = [] := by
      by_contra hne
      exact hE hne w hw
    refine ⟨?_, .inl (hdiscarded.trans hd)⟩
    rw [haccepted, hacc, hpool, hqueue, hdiscarded, hq, hd]
    show s.pool.assigned ++ [] ++ [] ++ [m] = s.pool.assigned ++ [m] ++ [] ++ []
    simp
  | enqueue m hborn hrun hqueue hpool haccepted hdiscarded =>
    have hd := hI.discarded_nil (.inr hrun)
    refine ⟨?_, .inl (hdiscarded.trans hd)⟩
    rw [haccepted, hacc, hpool, hqueue, hdiscarded, hd]
    simp
  | take w m hw hqueue hpool haccepted hdiscarded =>
    have hd := hI.discarded_nil (.inl (by rw [hqueue]; exact List.cons_ne_nil _ _))
    refine ⟨?_, .inl (hdiscarded.trans hd)⟩
    rw [haccepted, hacc, hpool, hqueue, hdiscarded]
    show s.pool.assigned ++ m :: s'.queue ++ s.discarded = s.pool.assigned ++ [m] ++ s'.queue ++ s.discarded
    simp
  | work w m hw hqueue haccepted hdiscarded hshutdown =>
    refine ⟨by rw [hw.assigned, hqueue, haccepted, hdiscarded]; exact hacc, ?_⟩
    rw [hqueue, hdiscarded, hshutdown]
    exact hI.discarded
  | discard hqueue hpool haccepted hdiscarded hshutdown =>
    refine ⟨?_, .inr ⟨hqueue, hshutdown⟩⟩
    rw [haccepted, hacc, hpool, hqueue, hdiscarded]
    rcases hI.discarded with hd | ⟨hq, -⟩
    · rw [hd]; simp
    · rw [hq]; simp

theorem fifo_run {n : Nat} {cfg : Config} {running : Bool} {actions : List (Action n)} {s : FraudDetectionService n}
    (h : Lts.run (step cfg) (new n running) actions = some s) : s.Fifo := by
  have hinv : s.Fifo ∧ s.Employed :=
    Lts.run_inv (I := fun t : FraudDetectionService n => t.Fifo ∧ t.Employed)
      (fun _ _ _ hI hs => ⟨fifo_step hI.1 hI.2 hs, employed_step hI.2 hs⟩)
      ⟨fifo_new running, fun hq => absurd rfl hq⟩ h
  exact hinv.1

/-! ## The order of receipt -/

section

variable {n : Nat} {cfg : Config} {s s' : FraudDetectionService n} {a : Action n} {p : Nat} {x y : Poller}

theorem held_of_dead (hx : x.alive = false) : x.held = [] := by
  cases x with
  | exited => rfl
  | died => rfl
  | _ => cases hx

/-- Among pollers of which at most one is alive, only that one holds deliveries. -/
theorem flatMap_held_set : ∀ {l : List Poller} {p : Nat}, l[p]? = some y → y.alive = true → l.countP Poller.alive ≤ 1 →
    (l.set p x).flatMap Poller.held = x.held
  | z :: l, 0, hp, hy, hl => by
    obtain rfl : z = y := by simpa using hp
    have hdead : ∀ z ∈ l, z.held = [] := by
      intro z' hz
      refine held_of_dead ?_
      rw [List.countP_cons_of_pos hy] at hl
      have hzero : l.countP Poller.alive = 0 := by omega
      simpa using List.countP_eq_zero.1 hzero z' hz
    rw [List.set_cons_zero, List.flatMap_cons, List.flatMap_eq_nil_iff.2 hdead, List.append_nil]
  | z :: l, p + 1, hp, hy, hl => by
    have hmem : y ∈ l := List.mem_of_getElem? (i := p) hp
    have hpos : 0 < l.countP Poller.alive := List.countP_pos_iff.2 ⟨y, hmem, hy⟩
    rw [List.countP_cons] at hl
    have hz : z.alive = false := by
      cases hz : z.alive with
      | false => rfl
      | true => rw [hz, if_pos rfl] at hl; omega
    rw [List.set_cons_succ, List.flatMap_cons, held_of_dead hz, List.nil_append]
    exact flatMap_held_set hp hy (by omega)

theorem held_set_alone (hp : s.pollers[p]? = some y) (hy : y.alive = true) (hle : s.alivePollers ≤ 1) :
    (s.setPoller p x).held = x.held := flatMap_held_set hp hy hle

theorem held_alone (hp : s.pollers[p]? = some y) (hy : y.alive = true) (hle : s.alivePollers ≤ 1) : s.held = y.held := by
  have hset : s.setPoller p y = s := by
    obtain ⟨hlt, rfl⟩ := List.getElem?_eq_some_iff.1 hp
    unfold setPoller
    rw [List.set_getElem_self]
  rw [← hset]
  exact held_set_alone hp hy hle

/-- What has been received, in this order: what has been accepted, what was lost by a `submit` that an executor
already shut down rejected, and what is still to be submitted. -/
structure Ordered (s : FraudDetectionService n) : Prop where
  received : s.received = s.accepted ++ s.refused ++ s.held
  refused : s.refused = [] ∨ s.shutdown = true
  alone : s.alivePollers ≤ 1

theorem ordered_new (running : Bool) : (new n running).Ordered := ⟨rfl, .inl rfl, Nat.zero_le 1⟩

/-- A poller goes on with the deliveries it holds. -/
theorem received_setPoller (hI : s.Ordered) (hp : s.pollers[p]? = some y) (hy : y.alive = true) (hxy : x.held = y.held) :
    s.received = s.accepted ++ s.refused ++ (s.setPoller p x).held := by
  rw [held_set_alone hp hy hI.alone, hxy, ← held_alone hp hy hI.alone]
  exact hI.received

theorem ordered_step (hI : s.Ordered) (ha : StartsAlone s a) (h : s.step cfg a = some s') : s'.Ordered := by
  have hone : s'.alivePollers ≤ 1 := (alivePollers_le_iff hI.alone h).2 ha
  cases a with
  | startProcessingThread ok =>
    have hheld := held_startProcessingThread h
    obtain ⟨-, rfl⟩ := step_startProcessingThread.1 h
    exact ⟨by rw [hheld]; exact hI.received, hI.refused, hone⟩
  | setRunning running => obtain ⟨-, rfl⟩ := step_setRunning.1 h; exact ⟨hI.received, hI.refused, hone⟩
  | stopRuning => obtain ⟨-, rfl⟩ := step_stopRuning.1 h; exact ⟨hI.received, hI.refused, hone⟩
  | shutdown => obtain ⟨-, rfl⟩ := step_shutdown.1 h; exact ⟨hI.received, .inr rfl, hone⟩
  | awaitTermination result =>
    obtain ⟨-, -, rfl⟩ := step_awaitTermination.1 h
    exact ⟨hI.received, hI.refused, hone⟩
  | shutdownNow => obtain ⟨-, rfl⟩ := step_shutdownNow.1 h; exact ⟨hI.received, .inr rfl, hone⟩
  | testRunning p =>
    obtain ⟨hp, rfl⟩ := step_testRunning.1 h
    exact ⟨received_setPoller hI hp rfl (by cases s.isRunning <;> rfl), hI.refused, hone⟩
  | receiveMessage p =>
    obtain ⟨hp, rfl⟩ := step_receiveMessage.1 h
    exact ⟨received_setPoller hI hp rfl rfl, hI.refused, hone⟩
  | receiveReturns p batch =>
    obtain ⟨hp, rfl⟩ := step_receiveReturns.1 h
    refine ⟨?_, hI.refused, hone⟩
    show s.received ++ batch = s.accepted ++ s.refused ++ (s.setPoller p (.submitting batch)).held
    rw [hI.received, held_alone hp rfl hI.alone, held_set_alone hp rfl hI.alone]
    simp [Poller.held]
  | receiveThrows p =>
    obtain ⟨hp, rfl⟩ := step_receiveThrows.1 h
    exact ⟨received_setPoller hI hp rfl rfl, hI.refused, hone⟩
  | submit p =>
    rcases step_submit.1 h with ⟨hp, rfl⟩ | ⟨m, rest, hp, ⟨hsd, rfl⟩ | ⟨hsd, rfl⟩⟩
    · exact ⟨received_setPoller hI hp rfl rfl, hI.refused, hone⟩
    · refine ⟨?_, .inr hsd, hone⟩
      show s.received = s.accepted ++ (s.refused ++ m :: rest) ++ (s.setPoller p .died).held
      rw [hI.received, held_alone hp rfl hI.alone, held_set_alone hp rfl hI.alone]
      simp [Poller.held]
    · -- the executor runs, so nothing has been refused and `m` is the next delivery
      have hr : s.refused = [] := by
        rcases hI.refused with hr | hsd'
        · exact hr
        · rw [hsd] at hsd'; cases hsd'
      have hrec : s.received = s.accepted ++ [m] ++ s.refused ++ (s.setPoller p (.submitting rest)).held := by
        rw [hI.received, hr, held_alone hp rfl hI.alone, held_set_alone hp rfl hI.alone]
        simp [Poller.held]
      rcases accept_cases (s.setPoller p (.submitting rest)) m with ⟨w, -, hacc⟩ | ⟨-, hacc⟩
      · rw [hacc] at hone ⊢; exact ⟨hrec, hI.refused, hone⟩
      · rw [hacc] at hone ⊢; exact ⟨hrec, hI.refused, hone⟩
  | sleep p interrupted =>
    obtain ⟨hp, rfl⟩ := step_sleep.1 h
    exact ⟨received_setPoller hI hp rfl rfl, hI.refused, hone⟩
  | takeTask w => obtain ⟨m, queue, -, -, rfl⟩ := step_takeTask.1 h; exact ⟨hI.received, hI.refused, hone⟩
  | work a => obtain ⟨-, pool, -, rfl⟩ := step_work.1 h; exact ⟨hI.received, hI.refused, hone⟩

end

/-! ## The calls -/

theorem mapperFits_actions {n : Nat} {cfg : Config} {running : Bool} {actions : List (Action n)} {reads writes : Bool}
    (h : MapperFits (· ∈ poolTrace cfg running actions) reads writes) :
    MapperFits (fun b => .work b ∈ actions) reads writes := by
  have hwork : ∀ b ∈ poolTrace cfg running actions, (∀ w m, b ≠ .take w m) → .work b ∈ actions := by
    intro b hb hne
    rcases mem_poolTrace hb with ⟨w, m, rfl⟩ | hb
    · exact absurd rfl (hne w m)
    · exact hb
  constructor
  · intro hr
    obtain ⟨w, hb⟩ := h.1 hr
    exact ⟨w, hwork _ hb nofun⟩
  · intro hw
    obtain ⟨w, hb⟩ := h.2 hw
    exact ⟨w, hwork _ hb nofun⟩

/-- With a pool of one worker, over every run in which the rule engine does not throw: the SQS calls are those of
the stateless reference for the messages taken from the queue, one after another, and these are the accepted
messages in order. While at most one poller is alive at a time, that is the order of receipt. -/
theorem single_worker_refines (cfg : Config) (running : Bool) (actions : List (Action 1)) (s : FraudDetectionService 1)
    (hengine : ∀ a ∈ actions, EngineReturns a) (h : Lts.run (step cfg) (new 1 running) actions = some s) :
    ∃ tasks : List Task, s.accepted = tasks.map Task.message ++ s.queue ++ s.discarded ∧
      (Lts.Along (step cfg) StartsAlone (new 1 running) actions → s.received = s.accepted ++ s.refused ++ s.held) ∧
      (∀ k ∈ tasks, k.Valid cfg ∧ MapperFits (fun b => .work b ∈ actions) k.reads k.writes) ∧
      s.pool.sqsCalls <+: tasks.flatMap (Task.sqsCalls cfg) ∧
      (s.pool.processing = [] → s.pool.sqsCalls = tasks.flatMap (Task.sqsCalls cfg)) := by
  obtain ⟨tasks, hmap, hvalid, hpre, hall⟩ := (Pool.solo_run (engineSafe_poolTrace hengine) (pool_run h)).tasks
  refine ⟨tasks, ?_, ?_, fun k hk => (hvalid k hk).imp_right mapperFits_actions, ?_, ?_⟩
  · rw [hmap]
    exact (fifo_run h).accepted
  · intro halone
    exact (Lts.run_inv_along (fun _ _ _ => ordered_step) (ordered_new running) halone h).received
  · rw [← Pool.sqsCalls_flatMap]
    exact hpre.filter _
  · intro hnone
    rw [← Pool.sqsCalls_flatMap, ← hall (Slots.contents_eq_nil.1 hnone 0)]
    rfl

/-- The notification of a transaction with a high amount fails. -/
def failedNotifyRun {n : Nat} (w : Fin n) (rest : List Message) : List (Action n) :=
  [.startProcessingThread true, .testRunning 0, .receiveMessage 0, .receiveReturns 0 (⟨highText, "receipt 1"⟩ :: rest),
    .submit 0, .work (.readValue w true), .work (.insert w), .work (.fireAllRules w [⟨0, .highTransactionAmount⟩]),
    .work (.writeValueAsString w true), .work (.sendMessage w false), .work (.deleteMessage w true)]

/-- A body that does not decode comes after it in the same batch. -/
def failedNotifyThenBadRun {n : Nat} (w : Fin n) : List (Action n) :=
  failedNotifyRun w [⟨"BAD_JSON_OBJECT", "receipt 2"⟩] ++
    [.submit 0, .takeTask w, .work (.readValue w true), .work (.deleteMessage w true)]

theorem engineReturns_failedNotify {n : Nat} (w : Fin n) (rest : List Message) :
    ∀ a ∈ failedNotifyRun w rest, EngineReturns a := by
  simp [failedNotifyRun, EngineReturns, Pool.EngineSafe]

theorem engineReturns_failedNotifyThenBad {n : Nat} (w : Fin n) : ∀ a ∈ failedNotifyThenBadRun w, EngineReturns a := by
  simp [failedNotifyThenBadRun, failedNotifyRun, EngineReturns, Pool.EngineSafe]

theorem single_worker_refines_failed : ∃ s, Lts.run (step sampleConfig) (new 1 true) (failedNotifyThenBadRun 0) = some s ∧
    ∃ tasks : List Task, tasks.map Task.message = [⟨highText, "receipt 1"⟩, ⟨"BAD_JSON_OBJECT", "receipt 2"⟩] ∧
      s.pool.sqsCalls = tasks.flatMap (Task.sqsCalls sampleConfig) := by
  have hrun : (Lts.run (step sampleConfig) (new 1 true) (failedNotifyThenBadRun 0)).map
      (fun s => (s.accepted, s.queue, s.discarded, s.pool.processing)) =
      some ([⟨highText, "receipt 1"⟩, ⟨"BAD_JSON_OBJECT", "receipt 2"⟩], [], [], []) := by decide
  obtain ⟨s, hs, hstate⟩ := Option.map_eq_some_iff.1 hrun
  simp only [Prod.mk.injEq] at hstate
  obtain ⟨hacc, hqueue, hdisc, hidle⟩ := hstate
  obtain ⟨tasks, hmap, -, -, -, hcalls⟩ := single_worker_refines sampleConfig true (failedNotifyThenBadRun 0) s
    (engineReturns_failedNotifyThenBad 0) hs
  rw [hacc, hqueue, hdisc, List.append_nil, List.append_nil] at hmap
  exact ⟨s, hs, tasks, hmap.symm, hcalls hidle⟩

/-- The SQS calls of a reference that deletes the message after the send, whatever became of it, and again if
the send or this delete threw. -/
def deletingTwice (cfg : Config) (k : Task) : List Event :=
  match cfg.decode k.message k.reads with
  | none => [k.delete cfg k.recovers]
  | some none => [k.delete cfg k.recovers]
  | some (some t) =>
    if flagged t then
      if k.writes then
        k.notify cfg t k.sends :: k.delete cfg k.deletes :: if k.sends && k.deletes then [] else [k.delete cfg k.recovers]
      else [k.delete cfg k.recovers]
    else k.deleteCalls cfg

/-- A task for the message that begins with a failing send makes two deletes there. -/
theorem deletingTwice_length {k : Task} {body : String} {rest : List Event} (hm : k.message = ⟨highText, "receipt 1"⟩)
    (hk : deletingTwice sampleConfig k = .sendMessage "notify" body false :: rest) : rest.length = 2 := by
  have hdecode : sampleConfig.decode ⟨highText, "receipt 1"⟩ true = some (some highTransaction) := by decide
  have hflag : flagged highTransaction = true := by decide
  obtain ⟨m, reads, rule, writes, sends, deletes, recovers⟩ := k
  obtain rfl : m = ⟨highText, "receipt 1"⟩ := hm
  unfold deletingTwice at hk
  cases reads with
  | false => cases hk
  | true =>
    simp only [hdecode, hflag, if_true] at hk
    cases writes with
    | false => cases hk
    | true =>
      cases sends with
      | true => simp [Task.notify] at hk
      | false =>
        simp only [if_true, Bool.false_and, Bool.false_eq_true, if_false, List.cons.injEq] at hk
        rw [← hk.2]
        rfl

/-- After a send that throws, the message is deleted once. -/
theorem one_delete_when_send_throws : ¬ ∀ (cfg : Config) (running : Bool) (actions : List (Action 1))
    (s : FraudDetectionService 1), (∀ a ∈ actions, EngineReturns a) →
    Lts.run (step cfg) (new 1 running) actions = some s →
    Lts.Along (step cfg) StartsAlone (new 1 running) actions → s.pool.finished = s.received →
    ∃ tasks : List Task, tasks.map Task.message = s.received ∧ s.pool.sqsCalls = tasks.flatMap (deletingTwice cfg) := by
  intro h
  have hrun : (Lts.run (step sampleConfig) (new 1 true) (failedNotifyRun 0 [])).map
      (fun s => (s.received, s.pool.finished, s.pool.sqsCalls)) =
      some ([⟨highText, "receipt 1"⟩], [⟨highText, "receipt 1"⟩],
        [.sendMessage "notify" highFlaggedText false, .deleteMessage "transactions" "receipt 1" true]) := by decide
  obtain ⟨s, hs, hstate⟩ := Option.map_eq_some_iff.1 hrun
  simp only [Prod.mk.injEq] at hstate
  obtain ⟨hrec, hfin, hsqs⟩ := hstate
  obtain ⟨tasks, hmap, hcalls⟩ := h sampleConfig true (failedNotifyRun 0 []) s (engineReturns_failedNotify 0 []) hs
    (by decide) (hfin.trans hrec.symm)
  rw [hrec] at hmap
  obtain ⟨k, rfl, hk⟩ := List.map_eq_singleton_iff.1 hmap
  rw [hsqs, List.flatMap_singleton] at hcalls
  have hlen := deletingTwice_length hk hcalls.symm
  cases hlen

end FraudDetect.Service.FraudDetectionService
