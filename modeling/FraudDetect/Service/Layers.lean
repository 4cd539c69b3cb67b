/-
How the layers fit together: a run of the service is a run of its pool, and, as long as the rule engine does
not throw, a run of the concurrent calls of `evaluate`. What is known of these calls therefore holds in the
service, for its verdicts and for the alerts it shows.
-/
import FraudDetect.Service.Lifecycle

namespace FraudDetect.Service

open FraudDetect.Drools

/-! ## Points and phases -/

namespace Pool

variable {n : Nat} {cfg : Config} {s s' : Pool n} {a : PoolAction n} {w : Fin n}

/-- A worker has a call of `evaluate` open exactly while it is at that call. -/
def PhasesFit (s : Pool n) : Prop := ∀ w, s.engine.phase w ≠ .idle ↔ ∃ m, s.point w = .evaluating m

theorem phasesFit_new : (new n).PhasesFit := fun _ => ⟨fun h => absurd rfl h, by rintro ⟨m, hm⟩; cases hm⟩

theorem PhasesFit.idle (hI : s.PhasesFit) (hp : ∀ m, s.point w ≠ .evaluating m) : s.engine.phase w = .idle := by
  by_contra h
  obtain ⟨m, hm⟩ := (hI w).1 h
  exact hp m hm

/-- A step of one worker leaves the phases and points of the others alone. -/
theorem phasesFit_update {p : Point} (hI : s.PhasesFit) (hpoint : s'.point = Function.update s.point w p)
    (hphase : ∀ v, v ≠ w → s'.engine.phase v = s.engine.phase v)
    (hw : s'.engine.phase w ≠ .idle ↔ ∃ m, p = .evaluating m) : s'.PhasesFit := by
  intro v
  by_cases hv : v = w
  · subst hv
    rw [hpoint, Function.update_self]
    exact hw
  · rw [hpoint, Function.update_of_ne hv, hphase v hv]
    exact hI v

/-- A worker that is not evaluating moves on, without the rule engine. -/
theorem phasesFit_move {p : Point} (hI : s.PhasesFit) (hpoint : s'.point = Function.update s.point w p)
    (hengine : s'.engine = s.engine) (hw : ∀ m, s.point w ≠ .evaluating m) (hp : ∀ m, p ≠ .evaluating m) :
    s'.PhasesFit := by
  refine phasesFit_update hI hpoint (fun v _ => by rw [hengine]) ?_
  rw [hengine]
  exact iff_of_false (fun h => h (hI.idle hw)) (by rintro ⟨m, hm⟩; exact hp m hm)

theorem phasesFit_step (hI : s.PhasesFit) (h : s.step cfg a = some s') : s'.PhasesFit := by
  cases a with
  | take w m =>
    obtain ⟨hw, rfl⟩ := step_take.1 h
    refine phasesFit_move hI rfl rfl (fun m' hm => ?_) nofun
    rcases hw with hw | hw <;> rw [hw] at hm <;> cases hm
  | readValue w ok =>
    obtain ⟨m, hp, ⟨-, rfl⟩ | ⟨t, e, -, he, rfl⟩⟩ := step_readValue.1 h
    · exact phasesFit_move hI rfl rfl (fun m' hm => by rw [hp] at hm; cases hm) nofun
    · obtain ⟨-, rfl⟩ := Engine.step_call.1 he
      refine phasesFit_update hI rfl (fun v hv => Engine.call_phase_of_ne _ t hv) (iff_of_true ?_ ⟨m, rfl⟩)
      show (s.engine.call w t).phase w ≠ .idle
      rw [Engine.call_phase_self]
      exact nofun
  | insert w =>
    obtain ⟨m, e, hp, he, rfl⟩ := step_insert.1 h
    obtain ⟨o, -, rfl⟩ := Engine.step_insert.1 he
    refine phasesFit_update hI (Function.update_eq_self ..).symm (fun v hv => Engine.insert_phase_of_ne _ o hv)
      (iff_of_true ?_ ⟨m, hp⟩)
    show (s.engine.insert w o).phase w ≠ .idle
    rw [Engine.insert_phase_self]
    exact nofun
  | fireAllRules w order =>
    obtain ⟨m, o, e, -, -, he, rfl⟩ := step_fireAllRules.1 h
    obtain ⟨o', -, -, rfl⟩ := Engine.step_fireAllRules.1 he
    refine phasesFit_update hI rfl (fun v hv => Engine.fireAllRules_phase_of_ne _ o' order hv) (iff_of_false ?_ ?_)
    · exact fun hne => hne (Engine.fireAllRules_phase_self ..)
    · rintro ⟨m', hm⟩
      cases o with
      | none => cases hm
      | some r => cases hlen : decide (order.length > 0) <;> rw [hlen] at hm <;> cases hm
  | evaluateThrows w done rest =>
    obtain ⟨m, -, -, -, rfl⟩ := step_evaluateThrows.1 h
    refine phasesFit_update hI rfl (fun v hv => Function.update_of_ne hv ..) (iff_of_false ?_ nofun)
    exact fun hne => hne (Function.update_self ..)
  | writeValueAsString w ok =>
    obtain ⟨m, r, hp, rfl⟩ := step_writeValueAsString.1 h
    refine phasesFit_move hI rfl rfl (fun m' hm => by rw [hp] at hm; cases hm) ?_
    cases ok <;> exact nofun
  | sendMessage w ok =>
    obtain ⟨m, body, hp, rfl⟩ := step_sendMessage.1 h
    refine phasesFit_move hI rfl rfl (fun m' hm => by rw [hp] at hm; cases hm) ?_
    cases ok <;> exact nofun
  | deleteMessage w ok =>
    obtain ⟨m, ⟨hp, -, rfl⟩ | ⟨hp, rfl⟩⟩ := step_deleteMessage.1 h
    · exact phasesFit_move hI rfl rfl (fun m' hm => by rw [hp] at hm; cases hm) nofun
    · refine phasesFit_move hI rfl rfl (fun m' hm => ?_) nofun
      rcases hp with ⟨hp, -⟩ | hp <;> rw [hp] at hm <;> cases hm

/-- A `fireAllRules` is taken only while no other worker is between its `insert` and its `fireAllRules` with a
transaction that satisfies a rule. -/
def FiresAlone (s : Pool n) : PoolAction n → Prop
  | .fireAllRules w order => s.engine.Undisturbed (.fireAllRules w order)
  | _ => True

theorem undisturbed_of_firesAlone (hC : FiresAlone s a) (h : s.step cfg a = some s') :
    Lts.Along Engine.step Engine.Undisturbed s.engine (engineLabels cfg s a) := by
  cases a with
  | readValue w ok =>
    obtain ⟨m, hp, ⟨hd, -⟩ | ⟨t, e, hd, -, -⟩⟩ := step_readValue.1 h
    · simp only [engineLabels, hp, hd]; trivial
    · simp only [engineLabels, hp, hd]; exact ⟨trivial, fun _ _ => trivial⟩
  | insert w => exact ⟨trivial, fun _ _ => trivial⟩
  | fireAllRules w order => exact ⟨hC, fun _ _ => trivial⟩
  | _ => trivial

end Pool

/-! ## The service over its pool -/

namespace FraudDetectionService

variable {n : Nat} {cfg : Config} {running : Bool} {actions : List (Action n)} {s : FraudDetectionService n}

/-- The steps of the pool a step of the service stands for. -/
def poolLabels (s : FraudDetectionService n) : Action n → List (PoolAction n)
  | .submit p =>
    match s.pollers[p]? with
    | some (.submitting (m :: _)) => if s.shutdown then [] else s.pool.unborn?.elim [] fun w => [.take w m]
    | _ => []
  | .takeTask w => s.queue.head?.elim [] fun m => [.take w m]
  | .work a => [a]
  | _ => []

theorem accept_pool (s : FraudDetectionService n) (m : Message) :
    Lts.run (Pool.step cfg) s.pool (s.pool.unborn?.elim [] fun w => [.take w m]) = some (s.accept m).pool := by
  unfold accept
  cases hu : s.pool.unborn? with
  | none => rfl
  | some w =>
    have hw : s.pool.point w = .unborn := by simpa using List.find?_some hu
    exact Lts.run_single.2 (Pool.step_take.2 ⟨.inl hw, rfl⟩)

/-- The pollers and the lifecycle caller reach the pool only by the tasks it takes. -/
def poolSimulation (cfg : Config) : Lts.Simulation (step (n := n) cfg) (Pool.step (n := n) cfg) where
  abs := pool
  labels := poolLabels
  admits _ _ := True
  step_run := by
    intro s a s' _ h
    cases a with
    | startProcessingThread ok => obtain ⟨-, rfl⟩ := step_startProcessingThread.1 h; rfl
    | setRunning running => obtain ⟨-, rfl⟩ := step_setRunning.1 h; rfl
    | stopRuning => obtain ⟨-, rfl⟩ := step_stopRuning.1 h; rfl
    | shutdown => obtain ⟨-, rfl⟩ := step_shutdown.1 h; rfl
    | awaitTermination result => obtain ⟨-, -, rfl⟩ := step_awaitTermination.1 h; rfl
    | shutdownNow => obtain ⟨-, rfl⟩ := step_shutdownNow.1 h; rfl
    | testRunning p => obtain ⟨-, rfl⟩ := step_testRunning.1 h; rfl
    | receiveMessage p => obtain ⟨-, rfl⟩ := step_receiveMessage.1 h; rfl
    | receiveReturns p batch => obtain ⟨-, rfl⟩ := step_receiveReturns.1 h; rfl
    | receiveThrows p => obtain ⟨-, rfl⟩ := step_receiveThrows.1 h; rfl
    | submit p =>
      rcases step_submit.1 h with ⟨hp, rfl⟩ | ⟨m, rest, hp, ⟨hsd, rfl⟩ | ⟨hsd, rfl⟩⟩
      · simp only [poolLabels, hp]; rfl
      · simp only [poolLabels, hp, hsd]; rfl
      · simp only [poolLabels, hp, hsd, Bool.false_eq_true, if_false]
        exact accept_pool (s.setPoller p (.submitting rest)) m
    | sleep p interrupted => obtain ⟨-, rfl⟩ := step_sleep.1 h; rfl
    | takeTask w =>
      obtain ⟨m, queue, hq, hw, rfl⟩ := step_takeTask.1 h
      simp only [poolLabels, hq, List.head?_cons]
      exact Lts.run_single.2 (Pool.step_take.2 ⟨.inr hw, rfl⟩)
    | work a =>
      obtain ⟨-, pool, hp, rfl⟩ := step_work.1 h
      exact Lts.run_single.2 hp

/-- A step of the pool is the assignment of a task or a step that the service makes as such. -/
theorem mem_poolLabels {t : FraudDetectionService n} {a : Action n} {b : PoolAction n} (hb : b ∈ poolLabels t a) :
    (∃ w m, b = .take w m) ∨ a = .work b := by
  cases a with
  | submit p =>
    simp only [poolLabels] at hb
    split at hb
    · rename_i m rest _
      split at hb
      · cases hb
      · cases hu : t.pool.unborn? with
        | none => rw [hu] at hb; cases hb
        | some w => rw [hu] at hb; exact .inl ⟨w, m, List.mem_singleton.1 hb⟩
    · cases hb
  | takeTask w =>
    simp only [poolLabels] at hb
    cases hq : t.queue.head? with
    | none => rw [hq] at hb; cases hb
    | some m => rw [hq] at hb; exact .inl ⟨w, m, List.mem_singleton.1 hb⟩
  | work a => exact .inr (by rw [List.mem_singleton.1 hb])
  | _ => cases hb

/-- The steps of the pool in a run of the service. -/
def poolTrace (cfg : Config) (running : Bool) (actions : List (Action n)) : List (PoolAction n) :=
  (poolSimulation cfg).trace (new n running) actions

theorem pool_run (h : Lts.run (step cfg) (new n running) actions = some s) :
    Lts.run (Pool.step cfg) (.new n) (poolTrace cfg running actions) = some s.pool :=
  (poolSimulation cfg).run_trace Lts.along_true h

theorem phasesFit_run (h : Lts.run (step cfg) (new n running) actions = some s) : s.pool.PhasesFit :=
  Lts.run_inv (fun _ _ _ => Pool.phasesFit_step) Pool.phasesFit_new (pool_run h)

theorem mem_poolTrace {b : PoolAction n} (hb : b ∈ poolTrace cfg running actions) :
    (∃ w m, b = .take w m) ∨ .work b ∈ actions := by
  obtain ⟨t, a, ha, hb⟩ := (poolSimulation cfg).mem_trace hb
  refine (mem_poolLabels hb).imp_right ?_
  rintro rfl; exact ha

/-- The rule engine does not throw. -/
def EngineReturns : Action n → Prop
  | .work a => Pool.EngineSafe a
  | _ => True

theorem engineSafe_poolTrace (hengine : ∀ a ∈ actions, EngineReturns a) :
    ∀ b ∈ poolTrace cfg running actions, Pool.EngineSafe b := by
  intro b hb
  rcases mem_poolTrace hb with ⟨w, m, rfl⟩ | hb
  · trivial
  · exact hengine _ hb

/-- Tasks are queued only when all workers have been created. -/
def Employed (s : FraudDetectionService n) : Prop := s.queue ≠ [] → ∀ w, s.pool.point w ≠ .unborn

theorem employed_step {s' : FraudDetectionService n} {a : Action n} (hI : s.Employed) (h : s.step cfg a = some s') :
    s'.Employed := by
  intro hq v
  cases executor_step h with
  | none hqueue hpool => rw [hqueue] at hq; rw [hpool]; exact hI hq v
  | assign w m hw hrun hqueue => rw [hqueue] at hq; exact absurd hw (hI hq w)
  | enqueue m hborn hrun hqueue hpool => rw [hpool]; exact hborn v
  | discard hqueue => exact absurd hqueue hq
  | take w m hw hqueue hpool =>
    rw [hpool]
    show Function.update s.pool.point w (.reading m) v ≠ .unborn
    by_cases hv : v = w
    · subst hv; rw [Function.update_self]; exact nofun
    · rw [Function.update_of_ne hv]
      exact hI (by rw [hqueue]; exact List.cons_ne_nil _ _) v
  | work w m hw hqueue =>
    rw [hqueue] at hq
    have hold := hI hq v
    by_cases hv : v = w
    · subst hv
      rcases hw.moves with ⟨p, hpm, hpt, -⟩ | ⟨hpt, -⟩
      · rw [hpt, Function.update_self]; rintro rfl; cases hpm
      · rw [hpt, Function.update_self]; exact nofun
    · rcases hw.moves with ⟨p, -, hpt, -⟩ | ⟨hpt, -⟩ <;> rw [hpt, Function.update_of_ne hv] <;> exact hold

theorem employed_run (h : Lts.run (step cfg) (new n running) actions = some s) : s.Employed :=
  Lts.run_inv (fun _ _ _ => employed_step) (fun hq => absurd rfl hq) h

/-! ## The service over the rule engine -/

/-- The steps of the rule engine in a run of the service. -/
def engineTrace (cfg : Config) (running : Bool) (actions : List (Action n)) : List (EngineAction n) :=
  (Pool.engineSimulation cfg).trace (.new n) (poolTrace cfg running actions)

theorem engine_run (hengine : ∀ a ∈ actions, EngineReturns a) (h : Lts.run (step cfg) (new n running) actions = some s) :
    Lts.run Engine.step (.new n) (engineTrace cfg running actions) = some s.pool.engine :=
  (Pool.engineSimulation cfg).run_trace (Lts.along_of_forall fun b hb _ => engineSafe_poolTrace hengine b hb) (pool_run h)

theorem engine_wf (hengine : ∀ a ∈ actions, EngineReturns a) (h : Lts.run (step cfg) (new n running) actions = some s) :
    s.pool.engine.Wf :=
  Engine.wf_run (engine_run hengine h)

/-- The steps of the pool fire alone. -/
def FiresAlone (s : FraudDetectionService n) : Action n → Prop
  | .work a => s.pool.FiresAlone a
  | _ => True

theorem firesAlone_poolLabels {a : Action n} (hC : s.FiresAlone a) :
    Lts.Along (Pool.step cfg) Pool.FiresAlone s.pool (poolLabels s a) := by
  have hother : (∀ b, a ≠ .work b) → Lts.Along (Pool.step cfg) Pool.FiresAlone s.pool (poolLabels s a) := by
    refine fun ha => Lts.along_of_forall fun b hb t => ?_
    rcases mem_poolLabels hb with ⟨w, m, rfl⟩ | he
    · trivial
    · exact absurd he (ha b)
  cases a with
  | work b => exact ⟨hC, fun _ _ => trivial⟩
  | _ => exact hother nofun

/-- In the service too, verdicts are right when every `fireAllRules` is taken while no other worker is between
its `insert` and its `fireAllRules` with a transaction that satisfies a rule. -/
theorem verdicts_right (hengine : ∀ a ∈ actions, EngineReturns a)
    (hfires : Lts.Along (step cfg) FiresAlone (new n running) actions)
    (h : Lts.run (step cfg) (new n running) actions = some s) : s.pool.engine.VerdictsRight := by
  have hpool : Lts.Along (Pool.step cfg) Pool.FiresAlone (.new n) (poolTrace cfg running actions) :=
    (poolSimulation cfg).along_trace (fun _ _ _ _ hC _ => firesAlone_poolLabels hC)
      Lts.along_true hfires h
  refine Engine.right_of_undisturbed (engine_run hengine h) ?_
  exact (Pool.engineSimulation cfg).along_trace (fun _ _ _ _ hC ht => Pool.undisturbed_of_firesAlone hC ht)
    (Lts.along_of_forall fun b hb _ => engineSafe_poolTrace hengine b hb) hpool (pool_run h)

/-- With a pool of one worker, verdicts are right. -/
theorem verdicts_right_single {actions : List (Action 1)} {s : FraudDetectionService 1}
    (hengine : ∀ a ∈ actions, EngineReturns a) (h : Lts.run (step cfg) (new 1 running) actions = some s) :
    s.pool.engine.VerdictsRight :=
  Engine.right_of_undisturbed (engine_run hengine h)
    (Lts.along_of_forall fun a _ e => Engine.undisturbed_single e a)

/-- Whenever no message is being processed, nothing is pending, each match of a transaction that was inserted
has been alerted exactly once, and nothing else has been. -/
theorem alerts_accounted (hengine : ∀ a ∈ actions, EngineReturns a)
    (h : Lts.run (step cfg) (new n running) actions = some s) (hnone : s.pool.processing = []) :
    s.pool.engine.session.agenda = [] ∧ s.pool.engine.session.fired.Nodup ∧
      (∀ a : Activation, a ∈ s.pool.engine.session.fired ↔
        a.ref ∈ s.pool.engine.session.facts ∧ a.rule.when (s.pool.engine.heap.obj a.ref) = true) ∧
      s.pool.engine.session.shown =
        s.pool.engine.session.fired.map fun a => a.rule.text (s.pool.engine.heap.obj a.ref) := by
  have hwf := engine_wf hengine h
  have hfit := phasesFit_run h
  have hag : s.pool.engine.session.agenda = [] := by
    refine hwf.agenda_idle fun w => hfit.idle fun m hm => ?_
    have hw := Slots.contents_eq_nil.1 hnone w
    rw [hm] at hw; cases hw
  have hnodup := hwf.ledger_nodup
  have hmem := hwf.mem_ledger
  rw [hag, List.append_nil] at hnodup hmem
  exact ⟨hag, hnodup, hmem, hwf.shown⟩

/-- Two workers are inside `evaluate` at once, and the second fires what the first has activated. -/
def takenOverRun (w v : Fin 2) : List (Action 2) :=
  [.startProcessingThread true, .testRunning 0, .receiveMessage 0,
    .receiveReturns 0 [⟨highText, "receipt 1"⟩, ⟨normalText, "receipt 2"⟩], .submit 0, .submit 0,
    .work (.readValue w true), .work (.readValue v true), .work (.insert w), .work (.insert v),
    .work (.fireAllRules v [⟨0, .highTransactionAmount⟩]), .work (.fireAllRules w []),
    .work (.deleteMessage w true), .work (.writeValueAsString v true), .work (.sendMessage v false),
    .work (.deleteMessage v true)]

theorem alerts_accounted_takenOver : ∃ s, Lts.run (step sampleConfig) (new 2 true) (takenOverRun 0 1) = some s ∧
    s.pool.engine.session.fired = [⟨0, .highTransactionAmount⟩] ∧
      s.pool.engine.session.shown =
        [Rule.highTransactionAmount.text (s.pool.engine.heap.obj 0)] := by
  have hrun : (Lts.run (step sampleConfig) (new 2 true) (takenOverRun 0 1)).map
      (fun s => (s.pool.processing, s.pool.engine.session.fired)) = some ([], [⟨0, .highTransactionAmount⟩]) := by decide
  obtain ⟨s, hs, hstate⟩ := Option.map_eq_some_iff.1 hrun
  simp only [Prod.mk.injEq] at hstate
  obtain ⟨hidle, hfired⟩ := hstate
  have hengine : ∀ a ∈ takenOverRun 0 1, EngineReturns a := by
    simp [takenOverRun, EngineReturns, Pool.EngineSafe]
  obtain ⟨-, -, -, hshown⟩ := alerts_accounted hengine hs hidle
  exact ⟨s, hs, hfired, by rw [hshown, hfired]; rfl⟩

end FraudDetectionService

end FraudDetect.Service
