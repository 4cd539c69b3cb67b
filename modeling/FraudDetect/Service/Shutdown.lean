/-
`stopRuning` against the pollers and the workers: when a hand-over is refused, and what has been done
when it returns. It clears `isRunning` and shuts the executor down without waiting for the pollers, and
after ten seconds it gives the queued tasks up.
-/
import FraudDetect.Service.Conservation
import FraudDetect.Service.Pollers

namespace FraudDetect.Service.FraudDetectionService

variable {n : Nat} {cfg : Config} {s s' : FraudDetectionService n} {a : Action n}

/-! ## The progress of `stopRuning` -/

/-- How far `stopRuning` has come says what it has done: the flag first, then the executor; once it has
returned, nothing is queued, and nothing is processed either if it saw the executor terminate. -/
structure Stopping (s : FraudDetectionService n) : Prop where
  flag : s.control ≠ .ready → s.isRunning = false
  shutdown : s.control ≠ .ready → s.control ≠ .flagged → s.shutdown = true
  queue : ∀ b, s.control = .returned b → s.queue = []
  idle : s.control = .returned true → s.pool.processing = []

theorem stopping_of_ready (hc : s.control = .ready) : s.Stopping where
  flag h := absurd hc h
  shutdown h := absurd hc h
  queue b h := by rw [hc] at h; cases h
  idle h := by rw [hc] at h; cases h

theorem Stopping.setPoller (hI : s.Stopping) (p : Nat) (x : Poller) : (s.setPoller p x).Stopping :=
  ⟨hI.flag, hI.shutdown, hI.queue, hI.idle⟩

theorem terminated_iff : s.terminated = true ↔ s.shutdown = true ∧ s.queue = [] ∧ s.pool.processing = [] := by
  simp [terminated, List.isEmpty_iff, and_assoc]

/-- A worker that is processing nothing takes no step of its own. -/
theorem pool_step_processing {pool : Pool n} {a : PoolAction n} (ha : ∀ w m, a ≠ .take w m)
    (h : s.pool.step cfg a = some pool) : s.pool.processing ≠ [] := by
  rcases Pool.step_cases h with ⟨w, m, rfl, -⟩ | ⟨w, m, hw⟩
  · exact absurd rfl (ha w m)
  · intro hnil
    have hm : m ∈ s.pool.processing := Slots.mem_contents.2 ⟨w, hw.message⟩
    rw [hnil] at hm
    cases hm

theorem stopping_step (hI : s.Stopping) (h : s.step cfg a = some s') : s'.Stopping := by
  cases a with
  | startProcessingThread ok =>
    obtain ⟨-, rfl⟩ := step_startProcessingThread.1 h
    exact stopping_of_ready rfl
  | setRunning running =>
    obtain ⟨-, rfl⟩ := step_setRunning.1 h
    exact stopping_of_ready rfl
  | stopRuning =>
    obtain ⟨-, rfl⟩ := step_stopRuning.1 h
    refine ⟨fun _ => rfl, fun _ hc => absurd rfl hc, ?_, ?_⟩
    · intro b hc; cases hc
    · intro hc; cases hc
  | shutdown =>
    obtain ⟨hc, rfl⟩ := step_shutdown.1 h
    refine ⟨fun _ => hI.flag (by rw [hc]; decide), fun _ _ => rfl, ?_, ?_⟩
    · intro b hb; cases hb
    · intro hb; cases hb
  | awaitTermination result =>
    obtain ⟨hc, hterm, rfl⟩ := step_awaitTermination.1 h
    have hflag : s.isRunning = false := hI.flag (by rw [hc]; decide)
    have hsd : s.shutdown = true := hI.shutdown (by rw [hc]; decide) (by rw [hc]; decide)
    cases result with
    | terminated =>
      obtain ⟨-, hq, hp⟩ := terminated_iff.1 (hterm rfl)
      exact ⟨fun _ => hflag, fun _ _ => hsd, fun _ _ => hq, fun _ => hp⟩
    | timedOut =>
      refine ⟨fun _ => hflag, fun _ _ => hsd, ?_, ?_⟩
      · intro b hb; cases hb
      · intro hb; cases hb
    | interrupted =>
      refine ⟨fun _ => hflag, fun _ _ => hsd, ?_, ?_⟩
      · intro b hb; cases hb
      · intro hb; cases hb
  | shutdownNow =>
    obtain ⟨hc, rfl⟩ := step_shutdownNow.1 h
    have hne : s.control ≠ .ready := by rcases hc with hc | hc <;> rw [hc] <;> decide
    refine ⟨fun _ => hI.flag hne, fun _ _ => rfl, fun _ _ => rfl, ?_⟩
    intro hb; cases hb
  | submit p =>
    rcases step_submit.1 h with ⟨-, rfl⟩ | ⟨m, rest, -, ⟨-, rfl⟩ | ⟨hsd, rfl⟩⟩
    · exact hI.setPoller p _
    · exact ⟨hI.flag, hI.shutdown, hI.queue, hI.idle⟩
    · -- an executor that accepts has not been shut down, so no `stopRuning` has got that far
      obtain ⟨hrun, hcon, hsd', -⟩ := step_frame rfl h
      have hno : ∀ b, s.control ≠ .returned b := by
        intro b hc
        have hsd₁ := hI.shutdown (by rw [hc]; intro hb; cases hb) (by rw [hc]; intro hb; cases hb)
        rw [hsd] at hsd₁; cases hsd₁
      refine ⟨?_, ?_, ?_, ?_⟩
      · rw [hrun, hcon]; exact hI.flag
      · rw [hcon, hsd']; exact hI.shutdown
      · rw [hcon]; exact fun b hc => absurd hc (hno b)
      · rw [hcon]; exact fun hc => absurd hc (hno true)
  | takeTask w =>
    obtain ⟨m, queue, hq, -, rfl⟩ := step_takeTask.1 h
    have hno : ∀ b, s.control ≠ .returned b := by
      intro b hc
      have hnil := hI.queue b hc
      rw [hq] at hnil; cases hnil
    exact ⟨hI.flag, hI.shutdown, fun b hc => absurd hc (hno b), fun hc => absurd hc (hno true)⟩
  | work a =>
    obtain ⟨ha, pool, hp, rfl⟩ := step_work.1 h
    exact ⟨hI.flag, hI.shutdown, hI.queue, fun hc => absurd (hI.idle hc) (pool_step_processing ha hp)⟩
  | testRunning p => obtain ⟨-, rfl⟩ := step_testRunning.1 h; exact hI.setPoller p _
  | receiveMessage p => obtain ⟨-, rfl⟩ := step_receiveMessage.1 h; exact hI.setPoller p _
  | receiveReturns p batch =>
    obtain ⟨-, rfl⟩ := step_receiveReturns.1 h
    exact ⟨hI.flag, hI.shutdown, hI.queue, hI.idle⟩
  | receiveThrows p => obtain ⟨-, rfl⟩ := step_receiveThrows.1 h; exact hI.setPoller p _
  | sleep p interrupted => obtain ⟨-, rfl⟩ := step_sleep.1 h; exact hI.setPoller p _

theorem stopping_run {running : Bool} {actions : List (Action n)}
    (h : Lts.run (step cfg) (new n running) actions = some s) : s.Stopping :=
  Lts.run_inv (fun _ _ _ hI => stopping_step hI) (stopping_of_ready rfl) h

/-! ## Handing over -/

/-- Nothing has been refused, and nothing is held that can only be refused. -/
def Intact (s : FraudDetectionService n) : Prop := s.refused = [] ∧ (s.shutdown = true → s.held = [])

/-- The executor is shut down while no poller holds a message, and a poll that returns after that
returns none. -/
def HandsOver (s : FraudDetectionService n) : Action n → Prop
  | .shutdown => s.held = []
  | .receiveReturns _ batch => s.shutdown = true → batch = []
  | _ => True

instance (s : FraudDetectionService n) (a : Action n) : Decidable (HandsOver s a) :=
  match a with
  | .shutdown => inferInstanceAs (Decidable (s.held = []))
  | .receiveReturns _ batch => inferInstanceAs (Decidable (s.shutdown = true → batch = []))
  | .startProcessingThread _ | .setRunning _ | .stopRuning | .awaitTermination _ | .shutdownNow | .testRunning _
  | .receiveMessage _ | .receiveThrows _ | .submit _ | .sleep .. | .takeTask _ | .work _ => .isTrue trivial

theorem eq_nil_iff_of_perm {l l' : List Message} (h : l.Perm l') : l = [] ↔ l' = [] :=
  List.perm_nil.symm.trans ((h.congr_left []).trans List.perm_nil)

theorem intact_congr (ha : HandsOver s a) (hr : s'.refused = s.refused) (hs : s'.shutdown = s.shutdown)
    (hh : s'.held.Perm s.held) : s'.Intact ↔ s.Intact ∧ HandsOver s a := by
  rw [and_iff_left ha]
  unfold Intact
  rw [hr, hs, eq_nil_iff_of_perm hh]

theorem intact_step (hI : s.Stopping) (h : s.step cfg a = some s') : s'.Intact ↔ s.Intact ∧ HandsOver s a := by
  cases a with
  | startProcessingThread ok =>
    have hheld := held_startProcessingThread h
    obtain ⟨-, rfl⟩ := step_startProcessingThread.1 h
    exact intact_congr trivial rfl rfl (.of_eq hheld)
  | setRunning running =>
    obtain ⟨-, rfl⟩ := step_setRunning.1 h
    exact intact_congr trivial rfl rfl (.refl _)
  | stopRuning =>
    obtain ⟨-, rfl⟩ := step_stopRuning.1 h
    exact intact_congr trivial rfl rfl (.refl _)
  | shutdown =>
    obtain ⟨-, rfl⟩ := step_shutdown.1 h
    show s.refused = [] ∧ (true = true → s.held = []) ↔ s.Intact ∧ s.held = []
    unfold Intact
    tauto
  | awaitTermination result =>
    obtain ⟨-, -, rfl⟩ := step_awaitTermination.1 h
    exact intact_congr trivial rfl rfl (.refl _)
  | shutdownNow =>
    obtain ⟨hc, rfl⟩ := step_shutdownNow.1 h
    have hsd : s.shutdown = true := by
      apply hI.shutdown <;> rcases hc with hc | hc <;> rw [hc] <;> decide
    exact intact_congr trivial rfl hsd.symm (.refl _)
  | testRunning p =>
    obtain ⟨hp, rfl⟩ := step_testRunning.1 h
    have hheld := held_setPoller_of_eq (x := if s.isRunning then .polling else .exited) hp (by split <;> rfl)
    exact intact_congr trivial rfl rfl hheld
  | receiveMessage p =>
    obtain ⟨hp, rfl⟩ := step_receiveMessage.1 h
    exact intact_congr trivial rfl rfl (held_setPoller_of_eq hp rfl)
  | receiveReturns p batch =>
    obtain ⟨hp, rfl⟩ := step_receiveReturns.1 h
    have hheld : (s.setPoller p (.submitting batch)).held.Perm (batch ++ s.held) :=
      held_setPoller (x := .submitting batch) hp
    show s.refused = [] ∧ (s.shutdown = true → (s.setPoller p (.submitting batch)).held = []) ↔
      s.Intact ∧ (s.shutdown = true → batch = [])
    rw [eq_nil_iff_of_perm hheld, List.append_eq_nil_iff]
    unfold Intact
    tauto
  | receiveThrows p =>
    obtain ⟨hp, rfl⟩ := step_receiveThrows.1 h
    exact intact_congr trivial rfl rfl (held_setPoller_of_eq hp rfl)
  | submit p =>
    rcases step_submit.1 h with ⟨hp, rfl⟩ | ⟨m, rest, hp, ⟨hsd, rfl⟩ | ⟨hsd, rfl⟩⟩
    · exact intact_congr trivial rfl rfl (held_setPoller_of_eq hp rfl)
    · -- what is refused now was held after the shutdown
      have hm : m ∈ s.held :=
        List.mem_flatMap.2 ⟨_, List.mem_of_getElem? hp, List.mem_cons_self ..⟩
      apply iff_of_false
      · rintro ⟨hr, -⟩
        exact List.cons_ne_nil _ _ (List.append_eq_nil_iff.1 hr).2
      · rintro ⟨⟨-, hnil⟩, -⟩
        rw [hnil hsd] at hm; cases hm
    · have hr : ((s.setPoller p (.submitting rest)).accept m).refused = s.refused := by
        rcases accept_cases (s.setPoller p (.submitting rest)) m with ⟨w, -, ha⟩ | ⟨-, ha⟩ <;> rw [ha] <;> rfl
      obtain ⟨-, -, hsd', -⟩ := step_frame rfl h
      unfold Intact
      rw [hr, hsd', hsd]
      simp [HandsOver]
  | sleep p interrupted =>
    obtain ⟨hp, rfl⟩ := step_sleep.1 h
    exact intact_congr trivial rfl rfl (held_setPoller_of_eq hp rfl)
  | takeTask w =>
    obtain ⟨m, queue, -, -, rfl⟩ := step_takeTask.1 h
    exact intact_congr trivial rfl rfl (.refl _)
  | work a =>
    obtain ⟨-, pool, -, rfl⟩ := step_work.1 h
    exact intact_congr trivial rfl rfl (.refl _)

/-- No hand-over was refused: what was received is accepted, or still held by a poller. -/
def HandedOver (s : FraudDetectionService n) : Prop :=
  s.refused = [] ∧ s.received.Perm (s.held ++ s.accepted)

/-- When the executor is shut down while no poller holds a message, and every later poll returns none, no
hand-over is ever refused; and in a run that ends with no message held, that is also necessary. -/
theorem handed_over_iff (n : Nat) (cfg : Config) (running : Bool) (actions : List (Action n))
    (s : FraudDetectionService n) (h : Lts.run (step cfg) (new n running) actions = some s) :
    (Lts.Along (step cfg) HandsOver (new n running) actions → Lts.Always (step cfg) HandedOver (new n running) actions) ∧
      (s.held = [] → (Lts.Always (step cfg) HandedOver (new n running) actions ↔
        Lts.Along (step cfg) HandsOver (new n running) actions)) := by
  have hnew : (new n running).Stopping ∧ (new n running).Accounted cfg ∧ (new n running).Intact :=
    ⟨stopping_of_ready rfl, accounted_new running, rfl, fun _ => rfl⟩
  have hforward : Lts.Along (step cfg) HandsOver (new n running) actions →
      Lts.Always (step cfg) HandedOver (new n running) actions := by
    intro hC
    have hall := Lts.always_of_along (I := fun t => t.Stopping ∧ t.Accounted cfg ∧ t.Intact) (C := HandsOver)
      (fun t a t' hI hC ht => ⟨stopping_step hI.1 ht, accounted_step hI.2.1 ht, (intact_step hI.1 ht).2 ⟨hI.2.2, hC⟩⟩)
      hnew hC
    refine hall.mono fun t ht => ⟨ht.2.2.1, ?_⟩
    have hrec := ht.2.1.received
    rwa [ht.2.2.1, List.append_nil] at hrec
  refine ⟨hforward, fun hheld => ⟨fun hall => ?_, hforward⟩⟩
  have hlast := Lts.always_iff.1 hall actions (List.prefix_refl _) s h
  have hintact : s.Intact := ⟨hlast.1, fun _ => hheld⟩
  exact ((Lts.inv_iff_along (fun _ _ _ hI => stopping_step hI) (fun _ _ _ hI => intact_step hI) hnew.1 h).1 hintact).2

/-- The poller has submitted its batch and seen the flag before the executor is shut down. -/
def drainedRun (w : Fin n) : List (Action n) :=
  [.startProcessingThread true, .testRunning 0, .receiveMessage 0,
    .receiveReturns 0 [⟨"BAD_JSON_OBJECT", "receipt 1"⟩], .submit 0, .submit 0, .stopRuning, .sleep 0 false,
    .testRunning 0, .work (.readValue w true), .shutdown, .work (.deleteMessage w true),
    .awaitTermination .terminated]

theorem handed_over_drained : Lts.Always (step sampleConfig) HandedOver (new 1 true) (drainedRun 0) :=
  (handed_over_iff 1 sampleConfig true (drainedRun 0) _ rfl).1 (by decide)

/-- When the executor is shut down between two `submit` calls, the rest of the batch is refused. -/
theorem handover_refused : ¬ ∀ (n : Nat) (cfg : Config) (running : Bool) (actions : List (Action n))
    (s : FraudDetectionService n), Lts.run (step cfg) (new n running) actions = some s → s.HandedOver := by
  intro h
  obtain ⟨hr, -⟩ := h 1 sampleConfig true halfSubmittedRun _ rfl
  cases hr

/-! ## What has been done when `stopRuning` returns -/

/-- Poller `p` is not in a poll. -/
def Settled (s : FraudDetectionService n) (p : Nat) : Prop := ∃ y, s.pollers[p]? = some y ∧ y.outsidePoll = true

theorem isRunning_false_step (ha : a ≠ .setRunning true) (hrun : s.isRunning = false) (h : s.step cfg a = some s') :
    s'.isRunning = false := by
  cases a with
  | setRunning running =>
    obtain ⟨-, rfl⟩ := step_setRunning.1 h
    cases running
    · rfl
    · exact absurd rfl ha
  | stopRuning => obtain ⟨-, rfl⟩ := step_stopRuning.1 h; rfl
  | _ => exact (isRunning_step rfl h).trans hrun

/-- A stopped poller begins no poll. -/
theorem settled_step {p : Nat} (hrun : s.isRunning = false) (hp : s.Settled p) (h : s.step cfg a = some s') :
    s'.Settled p := by
  obtain ⟨y, hy, hout⟩ := hp
  rcases pollers_step h with he | ⟨-, hr, -⟩ | ⟨q, z, x, hq, -, he, -, hx⟩
  · exact ⟨y, by rw [he]; exact hy, hout⟩
  · rw [hrun] at hr; cases hr
  · by_cases hqp : q = p
    · subst hqp
      rw [hy] at hq; cases hq
      refine ⟨x, ?_, ?_⟩
      · rw [he, List.getElem?_set_self (List.getElem?_eq_some_iff.1 hy).1]
      · rcases hx hout with hx | hx
        · exact hx
        · rw [hrun] at hx; cases hx
    · exact ⟨y, by rw [he, List.getElem?_set_ne hqp]; exact hy, hout⟩

/-- Poller `p` calls `receiveMessage`. -/
def polls (p : Nat) : Action n → Bool
  | .receiveMessage q => q == p
  | _ => false

/-- How often poller `p` can still call `receiveMessage` when the flag is cleared: once if it has read the flag before
and is about to call. -/
def pollsLeft (s : FraudDetectionService n) (p : Nat) : Nat := if s.pollers[p]? = some .polling then 1 else 0

theorem polling_of_set {l : List Poller} {p q : Nat} {x : Poller} (hx : x ≠ .polling)
    (h : (l.set q x)[p]? = some .polling) : q ≠ p ∧ l[p]? = some .polling := by
  by_cases hqp : q = p
  · subst hqp
    rw [List.getElem?_set_self'] at h
    obtain ⟨y, -, hy⟩ := Option.map_eq_some_iff.1 h
    exact absurd hy hx
  · rw [List.getElem?_set_ne hqp] at h
    exact ⟨hqp, h⟩

/-- Once the flag is cleared, a poller about to call `receiveMessage` was so before and has not called it yet. -/
theorem polling_of_step {p : Nat} (hrun : s.isRunning = false) (h : s.step cfg a = some s')
    (hp : s'.pollers[p]? = some .polling) : s.pollers[p]? = some .polling ∧ polls p a = false := by
  cases a with
  | startProcessingThread ok =>
    obtain ⟨-, rfl⟩ := step_startProcessingThread.1 h
    simp only [hrun, Bool.false_and, Bool.false_eq_true, if_false, List.append_nil] at hp
    exact ⟨hp, rfl⟩
  | setRunning running => obtain ⟨-, rfl⟩ := step_setRunning.1 h; exact ⟨hp, rfl⟩
  | stopRuning => obtain ⟨-, rfl⟩ := step_stopRuning.1 h; exact ⟨hp, rfl⟩
  | shutdown => obtain ⟨-, rfl⟩ := step_shutdown.1 h; exact ⟨hp, rfl⟩
  | awaitTermination result => obtain ⟨-, -, rfl⟩ := step_awaitTermination.1 h; exact ⟨hp, rfl⟩
  | shutdownNow => obtain ⟨-, rfl⟩ := step_shutdownNow.1 h; exact ⟨hp, rfl⟩
  | testRunning q =>
    obtain ⟨-, rfl⟩ := step_testRunning.1 h
    rw [hrun, if_neg Bool.false_ne_true] at hp
    exact ⟨(polling_of_set (x := .exited) nofun hp).2, rfl⟩
  | receiveMessage q =>
    obtain ⟨-, rfl⟩ := step_receiveMessage.1 h
    obtain ⟨hqp, hp⟩ := polling_of_set (x := .receiving) nofun hp
    exact ⟨hp, beq_false_of_ne hqp⟩
  | receiveReturns q batch =>
    obtain ⟨-, rfl⟩ := step_receiveReturns.1 h
    exact ⟨(polling_of_set (x := .submitting batch) nofun hp).2, rfl⟩
  | receiveThrows q => obtain ⟨-, rfl⟩ := step_receiveThrows.1 h; exact ⟨(polling_of_set (x := .died) nofun hp).2, rfl⟩
  | submit q =>
    rcases step_submit.1 h with ⟨-, rfl⟩ | ⟨m, rest, -, ⟨-, rfl⟩ | ⟨-, rfl⟩⟩
    · exact ⟨(polling_of_set (x := .sleeping) nofun hp).2, rfl⟩
    · exact ⟨(polling_of_set (x := .died) nofun hp).2, rfl⟩
    · have hpollers : ((s.setPoller q (.submitting rest)).accept m).pollers = s.pollers.set q (.submitting rest) := by
        rcases accept_cases (s.setPoller q (.submitting rest)) m with ⟨w, -, ha⟩ | ⟨-, ha⟩ <;> rw [ha] <;> rfl
      rw [hpollers] at hp
      exact ⟨(polling_of_set (x := .submitting rest) nofun hp).2, rfl⟩
  | sleep q interrupted => obtain ⟨-, rfl⟩ := step_sleep.1 h; exact ⟨(polling_of_set (x := .testing) nofun hp).2, rfl⟩
  | takeTask w => obtain ⟨m, queue, -, -, rfl⟩ := step_takeTask.1 h; exact ⟨hp, rfl⟩
  | work a => obtain ⟨-, pool, -, rfl⟩ := step_work.1 h; exact ⟨hp, rfl⟩

/-- Every `receiveMessage` is one that was left. -/
theorem pollsLeft_step {p : Nat} (hrun : s.isRunning = false) (h : s.step cfg a = some s') :
    (if polls p a = true then 1 else 0) + s'.pollsLeft p ≤ s.pollsLeft p := by
  unfold pollsLeft
  by_cases hp : s'.pollers[p]? = some .polling
  · obtain ⟨hp', ha⟩ := polling_of_step hrun h hp
    rw [if_pos hp, if_pos hp', ha]
    simp
  · rw [if_neg hp]
    split
    · rename_i ha
      cases a with
      | receiveMessage q =>
        obtain ⟨hq, -⟩ := step_receiveMessage.1 h
        rw [eq_of_beq ha] at hq
        rw [if_pos hq]
      | _ => cases ha
    · exact Nat.zero_le _

theorem discarded_step (ha : a ≠ .shutdownNow) (h : s.step cfg a = some s') : s'.discarded = s.discarded := by
  cases a with
  | startProcessingThread ok => obtain ⟨-, rfl⟩ := step_startProcessingThread.1 h; rfl
  | setRunning running => obtain ⟨-, rfl⟩ := step_setRunning.1 h; rfl
  | stopRuning => obtain ⟨-, rfl⟩ := step_stopRuning.1 h; rfl
  | shutdown => obtain ⟨-, rfl⟩ := step_shutdown.1 h; rfl
  | awaitTermination result => obtain ⟨-, -, rfl⟩ := step_awaitTermination.1 h; rfl
  | shutdownNow => exact absurd rfl ha
  | _ => exact (step_frame rfl h).2.2.2

/-- When `stopRuning` has returned, the flag is cleared, the executor is shut down and nothing is queued;
every accepted task has been run to its end, is running, or was discarded by `shutdownNow`. If the
executor terminated in time no task is running, and none was discarded unless an earlier call gave up.
Until `setRunning(true)` is called, a poller that is outside a poll begins none, and no poller calls
`receiveMessage` but one that is about to at that moment, which calls it once at most. -/
theorem stop_returned (n : Nat) (cfg : Config) (running : Bool) (actions : List (Action n))
    (s : FraudDetectionService n) (b : Bool) (h : Lts.run (step cfg) (new n running) actions = some s)
    (hc : s.control = .returned b) :
    s.isRunning = false ∧ s.shutdown = true ∧ s.queue = [] ∧
      s.accepted.Perm (s.pool.finished ++ s.pool.processing ++ s.discarded) ∧
      (b = true → s.pool.processing = [] ∧ (.shutdownNow ∉ actions → s.accepted.Perm s.pool.finished)) ∧
      ∀ p later t, (∀ a ∈ later, a ≠ .setRunning true) → Lts.run (step cfg) s later = some t →
        (s.Settled p → t.Settled p) ∧
          later.countP (polls p) ≤ if s.pollers[p]? = some .polling then 1 else 0 := by
  have hI := stopping_run h
  have hrun : s.isRunning = false := hI.flag (by rw [hc]; nofun)
  have hsd : s.shutdown = true := hI.shutdown (by rw [hc]; nofun) (by rw [hc]; nofun)
  have hq : s.queue = [] := hI.queue b hc
  have hA := accounted_run h
  have hacc : s.accepted.Perm (s.pool.finished ++ s.pool.processing ++ s.discarded) := by
    refine hA.accepted.trans ?_
    rw [hq, List.nil_append]
    exact (hA.pool.assigned.trans List.perm_append_comm).append_right _
  refine ⟨hrun, hsd, hq, hacc, ?_, ?_⟩
  · rintro rfl
    have hp := hI.idle hc
    refine ⟨hp, fun hno => ?_⟩
    have hd : s.discarded = [] := by
      refine Lts.run_inv_along (C := fun _ a => a ≠ .shutdownNow) (I := fun t => t.discarded = []) ?_ rfl ?_ h
      · intro t a t' ht ha hs
        exact (discarded_step ha hs).trans ht
      · apply Lts.along_of_forall
        rintro a ha - rfl
        exact hno ha
    rwa [hp, hd, List.append_nil, List.append_nil] at hacc
  · intro p later t hlater ht
    have halong : Lts.Along (step cfg) (fun _ a => a ≠ .setRunning true) s later :=
      Lts.along_of_forall fun a ha _ => hlater a ha
    refine ⟨fun hp => ?_, ?_⟩
    · have hend := Lts.run_inv_along (I := fun t => t.isRunning = false ∧ t.Settled p)
        (fun t a t' hI ha hs => ⟨isRunning_false_step ha hI.1 hs, settled_step hI.1 hI.2 hs⟩) ⟨hrun, hp⟩ halong ht
      exact hend.2
    · have hcount := Lts.countP_add_le (p := polls p) (μ := fun t => t.pollsLeft p)
        (fun t a t' hI ha hs => isRunning_false_step ha hI hs) (fun t a t' hI _ hs => pollsLeft_step hI hs) hrun halong ht
      exact (Nat.le_add_right ..).trans hcount

theorem stop_returned_drained : ∃ s, Lts.run (step sampleConfig) (new 1 true) (drainedRun 0) = some s ∧
    s.pool.processing = [] ∧ s.accepted.Perm s.pool.finished := by
  have hcontrol : (Lts.run (step sampleConfig) (new 1 true) (drainedRun 0)).map control = some (.returned true) := by
    decide
  obtain ⟨s, hs, hc⟩ := Option.map_eq_some_iff.1 hcontrol
  obtain ⟨-, -, -, -, hdone, -⟩ := stop_returned 1 sampleConfig true (drainedRun 0) s true hs hc
  obtain ⟨hp, hacc⟩ := hdone rfl
  exact ⟨s, hs, hp, hacc (by simp [drainedRun])⟩

/-- Two tasks on one worker, which does not finish the first in time: `stopRuning` returns while it runs,
the second has been discarded, and the poller, which has read the flag before, is about to poll again. -/
def timedOutRun : List (Action 1) :=
  [.startProcessingThread true, .testRunning 0, .receiveMessage 0,
    .receiveReturns 0 [⟨"BAD_JSON_OBJECT", "receipt 1"⟩, ⟨"null", "receipt 2"⟩], .submit 0, .submit 0, .submit 0,
    .sleep 0 false, .testRunning 0, .stopRuning, .shutdown, .awaitTermination .timedOut, .shutdownNow]

/-- When `stopRuning` has returned, a poll may be in progress, a `receiveMessage` may follow, a message may be in
processing and an accepted task may never be run, all at once: no run need satisfy even one part of a complete shutdown. -/
theorem stop_returned_early : ¬ ∀ (n : Nat) (cfg : Config) (running : Bool) (actions : List (Action n))
    (s : FraudDetectionService n) (b : Bool), Lts.run (step cfg) (new n running) actions = some s →
    s.control = .returned b →
    (∀ p, p < s.pollers.length → s.Settled p) ∨
      (∀ p later t, (∀ a ∈ later, a ≠ .setRunning true) → Lts.run (step cfg) s later = some t →
        later.countP (polls p) = 0) ∨
      s.pool.processing = [] ∨ s.accepted.Perm s.pool.finished := by
  intro h
  rcases h 1 sampleConfig true timedOutRun _ false rfl rfl with hsettled | hpolls | hp | hacc
  · obtain ⟨y, hy, hout⟩ := hsettled 0 (by decide)
    cases hy
    cases hout
  · have hnone := hpolls 0 [.receiveMessage 0] _ (by simp) rfl
    cases hnone
  · cases hp
  · have hlen := hacc.length_eq
    cases hlen

end FraudDetect.Service.FraudDetectionService
