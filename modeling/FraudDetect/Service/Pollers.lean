/-
The polling threads: what a step does to them, what a poller survives, and how many of them are
alive. Only `InterruptedException` is caught inside the loop, and `startProcessingThread` tests
`isRunning` without claiming it.
-/
import FraudDetect.Service.Lifecycle

namespace FraudDetect.Service.FraudDetectionService

variable {n : Nat} {cfg : Config} {s s' : FraudDetectionService n} {a : Action n} {p : Nat}

/-! ## What a step does to the pollers -/

/-- Poller `p` gets through the step: its `receiveMessage` does not throw, and it hands nothing to an
executor that has been shut down. -/
def Survives (p : Nat) (s : FraudDetectionService n) : Action n → Prop
  | .receiveThrows q => q ≠ p
  | .submit q => q = p → s.shutdown = true → s.pollers[p]? = some (.submitting [])
  | _ => True

instance (p : Nat) (s : FraudDetectionService n) (a : Action n) : Decidable (Survives p s a) :=
  match a with
  | .receiveThrows q => inferInstanceAs (Decidable (q ≠ p))
  | .submit q => inferInstanceAs (Decidable (q = p → s.shutdown = true → s.pollers[p]? = some (.submitting [])))
  | .startProcessingThread _ | .setRunning _ | .stopRuning | .shutdown | .awaitTermination _ | .shutdownNow
  | .testRunning _ | .receiveMessage _ | .receiveReturns .. | .sleep .. | .takeTask _ | .work _ => .isTrue trivial

/-- A step leaves the pollers alone, starts one, or moves a live one, which then ends only when
`isRunning` is false or by an exception it does not survive, and begins a poll only when `isRunning`
is true. -/
theorem pollers_step (h : s.step cfg a = some s') :
    s'.pollers = s.pollers ∨
      (a = .startProcessingThread true ∧ s.isRunning = true ∧ s'.pollers = s.pollers ++ [.testing]) ∨
      ∃ p y x, s.pollers[p]? = some y ∧ y.alive = true ∧ s'.pollers = s.pollers.set p x ∧
        (x.alive = true ∨ s.isRunning = false ∨ ¬ Survives p s a) ∧
        (y.outsidePoll = true → x.outsidePoll = true ∨ s.isRunning = true) := by
  cases a with
  | startProcessingThread ok =>
    obtain ⟨-, rfl⟩ := step_startProcessingThread.1 h
    cases hr : s.isRunning <;> cases ok <;> simp
  | setRunning running => obtain ⟨-, rfl⟩ := step_setRunning.1 h; exact .inl rfl
  | stopRuning => obtain ⟨-, rfl⟩ := step_stopRuning.1 h; exact .inl rfl
  | shutdown => obtain ⟨-, rfl⟩ := step_shutdown.1 h; exact .inl rfl
  | awaitTermination result => obtain ⟨-, -, rfl⟩ := step_awaitTermination.1 h; exact .inl rfl
  | shutdownNow => obtain ⟨-, rfl⟩ := step_shutdownNow.1 h; exact .inl rfl
  | testRunning p =>
    obtain ⟨hp, rfl⟩ := step_testRunning.1 h
    refine .inr (.inr ⟨p, _, _, hp, rfl, rfl, ?_⟩)
    cases s.isRunning
    · exact ⟨.inr (.inl rfl), fun _ => .inl rfl⟩
    · exact ⟨.inl rfl, fun _ => .inr rfl⟩
  | receiveMessage p =>
    obtain ⟨hp, rfl⟩ := step_receiveMessage.1 h
    exact .inr (.inr ⟨p, _, _, hp, rfl, rfl, .inl rfl, nofun⟩)
  | receiveReturns p batch =>
    obtain ⟨hp, rfl⟩ := step_receiveReturns.1 h
    exact .inr (.inr ⟨p, _, _, hp, rfl, rfl, .inl rfl, nofun⟩)
  | receiveThrows p =>
    obtain ⟨hp, rfl⟩ := step_receiveThrows.1 h
    exact .inr (.inr ⟨p, _, _, hp, rfl, rfl, .inr (.inr fun hs => hs rfl), nofun⟩)
  | submit p =>
    rcases step_submit.1 h with ⟨hp, rfl⟩ | ⟨m, rest, hp, ⟨hsd, rfl⟩ | ⟨-, rfl⟩⟩
    · exact .inr (.inr ⟨p, _, _, hp, rfl, rfl, .inl rfl, nofun⟩)
    · refine .inr (.inr ⟨p, _, _, hp, rfl, rfl, .inr (.inr fun hs => ?_), nofun⟩)
      have hnil := hs rfl hsd
      rw [hp] at hnil; cases hnil
    · refine .inr (.inr ⟨p, _, .submitting rest, hp, rfl, ?_, .inl rfl, nofun⟩)
      rcases accept_cases (s.setPoller p (.submitting rest)) m with ⟨w, -, ha⟩ | ⟨-, ha⟩ <;> rw [ha] <;> rfl
  | sleep p interrupted =>
    obtain ⟨hp, rfl⟩ := step_sleep.1 h
    exact .inr (.inr ⟨p, _, _, hp, rfl, rfl, .inl rfl, fun _ => .inl rfl⟩)
  | takeTask w => obtain ⟨m, queue, -, -, rfl⟩ := step_takeTask.1 h; exact .inl rfl
  | work a => obtain ⟨-, pool, -, rfl⟩ := step_work.1 h; exact .inl rfl

/-! ## One poller -/

/-- Poller `p` has been started and is in its loop. -/
def PollerAlive (s : FraudDetectionService n) (p : Nat) : Prop := ∃ y, s.pollers[p]? = some y ∧ y.alive = true

theorem alive_of_survives (hrun : s.isRunning = true) (hp : s.PollerAlive p) (hs : Survives p s a)
    (h : s.step cfg a = some s') : s'.PollerAlive p := by
  obtain ⟨y, hy, hal⟩ := hp
  rcases pollers_step h with he | ⟨-, -, he⟩ | ⟨q, z, x, hq, -, he, hx, -⟩
  · exact ⟨y, by rw [he]; exact hy, hal⟩
  · refine ⟨y, ?_, hal⟩
    rw [he, List.getElem?_append_left (List.getElem?_eq_some_iff.1 hy).1]
    exact hy
  · by_cases hqp : q = p
    · subst hqp
      refine ⟨x, ?_, ?_⟩
      · rw [he, List.getElem?_set_self (List.getElem?_eq_some_iff.1 hy).1]
      · rcases hx with hx | hx | hx
        · exact hx
        · rw [hrun] at hx; cases hx
        · exact absurd hs hx
    · exact ⟨y, by rw [he, List.getElem?_set_ne hqp]; exact hy, hal⟩

theorem dead_of_not_survives (hs : ¬ Survives p s a) (h : s.step cfg a = some s') : ¬ s'.PollerAlive p := by
  have hdied : s'.pollers[p]? = some .died := by
    cases a with
    | receiveThrows q =>
      obtain ⟨hq, rfl⟩ := step_receiveThrows.1 h
      have hqp : q = p := by simpa [Survives] using hs
      subst hqp
      exact List.getElem?_set_self (List.getElem?_eq_some_iff.1 hq).1
    | submit q =>
      simp only [Survives, Classical.not_imp] at hs
      obtain ⟨rfl, hsd, hne⟩ := hs
      rcases step_submit.1 h with ⟨hq, -⟩ | ⟨m, rest, hq, ⟨-, rfl⟩ | ⟨hsd', -⟩⟩
      · exact absurd hq hne
      · exact List.getElem?_set_self (List.getElem?_eq_some_iff.1 hq).1
      · rw [hsd] at hsd'; cases hsd'
    | _ => exact absurd trivial hs
  rintro ⟨y, hy, hal⟩
  rw [hdied] at hy
  cases hy; cases hal

/-- The lifecycle calls that write `isRunning`. -/
def setsRunning : Action n → Bool
  | .setRunning _ => true
  | .stopRuning => true
  | _ => false

theorem isRunning_step (ha : setsRunning a = false) (h : s.step cfg a = some s') : s'.isRunning = s.isRunning := by
  cases a with
  | startProcessingThread ok => obtain ⟨-, rfl⟩ := step_startProcessingThread.1 h; rfl
  | setRunning running => cases ha
  | stopRuning => cases ha
  | shutdown => obtain ⟨-, rfl⟩ := step_shutdown.1 h; rfl
  | awaitTermination result => obtain ⟨-, -, rfl⟩ := step_awaitTermination.1 h; rfl
  | shutdownNow => obtain ⟨-, rfl⟩ := step_shutdownNow.1 h; rfl
  | _ => exact (step_frame rfl h).1

/-- After a start that found `isRunning` true, and as long as neither `setRunning` nor `stopRuning` is
called: the poller started is alive in every state in which `isRunning` is true, exactly when every
step is one it survives. -/
theorem poller_alive_iff (n : Nat) (cfg : Config) (s s₁ s₂ : FraudDetectionService n) (actions : List (Action n))
    (hrun : s.isRunning = true) (hstart : s.step cfg (.startProcessingThread true) = some s₁)
    (hcalls : ∀ a ∈ actions, setsRunning a = false) (h : Lts.run (step cfg) s₁ actions = some s₂) :
    Lts.Always (step cfg) (fun t => t.isRunning = true → t.PollerAlive s.pollers.length) s₁ actions ↔
      Lts.Along (step cfg) (Survives s.pollers.length) s₁ actions := by
  have hrun₁ : s₁.isRunning = true := (isRunning_step rfl hstart).trans hrun
  have halive₁ : s₁.PollerAlive s.pollers.length := by
    obtain ⟨-, rfl⟩ := step_startProcessingThread.1 hstart
    refine ⟨.testing, ?_, rfl⟩
    show (s.pollers ++ if s.isRunning && true then [Poller.testing] else [])[s.pollers.length]? = some .testing
    rw [hrun]
    exact List.getElem?_concat_length ..
  refine Lts.always_iff_along (J := fun t => t.isRunning = true) (L := fun a => setsRunning a = false) ?_ ?_ hcalls hrun₁
    (fun _ => halive₁) h
  · intro t a t' ha hj ht
    exact (isRunning_step ha ht).trans hj
  · intro t a t' ha hj hi ht
    constructor
    · intro hi'
      by_contra hs
      exact dead_of_not_survives hs ht (hi' ((isRunning_step ha ht).trans hj))
    · intro hs _
      exact alive_of_survives hj (hi hj) hs ht

/-- A poll that returns a message, with the poller back at its loop test. -/
def pollRun : List (Action 1) :=
  [.testRunning 0, .receiveMessage 0, .receiveReturns 0 [⟨"null", "receipt 1"⟩], .submit 0, .submit 0,
    .sleep 0 false]

theorem poller_alive_poll : Lts.Always (step sampleConfig)
    (fun t => t.isRunning = true → t.PollerAlive 0)
    { new 1 true with pollers := [.testing] } pollRun := by
  refine (poller_alive_iff 1 sampleConfig (new 1 true) _ _ pollRun rfl rfl ?_ rfl).2 ?_
  · decide
  · decide

/-- An unchecked exception from the first `receiveMessage` ends the poller. -/
theorem poller_dies_on_receive : ¬ ∀ (n : Nat) (cfg : Config) (s s₁ s₂ : FraudDetectionService n)
    (actions : List (Action n)), s.isRunning = true → s.step cfg (.startProcessingThread true) = some s₁ →
    (∀ a ∈ actions, setsRunning a = false) → Lts.run (step cfg) s₁ actions = some s₂ →
    Lts.Always (step cfg) (fun t => t.isRunning = true → t.PollerAlive s.pollers.length) s₁ actions := by
  intro h
  have hal := h 1 sampleConfig (new 1 true) _ _ [.testRunning 0, .receiveMessage 0, .receiveThrows 0] rfl rfl
    (by decide) rfl
  have hlast := Lts.always_iff.1 hal _ (List.prefix_refl _) _ rfl rfl
  obtain ⟨y, hy, hyal⟩ := hlast
  cases hy; cases hyal

/-! ## How many pollers -/

/-- The polling threads alive. -/
def alivePollers (s : FraudDetectionService n) : Nat := s.pollers.countP Poller.alive

/-- A call of `startProcessingThread` that starts a poller finds none alive. -/
def StartsAlone (s : FraudDetectionService n) : Action n → Prop
  | .startProcessingThread ok => s.isRunning = true → ok = true → s.alivePollers = 0
  | _ => True

theorem alivePollers_start (hrun : s.isRunning = true) (h : s.step cfg (.startProcessingThread true) = some s') :
    s'.alivePollers = s.alivePollers + 1 := by
  obtain ⟨-, rfl⟩ := step_startProcessingThread.1 h
  unfold alivePollers
  rw [hrun, List.countP_append]
  rfl

theorem alivePollers_step (ha : a = .startProcessingThread true → s.isRunning = false) (h : s.step cfg a = some s') :
    s'.alivePollers ≤ s.alivePollers := by
  unfold alivePollers
  rcases pollers_step h with he | ⟨hs, hrun, -⟩ | ⟨p, y, x, hp, hy, he, -, -⟩
  · rw [he]
  · rw [ha hs] at hrun; cases hrun
  · obtain ⟨hlt, hpy⟩ := List.getElem?_eq_some_iff.1 hp
    have hpos : 0 < s.pollers.countP Poller.alive :=
      List.countP_pos_iff.2 ⟨y, List.mem_of_getElem? hp, hy⟩
    rw [he, List.countP_set hlt, hpy, hy, if_pos rfl]
    split <;> omega

/-- A step leaves at most one poller alive exactly when it does not start another. -/
theorem alivePollers_le_iff (hle : s.alivePollers ≤ 1) (h : s.step cfg a = some s') :
    s'.alivePollers ≤ 1 ↔ StartsAlone s a := by
  by_cases ha : a = .startProcessingThread true ∧ s.isRunning = true
  · obtain ⟨rfl, hrun⟩ := ha
    have hcount := alivePollers_start hrun h
    simp only [StartsAlone, hrun, forall_const]
    omega
  · have hcount := alivePollers_step (fun hs => by simpa [hs] using ha) h
    have hC : StartsAlone s a := by
      cases a with
      | startProcessingThread ok =>
        intro hrun hok
        subst hok
        exact absurd ⟨rfl, hrun⟩ ha
      | _ => trivial
    exact iff_of_true (by omega) hC

/-- At most one polling thread is ever alive, exactly when every `startProcessingThread` that starts one
is called while none is alive. -/
theorem at_most_one_poller (n : Nat) (cfg : Config) (running : Bool) (actions : List (Action n))
    (s : FraudDetectionService n) (h : Lts.run (step cfg) (new n running) actions = some s) :
    Lts.Always (step cfg) (fun t => t.alivePollers ≤ 1) (new n running) actions ↔
      Lts.Along (step cfg) StartsAlone (new n running) actions :=
  Lts.always_iff_along (J := fun _ => True) (L := fun _ => True) (fun _ _ _ _ _ _ => trivial)
    (fun _ _ _ _ _ hle ht => alivePollers_le_iff hle ht) (fun _ _ => trivial) trivial (Nat.zero_le 1) h

instance (s : FraudDetectionService n) (a : Action n) : Decidable (StartsAlone s a) :=
  match a with
  | .startProcessingThread ok => inferInstanceAs (Decidable (s.isRunning = true → ok = true → s.alivePollers = 0))
  | .setRunning _ | .stopRuning | .shutdown | .awaitTermination _ | .shutdownNow | .testRunning _ | .receiveMessage _
  | .receiveReturns .. | .receiveThrows _ | .submit _ | .sleep .. | .takeTask _ | .work _ => .isTrue trivial

/-- Stopped, and started again after the poller has seen it. -/
def restartRun : List (Action 1) :=
  [.startProcessingThread true, .stopRuning, .testRunning 0, .shutdown, .awaitTermination .terminated,
    .setRunning true, .startProcessingThread true]

theorem at_most_one_poller_restart :
    Lts.Always (step sampleConfig) (fun t => t.alivePollers ≤ 1) (new 1 true) restartRun :=
  (at_most_one_poller 1 sampleConfig true restartRun _ rfl).2 (by decide)

/-- Two calls of `startProcessingThread` start two pollers. -/
theorem two_pollers_started : ¬ ∀ (n : Nat) (cfg : Config) (running : Bool) (actions : List (Action n))
    (s : FraudDetectionService n), Lts.run (step cfg) (new n running) actions = some s → s.alivePollers ≤ 1 := by
  intro h
  have h2 := h 1 sampleConfig true [.startProcessingThread true, .startProcessingThread true] _ rfl
  revert h2
  decide

end FraudDetect.Service.FraudDetectionService
