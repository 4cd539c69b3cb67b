/-
Conservation of deliveries: in every reachable state, whatever was interleaved, refused, discarded or
thrown, every delivery that `receiveMessage` returned is in exactly one place, and only its own
processing deletes it.
-/
import FraudDetect.Service.Lifecycle

namespace FraudDetect.Service

/-! ## The workers -/

namespace Pool

variable {n : Nat} {cfg : Config} {s s' : Pool n} {w : Fin n} {m : Message}

/-- The deliveries assigned are in processing or finished, and every call belongs to one of them. -/
structure Accounted (cfg : Config) (s : Pool n) : Prop where
  assigned : s.assigned.Perm (s.processing ++ s.finished)
  calls : ∀ c ∈ s.calls, c.delivery ∈ s.assigned ∧ OwnDelete cfg c.delivery c.event

theorem accounted_new : (new n).Accounted cfg where
  assigned := by
    have h : (new n).processing = [] := Slots.contents_eq_nil.2 fun _ => rfl
    show ([] : List Message).Perm ((new n).processing ++ [])
    rw [h]
    exact List.Perm.refl _
  calls := by intro c hc; cases hc

theorem processing_of_point {p : Point} (h : s'.point = Function.update s.point w p) :
    s'.processing = Slots.contents (Function.update (fun v => (s.point v).message?) w p.message?) := by
  unfold processing
  rw [h]
  congr 1
  exact Function.comp_update Point.message? s.point w p

theorem processing_assign (h : s.point w = .unborn ∨ s.point w = .idle) :
    (s.assign w m).processing.Perm (m :: s.processing) := by
  have hpt : (s.assign w m).point = Function.update s.point w (.reading m) := rfl
  rw [processing_of_point hpt]
  apply Slots.contents_fill
  rcases h with h | h <;> simp only [h] <;> rfl

theorem accounted_assign (hI : s.Accounted cfg) (h : s.point w = .unborn ∨ s.point w = .idle) :
    (s.assign w m).Accounted cfg where
  assigned := by
    have h1 : (s.assigned ++ [m]).Perm (m :: s.assigned) := List.perm_append_singleton ..
    exact h1.trans ((hI.assigned.cons m).trans ((processing_assign h).symm.append_right s.finished))
  calls := by
    intro c hc
    obtain ⟨h1, h2⟩ := hI.calls c hc
    exact ⟨List.mem_append_left _ h1, h2⟩

theorem accounted_works (hI : s.Accounted cfg) (h : Works cfg s s' w m) : s'.Accounted cfg where
  assigned := by
    rw [h.assigned]
    refine hI.assigned.trans ?_
    rcases h.moves with ⟨p, hp, hpt, hf⟩ | ⟨hpt, hf⟩
    · rw [hf, processing_of_point hpt, hp, Slots.contents_keep h.message]
      rfl
    · rw [hf, processing_of_point hpt, ← List.append_assoc]
      have h1 : s.processing.Perm (m :: _) := Slots.contents_clear h.message
      exact (h1.append_right _).trans (List.perm_append_singleton m _).symm
  calls := by
    have hm : m ∈ s.assigned :=
      hI.assigned.mem_iff.2 (List.mem_append_left _ (Slots.mem_contents.2 ⟨w, h.message⟩))
    rw [h.assigned]
    rcases h.calls with hc | ⟨event, hc, hown⟩
    · rw [hc]; exact hI.calls
    · intro c hmem
      rw [hc, List.mem_append, List.mem_singleton] at hmem
      rcases hmem with hmem | rfl
      · exact hI.calls c hmem
      · exact ⟨hm, hown⟩

theorem accounted_step {a : PoolAction n} (hI : s.Accounted cfg) (h : s.step cfg a = some s') : s'.Accounted cfg := by
  rcases step_cases h with ⟨w, m, -, hw, rfl⟩ | ⟨w, m, hw⟩
  · exact accounted_assign hI hw
  · exact accounted_works hI hw

end Pool

/-! ## The service -/

namespace FraudDetectionService

variable {n : Nat} {cfg : Config} {s s' : FraudDetectionService n}

/-- What was received is held, refused or accepted, and what was accepted is queued, assigned or
discarded. -/
structure Accounted (cfg : Config) (s : FraudDetectionService n) : Prop where
  received : s.received.Perm (s.held ++ s.refused ++ s.accepted)
  accepted : s.accepted.Perm (s.queue ++ s.pool.assigned ++ s.discarded)
  pool : s.pool.Accounted cfg

theorem accounted_new (running : Bool) : (new n running).Accounted cfg where
  received := List.Perm.refl _
  accepted := List.Perm.refl _
  pool := Pool.accounted_new

theorem held_setPoller {p : Nat} {x y : Poller} (hp : s.pollers[p]? = some y) :
    (y.held ++ (s.setPoller p x).held).Perm (x.held ++ s.held) :=
  Slots.flatMap_set_perm Poller.held x hp

theorem held_setPoller_of_eq {p : Nat} {x y : Poller} (hp : s.pollers[p]? = some y) (hxy : x.held = y.held) :
    (s.setPoller p x).held.Perm s.held := by
  have h := held_setPoller (x := x) hp
  rwa [hxy, List.perm_append_left_iff] at h

/-- A new poller holds nothing. -/
theorem held_startProcessingThread {ok : Bool} (h : s.step cfg (.startProcessingThread ok) = some s') :
    s'.held = s.held := by
  obtain ⟨-, rfl⟩ := step_startProcessingThread.1 h
  show (s.pollers ++ if s.isRunning && ok then [Poller.testing] else []).flatMap Poller.held = s.held
  rw [List.flatMap_append]
  split <;> simp [Poller.held, held]

/-- A poller that moves on with the deliveries it holds changes no account. -/
theorem accounted_setPoller {p : Nat} {x y : Poller} (hI : s.Accounted cfg) (hp : s.pollers[p]? = some y)
    (hxy : x.held = y.held) : (s.setPoller p x).Accounted cfg where
  received := hI.received.trans (((held_setPoller_of_eq hp hxy).symm.append_right _).append_right _)
  accepted := hI.accepted
  pool := hI.pool

/-- Accepting a delivery a poller held. -/
theorem accounted_accept {p : Nat} {m : Message} {rest : List Message} (hI : s.Accounted cfg)
    (hp : s.pollers[p]? = some (.submitting (m :: rest))) :
    ((s.setPoller p (.submitting rest)).accept m).Accounted cfg := by
  have hheld : (m :: (s.setPoller p (.submitting rest)).held).Perm s.held := by
    have h1 := held_setPoller (x := .submitting rest) hp
    have h2 : (rest ++ m :: (s.setPoller p (.submitting rest)).held).Perm (rest ++ s.held) :=
      List.perm_middle.trans h1
    exact (List.perm_append_left_iff rest).1 h2
  have hreceived : s.received.Perm
      ((s.setPoller p (.submitting rest)).held ++ s.refused ++ (s.accepted ++ [m])) := by
    refine hI.received.trans (((hheld.symm.append_right _).append_right _).trans ?_)
    rw [← List.append_assoc]
    exact (List.perm_append_singleton m _).symm
  have haccepted : (s.accepted ++ [m]).Perm (m :: (s.queue ++ s.pool.assigned ++ s.discarded)) :=
    (List.perm_append_singleton ..).trans (hI.accepted.cons m)
  rcases accept_cases (s.setPoller p (.submitting rest)) m with ⟨w, hw, ha⟩ | ⟨-, ha⟩
  · rw [ha]
    refine ⟨hreceived, haccepted.trans ?_, Pool.accounted_assign hI.pool (.inl hw)⟩
    simp only [setPoller, Pool.assign, List.append_assoc, List.cons_append, List.nil_append]
    rw [← List.append_assoc, ← List.append_assoc]
    exact List.perm_middle.symm
  · rw [ha]
    refine ⟨hreceived, haccepted.trans ?_, hI.pool⟩
    simp only [setPoller, List.append_assoc, List.cons_append, List.nil_append]
    exact List.perm_middle.symm

theorem accounted_step {a : Action n} (hI : s.Accounted cfg) (h : s.step cfg a = some s') : s'.Accounted cfg := by
  cases a with
  | startProcessingThread ok =>
    have hheld := held_startProcessingThread h
    obtain ⟨-, rfl⟩ := step_startProcessingThread.1 h
    exact ⟨by rw [hheld]; exact hI.received, hI.accepted, hI.pool⟩
  | setRunning running =>
    obtain ⟨-, rfl⟩ := step_setRunning.1 h
    exact ⟨hI.received, hI.accepted, hI.pool⟩
  | stopRuning =>
    obtain ⟨-, rfl⟩ := step_stopRuning.1 h
    exact ⟨hI.received, hI.accepted, hI.pool⟩
  | shutdown =>
    obtain ⟨-, rfl⟩ := step_shutdown.1 h
    exact ⟨hI.received, hI.accepted, hI.pool⟩
  | awaitTermination result =>
    obtain ⟨-, -, rfl⟩ := step_awaitTermination.1 h
    exact ⟨hI.received, hI.accepted, hI.pool⟩
  | shutdownNow =>
    obtain ⟨-, rfl⟩ := step_shutdownNow.1 h
    refine ⟨hI.received, hI.accepted.trans ?_, hI.pool⟩
    show (s.queue ++ s.pool.assigned ++ s.discarded).Perm ([] ++ s.pool.assigned ++ (s.discarded ++ s.queue))
    rw [List.nil_append, ← List.append_assoc, List.append_assoc s.queue]
    exact List.perm_append_comm
  | testRunning p =>
    obtain ⟨hp, rfl⟩ := step_testRunning.1 h
    apply accounted_setPoller hI hp
    split <;> rfl
  | receiveMessage p =>
    obtain ⟨hp, rfl⟩ := step_receiveMessage.1 h
    exact accounted_setPoller hI hp rfl
  | receiveReturns p batch =>
    obtain ⟨hp, rfl⟩ := step_receiveReturns.1 h
    refine ⟨?_, hI.accepted, hI.pool⟩
    have hheld : (s.setPoller p (.submitting batch)).held.Perm (batch ++ s.held) :=
      held_setPoller (x := .submitting batch) hp
    show (s.received ++ batch).Perm ((s.setPoller p (.submitting batch)).held ++ s.refused ++ s.accepted)
    have h1 : (s.received ++ batch).Perm (batch ++ (s.held ++ s.refused ++ s.accepted)) :=
      List.perm_append_comm.trans (hI.received.append_left batch)
    rw [← List.append_assoc, ← List.append_assoc] at h1
    exact h1.trans ((hheld.symm.append_right _).append_right _)
  | receiveThrows p =>
    obtain ⟨hp, rfl⟩ := step_receiveThrows.1 h
    exact accounted_setPoller hI hp rfl
  | submit p =>
    rcases step_submit.1 h with ⟨hp, rfl⟩ | ⟨m, rest, hp, ⟨-, rfl⟩ | ⟨-, rfl⟩⟩
    · exact accounted_setPoller hI hp rfl
    · -- the refused message and what the dead poller still held are moved to `refused` together
      refine ⟨?_, hI.accepted, hI.pool⟩
      have hheld : (m :: rest ++ (s.setPoller p .died).held).Perm s.held := held_setPoller (x := .died) hp
      refine hI.received.trans (List.Perm.append_right _ ?_)
      have h1 : (s.held ++ s.refused).Perm ((m :: rest ++ (s.setPoller p .died).held) ++ s.refused) :=
        hheld.symm.append_right _
      rw [List.append_assoc] at h1
      refine h1.trans (List.perm_append_comm.trans ?_)
      rw [List.append_assoc]
      exact List.Perm.refl _
    · exact accounted_accept hI hp
  | sleep p interrupted =>
    obtain ⟨hp, rfl⟩ := step_sleep.1 h
    exact accounted_setPoller hI hp rfl
  | takeTask w =>
    obtain ⟨m, queue, hq, hw, rfl⟩ := step_takeTask.1 h
    refine ⟨hI.received, hI.accepted.trans ?_, Pool.accounted_assign hI.pool (.inr hw)⟩
    rw [hq]
    show (m :: queue ++ s.pool.assigned ++ s.discarded).Perm (queue ++ (s.pool.assigned ++ [m]) ++ s.discarded)
    refine List.Perm.append_right _ ?_
    rw [← List.append_assoc]
    exact (List.perm_append_singleton m _).symm
  | work a =>
    obtain ⟨hne, pool, hp, rfl⟩ := step_work.1 h
    refine ⟨hI.received, ?_, Pool.accounted_step hI.pool hp⟩
    have hst : pool.assigned = s.pool.assigned := by
      rcases Pool.step_cases hp with ⟨w, m, rfl, -⟩ | ⟨w, m, hw⟩
      · exact absurd rfl (hne w m)
      · exact hw.assigned
    show s.accepted.Perm (s.queue ++ pool.assigned ++ s.discarded)
    rw [hst]
    exact hI.accepted

theorem accounted_run {running : Bool} {actions : List (Action n)}
    (h : Lts.run (step cfg) (new n running) actions = some s) : s.Accounted cfg :=
  Lts.run_inv (fun _ _ _ hI => accounted_step hI) (accounted_new running) h

/-! ## The places of a delivery -/

/-- Where a received delivery can be. -/
inductive Place
  | held          -- by a poller
  | queued        -- in the executor
  | processing    -- by a worker
  | processed
  | abandoned     -- refused or discarded
deriving DecidableEq, Repr

def Place.all : List Place := [.held, .queued, .processing, .processed, .abandoned]

/-- The deliveries at a place. -/
def deliveries (s : FraudDetectionService n) : Place → List Message
  | .held => s.held
  | .queued => s.queue
  | .processing => s.pool.processing
  | .processed => s.pool.finished
  | .abandoned => s.refused ++ s.discarded

theorem Accounted.places (hI : s.Accounted cfg) : s.received.Perm (Place.all.flatMap s.deliveries) := by
  have h1 := hI.received
  have h2 := hI.accepted
  have h3 := hI.pool.assigned
  rw [List.perm_iff_count] at h1 h2 h3 ⊢
  intro m
  have e1 := h1 m
  have e2 := h2 m
  have e3 := h3 m
  simp only [List.count_append] at e1 e2 e3
  simp only [Place.all, deliveries, List.flatMap_cons, List.flatMap_nil, List.append_nil, List.count_append]
  omega

/-- Deliveries with distinct receipt handles: in every reachable state each received one is in
exactly one place, none is assigned twice, every delete is of the receipt of the assigned delivery
whose processing makes it, and an abandoned delivery is never deleted. -/
theorem deliveries_conserved (n : Nat) (cfg : Config) (running : Bool) (actions : List (Action n))
    (s : FraudDetectionService n) (h : Lts.run (step cfg) (new n running) actions = some s)
    (hnd : (s.received.map Message.receiptHandle).Nodup) :
    s.received.Perm (Place.all.flatMap s.deliveries) ∧
      (∀ m ∈ s.received, ∃! place, m.receiptHandle ∈ (s.deliveries place).map Message.receiptHandle) ∧
      (s.pool.assigned.map Message.receiptHandle).Nodup ∧
      (∀ c ∈ s.pool.calls, c.delivery ∈ s.pool.assigned ∧ Pool.OwnDelete cfg c.delivery c.event) ∧
      ∀ m ∈ s.deliveries .abandoned, ∀ c ∈ s.pool.calls, ∀ queueUrl ok,
        c.event ≠ .deleteMessage queueUrl m.receiptHandle ok := by
  have hI := accounted_run h
  have hplaces := hI.places
  have hone := Slots.existsUnique_holder hplaces (fun place => by cases place <;> decide) hnd
  -- an assigned delivery was received and is in processing or processed
  have hassigned : ∀ m ∈ s.pool.assigned,
      m ∈ s.received ∧ (m ∈ s.deliveries .processing ∨ m ∈ s.deliveries .processed) := by
    intro m hm
    have hm' := hI.pool.assigned.mem_iff.1 hm
    have hacc : m ∈ s.accepted :=
      hI.accepted.mem_iff.2 (List.mem_append_left _ (List.mem_append_right _ hm))
    exact ⟨hI.received.mem_iff.2 (List.mem_append_right _ hacc), List.mem_append.1 hm'⟩
  refine ⟨hplaces, hone, ?_, hI.pool.calls, ?_⟩
  · have hall : s.received.Perm (s.held ++ s.refused ++ (s.queue ++ s.pool.assigned ++ s.discarded)) :=
      hI.received.trans (hI.accepted.append_left _)
    have hnd' := (hall.map Message.receiptHandle).nodup_iff.1 hnd
    simp only [List.map_append] at hnd'
    exact hnd'.of_append_right.of_append_left.of_append_right
  · intro m hm c hc queueUrl ok he
    obtain ⟨hcs, hown⟩ := hI.pool.calls c hc
    obtain ⟨-, hh⟩ := hown _ _ _ he
    obtain ⟨hrec, hpl⟩ := hassigned _ hcs
    obtain ⟨place, -, huniq⟩ := hone _ hrec
    have h1 : Place.abandoned = place := huniq .abandoned (hh ▸ List.mem_map_of_mem hm)
    rcases hpl with hpl | hpl
    · have h2 := huniq .processing (List.mem_map_of_mem hpl)
      rw [← h1] at h2; cases h2
    · have h2 := huniq .processed (List.mem_map_of_mem hpl)
      rw [← h1] at h2; cases h2

/-- A poller that is stopped between the two messages of a batch, on a pool of one worker. -/
def halfSubmittedRun : List (Action 1) :=
  [.startProcessingThread true, .testRunning 0, .receiveMessage 0,
    .receiveReturns 0 [⟨"BAD_JSON_OBJECT", "receipt 1"⟩, ⟨"null", "receipt 2"⟩], .submit 0,
    .stopRuning, .shutdown, .submit 0, .work (.readValue 0 true), .work (.deleteMessage 0 true)]

theorem deliveries_conserved_refused : ∃ s, Lts.run (step sampleConfig) (new 1 true) halfSubmittedRun = some s ∧
    s.refused = [⟨"null", "receipt 2"⟩] ∧ s.pool.finished = [⟨"BAD_JSON_OBJECT", "receipt 1"⟩] ∧
    ∀ c ∈ s.pool.calls, ∀ queueUrl ok, c.event ≠ .deleteMessage queueUrl "receipt 2" ok := by
  refine ⟨_, rfl, rfl, rfl, ?_⟩
  obtain ⟨-, -, -, -, habandoned⟩ := deliveries_conserved 1 sampleConfig true halfSubmittedRun _ rfl (by decide)
  exact habandoned ⟨"null", "receipt 2"⟩ (List.mem_cons_self ..)

end FraudDetectionService

end FraudDetect.Service
