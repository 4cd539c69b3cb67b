/-
What a live replica can make up for. From every reachable state of the deployment, a message that no delete and no end of
its retention has taken off the queue can be received by any replica that still polls, processed there and deleted. Where no
replica polls, nothing is delivered any more.
-/
import FraudDetect.Service.Progress
import FraudDetect.System.Delivery

namespace FraudDetect.System

open Service (FraudDetectionService Message Call)

/-! ## A replica that goes on alone -/

namespace Setting

variable {γ ι : Type} {S : Setting} {q : Transactions γ ι} {action : Queue.Action (Letter γ) ι} {k : Nat}

theorem receipt?_handle (hk : k < q.deliveries.length) : S.receipt? q (S.handle k) = some k := by
  unfold receipt?
  cases hfind : (List.range q.deliveries.length).find? (S.handle · = S.handle k) with
  | none =>
    have hnone := List.find?_eq_none.1 hfind k (List.mem_range.2 hk)
    simp at hnone
  | some k' =>
    have hhandle := List.find?_some hfind
    rw [S.handle_injective (of_decide_eq_true hhandle)]

/-- A replica deletes under receipts of deliveries. -/
theorem mem_deletes_known {kept : Bool} {event : Service.Event} (h : action ∈ S.deletes q kept event) :
    ∃ k x, action = .delete k ∧ q.deliveries[k]? = some x := by
  cases event with
  | deleteMessage queueUrl receiptHandle ok =>
    simp only [deletes] at h
    split at h
    · cases hk : S.receipt? q receiptHandle with
      | none => rw [hk] at h; cases h
      | some k =>
        rw [hk] at h
        simp only at h
        split at h
        · have hlt := List.mem_range.1 (List.mem_of_find?_eq_some hk)
          exact ⟨k, _, List.mem_singleton.1 h, List.getElem?_eq_getElem hlt⟩
        · cases h
    · cases h
  | _ => cases h

/-- A delete under the receipt of a message's last delivery takes effect when it completes. -/
theorem delete_mem_deletes (hk : k < q.deliveries.length) (hlast : q.isLast k = true) :
    .delete k ∈ S.deletes q false (.deleteMessage S.cfg.urls.transactionQueueUrl (S.handle k) true) := by
  simp [deletes, receipt?_handle hk, hlast]

end Setting

namespace Deployment

variable {γ ι : Type} [DecidableEq γ] [DecidableEq ι] {n : Nat} {S : Setting} {d : Deployment γ ι n} {j : ι}

/-- A step of a replica, other than a return of `receiveMessage`, is a step of the deployment. -/
theorem replica_lifts_step {a : Service.Action n} {s : FraudDetectionService n} (ha : receives a = false)
    (hs : (d.replicas j).step S.cfg a = some s) : ∃ d', d.step S (.replica j a false) = some d' ∧ d'.replicas j = s ∧
      Queue.Deletes d.transactions d'.transactions ∧ ∀ k x m, d.transactions.deliveries[k]? = some x →
        d.transactions.isLast k = true → d.transactions.status x.message ≠ .expired →
        Call.mk m (.deleteMessage S.cfg.urls.transactionQueueUrl (S.handle k) true) ∈ made (d.replicas j) s →
        d'.transactions.status x.message = .deleted := by
  have hknown : ∀ action ∈ (made (d.replicas j) s).flatMap fun c => S.deletes d.transactions false c.event,
      ∃ k x, action = .delete k ∧ d.transactions.deliveries[k]? = some x := by
    intro action hm
    obtain ⟨c, -, hm⟩ := List.mem_flatMap.1 hm
    exact Setting.mem_deletes_known hm
  obtain ⟨q, hq, hdeletes, hdeleted⟩ := Queue.deletes_run hknown
  refine ⟨_, step_replica.2 ⟨ha, s, q, hs, hq, rfl⟩, Function.update_self .., hdeletes, fun k x m hk hlast hne hc => ?_⟩
  obtain ⟨hlt, -⟩ := List.getElem?_eq_some_iff.1 hk
  exact hdeleted k x (List.mem_flatMap.2 ⟨_, hc, Setting.delete_mem_deletes hlt hlast⟩) hk hne

/-- So a run of a replica that receives nothing is a run of the deployment. -/
theorem replica_lifts : ∀ {actions : List (Service.Action n)} {d : Deployment γ ι n} {s : FraudDetectionService n},
    (∀ a ∈ actions, receives a = false) → Lts.run (FraudDetectionService.step S.cfg) (d.replicas j) actions = some s →
    ∃ d', Lts.run (step S) d (actions.map (.replica j · false)) = some d' ∧ d'.replicas j = s ∧
      Queue.Deletes d.transactions d'.transactions ∧ ∀ k x m, d.transactions.deliveries[k]? = some x →
        d.transactions.isLast k = true → d.transactions.status x.message ≠ .expired →
        Call.mk m (.deleteMessage S.cfg.urls.transactionQueueUrl (S.handle k) true) ∈ s.pool.calls →
        Call.mk m (.deleteMessage S.cfg.urls.transactionQueueUrl (S.handle k) true) ∉ (d.replicas j).pool.calls →
        d'.transactions.status x.message = .deleted
  | [], d, s, _, h => by
    cases h
    exact ⟨d, rfl, rfl, .refl _, fun _ _ _ _ _ _ hc hnot => absurd hc hnot⟩
  | a :: actions, d, s, ha, h => by
    obtain ⟨ha, hrest⟩ := List.forall_mem_cons.1 ha
    obtain ⟨s₁, hs₁, hrun⟩ := Lts.run_cons.1 h
    obtain ⟨d₁, hd₁, rfl, hdeletes₁, hdeleted₁⟩ := replica_lifts_step ha hs₁
    obtain ⟨d', hd', hs, hdeletes, hdeleted⟩ := replica_lifts hrest hrun
    refine ⟨d', Lts.run_cons.2 ⟨d₁, hd₁, hd'⟩, hs, hdeletes₁.trans hdeletes, fun k x m hk hlast hne hc hnot => ?_⟩
    by_cases hfirst : Call.mk m (.deleteMessage S.cfg.urls.transactionQueueUrl (S.handle k) true) ∈
        (d₁.replicas j).pool.calls
    · rw [calls_made hs₁] at hfirst
      rcases List.mem_append.1 hfirst with hold | hmade
      · exact absurd hold hnot
      · exact (hdeletes.status _).deleted (hdeleted₁ k x m hk hlast hne hmade)
    · have hlast₁ : d₁.transactions.isLast k = true := by
        unfold Queue.State.isLast
        rw [hdeletes₁.deliveries]
        exact hlast
      exact hdeleted k x m (by rw [hdeletes₁.deliveries]; exact hk) hlast₁
        (fun he => hne ((hdeletes₁.status _).expired_iff.1 he)) hc hfirst

/-! ## A message, received again -/

/-- Message `i` becoming available, its delivery to replica `j`, or another step of a poller or worker of `j`. -/
def Recovers (i : Nat) (j : ι) : Action γ ι n → Prop
  | .queue (.reappear i') => i' = i
  | .replica j' a _ => j' = j ∧ a.lifecycle = false
  | .receiveReturns j' _ is => j' = j ∧ is = [i]
  | _ => False

omit [DecidableEq γ] [DecidableEq ι] in
theorem recovers_replica {i : Nat} {actions : List (Service.Action n)} (ha : ∀ a ∈ actions, a.lifecycle = false) :
    ∀ a ∈ (actions.map (.replica j · false) : List (Action γ ι n)), Recovers i j a := by
  intro a hmem
  obtain ⟨b, hb, rfl⟩ := List.mem_map.1 hmem
  exact ⟨rfl, ha b hb⟩

theorem of_polls {p : Nat} {a : Service.Action n} (ha : FraudDetectionService.Polls p a) :
    receives a = false ∧ a.lifecycle = false := by
  rcases ha with rfl | rfl | rfl | rfl <;> exact ⟨rfl, rfl⟩

theorem of_drains {a : Service.Action n} (ha : FraudDetectionService.Drains a) :
    receives a = false ∧ a.lifecycle = false := by
  cases a with
  | takeTask w => exact ⟨rfl, rfl⟩
  | work a => exact ⟨rfl, rfl⟩
  | _ => exact ha.elim

/-- Message `i` can become available again, unless it has expired. -/
theorem can_reappear {i : Nat} (hne : d.transactions.status i ≠ .expired) : ∃ more d',
    (∀ a ∈ more, Recovers i j a) ∧ Lts.run (step S) d more = some d' ∧ d'.replicas = d.replicas ∧
      d'.transactions.status i = .visible ∧ d'.transactions.deliveries = d.transactions.deliveries ∧
      Queue.Spares i d.transactions d'.transactions := by
  have hback : (d.transactions.status i = .inFlight ∨ d.transactions.status i = .deleted) → ∃ more d',
      (∀ a ∈ more, Recovers i j a) ∧ Lts.run (step S) d more = some d' ∧ d'.replicas = d.replicas ∧
        d'.transactions.status i = .visible ∧ d'.transactions.deliveries = d.transactions.deliveries ∧
        Queue.Spares i d.transactions d'.transactions := by
    intro hstatus
    have hq := Queue.step_reappear.2 ⟨hstatus, rfl⟩
    exact ⟨[.queue (.reappear i)], _, List.forall_mem_singleton.2 rfl, Lts.run_single.2 (step_queue.2 ⟨_, hq, rfl⟩), rfl,
      Function.update_self .., rfl, Queue.spares_step (.inl rfl) hq⟩
  cases hstatus : d.transactions.status i with
  | visible => exact ⟨[], d, nofun, rfl, rfl, hstatus, rfl, rfl, fun _ _ => .inl rfl⟩
  | inFlight => exact hback (.inl hstatus)
  | deleted => exact hback (.inr hstatus)
  | expired => exact absurd hstatus hne

/-- After a new delivery of message `i` to poller `p` of replica `j`, which has it as `m` and is open. -/
structure Handed (S : Setting) (d d' : Deployment γ ι n) (i : Nat) (j : ι) (p : Nat) (m : Message) : Prop where
  opened : (d'.replicas j).Open
  poller : (d'.replicas j).pollers[p]? = some (.submitting [m])
  deliveries : d'.transactions.deliveries = d.transactions.deliveries ++ [⟨i, j⟩]
  receiptHandle : m.receiptHandle = S.handle d.transactions.deliveries.length
  fresh : ∀ c ∈ (d'.replicas j).pool.calls, c ≠ Service.Pool.deleteCall S.cfg m true
  status : d'.transactions.status i = .inFlight
  spares : Queue.Spares i d.transactions d'.transactions

/-- A visible message can be delivered to a replica that is in `receiveMessage`. -/
theorem can_receive {p i : Nat} (hI : d.Linked S) (hopen : (d.replicas j).Open)
    (hp : (d.replicas j).pollers[p]? = some .receiving) (hi : i < d.transactions.sent.length)
    (hvisible : d.transactions.status i = .visible) :
    ∃ d' m, d.step S (.receiveReturns j p [i]) = some d' ∧ Handed S d d' i j p m := by
  have hq : Queue.step d.transactions (.receive i j) = some _ := Queue.step_receive.2 ⟨⟨hi, hvisible⟩, rfl⟩
  have hs : (d.replicas j).step S.cfg (.receiveReturns p (S.batch d.transactions [i])) = some _ :=
    FraudDetectionService.step_receiveReturns.2 ⟨hp, rfl⟩
  refine ⟨_, ⟨(d.transactions.sent[i]?.map Letter.body).getD "", S.handle d.transactions.deliveries.length⟩,
    step_receiveReturns.2 ⟨Nat.le_add_left 1 9, _, _, Lts.run_single.2 hq, hs, rfl⟩, ?_⟩
  constructor
  case receiptHandle => rfl
  case deliveries => rfl
  case status => exact Function.update_self ..
  case spares => exact Queue.spares_step (.inr ⟨j, rfl⟩) hq
  case opened =>
    simp only [Function.update_self]
    exact hopen
  case poller =>
    simp only [Function.update_self]
    exact FraudDetectionService.setPoller_self hp
  case fresh =>
    -- every call is for a delivery made before
    simp only [Function.update_self]
    rintro c hc rfl
    obtain ⟨hassigned, -⟩ := (hI.accounted j).pool.calls _ hc
    obtain ⟨k, i', hd⟩ := hI.delivers hassigned
    have hlt := (List.getElem?_eq_some_iff.1 hd.delivery).1
    have heq := S.handle_injective hd.receiptHandle
    omega

section Run

variable {enabled : γ → Bool} {running : ι → Bool} {actions : List (Action γ ι n)}
  (h : Lts.run (step S) (new S n enabled running) actions = some d)
include h

/-- A live poller of an open replica can be handed every message that has not expired. -/
theorem can_hand {p i : Nat} (hopen : (d.replicas j).Open) (hp : (d.replicas j).PollerAlive p)
    (hi : i < d.transactions.sent.length) (hne : d.transactions.status i ≠ .expired) : ∃ more d' m,
      (∀ a ∈ more, Recovers i j a) ∧ Lts.run (step S) d more = some d' ∧ Handed S d d' i j p m := by
  -- the poller gets to `receiveMessage`
  have hcan : FraudDetectionService.CanReceive S.cfg p (d.replicas j) := FraudDetectionService.can_receive hopen hp
  obtain ⟨polls, s₁, hpolls, hrun₁, hopen₁, hp₁⟩ := hcan
  obtain ⟨d₁, hd₁, rfl, hdeletes, -⟩ := replica_lifts (fun a ha => (of_polls (hpolls a ha)).1) hrun₁
  have hne₁ : d₁.transactions.status i ≠ .expired := fun he => hne ((hdeletes.status i).expired_iff.1 he)
  -- and meanwhile the message becomes available
  obtain ⟨shows, d₂, hshows, hd₂, hreplicas, hvisible, hdeliveries, hspares⟩ := can_reappear (S := S) (j := j) hne₁
  have hsent : d₂.transactions.sent = d.transactions.sent := hspares.sent.trans hdeletes.sent
  rw [← hreplicas] at hopen₁ hp₁
  obtain ⟨d₃, m, hd₃, hm⟩ := can_receive (linked_run (Lts.run_append.2 ⟨d₁, Lts.run_append.2 ⟨d, h, hd₁⟩, hd₂⟩)) hopen₁ hp₁
    (by rw [hsent]; exact hi) hvisible
  rw [hdeletes.deliveries] at hdeliveries
  refine ⟨polls.map (.replica j · false) ++ (shows ++ [.receiveReturns j p [i]]), d₃, m, ?_,
    Lts.run_append.2 ⟨d₁, hd₁, Lts.run_append.2 ⟨d₂, hd₂, Lts.run_single.2 hd₃⟩⟩,
    hm.opened, hm.poller, ?_, ?_, hm.fresh, hm.status, ((hdeletes.spares i).trans hspares).trans hm.spares⟩
  · intro a ha
    rcases List.mem_append.1 ha with ha | ha
    · exact recovers_replica (fun a ha => (of_polls (hpolls a ha)).2) a ha
    · rcases List.mem_append.1 ha with ha | ha
      · exact hshows a ha
      · rw [List.mem_singleton.1 ha]
        exact ⟨rfl, rfl⟩
  · rw [hm.deliveries, hdeliveries]
  · rw [hm.receiptHandle, hdeliveries]

/-- And it can process it with whatever else it has, and delete it. -/
theorem can_recover {p i : Nat} (hn : 0 < n) (hopen : (d.replicas j).Open) (hp : (d.replicas j).PollerAlive p)
    (hi : i < d.transactions.sent.length) (hne : d.transactions.status i ≠ .expired) : ∃ more d',
      (∀ a ∈ more, Recovers i j a) ∧ Lts.run (step S) d more = some d' ∧ d'.transactions.status i = .deleted ∧
        Queue.Spares i d.transactions d'.transactions ∧ (d'.replicas j).Open ∧ (d'.replicas j).PollerAlive p := by
  obtain ⟨hands, d₁, m, hhands, hd₁, hm⟩ := can_hand h hopen hp hi hne
  obtain ⟨s₂, hs₂, hopen₂, hp₂, hqueued⟩ := FraudDetectionService.submit_first S.cfg hm.opened hm.poller
  have hrun := Lts.run_append.2 ⟨_, replica_run (Lts.run_append.2 ⟨d, h, hd₁⟩) j, Lts.run_single.2 hs₂⟩
  obtain ⟨drains, s₃, hdrains, hrun₃, -, hcalls⟩ := FraudDetectionService.can_drain S.cfg hn
    (FraudDetectionService.phasesFit_run hrun) (FraudDetectionService.employed_run hrun)
  obtain ⟨⟨hrunning, hshutdown⟩, -, hpollers, -⟩ := FraudDetectionService.workers_frame
    (fun a ha => FraudDetectionService.workerStep_of_drains (hdrains a ha)) hrun₃
  obtain ⟨d₃, hd₃, rfl, hdeletes, hdeleted⟩ := replica_lifts
    (List.forall_mem_cons.2 ⟨rfl, fun a ha => (of_drains (hdrains a ha)).1⟩) (Lts.run_cons.2 ⟨s₂, hs₂, hrun₃⟩)
  have hk : d₁.transactions.deliveries[d.transactions.deliveries.length]? = some ⟨i, j⟩ := by
    rw [hm.deliveries]
    exact List.getElem?_concat_length ..
  have hlast : d₁.transactions.isLast d.transactions.deliveries.length = true := by
    unfold Queue.State.isLast
    rw [hk, hm.deliveries]
    simp
  refine ⟨hands ++ (.submit p :: drains).map (.replica j · false), d₃, fun a ha => ?_,
    Lts.run_append.2 ⟨d₁, hd₁, hd₃⟩, ?_, hm.spares.trans (hdeletes.spares i), ?_, ?_⟩
  · rcases List.mem_append.1 ha with ha | ha
    · exact hhands a ha
    · exact recovers_replica (List.forall_mem_cons.2 ⟨rfl, fun a ha => (of_drains (hdrains a ha)).2⟩) a ha
  · refine hdeleted _ ⟨i, j⟩ m hk hlast (by rw [hm.status]; nofun) ?_ ?_
    · rw [← hm.receiptHandle]
      exact hcalls m hqueued
    · rw [← hm.receiptHandle]
      exact fun hc => hm.fresh _ hc rfl
  · exact ⟨hrunning.trans hopen₂.1, hshutdown.trans hopen₂.2⟩
  · exact ⟨_, by rw [hpollers]; exact hp₂, rfl⟩

/-- The first `N` messages can be recovered one after the other. -/
theorem can_clear {p : Nat} (hn : 0 < n) (hopen : (d.replicas j).Open) (hp : (d.replicas j).PollerAlive p) :
    ∀ N, N ≤ d.transactions.sent.length → ∃ more d', (∀ a ∈ more, ∃ i, Recovers i j a) ∧
      Lts.run (step S) d more = some d' ∧ d'.transactions.sent = d.transactions.sent ∧
      (∀ i, d'.transactions.status i = .expired ↔ d.transactions.status i = .expired) ∧
      (∀ i < N, d.transactions.status i ≠ .expired → d'.transactions.status i = .deleted) ∧
      (d'.replicas j).Open ∧ (d'.replicas j).PollerAlive p
  | 0, _ => ⟨[], d, nofun, rfl, rfl, fun _ => Iff.rfl, nofun, hopen, hp⟩
  | N + 1, hN => by
    obtain ⟨first, d₁, hfirst, hd₁, hsent, hexpired, hdeleted, hopen₁, hp₁⟩ := can_clear hn hopen hp N (by omega)
    by_cases hne : d.transactions.status N = .expired
    · refine ⟨first, d₁, hfirst, hd₁, hsent, hexpired, fun i hi hi' => ?_, hopen₁, hp₁⟩
      rcases Nat.lt_succ_iff_lt_or_eq.1 hi with hi | rfl
      · exact hdeleted i hi hi'
      · exact absurd hne hi'
    · obtain ⟨rest, d₂, hrest, hd₂, hN₂, hspares, hopen₂, hp₂⟩ := can_recover (Lts.run_append.2 ⟨d, h, hd₁⟩) hn hopen₁ hp₁
        (by rw [hsent]; exact hN) fun he => hne ((hexpired N).1 he)
      refine ⟨first ++ rest, d₂, fun a ha => ?_, Lts.run_append.2 ⟨d₁, hd₁, hd₂⟩, hspares.sent.trans hsent, fun i => ?_,
        fun i hi hi' => ?_, hopen₂, hp₂⟩
      · rcases List.mem_append.1 ha with ha | ha
        · exact hfirst a ha
        · exact ⟨N, hrest a ha⟩
      · by_cases hi : i = N
        · subst hi
          rw [hN₂]
          exact ⟨nofun, fun he => absurd he hne⟩
        · exact (hspares.others i hi).expired_iff.trans (hexpired i)
      · by_cases hiN : i = N
        · subst hiN
          exact hN₂
        · exact (hspares.others i hiN).deleted (hdeleted i (by omega) hi')

end Run

/-! ## A replica that no longer polls -/

/-- Replica `j` has no live poller, and no delivery to it from number `L` on. -/
structure Deaf (d : Deployment γ ι n) (j : ι) (L : Nat) : Prop where
  pollers : ∀ p, ¬ (d.replicas j).PollerAlive p
  deliveries : ∀ k i, d.transactions.deliveries[k]? = some ⟨i, j⟩ → k < L

/-- Replica `j` starts a poller. -/
def StartsPoller (j : ι) (d : Deployment γ ι n) : Action γ ι n → Prop
  | .replica j' a _ => j' = j ∧ a = .startProcessingThread true ∧ (d.replicas j).isRunning = true
  | _ => False

theorem deaf_step {d' : Deployment γ ι n} {a : Action γ ι n} {L : Nat} (hI : Deaf d j L) (ha : ¬ StartsPoller j d a)
    (h : d.step S a = some d') : Deaf d' j L := by
  have hpollers : (d'.replicas j).pollers = (d.replicas j).pollers := by
    cases a with
    | generator g a => obtain ⟨-, x, -, rfl⟩ := step_generator.1 h; rfl
    | publishMessage g src draws o kept => obtain ⟨x, q, -, -, rfl⟩ := step_publishMessage.1 h; rfl
    | replica j' a kept =>
      obtain ⟨-, s, q, hs, -, rfl⟩ := step_replica.1 h
      by_cases hj : j' = j
      · subst hj
        simp only [Function.update_self]
        refine FraudDetectionService.pollers_dead_step hI.pollers (fun hstart => ?_) hs
        simpa [StartsPoller, hstart] using ha
      · simp only [Function.update_of_ne (Ne.symm hj)]
    | receiveReturns j' p is =>
      obtain ⟨-, q, s, -, hs, rfl⟩ := step_receiveReturns.1 h
      by_cases hj : j' = j
      · subst hj
        simp only [Function.update_self]
        refine FraudDetectionService.pollers_dead_step hI.pollers ?_ hs
        nofun
      · simp only [Function.update_of_ne (Ne.symm hj)]
    | queue event => obtain ⟨q, -, rfl⟩ := step_queue.1 h; rfl
  refine ⟨fun p => ?_, fun k i hk => ?_⟩
  · unfold FraudDetectionService.PollerAlive
    rw [hpollers]
    exact hI.pollers p
  · by_cases hr : ∀ j p is, a ≠ .receiveReturns j p is
    · rw [deliveries_step hr h] at hk
      exact hI.deliveries k i hk
    · simp only [not_forall, not_not] at hr
      obtain ⟨j', p, is, rfl⟩ := hr
      rw [deliveries_receive h] at hk
      rcases Nat.lt_or_ge k d.transactions.deliveries.length with hlt | hge
      · rw [List.getElem?_append_left hlt] at hk
        exact hI.deliveries k i hk
      · -- the poller that receives it is alive
        rw [List.getElem?_append_right hge] at hk
        obtain ⟨i', -, he⟩ := List.mem_map.1 (List.mem_of_getElem? hk)
        cases he
        obtain ⟨-, q, s, -, hs, -⟩ := step_receiveReturns.1 h
        obtain ⟨hp, -⟩ := FraudDetectionService.step_receiveReturns.1 hs
        exact absurd ⟨_, hp, rfl⟩ (hI.pollers p)

theorem deaf_run {d' : Deployment γ ι n} {more : List (Action γ ι n)} {L : Nat} (hI : Deaf d j L)
    (hmore : Lts.Along (step S) (fun t a => ¬ StartsPoller j t a) d more) (h : Lts.run (step S) d more = some d') :
    Deaf d' j L :=
  Lts.run_inv_along (fun _ _ _ hI ha hs => deaf_step hI ha hs) hI hmore h

/-! ## What holds of every run -/

/-- From every reachable state, whatever the other replicas and the generators have left undone, a single open replica
with a live poller can receive, process and delete every message that has not expired. -/
theorem backlog_recoverable (S : Setting) (n : Nat) (hn : 0 < n) (enabled : γ → Bool) (running : ι → Bool)
    (actions : List (Action γ ι n)) (d : Deployment γ ι n)
    (h : Lts.run (step S) (new S n enabled running) actions = some d) (j : ι) (p : Nat)
    (hopen : (d.replicas j).Open) (hp : (d.replicas j).PollerAlive p) : ∃ more d',
      (∀ a ∈ more, ∃ i, Recovers i j a) ∧ Lts.run (step S) d more = some d' ∧
        d'.transactions.sent = d.transactions.sent ∧ ∀ i < d.transactions.sent.length,
          d.transactions.status i ≠ .expired → d'.transactions.status i = .deleted := by
  obtain ⟨more, d', hmore, hd', hsent, -, hdeleted, -⟩ := can_clear h hn hopen hp _ (Nat.le_refl _)
  exact ⟨more, d', hmore, hd', hsent, hdeleted⟩

/-- A message in the hands of a replica that crashes, while another one polls. -/
def crashedRun : List (Action Unit Bool 1) :=
  .queue (.send Service.highText) :: takesUp true ++ [.replica false (.startProcessingThread true) false]

theorem backlog_recoverable_crashed : ∃ d, Lts.run (step sampleSetting) sampleStart crashedRun = some d ∧
    d.transactions.status 0 = .inFlight ∧ ∃ more d', (∀ a ∈ more, ∃ i, Recovers i false a) ∧
      Lts.run (step sampleSetting) d more = some d' ∧ d'.transactions.status 0 = .deleted := by
  have hrun : (Lts.run (step sampleSetting) sampleStart crashedRun).map (fun d => (d.transactions.sent.length,
      d.transactions.status 0, (d.replicas false).isRunning, (d.replicas false).shutdown, (d.replicas false).pollers)) =
        some (1, .inFlight, true, false, [.testing]) := by decide
  obtain ⟨d, hd, hstate⟩ := Option.map_eq_some_iff.1 hrun
  simp only [Prod.mk.injEq] at hstate
  obtain ⟨hsent, hstatus, hrunning, hshutdown, hpollers⟩ := hstate
  obtain ⟨more, d', hmore, hd', -, hdeleted⟩ := backlog_recoverable sampleSetting 1 Nat.one_pos _ _ crashedRun d hd false 0
    ⟨hrunning, hshutdown⟩ ⟨.testing, by rw [hpollers]; rfl, rfl⟩
  exact ⟨d, hd, hstatus, more, d', hmore, hd', hdeleted 0 (by rw [hsent]; exact Nat.one_pos) (by rw [hstatus]; nofun)⟩

end Deployment

end FraudDetect.System
