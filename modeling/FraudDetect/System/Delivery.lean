/-
The deliveries of the transaction queue, followed into the replicas. In every reachable state of the deployment a replica
has received exactly the deliveries the queue has made to it, each with the body of its message and a receipt of its own,
and what has been deleted from the queue or put on the notify queue goes back to calls of the replica concerned.
-/
import FraudDetect.Service.Concurrent
import FraudDetect.Service.Pipeline
import FraudDetect.Service.Protocol
import FraudDetect.System.Deployment

namespace FraudDetect.System

open Service (FraudDetectionService Message Call)
open Service.FraudDetectionService (Place)

/-! ## A step of a replica -/

section Replica

variable {n : Nat} {cfg : Service.Config} {s s' : FraudDetectionService n} {a : Service.Action n}

theorem received_step (ha : receives a = false) (h : s.step cfg a = some s') : s'.received = s.received := by
  cases a with
  | startProcessingThread ok => obtain ⟨-, rfl⟩ := FraudDetectionService.step_startProcessingThread.1 h; rfl
  | setRunning running => obtain ⟨-, rfl⟩ := FraudDetectionService.step_setRunning.1 h; rfl
  | stopRuning => obtain ⟨-, rfl⟩ := FraudDetectionService.step_stopRuning.1 h; rfl
  | shutdown => obtain ⟨-, rfl⟩ := FraudDetectionService.step_shutdown.1 h; rfl
  | awaitTermination result => obtain ⟨-, -, rfl⟩ := FraudDetectionService.step_awaitTermination.1 h; rfl
  | shutdownNow => obtain ⟨-, rfl⟩ := FraudDetectionService.step_shutdownNow.1 h; rfl
  | testRunning p => obtain ⟨-, rfl⟩ := FraudDetectionService.step_testRunning.1 h; rfl
  | receiveMessage p => obtain ⟨-, rfl⟩ := FraudDetectionService.step_receiveMessage.1 h; rfl
  | receiveReturns p batch => cases ha
  | receiveThrows p => obtain ⟨-, rfl⟩ := FraudDetectionService.step_receiveThrows.1 h; rfl
  | submit p =>
    rcases FraudDetectionService.step_submit.1 h with ⟨-, rfl⟩ | ⟨m, rest, -, ⟨-, rfl⟩ | ⟨-, rfl⟩⟩
    · rfl
    · rfl
    · rcases FraudDetectionService.accept_cases (s.setPoller p (.submitting rest)) m with ⟨w, -, hacc⟩ | ⟨-, hacc⟩ <;>
        rw [hacc] <;> rfl
  | sleep p interrupted => obtain ⟨-, rfl⟩ := FraudDetectionService.step_sleep.1 h; rfl
  | takeTask w => obtain ⟨m, queue, -, -, rfl⟩ := FraudDetectionService.step_takeTask.1 h; rfl
  | work a => obtain ⟨-, pool, -, rfl⟩ := FraudDetectionService.step_work.1 h; rfl

/-- The calls made in a step are added to those made before. -/
theorem calls_made (h : s.step cfg a = some s') : s'.pool.calls = s.pool.calls ++ made s s' :=
  (List.prefix_iff_eq_append.1 (FraudDetectionService.calls_grow h)).symm

/-- An assigned delivery has been received. -/
theorem received_of_assigned {m : Message} (hA : s.Accounted cfg) (hm : m ∈ s.pool.assigned) : m ∈ s.received := by
  apply hA.received.mem_iff.2
  apply List.mem_append_right
  apply hA.accepted.mem_iff.2
  exact List.mem_append_left _ (List.mem_append_right _ hm)

end Replica

/-! ## Deliveries -/

namespace Setting

variable {γ ι : Type} (S : Setting)

/-- A delivery as `receiveMessage` returns it. -/
def message (q : Transactions γ ι) (x : Queue.Delivery ι × Nat) : Message :=
  ⟨(q.sent[x.1.message]?.map Letter.body).getD "", S.handle x.2⟩

/-- Delivery `k` is of message `i` and to replica `j`, which has it as `m`. -/
structure Delivers (q : Transactions γ ι) (k i : Nat) (j : ι) (m : Message) : Prop where
  delivery : q.deliveries[k]? = some ⟨i, j⟩
  body : q.sent[i]?.map Letter.body = some m.body
  receiptHandle : m.receiptHandle = S.handle k

section

variable {S} {q q' : Transactions γ ι} {i k : Nat} {j : ι} {m : Message}

theorem Delivers.grows (h : S.Delivers q k i j m) (hq : Queue.Grows q q') : S.Delivers q' k i j m where
  delivery := hq.delivery h.delivery
  body := by
    obtain ⟨letter, hl, hbody⟩ := Option.map_eq_some_iff.1 h.body
    rw [hq.message hl, Option.map_some, hbody]
  receiptHandle := h.receiptHandle

/-- A receipt handle belongs to one delivery. -/
theorem Delivers.unique {i' k' : Nat} {j' : ι} {m' : Message} (h : S.Delivers q k i j m) (h' : S.Delivers q k' i' j' m')
    (hm : m.receiptHandle = m'.receiptHandle) : k = k' ∧ i = i' ∧ j = j' ∧ m = m' := by
  obtain rfl : k = k' := by
    apply S.handle_injective
    rw [← h.receiptHandle, hm, h'.receiptHandle]
  have hd := h.delivery
  rw [h'.delivery] at hd
  cases hd
  have hbody := h.body
  rw [h'.body] at hbody
  obtain ⟨body, handle⟩ := m
  obtain ⟨body', handle'⟩ := m'
  cases hbody
  cases hm
  exact ⟨rfl, rfl, rfl, rfl⟩

end

/-! ## What goes on and off the queue -/

section

variable {S} {q : Transactions γ ι} {g : γ} {x x' : Generator.TransGenerator} {draws : Generator.Draws ℚ}
  {o : Outcome} {kept : Bool} {action : Queue.Action (Letter γ) ι}

/-- A generator only puts messages on the queue. -/
theorem mem_stored (h : action ∈ S.stored g x x' draws o kept) : ∃ p ∈ x'.published.drop x.published.length,
    ∃ body ok, .sendMessage S.cfg.urls.transactionQueueUrl body ok ∈
        Generator.publishCalls x.queueName (S.callees draws o) p.2.text ∧
      action = .send ⟨body, .published g x.published.length draws⟩ := by
  unfold stored at h
  obtain ⟨p, hp, h⟩ := List.mem_flatMap.1 h
  obtain ⟨event, hevent, h⟩ := List.mem_flatMap.1 h
  cases event with
  | sendMessage queueUrl body ok =>
    simp only [stores] at h
    split at h
    · rename_i hsent
      obtain ⟨rfl, -⟩ := hsent
      exact ⟨p, hp, body, ok, hevent, List.mem_singleton.1 h⟩
    · cases h
  | _ => cases h

/-- A replica only deletes, under the receipt it passes. -/
theorem mem_deletes {event : Service.Event} (h : action ∈ S.deletes q kept event) : ∃ receiptHandle ok k,
    event = .deleteMessage S.cfg.urls.transactionQueueUrl receiptHandle ok ∧ S.handle k = receiptHandle ∧
      action = .delete k := by
  cases event with
  | deleteMessage queueUrl receiptHandle ok =>
    simp only [deletes] at h
    split at h
    · rename_i hurl
      cases hk : S.receipt? q receiptHandle with
      | none => rw [hk] at h; cases h
      | some k =>
        rw [hk] at h
        simp only at h
        split at h
        · exact ⟨receiptHandle, ok, k, by rw [hurl], by simpa using List.find?_some hk, List.mem_singleton.1 h⟩
        · cases h
    · cases h
  | _ => cases h

/-- The send call a notification comes from. -/
def notice : Call → Option (Message × String)
  | ⟨m, .sendMessage _ body _⟩ => some (m, body)
  | _ => none

theorem notifies_sublist (j : ι) (kept : Bool) : ∀ calls : List Call,
    ((calls.flatMap (S.notifies j kept)).map fun x => (x.delivery, x.body)).Sublist (calls.filterMap notice)
  | [] => List.Sublist.refl _
  | ⟨m, event⟩ :: calls => by
    have hrest := notifies_sublist j kept calls
    rw [List.flatMap_cons, List.map_append]
    cases event with
    | sendMessage queueUrl body ok =>
      have hcons : (⟨m, .sendMessage queueUrl body ok⟩ :: calls).filterMap Setting.notice =
          (m, body) :: calls.filterMap notice := rfl
      rw [hcons]
      simp only [notifies]
      split
      · exact hrest.cons_cons _
      · exact hrest.cons _
    | _ => exact hrest

theorem sender_of_mem_notifies {y : Notification ι} {j : ι} {kept : Bool} {c : Call} (hy : y ∈ S.notifies j kept c) :
    y.sender = j := by
  obtain ⟨m, event⟩ := c
  cases event with
  | sendMessage queueUrl body ok =>
    simp only [notifies] at hy
    split at hy
    · rw [List.mem_singleton.1 hy]
    · cases hy
  | _ => cases hy

end

/-! ## The deliveries to a replica -/

variable [DecidableEq ι]

/-- The deliveries to replica `j`, oldest first. -/
def deliveredTo (q : Transactions γ ι) (j : ι) : List Message :=
  (q.deliveries.zipIdx.filter fun x => x.1.receiver = j).map (S.message q)

variable {S} {q q' : Transactions γ ι} {j : ι} {m : Message}

/-- On a queue whose deliveries are all of messages it has, the two ways to say it agree. -/
theorem mem_deliveredTo (hq : Queue.Wf q) : m ∈ S.deliveredTo q j ↔ ∃ k i, S.Delivers q k i j m := by
  unfold deliveredTo
  simp only [List.mem_map, List.mem_filter, decide_eq_true_eq, Prod.exists, List.mem_zipIdx_iff_getElem?]
  constructor
  · rintro ⟨⟨i, _⟩, k, ⟨hd, rfl⟩, rfl⟩
    have hlt := hq.known _ (List.mem_of_getElem? hd)
    refine ⟨k, i, hd, ?_, rfl⟩
    simp [message, List.getElem?_eq_getElem hlt]
  · rintro ⟨k, i, h⟩
    refine ⟨⟨i, j⟩, k, ⟨h.delivery, rfl⟩, ?_⟩
    unfold message
    rw [h.body, ← h.receiptHandle]
    rfl

theorem deliveredTo_nodup (q : Transactions γ ι) (j : ι) : ((S.deliveredTo q j).map Message.receiptHandle).Nodup := by
  have hnd : (q.deliveries.zipIdx.map Prod.snd).Nodup := by
    rw [List.zipIdx_map_snd]
    exact List.nodup_range' ..
  have hsub : ((q.deliveries.zipIdx.filter fun x => x.1.receiver = j).map Prod.snd).Nodup :=
    (List.filter_sublist.map _).nodup hnd
  have hkeys := hsub.map S.handle_injective
  rw [List.map_map] at hkeys
  unfold deliveredTo
  rw [List.map_map]
  exact hkeys

/-- A delivered message stays what it is. -/
theorem deliveredTo_grows (hq : Queue.Wf q) (hsent : q.sent <+: q'.sent) (hd : q'.deliveries = q.deliveries) (j : ι) :
    S.deliveredTo q' j = S.deliveredTo q j := by
  unfold deliveredTo
  rw [hd]
  apply List.map_congr_left
  rintro ⟨x, k⟩ hx
  have hmem := List.mem_of_getElem? (List.mem_zipIdx_iff_getElem?.1 (List.mem_filter.1 hx).1)
  have hletter := List.getElem?_eq_getElem (hq.known x hmem)
  simp only [message, hletter, Queue.getElem?_of_prefix hsent hletter]

/-- The messages of a batch are received by the replica they are delivered to. -/
theorem deliveredTo_receive {is : List Nat} {r : ι} (hsent : q'.sent = q.sent)
    (hd : q'.deliveries = q.deliveries ++ is.map (⟨·, r⟩)) (j : ι) :
    S.deliveredTo q' j = S.deliveredTo q j ++ if r = j then S.batch q is else [] := by
  have hmessage : S.message q' = S.message q := by
    funext x
    unfold message
    rw [hsent]
  have hbatch : ((is.map (⟨·, r⟩)).zipIdx q.deliveries.length).map (S.message q) = S.batch q is := by
    unfold batch
    rw [List.mapIdx_eq_zipIdx_map, List.zipIdx_map, List.zipIdx_eq_map_add]
    simp only [List.map_map]
    rfl
  have hreceiver : ∀ x ∈ (is.map fun i => (⟨i, r⟩ : Queue.Delivery ι)).zipIdx q.deliveries.length, x.1.receiver = r := by
    intro x hx
    obtain ⟨i, -, hi⟩ := List.mem_map.1 (List.fst_mem_of_mem_zipIdx hx)
    rw [← hi]
  unfold deliveredTo
  rw [hmessage, hd, List.zipIdx_append, List.filter_append, List.map_append, Nat.zero_add]
  congr 1
  split
  · rename_i hr
    rw [List.filter_eq_self.2 fun x hx => by simp [hreceiver x hx, hr], hbatch]
  · rename_i hr
    rw [List.filter_eq_nil_iff.2 fun x hx => by simp [hreceiver x hx, hr], List.map_nil]

end Setting

namespace Deployment

variable {γ ι : Type} [DecidableEq γ] [DecidableEq ι] {n : Nat} {S : Setting} {d d' : Deployment γ ι n}
  {a : Action γ ι n}

theorem replica_step {I : FraudDetectionService n → Prop} (hI : ∀ s a s', I s → s.step S.cfg a = some s' → I s')
    (h : d.step S a = some d') {j : ι} (hj : I (d.replicas j)) : I (d'.replicas j) :=
  Lts.run_inv hI hj ((replica S j).step_run d a d' trivial h)

theorem calls_step (h : d.step S a = some d') (j : ι) : (d.replicas j).pool.calls <+: (d'.replicas j).pool.calls :=
  replica_step (I := fun s => (d.replicas j).pool.calls <+: s.pool.calls)
    (fun _ _ _ hI hs => hI.trans (FraudDetectionService.calls_grow hs)) h List.prefix_rfl

/-- Only `receiveMessage` delivers. -/
theorem deliveries_step (ha : ∀ j p is, a ≠ .receiveReturns j p is) (h : d.step S a = some d') :
    d'.transactions.deliveries = d.transactions.deliveries := by
  rw [(logs_step h).deliveries]
  have hnone : (queueLabels S d d' a).flatMap Queue.Action.receives = [] := by
    refine List.flatMap_eq_nil_iff.2 fun action hm => ?_
    cases a with
    | generator g a => cases hm
    | publishMessage g src draws o kept => obtain ⟨p, -, body, ok, -, rfl⟩ := Setting.mem_stored hm; rfl
    | replica j a kept =>
      obtain ⟨c, -, hm⟩ := List.mem_flatMap.1 hm
      obtain ⟨receiptHandle, ok, k, -, -, rfl⟩ := Setting.mem_deletes hm
      rfl
    | receiveReturns j p is => exact absurd rfl (ha j p is)
    | queue event => rw [List.mem_singleton.1 hm]; cases event <;> rfl
  rw [hnone, List.append_nil]

theorem deliveries_receive {j : ι} {p : Nat} {is : List Nat} (h : d.step S (.receiveReturns j p is) = some d') :
    d'.transactions.deliveries = d.transactions.deliveries ++ is.map (⟨·, j⟩) := by
  rw [(logs_step h).deliveries, List.map_eq_flatMap]
  congr 1
  exact List.flatMap_map ..

/-- And a receipt is used only by a call of a replica. -/
theorem mem_deletes_step {k : Nat} (h : d.step S a = some d') (hk : k ∈ d'.transactions.deletes) :
    k ∈ d.transactions.deletes ∨ ∃ j m ok, Call.mk m (.deleteMessage S.cfg.urls.transactionQueueUrl (S.handle k) ok) ∈
      (d'.replicas j).pool.calls := by
  rw [(logs_step h).deletes] at hk
  refine (List.mem_append.1 hk).imp_right fun hk => ?_
  obtain ⟨action, hm, hka⟩ := List.mem_flatMap.1 hk
  cases a with
  | generator g a => cases hm
  | publishMessage g src draws o kept => obtain ⟨p, -, body, ok, -, rfl⟩ := Setting.mem_stored hm; cases hka
  | replica j a kept =>
    obtain ⟨c, hc, hm⟩ := List.mem_flatMap.1 hm
    obtain ⟨receiptHandle, ok, k', hevent, rfl, rfl⟩ := Setting.mem_deletes hm
    obtain rfl : k = k' := List.mem_singleton.1 hka
    refine ⟨j, c.delivery, ok, ?_⟩
    rw [← hevent]
    exact List.mem_of_mem_drop hc
  | receiveReturns j p is => obtain ⟨i, -, rfl⟩ := List.mem_map.1 hm; cases hka
  | queue event => rw [List.mem_singleton.1 hm] at hka; cases event <;> cases hka

theorem received_step (ha : ∀ j p is, a ≠ .receiveReturns j p is) (h : d.step S a = some d') (j : ι) :
    (d'.replicas j).received = (d.replicas j).received := by
  cases a with
  | generator g a => obtain ⟨-, x, -, rfl⟩ := step_generator.1 h; rfl
  | publishMessage g src draws o kept => obtain ⟨x, q, -, -, rfl⟩ := step_publishMessage.1 h; rfl
  | replica j' a kept =>
    obtain ⟨hr, s, q, hs, -, rfl⟩ := step_replica.1 h
    by_cases hj : j = j'
    · subst hj
      simp only [Function.update_self]
      exact System.received_step hr hs
    · simp only [Function.update_of_ne hj]
  | receiveReturns j p is => exact absurd rfl (ha j p is)
  | queue event => obtain ⟨q, -, rfl⟩ := step_queue.1 h; rfl

/-! ## The invariant -/

/-- The replicas and the queues agree on what has been delivered, deleted and sent. -/
structure Linked (S : Setting) (d : Deployment γ ι n) : Prop where
  wf : Queue.Wf d.transactions
  accounted : ∀ j, (d.replicas j).Accounted S.cfg
  received : ∀ j, (d.replicas j).received = S.deliveredTo d.transactions j
  deletes : ∀ k ∈ d.transactions.deletes, ∃ i j m ok, S.Delivers d.transactions k i j m ∧
    Call.mk m (.deleteMessage S.cfg.urls.transactionQueueUrl m.receiptHandle ok) ∈ (d.replicas j).pool.calls
  notifications : ∀ j, ((d.notifications.filter fun x => x.sender = j).map fun x => (x.delivery, x.body)).Sublist
    ((d.replicas j).pool.calls.filterMap Setting.notice)

omit [DecidableEq γ] in
theorem linked_new (enabled : γ → Bool) (running : ι → Bool) : (new S n enabled running).Linked S where
  wf := Queue.wf_new
  accounted j := FraudDetectionService.accounted_new (running j)
  received _ := rfl
  deletes := nofun
  notifications _ := List.Sublist.refl _

omit [DecidableEq γ] in
/-- A message a replica has assigned to a worker is one that was delivered to it. -/
theorem Linked.delivers {j : ι} {m : Message} (hI : d.Linked S) (hm : m ∈ (d.replicas j).pool.assigned) :
    ∃ k i, S.Delivers d.transactions k i j m := by
  apply (Setting.mem_deliveredTo hI.wf).1
  rw [← hI.received]
  exact received_of_assigned (hI.accounted j) hm

theorem linked_received (hI : d.Linked S) (h : d.step S a = some d') (j : ι) :
    (d'.replicas j).received = S.deliveredTo d'.transactions j := by
  by_cases ha : ∀ j p is, a ≠ .receiveReturns j p is
  · rw [received_step ha h, hI.received]
    exact (Setting.deliveredTo_grows hI.wf (logs_step h).grows.sent (deliveries_step ha h) j).symm
  · simp only [not_forall, not_not] at ha
    obtain ⟨r, p, is, rfl⟩ := ha
    have hsent : d'.transactions.sent = d.transactions.sent := by
      rw [(logs_step h).sent]
      simp [queueLabels, Queue.Action.sends]
    rw [Setting.deliveredTo_receive hsent (deliveries_receive h), ← hI.received]
    obtain ⟨-, q, s, -, hs, rfl⟩ := step_receiveReturns.1 h
    obtain ⟨-, rfl⟩ := FraudDetectionService.step_receiveReturns.1 hs
    by_cases hj : r = j
    · subst hj
      simp only [Function.update_self, if_true]
    · simp only [Function.update_of_ne (Ne.symm hj), if_neg hj, List.append_nil]

theorem linked_notifications (hI : d.Linked S) (h : d.step S a = some d') (j : ι) :
    ((d'.notifications.filter fun x => x.sender = j).map fun x => (x.delivery, x.body)).Sublist
      ((d'.replicas j).pool.calls.filterMap Setting.notice) := by
  have hold := (hI.notifications j).trans ((calls_step h j).sublist.filterMap Setting.notice)
  cases a with
  | generator g a => obtain ⟨-, x, -, rfl⟩ := step_generator.1 h; exact hold
  | publishMessage g src draws o kept => obtain ⟨x, q, -, -, rfl⟩ := step_publishMessage.1 h; exact hold
  | replica j' a kept =>
    obtain ⟨-, s, q, hs, -, rfl⟩ := step_replica.1 h
    have hsender : ∀ x ∈ (made (d.replicas j') s).flatMap (S.notifies j' kept), x.sender = j' := by
      intro x hx
      obtain ⟨c, -, hx⟩ := List.mem_flatMap.1 hx
      exact Setting.sender_of_mem_notifies hx
    rw [List.filter_append, List.map_append]
    by_cases hj : j' = j
    · subst hj
      simp only [Function.update_self]
      have hmine := List.filter_eq_self.2 fun x hx => decide_eq_true (hsender x hx)
      rw [calls_made hs, List.filterMap_append, hmine]
      exact (hI.notifications j').append (Setting.notifies_sublist j' kept _)
    · have hnone : ((made (d.replicas j') s).flatMap (S.notifies j' kept)).filter (fun x => x.sender = j) = [] := by
        refine List.filter_eq_nil_iff.2 fun x hx => ?_
        simpa [hsender x hx] using hj
      rw [hnone, List.map_nil, List.append_nil]
      exact hold
  | receiveReturns j' p is => obtain ⟨-, q, s, -, hs, rfl⟩ := step_receiveReturns.1 h; exact hold
  | queue event => obtain ⟨q, -, rfl⟩ := step_queue.1 h; exact hold

theorem linked_step (hI : d.Linked S) (h : d.step S a = some d') : d'.Linked S := by
  have haccounted : ∀ j, (d'.replicas j).Accounted S.cfg := fun j =>
    replica_step (fun _ _ _ hA hs => FraudDetectionService.accounted_step hA hs) h (hI.accounted j)
  have hwf : Queue.Wf d'.transactions := Queue.wf_run hI.wf (queue_step h)
  refine ⟨hwf, haccounted, linked_received hI h, fun k hk => ?_, linked_notifications hI h⟩
  rcases mem_deletes_step h hk with hk | ⟨j, m, ok, hc⟩
  · obtain ⟨i, j, m, ok, hd, hc⟩ := hI.deletes k hk
    exact ⟨i, j, m, ok, hd.grows (logs_step h).grows, (calls_step h j).subset hc⟩
  · -- the call is for a delivery of the replica, and passes the receipt of that delivery
    obtain ⟨hm, hown⟩ := (haccounted j).pool.calls _ hc
    obtain ⟨-, hhandle⟩ := hown _ _ _ rfl
    have hdelivered := received_of_assigned (haccounted j) hm
    rw [linked_received hI h] at hdelivered
    obtain ⟨k', i, hd⟩ := (Setting.mem_deliveredTo hwf).1 hdelivered
    obtain rfl : k = k' := S.handle_injective (hhandle.trans hd.receiptHandle)
    exact ⟨i, j, m, ok, hd, by rw [hd.receiptHandle]; exact hc⟩

theorem linked_run {enabled : γ → Bool} {running : ι → Bool} {actions : List (Action γ ι n)}
    (h : Lts.run (step S) (new S n enabled running) actions = some d) : d.Linked S :=
  Lts.run_inv (fun _ _ _ hI hs => linked_step hI hs) (linked_new enabled running) h

/-! ## The calls behind a notification -/

omit [DecidableEq γ] in
theorem Linked.notification {x : Notification ι} (hI : d.Linked S) (hx : x ∈ d.notifications) :
    ∃ queueUrl ok, Call.mk x.delivery (.sendMessage queueUrl x.body ok) ∈ (d.replicas x.sender).pool.calls := by
  have hmem : (x.delivery, x.body) ∈ (d.replicas x.sender).pool.calls.filterMap Setting.notice :=
    (hI.notifications x.sender).mem (List.mem_map.2 ⟨x, by simp [hx], rfl⟩)
  obtain ⟨⟨m, event⟩, hc, hnotice⟩ := List.mem_filterMap.1 hmem
  cases event with
  | sendMessage queueUrl body ok => cases hnotice; exact ⟨queueUrl, ok, hc⟩
  | _ => cases hnotice

omit [DecidableEq γ] in
theorem Linked.notification_delivers {x : Notification ι} (hI : d.Linked S) (hx : x ∈ d.notifications) :
    ∃ k i, S.Delivers d.transactions k i x.sender x.delivery := by
  obtain ⟨queueUrl, ok, hc⟩ := hI.notification hx
  exact hI.delivers ((hI.accounted x.sender).pool.calls _ hc).1

theorem countP_notice (m : Message) (calls : List Call) :
    (calls.filterMap Setting.notice).countP (fun x => x.1 = m) =
      ((calls.filter fun c => c.delivery = m).map Call.event).countP Service.Event.isSend := by
  rw [List.countP_filterMap, List.countP_map, List.countP_filter]
  apply List.countP_congr
  rintro ⟨m', event⟩ -
  cases event <;> simp [Setting.notice, Service.Event.isSend]

/-- The notifications for a message: those sent for one of its deliveries. -/
def noticesFor (S : Setting) (d : Deployment γ ι n) (i : Nat) : List (Notification ι) :=
  d.notifications.filter fun x =>
    d.transactions.deliveries.zipIdx.any fun y => y.1.message = i && x.delivery.receiptHandle = S.handle y.2

omit [DecidableEq γ] [DecidableEq ι] in
theorem mem_noticesFor {i : Nat} {x : Notification ι} : x ∈ noticesFor S d i ↔ x ∈ d.notifications ∧
    ∃ k j, d.transactions.deliveries[k]? = some ⟨i, j⟩ ∧ x.delivery.receiptHandle = S.handle k := by
  unfold noticesFor
  simp only [List.mem_filter, List.any_eq_true, Bool.and_eq_true, decide_eq_true_eq, Prod.exists,
    List.mem_zipIdx_iff_getElem?]
  refine and_congr_right fun _ => ?_
  constructor
  · rintro ⟨⟨i', j⟩, k, hk, rfl, hr⟩
    exact ⟨k, j, hk, hr⟩
  · rintro ⟨k, j, hk, hr⟩
    exact ⟨⟨i, j⟩, k, hk, rfl, hr⟩

section Run

variable {enabled : γ → Bool} {running : ι → Bool} {actions : List (Action γ ι n)}
  (h : Lts.run (step S) (new S n enabled running) actions = some d)
include h

theorem received_nodup (j : ι) : ((d.replicas j).received.map Message.receiptHandle).Nodup := by
  rw [(linked_run h).received]
  exact Setting.deliveredTo_nodup ..

/-- What a replica has called for a delivery is the beginning of the calls of a `processMessage`. -/
theorem callsOf_prefix {j : ι} {m : Message} (hm : m ∈ (d.replicas j).pool.assigned) :
    ∃ c, (d.replicas j).pool.callsOf m <+: Service.trace c S.cfg.urls m := by
  have hrun := replica_run h j
  have hnd := FraudDetectionService.assigned_nodup hrun (received_nodup h j).of_map
  have hI := Service.Pool.traced_run (FraudDetectionService.pool_run hrun) hnd
  rcases List.mem_append.1 (((linked_run h).accounted j).pool.assigned.mem_iff.1 hm) with hm | hm
  · obtain ⟨w, hw⟩ := Slots.mem_contents.1 hm
    exact hI.under_way hw
  · obtain ⟨c, hc⟩ := hI.finished m hm
    exact ⟨c, by rw [hc]⟩

/-- So it makes one `sendMessage` at most for a delivery. -/
theorem sends_le_one {j : ι} {m : Message} (hm : m ∈ (d.replicas j).pool.assigned) :
    ((d.replicas j).pool.callsOf m).countP Service.Event.isSend ≤ 1 := by
  obtain ⟨c, hc⟩ := callsOf_prefix h hm
  obtain ⟨front, oks, hfront, hcalls, -⟩ := Service.trace_shape c S.cfg.urls m
  refine (hc.sublist.countP_le).trans ?_
  rw [hcalls]
  exact Service.countP_send_front hfront

theorem notifications_le_one {k i : Nat} {j : ι} {m : Message} (hd : S.Delivers d.transactions k i j m) :
    (d.notifications.countP fun x => x.delivery.receiptHandle = m.receiptHandle) ≤ 1 := by
  have hI := linked_run h
  have hown : ∀ x ∈ d.notifications, x.delivery.receiptHandle = m.receiptHandle → x.sender = j ∧ x.delivery = m := by
    intro x hx hr
    obtain ⟨k', i', hd'⟩ := hI.notification_delivers hx
    obtain ⟨-, -, hj, hm⟩ := hd'.unique hd hr
    exact ⟨hj, hm⟩
  by_cases hm : m ∈ (d.replicas j).pool.assigned
  · refine Nat.le_trans ?_ (sends_le_one h hm)
    unfold Service.Pool.callsOf
    rw [← countP_notice]
    refine Nat.le_trans ?_ (hI.notifications j).countP_le
    rw [List.countP_map, List.countP_filter]
    apply List.countP_mono_left
    intro x hx hr
    obtain ⟨hj, hxm⟩ := hown x hx (of_decide_eq_true hr)
    simp [hj, hxm]
  · -- a notification would be for an assigned delivery
    rw [List.countP_eq_zero.2]
    · exact Nat.zero_le 1
    · intro x hx hr
      obtain ⟨rfl, rfl⟩ := hown x hx (of_decide_eq_true hr)
      obtain ⟨queueUrl, ok, hc⟩ := hI.notification hx
      exact hm ((hI.accounted x.sender).pool.calls _ hc).1

theorem notifications_handle_le_one (k : Nat) :
    (d.notifications.countP fun x => x.delivery.receiptHandle = S.handle k) ≤ 1 := by
  by_cases hk : ∃ x ∈ d.notifications, x.delivery.receiptHandle = S.handle k
  · obtain ⟨x, hx, hr⟩ := hk
    obtain ⟨k', i, hd⟩ := (linked_run h).notification_delivers hx
    rw [← hr]
    exact notifications_le_one h hd
  · rw [List.countP_eq_zero.2]
    · exact Nat.zero_le 1
    · intro x hx hr
      exact hk ⟨x, hx, of_decide_eq_true hr⟩

/-- There is a notification at most for each delivery of a message. -/
theorem notices_le_times (i : Nat) : (noticesFor S d i).length ≤ d.transactions.times i := by
  have hkeys : (d.transactions.deliveries.zipIdx.filter fun y => y.1.message = i).length = d.transactions.times i := by
    rw [← List.countP_eq_length_filter]
    unfold Queue.State.times
    conv_rhs => rw [← List.zipIdx_map_fst 0 d.transactions.deliveries, List.countP_map]
    rfl
  have hle : (d.notifications.countP fun x => (d.transactions.deliveries.zipIdx.filter fun y => y.1.message = i).any
      fun y => x.delivery.receiptHandle = S.handle y.2) ≤ _ :=
    Slots.countP_any_le fun y _ => notifications_handle_le_one h y.2
  rw [hkeys] at hle
  unfold noticesFor
  rw [← List.countP_eq_length_filter]
  simpa only [List.any_filter] using hle

end Run

/-! ## What holds of every run -/

/-- A replica polls message 0 and hands it to its worker. -/
def takesUp (j : Bool) : List (Action Unit Bool 1) :=
  [.replica j (.startProcessingThread true) false, .replica j (.testRunning 0) false, .replica j (.receiveMessage 0) false,
    .receiveReturns j 0 [0], .replica j (.submit 0) false]

def worker : Fin 1 := ⟨0, Nat.one_pos⟩

/-- The worker flags it. -/
def flags (j : Bool) : List (Action Unit Bool 1) :=
  [.work (.readValue worker true), .work (.insert worker),
    .work (.fireAllRules worker [⟨0, .highTransactionAmount⟩]), .work (.writeValueAsString worker true),
    .work (.sendMessage worker true), .work (.deleteMessage worker true)].map (.replica j · false)

/-- A message that becomes available again while a first replica is about to process it, and is processed by both. -/
def redeliveredRun : List (Action Unit Bool 1) :=
  .queue (.send Service.highText) :: takesUp true ++ .queue (.reappear 0) :: takesUp false ++ flags true ++ flags false

def sampleStart : Deployment Unit Bool 1 := new sampleSetting 1 (fun _ => true) fun _ => true

theorem redelivered : ∃ d, Lts.run (step sampleSetting) sampleStart redeliveredRun = some d ∧
    d.transactions.deliveries = [⟨0, true⟩, ⟨0, false⟩] ∧ d.transactions.status 0 = .deleted ∧
    d.transactions.reappeared = [0] := by
  have hrun : (Lts.run (step sampleSetting) sampleStart redeliveredRun).map
      (fun d => (d.transactions.deliveries, d.transactions.status 0, d.transactions.reappeared)) =
        some ([⟨0, true⟩, ⟨0, false⟩], .deleted, [0]) := by decide
  obtain ⟨d, hd, hstate⟩ := Option.map_eq_some_iff.1 hrun
  simp only [Prod.mk.injEq] at hstate
  exact ⟨d, hd, hstate⟩

/-- Replica `j` starts no poller while one is alive. -/
def PollsAlone (j : ι) (d : Deployment γ ι n) : Action γ ι n → Prop
  | .replica j' a _ => j' = j → (d.replicas j).StartsAlone a
  | _ => True

instance (j : ι) (d : Deployment γ ι n) (a : Action γ ι n) : Decidable (PollsAlone j d a) :=
  match a with
  | .replica j' a _ => inferInstanceAs (Decidable (j' = j → (d.replicas j).StartsAlone a))
  | .generator .. | .publishMessage .. | .receiveReturns .. | .queue _ => .isTrue trivial

/-- A replica of any number of workers that starts no second poller gives the messages to its workers in the order in which
they are delivered to it: the rest are still queued, or were taken from its executor or refused by it when it was shut down,
or are with the poller. -/
theorem assigned_as_delivered (S : Setting) (n : Nat) (enabled : γ → Bool) (running : ι → Bool)
    (actions : List (Action γ ι n)) (d : Deployment γ ι n)
    (h : Lts.run (step S) (new S n enabled running) actions = some d) (j : ι)
    (halone : Lts.Along (step S) (PollsAlone j) (new S n enabled running) actions) :
    S.deliveredTo d.transactions j = (d.replicas j).pool.assigned ++ (d.replicas j).queue ++ (d.replicas j).discarded ++
      (d.replicas j).refused ++ (d.replicas j).held := by
  have hstarts : Lts.Along (FraudDetectionService.step S.cfg) FraudDetectionService.StartsAlone (.new n (running j))
      ((replica S j).trace (new S n enabled running) actions) := by
    refine (replica S j).along_trace (fun t a t' _ hC _ => ?_) Lts.along_true halone h
    cases a with
    | replica j' a kept =>
      simp only [replica, replicaLabels]
      split
      · rename_i hj
        exact Lts.along_single.2 (hC hj)
      · trivial
    | receiveReturns j' p is =>
      simp only [replica, replicaLabels]
      split
      · exact Lts.along_single.2 trivial
      · trivial
    | _ => trivial
  have hordered : (d.replicas j).Ordered := Lts.run_inv_along (fun _ _ _ => FraudDetectionService.ordered_step)
    (FraudDetectionService.ordered_new (running j)) hstarts (replica_run h j)
  rw [← (linked_run h).received, hordered.received, (FraudDetectionService.fifo_run (replica_run h j)).accepted]

/-- A batch that two workers and the executor's queue take up. -/
def batchRun : List (Action Unit Bool 2) :=
  [.queue (.send Service.normalText), .queue (.send Service.highText), .queue (.send "null")] ++
    [.replica true (.startProcessingThread true) false, .replica true (.testRunning 0) false,
      .replica true (.receiveMessage 0) false, .receiveReturns true 0 [2, 0, 1]] ++
    List.replicate 3 (.replica true (.submit 0) false)

theorem assigned_as_delivered_batch : ∃ d,
    Lts.run (step sampleSetting) (new sampleSetting 2 (fun _ => true) fun _ => true) batchRun = some d ∧
      sampleSetting.deliveredTo d.transactions true = (d.replicas true).pool.assigned ++ (d.replicas true).queue ∧
      (d.replicas true).queue = [⟨Service.highText, sampleSetting.handle 2⟩] := by
  have hrun : (Lts.run (step sampleSetting) (new sampleSetting 2 (fun _ => true) fun _ => true) batchRun).map (fun d =>
      ((d.replicas true).queue, (d.replicas true).discarded, (d.replicas true).refused, (d.replicas true).held)) =
        some ([⟨Service.highText, sampleSetting.handle 2⟩], [], [], []) := by decide
  obtain ⟨d, hd, hstate⟩ := Option.map_eq_some_iff.1 hrun
  simp only [Prod.mk.injEq] at hstate
  obtain ⟨hqueue, hdiscarded, hrefused, hheld⟩ := hstate
  have horder := assigned_as_delivered sampleSetting 2 _ _ batchRun d hd true (by decide)
  rw [hdiscarded, hrefused, hheld] at horder
  exact ⟨d, hd, by simpa using horder, hqueue⟩

/-- A delivery is notified of at most once, so a message at most once, and once more each time it has become available
again. -/
theorem notified_at_most (S : Setting) (n : Nat) (enabled : γ → Bool) (running : ι → Bool)
    (actions : List (Action γ ι n)) (d : Deployment γ ι n)
    (h : Lts.run (step S) (new S n enabled running) actions = some d) :
    (∀ k, (d.notifications.countP fun x => x.delivery.receiptHandle = S.handle k) ≤ 1) ∧
      ∀ i, (noticesFor S d i).length ≤ d.transactions.times i ∧
        d.transactions.times i ≤ d.transactions.reappeared.count i + 1 :=
  ⟨notifications_handle_le_one h, fun i => ⟨notices_le_times h i, (linked_run h).wf.times_le i⟩⟩

theorem notified_at_most_redelivered : ∃ d, Lts.run (step sampleSetting) sampleStart redeliveredRun = some d ∧
    (noticesFor sampleSetting d 0).length ≤ 2 := by
  obtain ⟨d, hd, -, -, hreappeared⟩ := redelivered
  obtain ⟨-, hle⟩ := notified_at_most sampleSetting 1 _ _ redeliveredRun d hd
  obtain ⟨hnotices, htimes⟩ := hle 0
  have hcount : d.transactions.reappeared.count 0 = 1 := by rw [hreappeared]; rfl
  exact ⟨d, hd, by omega⟩

end Deployment

end FraudDetect.System
