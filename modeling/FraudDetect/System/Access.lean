/-
The permissions of the deployment. Both programs run under one service account, and its policy decides which of their calls
of SQS can complete: one whose action has not been granted throws and has no effect. A notification takes three actions, of
which the policy that `init.py` creates grants two.
-/
import FraudDetect.Generator.Requests
import FraudDetect.System.Origins
import FraudDetect.System.Recovery

namespace FraudDetect.System

/-! ## Actions -/

inductive SqsAction
  | sendMessage
  | receiveMessage
  | deleteMessage
  | getQueueAttributes
  | getQueueUrl
deriving DecidableEq, Repr

/-- The actions that `FraudDetectionPolicy` allows on every resource. -/
def fraudDetectionPolicy : List SqsAction := [.sendMessage, .receiveMessage, .deleteMessage, .getQueueAttributes]

/-- The action that must have been granted for a call of a generator to end as it did. -/
def generatorAction (kept : Bool) : Generator.Event → Option SqsAction
  | .getQueueUrl _ ok => if ok then some .getQueueUrl else none
  | .sendMessage _ _ ok => if ok || kept then some .sendMessage else none
  | .writeValueAsString _ => none

/-- The action that must have been granted for a call of `processMessage` to end as it did. -/
def detectorAction (kept : Bool) : Service.Event → Option SqsAction
  | .sendMessage _ _ ok => if ok || kept then some .sendMessage else none
  | .deleteMessage _ _ ok => if ok || kept then some .deleteMessage else none
  | _ => none

namespace Deployment

variable {γ ι : Type} [DecidableEq γ] [DecidableEq ι] {n : Nat} {S : Setting} {granted : List SqsAction}
  {d d' : Deployment γ ι n} {a : Action γ ι n}

/-- No call made in the step completes, or takes effect, without its action being granted. -/
def Permitted (S : Setting) (granted : List SqsAction) (d : Deployment γ ι n) : Action γ ι n → Prop
  | .publishMessage g _ draws o kept =>
    ∀ id, ∀ event ∈ Generator.publishCalls (d.generators g).queueName (S.callees draws o) id, ∀ x,
      generatorAction kept event = some x → x ∈ granted
  | .replica j a kept =>
    (a = .startProcessingThread true → (d.replicas j).isRunning = true → .getQueueUrl ∈ granted) ∧
      ∀ s, (d.replicas j).step S.cfg a = some s → ∀ c ∈ made (d.replicas j) s, ∀ x,
        detectorAction kept c.event = some x → x ∈ granted
  | .receiveReturns .. => .receiveMessage ∈ granted
  | _ => True

omit [DecidableEq γ] [DecidableEq ι] in
theorem permitted_of_all (hall : ∀ x, x ∈ granted) (d : Deployment γ ι n) (a : Action γ ι n) :
    d.Permitted S granted a := by
  cases a with
  | publishMessage g src draws o kept => exact fun _ _ _ x _ => hall x
  | replica j a kept => exact ⟨fun _ _ => hall _, fun _ _ _ _ x _ => hall x⟩
  | receiveReturns j p is => exact hall _
  | _ => trivial

/-! ## Without `GetQueueUrl` -/

omit [DecidableEq γ] [DecidableEq ι] in
theorem not_startsPoller (hurl : .getQueueUrl ∉ granted) (ha : d.Permitted S granted a) (j : ι) :
    ¬ StartsPoller j d a := by
  cases a with
  | replica j' a kept =>
    rintro ⟨rfl, rfl, hrunning⟩
    exact hurl (ha.1 rfl hrunning)
  | _ => exact id

/-- No generator puts a message on the queue. -/
theorem origin_step (hurl : .getQueueUrl ∉ granted) (ha : d.Permitted S granted a) (h : d.step S a = some d')
    (hI : ∀ letter ∈ d.transactions.sent, letter.origin = .other) :
    ∀ letter ∈ d'.transactions.sent, letter.origin = .other := by
  rw [(logs_step h).sent]
  intro letter hl
  rcases List.mem_append.1 hl with hl | hl
  · exact hI letter hl
  obtain ⟨action, hm, hl⟩ := List.mem_flatMap.1 hl
  cases a with
  | generator g b => cases hm
  | publishMessage g src draws o kept =>
    obtain ⟨p, -, body, ok, hsend, -⟩ := Setting.mem_stored hm
    obtain ⟨resolves, writes, sends⟩ := o
    -- the queue was resolved before the message was sent
    cases resolves with
    | false =>
      have hcalls : Generator.publishCalls (d.generators g).queueName (S.callees draws ⟨false, writes, sends⟩) p.2.text =
          [.getQueueUrl (d.generators g).queueName false] := rfl
      rw [hcalls] at hsend
      cases List.mem_singleton.1 hsend
    | true =>
      refine absurd (ha p.2.text (.getQueueUrl (d.generators g).queueName true) ?_ _ rfl) hurl
      cases writes <;> cases sends <;> exact List.mem_cons_self ..
  | replica j b kept =>
    obtain ⟨c, -, hm⟩ := List.mem_flatMap.1 hm
    obtain ⟨receiptHandle, ok, k, -, -, rfl⟩ := Setting.mem_deletes hm
    cases hl
  | receiveReturns j p is =>
    obtain ⟨i, -, rfl⟩ := List.mem_map.1 hm
    cases hl
  | queue event =>
    obtain rfl : action = event.action := List.mem_singleton.1 hm
    cases event with
    | send body =>
      obtain rfl : letter = ⟨body, .other⟩ := List.mem_singleton.1 hl
      rfl
    | _ => cases hl

section Run

variable {enabled : γ → Bool} {running : ι → Bool} {actions : List (Action γ ι n)}
  (h : Lts.run (step S) (new S n enabled running) actions = some d)
  (hpermitted : Lts.Along (step S) (Permitted S granted) (new S n enabled running) actions)
include h hpermitted

theorem no_delivery (hurl : .getQueueUrl ∉ granted) : d.transactions.deliveries = [] := by
  have hdeaf : ∀ j, Deaf d j 0 := by
    intro j
    have hnew : Deaf (new S n enabled running) j 0 := by
      refine ⟨?_, fun k i hk => ?_⟩
      · rintro p ⟨y, hy, -⟩
        cases hy
      · cases hk
    refine deaf_run hnew ?_ h
    exact Lts.along_of_along (J := fun _ => True) (fun _ _ _ _ _ _ => trivial)
      (fun _ _ _ ha => not_startsPoller hurl ha j) trivial hpermitted
  rw [List.eq_nil_iff_forall_not_mem]
  rintro ⟨i, j⟩ hd
  obtain ⟨k, hk⟩ := List.mem_iff_getElem?.1 hd
  exact absurd ((hdeaf j).deliveries k i hk) (Nat.not_lt_zero k)

theorem origins_other (hurl : .getQueueUrl ∉ granted) : ∀ letter ∈ d.transactions.sent, letter.origin = .other :=
  Lts.run_inv_along (fun _ _ _ hI ha hs => origin_step hurl ha hs hI) (fun _ hl => by cases hl) hpermitted h

/-! ## Without `ReceiveMessage` or `SendMessage` -/

theorem nothing_received (hreceive : .receiveMessage ∉ granted) : d.transactions.deliveries = [] := by
  refine Lts.run_inv_along (I := fun t : Deployment γ ι n => t.transactions.deliveries = []) (fun t a t' hI ha hs => ?_) rfl
    hpermitted h
  rw [deliveries_step (fun j p is he => ?_) hs, hI]
  subst he
  exact hreceive ha

theorem nothing_notified (hsend : .sendMessage ∉ granted) : d.notifications = [] := by
  refine Lts.run_inv_along (I := fun t : Deployment γ ι n => t.notifications = []) (fun t a t' hI ha hs => ?_) rfl
    hpermitted h
  cases a with
  | generator g a => obtain ⟨-, x, -, rfl⟩ := step_generator.1 hs; exact hI
  | publishMessage g src draws o kept => obtain ⟨x, q, -, -, rfl⟩ := step_publishMessage.1 hs; exact hI
  | replica j a kept =>
    obtain ⟨-, s, q, hstep, -, rfl⟩ := step_replica.1 hs
    refine List.append_eq_nil_iff.2 ⟨hI, List.flatMap_eq_nil_iff.2 fun c hc => ?_⟩
    have hnot := ha.2 s hstep c hc .sendMessage
    obtain ⟨m, event⟩ := c
    cases event with
    | sendMessage queueUrl body ok =>
      simp only [Setting.notifies]
      split
      · rename_i hsent
        exact absurd (hnot (by simp [detectorAction, hsent.2])) hsend
      · rfl
    | _ => rfl
  | receiveReturns j p is => obtain ⟨-, q, s, -, -, rfl⟩ := step_receiveReturns.1 hs; exact hI
  | queue event => obtain ⟨q, -, rfl⟩ := step_queue.1 hs; exact hI

end Run

omit [DecidableEq γ] in
/-- A notification is for a delivery. -/
theorem Linked.notifications_nil (hI : d.Linked S) (hd : d.transactions.deliveries = []) : d.notifications = [] := by
  rw [List.eq_nil_iff_forall_not_mem]
  intro x hx
  obtain ⟨k, i, hdelivers⟩ := hI.notification_delivers hx
  have hk := hdelivers.delivery
  rw [hd] at hk
  cases hk

/-! ## What holds of every run -/

/-- In a run in which something is notified of, resolving the queues, receiving and sending have all been granted. -/
theorem notified_needs (S : Setting) (n : Nat) (enabled : γ → Bool) (running : ι → Bool) (granted : List SqsAction)
    (actions : List (Action γ ι n)) (d : Deployment γ ι n)
    (h : Lts.run (step S) (new S n enabled running) actions = some d)
    (hpermitted : Lts.Along (step S) (Permitted S granted) (new S n enabled running) actions)
    (hne : d.notifications ≠ []) :
    .getQueueUrl ∈ granted ∧ .receiveMessage ∈ granted ∧ .sendMessage ∈ granted := by
  refine ⟨?_, ?_, ?_⟩ <;> by_contra hnot
  · exact hne ((linked_run h).notifications_nil (no_delivery h hpermitted hnot))
  · exact hne ((linked_run h).notifications_nil (nothing_received h hpermitted hnot))
  · exact hne (nothing_notified h hpermitted hnot)

/-- With `GetQueueUrl` granted as well, a generated transaction gets through. -/
theorem notified_needs_getQueueUrl : ∃ d, Lts.run (step generatedSetting) generatedStart generatedRun = some d ∧
    Lts.Along (step generatedSetting) (Permitted generatedSetting (.getQueueUrl :: fraudDetectionPolicy)) generatedStart
      generatedRun ∧ d.notifications ≠ [] ∧
    .getQueueUrl ∈ SqsAction.getQueueUrl :: fraudDetectionPolicy ∧
      .receiveMessage ∈ SqsAction.getQueueUrl :: fraudDetectionPolicy ∧
      .sendMessage ∈ SqsAction.getQueueUrl :: fraudDetectionPolicy := by
  obtain ⟨d, hd, hnotifications, -⟩ := generated_notified
  have hne : d.notifications ≠ [] := by
    rw [hnotifications]
    exact List.cons_ne_nil _ _
  have hall : ∀ x, x ∈ SqsAction.getQueueUrl :: fraudDetectionPolicy := by
    intro x
    cases x <;> decide
  have hpermitted : Lts.Along (step generatedSetting)
      (Permitted generatedSetting (.getQueueUrl :: fraudDetectionPolicy)) generatedStart generatedRun :=
    Lts.along_of_forall fun a _ t => permitted_of_all hall t a
  exact ⟨d, hd, hpermitted, hne, notified_needs generatedSetting 1 _ _ _ generatedRun d hd hpermitted hne⟩

/-- Under the policy that `init.py` creates nothing gets through, in any run: the generators put no message on the queue,
nothing is delivered to a replica and nothing is notified of. A request is answered all the same as if its messages had been
sent. -/
theorem nothing_under_policy (S : Setting) (n : Nat) (enabled : γ → Bool) (running : ι → Bool)
    (actions : List (Action γ ι n)) (d : Deployment γ ι n)
    (h : Lts.run (step S) (new S n enabled running) actions = some d)
    (hpermitted : Lts.Along (step S) (Permitted S fraudDetectionPolicy) (new S n enabled running) actions) :
    (∀ letter ∈ d.transactions.sent, letter.origin = .other) ∧ d.transactions.deliveries = [] ∧ d.notifications = [] ∧
      ∀ g, ∀ q ∈ (d.generators g).requests, ∀ text, q.point = .responded text → 0 < q.count →
        text = Generator.response q.count.toInt := by
  have hurl : SqsAction.getQueueUrl ∉ fraudDetectionPolicy := by decide
  have hd := no_delivery h hpermitted hurl
  exact ⟨origins_other h hpermitted hurl, hd, (linked_run h).notifications_nil hd, fun g _ hq _ hp hcount =>
    Generator.TransGenerator.responded_response (generator_run h g) hq hp hcount⟩

/-- A request for one message and a replica, whose calls of `getQueueUrl` throw. -/
def refusedRun : List (Action Unit Bool 1) :=
  [.generator () (.generate 1), .generator () (.currentTimeMillis (.generate 0) 0),
    .publishMessage () (.generate 0) highDraws ⟨false, true, true⟩ false, .generator () (.respond 0),
    .replica true (.startProcessingThread false) false]

theorem nothing_under_policy_refused : ∃ d, Lts.run (step sampleSetting) sampleStart refusedRun = some d ∧
    (d.generators ()).requests.map Generator.Request.point = [.responded "1 messages generated successfully."] ∧
      d.transactions.deliveries = [] ∧ d.notifications = [] := by
  have hrun : (Lts.run (step sampleSetting) sampleStart refusedRun).map (fun d =>
      (d.generators ()).requests.map Generator.Request.point) = some [.responded "1 messages generated successfully."] := by
    decide +kernel
  obtain ⟨d, hd, hrequests⟩ := Option.map_eq_some_iff.1 hrun
  have hpermitted :
      Lts.Along (step sampleSetting) (Permitted sampleSetting fraudDetectionPolicy) sampleStart refusedRun := by
    refine Lts.along_of_forall fun a ha t => ?_
    simp only [refusedRun, List.mem_cons, List.not_mem_nil, or_false] at ha
    rcases ha with rfl | rfl | rfl | rfl | rfl
    · trivial
    · trivial
    · intro id event hevent x hx
      obtain rfl : event = .getQueueUrl (t.generators ()).queueName false := List.mem_singleton.1 hevent
      cases hx
    · trivial
    · refine ⟨nofun, fun s hs c hc => ?_⟩
      obtain ⟨-, rfl⟩ := Service.FraudDetectionService.step_startProcessingThread.1 hs
      simp [made] at hc
  obtain ⟨-, hdeliveries, hnotifications, -⟩ := nothing_under_policy sampleSetting 1 _ _ refusedRun d hd hpermitted
  exact ⟨d, hd, hrequests, hdeliveries, hnotifications⟩

end Deployment

end FraudDetect.System
