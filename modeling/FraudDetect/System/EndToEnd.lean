/-
From end to end. In a run in which the rule engine does not throw and no replica fires the activations of one transaction
for another, a flagged message that has been deleted has been notified of, unless a call made for it has thrown, and only
flagged transactions are notified of, each with the reason of a rule it satisfies. So for the messages of a generator the
draws decide what is on the notify queue.
-/
import FraudDetect.System.Origins

namespace FraudDetect.System

open Drools (Rule Transaction flagged)
open Service (FraudDetectionService Message Call Task)
open Generator (Draws generateRandomTransaction)

/-- The rule engine of a replica does not throw. -/
def EngineReturns {γ ι : Type} {n : Nat} : Action γ ι n → Prop
  | .replica _ a _ => FraudDetectionService.EngineReturns a
  | _ => True

namespace Deployment

variable {γ ι : Type} {n : Nat}

/-- Each replica takes its `fireAllRules` while none of its other workers is between its `insert` and its `fireAllRules` with
a transaction that satisfies a rule. -/
def FiresAlone (d : Deployment γ ι n) : Action γ ι n → Prop
  | .replica j a _ => (d.replicas j).FiresAlone a
  | _ => True

variable [DecidableEq γ] [DecidableEq ι] {S : Setting} {d d' : Deployment γ ι n} {a : Action γ ι n}

/-- What was sent without an exception is on the notify queue. -/
def Noted (S : Setting) (d : Deployment γ ι n) : Prop :=
  ∀ j m body, Call.mk m (.sendMessage S.cfg.urls.notifyQueueUrl body true) ∈ (d.replicas j).pool.calls →
    ⟨j, m, body⟩ ∈ d.notifications

theorem noted_step (hI : d.Noted S) (h : d.step S a = some d') : d'.Noted S := by
  intro j m body hc
  cases a with
  | generator g a => obtain ⟨-, x, -, rfl⟩ := step_generator.1 h; exact hI j m body hc
  | publishMessage g src draws o kept => obtain ⟨x, q, -, -, rfl⟩ := step_publishMessage.1 h; exact hI j m body hc
  | replica j' a kept =>
    obtain ⟨-, s, q, hs, -, rfl⟩ := step_replica.1 h
    by_cases hj : j = j'
    · subst hj
      simp only [Function.update_self] at hc
      rw [calls_made hs] at hc
      refine List.mem_append.2 ((List.mem_append.1 hc).imp (hI j m body) fun hc => ?_)
      exact List.mem_flatMap.2 ⟨_, hc, by simp [Setting.notifies]⟩
    · simp only [Function.update_of_ne hj] at hc
      exact List.mem_append_left _ (hI j m body hc)
  | receiveReturns j' p is =>
    obtain ⟨-, q, s, -, hs, rfl⟩ := step_receiveReturns.1 h
    obtain ⟨-, rfl⟩ := FraudDetectionService.step_receiveReturns.1 hs
    refine hI j m body ?_
    by_cases hj : j = j'
    · subst hj
      simp only [Function.update_self] at hc
      exact hc
    · simp only [Function.update_of_ne hj] at hc
      exact hc
  | queue event => obtain ⟨q, -, rfl⟩ := step_queue.1 h; exact hI j m body hc

section Run

variable {enabled : γ → Bool} {running : ι → Bool} {actions : List (Action γ ι n)}
  (h : Lts.run (step S) (new S n enabled running) actions = some d)
include h

theorem noted_run : d.Noted S :=
  Lts.run_inv (fun _ _ _ hI hs => noted_step hI hs) (fun _ _ _ hc => by cases hc) h

variable (hengine : ∀ a ∈ actions, EngineReturns a)
  (hfires : Lts.Along (step S) FiresAlone (new S n enabled running) actions)
include hengine hfires

/-- What a replica has called for a delivery is the beginning of the calls of a task. -/
theorem task_of_assigned {j : ι} {m : Message} (hm : m ∈ (d.replicas j).pool.assigned) :
    ∃ k : Task, k.message = m ∧ k.Valid S.cfg ∧ (d.replicas j).pool.callsOf m <+: k.events S.cfg := by
  have hrun := replica_run h j
  have hreturns : ∀ b ∈ (replica S j).trace (new S n enabled running) actions, FraudDetectionService.EngineReturns b := by
    intro b hb
    obtain ⟨t, a, ha, hb⟩ := (replica S j).mem_trace hb
    have hreturn := hengine a ha
    cases a with
    | replica j' a kept =>
      simp only [replica, replicaLabels] at hb
      split at hb
      · rw [List.mem_singleton.1 hb]; exact hreturn
      · cases hb
    | receiveReturns j' p is =>
      simp only [replica, replicaLabels] at hb
      split at hb
      · rw [List.mem_singleton.1 hb]; trivial
      · cases hb
    | _ => cases hb
  have halone : Lts.Along (FraudDetectionService.step S.cfg) FraudDetectionService.FiresAlone (.new n (running j))
      ((replica S j).trace (new S n enabled running) actions) := by
    refine (replica S j).along_trace (fun t a t' _ hC _ => ?_) Lts.along_true hfires h
    cases a with
    | replica j' a kept =>
      simp only [replica, replicaLabels]
      split
      · rename_i hj
        subst hj
        exact Lts.along_single.2 hC
      · trivial
    | receiveReturns j' p is =>
      simp only [replica, replicaLabels]
      split
      · exact Lts.along_single.2 trivial
      · trivial
    | _ => trivial
  have hI := FraudDetectionService.tasked_run hreturns halone hrun (received_nodup h j).of_map
  rcases List.mem_append.1 (((linked_run h).accounted j).pool.assigned.mem_iff.1 hm) with hm | hm
  · obtain ⟨w, hw⟩ := Slots.mem_contents.1 hm
    obtain ⟨k, hk, ⟨hvalid, -⟩, hcalls⟩ := (hI.working w m hw).task hw
    exact ⟨k, hk, hvalid, hcalls⟩
  · obtain ⟨k, hk, ⟨hvalid, -⟩, hcalls⟩ := hI.finished m hm
    exact ⟨k, hk, hvalid, by rw [hcalls]⟩

/-- A deleted message whose transaction satisfies a rule has been notified of, or a call for it has thrown. -/
theorem notified_of_deleted {i : Nat} {letter : Letter γ} {t : Transaction} (hi : d.transactions.status i = .deleted)
    (hletter : d.transactions.sent[i]? = some letter) (ht : S.cfg.mapper.readValue letter.body = some (some t))
    (hf : flagged t = true) : ∃ k j m, S.Delivers d.transactions k i j m ∧
      ((∃ rule : Rule, rule.when t = true ∧
          ⟨j, m, S.cfg.mapper.writeValueAsString (t.setFraudReason rule.reason)⟩ ∈ d.notifications) ∨
        ∃ x ∈ (d.replicas j).pool.callsOf m, x.isDelete = false ∧ x.threw = true) := by
  have hI := linked_run h
  obtain ⟨k, hk, x, hx, rfl⟩ := hI.wf.deleted i hi
  obtain ⟨i', j, m, ok, hd, hc⟩ := hI.deletes k hk
  have hx' := hd.delivery
  rw [hx] at hx'
  cases hx'
  refine ⟨k, j, m, hd, ?_⟩
  have hbody : letter.body = m.body := by
    have hbody := hd.body
    rw [hletter] at hbody
    exact Option.some.inj hbody
  obtain ⟨task, rfl, hvalid, hcalls⟩ := task_of_assigned h hengine hfires ((hI.accounted j).pool.calls _ hc).1
  rw [hbody] at ht
  refine (Task.notify_before_delete ht hf hcalls (Service.Pool.mem_callsOf.2 hc) rfl).imp_left ?_
  rintro ⟨hreads, hnotify⟩
  refine ⟨task.rule, hvalid t (by rw [hreads]; exact ht) hf, ?_⟩
  exact noted_run h _ _ _ (Service.Pool.mem_callsOf.1 hnotify)

/-- A notification is for a transaction that satisfies a rule, and says so. -/
theorem flagged_of_notified {x : Notification ι} (hx : x ∈ d.notifications) : ∃ (t : Transaction) (rule : Rule),
    S.cfg.mapper.readValue x.delivery.body = some (some t) ∧ rule.when t = true ∧
      x.body = S.cfg.mapper.writeValueAsString (t.setFraudReason rule.reason) := by
  have hI := linked_run h
  obtain ⟨queueUrl, ok, hc⟩ := hI.notification hx
  obtain ⟨task, hmessage, hvalid, hcalls⟩ :=
    task_of_assigned h hengine hfires ((hI.accounted x.sender).pool.calls _ hc).1
  obtain ⟨t, hd, hf, hbody⟩ := Task.send_flagged (hcalls.subset (Service.Pool.mem_callsOf.2 hc))
  refine ⟨t, task.rule, ?_, hvalid t hd hf, hbody⟩
  rw [hmessage] at hd
  unfold Service.Config.decode at hd
  split at hd
  · exact hd
  · cases hd

/-- The messages of a generator: of one that has been deleted after calls that did not throw there is a notification exactly
when its draws satisfy a rule. -/
theorem notices_of_generated {i p : Nat} {body : String} {g : γ} {draws : Draws ℚ}
    (hletter : d.transactions.sent[i]? = some ⟨body, .published g p draws⟩)
    (hreads : ∀ src id, (d.generators g).published[p]? = some (src, id) →
      ReadsBack S (generateRandomTransaction draws id.text)) (hi : d.transactions.status i = .deleted)
    (hok : ∀ k j m, S.Delivers d.transactions k i j m → ∀ x ∈ (d.replicas j).pool.callsOf m,
      x.isDelete = false → x.threw = false) :
    noticesFor S d i ≠ [] ↔ ∃ rule, Satisfies draws rule := by
  obtain ⟨src, id, hp, rfl⟩ := (posted_run h).letter i p body g draws hletter
  have hread := hreads src id hp
  constructor
  · intro hne
    obtain ⟨x, hx⟩ := List.exists_mem_of_ne_nil _ hne
    obtain ⟨hx, k, j, hk, hr⟩ := mem_noticesFor.1 hx
    obtain ⟨k', i', hd⟩ := (linked_run h).notification_delivers hx
    obtain rfl : k = k' := S.handle_injective (hr.symm.trans hd.receiptHandle)
    have hd' := hd.delivery
    rw [hk] at hd'
    cases hd'
    obtain ⟨t, rule, ht, hwhen, -⟩ := flagged_of_notified h hengine hfires hx
    have hbody := hd.body
    rw [hletter] at hbody
    rw [← Option.some.inj hbody, hread] at ht
    obtain rfl : (generateRandomTransaction draws id.text).received = t := by simpa using ht
    exact ⟨rule, (when_generated_iff draws id.text rule).1 hwhen⟩
  · rintro ⟨rule, hrule⟩ hnone
    have hf := Drools.flagged_iff.2 ⟨rule, (when_generated_iff draws id.text rule).2 hrule⟩
    obtain ⟨k, j, m, hd, ⟨rule', -, hx⟩ | ⟨x, hx, hdelete, hthrew⟩⟩ :=
      notified_of_deleted h hengine hfires hi hletter hread hf
    · have hmem := mem_noticesFor.2 ⟨hx, k, j, hd.delivery, hd.receiptHandle⟩
      rw [hnone] at hmem
      cases hmem
    · rw [hok k j m hd x hx hdelete] at hthrew
      cases hthrew

end Run

/-! ## What holds of every run -/

/-- In every run in which the rule engine does not throw and the replicas fire alone: a message that has been deleted and
whose transaction satisfies a rule has been notified of, with the reason of such a rule, or a `readValue`,
`writeValueAsString` or `sendMessage` for it has thrown; and every notification is for a transaction that satisfies a rule
and gives the reason of one. -/
theorem flagged_notified (S : Setting) (n : Nat) (enabled : γ → Bool) (running : ι → Bool)
    (actions : List (Action γ ι n)) (d : Deployment γ ι n)
    (h : Lts.run (step S) (new S n enabled running) actions = some d) (hengine : ∀ a ∈ actions, EngineReturns a)
    (hfires : Lts.Along (step S) FiresAlone (new S n enabled running) actions) :
    (∀ i letter t, d.transactions.status i = .deleted → d.transactions.sent[i]? = some letter →
        S.cfg.mapper.readValue letter.body = some (some t) → flagged t = true →
        ∃ k j m, S.Delivers d.transactions k i j m ∧
          ((∃ rule : Rule, rule.when t = true ∧
              ⟨j, m, S.cfg.mapper.writeValueAsString (t.setFraudReason rule.reason)⟩ ∈ d.notifications) ∨
            ∃ x ∈ (d.replicas j).pool.callsOf m, x.isDelete = false ∧ x.threw = true)) ∧
      ∀ x ∈ d.notifications, ∃ (t : Transaction) (rule : Rule), S.cfg.mapper.readValue x.delivery.body = some (some t) ∧
        rule.when t = true ∧ x.body = S.cfg.mapper.writeValueAsString (t.setFraudReason rule.reason) :=
  ⟨fun _ _ _ hi hletter ht hf => notified_of_deleted h hengine hfires hi hletter ht hf,
    fun _ hx => flagged_of_notified h hengine hfires hx⟩

theorem engineReturns_generatedRun : ∀ a ∈ generatedRun, EngineReturns a := by
  simp [generatedRun, takesUp, flags, EngineReturns, FraudDetectionService.EngineReturns, Service.Pool.EngineSafe]

omit [DecidableEq γ] [DecidableEq ι] in
/-- With one worker a replica fires alone. -/
theorem firesAlone_single (d : Deployment γ ι 1) (a : Action γ ι 1) : d.FiresAlone a := by
  cases a with
  | replica j b kept =>
    cases b with
    | work b =>
      cases b with
      | fireAllRules w order => exact Drools.Engine.undisturbed_single (d.replicas j).pool.engine (.fireAllRules w order)
      | _ => trivial
    | _ => trivial
  | _ => trivial

theorem flagged_notified_generated : ∃ d, Lts.run (step generatedSetting) generatedStart generatedRun = some d ∧
    ∀ x ∈ d.notifications, ∃ (t : Transaction) (rule : Rule),
      generatedSetting.cfg.mapper.readValue x.delivery.body = some (some t) ∧ rule.when t = true ∧
        x.body = generatedSetting.cfg.mapper.writeValueAsString (t.setFraudReason rule.reason) := by
  obtain ⟨d, hd, -⟩ := generated_notified
  exact ⟨d, hd, (flagged_notified generatedSetting 1 _ _ generatedRun d hd engineReturns_generatedRun
    (Lts.along_of_forall fun a _ t => firesAlone_single t a)).2⟩

/-- In such a run, for a message that a generator has put on the queue and that has been deleted, with no exception but of
deletes in its processing, where the detector reads back what the generator wrote: it has been notified of exactly when the
generator drew an amount of at least 0.9 or an account that holds "bad", and then once, and at most once more for each time
it became available again. The draws are exact numbers. -/
theorem generated_notified_iff (S : Setting) (n : Nat) (enabled : γ → Bool) (running : ι → Bool)
    (actions : List (Action γ ι n)) (d : Deployment γ ι n)
    (h : Lts.run (step S) (new S n enabled running) actions = some d) (hengine : ∀ a ∈ actions, EngineReturns a)
    (hfires : Lts.Along (step S) FiresAlone (new S n enabled running) actions) (i p : Nat) (body : String) (g : γ)
    (draws : Draws ℚ) (hletter : d.transactions.sent[i]? = some ⟨body, .published g p draws⟩)
    (hreads : ∀ src id, (d.generators g).published[p]? = some (src, id) →
      ReadsBack S (generateRandomTransaction draws id.text)) (hi : d.transactions.status i = .deleted)
    (hok : ∀ k j m, S.Delivers d.transactions k i j m → ∀ x ∈ (d.replicas j).pool.callsOf m,
      x.isDelete = false → x.threw = false) :
    (0 < (noticesFor S d i).length ↔ draws.Suspicious ∨ (¬ 8 / 10 < (draws.account : ℚ) ∧ draws.BadByChance)) ∧
      (noticesFor S d i).length ≤ d.transactions.reappeared.count i + 1 := by
  constructor
  · rw [List.length_pos_iff, notices_of_generated h hengine hfires hletter hreads hi hok]
    exact exists_satisfies draws
  · exact (notices_le_times h i).trans ((linked_run h).wf.times_le i)

theorem generated_notified_iff_high : ∃ d, Lts.run (step generatedSetting) generatedStart generatedRun = some d ∧
    (0 < (noticesFor generatedSetting d 0).length ↔
      highDraws.Suspicious ∨ (¬ 8 / 10 < (highDraws.account : ℚ) ∧ highDraws.BadByChance)) := by
  obtain ⟨d, hd, -, hstatus, hcalls, hpublished⟩ := generated_notified
  -- the message is on the queue before it is processed
  obtain ⟨d₀, hfirst, hrest⟩ := Lts.run_append.1 hd
  have hsent : d₀.transactions.sent = [⟨generatedText "", .published () 0 highDraws⟩] := by
    cases hfirst
    rfl
  have hletter : d.transactions.sent[0]? = some ⟨generatedText "", .published () 0 highDraws⟩ := by
    have hgrows : d₀.transactions.sent <+: d.transactions.sent := Lts.run_inv
      (I := fun t : Deployment Unit Bool 1 => d₀.transactions.sent <+: t.transactions.sent)
      (fun _ _ _ hI hs => hI.trans (logs_step hs).grows.sent) List.prefix_rfl hrest
    exact Queue.getElem?_of_prefix hgrows (by rw [hsent]; rfl)
  refine ⟨d, hd, (generated_notified_iff generatedSetting 1 _ _ generatedRun d hd engineReturns_generatedRun
    (Lts.along_of_forall fun a _ t => firesAlone_single t a) 0 0 _ () highDraws hletter ?_ hstatus ?_).1⟩
  · intro src id hp
    rw [hpublished] at hp
    cases hp
    rfl
  · intro k j m _ x hx _
    exact hcalls j _ (Service.Pool.mem_callsOf.1 hx)

end Deployment

end FraudDetect.System
