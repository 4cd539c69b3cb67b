/-
Failures during one `processMessage`. The normal path deletes a message only after its
notification has been sent; the `catch` block logs the error and deletes the message whatever
failed, so a fraud whose evaluation, serialisation or send throws is deleted without having been
notified.
-/
import FraudDetect.Service.ProcessMessage
import Mathlib.Data.List.Basic

namespace FraudDetect.Service

open FraudDetect.Drools

/-- What stands before a delete holds all the calls that precede the deletes. -/
theorem prefix_of_delete (front : List Event) {deletes before after : List Event} {d : Event}
    (hfront : ∀ x ∈ front, x.isDelete = false) (hd : d.isDelete = true)
    (h : front ++ deletes = before ++ d :: after) : front <+: before := by
  rcases List.append_eq_append_iff.1 h with ⟨l, rfl, -⟩ | ⟨l, rfl, hl⟩
  · exact List.prefix_append _ _
  · cases l with
    | nil => simp
    | cons x l =>
      -- the delete itself would stand among the first calls
      obtain ⟨rfl, -⟩ := List.cons.inj hl
      have hx := hfront d (List.mem_append_right _ (List.mem_cons_self ..))
      rw [hd] at hx; cases hx

/-- A call about the verdict or the notification of a fraud has thrown. -/
def NotifyThrew (urls : QueueUrls) (calls : List Event) : Prop :=
  .evaluate false ∈ calls ∨ .writeValueAsString false ∈ calls ∨
    ∃ body, .sendMessage urls.notifyQueueUrl body false ∈ calls

/-- The notification of `t` has been sent. -/
def Notified (c : Callees) (urls : QueueUrls) (t : Transaction) (calls : List Event) : Prop :=
  ∃ body, c.writeValueAsString (c.evaluated t) = .ok body ∧ .sendMessage urls.notifyQueueUrl body true ∈ calls

/-- For a message whose body decodes to a transaction that satisfies a rule and a rule engine
whose verdict on it is right whenever it returns: every delete is issued after the notification
has been sent, or after the evaluation, the serialisation or the send has thrown. -/
theorem delete_after_notify_or_throw (c : Callees) (urls : QueueUrls) (message : Message) (t : Transaction)
    (hread : c.readValue message.body = .ok (some t)) (hflagged : flagged t = true)
    (hverdict : ∀ v, c.evaluate (some t) = .ok v → v = flagged t) (before after : List Event)
    (queueUrl receiptHandle : String) (ok : Bool)
    (h : trace c urls message = before ++ .deleteMessage queueUrl receiptHandle ok :: after) :
    Notified c urls t before ∨ NotifyThrew urls before := by
  rw [trace_eq, fromRead, hread] at h
  simp only [fromEvaluate] at h
  cases he : c.evaluate (some t) with
  | error e =>
    rw [he] at h
    have hp := prefix_of_delete [.readValue true, .evaluate false] (by decide) rfl h
    exact .inr (.inl (hp.subset (by simp)))
  | ok v =>
    rw [he, hverdict v he, hflagged] at h
    simp only [fromWrite] at h
    cases hw : c.writeValueAsString (c.evaluated t) with
    | error e =>
      rw [hw] at h
      have hp := prefix_of_delete [.readValue true, .evaluate true, .writeValueAsString false]
        (by decide) rfl h
      exact .inr (.inr (.inl (hp.subset (by simp))))
    | ok body =>
      rw [hw] at h
      simp only [fromSend] at h
      have hfront : ∀ sent, ∀ x ∈ [Event.readValue true, .evaluate true, .writeValueAsString true,
          .sendMessage urls.notifyQueueUrl body sent], x.isDelete = false := by
        intro sent x hx
        simp only [List.mem_cons, List.not_mem_nil, or_false] at hx
        rcases hx with rfl | rfl | rfl | rfl <;> rfl
      cases hs : c.sendMessage urls.notifyQueueUrl body with
      | error e =>
        rw [hs] at h
        have hp := prefix_of_delete _ (hfront false) rfl h
        exact .inr (.inr (.inr ⟨body, hp.subset (by simp)⟩))
      | ok _ =>
        rw [hs] at h
        have hp := prefix_of_delete _ (hfront true) rfl h
        exact .inl ⟨body, hw, hp.subset (by simp)⟩

/-- Callees that flag every transaction and serialise it to `notification`; the send ends as told
and every delete completes. -/
def flaggingCallees (send : Except JavaException Unit) : Callees where
  readValue _ := .ok (some highTransaction)
  evaluate _ := .ok true
  evaluated t := t.setFraudReason Rule.highTransactionAmount.reason
  writeValueAsString _ := .ok "notification"
  sendMessage _ _ := send
  deleteMessage _ _ _ := .ok ()

theorem delete_after_notify_sent : Notified (flaggingCallees (.ok ())) ⟨"transactions", "notify"⟩ highTransaction
      [.readValue true, .evaluate true, .writeValueAsString true, .sendMessage "notify" "notification" true] ∨
    NotifyThrew ⟨"transactions", "notify"⟩
      [.readValue true, .evaluate true, .writeValueAsString true, .sendMessage "notify" "notification" true] :=
  delete_after_notify_or_throw (flaggingCallees (.ok ())) ⟨"transactions", "notify"⟩ ⟨"body", "handle"⟩ highTransaction
    rfl (by decide) (fun _ hv => by cases hv; decide) _ [] "transactions" "handle" true rfl

/-- A send that throws: the message is deleted by the recovery path and no notification was sent. -/
theorem fraud_lost_when_send_throws : ¬ ∀ (c : Callees) (urls : QueueUrls) (message : Message) (t : Transaction),
    c.readValue message.body = .ok (some t) → flagged t = true →
    (∀ v, c.evaluate (some t) = .ok v → v = flagged t) →
    ∀ before after queueUrl receiptHandle ok,
      trace c urls message = before ++ .deleteMessage queueUrl receiptHandle ok :: after →
      Notified c urls t before := by
  intro h
  obtain ⟨body, -, hsent⟩ := h (flaggingCallees (.error (.thrown "timeout"))) ⟨"transactions", "notify"⟩
    ⟨"body", "handle"⟩ highTransaction rfl (by decide) (fun _ hv => by cases hv; decide)
    [.readValue true, .evaluate true, .writeValueAsString true, .sendMessage "notify" "notification" false] []
    "transactions" "handle" true rfl
  simp at hsent

end FraudDetect.Service
