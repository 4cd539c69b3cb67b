/-
The SQS calls of one `processMessage`, whatever its callees do: at most one notification, for a transaction
the rule engine has flagged, then one delete of the message, or two when the first one throws. Only the
delete of the `catch` block can make an exception escape.
-/
import FraudDetect.Service.ProcessMessage

namespace FraudDetect.Service

open Calls
open FraudDetect.Drools

/-! ## The two blocks of the method -/

section Blocks

variable (c : Callees) (urls : QueueUrls) (message : Message)

/-- The delete of the message, as it ended. -/
def ownDelete (ok : Bool) : Event := .deleteMessage urls.transactionQueueUrl message.receiptHandle ok

/-- The calls made before the first delete: a send only for a transaction the rule engine has flagged. -/
structure Front (front : List Event) : Prop where
  noDelete : ∀ x ∈ front, x.isDelete = false
  sends : front.countP Event.isSend ≤ 1
  flagged : ∀ queueUrl body ok, .sendMessage queueUrl body ok ∈ front →
    queueUrl = urls.notifyQueueUrl ∧ ∃ t, c.readValue message.body = .ok (some t) ∧ c.evaluate (some t) = .ok true

/-- Calls none of which is a send or a delete. -/
theorem front_of_silent (front : List Event) (h : ∀ x ∈ front, x.isDelete = false ∧ x.isSend = false) :
    Front c urls message front := by
  refine ⟨fun x hx => (h x hx).1, ?_, ?_⟩
  · rw [List.countP_eq_zero.2 fun x hx => by simp [(h x hx).2]]
    exact Nat.zero_le 1
  · intro queueUrl body ok hx
    cases (h _ hx).2

/-- The `try` block throws before its delete, or ends with it. -/
theorem tryBlock_calls : ∃ front, Front c urls message front ∧
    ((∃ e, exec (tryBlock c urls message) [] = (.error e, front)) ∨
      exec (tryBlock c urls message) [] =
        (c.deleteMessage false urls.transactionQueueUrl message.receiptHandle,
          front ++ [ownDelete urls message
            (c.deleteMessage false urls.transactionQueueUrl message.receiptHandle).toBool])) := by
  unfold tryBlock detectFraud
  rw [exec_bind, exec_call]
  cases hread : c.readValue message.body with
  | error e => exact ⟨[.readValue false], front_of_silent c urls message _ (by decide), .inl ⟨e, rfl⟩⟩
  | ok transaction =>
    simp only [exec_bind, exec_call]
    cases heval : c.evaluate transaction with
    | error e =>
      exact ⟨[.readValue true, .evaluate false], front_of_silent c urls message _ (by decide), .inl ⟨e, rfl⟩⟩
    | ok isFraud =>
      have hsilent := front_of_silent c urls message [.readValue true, .evaluate true] (by decide)
      cases transaction with
      | none => exact ⟨_, hsilent, .inl ⟨_, rfl⟩⟩
      | some t =>
        cases isFraud with
        | false => exact ⟨_, hsilent, .inr rfl⟩
        | true =>
          simp only [exec_bind, exec_call, if_true]
          cases c.writeValueAsString (c.evaluated t) with
          | error e =>
            exact ⟨[.readValue true, .evaluate true, .writeValueAsString false],
              front_of_silent c urls message _ (by decide), .inl ⟨e, rfl⟩⟩
          | ok body =>
            have hfront : ∀ sent, Front c urls message [.readValue true, .evaluate true, .writeValueAsString true,
                .sendMessage urls.notifyQueueUrl body sent] := by
              intro sent
              refine ⟨by simp [Event.isDelete], by simp [Event.isSend], ?_⟩
              rintro queueUrl body' ok hx
              simp only [List.mem_cons, reduceCtorEq, List.not_mem_nil, or_false, false_or, Event.sendMessage.injEq] at hx
              exact ⟨hx.1, t, hread, heval⟩
            simp only []
            cases c.sendMessage urls.notifyQueueUrl body with
            | error e => exact ⟨_, hfront false, .inl ⟨e, rfl⟩⟩
            | ok _ => exact ⟨_, hfront true, .inr rfl⟩

/-- How the calls of the `try` block and those of the whole method end: with the delete of the `catch` block, with the
delete of the `try` block, or with both. -/
theorem processMessage_calls : ∃ front, Front c urls message front ∧
    ((∃ e, exec (tryBlock c urls message) [] = (.error e, front) ∧
        exec (processMessage c urls message) [] =
          (c.deleteMessage true urls.transactionQueueUrl message.receiptHandle,
            front ++ [ownDelete urls message
              (c.deleteMessage true urls.transactionQueueUrl message.receiptHandle).toBool])) ∨
      (exec (tryBlock c urls message) [] = (.ok (), front ++ [ownDelete urls message true]) ∧
        exec (processMessage c urls message) [] = (.ok (), front ++ [ownDelete urls message true])) ∨
      ∃ e, exec (tryBlock c urls message) [] = (.error e, front ++ [ownDelete urls message false]) ∧
        exec (processMessage c urls message) [] =
          (c.deleteMessage true urls.transactionQueueUrl message.receiptHandle,
            front ++ [ownDelete urls message false, ownDelete urls message
              (c.deleteMessage true urls.transactionQueueUrl message.receiptHandle).toBool])) := by
  obtain ⟨front, hfront, h⟩ := tryBlock_calls c urls message
  refine ⟨front, hfront, ?_⟩
  unfold processMessage
  rw [exec_tryCatch]
  rcases h with ⟨e, h⟩ | h
  · exact .inl ⟨e, h, by rw [h]; rfl⟩
  · rw [h]
    cases c.deleteMessage false urls.transactionQueueUrl message.receiptHandle with
    | ok _ => exact .inr (.inl ⟨rfl, rfl⟩)
    | error e =>
      refine .inr (.inr ⟨e, rfl, ?_⟩)
      simp [catchBlock, ownDelete, Except.toBool]

end Blocks

/-! ## The protocol of one delivery -/

/-- The protocol of one delivery: what the calls of `processMessage` satisfy. -/
structure DeliveryProtocol (c : Callees) (urls : QueueUrls) (message : Message) : Prop where
  oneSend : (trace c urls message).countP Event.isSend ≤ 1
  sendFlagged : ∀ queueUrl body ok, .sendMessage queueUrl body ok ∈ trace c urls message →
    queueUrl = urls.notifyQueueUrl ∧ ∃ t, c.readValue message.body = .ok (some t) ∧ c.evaluate (some t) = .ok true
  deletes : 1 ≤ (trace c urls message).countP Event.isDelete ∧ (trace c urls message).countP Event.isDelete ≤ 2
  deleteOwn : ∀ queueUrl receiptHandle ok, .deleteMessage queueUrl receiptHandle ok ∈ trace c urls message →
    queueUrl = urls.transactionQueueUrl ∧ receiptHandle = message.receiptHandle
  deleteAfterSend : ∀ before after send, trace c urls message = before ++ send :: after → send.isSend = true →
    ∀ x ∈ before, x.isDelete = false
  /-- The first delete is made by the `try` block and throws there. -/
  secondDelete : (trace c urls message).countP Event.isDelete = 2 ↔
    ownDelete urls message false ∈ (exec (tryBlock c urls message) []).2
  /-- The `catch` block is entered and its delete throws. -/
  escapes : (∃ e, (exec (processMessage c urls message) []).1 = .error e) ↔
    (∃ e, (exec (tryBlock c urls message) []).1 = .error e) ∧
      ∃ e, c.deleteMessage true urls.transactionQueueUrl message.receiptHandle = .error e

section Calls

variable {c : Callees} {urls : QueueUrls} {message : Message} {front : List Event} {oks : List Bool}

theorem countP_delete_front (h : Front c urls message front) :
    (front ++ oks.map (ownDelete urls message)).countP Event.isDelete = oks.length := by
  have hfront : front.countP Event.isDelete = 0 := List.countP_eq_zero.2 fun x hx => by simp [h.noDelete x hx]
  have hoks : (oks.map (ownDelete urls message)).countP Event.isDelete = oks.length := by
    rw [List.countP_map]
    exact List.countP_eq_length.2 fun _ _ => rfl
  rw [List.countP_append, hfront, hoks, Nat.zero_add]

theorem countP_send_front (h : Front c urls message front) :
    (front ++ oks.map (ownDelete urls message)).countP Event.isSend ≤ 1 := by
  have hoks : (oks.map (ownDelete urls message)).countP Event.isSend = 0 := by
    rw [List.countP_map]
    exact List.countP_eq_zero.2 fun _ _ => by simp [ownDelete, Event.isSend]
  rw [List.countP_append, hoks]
  exact h.sends

theorem mem_front_of_not_delete {x : Event} (hx : x ∈ front ++ oks.map (ownDelete urls message))
    (hd : x.isDelete = false) : x ∈ front := by
  rcases List.mem_append.1 hx with hx | hx
  · exact hx
  · obtain ⟨ok, -, rfl⟩ := List.mem_map.1 hx
    cases hd

/-- Before a send stand only calls of the front. -/
theorem before_send_front (h : Front c urls message front) {before after : List Event} {send : Event}
    (he : front ++ oks.map (ownDelete urls message) = before ++ send :: after) (hsend : send.isSend = true) :
    ∀ x ∈ before, x.isDelete = false := by
  rcases List.append_eq_append_iff.1 he with ⟨l, rfl, hl⟩ | ⟨l, rfl, -⟩
  · -- the send would be one of the deletes
    have hm : send ∈ oks.map (ownDelete urls message) := by rw [hl]; simp
    obtain ⟨ok, -, rfl⟩ := List.mem_map.1 hm
    cases hsend
  · intro x hx
    exact h.noDelete x (List.mem_append_left _ hx)

end Calls

/-- The calls are a front and one or two deletes of the message; where there are two, the first one is the failed
delete of the `try` block. -/
theorem trace_shape (c : Callees) (urls : QueueUrls) (message : Message) :
    ∃ (front : List Event) (oks : List Bool), Front c urls message front ∧
      trace c urls message = front ++ oks.map (ownDelete urls message) ∧ 1 ≤ oks.length ∧ oks.length ≤ 2 ∧
      (oks.length = 2 ↔ ownDelete urls message false ∈ (exec (tryBlock c urls message) []).2) ∧
      ((∃ e, (exec (processMessage c urls message) []).1 = .error e) ↔
        (∃ e, (exec (tryBlock c urls message) []).1 = .error e) ∧
          ∃ e, c.deleteMessage true urls.transactionQueueUrl message.receiptHandle = .error e) := by
  unfold trace
  obtain ⟨front, hfront, h⟩ := processMessage_calls c urls message
  have hno : ownDelete urls message false ∉ front := by
    intro hm
    cases hfront.noDelete _ hm
  rcases h with ⟨e, ht, hp⟩ | ⟨ht, hp⟩ | ⟨e, ht, hp⟩
  · rw [ht, hp]
    exact ⟨front, [_], hfront, rfl, by simp, by simp, by simp [hno], by simp⟩
  · rw [ht, hp]
    have hne : ownDelete urls message false ≠ ownDelete urls message true := by simp [ownDelete]
    exact ⟨front, [true], hfront, rfl, by simp, by simp, by simp [hno, hne], by simp⟩
  · rw [ht, hp]
    exact ⟨front, [false, _], hfront, rfl, by simp, by simp, by simp, by simp⟩

/-- For every message, whatever the callees do, the calls of `processMessage` satisfy the protocol. -/
theorem processMessage_protocol (c : Callees) (urls : QueueUrls) (message : Message) :
    DeliveryProtocol c urls message := by
  obtain ⟨front, oks, hfront, htrace, hpos, hle, hsecond, hescapes⟩ := trace_shape c urls message
  have hcount : (trace c urls message).countP Event.isDelete = oks.length := by
    rw [htrace]; exact countP_delete_front hfront
  constructor
  case oneSend => rw [htrace]; exact countP_send_front hfront
  case sendFlagged =>
    intro queueUrl body ok hx
    rw [htrace] at hx
    exact hfront.flagged queueUrl body ok (mem_front_of_not_delete hx rfl)
  case deletes => rw [hcount]; exact ⟨hpos, hle⟩
  case deleteOwn =>
    intro queueUrl receiptHandle ok hx
    rw [htrace] at hx
    rcases List.mem_append.1 hx with hx | hx
    · cases hfront.noDelete _ hx
    · obtain ⟨ok', -, he⟩ := List.mem_map.1 hx
      cases he
      exact ⟨rfl, rfl⟩
  case deleteAfterSend =>
    intro before after send he hsend
    rw [htrace] at he
    exact before_send_front hfront he hsend
  case secondDelete => rw [hcount]; exact hsecond
  case escapes => exact hescapes

end FraudDetect.Service
