/-
What a notification says. For every pool size and every interleaving, also when the rule engine throws and when a
worker has fired the activations of another: a notification is for the delivery whose processing sends it, and its body
is the transaction of that delivery, with the reason of a rule it satisfies if it satisfies any and as it came if it
satisfies none.
-/
import FraudDetect.Service.Conservation
import FraudDetect.Service.Layers
import FraudDetect.Service.Noninterference

namespace FraudDetect.Service

open FraudDetect.Drools

/-- What may be sent for the message. -/
def NoticeFor (cfg : Config) (m : Message) (body : String) : Prop :=
  ∃ t, cfg.mapper.readValue m.body = some (some t) ∧
    ((flagged t = false ∧ body = cfg.mapper.writeValueAsString t) ∨
      ∃ rule : Rule, rule.when t = true ∧ body = cfg.mapper.writeValueAsString (t.setFraudReason rule.reason))

namespace Pool

variable {n : Nat} {cfg : Config} {s s' : Pool n} {a : PoolAction n}

/-- What a worker is about to send and what has been sent may be sent. -/
structure Noticed (cfg : Config) (s : Pool n) : Prop where
  linked : s.Linked cfg
  explained : s.engine.Explained
  sending : ∀ w m body, s.point w = .sending m body → NoticeFor cfg m body
  calls : ∀ c ∈ s.calls, ∀ queueUrl body ok, c.event = .sendMessage queueUrl body ok →
    queueUrl = cfg.urls.notifyQueueUrl ∧ NoticeFor cfg c.delivery body

theorem noticed_new : (new n).Noticed cfg where
  linked := linked_new
  explained := Engine.explained_new
  sending := nofun
  calls := nofun

theorem explained_step (hobj : s.engine.Objects) (hI : s.engine.Explained) (h : s.step cfg a = some s') :
    s'.engine.Explained := by
  cases a with
  | take w m => obtain ⟨-, rfl⟩ := step_take.1 h; exact hI
  | readValue w ok =>
    obtain ⟨m, -, ⟨-, rfl⟩ | ⟨x, e, -, he, rfl⟩⟩ := step_readValue.1 h
    · exact hI
    · obtain ⟨-, rfl⟩ := Engine.step_call.1 he
      exact Engine.explained_call hI hobj
  | insert w =>
    obtain ⟨m, e, -, he, rfl⟩ := step_insert.1 h
    obtain ⟨o, ho, rfl⟩ := Engine.step_insert.1 he
    exact Engine.explained_insert hI hobj ho
  | fireAllRules w order =>
    obtain ⟨m, o, e, -, -, he, rfl⟩ := step_fireAllRules.1 h
    obtain ⟨o', -, hperm, rfl⟩ := Engine.step_fireAllRules.1 he
    rw [← List.append_nil order] at hperm
    exact Engine.explained_fireThen hI hobj hperm rfl
  | evaluateThrows w done rest =>
    obtain ⟨m, -, hperm, -, rfl⟩ := step_evaluateThrows.1 h
    exact Engine.explained_fireThen hI hobj hperm rfl
  | writeValueAsString w ok => obtain ⟨m, r, -, rfl⟩ := step_writeValueAsString.1 h; exact hI
  | sendMessage w ok => obtain ⟨m, body, -, rfl⟩ := step_sendMessage.1 h; exact hI
  | deleteMessage w ok => obtain ⟨m, ⟨-, -, rfl⟩ | ⟨-, rfl⟩⟩ := step_deleteMessage.1 h <;> exact hI

/-- What `writeValueAsString` makes of the object of a worker that has returned from `evaluate`. -/
theorem noticeFor_writing {w : Fin n} {m : Message} {r : Ref} (hI : s.Noticed cfg) (hp : s.point w = .writing m r) :
    NoticeFor cfg m (cfg.mapper.writeValueAsString (s.engine.heap.obj r)) := by
  have hlinked := hI.linked.point w
  rw [hp] at hlinked
  obtain ⟨⟨t, ht, hsame, hclean⟩, hfact, hag⟩ := hlinked
  refine ⟨t, ht, ?_⟩
  cases hf : flagged t with
  | false => exact .inl ⟨rfl, by rw [hclean hf]⟩
  | true =>
    obtain ⟨rule, hwhen, hreason⟩ := hI.explained r hfact ((flagged_congr hsame).trans hf) hag
    refine .inr ⟨rule, (when_congr hsame rule).symm.trans hwhen, ?_⟩
    rw [hsame.eq_setFraudReason hreason]

/-- A worker moves on; what it is about to send and what it has called may be sent. -/
theorem noticed_update {w : Fin n} {p : Point} (hI : s.Noticed cfg) (hlinked : s'.Linked cfg)
    (hexplained : s'.engine.Explained) (hpoint : s'.point = Function.update s.point w p)
    (hp : ∀ m body, p = .sending m body → NoticeFor cfg m body)
    (hcalls : s'.calls = s.calls ∨ ∃ m event, s'.calls = s.calls ++ [⟨m, event⟩] ∧
      ∀ queueUrl body ok, event = .sendMessage queueUrl body ok →
        queueUrl = cfg.urls.notifyQueueUrl ∧ NoticeFor cfg m body) : s'.Noticed cfg where
  linked := hlinked
  explained := hexplained
  sending := by
    intro v m body hv
    rw [hpoint] at hv
    by_cases hvw : v = w
    · subst hvw; rw [Function.update_self] at hv; exact hp m body hv
    · rw [Function.update_of_ne hvw] at hv; exact hI.sending v m body hv
  calls := by
    rcases hcalls with hc | ⟨m, event, hc, hevent⟩
    · rw [hc]; exact hI.calls
    · intro c hmem
      rw [hc] at hmem
      rcases List.mem_append.1 hmem with hmem | hmem
      · exact hI.calls c hmem
      · rw [List.mem_singleton.1 hmem]; exact hevent

theorem noticed_step (hI : s.Noticed cfg) (h : s.step cfg a = some s') : s'.Noticed cfg := by
  have hlinked := linked_step hI.linked h
  have hexplained := explained_step hI.linked.objects hI.explained h
  cases a with
  | take w m =>
    obtain ⟨-, rfl⟩ := step_take.1 h
    exact noticed_update hI hlinked hexplained rfl nofun (.inl rfl)
  | readValue w ok =>
    obtain ⟨m, -, ⟨-, rfl⟩ | ⟨x, e, -, -, rfl⟩⟩ := step_readValue.1 h
    · exact noticed_update hI hlinked hexplained rfl nofun (.inr ⟨m, _, rfl, nofun⟩)
    · exact noticed_update hI hlinked hexplained rfl nofun (.inr ⟨m, _, rfl, nofun⟩)
  | insert w =>
    obtain ⟨m, e, hp, -, rfl⟩ := step_insert.1 h
    refine noticed_update (w := w) (p := s.point w) hI hlinked hexplained (Function.update_eq_self ..).symm ?_ (.inl rfl)
    intro m' body he
    rw [hp] at he; cases he
  | fireAllRules w order =>
    obtain ⟨m, o, e, -, -, -, rfl⟩ := step_fireAllRules.1 h
    refine noticed_update hI hlinked hexplained rfl ?_ (.inr ⟨m, _, rfl, nofun⟩)
    intro m' body he
    cases o with
    | none => cases he
    | some r => cases hlen : decide (order.length > 0) <;> rw [hlen] at he <;> cases he
  | evaluateThrows w done rest =>
    obtain ⟨m, -, -, -, rfl⟩ := step_evaluateThrows.1 h
    exact noticed_update hI hlinked hexplained rfl nofun (.inr ⟨m, _, rfl, nofun⟩)
  | writeValueAsString w ok =>
    obtain ⟨m, r, hp, rfl⟩ := step_writeValueAsString.1 h
    refine noticed_update hI hlinked hexplained rfl ?_ (.inr ⟨m, _, rfl, nofun⟩)
    intro m' body he
    cases ok with
    | false => cases he
    | true => cases he; exact noticeFor_writing hI hp
  | sendMessage w ok =>
    obtain ⟨m, body, hp, rfl⟩ := step_sendMessage.1 h
    refine noticed_update hI hlinked hexplained rfl ?_ (.inr ⟨m, _, rfl, fun queueUrl body' ok' he => ?_⟩)
    · intro m' body' he
      cases ok <;> cases he
    · cases he; exact ⟨rfl, hI.sending w m body hp⟩
  | deleteMessage w ok =>
    obtain ⟨m, ⟨-, -, rfl⟩ | ⟨-, rfl⟩⟩ := step_deleteMessage.1 h
    · exact noticed_update hI hlinked hexplained rfl nofun (.inr ⟨m, _, rfl, nofun⟩)
    · exact noticed_update hI hlinked hexplained rfl nofun (.inr ⟨m, _, rfl, nofun⟩)

theorem noticed_run {actions : List (PoolAction n)} (h : Lts.run (step cfg) (new n) actions = some s) :
    s.Noticed cfg :=
  Lts.run_inv (fun _ _ _ hI hs => noticed_step hI hs) noticed_new h

end Pool

namespace FraudDetectionService

theorem noticed_run {n : Nat} {cfg : Config} {running : Bool} {actions : List (Action n)} {s : FraudDetectionService n}
    (h : Lts.run (step cfg) (new n running) actions = some s) : s.pool.Noticed cfg := Pool.noticed_run (pool_run h)

/-- For every pool size and every run, whatever throws: each notification goes to the notify queue, for a delivery that
has been received, and carries the transaction of that delivery, with the reason of a rule that this transaction satisfies
if it satisfies any and unchanged if it satisfies none. -/
theorem notifications_explained (n : Nat) (cfg : Config) (running : Bool) (actions : List (Action n))
    (s : FraudDetectionService n) (h : Lts.run (step cfg) (new n running) actions = some s) (m : Message)
    (queueUrl body : String) (ok : Bool) (hc : Call.mk m (.sendMessage queueUrl body ok) ∈ s.pool.calls) :
    m ∈ s.received ∧ queueUrl = cfg.urls.notifyQueueUrl ∧ ∃ t, cfg.mapper.readValue m.body = some (some t) ∧
      ((flagged t = false ∧ body = cfg.mapper.writeValueAsString t) ∨
        ∃ rule : Rule, rule.when t = true ∧ body = cfg.mapper.writeValueAsString (t.setFraudReason rule.reason)) := by
  have hA := accounted_run h
  have hassigned : m ∈ s.pool.assigned := (hA.pool.calls _ hc).1
  have haccepted : m ∈ s.accepted :=
    hA.accepted.mem_iff.2 (List.mem_append_left _ (List.mem_append_right _ hassigned))
  obtain ⟨hurl, hnotice⟩ := (noticed_run h).calls _ hc _ _ _ rfl
  exact ⟨hA.received.mem_iff.2 (List.mem_append_right _ haccepted), hurl, hnotice⟩

/-- Two workers: the second fires the activation of the first and notifies of a transaction that satisfies no rule. -/
def stolenNotifyRun (w v : Fin 2) : List (Action 2) :=
  [.startProcessingThread true, .testRunning 0, .receiveMessage 0,
    .receiveReturns 0 [⟨highText, "receipt 1"⟩, ⟨normalText, "receipt 2"⟩], .submit 0, .submit 0,
    .work (.readValue w true), .work (.insert w), .work (.readValue v true), .work (.insert v),
    .work (.fireAllRules v [⟨0, .highTransactionAmount⟩]), .work (.writeValueAsString v true), .work (.sendMessage v true)]

theorem notifications_explained_stolen : ∃ t, sampleMapper.readValue normalText = some (some t) ∧
    ((flagged t = false ∧ normalText = sampleMapper.writeValueAsString t) ∨
      ∃ rule : Rule, rule.when t = true ∧ normalText = sampleMapper.writeValueAsString (t.setFraudReason rule.reason)) := by
  have hrun : (Lts.run (step sampleConfig) (new 2 true) (stolenNotifyRun 0 1)).map
      (fun s => decide (Call.mk ⟨normalText, "receipt 2"⟩ (.sendMessage "notify" normalText true) ∈ s.pool.calls)) =
      some true := by decide
  obtain ⟨s, hs, hmem⟩ := Option.map_eq_some_iff.1 hrun
  exact (notifications_explained 2 sampleConfig true (stolenNotifyRun 0 1) s hs ⟨normalText, "receipt 2"⟩ "notify"
    normalText true (of_decide_eq_true hmem)).2.2

end FraudDetectionService

end FraudDetect.Service
