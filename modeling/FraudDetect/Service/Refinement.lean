/-
A pool of one worker refines a stateless reference: the calls it makes over the one long-lived session are,
task after task, those `processMessage` makes with a rule engine that looks at the transaction alone. The
invariant behind it: outside `evaluate` nothing is pending, so a call fires its own activations only.
-/
import FraudDetect.Service.Pool
import FraudDetect.Drools.Invariant

namespace FraudDetect.Service

open FraudDetect.Drools

/-! ## The reference -/

/-- A processed message: the outcomes of its calls (of the delete in the `try` block and of the recovery
delete separately) and, for a transaction that satisfies a rule, the rule that gave the reason. -/
structure Task where
  message : Message
  reads : Bool
  rule : Rule
  writes : Bool
  sends : Bool
  deletes : Bool
  recovers : Bool
deriving DecidableEq, Repr

/-- The rule is one that the transaction satisfies, if it satisfies any. -/
def RuleFits (cfg : Config) (m : Message) (reads : Bool) (rule : Rule) : Prop :=
  ∀ t, cfg.decode m reads = some (some t) → flagged t = true → rule.when t = true

/-- A read or a write that fails by itself is one of the steps `made`. -/
def MapperFits {n : Nat} (made : PoolAction n → Prop) (reads writes : Bool) : Prop :=
  (reads = false → ∃ w, made (.readValue w false)) ∧ (writes = false → ∃ w, made (.writeValueAsString w false))

namespace Task

variable (cfg : Config) (k : Task)

def Valid : Prop := RuleFits cfg k.message k.reads k.rule

/-- Callees that keep no state: the rule engine sees the transaction it is given and nothing else. -/
def callees : Callees where
  readValue body :=
    match (if k.reads then cfg.mapper.readValue body else none) with
    | some transaction => .ok transaction
    | none => .error (.thrown "readValue")
  evaluate transaction := .ok (transaction.any flagged)
  evaluated t := if flagged t then t.setFraudReason k.rule.reason else t
  writeValueAsString t := if k.writes then .ok (cfg.mapper.writeValueAsString t) else .error (.thrown "writeValueAsString")
  sendMessage _ _ := if k.sends then .ok () else .error (.thrown "sendMessage")
  deleteMessage recovery _ _ :=
    if (if recovery then k.recovers else k.deletes) then .ok () else .error (.thrown "deleteMessage")

/-- The calls `processMessage` makes for the task. -/
def events : List Event := trace (k.callees cfg) cfg.urls k.message

/-- A delete of the task's own receipt. -/
def delete (ok : Bool) : Event := .deleteMessage cfg.urls.transactionQueueUrl k.message.receiptHandle ok

/-- The notification of the task's transaction. -/
def notify (t : Transaction) (ok : Bool) : Event :=
  .sendMessage cfg.urls.notifyQueueUrl (cfg.mapper.writeValueAsString (t.setFraudReason k.rule.reason)) ok

/-- The delete of the `try` block, and the recovery delete if it threw. -/
def deleteCalls : List Event := k.delete cfg k.deletes :: if k.deletes then [] else [k.delete cfg k.recovers]

/-- The SQS calls of the task, from its body and the outcomes of its own calls: nothing is sent for a body
that does not decode, for JSON `null` and for a transaction that satisfies no rule; for any other the
transaction is sent once, with a reason of a rule it satisfies, before the message is deleted. -/
def sqsCalls : List Event :=
  match cfg.decode k.message k.reads with
  | none => [k.delete cfg k.recovers]
  | some none => [k.delete cfg k.recovers]
  | some (some t) =>
    if flagged t then
      if k.writes then
        k.notify cfg t k.sends :: if k.sends then k.deleteCalls cfg else [k.delete cfg k.recovers]
      else [k.delete cfg k.recovers]
    else k.deleteCalls cfg

end Task

section

variable {cfg : Config} {k : Task} {m : Message}

theorem fromRecovery_callees : fromRecovery (k.callees cfg) cfg.urls m =
    [.deleteMessage cfg.urls.transactionQueueUrl m.receiptHandle k.recovers] := by
  unfold fromRecovery Task.callees
  cases k.recovers <;> rfl

theorem fromDelete_callees : fromDelete (k.callees cfg) cfg.urls m =
    .deleteMessage cfg.urls.transactionQueueUrl m.receiptHandle k.deletes ::
      if k.deletes then [] else fromRecovery (k.callees cfg) cfg.urls m := by
  simp only [fromDelete, Task.callees]
  cases k.deletes <;> rfl

theorem fromSend_callees {body : String} : fromSend (k.callees cfg) cfg.urls m body =
    .sendMessage cfg.urls.notifyQueueUrl body k.sends ::
      if k.sends then fromDelete (k.callees cfg) cfg.urls m else fromRecovery (k.callees cfg) cfg.urls m := by
  simp only [fromSend, Task.callees]
  cases k.sends <;> rfl

theorem fromWrite_callees {t : Transaction} : fromWrite (k.callees cfg) cfg.urls m t =
    .writeValueAsString k.writes ::
      if k.writes then fromSend (k.callees cfg) cfg.urls m (cfg.mapper.writeValueAsString t)
      else fromRecovery (k.callees cfg) cfg.urls m := by
  simp only [fromWrite, Task.callees]
  cases k.writes <;> rfl

theorem fromEvaluate_none : fromEvaluate (k.callees cfg) cfg.urls m none =
    .evaluate true :: fromRecovery (k.callees cfg) cfg.urls m := rfl

theorem fromEvaluate_flagged {t : Transaction} (h : flagged t = true) : fromEvaluate (k.callees cfg) cfg.urls m (some t) =
    .evaluate true :: fromWrite (k.callees cfg) cfg.urls m (t.setFraudReason k.rule.reason) := by
  simp [fromEvaluate, Task.callees, h]

theorem fromEvaluate_clean {t : Transaction} (h : flagged t = false) : fromEvaluate (k.callees cfg) cfg.urls m (some t) =
    .evaluate true :: fromDelete (k.callees cfg) cfg.urls m := by
  simp [fromEvaluate, Task.callees, h]

theorem fromRead_fails (h : cfg.decode k.message k.reads = none) : fromRead (k.callees cfg) cfg.urls k.message =
    .readValue false :: fromRecovery (k.callees cfg) cfg.urls k.message := by
  unfold Config.decode at h
  simp [fromRead, Task.callees, h]

theorem fromRead_decoded {x : Option Transaction} (h : cfg.decode k.message k.reads = some x) :
    fromRead (k.callees cfg) cfg.urls k.message =
      .readValue true :: fromEvaluate (k.callees cfg) cfg.urls k.message x := by
  unfold Config.decode at h
  simp [fromRead, Task.callees, h]

/-- The reference is what `processMessage` does on stateless callees. -/
theorem sqsCalls_eq (cfg : Config) (k : Task) :
    (k.events cfg).filter (fun event => event.isSend || event.isDelete) = k.sqsCalls cfg := by
  unfold Task.events Task.sqsCalls
  rw [trace_eq]
  cases hd : cfg.decode k.message k.reads with
  | none =>
    rw [fromRead_fails hd, fromRecovery_callees]
    rfl
  | some x =>
    rw [fromRead_decoded hd]
    cases x with
    | none =>
      rw [fromEvaluate_none, fromRecovery_callees]
      rfl
    | some t =>
      cases hf : flagged t with
      | false =>
        rw [fromEvaluate_clean hf, fromDelete_callees, fromRecovery_callees]
        simp only [Task.deleteCalls, hf]
        cases k.deletes <;> rfl
      | true =>
        rw [fromEvaluate_flagged hf, fromWrite_callees, fromSend_callees, fromDelete_callees, fromRecovery_callees]
        simp only [Task.deleteCalls, hf]
        cases k.writes <;> cases k.sends <;> cases k.deletes <;> rfl

/-- The task's calls are `done` and those that `rest` makes. -/
def Task.Resumes (cfg : Config) (k : Task) (done : List Event) (rest : Callees → List Event) : Prop :=
  k.events cfg = done ++ rest (k.callees cfg)

theorem Task.Resumes.next {done : List Event} {event : Event} {rest rest' : Callees → List Event}
    (h : k.Resumes cfg done rest) (hr : rest (k.callees cfg) = event :: rest' (k.callees cfg)) :
    k.Resumes cfg (done ++ [event]) rest' := by
  unfold Task.Resumes at h ⊢
  rw [h, hr, List.append_assoc]
  rfl

theorem Task.Resumes.last {done : List Event} {event : Event} {rest : Callees → List Event}
    (h : k.Resumes cfg done rest) (hr : rest (k.callees cfg) = [event]) : k.events cfg = done ++ [event] := by
  unfold Task.Resumes at h
  rw [h, hr]

theorem resumes_fails (h : cfg.decode k.message k.reads = none) :
    k.Resumes cfg [.readValue false] (fromRecovery · cfg.urls k.message) :=
  (trace_eq _ _ _).trans (fromRead_fails h)

theorem resumes_decoded {x : Option Transaction} (h : cfg.decode k.message k.reads = some x) :
    k.Resumes cfg [.readValue true] (fromEvaluate · cfg.urls k.message x) :=
  (trace_eq _ _ _).trans (fromRead_decoded h)

end

/-! ## One worker -/

namespace Pool

variable {cfg : Config} {made : PoolAction 1 → Prop} {s s' : Pool 1} {a : PoolAction 1}

/-- Worker `w` is evaluating the object of `transaction`: nothing is pending but, once it is inserted, its
own activations. -/
def Evaluating {n : Nat} (e : Engine n) (w : Fin n) (transaction : Option Transaction) : Prop :=
  ∃ o, transaction = o.map e.heap.obj ∧ (∀ r, o = some r → r < e.heap.next) ∧
    ((e.phase w = .called o ∧ e.session.agenda = []) ∨
      (e.phase w = .inserted o ∧ e.session.agenda = o.elim [] (activations e.heap)))

/-- What worker `w` has done for its message so far, `done`, and what it will do from here make up the
calls of a task, however the calls to come turn out. -/
def Midway {n : Nat} (cfg : Config) (made : PoolAction n → Prop) (e : Engine n) (w : Fin n)
    (done : List Event) : Point → Prop
  | .unborn => done = [] ∧ e.session.agenda = []
  | .idle => done = [] ∧ e.session.agenda = []
  | .reading _ => done = [] ∧ e.session.agenda = []
  | .evaluating m => done = [.readValue true] ∧ ∃ x, cfg.mapper.readValue m.body = some x ∧ Evaluating e w x
  | .writing m r => e.session.agenda = [] ∧ ∃ reads rule, RuleFits cfg m reads rule ∧ MapperFits made reads true ∧
      ∀ writes sends deletes recovers, (Task.mk m reads rule writes sends deletes recovers).Resumes cfg done
        (fromWrite · cfg.urls m (e.heap.obj r))
  | .sending m body => e.session.agenda = [] ∧ ∃ reads rule writes, RuleFits cfg m reads rule ∧
      MapperFits made reads writes ∧
      ∀ sends deletes recovers, (Task.mk m reads rule writes sends deletes recovers).Resumes cfg done
        (fromSend · cfg.urls m body)
  | .deleting m => e.session.agenda = [] ∧ ∃ reads rule writes sends, RuleFits cfg m reads rule ∧
      MapperFits made reads writes ∧
      ∀ deletes recovers, (Task.mk m reads rule writes sends deletes recovers).Resumes cfg done
        (fromDelete · cfg.urls m)
  | .recovering m => e.session.agenda = [] ∧ ∃ reads rule writes sends deletes, RuleFits cfg m reads rule ∧
      MapperFits made reads writes ∧
      ∀ recovers, (Task.mk m reads rule writes sends deletes recovers).Resumes cfg done
        (fromRecovery · cfg.urls m)

/-- The calls made so far are those of the finished tasks, in order, and those made for the current one. -/
structure Solo (cfg : Config) (made : PoolAction 1 → Prop) (s : Pool 1) : Prop where
  objects : s.engine.Objects
  assigned : s.assigned = s.finished ++ (s.point 0).message?.toList
  calls : ∃ (tasks : List Task) (done : List Event), tasks.map Task.message = s.finished ∧
    (∀ k ∈ tasks, k.Valid cfg ∧ MapperFits made k.reads k.writes) ∧
    s.calls.map Call.event = tasks.flatMap (Task.events cfg) ++ done ∧ Midway cfg made s.engine 0 done (s.point 0)

theorem solo_new : (new 1).Solo cfg made where
  objects := Engine.objects_new
  assigned := rfl
  calls := ⟨[], [], rfl, nofun, rfl, rfl, rfl⟩

/-- The worker makes a call and goes on with its message. -/
theorem solo_move {m : Message} {event : Event} {e : Engine 1} {p : Point} (hI : s.Solo cfg made)
    (hobj : e.Objects) (hm : (s.point 0).message? = some m) (hp : p.message? = some m)
    (hmid : ∀ done, Midway cfg made s.engine 0 done (s.point 0) → Midway cfg made e 0 (done ++ [event]) p) :
    (((s.record m event).withEngine e).move 0 p).Solo cfg made := by
  obtain ⟨tasks, done, hmap, hvalid, hcalls, hpoint⟩ := hI.calls
  refine ⟨hobj, ?_, tasks, done ++ [event], hmap, hvalid, ?_, ?_⟩
  · show s.assigned = s.finished ++ (Function.update s.point 0 p 0).message?.toList
    rw [Function.update_self, hp, ← hm]
    exact hI.assigned
  · show (s.calls ++ [Call.mk m event]).map Call.event = _
    rw [List.map_append, hcalls, List.append_assoc]
    rfl
  · show Midway cfg made e 0 (done ++ [event]) (Function.update s.point 0 p 0)
    rw [Function.update_self]
    exact hmid done hpoint

/-- The worker makes its last call for a message. -/
theorem solo_finish {m : Message} {event : Event} (hI : s.Solo cfg made) (hm : (s.point 0).message? = some m)
    (hmid : ∀ done, Midway cfg made s.engine 0 done (s.point 0) → s.engine.session.agenda = [] ∧
      ∃ k : Task, k.message = m ∧ (k.Valid cfg ∧ MapperFits made k.reads k.writes) ∧ k.events cfg = done ++ [event]) :
    ((s.record m event).finish 0 m).Solo cfg made := by
  obtain ⟨tasks, done, hmap, hvalid, hcalls, hpoint⟩ := hI.calls
  obtain ⟨hag, k, rfl, hk, hevents⟩ := hmid done hpoint
  refine ⟨hI.objects, ?_, tasks ++ [k], [], ?_, ?_, ?_, ?_⟩
  · show s.assigned = s.finished ++ [k.message] ++ (Function.update s.point 0 .idle 0).message?.toList
    rw [hI.assigned, hm, Function.update_self]
    simp [Point.message?]
  · show (tasks ++ [k]).map Task.message = s.finished ++ [k.message]
    rw [List.map_append, hmap]
    rfl
  · intro k' hk'
    rcases List.mem_append.1 hk' with hk' | hk'
    · exact hvalid k' hk'
    · rw [List.mem_singleton.1 hk']; exact hk
  · show (s.calls ++ [Call.mk k.message event]).map Call.event = _
    rw [List.map_append, hcalls, List.flatMap_append, List.flatMap_singleton, hevents]
    simp
  · show Midway cfg made s.engine 0 [] (Function.update s.point 0 .idle 0)
    rw [Function.update_self]
    exact ⟨rfl, hag⟩

theorem solo_readValue {ok : Bool} (ha : made (.readValue 0 ok)) (hI : s.Solo cfg made)
    (h : s.step cfg (.readValue 0 ok) = some s') : s'.Solo cfg made := by
  obtain ⟨m, hp, ⟨hd, rfl⟩ | ⟨x, e, hd, he, rfl⟩⟩ := step_readValue.1 h
  · refine solo_move hI hI.objects (by rw [hp]; rfl) rfl fun done hmid => ?_
    rw [hp] at hmid
    obtain ⟨rfl, hag⟩ := hmid
    refine ⟨hag, ok, .highTransactionAmount, true, false, false, fun t ht _ => ?_, ⟨?_, nofun⟩, fun recovers => ?_⟩
    · rw [hd] at ht; cases ht
    · rintro rfl; exact ⟨0, ha⟩
    · exact resumes_fails hd
  · obtain ⟨hphase, rfl⟩ := Engine.step_call.1 he
    refine solo_move hI (Engine.objects_call hI.objects 0 x) (by rw [hp]; rfl) rfl fun done hmid => ?_
    rw [hp] at hmid
    obtain ⟨rfl, hag⟩ := hmid
    have hx : cfg.mapper.readValue m.body = some x := by
      cases ok with
      | true => exact hd
      | false => cases hd
    refine ⟨rfl, x, hx, x.map fun _ => s.engine.heap.next, ?_, ?_, .inl ⟨Engine.call_phase_self .., ?_⟩⟩
    · cases x with
      | none => rfl
      | some t =>
        show some t = some ((s.engine.heap.alloc t).obj s.engine.heap.next)
        rw [Heap.alloc_obj_self]
    · intro r hr
      cases x with
      | none => cases hr
      | some t => cases hr; exact Nat.lt_succ_self _
    · cases x <;> exact hag

theorem solo_insert (hI : s.Solo cfg made) (h : s.step cfg (.insert 0) = some s') : s'.Solo cfg made := by
  obtain ⟨m, e, hp, he, rfl⟩ := step_insert.1 h
  obtain ⟨o, ho, rfl⟩ := Engine.step_insert.1 he
  obtain ⟨tasks, done, hmap, hvalid, hcalls, hpoint⟩ := hI.calls
  refine ⟨Engine.objects_insert hI.objects ho, hI.assigned, tasks, done, hmap, hvalid, hcalls, ?_⟩
  show Midway cfg made (s.engine.insert 0 o) 0 done (s.point 0)
  rw [hp] at hpoint ⊢
  obtain ⟨hdone, x, hx, o', hxo, hlt, hphase⟩ := hpoint
  obtain ⟨ho', hag⟩ | ⟨ho', -⟩ := hphase
  · rw [ho] at ho'; cases ho'
    refine ⟨hdone, x, hx, o, ?_, ?_, .inr ⟨Engine.insert_phase_self .., ?_⟩⟩
    · rw [Engine.heap, Engine.insert, KieSession.insert_heap]; exact hxo
    · rw [Engine.heap, Engine.insert, KieSession.insert_heap]; exact hlt
    · cases o with
      | none => exact hag
      | some r =>
        rw [hI.objects.insert_eq ho, hag]
        simp only [Engine.heap, Engine.insert, KieSession.insert_heap]
        rfl
  · rw [ho] at ho'; cases ho'

/-- The rule whose reason a fired object has last been given is one it satisfies. -/
theorem fired_reason {h : Heap} {r : Ref} {order : List Activation} (hp : order.Perm (activations h r))
    (hflag : flagged (h.obj r) = true) :
    ∃ rule : Rule, rule.when (h.obj r) = true ∧ KieSession.written order r = some rule.reason := by
  obtain ⟨rule, hwhen⟩ := flagged_iff.1 hflag
  have hmem : Activation.mk r rule ∈ order := hp.mem_iff.2 (mem_activations.2 ⟨rfl, hwhen⟩)
  obtain ⟨reason, hreason⟩ := Option.isSome_iff_exists.1 (KieSession.written_isSome.2 ⟨_, hmem, rfl⟩)
  obtain ⟨a, ha, -, rfl⟩ := KieSession.written_some hreason
  exact ⟨a.rule, (mem_activations.1 (hp.mem_iff.1 ha)).2, hreason⟩

theorem solo_fireAllRules {order : List Activation} (hI : s.Solo cfg made)
    (h : s.step cfg (.fireAllRules 0 order) = some s') : s'.Solo cfg made := by
  obtain ⟨m, o, e, hp, ho, he, rfl⟩ := step_fireAllRules.1 h
  obtain ⟨o', ho', hperm, rfl⟩ := Engine.step_fireAllRules.1 he
  rw [ho] at ho'; cases ho'
  have hobj : (s.engine.fireAllRules 0 o order).Objects :=
    Engine.objects_fireThen hI.objects (by rw [List.append_nil]; exact hperm) rfl rfl
  refine solo_move hI hobj (by rw [hp]; rfl) (afterEvaluate_message ..) fun done hmid => ?_
  rw [hp] at hmid
  obtain ⟨rfl, x, hx, o', rfl, -, ⟨ho', -⟩ | ⟨ho', hag⟩⟩ := hmid
  · rw [ho] at ho'; cases ho'
  rw [ho] at ho'; cases ho'
  rw [hag] at hperm
  have hdecode : cfg.decode m true = some (o.map s.engine.heap.obj) := hx
  cases o with
  | none =>
    -- `null` satisfies no rule, and `getId()` throws on it
    rw [List.perm_nil.1 hperm]
    refine ⟨rfl, true, .highTransactionAmount, true, false, false, fun t ht _ => ?_, ⟨nofun, nofun⟩, fun recovers => ?_⟩
    · rw [hdecode] at ht; cases ht
    · exact (resumes_decoded (k := ⟨m, true, _, _, _, _, recovers⟩) hdecode).next fromEvaluate_none
  | some r =>
    cases hf : flagged (s.engine.heap.obj r) with
    | false =>
      have hnil : order = [] := List.perm_nil.1 (activations_eq_nil.2 hf ▸ hperm)
      rw [hnil]
      refine ⟨rfl, true, .highTransactionAmount, true, false, fun t ht hft => ?_, ⟨nofun, nofun⟩,
        fun deletes recovers => ?_⟩
      · rw [hdecode] at ht
        cases ht
        rw [hf] at hft; cases hft
      · exact (resumes_decoded (k := ⟨m, true, _, _, _, deletes, recovers⟩) hdecode).next (fromEvaluate_clean hf)
    | true =>
      obtain ⟨rule, hwhen, hreason⟩ := fired_reason hperm hf
      have hlen : decide (order.length > 0) = true := by
        rw [decide_eq_true_eq, gt_iff_lt, List.length_pos_iff]
        rintro rfl
        cases hreason
      have hwritten : (s.engine.fireAllRules 0 (some r) order).heap.obj r =
          (s.engine.heap.obj r).setFraudReason rule.reason := by
        have hobj := (KieSession.fireThen_spec s.engine.session order []).obj r
        rw [hreason] at hobj
        exact hobj
      rw [hlen]
      refine ⟨rfl, true, rule, fun t ht _ => ?_, ⟨nofun, nofun⟩, fun writes sends deletes recovers => ?_⟩
      · rw [hdecode] at ht
        cases ht
        exact hwhen
      · rw [hwritten]
        exact (resumes_decoded (k := ⟨m, true, rule, writes, sends, deletes, recovers⟩) hdecode).next
          (fromEvaluate_flagged hf)

theorem solo_writeValueAsString {ok : Bool} (ha : made (.writeValueAsString 0 ok)) (hI : s.Solo cfg made)
    (h : s.step cfg (.writeValueAsString 0 ok) = some s') : s'.Solo cfg made := by
  obtain ⟨m, r, hp, rfl⟩ := step_writeValueAsString.1 h
  refine solo_move hI hI.objects (by rw [hp]; rfl) (by cases ok <;> rfl) fun done hmid => ?_
  rw [hp] at hmid
  obtain ⟨hag, reads, rule, hfits, hmap, hevents⟩ := hmid
  cases ok with
  | true =>
    refine ⟨hag, reads, rule, true, hfits, hmap, fun sends deletes recovers => ?_⟩
    exact (hevents true sends deletes recovers).next fromWrite_callees
  | false =>
    refine ⟨hag, reads, rule, false, false, false, hfits, ⟨hmap.1, fun _ => ⟨0, ha⟩⟩, fun recovers => ?_⟩
    exact (hevents false false false recovers).next fromWrite_callees

theorem solo_sendMessage {ok : Bool} (hI : s.Solo cfg made) (h : s.step cfg (.sendMessage 0 ok) = some s') :
    s'.Solo cfg made := by
  obtain ⟨m, body, hp, rfl⟩ := step_sendMessage.1 h
  refine solo_move hI hI.objects (by rw [hp]; rfl) (by cases ok <;> rfl) fun done hmid => ?_
  rw [hp] at hmid
  obtain ⟨hag, reads, rule, writes, hfits, hmap, hevents⟩ := hmid
  cases ok with
  | true =>
    refine ⟨hag, reads, rule, writes, true, hfits, hmap, fun deletes recovers => ?_⟩
    exact (hevents true deletes recovers).next fromSend_callees
  | false =>
    refine ⟨hag, reads, rule, writes, false, false, hfits, hmap, fun recovers => ?_⟩
    exact (hevents false false recovers).next fromSend_callees

theorem solo_deleteMessage {ok : Bool} (hI : s.Solo cfg made) (h : s.step cfg (.deleteMessage 0 ok) = some s') :
    s'.Solo cfg made := by
  obtain ⟨m, ⟨hp, rfl, rfl⟩ | ⟨hp, rfl⟩⟩ := step_deleteMessage.1 h
  · refine solo_move hI hI.objects (by rw [hp]; rfl) rfl fun done hmid => ?_
    rw [hp] at hmid
    obtain ⟨hag, reads, rule, writes, sends, hfits, hmap, hevents⟩ := hmid
    refine ⟨hag, reads, rule, writes, sends, false, hfits, hmap, fun recovers => ?_⟩
    exact (hevents false recovers).next fromDelete_callees
  · rcases hp with ⟨hp, rfl⟩ | hp
    · refine solo_finish hI (by rw [hp]; rfl) fun done hmid => ?_
      rw [hp] at hmid
      obtain ⟨hag, reads, rule, writes, sends, hfits, hmap, hevents⟩ := hmid
      refine ⟨hag, ⟨m, reads, rule, writes, sends, true, true⟩, rfl, ⟨hfits, hmap⟩, ?_⟩
      exact (hevents true true).last fromDelete_callees
    · refine solo_finish hI (by rw [hp]; rfl) fun done hmid => ?_
      rw [hp] at hmid
      obtain ⟨hag, reads, rule, writes, sends, deletes, hfits, hmap, hevents⟩ := hmid
      refine ⟨hag, ⟨m, reads, rule, writes, sends, deletes, ok⟩, rfl, ⟨hfits, hmap⟩, ?_⟩
      exact (hevents ok).last fromRecovery_callees

theorem solo_assign {m : Message} (hI : s.Solo cfg made) (hw : s.point 0 = .unborn ∨ s.point 0 = .idle) :
    (s.assign 0 m).Solo cfg made := by
  obtain ⟨tasks, done, hmap, hvalid, hcalls, hpoint⟩ := hI.calls
  have hidle : (s.point 0).message? = none ∧ done = [] ∧ s.engine.session.agenda = [] := by
    rcases hw with hw | hw <;> rw [hw] at hpoint ⊢ <;> exact ⟨rfl, hpoint⟩
  obtain ⟨hm, rfl, hag⟩ := hidle
  refine ⟨hI.objects, ?_, tasks, [], hmap, hvalid, hcalls, ?_⟩
  · show s.assigned ++ [m] = s.finished ++ (Function.update s.point 0 (.reading m) 0).message?.toList
    rw [hI.assigned, hm, Function.update_self]
    simp [Point.message?]
  · show Midway cfg made s.engine 0 [] (Function.update s.point 0 (.reading m) 0)
    rw [Function.update_self]
    exact ⟨rfl, hag⟩

theorem solo_step (ha : EngineSafe a) (hm : made a) (hI : s.Solo cfg made) (h : s.step cfg a = some s') :
    s'.Solo cfg made := by
  cases a with
  | take w m =>
    obtain rfl := Subsingleton.elim w 0
    obtain ⟨hw, rfl⟩ := step_take.1 h
    exact solo_assign hI hw
  | readValue w ok => obtain rfl := Subsingleton.elim w 0; exact solo_readValue hm hI h
  | insert w => obtain rfl := Subsingleton.elim w 0; exact solo_insert hI h
  | fireAllRules w order => obtain rfl := Subsingleton.elim w 0; exact solo_fireAllRules hI h
  | evaluateThrows w done rest => exact ha.elim
  | writeValueAsString w ok => obtain rfl := Subsingleton.elim w 0; exact solo_writeValueAsString hm hI h
  | sendMessage w ok => obtain rfl := Subsingleton.elim w 0; exact solo_sendMessage hI h
  | deleteMessage w ok => obtain rfl := Subsingleton.elim w 0; exact solo_deleteMessage hI h

theorem solo_run {actions : List (PoolAction 1)} (hsafe : ∀ a ∈ actions, EngineSafe a)
    (h : Lts.run (step cfg) (new 1) actions = some s) : s.Solo cfg (· ∈ actions) :=
  Lts.run_inv_along (C := fun _ a => a ∈ actions) (I := Solo cfg (· ∈ actions))
    (fun _ a _ hI ha ht => solo_step (hsafe a ha) ha hI ht) solo_new (Lts.along_of_forall fun _ ha _ => ha) h

/-! ## The calls made so far -/

theorem exists_ruleFits (cfg : Config) (m : Message) : ∃ rule, RuleFits cfg m true rule := by
  by_cases h : ∃ t, cfg.decode m true = some (some t) ∧ flagged t = true
  · obtain ⟨t, ht, hf⟩ := h
    obtain ⟨rule, hwhen⟩ := flagged_iff.1 hf
    refine ⟨rule, fun t' ht' _ => ?_⟩
    rw [ht] at ht'; cases ht'
    exact hwhen
  · exact ⟨.highTransactionAmount, fun t ht hf => absurd ⟨t, ht, hf⟩ h⟩

/-- Whatever the worker has done for its message is the beginning of the calls of a task. -/
theorem Midway.task {e : Engine 1} {done : List Event} {p : Point} {m : Message} (hmid : Midway cfg made e 0 done p)
    (hm : p.message? = some m) : ∃ k : Task, k.message = m ∧ (k.Valid cfg ∧ MapperFits made k.reads k.writes) ∧
      done <+: k.events cfg := by
  cases p with
  | unborn => cases hm
  | idle => cases hm
  | reading _ =>
    cases hm
    obtain ⟨rfl, -⟩ := hmid
    obtain ⟨rule, hfits⟩ := exists_ruleFits cfg m
    exact ⟨⟨m, true, rule, true, true, true, true⟩, rfl, ⟨hfits, nofun, nofun⟩, List.nil_prefix⟩
  | evaluating _ =>
    cases hm
    obtain ⟨rfl, x, hx, -⟩ := hmid
    obtain ⟨rule, hfits⟩ := exists_ruleFits cfg m
    have hevents : (Task.mk m true rule true true true true).Resumes cfg [.readValue true]
        (fromEvaluate · cfg.urls m x) :=
      resumes_decoded (k := ⟨m, true, rule, true, true, true, true⟩) hx
    exact ⟨⟨m, true, rule, true, true, true, true⟩, rfl, ⟨hfits, nofun, nofun⟩, _, hevents.symm⟩
  | writing _ r =>
    cases hm
    obtain ⟨-, reads, rule, hfits, hmap, hevents⟩ := hmid
    exact ⟨⟨m, reads, rule, true, true, true, true⟩, rfl, ⟨hfits, hmap⟩, _, (hevents true true true true).symm⟩
  | sending _ body =>
    cases hm
    obtain ⟨-, reads, rule, writes, hfits, hmap, hevents⟩ := hmid
    exact ⟨⟨m, reads, rule, writes, true, true, true⟩, rfl, ⟨hfits, hmap⟩, _, (hevents true true true).symm⟩
  | deleting _ =>
    cases hm
    obtain ⟨-, reads, rule, writes, sends, hfits, hmap, hevents⟩ := hmid
    exact ⟨⟨m, reads, rule, writes, sends, true, true⟩, rfl, ⟨hfits, hmap⟩, _, (hevents true true).symm⟩
  | recovering _ =>
    cases hm
    obtain ⟨-, reads, rule, writes, sends, deletes, hfits, hmap, hevents⟩ := hmid
    exact ⟨⟨m, reads, rule, writes, sends, deletes, true⟩, rfl, ⟨hfits, hmap⟩, _, (hevents true).symm⟩

theorem Midway.rest {e : Engine 1} {done : List Event} {p : Point} (hmid : Midway cfg made e 0 done p)
    (hm : p.message? = none) : done = [] := by
  cases p with
  | unborn => exact hmid.1
  | idle => exact hmid.1
  | _ => cases hm

/-- The calls are those of the tasks assigned, in order; the last task may still be under way. -/
theorem Solo.tasks (hI : s.Solo cfg made) : ∃ tasks : List Task, tasks.map Task.message = s.assigned ∧
    (∀ k ∈ tasks, k.Valid cfg ∧ MapperFits made k.reads k.writes) ∧
    s.calls.map Call.event <+: tasks.flatMap (Task.events cfg) ∧
    ((s.point 0).message? = none → s.calls.map Call.event = tasks.flatMap (Task.events cfg)) := by
  obtain ⟨tasks, done, hmap, hvalid, hcalls, hmid⟩ := hI.calls
  cases hm : (s.point 0).message? with
  | none =>
    obtain rfl := hmid.rest hm
    rw [List.append_nil] at hcalls
    refine ⟨tasks, ?_, hvalid, by rw [hcalls], fun _ => hcalls⟩
    rw [hI.assigned, hm, hmap]
    simp
  | some m =>
    obtain ⟨k, rfl, hk, hdone⟩ := hmid.task hm
    refine ⟨tasks ++ [k], ?_, ?_, ?_, nofun⟩
    · rw [hI.assigned, hm, List.map_append, hmap]
      rfl
    · intro k' hk'
      rcases List.mem_append.1 hk' with hk' | hk'
      · exact hvalid k' hk'
      · rw [List.mem_singleton.1 hk']; exact hk
    · rw [hcalls, List.flatMap_append, List.flatMap_singleton]
      exact (List.prefix_append_right_inj _).2 hdone

/-- The SQS calls of a run, in the order in which they were made. -/
def sqsCalls {n : Nat} (s : Pool n) : List Event :=
  (s.calls.map Call.event).filter fun event => event.isSend || event.isDelete

theorem sqsCalls_flatMap (cfg : Config) (tasks : List Task) :
    (tasks.flatMap (Task.events cfg)).filter (fun event => event.isSend || event.isDelete) =
      tasks.flatMap (Task.sqsCalls cfg) := by
  rw [List.filter_flatMap]
  exact List.flatMap_congr fun k _ => sqsCalls_eq cfg k

end Pool

end FraudDetect.Service
