/-
A pool of any size against the stateless reference. While every `fireAllRules` is taken with no other worker between its
`insert` and its `fireAllRules` on a transaction that satisfies a rule, each delivery is processed by the calls that the
reference makes for it alone, however the workers are interleaved in between.
-/
import FraudDetect.Drools.Verdict
import FraudDetect.Service.Conservation
import FraudDetect.Service.Failures
import FraudDetect.Service.Layers
import FraudDetect.Service.Notices
import FraudDetect.Service.Pipeline
import FraudDetect.Service.Traces

namespace FraudDetect.Service

open FraudDetect.Drools

theorem ownMatch_exists {cfg : Config} {m : Message} (h : OwnMatch cfg m = true) :
    ∃ t, cfg.mapper.readValue m.body = some (some t) ∧ flagged t = true := by
  unfold OwnMatch at h
  obtain ⟨x, hx, hany⟩ := (Option.any_eq_true _ _).1 h
  obtain ⟨t, rfl, hf⟩ := (Option.any_eq_true _ _).1 hany
  exact ⟨t, hx, hf⟩

/-! ## The calls of a task -/

/-- The call has thrown. -/
def Event.threw : Event → Bool
  | .readValue ok | .evaluate ok | .writeValueAsString ok | .sendMessage _ _ ok | .deleteMessage _ _ ok => !ok

namespace Task

variable {cfg : Config} {k : Task} {t : Transaction} {calls : List Event}

/-- The calls before the deletes, for a transaction that satisfies a rule: they end with a call that has thrown, or with the
notification. -/
theorem events_flagged (ht : cfg.mapper.readValue k.message.body = some (some t)) (hf : flagged t = true) :
    ∃ front deletes, k.events cfg = front ++ deletes ∧ (∀ x ∈ front, x.isDelete = false) ∧
      ((∃ x ∈ front, x.threw = true) ∨ k.reads = true ∧ k.notify cfg t true ∈ front) := by
  unfold Task.events
  rw [trace_eq]
  cases hreads : k.reads with
  | false =>
    have hd : cfg.decode k.message k.reads = none := by rw [hreads]; rfl
    rw [fromRead_fails hd]
    exact ⟨[.readValue false], _, rfl, by decide, .inl ⟨_, List.mem_singleton_self _, rfl⟩⟩
  | true =>
    have hd : cfg.decode k.message k.reads = some (some t) := by rw [hreads]; exact ht
    rw [fromRead_decoded hd, fromEvaluate_flagged hf, fromWrite_callees]
    cases k.writes with
    | false =>
      exact ⟨[.readValue true, .evaluate true, .writeValueAsString false], _, rfl, by decide,
        .inl ⟨.writeValueAsString false, by simp, rfl⟩⟩
    | true =>
      simp only [if_true]
      rw [fromSend_callees]
      cases k.sends with
      | false =>
        refine ⟨[.readValue true, .evaluate true, .writeValueAsString true, k.notify cfg t false], _, rfl, ?_,
          .inl ⟨k.notify cfg t false, by simp, rfl⟩⟩
        simp [Event.isDelete, notify]
      | true =>
        refine ⟨[.readValue true, .evaluate true, .writeValueAsString true, k.notify cfg t true], _, rfl, ?_,
          .inr ⟨trivial, by simp⟩⟩
        simp [Event.isDelete, notify]

/-- A delete is made after the notification, or after a call that has thrown. -/
theorem notify_before_delete (ht : cfg.mapper.readValue k.message.body = some (some t)) (hf : flagged t = true)
    (hcalls : calls <+: k.events cfg) {event : Event} (hevent : event ∈ calls) (hdelete : event.isDelete = true) :
    (k.reads = true ∧ k.notify cfg t true ∈ calls) ∨ ∃ x ∈ calls, x.isDelete = false ∧ x.threw = true := by
  obtain ⟨front, deletes, he, hfront, hends⟩ := events_flagged ht hf
  obtain ⟨rest, hrest⟩ := hcalls
  obtain ⟨before, after, rfl⟩ := List.append_of_mem hevent
  have hsplit : front ++ deletes = before ++ event :: (after ++ rest) := by
    rw [← he, ← hrest, List.append_assoc, List.cons_append]
  have hfirst := prefix_of_delete front hfront hdelete hsplit
  have hsub : ∀ x ∈ front, x ∈ before ++ event :: after := fun x hx => List.mem_append_left _ (hfirst.subset hx)
  rcases hends with ⟨x, hx, hthrew⟩ | ⟨hreads, hx⟩
  · exact .inr ⟨x, hsub x hx, hfront x hx, hthrew⟩
  · exact .inl ⟨hreads, hsub _ hx⟩

/-- Only a transaction that satisfies a rule is sent, with the reason of the task's rule. -/
theorem send_flagged {queueUrl body : String} {ok : Bool} (h : .sendMessage queueUrl body ok ∈ k.events cfg) :
    ∃ t, cfg.decode k.message k.reads = some (some t) ∧ flagged t = true ∧
      body = cfg.mapper.writeValueAsString (t.setFraudReason k.rule.reason) := by
  have hsqs : .sendMessage queueUrl body ok ∈ k.sqsCalls cfg := by
    rw [← sqsCalls_eq]
    exact List.mem_filter.2 ⟨h, rfl⟩
  have hdeletes : .sendMessage queueUrl body ok ∉ k.deleteCalls cfg := by
    unfold deleteCalls
    cases k.deletes <;> simp [delete]
  unfold sqsCalls at hsqs
  cases hd : cfg.decode k.message k.reads with
  | none => rw [hd] at hsqs; simp [delete] at hsqs
  | some x =>
    rw [hd] at hsqs
    cases x with
    | none => simp [delete] at hsqs
    | some t =>
      cases hf : flagged t with
      | false => simp only [hf] at hsqs; exact absurd hsqs hdeletes
      | true =>
        refine ⟨t, rfl, hf, ?_⟩
        simp only [hf, if_true] at hsqs
        cases hw : k.writes with
        | false => rw [hw] at hsqs; simp [delete] at hsqs
        | true =>
          rw [hw] at hsqs
          cases hs : k.sends <;> rw [hs] at hsqs <;> simp [notify, delete, hdeletes] at hsqs <;> exact hsqs.2.1

end Task

namespace Pool

variable {n : Nat} {cfg : Config} {made : PoolAction n → Prop} {s s' : Pool n} {a : PoolAction n} {w : Fin n}
  {m : Message}

theorem mem_callsOf {event : Event} : event ∈ s.callsOf m ↔ Call.mk m event ∈ s.calls := by
  unfold callsOf
  simp only [List.mem_map, List.mem_filter, decide_eq_true_eq]
  constructor
  · rintro ⟨c, ⟨hc, rfl⟩, rfl⟩
    exact hc
  · intro hc
    exact ⟨_, ⟨hc, rfl⟩, rfl⟩

/-! ## Midway through a task -/

/-- What worker `w` has called for its delivery, `done`, and what it will call from here are the calls of a task, however
the calls to come turn out. -/
def Underway (cfg : Config) (made : PoolAction n → Prop) (e : Engine n) (w : Fin n) (done : List Event) : Point → Prop
  | .unborn | .idle => True
  | .reading _ => done = []
  | .evaluating m => done = [.readValue true] ∧ ∃ x, cfg.mapper.readValue m.body = some x ∧
      ∀ o, e.phase w = .called o ∨ e.phase w = .inserted o → o.isSome = x.isSome
  | .writing m _ => done = [.readValue true, .evaluate true] ∧ OwnMatch cfg m = true
  | .sending m body => ∃ reads rule writes, RuleFits cfg m reads rule ∧ MapperFits made reads writes ∧
      ∀ sends deletes recovers, (Task.mk m reads rule writes sends deletes recovers).Resumes cfg done
        (fromSend · cfg.urls m body)
  | .deleting m => ∃ reads rule writes sends, RuleFits cfg m reads rule ∧ MapperFits made reads writes ∧
      ∀ deletes recovers, (Task.mk m reads rule writes sends deletes recovers).Resumes cfg done (fromDelete · cfg.urls m)
  | .recovering m => ∃ reads rule writes sends deletes, RuleFits cfg m reads rule ∧ MapperFits made reads writes ∧
      ∀ recovers, (Task.mk m reads rule writes sends deletes recovers).Resumes cfg done (fromRecovery · cfg.urls m)

theorem Underway.congr {e e' : Engine n} {done : List Event} {p : Point} (hphase : e'.phase w = e.phase w)
    (h : Underway cfg made e w done p) : Underway cfg made e' w done p := by
  cases p with
  | evaluating m =>
    obtain ⟨hdone, x, hx, ho⟩ := h
    refine ⟨hdone, x, hx, fun o hp => ho o ?_⟩
    rwa [hphase] at hp
  | _ => exact h

/-- The delivery is that of a task whose calls these are. -/
def TaskOf (cfg : Config) (made : PoolAction n → Prop) (m : Message) (calls : List Event) : Prop :=
  ∃ k : Task, k.message = m ∧ (k.Valid cfg ∧ MapperFits made k.reads k.writes) ∧ calls = k.events cfg

structure Tasked (cfg : Config) (made : PoolAction n → Prop) (s : Pool n) : Prop where
  working : ∀ w m, (s.point w).message? = some m → Underway cfg made s.engine w (s.callsOf m) (s.point w)
  finished : ∀ m ∈ s.finished, TaskOf cfg made m (s.callsOf m)

theorem tasked_new : (new n).Tasked cfg made := ⟨nofun, nofun⟩

/-! ## One step -/

theorem tasked_assign (hA : s.Accounted cfg) (hI : s.Tasked cfg made) (hnd : (s.assign w m).assigned.Nodup) :
    (s.assign w m).Tasked cfg made := by
  refine ⟨fun v m' hv => ?_, hI.finished⟩
  by_cases hvw : v = w
  · subst hvw
    have hpt : (s.assign v m).point v = .reading m := by
      show Function.update s.point v (.reading m) v = _
      rw [Function.update_self]
    rw [hpt] at hv ⊢
    cases hv
    -- no call has been made for a delivery that had not been assigned
    show (s.calls.filter fun c => c.delivery = m).map Call.event = []
    rw [List.map_eq_nil_iff, List.filter_eq_nil_iff]
    intro c hc hcm
    refine List.disjoint_of_nodup_append hnd ?_ (List.mem_singleton_self m)
    exact of_decide_eq_true hcm ▸ (hA.calls c hc).1
  · have hpt : (s.assign w m).point v = s.point v := Function.update_of_ne hvw ..
    rw [hpt] at hv ⊢
    exact hI.working v m' hv

/-- The worker goes on inside `evaluate`, without a call of its own. -/
theorem tasked_stays (hI : s.Tasked cfg made) (hpoint : s'.point = s.point) (hcalls : s'.calls = s.calls)
    (hfinished : s'.finished = s.finished) (hphase : ∀ v, v ≠ w → s'.engine.phase v = s.engine.phase v)
    (hw : ∀ done, Underway cfg made s.engine w done (s.point w) → Underway cfg made s'.engine w done (s.point w)) :
    s'.Tasked cfg made := by
  have hof : ∀ m', s'.callsOf m' = s.callsOf m' := fun m' => by unfold callsOf; rw [hcalls]
  constructor
  · intro v m' hv
    rw [hpoint] at hv ⊢
    rw [hof]
    by_cases hvw : v = w
    · subst hvw; exact hw _ (hI.working v m' hv)
    · exact (hI.working v m' hv).congr (hphase v hvw)
  · intro m' hm'
    rw [hfinished] at hm'
    rw [hof]
    exact hI.finished m' hm'

/-- A call for the delivery of worker `w` leaves those of the other deliveries alone. -/
theorem tasked_others {event : Event} {p : Point} (hA : s.Accounted cfg) (hI : s.Tasked cfg made)
    (hnd : s.assigned.Nodup) (hw : (s.point w).message? = some m) (hpoint : s'.point = Function.update s.point w p)
    (hcalls : s'.calls = s.calls ++ [⟨m, event⟩]) (hphase : ∀ v, v ≠ w → s'.engine.phase v = s.engine.phase v) :
    (∀ v m', v ≠ w → (s'.point v).message? = some m' →
        Underway cfg made s'.engine v (s'.callsOf m') (s'.point v)) ∧
      ∀ m' ∈ s.finished, TaskOf cfg made m' (s'.callsOf m') := by
  obtain ⟨hone, hnot⟩ := alone_of_nodup hA hnd hw
  constructor
  · intro v m' hvw hv
    rw [hpoint, Function.update_of_ne hvw] at hv ⊢
    rw [callsOf_other hcalls (by rintro rfl; exact hvw (hone v hv))]
    exact (hI.working v m' hv).congr (hphase v hvw)
  · intro m' hm'
    rw [callsOf_other hcalls (by rintro rfl; exact hnot hm')]
    exact hI.finished m' hm'

/-- The worker makes a call and goes on with its delivery. -/
theorem tasked_move {event : Event} {e : Engine n} {p : Point} (hA : s.Accounted cfg) (hI : s.Tasked cfg made)
    (hnd : s.assigned.Nodup) (hw : (s.point w).message? = some m) (hp : p.message? = some m)
    (hphase : ∀ v, v ≠ w → e.phase v = s.engine.phase v)
    (hnext : ∀ done, Underway cfg made s.engine w done (s.point w) → Underway cfg made e w (done ++ [event]) p) :
    (((s.record m event).withEngine e).move w p).Tasked cfg made := by
  have hcalls : (((s.record m event).withEngine e).move w p).calls = s.calls ++ [⟨m, event⟩] := rfl
  obtain ⟨hothers, hfinished⟩ := tasked_others hA hI hnd hw rfl hcalls hphase
  refine ⟨fun v m' hv => ?_, hfinished⟩
  by_cases hvw : v = w
  · subst hvw
    have hpt : (((s.record m event).withEngine e).move v p).point v = p := Function.update_self ..
    rw [hpt] at hv ⊢
    rw [hp] at hv; cases hv
    rw [callsOf_self hcalls]
    exact hnext _ (hI.working v m hw)
  · exact hothers v m' hvw hv

/-- The worker makes its last call for its delivery. -/
theorem tasked_finish {event : Event} (hA : s.Accounted cfg) (hI : s.Tasked cfg made) (hnd : s.assigned.Nodup)
    (hw : (s.point w).message? = some m)
    (hlast : ∀ done, Underway cfg made s.engine w done (s.point w) → TaskOf cfg made m (done ++ [event])) :
    ((s.record m event).finish w m).Tasked cfg made := by
  have hpoint : ((s.record m event).finish w m).point = Function.update s.point w .idle := rfl
  have hcalls : ((s.record m event).finish w m).calls = s.calls ++ [⟨m, event⟩] := rfl
  obtain ⟨hothers, hfinished⟩ := tasked_others hA hI hnd hw hpoint hcalls fun _ _ => rfl
  refine ⟨fun v m' hv => ?_, fun m' hm' => ?_⟩
  · by_cases hvw : v = w
    · subst hvw
      have hpt : ((s.record m event).finish v m).point v = .idle := Function.update_self ..
      rw [hpt] at hv; cases hv
    · exact hothers v m' hvw hv
  · rcases List.mem_append.1 hm' with hm' | hm'
    · exact hfinished m' hm'
    · rw [List.mem_singleton.1 hm', callsOf_self hcalls]
      exact hlast _ (hI.working w m hw)

theorem tasked_insert (hI : s.Tasked cfg made) (h : s.step cfg (.insert w) = some s') : s'.Tasked cfg made := by
  obtain ⟨m, e, hp, he, rfl⟩ := step_insert.1 h
  obtain ⟨o, ho, rfl⟩ := Engine.step_insert.1 he
  refine tasked_stays hI rfl rfl rfl (fun v hv => Engine.insert_phase_of_ne _ o hv) fun done hdone => ?_
  rw [hp] at hdone ⊢
  obtain ⟨hdone, x, hx, hphase⟩ := hdone
  refine ⟨hdone, x, hx, fun o' ho' => ?_⟩
  change (s.engine.insert w o).phase w = _ ∨ (s.engine.insert w o).phase w = _ at ho'
  rw [Engine.insert_phase_self] at ho'
  rcases ho' with ho' | ho' <;> cases ho'
  exact hphase o (.inl ho)

section

variable (hA : s.Accounted cfg) (hnd : s.assigned.Nodup)
include hA hnd

theorem tasked_readValue {ok : Bool} (ha : made (.readValue w ok)) (hI : s.Tasked cfg made)
    (h : s.step cfg (.readValue w ok) = some s') : s'.Tasked cfg made := by
  obtain ⟨m, hp, ⟨hd, rfl⟩ | ⟨x, e, hd, he, rfl⟩⟩ := step_readValue.1 h
  · refine tasked_move (e := s.engine) hA hI hnd (by rw [hp]; rfl) rfl (fun _ _ => rfl) fun done hdone => ?_
    rw [hp] at hdone
    obtain rfl : done = [] := hdone
    refine ⟨ok, .highTransactionAmount, true, false, false, fun t ht _ => ?_, ⟨?_, nofun⟩, fun recovers => ?_⟩
    · rw [hd] at ht; cases ht
    · rintro rfl; exact ⟨w, ha⟩
    · exact resumes_fails hd
  · obtain ⟨-, rfl⟩ := Engine.step_call.1 he
    refine tasked_move hA hI hnd (by rw [hp]; rfl) rfl (fun v hv => Engine.call_phase_of_ne _ x hv) fun done hdone => ?_
    rw [hp] at hdone
    obtain rfl : done = [] := hdone
    refine ⟨rfl, x, decode_some hd, fun o ho => ?_⟩
    rw [Engine.call_phase_self] at ho
    rcases ho with ho | ho <;> cases ho
    cases x <;> rfl

/-- An undisturbed call returns what the reference does for the transaction alone. -/
theorem tasked_fireAllRules {order : List Activation} (hL : s.Linked cfg) (hwf : s.engine.Wf)
    (hpending : s.engine.Pending) (hu : s.engine.Undisturbed (.fireAllRules w order)) (hI : s.Tasked cfg made)
    (h : s.step cfg (.fireAllRules w order) = some s') : s'.Tasked cfg made := by
  obtain ⟨m, o, e, hp, ho, he, rfl⟩ := step_fireAllRules.1 h
  obtain ⟨o', ho', hperm, rfl⟩ := Engine.step_fireAllRules.1 he
  rw [ho] at ho'; cases ho'
  have hverdict := Engine.undisturbed_call hwf hpending hu ho hperm
  have hlinked := hL.point w
  rw [hp] at hlinked
  refine tasked_move hA hI hnd (by rw [hp]; rfl) (afterEvaluate_message ..)
    (fun v hv => Engine.fireAllRules_phase_of_ne _ o order hv) fun done hdone => ?_
  rw [hp] at hdone
  obtain ⟨rfl, x, hx, hphase⟩ := hdone
  have hsome := hphase o (.inr ho)
  have hdecode : cfg.decode m true = some x := hx
  cases o with
  | none =>
    obtain rfl : x = none := by simpa using hsome.symm
    refine ⟨true, .highTransactionAmount, true, false, false, fun t ht _ => ?_, ⟨nofun, nofun⟩, fun recovers => ?_⟩
    · rw [hdecode] at ht; cases ht
    · exact (resumes_decoded (k := ⟨m, true, _, _, _, _, recovers⟩) hdecode).next fromEvaluate_none
  | some r =>
    obtain ⟨t, ht, hsame, -⟩ := hlinked r (.inr ho)
    obtain rfl : x = some t := Option.some.inj (hx.symm.trans ht)
    have hflag : satisfies s.engine.heap (some r) = flagged t := flagged_congr hsame
    rw [hflag] at hverdict
    cases hf : flagged t with
    | true =>
      rw [hf] at hverdict
      have hlen : decide (order.length > 0) = true := decide_eq_true (hverdict.2 rfl)
      rw [hlen]
      exact ⟨rfl, (ownMatch_some ht).trans hf⟩
    | false =>
      rw [hf] at hverdict
      have hlen : decide (order.length > 0) = false := decide_eq_false fun hlt => by cases hverdict.1 hlt
      rw [hlen]
      refine ⟨true, .highTransactionAmount, true, false, fun t' ht' hft => ?_, ⟨nofun, nofun⟩,
        fun deletes recovers => ?_⟩
      · rw [hdecode] at ht'
        cases ht'
        rw [hf] at hft; cases hft
      · exact (resumes_decoded (k := ⟨m, true, _, _, _, deletes, recovers⟩) hdecode).next (fromEvaluate_clean hf)

/-- The object has the reason of a rule its transaction satisfies, so the reference gives it that reason. -/
theorem tasked_writeValueAsString {ok : Bool} (ha : made (.writeValueAsString w ok)) (hN : s.Noticed cfg)
    (hI : s.Tasked cfg made) (h : s.step cfg (.writeValueAsString w ok) = some s') : s'.Tasked cfg made := by
  obtain ⟨m, r, hp, rfl⟩ := step_writeValueAsString.1 h
  have hlinked := hN.linked.point w
  rw [hp] at hlinked
  obtain ⟨⟨t, ht, hsame, -⟩, hfact, hag⟩ := hlinked
  refine tasked_move (e := s.engine) hA hI hnd (by rw [hp]; rfl) (by cases ok <;> rfl) (fun _ _ => rfl) fun done hdone => ?_
  rw [hp] at hdone
  obtain ⟨rfl, hown⟩ := hdone
  have hf : flagged t = true := (ownMatch_some ht).symm.trans hown
  obtain ⟨rule, hwhen, hreason⟩ := hN.explained r hfact ((flagged_congr hsame).trans hf) hag
  have hobj : s.engine.heap.obj r = t.setFraudReason rule.reason := hsame.eq_setFraudReason hreason
  have hdecode : cfg.decode m true = some (some t) := ht
  have hfits : RuleFits cfg m true rule := by
    intro t' ht' _
    rw [hdecode] at ht'; cases ht'
    exact (when_congr hsame rule).symm.trans hwhen
  have hresumes : ∀ writes sends deletes recovers, (Task.mk m true rule writes sends deletes recovers).Resumes cfg
      [.readValue true, .evaluate true] (fromWrite · cfg.urls m (t.setFraudReason rule.reason)) :=
    fun writes sends deletes recovers =>
      (resumes_decoded (k := ⟨m, true, rule, writes, sends, deletes, recovers⟩) hdecode).next (fromEvaluate_flagged hf)
  cases ok with
  | true =>
    rw [hobj]
    refine ⟨true, rule, true, hfits, ⟨nofun, nofun⟩, fun sends deletes recovers => ?_⟩
    exact (hresumes true sends deletes recovers).next fromWrite_callees
  | false =>
    refine ⟨true, rule, false, false, false, hfits, ⟨nofun, fun _ => ⟨w, ha⟩⟩, fun recovers => ?_⟩
    exact (hresumes false false false recovers).next fromWrite_callees

theorem tasked_sendMessage {ok : Bool} (hI : s.Tasked cfg made) (h : s.step cfg (.sendMessage w ok) = some s') :
    s'.Tasked cfg made := by
  obtain ⟨m, body, hp, rfl⟩ := step_sendMessage.1 h
  refine tasked_move (e := s.engine) hA hI hnd (by rw [hp]; rfl) (by cases ok <;> rfl) (fun _ _ => rfl) fun done hdone => ?_
  rw [hp] at hdone
  obtain ⟨reads, rule, writes, hfits, hmap, hevents⟩ := hdone
  cases ok with
  | true =>
    refine ⟨reads, rule, writes, true, hfits, hmap, fun deletes recovers => ?_⟩
    exact (hevents true deletes recovers).next fromSend_callees
  | false =>
    refine ⟨reads, rule, writes, false, false, hfits, hmap, fun recovers => ?_⟩
    exact (hevents false false recovers).next fromSend_callees

theorem tasked_deleteMessage {ok : Bool} (hI : s.Tasked cfg made) (h : s.step cfg (.deleteMessage w ok) = some s') :
    s'.Tasked cfg made := by
  obtain ⟨m, ⟨hp, rfl, rfl⟩ | ⟨hp, rfl⟩⟩ := step_deleteMessage.1 h
  · refine tasked_move (e := s.engine) hA hI hnd (by rw [hp]; rfl) rfl (fun _ _ => rfl) fun done hdone => ?_
    rw [hp] at hdone
    obtain ⟨reads, rule, writes, sends, hfits, hmap, hevents⟩ := hdone
    refine ⟨reads, rule, writes, sends, false, hfits, hmap, fun recovers => ?_⟩
    exact (hevents false recovers).next fromDelete_callees
  · rcases hp with ⟨hp, rfl⟩ | hp
    · refine tasked_finish hA hI hnd (by rw [hp]; rfl) fun done hdone => ?_
      rw [hp] at hdone
      obtain ⟨reads, rule, writes, sends, hfits, hmap, hevents⟩ := hdone
      refine ⟨⟨m, reads, rule, writes, sends, true, true⟩, rfl, ⟨hfits, hmap⟩, ?_⟩
      exact ((hevents true true).last fromDelete_callees).symm
    · refine tasked_finish hA hI hnd (by rw [hp]; rfl) fun done hdone => ?_
      rw [hp] at hdone
      obtain ⟨reads, rule, writes, sends, deletes, hfits, hmap, hevents⟩ := hdone
      refine ⟨⟨m, reads, rule, writes, sends, deletes, ok⟩, rfl, ⟨hfits, hmap⟩, ?_⟩
      exact ((hevents ok).last fromRecovery_callees).symm

end

/-- The rule engine makes no step but its own, and none that is disturbed. -/
theorem engine_step (hsafe : EngineSafe a) (hfires : FiresAlone s a) (hE : s.engine.Wf ∧ s.engine.Pending)
    (h : s.step cfg a = some s') : s'.engine.Wf ∧ s'.engine.Pending :=
  Lts.run_inv_along (I := fun e : Engine n => e.Wf ∧ e.Pending)
    (fun _ _ _ hE hu hs => ⟨Engine.wf_step _ hE.1 hs, Engine.pending_step hE.1 hE.2 hu hs⟩) hE
    (undisturbed_of_firesAlone hfires h) ((engineSimulation cfg).step_run _ _ _ hsafe h)

/-- As long as no delivery is assigned twice, each is processed by the calls of a task. -/
theorem tasked_step (hsafe : EngineSafe a) (ha : made a) (hfires : FiresAlone s a) (hA : s.Accounted cfg)
    (hN : s.Noticed cfg) (hE : s.engine.Wf ∧ s.engine.Pending) (hI : s.assigned.Nodup → s.Tasked cfg made)
    (h : s.step cfg a = some s') (hnd : s'.assigned.Nodup) : s'.Tasked cfg made := by
  have hold : s.assigned.Nodup := by
    rcases step_cases h with ⟨w, m, -, -, rfl⟩ | ⟨w, m, hw⟩
    · exact List.Nodup.of_append_left hnd
    · rwa [hw.assigned] at hnd
  cases a with
  | take w m =>
    obtain ⟨-, rfl⟩ := step_take.1 h
    exact tasked_assign hA (hI hold) hnd
  | readValue w ok => exact tasked_readValue hA hold ha (hI hold) h
  | insert w => exact tasked_insert (hI hold) h
  | fireAllRules w order => exact tasked_fireAllRules hA hold hN.linked hE.1 hE.2 hfires (hI hold) h
  | evaluateThrows w done rest => exact hsafe.elim
  | writeValueAsString w ok => exact tasked_writeValueAsString hA hold ha hN (hI hold) h
  | sendMessage w ok => exact tasked_sendMessage hA hold (hI hold) h
  | deleteMessage w ok => exact tasked_deleteMessage hA hold (hI hold) h

/-! ## A run -/

theorem tasked_run {actions : List (PoolAction n)} (hsafe : ∀ a ∈ actions, EngineSafe a)
    (hfires : Lts.Along (step cfg) FiresAlone (new n) actions) (h : Lts.run (step cfg) (new n) actions = some s)
    (hnd : s.assigned.Nodup) : s.Tasked cfg (· ∈ actions) := by
  have hmade : Lts.Along (step cfg) (fun s a => a ∈ actions ∧ FiresAlone s a) (new n) actions :=
    Lts.along_and (Lts.along_of_forall fun a ha _ => ha) hfires
  have hinv : (s.Accounted cfg ∧ s.Noticed cfg ∧ s.engine.Wf ∧ s.engine.Pending) ∧
      (s.assigned.Nodup → s.Tasked cfg (· ∈ actions)) := by
    refine Lts.run_inv_along (I := fun t : Pool n => (t.Accounted cfg ∧ t.Noticed cfg ∧ t.engine.Wf ∧ t.engine.Pending) ∧
      (t.assigned.Nodup → t.Tasked cfg (· ∈ actions))) ?_ ?_ hmade h
    · rintro t a t' ⟨⟨hA, hN, hE⟩, hI⟩ ⟨ha, hf⟩ hs
      exact ⟨⟨accounted_step hA hs, noticed_step hN hs, engine_step (hsafe a ha) hf hE hs⟩,
        tasked_step (hsafe a ha) ha hf hA hN hE hI hs⟩
    · exact ⟨⟨accounted_new, noticed_new, Engine.wf_new, nofun⟩, fun _ => tasked_new⟩
  exact hinv.2 hnd

/-- What a worker has called so far for its delivery is the beginning of the calls of a task. -/
theorem Underway.task {e : Engine n} {done : List Event} {p : Point} (h : Underway cfg made e w done p)
    (hm : p.message? = some m) : ∃ k : Task, k.message = m ∧ (k.Valid cfg ∧ MapperFits made k.reads k.writes) ∧
      done <+: k.events cfg := by
  cases p with
  | unborn => cases hm
  | idle => cases hm
  | reading _ =>
    cases hm
    obtain rfl : done = [] := h
    obtain ⟨rule, hfits⟩ := exists_ruleFits cfg m
    exact ⟨⟨m, true, rule, true, true, true, true⟩, rfl, ⟨hfits, nofun, nofun⟩, List.nil_prefix⟩
  | evaluating _ =>
    cases hm
    obtain ⟨rfl, x, hx, -⟩ := h
    obtain ⟨rule, hfits⟩ := exists_ruleFits cfg m
    have hevents := resumes_decoded (k := ⟨m, true, rule, true, true, true, true⟩) (x := x) hx
    exact ⟨⟨m, true, rule, true, true, true, true⟩, rfl, ⟨hfits, nofun, nofun⟩, _, hevents.symm⟩
  | writing _ r =>
    cases hm
    obtain ⟨rfl, hown⟩ := h
    obtain ⟨rule, hfits⟩ := exists_ruleFits cfg m
    obtain ⟨t, ht, hf⟩ := ownMatch_exists hown
    have hevents : (Task.mk m true rule true true true true).Resumes cfg [.readValue true, .evaluate true]
        (fromWrite · cfg.urls m (t.setFraudReason rule.reason)) :=
      (resumes_decoded (k := ⟨m, true, rule, true, true, true, true⟩) ht).next (fromEvaluate_flagged hf)
    exact ⟨⟨m, true, rule, true, true, true, true⟩, rfl, ⟨hfits, nofun, nofun⟩, _, hevents.symm⟩
  | sending _ body =>
    cases hm
    obtain ⟨reads, rule, writes, hfits, hmap, hevents⟩ := h
    exact ⟨⟨m, reads, rule, writes, true, true, true⟩, rfl, ⟨hfits, hmap⟩, _, (hevents true true true).symm⟩
  | deleting _ =>
    cases hm
    obtain ⟨reads, rule, writes, sends, hfits, hmap, hevents⟩ := h
    exact ⟨⟨m, reads, rule, writes, sends, true, true⟩, rfl, ⟨hfits, hmap⟩, _, (hevents true true).symm⟩
  | recovering _ =>
    cases hm
    obtain ⟨reads, rule, writes, sends, deletes, hfits, hmap, hevents⟩ := h
    exact ⟨⟨m, reads, rule, writes, sends, deletes, true⟩, rfl, ⟨hfits, hmap⟩, _, (hevents true).symm⟩

/-- Not between `insert` and `fireAllRules` with a transaction that satisfies a rule. -/
def quiet : Phase → Heap → Bool
  | .inserted (some r), heap => !flagged (heap.obj r)
  | _, _ => true

/-- The SQS calls made so far for a delivery. -/
def sqsCallsOf (s : Pool n) (m : Message) : List Event :=
  (s.callsOf m).filter fun event => event.isSend || event.isDelete

end Pool

namespace FraudDetectionService

variable {n : Nat} {cfg : Config} {running : Bool} {actions : List (Action n)} {s : FraudDetectionService n}

/-- Deliveries received once each are assigned once each. -/
theorem assigned_nodup (h : Lts.run (step cfg) (new n running) actions = some s) (hnd : s.received.Nodup) :
    s.pool.assigned.Nodup := by
  have hA := accounted_run h
  have hacc : s.accepted.Nodup := (hA.received.nodup_iff.1 hnd).of_append_right
  exact (hA.accepted.nodup_iff.1 hacc).of_append_left.of_append_right

theorem firesAlone_poolTrace (hfires : Lts.Along (step cfg) FiresAlone (new n running) actions)
    (h : Lts.run (step cfg) (new n running) actions = some s) :
    Lts.Along (Pool.step cfg) Pool.FiresAlone (.new n) (poolTrace cfg running actions) :=
  (poolSimulation cfg).along_trace (fun _ _ _ _ hC _ => firesAlone_poolLabels hC) Lts.along_true hfires h

theorem tasked_run (hengine : ∀ a ∈ actions, EngineReturns a)
    (hfires : Lts.Along (step cfg) FiresAlone (new n running) actions)
    (h : Lts.run (step cfg) (new n running) actions = some s) (hnd : s.received.Nodup) :
    s.pool.Tasked cfg (· ∈ poolTrace cfg running actions) :=
  Pool.tasked_run (engineSafe_poolTrace hengine) (firesAlone_poolTrace hfires h) (pool_run h) (assigned_nodup h hnd)

/-- For every pool size, over every run in which the rule engine does not throw and every `fireAllRules` is taken while no
other worker is between its `insert` and its `fireAllRules` with a transaction that satisfies a rule: the SQS calls for each
processed delivery are those of the stateless reference, and those for a delivery under way are the beginning of them. -/
theorem concurrent_refines (n : Nat) (cfg : Config) (running : Bool) (actions : List (Action n))
    (s : FraudDetectionService n) (hengine : ∀ a ∈ actions, EngineReturns a)
    (hfires : Lts.Along (step cfg) FiresAlone (new n running) actions)
    (h : Lts.run (step cfg) (new n running) actions = some s) (hnd : s.received.Nodup) :
    (∀ m ∈ s.pool.finished, ∃ k : Task, k.message = m ∧ k.Valid cfg ∧
        MapperFits (fun b => .work b ∈ actions) k.reads k.writes ∧ s.pool.sqsCallsOf m = k.sqsCalls cfg) ∧
      ∀ m ∈ s.pool.processing, ∃ k : Task, k.message = m ∧ k.Valid cfg ∧
        MapperFits (fun b => .work b ∈ actions) k.reads k.writes ∧ s.pool.sqsCallsOf m <+: k.sqsCalls cfg := by
  have hI := tasked_run hengine hfires h hnd
  constructor
  · intro m hm
    obtain ⟨k, hk, ⟨hvalid, hmap⟩, hcalls⟩ := hI.finished m hm
    refine ⟨k, hk, hvalid, mapperFits_actions hmap, ?_⟩
    unfold Pool.sqsCallsOf
    rw [hcalls, sqsCalls_eq]
  · intro m hm
    obtain ⟨w, hw⟩ := Slots.mem_contents.1 hm
    obtain ⟨k, hk, ⟨hvalid, hmap⟩, hpre⟩ := (hI.working w m hw).task hw
    refine ⟨k, hk, hvalid, mapperFits_actions hmap, ?_⟩
    rw [← sqsCalls_eq]
    exact hpre.filter _

instance (s : FraudDetectionService n) (a : Action n) : Decidable (FiresAlone s a) :=
  match a with
  | .work (.fireAllRules w _) =>
    decidable_of_iff (∀ v, v ≠ w → Pool.quiet (s.pool.engine.phase v) s.pool.engine.heap = true) (by
      refine forall_congr' fun v => imp_congr_right fun _ => ?_
      cases s.pool.engine.phase v with
      | inserted o => cases o <;> simp [Pool.quiet]
      | _ => simp [Pool.quiet])
  | .work (.take ..) | .work (.readValue ..) | .work (.insert _) | .work (.evaluateThrows ..)
  | .work (.writeValueAsString ..) | .work (.sendMessage ..) | .work (.deleteMessage ..)
  | .startProcessingThread _ | .setRunning _ | .stopRuning | .shutdown | .awaitTermination _ | .shutdownNow
  | .testRunning _ | .receiveMessage _ | .receiveReturns .. | .receiveThrows _ | .submit _ | .sleep ..
  | .takeTask _ => .isTrue trivial

/-- Two workers, each inside `evaluate` while the other is about to read or to delete. -/
def overlappingRun (w v : Fin 2) : List (Action 2) :=
  [.startProcessingThread true, .testRunning 0, .receiveMessage 0,
    .receiveReturns 0 [⟨highText, "receipt 1"⟩, ⟨normalText, "receipt 2"⟩], .submit 0, .submit 0,
    .work (.readValue w true), .work (.insert w), .work (.readValue v true),
    .work (.fireAllRules w [⟨0, .highTransactionAmount⟩]), .work (.insert v), .work (.writeValueAsString w true),
    .work (.fireAllRules v []), .work (.sendMessage w true), .work (.deleteMessage v true), .work (.deleteMessage w true)]

theorem engineReturns_overlapping (w v : Fin 2) : ∀ a ∈ overlappingRun w v, EngineReturns a := by
  simp [overlappingRun, EngineReturns, Pool.EngineSafe]

theorem concurrent_refines_overlapping : ∃ s, Lts.run (step sampleConfig) (new 2 true) (overlappingRun 0 1) = some s ∧
    ∃ k : Task, k.message = ⟨highText, "receipt 1"⟩ ∧
      s.pool.sqsCallsOf ⟨highText, "receipt 1"⟩ = k.sqsCalls sampleConfig := by
  have hrun : (Lts.run (step sampleConfig) (new 2 true) (overlappingRun 0 1)).map
      (fun s => (s.received, s.pool.finished)) =
      some ([⟨highText, "receipt 1"⟩, ⟨normalText, "receipt 2"⟩],
        [⟨normalText, "receipt 2"⟩, ⟨highText, "receipt 1"⟩]) := by
    decide
  obtain ⟨s, hs, hstate⟩ := Option.map_eq_some_iff.1 hrun
  simp only [Prod.mk.injEq] at hstate
  obtain ⟨hreceived, hfinished⟩ := hstate
  obtain ⟨k, hk, -, -, hcalls⟩ := (concurrent_refines 2 sampleConfig true (overlappingRun 0 1) s
    (engineReturns_overlapping 0 1) (by decide) hs (by rw [hreceived]; decide)).1 ⟨highText, "receipt 1"⟩
    (by rw [hfinished]; decide)
  exact ⟨s, hs, k, hk, hcalls⟩

end FraudDetectionService

end FraudDetect.Service
