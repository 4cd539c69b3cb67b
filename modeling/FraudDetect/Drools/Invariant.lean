/-
The invariants of the concurrent calls. `Objects`, which a call that throws keeps as well: every object
in play is allocated, the object of a call that has not inserted yet is not in working memory and is no
other call's, and a pending activation is a match of a fact. `Wf`: a pending activation belongs to a
call between its two steps, and the consequences run together with the pending activations are exactly
the activations of the facts.
-/
import FraudDetect.Drools.Evaluate
import Mathlib.Data.List.Perm.Basic

namespace FraudDetect.Drools

namespace Engine

variable {n : Nat}

/-! ## The objects in play -/

structure Objects (e : Engine n) : Prop where
  calledLt : ∀ w r, e.phase w = .called (some r) → r < e.heap.next
  calledNew : ∀ w r, e.phase w = .called (some r) → r ∉ e.session.facts
  calledInj : ∀ w w' r, e.phase w = .called (some r) → e.phase w' = .called (some r) → w = w'
  insertedFact : ∀ w r, e.phase w = .inserted (some r) → r ∈ e.session.facts
  factsLt : ∀ r ∈ e.session.facts, r < e.heap.next
  factsNodup : e.session.facts.Nodup
  agendaFact : ∀ a ∈ e.session.agenda, a.ref ∈ e.session.facts ∧ a.rule.when (e.heap.obj a.ref) = true

theorem objects_new : Objects (new n) where
  calledLt _ _ h := by cases h
  calledNew _ _ h := by cases h
  calledInj _ _ _ h := by cases h
  insertedFact _ _ h := by cases h
  factsLt _ h := by cases h
  factsNodup := List.nodup_nil
  agendaFact _ h := by cases h

theorem objects_call {e : Engine n} (h : Objects e) (w : Fin n) (t : Option Transaction) : Objects (e.call w t) := by
  have hins : ∀ w' r, (e.call w t).phase w' = .inserted (some r) → r ∈ e.session.facts := by
    intro w' r h'
    by_cases hww : w' = w
    · subst hww; rw [call_phase_self] at h'; cases h'
    · rw [call_phase_of_ne e t hww] at h'; exact h.insertedFact w' r h'
  cases t with
  | none =>
    have hcalled : ∀ w' r, (e.call w none).phase w' = .called (some r) → e.phase w' = .called (some r) := by
      intro w' r h'
      by_cases hww : w' = w
      · subst hww; rw [call_phase_self] at h'; cases h'
      · rwa [call_phase_of_ne e none hww] at h'
    exact ⟨fun w' r h' => h.calledLt w' r (hcalled w' r h'), fun w' r h' => h.calledNew w' r (hcalled w' r h'),
      fun w' w'' r h' h'' => h.calledInj w' w'' r (hcalled w' r h') (hcalled w'' r h''), hins, h.factsLt,
      h.factsNodup, h.agendaFact⟩
  | some t =>
    -- the new object is at `next`, above every object in play
    have hcalled : ∀ w' r, (e.call w (some t)).phase w' = .called (some r) →
        (w' = w ∧ r = e.heap.next) ∨ (w' ≠ w ∧ e.phase w' = .called (some r)) := by
      intro w' r h'
      by_cases hww : w' = w
      · subst hww; rw [call_phase_self] at h'; cases h'; exact .inl ⟨rfl, rfl⟩
      · rw [call_phase_of_ne e _ hww] at h'; exact .inr ⟨hww, h'⟩
    refine ⟨fun w' r h' => ?_, fun w' r h' => ?_, fun w' w'' r h' h'' => ?_, hins, fun r hr => ?_, h.factsNodup,
      fun a ha => ?_⟩
    · show r < e.heap.next + 1
      rcases hcalled w' r h' with ⟨-, rfl⟩ | ⟨-, h'⟩
      · exact Nat.lt_succ_self _
      · exact Nat.lt_succ_of_lt (h.calledLt w' r h')
    · rcases hcalled w' r h' with ⟨-, rfl⟩ | ⟨-, h'⟩
      · intro hr; exact absurd (h.factsLt _ hr) (Nat.lt_irrefl _)
      · exact h.calledNew w' r h'
    · rcases hcalled w' r h' with ⟨hw', hr'⟩ | ⟨-, k'⟩ <;> rcases hcalled w'' r h'' with ⟨hw'', hr''⟩ | ⟨-, k''⟩
      · rw [hw', hw'']
      · rw [hr'] at k''; exact absurd (h.calledLt _ _ k'') (Nat.lt_irrefl _)
      · rw [hr''] at k'; exact absurd (h.calledLt _ _ k') (Nat.lt_irrefl _)
      · exact h.calledInj w' w'' r k' k''
    · exact Nat.lt_succ_of_lt (h.factsLt r hr)
    · obtain ⟨hfact, hwhen⟩ := h.agendaFact a ha
      refine ⟨hfact, ?_⟩
      show a.rule.when ((e.heap.alloc t).obj a.ref) = true
      rw [Heap.alloc_obj_of_lt _ _ (h.factsLt _ hfact)]
      exact hwhen

/-- What `insert` does for a call: its object is a new fact. -/
theorem Objects.insert_eq {e : Engine n} (h : Objects e) {w : Fin n} {r : Ref} (hw : e.phase w = .called (some r)) :
    (e.insert w (some r)).session =
      { e.session with facts := e.session.facts ++ [r], agenda := e.session.agenda ++ activations e.heap r } :=
  KieSession.insert_fresh (h.calledNew w r hw)

theorem objects_insert {e : Engine n} (h : Objects e) {w : Fin n} {o : Option Ref} (hw : e.phase w = .called o) :
    Objects (e.insert w o) := by
  -- only `w` leaves its `called` phase, and only `w` becomes `inserted`
  have hcalled : ∀ w' r, (e.insert w o).phase w' = .called (some r) → w' ≠ w ∧ e.phase w' = .called (some r) := by
    intro w' r h'
    by_cases hww : w' = w
    · subst hww; rw [insert_phase_self] at h'; cases h'
    · rw [insert_phase_of_ne e o hww] at h'; exact ⟨hww, h'⟩
  have hinserted : ∀ w' r, (e.insert w o).phase w' = .inserted (some r) →
      (w' = w ∧ o = some r) ∨ e.phase w' = .inserted (some r) := by
    intro w' r h'
    by_cases hww : w' = w
    · subst hww; rw [insert_phase_self] at h'; cases h'; exact .inl ⟨rfl, rfl⟩
    · rw [insert_phase_of_ne e o hww] at h'; exact .inr h'
  cases o with
  | none =>
    refine ⟨fun w' r h' => h.calledLt w' r (hcalled w' r h').2, fun w' r h' => h.calledNew w' r (hcalled w' r h').2,
      fun w' w'' r h' h'' => h.calledInj w' w'' r (hcalled w' r h').2 (hcalled w'' r h'').2, fun w' r h' => ?_,
      h.factsLt, h.factsNodup, h.agendaFact⟩
    rcases hinserted w' r h' with ⟨-, hr⟩ | h'
    · cases hr
    · exact h.insertedFact w' r h'
  | some r₀ =>
    have hs := h.insert_eq hw
    have hheap : (e.insert w (some r₀)).heap = e.heap := KieSession.insert_heap ..
    constructor
    case calledLt =>
      intro w' r h'
      rw [hheap]
      exact h.calledLt w' r (hcalled w' r h').2
    case calledNew =>
      intro w' r h' hr
      obtain ⟨hww, h'⟩ := hcalled w' r h'
      rw [hs] at hr
      rcases List.mem_append.1 hr with hr | hr
      · exact h.calledNew w' r h' hr
      · -- another call has another object
        rw [List.mem_singleton.1 hr] at h'
        exact hww (h.calledInj w' w r₀ h' hw)
    case calledInj =>
      intro w' w'' r h' h''
      exact h.calledInj w' w'' r (hcalled w' r h').2 (hcalled w'' r h'').2
    case insertedFact =>
      intro w' r h'
      rw [hs]
      rcases hinserted w' r h' with ⟨-, hr⟩ | h'
      · cases hr; exact List.mem_append_right _ (List.mem_singleton_self _)
      · exact List.mem_append_left _ (h.insertedFact w' r h')
    case factsLt =>
      intro r hr
      rw [hheap]
      rw [hs] at hr
      rcases List.mem_append.1 hr with hr | hr
      · exact h.factsLt r hr
      · rw [List.mem_singleton.1 hr]; exact h.calledLt w r₀ hw
    case factsNodup =>
      rw [hs]
      refine List.nodup_append.2 ⟨h.factsNodup, List.nodup_singleton _, fun a ha b hb hab => ?_⟩
      rw [hab, List.mem_singleton.1 hb] at ha
      exact h.calledNew w r₀ hw ha
    case agendaFact =>
      intro a ha
      rw [hheap]
      rw [hs] at ha ⊢
      rcases List.mem_append.1 ha with ha | ha
      · obtain ⟨hfact, hwhen⟩ := h.agendaFact a ha
        exact ⟨List.mem_append_left _ hfact, hwhen⟩
      · obtain ⟨rfl, hwhen⟩ := mem_activations.1 ha
        exact ⟨List.mem_append_right _ (List.mem_singleton_self _), hwhen⟩

/-- A call that ends after the consequences `done`, by a return or by an exception. -/
theorem objects_fireThen {e e' : Engine n} (h : Objects e) {w : Fin n} {done rest : List Activation}
    (hp : (done ++ rest).Perm e.session.agenda) (hs : e'.session = e.session.fireThen done rest)
    (hphase : e'.phase = Function.update e.phase w .idle) : Objects e' := by
  have hold : ∀ w' p, p ≠ .idle → e'.phase w' = p → e.phase w' = p := by
    intro w' p hpi h'
    rw [hphase] at h'
    by_cases hww : w' = w
    · subst hww; rw [Function.update_self] at h'; exact absurd h'.symm hpi
    · rwa [Function.update_of_ne hww] at h'
  have hcalled := fun w' r => hold w' (.called (some r)) Phase.noConfusion
  have hf := KieSession.fireThen_spec e.session done rest
  rw [← hs] at hf
  constructor
  case calledLt =>
    intro w' r h'
    rw [heap, hf.next]; exact h.calledLt w' r (hcalled w' r h')
  case calledNew =>
    intro w' r h'
    rw [hf.facts]; exact h.calledNew w' r (hcalled w' r h')
  case calledInj =>
    intro w' w'' r h' h''
    exact h.calledInj w' w'' r (hcalled w' r h') (hcalled w'' r h'')
  case insertedFact =>
    intro w' r h'
    rw [hf.facts]; exact h.insertedFact w' r (hold w' _ Phase.noConfusion h')
  case factsLt =>
    intro r hr
    rw [hf.facts] at hr
    rw [heap, hf.next]; exact h.factsLt r hr
  case factsNodup => rw [hf.facts]; exact h.factsNodup
  case agendaFact =>
    intro a ha
    rw [hs, KieSession.fireThen_agenda] at ha
    obtain ⟨hfact, hwhen⟩ := h.agendaFact a (hp.mem_iff.1 (List.mem_append_right _ ha))
    rw [hf.facts]
    exact ⟨hfact, (when_congr (hf.same a.ref) a.rule).trans hwhen⟩

/-! ## The account of the activations -/

structure Wf (e : Engine n) : Prop extends Objects e where
  owner : ∀ a ∈ e.session.agenda, ∃ w, e.phase w = .inserted (some a.ref)
  ledger : (e.session.fired ++ e.session.agenda).Perm (e.session.facts.flatMap (activations e.heap))
  counts : (e.returned.map Return.firedRules).sum = e.session.fired.length
  shown : e.session.shown = e.session.fired.map fun a => a.rule.text (e.heap.obj a.ref)
  returnedFact : ∀ x ∈ e.returned, ∀ r, x.transaction = some r → r ∈ e.session.facts

theorem wf_new : Wf (new n) where
  toObjects := objects_new
  owner _ h := by cases h
  ledger := List.Perm.refl _
  counts := rfl
  shown := rfl
  returnedFact _ h := by cases h

/-- A consequence run or pending is about a fact that satisfies its rule. -/
theorem Wf.activation {e : Engine n} (h : Wf e) {a : Activation}
    (ha : a ∈ e.session.fired ∨ a ∈ e.session.agenda) :
    a.ref ∈ e.session.facts ∧ a.rule.when (e.heap.obj a.ref) = true := by
  have hm : a ∈ e.session.facts.flatMap (activations e.heap) :=
    h.ledger.mem_iff.1 (List.mem_append.2 ha)
  obtain ⟨r, hr, har⟩ := List.mem_flatMap.1 hm
  obtain ⟨rfl, hw⟩ := mem_activations.1 har
  exact ⟨hr, hw⟩

/-- Growing the heap changes no activation of the facts and no text shown. -/
theorem Wf.ledger_grows {e : Engine n} (h : Wf e) {h' : Heap} (hg : e.heap.Grows h') :
    e.session.facts.flatMap (activations h') = e.session.facts.flatMap (activations e.heap) ∧
      (e.session.fired.map fun a => a.rule.text (h'.obj a.ref)) =
        e.session.fired.map fun a => a.rule.text (e.heap.obj a.ref) := by
  constructor
  · apply List.flatMap_congr
    intro r hr
    exact activations_congr (hg.same r (h.factsLt r hr))
  · apply List.map_congr_left
    intro a ha
    exact text_congr (hg.same a.ref (h.factsLt _ (h.activation (.inl ha)).1)) a.rule

theorem wf_call {e : Engine n} (h : Wf e) {w : Fin n} (hw : e.phase w = .idle) (t : Option Transaction) :
    Wf (e.call w t) := by
  have howner : ∀ a ∈ e.session.agenda, ∃ w', (e.call w t).phase w' = .inserted (some a.ref) := by
    intro a ha
    obtain ⟨w', h'⟩ := h.owner a ha
    refine ⟨w', ?_⟩
    rw [call_phase_of_ne]
    · exact h'
    · rintro rfl; rw [hw] at h'; cases h'
  have hobj := objects_call h.toObjects w t
  cases t with
  | none => exact ⟨hobj, howner, h.ledger, h.counts, h.shown, h.returnedFact⟩
  | some t =>
    obtain ⟨hact, htext⟩ := h.ledger_grows (Heap.alloc_grows e.heap t)
    refine ⟨hobj, howner, ?_, h.counts, ?_, h.returnedFact⟩
    · show (e.session.fired ++ e.session.agenda).Perm (e.session.facts.flatMap (activations (e.heap.alloc t)))
      rw [hact]; exact h.ledger
    · show e.session.shown = e.session.fired.map fun a => a.rule.text ((e.heap.alloc t).obj a.ref)
      rw [htext]; exact h.shown

theorem wf_insert {e : Engine n} (h : Wf e) {w : Fin n} {o : Option Ref} (hw : e.phase w = .called o) :
    Wf (e.insert w o) := by
  have howner : ∀ a ∈ e.session.agenda, ∃ w', (e.insert w o).phase w' = .inserted (some a.ref) := by
    intro a ha
    obtain ⟨w', h'⟩ := h.owner a ha
    refine ⟨w', ?_⟩
    rw [insert_phase_of_ne]
    · exact h'
    · rintro rfl; rw [hw] at h'; cases h'
  have hobj := objects_insert h.toObjects hw
  cases o with
  | none => exact ⟨hobj, howner, h.ledger, h.counts, h.shown, h.returnedFact⟩
  | some r =>
    have hs := h.insert_eq hw
    refine ⟨hobj, ?_, ?_, ?_, ?_, ?_⟩
    case refine_1 =>
      intro a ha
      rw [hs] at ha
      rcases List.mem_append.1 ha with ha | ha
      · exact howner a ha
      · refine ⟨w, ?_⟩
        rw [insert_phase_self, (mem_activations.1 ha).1]
    case refine_2 =>
      show ((e.insert w (some r)).session.fired ++ (e.insert w (some r)).session.agenda).Perm
        ((e.insert w (some r)).session.facts.flatMap (activations (e.insert w (some r)).session.heap))
      rw [hs]
      simp only [List.flatMap_append, List.flatMap_singleton, ← List.append_assoc]
      exact h.ledger.append_right _
    case refine_3 => rw [hs]; exact h.counts
    case refine_4 =>
      show (e.insert w (some r)).session.shown =
        (e.insert w (some r)).session.fired.map fun a => a.rule.text ((e.insert w (some r)).session.heap.obj a.ref)
      rw [hs]
      exact h.shown
    case refine_5 =>
      intro x hx r' hr
      rw [hs]
      exact List.mem_append_left _ (h.returnedFact x hx r' hr)

theorem wf_fireAllRules {e : Engine n} (h : Wf e) {w : Fin n} {o : Option Ref} {order : List Activation}
    (hw : e.phase w = .inserted o) (hp : order.Perm e.session.agenda) : Wf (e.fireAllRules w o order) := by
  have hf := KieSession.fireThen_spec e.session order []
  have hfacts : (e.fireAllRules w o order).session.facts = e.session.facts := hf.facts
  obtain ⟨hact, -⟩ := h.ledger_grows hf.grows
  refine ⟨objects_fireThen h.toObjects (by rw [List.append_nil]; exact hp) rfl rfl, ?_, ?_, ?_, ?_, ?_⟩
  case refine_1 => intro a ha; cases ha
  case refine_2 =>
    show ((e.session.fireThen order []).fired ++ []).Perm
      ((e.session.fireThen order []).facts.flatMap (activations (e.session.fireThen order []).heap))
    rw [hf.fired, hf.facts, hact, List.append_nil]
    exact (hp.append_left _).trans h.ledger
  case refine_3 =>
    show ((e.returned ++ [Return.mk o order.length]).map Return.firedRules).sum =
      (e.session.fireThen order []).fired.length
    rw [hf.fired, List.map_append, List.sum_append, h.counts, List.length_append]
    simp
  case refine_4 =>
    -- every text shown so far is the text of its activation in any later heap
    show (e.session.fireThen order []).shown =
      (e.session.fireThen order []).fired.map fun a => a.rule.text ((e.session.fireThen order []).heap.obj a.ref)
    have htext : ∀ a : Activation, a.rule.text ((e.session.fireThen order []).heap.obj a.ref) =
        a.rule.text (e.heap.obj a.ref) := fun a => text_congr (hf.same a.ref) a.rule
    simp only [htext, hf.shown, hf.fired, h.shown, List.map_append]
  case refine_5 =>
    intro x hx r hr
    rw [hfacts]
    rcases List.mem_append.1 hx with hx | hx
    · exact h.returnedFact x hx r hr
    · rw [List.mem_singleton.1 hx] at hr
      cases hr
      exact h.insertedFact w r hw

/-- Every step of every worker keeps the invariant. -/
theorem wf_step {e e' : Engine n} (a : EngineAction n) (h : Wf e) (hs : e.step a = some e') : Wf e' := by
  cases a with
  | call w t =>
    obtain ⟨hw, rfl⟩ := step_call.1 hs
    exact wf_call h hw t
  | insert w =>
    obtain ⟨o, hw, rfl⟩ := step_insert.1 hs
    exact wf_insert h hw
  | fireAllRules w order =>
    obtain ⟨o, hw, hp, rfl⟩ := step_fireAllRules.1 hs
    exact wf_fireAllRules h hw hp

/-- The invariant holds in every reachable state. -/
theorem wf_run {e : Engine n} {ls : List (EngineAction n)} (h : Lts.run step (new n) ls = some e) : Wf e :=
  Lts.run_inv (fun _ a _ hI hs => wf_step a hI hs) wf_new h

end Engine

end FraudDetect.Drools
