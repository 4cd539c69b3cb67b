/-
Concurrent calls of `evaluate` on any `Transaction` object, new or passed to it before, changed by its setters
or not. Neither `evaluate` nor a consequence takes a fact out of working memory, so the facts are those before
the run exactly when no call is on an object that is not in working memory yet. Where every call is on a new
object, working memory holds one fact for every transaction ever evaluated.
-/
import FraudDetect.Drools.Verdict
import FraudDetect.Lib.Slots

namespace FraudDetect.Drools

/-! ## Callers and their objects -/

/-- A reference to an object there is, or `null`. -/
def Heap.holds (h : Heap) (o : Option Ref) : Bool := o.all (· < h.next)

/-- The object of a call between its two steps. -/
def Phase.fact : Phase → Option Ref
  | .idle | .called _ => none
  | .inserted o => o

/-- The steps of the callers of the rule engine and of the owners of the objects. -/
inductive CallerAction (n : Nat)
  /-- A new `Transaction`. -/
  | construct (transaction : Transaction)
  /-- The setters of an object give it these fields. -/
  | set (r : Ref) (fields : Transaction)
  | call (w : Fin n) (transaction : Option Ref)
  | insert (w : Fin n)
  | fireAllRules (w : Fin n) (order : List Activation)

namespace Engine

variable {n : Nat}

def construct (e : Engine n) (t : Transaction) : Engine n :=
  { e with session := { e.session with heap := e.heap.alloc t } }

def set (e : Engine n) (r : Ref) (t : Transaction) : Engine n :=
  { e with session := { e.session with heap := e.heap.write r t } }

/-- Worker `w` calls `evaluate` on an object there is, or on `null`. -/
def callOn (e : Engine n) (w : Fin n) (o : Option Ref) : Engine n :=
  { e with phase := Function.update e.phase w (.called o) }

/-- The two steps of a call are those of `Engine.step`; its argument is any object. -/
def callerStep (e : Engine n) : CallerAction n → Option (Engine n)
  | .construct t => some (e.construct t)
  | .set r t => if r < e.heap.next then some (e.set r t) else none
  | .call w o => if e.phase w = .idle ∧ e.heap.holds o then some (e.callOn w o) else none
  | .insert w => e.step (.insert w)
  | .fireAllRules w order => e.step (.fireAllRules w order)

@[simp] theorem callOn_phase_self (e : Engine n) (w : Fin n) (o : Option Ref) : (e.callOn w o).phase w = .called o :=
  Function.update_self ..

theorem callOn_phase_of_ne (e : Engine n) {w w' : Fin n} (o : Option Ref) (h : w' ≠ w) :
    (e.callOn w o).phase w' = e.phase w' := Function.update_of_ne h ..

theorem callerStep_set {e e' : Engine n} {r : Ref} {t : Transaction} :
    e.callerStep (.set r t) = some e' ↔ r < e.heap.next ∧ e' = e.set r t := by
  simp only [callerStep]
  split
  · rename_i h; simp [h, eq_comm]
  · rename_i h; simp [h]

theorem callerStep_call {e e' : Engine n} {w : Fin n} {o : Option Ref} :
    e.callerStep (.call w o) = some e' ↔ (e.phase w = .idle ∧ e.heap.holds o) ∧ e' = e.callOn w o := by
  simp only [callerStep]
  split
  · rename_i h; simp [h, eq_comm]
  · rename_i h; simp [h]

/-- The calls on new objects are calls on any object: each constructs its object first. -/
def callers : Lts.Simulation (step (n := n)) (callerStep (n := n)) where
  abs := id
  labels
    | _, .call w none => [.call w none]
    | e, .call w (some t) => [.construct t, .call w (some e.heap.next)]
    | _, .insert w => [.insert w]
    | _, .fireAllRules w order => [.fireAllRules w order]
  admits _ _ := True
  step_run := by
    rintro e a e' - h
    cases a with
    | call w t =>
      obtain ⟨hw, rfl⟩ := step_call.1 h
      cases t with
      | none => exact Lts.run_single.2 (callerStep_call.2 ⟨⟨hw, rfl⟩, rfl⟩)
      | some t =>
        refine Lts.run_cons.2 ⟨e.construct t, rfl, Lts.run_single.2 (callerStep_call.2 ⟨⟨hw, ?_⟩, rfl⟩)⟩
        simp [Heap.holds, construct, heap, Heap.alloc]
    | insert w => exact Lts.run_single.2 h
    | fireAllRules w order => exact Lts.run_single.2 h

/-! ## Working memory -/

/-- The call is on `null` or on an object already in working memory. -/
def Known (e : Engine n) : CallerAction n → Prop
  | .call _ (some r) => r ∈ e.session.facts
  | _ => True

/-- The facts are still `base`, and no call is on the way to insert another. -/
def Kept (base : List Ref) (e : Engine n) : Prop :=
  e.session.facts = base ∧ ∀ w r, e.phase w = .called (some r) → r ∈ base

/-- Facts are added at the end and never taken out. -/
theorem facts_callerStep {e e' : Engine n} {a : CallerAction n} (h : e.callerStep a = some e') :
    e.session.facts <+: e'.session.facts := by
  cases a with
  | construct t => cases h; exact List.prefix_refl _
  | set r t => obtain ⟨-, rfl⟩ := callerStep_set.1 h; exact List.prefix_refl _
  | call w o => obtain ⟨-, rfl⟩ := callerStep_call.1 h; exact List.prefix_refl _
  | insert w =>
    obtain ⟨o, -, rfl⟩ := step_insert.1 h
    show e.session.facts <+: (e.session.insert o).facts
    cases o with
    | none => exact List.prefix_refl _
    | some r =>
      by_cases hr : r ∈ e.session.facts
      · rw [KieSession.insert, if_pos hr]
      · rw [KieSession.insert_fresh hr]
        exact List.prefix_append _ _
  | fireAllRules w order =>
    obtain ⟨o, -, -, rfl⟩ := step_fireAllRules.1 h
    show e.session.facts <+: (e.session.fireThen order []).facts
    rw [(KieSession.fireThen_spec e.session order []).facts]

section Kept

variable {base : List Ref} {e e' : Engine n} {w : Fin n} {o : Option Ref}

theorem kept_callOn (hw : e.phase w = .idle) : Kept base (e.callOn w o) ↔ Kept base e ∧ Known e (.call w o) := by
  constructor
  · rintro ⟨hf, hc⟩
    have hf' : e.session.facts = base := hf
    refine ⟨⟨hf', fun w' r h' => hc w' r ?_⟩, ?_⟩
    · have hne : w' ≠ w := by
        rintro rfl; rw [hw] at h'; cases h'
      rw [callOn_phase_of_ne e o hne]
      exact h'
    · cases o with
      | none => trivial
      | some r =>
        show r ∈ e.session.facts
        rw [hf']
        exact hc w r (callOn_phase_self ..)
  · rintro ⟨⟨hf, hc⟩, hk⟩
    refine ⟨hf, fun w' r h' => ?_⟩
    by_cases hne : w' = w
    · subst hne
      rw [callOn_phase_self] at h'
      cases h'
      rw [← hf]
      exact hk
    · rw [callOn_phase_of_ne e o hne] at h'
      exact hc w' r h'

/-- An `insert` that keeps the facts is of a fact or of `null`. -/
theorem facts_insert_eq (hbase : base <+: e.session.facts) :
    (e.session.insert o).facts = base ↔ e.session.facts = base ∧ ∀ r, o = some r → r ∈ base := by
  cases o with
  | none => simp [KieSession.insert]
  | some r =>
    by_cases hr : r ∈ e.session.facts
    · rw [KieSession.insert, if_pos hr]
      constructor
      · intro hf
        exact ⟨hf, by rintro r' ⟨⟩; rw [← hf]; exact hr⟩
      · exact And.left
    · rw [KieSession.insert_fresh hr]
      constructor
      · intro hf
        have hlen := hbase.length_le
        rw [← hf, List.length_append] at hlen
        simp at hlen
      · rintro ⟨hf, hm⟩
        rw [hf] at hr
        exact absurd (hm r rfl) hr

theorem kept_insert (hbase : base <+: e.session.facts) (hw : e.phase w = .called o) :
    Kept base (e.insert w o) ↔ Kept base e := by
  constructor
  · rintro ⟨hf, hc⟩
    obtain ⟨hf', hm⟩ := (facts_insert_eq hbase).1 hf
    refine ⟨hf', fun w' r h' => ?_⟩
    by_cases hne : w' = w
    · subst hne
      rw [hw] at h'
      cases h'
      exact hm r rfl
    · exact hc w' r (by rw [insert_phase_of_ne e o hne]; exact h')
  · rintro ⟨hf, hc⟩
    refine ⟨(facts_insert_eq hbase).2 ⟨hf, ?_⟩, fun w' r h' => ?_⟩
    · rintro r rfl
      exact hc w r hw
    · have hne : w' ≠ w := by
        rintro rfl; rw [insert_phase_self] at h'; cases h'
      rw [insert_phase_of_ne e o hne] at h'
      exact hc w' r h'

theorem kept_fireAllRules {order : List Activation} (hw : e.phase w = .inserted o) :
    Kept base (e.fireAllRules w o order) ↔ Kept base e := by
  have hfacts : (e.fireAllRules w o order).session.facts = e.session.facts :=
    (KieSession.fireThen_spec e.session order []).facts
  have hphase : ∀ w' r, (e.fireAllRules w o order).phase w' = .called (some r) ↔ e.phase w' = .called (some r) := by
    intro w' r
    by_cases hne : w' = w
    · subst hne
      rw [fireAllRules_phase_self, hw]
      simp
    · rw [fireAllRules_phase_of_ne e o order hne]
  unfold Kept
  simp only [hfacts, hphase]

/-- A step keeps working memory as it is, and free of calls on new objects, exactly when it is no such call. -/
theorem kept_callerStep {a : CallerAction n} (hbase : base <+: e.session.facts) (h : e.callerStep a = some e') :
    Kept base e' ↔ Kept base e ∧ Known e a := by
  cases a with
  | construct t => cases h; exact (and_iff_left trivial).symm
  | set r t => obtain ⟨-, rfl⟩ := callerStep_set.1 h; exact (and_iff_left trivial).symm
  | call w o => obtain ⟨⟨hw, -⟩, rfl⟩ := callerStep_call.1 h; exact kept_callOn hw
  | insert w =>
    obtain ⟨o, hw, rfl⟩ := step_insert.1 h
    exact (kept_insert hbase hw).trans (and_iff_left trivial).symm
  | fireAllRules w order =>
    obtain ⟨o, hw, -, rfl⟩ := step_fireAllRules.1 h
    exact (kept_fireAllRules hw).trans (and_iff_left trivial).symm

end Kept

/-- Working memory is what it was, and free of calls on new objects, exactly after runs without such a call. -/
theorem kept_run {e e' : Engine n} {base : List Ref} {ls : List (CallerAction n)} (hbase : base <+: e.session.facts)
    (h : Lts.run callerStep e ls = some e') : Kept base e' ↔ Kept base e ∧ Lts.Along callerStep Known e ls := by
  have hpre : ∀ (x : Engine n) a x', base <+: x.session.facts → callerStep x a = some x' → base <+: x'.session.facts :=
    fun x a x' hx hs => hx.trans (facts_callerStep hs)
  exact Lts.inv_iff_along hpre (fun x a x' hx hs => kept_callerStep hx hs) hbase h

/-- From any state with no call in progress, over every run of calls on any objects: if every call is on `null` or on an
object already in working memory, working memory holds the same facts as before the run in every state; and a run that
ends with no call in progress and those facts has made no other call. -/
theorem working_memory_kept_iff (n : Nat) (e e' : Engine n) (ls : List (CallerAction n)) (hidle : ∀ w, e.phase w = .idle)
    (h : Lts.run callerStep e ls = some e') :
    (Lts.Along callerStep Known e ls → Lts.Always callerStep (fun x => x.session.facts = e.session.facts) e ls) ∧
      ((∀ w, e'.phase w = .idle) →
        (Lts.Always callerStep (fun x => (∀ w, x.phase w = .idle) → x.session.facts = e.session.facts) e ls ↔
          Lts.Along callerStep Known e ls)) := by
  have hstart : Kept e.session.facts e := ⟨rfl, fun w r hw => by rw [hidle w] at hw; cases hw⟩
  have hkept : Lts.Along callerStep Known e ls →
      Lts.Always callerStep (fun x => x.session.facts = e.session.facts) e ls := by
    intro hC
    have hall := Lts.always_of_along (I := fun x => e.session.facts <+: x.session.facts ∧ Kept e.session.facts x)
      (fun x a x' hI hC hs => ⟨hI.1.trans (facts_callerStep hs), (kept_callerStep hI.1 hs).2 ⟨hI.2, hC⟩⟩)
      ⟨List.prefix_refl _, hstart⟩ hC
    exact hall.mono fun x hx => hx.2.1
  refine ⟨hkept, fun hidle' => ⟨fun hall => ?_, fun hC => ?_⟩⟩
  · have hfacts := Lts.always_iff.1 hall ls (List.prefix_refl _) e' h hidle'
    have hend : Kept e.session.facts e' := ⟨hfacts, fun w r hw => by rw [hidle' w] at hw; cases hw⟩
    exact ((kept_run (List.prefix_refl _) h).1 hend).2
  · refine Lts.Always.mono ?_ (hkept hC)
    exact fun x hx _ => hx

instance (e : Engine n) (a : CallerAction n) : Decidable (Known e a) :=
  match a with
  | .call _ (some r) => inferInstanceAs (Decidable (r ∈ e.session.facts))
  | .construct _ | .set .. | .call _ none | .insert _ | .fireAllRules .. => .isTrue trivial

/-- The engine after a call on a transaction that satisfies no rule. -/
def evaluatedOnce (n : Nat) : Engine n :=
  ⟨{ KieSession.new with heap := Heap.empty.alloc normalTransaction, facts := [0] }, fun _ => .idle, [⟨some 0, 0⟩]⟩

/-- A call on `null`, then one on the transaction evaluated before. -/
def repeatRun (w : Fin n) : List (CallerAction n) :=
  [.call w none, .insert w, .fireAllRules w [], .call w (some 0), .insert w, .fireAllRules w []]

theorem working_memory_kept_repeat :
    Lts.Always callerStep (fun x => x.session.facts = [0]) (evaluatedOnce 2) (repeatRun 0) :=
  (working_memory_kept_iff 2 (evaluatedOnce 2) _ (repeatRun 0) (fun _ => rfl) rfl).1 (by decide)

/-- A call on a new transaction. -/
def residueRun (w : Fin n) : List (CallerAction n) :=
  [.construct normalTransaction, .call w (some 0), .insert w, .fireAllRules w []]

/-- A transaction evaluated once stays in working memory. -/
theorem transaction_stays : ¬ ∀ (n : Nat) (e e' : Engine n) (ls : List (CallerAction n)), (∀ w, e.phase w = .idle) →
    Lts.run callerStep e ls = some e' → (∀ w, e'.phase w = .idle) → e'.session.facts = e.session.facts := by
  intro h
  have hf := h 1 (new 1) _ (residueRun 0) (fun _ => rfl) rfl (by decide)
  revert hf
  decide

/-! ## Calls on new objects -/

theorem facts_run {e e' : Engine n} {ls : List (CallerAction n)} (h : Lts.run callerStep e ls = some e') :
    e.session.facts <+: e'.session.facts :=
  Lts.run_inv (I := fun x => e.session.facts <+: x.session.facts) (fun _ _ _ hx hs => hx.trans (facts_callerStep hs))
    (List.prefix_refl _) h

/-- The same of calls on new objects, each of which constructs its object first. -/
theorem facts_run_new {e e' : Engine n} {ls : List (EngineAction n)} (h : Lts.run step e ls = some e') :
    e.session.facts <+: e'.session.facts :=
  facts_run (callers.run_trace Lts.along_true h)

/-- The object a call has inserted and not yet returned from. -/
def inFlight (e : Engine n) : List Ref := Slots.contents fun w => (e.phase w).fact

/-- The objects that calls have inserted, whether they have returned or not. -/
def inserted (e : Engine n) : List Ref := e.returned.filterMap Return.transaction ++ e.inFlight

/-- The facts are the objects of the calls that have inserted theirs. -/
def FactsAccounted (e : Engine n) : Prop := e.session.facts.Perm e.inserted

theorem inFlight_of_phase {e e' : Engine n} {w : Fin n} {p : Phase} (h : e'.phase = Function.update e.phase w p) :
    e'.inFlight = Slots.contents (Function.update (fun v => (e.phase v).fact) w p.fact) := by
  unfold inFlight
  rw [h]
  congr 1
  exact Function.comp_update Phase.fact e.phase w p

theorem factsAccounted_step {e e' : Engine n} {a : EngineAction n} (hwf : Wf e) (hI : FactsAccounted e)
    (h : e.step a = some e') : FactsAccounted e' := by
  unfold FactsAccounted inserted at hI ⊢
  cases a with
  | call w t =>
    obtain ⟨hw, rfl⟩ := step_call.1 h
    have hfact : (e.phase w).fact = none := by rw [hw]; rfl
    cases t with
    | none =>
      rw [inFlight_of_phase (p := .called none) rfl, Phase.fact, Slots.contents_keep hfact]
      exact hI
    | some t =>
      rw [inFlight_of_phase (p := .called (some e.heap.next)) rfl, Phase.fact, Slots.contents_keep hfact]
      exact hI
  | insert w =>
    obtain ⟨o, hw, rfl⟩ := step_insert.1 h
    have hfact : (e.phase w).fact = none := by rw [hw]; rfl
    rw [inFlight_of_phase (p := .inserted o) rfl, Phase.fact]
    cases o with
    | none =>
      rw [Slots.contents_keep hfact]
      exact hI
    | some r =>
      -- the new fact is the object now in flight
      rw [hwf.insert_eq hw]
      have hfill := Slots.contents_fill (f := fun v => (e.phase v).fact) hfact r
      have hlast : (e.session.facts ++ [r]).Perm (r :: e.session.facts) := List.perm_append_singleton ..
      exact hlast.trans ((hI.cons r).trans (List.perm_middle.symm.trans (hfill.symm.append_left _)))
  | fireAllRules w order =>
    obtain ⟨o, hw, -, rfl⟩ := step_fireAllRules.1 h
    have hfact : (e.phase w).fact = o := by rw [hw]; rfl
    have hfacts : (e.fireAllRules w o order).session.facts = e.session.facts :=
      (KieSession.fireThen_spec e.session order []).facts
    have hret : (e.fireAllRules w o order).returned = e.returned ++ [⟨o, order.length⟩] := rfl
    rw [hfacts, hret, inFlight_of_phase (p := .idle) rfl, Phase.fact, List.filterMap_append]
    cases o with
    | none =>
      have hkeep : Slots.contents (Function.update (fun v => (e.phase v).fact) w none) = e.inFlight :=
        Slots.contents_keep hfact
      rw [hkeep]
      simpa using hI
    | some r =>
      -- the object in flight is now one returned
      have hclear : e.inFlight.Perm (r :: _) := Slots.contents_clear hfact
      simpa using hI.trans (hclear.append_left _)

theorem factsAccounted_run {e : Engine n} {ls : List (EngineAction n)} (h : Lts.run step (new n) ls = some e) :
    FactsAccounted e := by
  have hinv : Wf e ∧ FactsAccounted e := by
    refine Lts.run_inv (I := fun x : Engine n => Wf x ∧ FactsAccounted x) ?_ ?_ h
    · rintro x a x' ⟨hwf, hI⟩ hs
      exact ⟨wf_step a hwf hs, factsAccounted_step hwf hI hs⟩
    · have hnone : (new n).inFlight = [] := Slots.contents_eq_nil.2 fun _ => rfl
      refine ⟨wf_new, ?_⟩
      unfold FactsAccounted inserted
      rw [hnone]
      exact .refl _
  exact hinv.2

/-- When every call was on a new object or on `null` and all have returned, working memory holds one fact for every
transaction evaluated. -/
theorem facts_grow {e : Engine n} {ls : List (EngineAction n)} (h : Lts.run step (new n) ls = some e)
    (hidle : ∀ w, e.phase w = .idle) : e.session.facts.Perm (e.returned.filterMap Return.transaction) := by
  have hnone : e.inFlight = [] := Slots.contents_eq_nil.2 fun w => by rw [hidle w]; rfl
  have hfacts := factsAccounted_run h
  unfold FactsAccounted inserted at hfacts
  rwa [hnone, List.append_nil] at hfacts

end Engine

end FraudDetect.Drools
