/-
When concurrent calls of `evaluate` are right. A call counts the activations it fires, whoever
inserted them, so a `fireAllRules` taken while another worker is between its two steps with a
transaction that satisfies a rule fires that worker's activations. Without such a step every
verdict is right; with one, some verdict of a completed run is wrong.
-/
import FraudDetect.Drools.Invariant

namespace FraudDetect.Drools

/-- The transaction satisfies a rule; `null` satisfies none. -/
def satisfies (h : Heap) (transaction : Option Ref) : Bool := transaction.any fun r => flagged (h.obj r)

namespace Engine

variable {n : Nat}

/-- Every call that has returned said true exactly on a transaction that satisfies a rule. -/
def VerdictsRight (e : Engine n) : Prop :=
  ∀ x ∈ e.returned, x.verdict = true ↔ satisfies e.heap x.transaction = true

/-- A `fireAllRules` is taken only while no other worker is between its two steps with a
transaction that satisfies a rule. -/
def Undisturbed (e : Engine n) : EngineAction n → Prop
  | .fireAllRules w _ => ∀ w', w' ≠ w → ∀ r, e.phase w' = .inserted (some r) → flagged (e.heap.obj r) = false
  | _ => True

/-- Every call between its steps on a transaction that satisfies a rule finds a pending activation
of its own. -/
def Pending (e : Engine n) : Prop :=
  ∀ w r, e.phase w = .inserted (some r) → flagged (e.heap.obj r) = true → ∃ a ∈ e.session.agenda, a.ref = r

/-- Some call between its steps has lost its activations to another worker. -/
def Debt (e : Engine n) : Prop :=
  ∃ w r, e.phase w = .inserted (some r) ∧ flagged (e.heap.obj r) = true ∧ ∀ a ∈ e.session.agenda, a.ref ≠ r

/-! ## What a step leaves alone -/

theorem Wf.flagged_step {e e' : Engine n} (h : Wf e) {a : EngineAction n} (hs : e.step a = some e') {r : Ref}
    (hr : r ∈ e.session.facts) : flagged (e'.heap.obj r) = flagged (e.heap.obj r) :=
  flagged_congr ((step_grows hs).same r (h.factsLt r hr))

theorem Wf.satisfies_step {e e' : Engine n} (h : Wf e) {a : EngineAction n} (hs : e.step a = some e') {x : Return}
    (hx : x ∈ e.returned) : satisfies e'.heap x.transaction = satisfies e.heap x.transaction := by
  cases hr : x.transaction with
  | none => rfl
  | some r => exact h.flagged_step hs (h.returnedFact x hx r hr)

/-- Only `fireAllRules` adds to the calls returned, its own. -/
theorem step_returned {e e' : Engine n} {a : EngineAction n} (hs : e.step a = some e') :
    e'.returned = e.returned ∨ ∃ w o order, a = .fireAllRules w order ∧ e.phase w = .inserted o ∧
      order.Perm e.session.agenda ∧ e'.returned = e.returned ++ [⟨o, order.length⟩] := by
  cases a with
  | call w t =>
    obtain ⟨-, rfl⟩ := step_call.1 hs
    cases t <;> exact .inl rfl
  | insert w =>
    obtain ⟨o, -, rfl⟩ := step_insert.1 hs
    exact .inl rfl
  | fireAllRules w order =>
    obtain ⟨o, hw, hp, rfl⟩ := step_fireAllRules.1 hs
    exact .inr ⟨w, o, order, rfl, hw, hp, rfl⟩

/-- Verdicts found right after a step were right before it. -/
theorem right_of_step {e e' : Engine n} (h : Wf e) {a : EngineAction n} (hs : e.step a = some e')
    (hr : VerdictsRight e') : VerdictsRight e := by
  intro x hx
  rw [← h.satisfies_step hs hx]
  apply hr x
  rcases step_returned hs with he | ⟨w, o, order, -, -, -, he⟩
  · rw [he]; exact hx
  · rw [he]; exact List.mem_append_left _ hx

/-- A step keeps the verdicts right when the call it returns from is right. -/
theorem right_step {e e' : Engine n} (h : Wf e) {a : EngineAction n} (hs : e.step a = some e')
    (hr : VerdictsRight e)
    (hcall : ∀ w o order, a = .fireAllRules w order → e.phase w = .inserted o →
      order.Perm e.session.agenda → (0 < order.length ↔ satisfies e.heap o = true)) : VerdictsRight e' := by
  have hold : ∀ x ∈ e.returned, x.verdict = true ↔ satisfies e'.heap x.transaction = true := by
    intro x hx
    rw [h.satisfies_step hs hx]
    exact hr x hx
  intro x hx
  rcases step_returned hs with he | ⟨w, o, order, rfl, hw, hp, he⟩
  · rw [he] at hx; exact hold x hx
  · rw [he] at hx
    rcases List.mem_append.1 hx with hx | hx
    · exact hold x hx
    · rw [List.mem_singleton.1 hx]
      have ho : satisfies e'.heap o = satisfies e.heap o := by
        cases o with
        | none => rfl
        | some r => exact h.flagged_step hs (h.insertedFact w r hw)
      show decide (order.length > 0) = true ↔ satisfies e'.heap o = true
      rw [ho, decide_eq_true_eq]
      exact hcall w o order rfl hw hp

/-! ## Undisturbed runs -/

/-- Undisturbed steps leave every call between its steps its own activations. -/
theorem pending_step {e e' : Engine n} (h : Wf e) (hp : Pending e) {a : EngineAction n} (hu : Undisturbed e a)
    (hs : e.step a = some e') : Pending e' := by
  intro w r hw hf
  cases a with
  | call w₀ t =>
    have hs' := hs
    obtain ⟨-, rfl⟩ := step_call.1 hs
    have hne : w ≠ w₀ := by
      rintro rfl; rw [call_phase_self] at hw; cases hw
    rw [call_phase_of_ne e t hne] at hw
    rw [h.flagged_step hs' (h.insertedFact w r hw)] at hf
    have hag : (e.call w₀ t).session.agenda = e.session.agenda := by cases t <;> rfl
    rw [hag]
    exact hp w r hw hf
  | insert w₀ =>
    obtain ⟨o, hw₀, rfl⟩ := step_insert.1 hs
    have hheap : (e.insert w₀ o).heap = e.heap := KieSession.insert_heap ..
    rw [hheap] at hf
    by_cases hne : w = w₀
    · subst hne
      rw [insert_phase_self] at hw
      cases hw
      have hnew := h.calledNew w r hw₀
      obtain ⟨a, ha⟩ := List.exists_mem_of_ne_nil (activations e.heap r) fun hnil => by
        rw [activations_eq_nil] at hnil; rw [hf] at hnil; cases hnil
      refine ⟨a, ?_, (mem_activations.1 ha).1⟩
      show a ∈ (e.session.insert (some r)).agenda
      rw [KieSession.insert_fresh hnew]
      exact List.mem_append_right _ ha
    · rw [insert_phase_of_ne e o hne] at hw
      obtain ⟨a, ha, har⟩ := hp w r hw hf
      refine ⟨a, ?_, har⟩
      show a ∈ (e.session.insert o).agenda
      cases o with
      | none => exact ha
      | some r₀ => rw [KieSession.insert_fresh (h.calledNew w₀ r₀ hw₀)]; exact List.mem_append_left _ ha
  | fireAllRules w₀ order =>
    have hs' := hs
    obtain ⟨o, -, -, rfl⟩ := step_fireAllRules.1 hs
    have hne : w ≠ w₀ := by
      rintro rfl; rw [fireAllRules_phase_self] at hw; cases hw
    rw [fireAllRules_phase_of_ne e o order hne] at hw
    rw [h.flagged_step hs' (h.insertedFact w r hw), hu w hne r hw] at hf
    cases hf

/-- An undisturbed `fireAllRules` fires something exactly for a transaction that satisfies a rule. -/
theorem undisturbed_call {e : Engine n} (h : Wf e) (hp : Pending e) {w : Fin n} {o : Option Ref}
    {order : List Activation} (hu : Undisturbed e (.fireAllRules w order)) (hw : e.phase w = .inserted o)
    (hperm : order.Perm e.session.agenda) : 0 < order.length ↔ satisfies e.heap o = true := by
  rw [hperm.length_eq]
  constructor
  · intro hlen
    obtain ⟨a, ha⟩ := List.exists_mem_of_length_pos hlen
    obtain ⟨w', hw'⟩ := h.owner a ha
    have hfl : flagged (e.heap.obj a.ref) = true := flagged_iff.2 ⟨a.rule, (h.activation (.inr ha)).2⟩
    by_cases hww : w' = w
    · rw [hww, hw] at hw'
      cases hw'
      exact hfl
    · rw [hu w' hww a.ref hw'] at hfl; cases hfl
  · intro hsat
    cases o with
    | none => cases hsat
    | some r =>
      obtain ⟨a, ha, -⟩ := hp w r hw hsat
      exact List.length_pos_of_mem ha

theorem right_of_undisturbed {e : Engine n} {ls : List (EngineAction n)}
    (h : Lts.run step (new n) ls = some e) (hu : Lts.Along step Undisturbed (new n) ls) : VerdictsRight e := by
  have hinv : Wf e ∧ Pending e ∧ VerdictsRight e := by
    refine Lts.run_inv_along (I := fun e : Engine n => Wf e ∧ Pending e ∧ VerdictsRight e) ?_ ?_ hu h
    · rintro s a s' ⟨hwf, hp, hr⟩ hC hs
      refine ⟨wf_step a hwf hs, pending_step hwf hp hC hs, right_step hwf hs hr ?_⟩
      rintro w o order rfl hw hperm
      exact undisturbed_call hwf hp hC hw hperm
    · refine ⟨wf_new, fun w r hw => ?_, fun x hx => ?_⟩
      · cases hw
      · cases hx
  exact hinv.2.2

/-! ## Disturbed runs -/

/-- A right verdict never settles a debt: the call that is owed activations would have to fire
those of another call, which is owed them from then on. -/
theorem debt_step {e e' : Engine n} (h : Wf e) (hd : Debt e) {a : EngineAction n} (hs : e.step a = some e')
    (hr : VerdictsRight e') : Debt e' := by
  obtain ⟨w, r, hw, hf, hno⟩ := hd
  have hf' : flagged (e'.heap.obj r) = true := by
    rw [h.flagged_step hs (h.insertedFact w r hw)]; exact hf
  cases a with
  | call w₀ t =>
    obtain ⟨hw₀, rfl⟩ := step_call.1 hs
    have hne : w ≠ w₀ := by
      rintro rfl; rw [hw] at hw₀; cases hw₀
    have hag : (e.call w₀ t).session.agenda = e.session.agenda := by cases t <;> rfl
    exact ⟨w, r, by rw [call_phase_of_ne e t hne]; exact hw, hf', by rw [hag]; exact hno⟩
  | insert w₀ =>
    obtain ⟨o, hw₀, rfl⟩ := step_insert.1 hs
    have hne : w ≠ w₀ := by
      rintro rfl; rw [hw] at hw₀; cases hw₀
    refine ⟨w, r, by rw [insert_phase_of_ne e o hne]; exact hw, hf', fun a ha => ?_⟩
    change a ∈ (e.session.insert o).agenda at ha
    cases o with
    | none => exact hno a ha
    | some r₀ =>
      have hnew := h.calledNew w₀ r₀ hw₀
      rw [KieSession.insert_fresh hnew] at ha
      rcases List.mem_append.1 ha with ha | ha
      · exact hno a ha
      · rw [(mem_activations.1 ha).1]
        rintro rfl
        exact hnew (h.insertedFact w r₀ hw)
  | fireAllRules w₀ order =>
    have hs' := hs
    obtain ⟨o, hw₀, hp, rfl⟩ := step_fireAllRules.1 hs
    by_cases hne : w = w₀
    · subst hne
      rw [hw] at hw₀
      cases hw₀
      -- the verdict is right, so something was pending, and not of `r`
      have hv := (hr ⟨some r, order.length⟩ (List.mem_append_right _ (List.mem_singleton_self _))).2 hf'
      have hlen : 0 < e.session.agenda.length := by
        rw [← hp.length_eq]; exact of_decide_eq_true hv
      obtain ⟨a, ha⟩ := List.exists_mem_of_length_pos hlen
      obtain ⟨w', hw'⟩ := h.owner a ha
      have hww : w' ≠ w := by
        rintro rfl
        rw [hw] at hw'
        cases hw'
        exact hno a ha rfl
      refine ⟨w', a.ref, by rw [fireAllRules_phase_of_ne e _ order hww]; exact hw', ?_, fun b hb => by cases hb⟩
      rw [h.flagged_step hs' (h.insertedFact w' _ hw')]
      exact flagged_iff.2 ⟨a.rule, (h.activation (.inr ha)).2⟩
    · exact ⟨w, r, by rw [fireAllRules_phase_of_ne e o order hne]; exact hw, hf', fun b hb => by cases hb⟩

/-- A disturbing `fireAllRules` leaves a debt. -/
theorem debt_of_disturbed {e e' : Engine n} (h : Wf e) {a : EngineAction n} (hs : e.step a = some e')
    (hu : ¬ Undisturbed e a) : Debt e' := by
  cases a with
  | call w t => exact absurd trivial hu
  | insert w => exact absurd trivial hu
  | fireAllRules w order =>
    unfold Undisturbed at hu
    push Not at hu
    obtain ⟨w', hww, r, hw', hf⟩ := hu
    have hf' : flagged (e'.heap.obj r) = true := by
      rw [h.flagged_step hs (h.insertedFact w' r hw')]; simpa using hf
    obtain ⟨o, -, -, rfl⟩ := step_fireAllRules.1 hs
    exact ⟨w', r, by rw [fireAllRules_phase_of_ne e o order hww]; exact hw', hf', fun b hb => by cases hb⟩

/-- A run that ends with all calls returned and all verdicts right was never in debt. -/
theorem undisturbed_of_right : ∀ {e e' : Engine n} {ls : List (EngineAction n)}, Wf e →
    Lts.run step e ls = some e' → (∀ w, e'.phase w = .idle) → VerdictsRight e' →
    VerdictsRight e ∧ ¬ Debt e ∧ Lts.Along step Undisturbed e ls
  | e, e', [], _, hrun, hidle, hr => by
    cases hrun
    refine ⟨hr, ?_, trivial⟩
    rintro ⟨w, r, hw, -⟩
    rw [hidle w] at hw; cases hw
  | e, e', a :: ls, hwf, hrun, hidle, hr => by
    obtain ⟨e₁, hs, hrest⟩ := Lts.run_cons.1 hrun
    obtain ⟨hr₁, hd₁, hu₁⟩ := undisturbed_of_right (wf_step a hwf hs) hrest hidle hr
    refine ⟨right_of_step hwf hs hr₁, fun hd => hd₁ (debt_step hwf hd hs hr₁), (Lts.along_cons hs).2 ⟨?_, hu₁⟩⟩
    by_contra hu
    exact hd₁ (debt_of_disturbed hwf hs hu)

/-! ## The verdict law -/

/-- For every pool size and every run of concurrent calls: when every `fireAllRules` is taken
while no other worker is between its two steps with a transaction that satisfies a rule, every
verdict is right; and when all calls have returned, that is also necessary. -/
theorem evaluate_right_iff (n : Nat) (ls : List (EngineAction n)) (e : Engine n)
    (h : Lts.run step (new n) ls = some e) :
    (Lts.Along step Undisturbed (new n) ls → VerdictsRight e) ∧
      ((∀ w, e.phase w = .idle) → (VerdictsRight e ↔ Lts.Along step Undisturbed (new n) ls)) :=
  ⟨right_of_undisturbed h, fun hidle =>
    ⟨fun hr => (undisturbed_of_right wf_new h hidle hr).2.2, right_of_undisturbed h⟩⟩

/-- One call alone on a transaction with a high amount. -/
def aloneRun : List (EngineAction 2) :=
  [.call 0 (some highTransaction), .insert 0, .fireAllRules 0 [⟨0, .highTransactionAmount⟩]]

theorem evaluate_right_alone : ∃ e, Lts.run step (new 2) aloneRun = some e ∧ VerdictsRight e := by
  refine ⟨_, rfl, (evaluate_right_iff 2 aloneRun _ rfl).1 ?_⟩
  refine ⟨trivial, fun e₁ h₁ => ⟨trivial, fun e₂ h₂ => ⟨?_, fun _ _ => trivial⟩⟩⟩
  cases h₁; cases h₂
  intro w' hww r hw'
  have hw1 : w' = 1 := by omega
  subst hw1; cases hw'

/-- Two workers insert before either fires: the worker with the normal transaction fires first. -/
def crossedRun : List (EngineAction 2) :=
  [.call 0 (some highTransaction), .insert 0, .call 1 (some normalTransaction), .insert 1,
    .fireAllRules 1 [⟨0, .highTransactionAmount⟩], .fireAllRules 0 []]

/-- In the crossed run the normal transaction is flagged and the high one is not. -/
theorem crossed_verdicts_wrong : ¬ ∀ (n : Nat) (ls : List (EngineAction n)) (e : Engine n),
    Lts.run step (new n) ls = some e → VerdictsRight e := by
  intro h
  have hr := h 2 crossedRun _ rfl
  have h1 := (hr ⟨some 1, 1⟩ (by decide)).1 rfl
  revert h1
  decide

/-- A single worker is never disturbed. -/
theorem undisturbed_single (e : Engine 1) (a : EngineAction 1) : Undisturbed e a := by
  cases a with
  | call w t => trivial
  | insert w => trivial
  | fireAllRules w order => intro w' hww; exact absurd (Subsingleton.elim w' w) hww

end Engine

end FraudDetect.Drools
