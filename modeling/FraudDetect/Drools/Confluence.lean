/-
The order in which the pending activations fire. All consequences write the same field, so the object of a
fact ends with the reason of its activation fired last: the same in every order, unless the transaction
satisfies both rules.
-/
import FraudDetect.Drools.Invariant

namespace FraudDetect.Drools

namespace KieSession

/-! ## The activation of an object that fires last -/

/-- The activations of an object in an order of firing. -/
def own (r : Ref) (order : List Activation) : List Activation := order.filter (·.ref = r)

theorem written_eq (r : Ref) : ∀ order : List Activation,
    written order r = (own r order).getLast?.map (·.rule.reason)
  | [] => rfl
  | a :: rest => by
    unfold own
    rw [written, written_eq r rest, List.filter_cons]
    by_cases h : a.ref = r
    · simp only [h, decide_true, if_true]
      cases hrest : (own r rest).getLast? with
      | none =>
        have hnil : rest.filter (·.ref = r) = [] := List.getLast?_eq_none_iff.1 hrest
        rw [hnil]
        rfl
      | some b =>
        have hb : (rest.filter (·.ref = r)).getLast? = some b := hrest
        rw [List.getLast?_cons, hb]
        rfl
    · simp only [h, decide_false, if_false, Option.or_none, Bool.false_eq_true]
      rfl

/-- The object of a fact after `fireAllRules`: the reason of its activation fired last, if there is one. -/
theorem fireAllRules_obj (s : KieSession) (order : List Activation) (r : Ref) :
    (s.fireAllRules order).2.heap.obj r =
      ((own r order).getLast?.map (·.rule.reason)).elim (s.heap.obj r) (s.heap.obj r).setFraudReason := by
  rw [← written_eq]
  exact (fireThen_spec s order []).obj r

/-! ## Two orders -/

section Orders

variable {s : KieSession} {r : Ref} {order : List Activation}

theorem own_agenda (hagenda : ∀ a ∈ s.agenda, a.ref ∈ s.facts) (hnew : r ∉ s.facts) : own r s.agenda = [] := by
  apply List.filter_eq_nil_iff.2
  intro a ha
  simp only [decide_eq_true_eq]
  rintro rfl
  exact hnew (hagenda a ha)

/-- An order fires, of a fact just inserted, the activations of that fact. -/
theorem own_perm (hagenda : ∀ a ∈ s.agenda, a.ref ∈ s.facts) (hnew : r ∉ s.facts)
    (hp : order.Perm (s.insert (some r)).agenda) : (own r order).Perm (activations s.heap r) := by
  have hold : s.agenda.filter (·.ref = r) = [] := own_agenda hagenda hnew
  have hact : (activations s.heap r).filter (·.ref = r) = activations s.heap r := by
    apply List.filter_eq_self.2
    intro a ha
    simpa using (mem_activations.1 ha).1
  have h := hp.filter (·.ref = r)
  rwa [insert_fresh hnew, List.filter_append, hold, hact, List.nil_append] at h

theorem evaluate_obj (s : KieSession) (r r' : Ref) (order : List Activation) :
    (s.evaluate (some r) order).2.heap.obj r' =
      ((own r' order).getLast?.map (·.rule.reason)).elim (s.heap.obj r') (s.heap.obj r').setFraudReason := by
  have h := fireAllRules_obj (s.insert (some r)) order r'
  rwa [insert_heap] at h

/-- A transaction that does not satisfy both rules has one activation at most. -/
theorem matching_length_le {t : Transaction}
    (h : ¬ (Rule.highTransactionAmount.when t = true ∧ Rule.suspiciousAccount.when t = true)) :
    (matching t).length ≤ 1 := by
  unfold matching rules
  cases h1 : Rule.highTransactionAmount.when t <;> cases h2 : Rule.suspiciousAccount.when t <;> simp [h1, h2] at h ⊢

theorem own_eq_of_length_le {acts : List Activation} (hle : acts.length ≤ 1) (h : (own r order).Perm acts) :
    own r order = acts := by
  match acts, hle with
  | [], _ => exact h.eq_nil
  | [a], _ => exact List.perm_singleton.1 h

theorem matching_both {t : Transaction} (h1 : Rule.highTransactionAmount.when t = true)
    (h2 : Rule.suspiciousAccount.when t = true) : matching t = [.highTransactionAmount, .suspiciousAccount] := by
  simp [matching, rules, h1, h2]

theorem own_append_activations (hagenda : ∀ a ∈ s.agenda, a.ref ∈ s.facts) (hnew : r ∉ s.facts) (rule rule' : Rule) :
    own r (s.agenda ++ [⟨r, rule⟩, ⟨r, rule'⟩]) = [⟨r, rule⟩, ⟨r, rule'⟩] := by
  have hold : s.agenda.filter (·.ref = r) = [] := own_agenda hagenda hnew
  unfold own
  rw [List.filter_append, hold]
  simp

/-- The object after `fireAllRules` is the same in every order exactly when it does not satisfy both rules. -/
theorem orders_agree_iff (hagenda : ∀ a ∈ s.agenda, a.ref ∈ s.facts) (hnew : r ∉ s.facts) :
    (∀ order order' : List Activation, order.Perm (s.insert (some r)).agenda → order'.Perm (s.insert (some r)).agenda →
        (s.evaluate (some r) order).2.heap.obj r = (s.evaluate (some r) order').2.heap.obj r) ↔
      ¬ (Rule.highTransactionAmount.when (s.heap.obj r) = true ∧ Rule.suspiciousAccount.when (s.heap.obj r) = true) := by
  constructor
  · -- both rules hold: the two orders of their activations leave different reasons
    rintro h ⟨h1, h2⟩
    have hact : activations s.heap r = [⟨r, .highTransactionAmount⟩, ⟨r, .suspiciousAccount⟩] := by
      rw [activations, matching_both h1 h2]
      rfl
    have hag : (s.insert (some r)).agenda = s.agenda ++ [⟨r, .highTransactionAmount⟩, ⟨r, .suspiciousAccount⟩] := by
      rw [insert_fresh hnew, ← hact]
    have hswap : (s.agenda ++ [Activation.mk r .suspiciousAccount, ⟨r, .highTransactionAmount⟩]).Perm
        (s.insert (some r)).agenda := by
      rw [hag]
      exact (List.Perm.swap ..).append_left _
    have he := h _ _ (.refl _) hswap
    rw [hag, evaluate_obj, evaluate_obj, own_append_activations hagenda hnew, own_append_activations hagenda hnew] at he
    have hreason := congrArg Transaction.fraudReason he
    simp [Transaction.setFraudReason, Rule.reason] at hreason
  · intro hnot order order' hp hp'
    have hle : (activations s.heap r).length ≤ 1 := by
      rw [activations, List.length_map]
      exact matching_length_le hnot
    rw [evaluate_obj, evaluate_obj, own_eq_of_length_le hle (own_perm hagenda hnew hp),
      own_eq_of_length_le hle (own_perm hagenda hnew hp')]

end Orders

/-- For every session whose pending activations are about its facts, every transaction inserted as a new fact and
every order of firing: `fireAllRules` leaves the transaction as it was but for its `fraudReason`, which is the reason
of its activation fired last, if it has one, among those of the rules it satisfies. The transaction after
`fireAllRules` is the same in every order exactly when it does not satisfy both rules. -/
theorem reason_of_order (s : KieSession) (r : Ref) (hagenda : ∀ a ∈ s.agenda, a.ref ∈ s.facts) (hnew : r ∉ s.facts) :
    (∀ order : List Activation, order.Perm (s.insert (some r)).agenda →
      ((s.evaluate (some r) order).2.heap.obj r).SameButReason (s.heap.obj r) ∧
      (own r order).Perm (activations s.heap r) ∧
      ((s.evaluate (some r) order).2.heap.obj r).fraudReason =
        ((own r order).getLast?.map (·.rule.reason)).or (s.heap.obj r).fraudReason) ∧
    ((∀ order order' : List Activation, order.Perm (s.insert (some r)).agenda → order'.Perm (s.insert (some r)).agenda →
        (s.evaluate (some r) order).2.heap.obj r = (s.evaluate (some r) order').2.heap.obj r) ↔
      ¬ (Rule.highTransactionAmount.when (s.heap.obj r) = true ∧ Rule.suspiciousAccount.when (s.heap.obj r) = true)) := by
  refine ⟨fun order hp => ⟨?_, own_perm hagenda hnew hp, ?_⟩, orders_agree_iff hagenda hnew⟩
  · rw [evaluate_obj]
    cases (own r order).getLast?.map (·.rule.reason) with
    | none => exact .refl _
    | some reason => exact Transaction.setFraudReason_same _ reason
  · rw [evaluate_obj]
    cases (own r order).getLast?.map (·.rule.reason) <;> rfl

/-- A new session about to evaluate one transaction. -/
def holding (t : Transaction) : KieSession := { new with heap := Heap.empty.alloc t }

theorem reason_of_order_bad :
    (((holding badTransaction).evaluate (some 0) [⟨0, .suspiciousAccount⟩]).2.heap.obj 0).fraudReason =
      some "Suspicious Account" :=
  ((reason_of_order (holding badTransaction) 0 nofun (by decide)).1 [⟨0, .suspiciousAccount⟩] (by decide)).2.2

/-- A transaction that satisfies both rules. -/
def bothTransaction : Transaction := { id := some "4", amount := .ofNat 10000, accountId := some "badAccount" }

/-- The two orders of the activations of a transaction that satisfies both rules leave different reasons. -/
theorem reason_depends_on_order : ¬ ∀ (s : KieSession) (r : Ref), (∀ a ∈ s.agenda, a.ref ∈ s.facts) → r ∉ s.facts →
    ∀ order order' : List Activation, order.Perm (s.insert (some r)).agenda → order'.Perm (s.insert (some r)).agenda →
      (s.evaluate (some r) order).2.heap.obj r = (s.evaluate (some r) order').2.heap.obj r := by
  intro h
  have he := h (holding bothTransaction) 0 nofun (by decide) [⟨0, .highTransactionAmount⟩, ⟨0, .suspiciousAccount⟩]
    [⟨0, .suspiciousAccount⟩, ⟨0, .highTransactionAmount⟩] (by decide) (by decide)
  have hreason := congrArg Transaction.fraudReason he
  revert hreason
  decide

end KieSession

/-! ## Concurrent calls -/

namespace Engine

/-- In every run of concurrent calls, a call whose transaction does not satisfy both rules leaves it with the same
reason in whatever order the pending activations fire, when its two steps follow one another. -/
theorem orders_agree {n : Nat} {ls : List (EngineAction n)} {e : Engine n} {w : Fin n} {r : Ref}
    (h : Lts.run step (new n) ls = some e) (hw : e.phase w = .called (some r))
    (hnot : ¬ (Rule.highTransactionAmount.when (e.heap.obj r) = true ∧ Rule.suspiciousAccount.when (e.heap.obj r) = true))
    {order order' : List Activation} {e₁ e₂ : Engine n}
    (h₁ : Lts.run step e [.insert w, .fireAllRules w order] = some e₁)
    (h₂ : Lts.run step e [.insert w, .fireAllRules w order'] = some e₂) : e₁.heap.obj r = e₂.heap.obj r := by
  have hwf := wf_run h
  have hagree := (KieSession.orders_agree_iff (fun a ha => (hwf.agendaFact a ha).1) (hwf.calledNew w r hw)).2 hnot
  have hfired : ∀ {order e'}, Lts.run step e [.insert w, .fireAllRules w order] = some e' →
      order.Perm (e.session.insert (some r)).agenda ∧ (e.session.evaluate (some r) order).2 = e'.session := by
    intro order e' h'
    obtain ⟨e₁, hins, hfire⟩ := Lts.run_cons.1 h'
    rw [Lts.run_single] at hfire
    obtain ⟨x, -, -, heval⟩ := evaluate_atomic hw hins hfire
    obtain ⟨o, -, hp, -⟩ := step_fireAllRules.1 hfire
    obtain ⟨o', ho', rfl⟩ := step_insert.1 hins
    rw [hw] at ho'
    cases ho'
    exact ⟨hp, by rw [heval]⟩
  obtain ⟨hp₁, he₁⟩ := hfired h₁
  obtain ⟨hp₂, he₂⟩ := hfired h₂
  rw [heap, heap, ← he₁, ← he₂]
  exact hagree order order' hp₁ hp₂

end Engine

end FraudDetect.Drools
