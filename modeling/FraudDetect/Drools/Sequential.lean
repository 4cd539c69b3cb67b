/-
Calls of `evaluate` one after another on one `RuleEngineDrools`, the same object any number of times, its fields
changed between the calls. A call on an object already in working memory creates no match and finds none
pending, so it returns false whatever the object's fields are now: the verdicts are right exactly when no call is
on an object evaluated before that satisfies a rule.
-/
import FraudDetect.Drools.Callers

namespace FraudDetect.Drools

/-! ## States and steps -/

/-- A call of `evaluate` that has returned, with the fields its object had then. -/
structure Evaluation extends Return where
  fields : Option Transaction
deriving DecidableEq, Repr

/-- The engine and the calls made on it. -/
structure RuleEngineDrools where
  kieSession : KieSession
  evaluations : List Evaluation

/-- What a caller does: a new object, setters of an object, a call on an object there is or on `null`. The order in
which the pending activations fire is the engine's choice. -/
inductive Use
  | construct (transaction : Transaction)
  | set (r : Ref) (fields : Transaction)
  | evaluate (transaction : Option Ref) (order : List Activation)

namespace RuleEngineDrools

def new : RuleEngineDrools := ⟨.new, []⟩

abbrev heap (s : RuleEngineDrools) : Heap := s.kieSession.heap

def evaluate (s : RuleEngineDrools) (o : Option Ref) (order : List Activation) : RuleEngineDrools where
  kieSession := (s.kieSession.evaluate o order).2
  evaluations := s.evaluations ++ [⟨⟨o, order.length⟩, o.map s.heap.obj⟩]

def step (s : RuleEngineDrools) : Use → Option RuleEngineDrools
  | .construct t => some { s with kieSession := { s.kieSession with heap := s.heap.alloc t } }
  | .set r t =>
    if r < s.heap.next then some { s with kieSession := { s.kieSession with heap := s.heap.write r t } } else none
  | .evaluate o order =>
    if s.heap.holds o ∧ order.Perm (s.kieSession.insert o).agenda then some (s.evaluate o order) else none

/-- What the call recorded returned is what `evaluate` returns. -/
theorem evaluate_verdict (s : KieSession) (o : Option Ref) (order : List Activation) :
    (s.evaluate o order).1 = (Return.mk o order.length).verdict := rfl

theorem step_set {s s' : RuleEngineDrools} {r : Ref} {t : Transaction} : s.step (.set r t) = some s' ↔
    r < s.heap.next ∧ s' = { s with kieSession := { s.kieSession with heap := s.heap.write r t } } := by
  simp only [step]
  split
  · rename_i h; simp [h, eq_comm]
  · rename_i h; simp [h]

theorem step_evaluate {s s' : RuleEngineDrools} {o : Option Ref} {order : List Activation} :
    s.step (.evaluate o order) = some s' ↔
      (s.heap.holds o ∧ order.Perm (s.kieSession.insert o).agenda) ∧ s' = s.evaluate o order := by
  simp only [step]
  split
  · rename_i h; simp [h, eq_comm]
  · rename_i h; simp [h]

/-! ## Right verdicts -/

/-- Every call returned true exactly when the fields of its object at the call satisfied a rule; `null` satisfies none. -/
def VerdictsRight (s : RuleEngineDrools) : Prop :=
  ∀ x ∈ s.evaluations, x.verdict = true ↔ x.fields.any flagged = true

/-- The call is not on an object evaluated before that satisfies a rule now. -/
def Unseen (s : RuleEngineDrools) : Use → Prop
  | .evaluate (some r) _ => r ∈ s.kieSession.facts → flagged (s.heap.obj r) = false
  | _ => True

/-- Nothing is pending between two calls. -/
def Quiet (s : RuleEngineDrools) : Prop := s.kieSession.agenda = []

theorem quiet_step {s s' : RuleEngineDrools} {a : Use} (hq : s.Quiet) (h : s.step a = some s') : s'.Quiet := by
  cases a with
  | construct t => cases h; exact hq
  | set r t => obtain ⟨-, rfl⟩ := step_set.1 h; exact hq
  | evaluate o order => obtain ⟨-, rfl⟩ := step_evaluate.1 h; rfl

/-- A call made while nothing is pending is right exactly when it meets the condition. -/
theorem call_right_iff {s : RuleEngineDrools} (hq : s.Quiet) {o : Option Ref} {order : List Activation}
    (hp : order.Perm (s.kieSession.insert o).agenda) :
    ((Return.mk o order.length).verdict = true ↔ (o.map s.heap.obj).any flagged = true) ↔
      Unseen s (.evaluate o order) := by
  have hlen : order.length = (s.kieSession.insert o).agenda.length := hp.length_eq
  unfold Return.verdict
  simp only [decide_eq_true_eq, hlen]
  cases o with
  | none => simp [KieSession.insert, show s.kieSession.agenda = [] from hq, Unseen]
  | some r =>
    unfold Unseen
    by_cases hr : r ∈ s.kieSession.facts
    · -- a fact matches nothing again
      rw [KieSession.insert, if_pos hr, show s.kieSession.agenda = [] from hq]
      simp [hr]
    · rw [KieSession.insert_fresh hr, show s.kieSession.agenda = [] from hq, List.nil_append]
      simp only [hr, false_implies, iff_true, gt_iff_lt, List.length_pos_iff, ne_eq, activations_eq_nil]
      simp

theorem right_step {s s' : RuleEngineDrools} {a : Use} (hq : s.Quiet) (h : s.step a = some s') :
    s'.VerdictsRight ↔ s.VerdictsRight ∧ Unseen s a := by
  cases a with
  | construct t => cases h; exact (and_iff_left trivial).symm
  | set r t => obtain ⟨-, rfl⟩ := step_set.1 h; exact (and_iff_left trivial).symm
  | evaluate o order =>
    obtain ⟨⟨-, hp⟩, rfl⟩ := step_evaluate.1 h
    rw [← call_right_iff hq hp]
    exact List.forall_mem_append.trans (and_congr_right fun _ => List.forall_mem_singleton)

/-- For every sequence of calls, with new objects and setters between them: every call returned true exactly when the
fields of its object satisfied a rule, if and only if no call was on an object evaluated before that satisfied a rule. -/
theorem evaluations_right_iff (uses : List Use) (s : RuleEngineDrools) (h : Lts.run step new uses = some s) :
    s.VerdictsRight ↔ Lts.Along step Unseen new uses := by
  have hnew : new.VerdictsRight := by
    intro x hx
    cases hx
  exact (Lts.inv_iff_along (fun _ _ _ => quiet_step) (fun _ _ _ => right_step) (show new.Quiet from rfl) h).trans
    (and_iff_right hnew)

instance (s : RuleEngineDrools) (a : Use) : Decidable (Unseen s a) :=
  match a with
  | .evaluate (some r) _ => inferInstanceAs (Decidable (r ∈ s.kieSession.facts → flagged (s.heap.obj r) = false))
  | .construct _ | .set .. | .evaluate none _ => .isTrue trivial

/-- A transaction that satisfies no rule, evaluated, renamed and evaluated again. -/
def renamedUses : List Use :=
  [.construct normalTransaction, .evaluate (some 0) [], .set 0 { normalTransaction with id := some "5" },
    .evaluate (some 0) []]

theorem evaluations_right_renamed : ∃ s, Lts.run step new renamedUses = some s ∧ s.VerdictsRight :=
  ⟨_, rfl, (evaluations_right_iff renamedUses _ rfl).2 (by decide)⟩

/-- The same transaction evaluated twice: the second call returns false. -/
def twiceUses (t : Transaction) (rule : Rule) : List Use :=
  [.construct t, .evaluate (some 0) [⟨0, rule⟩], .evaluate (some 0) []]

theorem second_verdict_wrong : ¬ ∀ (uses : List Use) (s : RuleEngineDrools),
    Lts.run step new uses = some s → s.VerdictsRight := by
  intro h
  have hr := h (twiceUses highTransaction .highTransactionAmount) _ rfl ⟨⟨some 0, 0⟩,
    some (highTransaction.setFraudReason Rule.highTransactionAmount.reason)⟩ (by decide)
  revert hr
  decide

/-! ## Sequential calls are concurrent ones -/

/-- The engine with the calls made so far, and no worker in a call. -/
def resting {n : Nat} (s : RuleEngineDrools) : Engine n :=
  ⟨s.kieSession, fun _ => .idle, s.evaluations.map Evaluation.toReturn⟩

/-- A worker alone takes the three steps of a call. -/
theorem run_evaluate {n : Nat} (w : Fin n) {s : RuleEngineDrools} {o : Option Ref} {order : List Activation}
    (ho : s.heap.holds o) (hp : order.Perm (s.kieSession.insert o).agenda) :
    Lts.run Engine.callerStep (resting s) [.call w o, .insert w, .fireAllRules w order] =
      some (resting (s.evaluate o order)) := by
  have hcall : (resting s : Engine n).callerStep (.call w o) = some ((resting s).callOn w o) :=
    Engine.callerStep_call.2 ⟨⟨rfl, ho⟩, rfl⟩
  have hinsert : ((resting s : Engine n).callOn w o).callerStep (.insert w) =
      some (((resting s).callOn w o).insert w o) :=
    Engine.step_insert.2 ⟨o, Engine.callOn_phase_self .., rfl⟩
  have hfire : (((resting s : Engine n).callOn w o).insert w o).callerStep (.fireAllRules w order) =
      some ((((resting s).callOn w o).insert w o).fireAllRules w o order) :=
    Engine.step_fireAllRules.2 ⟨o, Engine.insert_phase_self .., hp, rfl⟩
  have hend : (((resting s : Engine n).callOn w o).insert w o).fireAllRules w o order = resting (s.evaluate o order) := by
    unfold resting evaluate Engine.fireAllRules Engine.insert Engine.callOn
    simp only [Function.update_idem, List.map_append, List.map_cons, List.map_nil]
    congr 1
    exact Function.update_eq_self_iff.2 rfl
  rw [hend] at hfire
  exact Lts.run_cons.2 ⟨_, hcall, Lts.run_cons.2 ⟨_, hinsert, Lts.run_single.2 hfire⟩⟩

/-- The uses of the engine are steps of one worker, the others being idle. -/
def worker {n : Nat} (w : Fin n) : Lts.Simulation step (Engine.callerStep (n := n)) where
  abs := resting
  labels
    | _, .construct t => [.construct t]
    | _, .set r t => [.set r t]
    | _, .evaluate o order => [.call w o, .insert w, .fireAllRules w order]
  admits _ _ := True
  step_run := by
    rintro s a s' - h
    cases a with
    | construct t => cases h; rfl
    | set r t =>
      obtain ⟨hr, rfl⟩ := step_set.1 h
      exact Lts.run_single.2 (Engine.callerStep_set.2 ⟨hr, rfl⟩)
    | evaluate o order =>
      obtain ⟨⟨ho, hp⟩, rfl⟩ := step_evaluate.1 h
      exact run_evaluate w ho hp

/-- So nothing they do takes a fact out of working memory. -/
theorem facts_uses {s s' : RuleEngineDrools} {uses : List Use} (h : Lts.run step s uses = some s') :
    s.kieSession.facts <+: s'.kieSession.facts :=
  Engine.facts_run ((worker (Fin.last 0)).run_trace Lts.along_true h)

end RuleEngineDrools

end FraudDetect.Drools
