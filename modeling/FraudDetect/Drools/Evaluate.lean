/-
Concurrent calls of `RuleEngineDrools.evaluate` over the one shared session: `n` workers, each of
which takes the two steps of its call, `insert` and then `fireAllRules`, interleaved in any way
with the steps of the others. The session invariant `Wf` says who owns a pending activation and
accounts for every activation ever created.
-/
import FraudDetect.Lib.Lts
import FraudDetect.Drools.KieSession

namespace FraudDetect.Drools

/-! ## States and steps -/

/-- Where a worker is in its call of `evaluate`. -/
inductive Phase
  | idle
  | called (transaction : Option Ref)
  | inserted (transaction : Option Ref)
deriving DecidableEq, Repr

/-- The call has returned from `insert`. -/
def Phase.isInserted : Phase → Bool
  | inserted _ => true
  | _ => false

/-- A call of `evaluate` that has returned. -/
structure Return where
  transaction : Option Ref
  firedRules : Nat
deriving DecidableEq, Repr

/-- What the call returned. -/
def Return.verdict (x : Return) : Bool := decide (x.firedRules > 0)

/-- The session and the calls of `evaluate` over it: those of the `n` workers, and those returned. -/
structure Engine (n : Nat) where
  session : KieSession
  phase : Fin n → Phase
  returned : List Return

/-- The steps of the workers. A call is on a new `Transaction` object or on `null`; the order in
which `fireAllRules` fires the pending activations is the engine's choice. -/
inductive EngineAction (n : Nat)
  | call (w : Fin n) (transaction : Option Transaction)
  | insert (w : Fin n)
  | fireAllRules (w : Fin n) (order : List Activation)

namespace Engine

variable {n : Nat}

def new (n : Nat) : Engine n := ⟨.new, fun _ => .idle, []⟩

abbrev heap (e : Engine n) : Heap := e.session.heap

/-- Worker `w` calls `evaluate` on a new object with the given fields, or on `null`. -/
def call (e : Engine n) (w : Fin n) : Option Transaction → Engine n
  | none => { e with phase := Function.update e.phase w (.called none) }
  | some t =>
    { e with
      session := { e.session with heap := e.heap.alloc t }
      phase := Function.update e.phase w (.called (some e.heap.next)) }

/-- `kieSession.insert(transaction)`. -/
def insert (e : Engine n) (w : Fin n) (o : Option Ref) : Engine n :=
  { e with session := e.session.insert o, phase := Function.update e.phase w (.inserted o) }

/-- `int firedRules = kieSession.fireAllRules()` and the return. -/
def fireAllRules (e : Engine n) (w : Fin n) (o : Option Ref) (order : List Activation) : Engine n :=
  let (firedRules, session) := e.session.fireAllRules order
  { session := session, phase := Function.update e.phase w .idle,
    returned := e.returned ++ [⟨o, firedRules⟩] }

/-- A call that ends by an exception after the consequences `done`, with `rest` still pending. It is
no step of the engine: the laws of its runs are about rule engines that do not throw. -/
def abort (e : Engine n) (w : Fin n) (done rest : List Activation) : Engine n :=
  { e with session := e.session.fireThen done rest, phase := Function.update e.phase w .idle }

def step (e : Engine n) : EngineAction n → Option (Engine n)
  | .call w t => if e.phase w = .idle then some (e.call w t) else none
  | .insert w =>
    match e.phase w with
    | .called o => some (e.insert w o)
    | _ => none
  | .fireAllRules w order =>
    match e.phase w with
    | .inserted o => if order.Perm e.session.agenda then some (e.fireAllRules w o order) else none
    | _ => none

theorem step_call {e e' : Engine n} {w : Fin n} {t : Option Transaction} :
    e.step (.call w t) = some e' ↔ e.phase w = .idle ∧ e' = e.call w t := by
  simp only [step]
  split
  · rename_i h; simp [h, eq_comm]
  · rename_i h; simp [h]

theorem step_insert {e e' : Engine n} {w : Fin n} :
    e.step (.insert w) = some e' ↔ ∃ o, e.phase w = .called o ∧ e' = e.insert w o := by
  simp only [step]
  cases e.phase w <;> simp [eq_comm]

theorem step_fireAllRules {e e' : Engine n} {w : Fin n} {order : List Activation} :
    e.step (.fireAllRules w order) = some e' ↔
      ∃ o, e.phase w = .inserted o ∧ order.Perm e.session.agenda ∧ e' = e.fireAllRules w o order := by
  simp only [step]
  cases e.phase w <;> simp [eq_comm]

/-! ## Frame lemmas -/

@[simp] theorem call_phase_self (e : Engine n) (w : Fin n) (t : Option Transaction) :
    (e.call w t).phase w = .called (t.map fun _ => e.heap.next) := by
  cases t <;> simp [call]

theorem call_phase_of_ne (e : Engine n) {w w' : Fin n} (t : Option Transaction) (h : w' ≠ w) :
    (e.call w t).phase w' = e.phase w' := by
  cases t <;> simp [call, h]

@[simp] theorem insert_phase_self (e : Engine n) (w : Fin n) (o : Option Ref) :
    (e.insert w o).phase w = .inserted o := Function.update_self ..

theorem insert_phase_of_ne (e : Engine n) {w w' : Fin n} (o : Option Ref) (h : w' ≠ w) :
    (e.insert w o).phase w' = e.phase w' := Function.update_of_ne h ..

@[simp] theorem fireAllRules_phase_self (e : Engine n) (w : Fin n) (o : Option Ref) (order : List Activation) :
    (e.fireAllRules w o order).phase w = .idle := Function.update_self ..

theorem fireAllRules_phase_of_ne (e : Engine n) {w w' : Fin n} (o : Option Ref) (order : List Activation)
    (h : w' ≠ w) : (e.fireAllRules w o order).phase w' = e.phase w' := Function.update_of_ne h ..

/-- No step changes an allocated object in more than its reason. -/
theorem step_grows {e e' : Engine n} {a : EngineAction n} (h : e.step a = some e') : e.heap.Grows e'.heap := by
  cases a with
  | call w t =>
    obtain ⟨-, rfl⟩ := step_call.1 h
    cases t with
    | none => exact .refl _
    | some t => exact Heap.alloc_grows ..
  | insert w =>
    obtain ⟨o, -, rfl⟩ := step_insert.1 h
    show e.heap.Grows (e.session.insert o).heap
    rw [KieSession.insert_heap]
    exact .refl _
  | fireAllRules w order =>
    obtain ⟨o, -, -, rfl⟩ := step_fireAllRules.1 h
    exact (KieSession.fireThen_spec e.session order []).grows

/-- A worker whose two steps follow one another runs `KieSession.evaluate`. -/
theorem evaluate_atomic {e e₁ e₂ : Engine n} {w : Fin n} {o : Option Ref} {order : List Activation}
    (hw : e.phase w = .called o) (h₁ : e.step (.insert w) = some e₁)
    (h₂ : e₁.step (.fireAllRules w order) = some e₂) :
    ∃ x : Return, x.transaction = o ∧ e₂.returned = e.returned ++ [x] ∧
      e.session.evaluate o order = (x.verdict, e₂.session) := by
  obtain ⟨o₁, ho₁, rfl⟩ := step_insert.1 h₁
  obtain ⟨o₂, ho₂, -, rfl⟩ := step_fireAllRules.1 h₂
  rw [hw] at ho₁
  cases ho₁
  rw [insert_phase_self] at ho₂
  cases ho₂
  exact ⟨⟨o, order.length⟩, rfl, rfl, rfl⟩

end Engine

end FraudDetect.Drools
