/-
Programs that make calls out of the code under study and may throw: the calls are recorded with their outcomes
as they are made, so running a program gives its result and the calls it has made.
-/
import Mathlib.Logic.Function.Basic

namespace Calls

variable {χ ε α β : Type}

/-- Code that makes calls `ε` and may throw a `χ`. -/
abbrev Prog (χ ε : Type) := ExceptT χ (StateM (List ε))

/-- Makes a call: it is recorded with its outcome, and its exception propagates. -/
def call (event : Bool → ε) (result : Except χ α) : Prog χ ε α :=
  ExceptT.mk fun log => (result, log ++ [event result.toBool])

/-- Runs a program on the calls made before it. -/
def exec (x : Prog χ ε α) (log : List ε) : Except χ α × List ε := x.run.run log

@[simp] theorem exec_call (event : Bool → ε) (result : Except χ α) (log : List ε) :
    exec (call event result) log = (result, log ++ [event result.toBool]) := rfl

@[simp] theorem exec_pure (a : α) (log : List ε) : exec (pure a : Prog χ ε α) log = (.ok a, log) := rfl

theorem exec_bind (x : Prog χ ε α) (f : α → Prog χ ε β) (log : List ε) :
    exec (x >>= f) log = match exec x log with
      | (.ok a, log') => exec (f a) log'
      | (.error e, log') => (.error e, log') := by
  show (ExceptT.bindCont f (exec x log).1).run (exec x log).2 = _
  rcases exec x log with ⟨r | r, log'⟩ <;> rfl

theorem exec_tryCatch (x : Prog χ ε α) (h : χ → Prog χ ε α) (log : List ε) :
    exec (tryCatch x h) log = match exec x log with
      | (.ok a, log') => (.ok a, log')
      | (.error e, log') => exec (h e) log' := by
  have hx : StateT.run x log = exec x log := rfl
  unfold exec at hx ⊢
  simp only [tryCatch, tryCatchThe, MonadExceptOf.tryCatch, ExceptT.tryCatch]
  rw [ExceptT.run_mk, StateT.run_bind, hx]
  rcases x.run.run log with ⟨r | r, log'⟩ <;> rfl

/-- A loop whose body never throws makes the calls of its iterations one after another. -/
theorem exec_forM {f : α → Prog χ ε Unit} {made : α → List ε} (hf : ∀ a log, exec (f a) log = (.ok (), log ++ made a)) :
    ∀ (l : List α) (log : List ε), exec (l.forM f) log = (.ok (), log ++ l.flatMap made)
  | [], log => by simp [List.forM]
  | a :: l, log => by
    show exec (f a >>= fun _ => l.forM f) log = _
    rw [exec_bind, hf]
    show exec (l.forM f) (log ++ made a) = _
    rw [exec_forM hf l, List.flatMap_cons, List.append_assoc]

/-- Where each part has at most one event of a kind, the events of the kind count the parts that have one. -/
theorem countP_flatMap_any {p : ε → Bool} {made : α → List ε} (hone : ∀ a, (made a).countP p ≤ 1) :
    ∀ l : List α, (l.flatMap made).countP p = l.countP fun a => (made a).any p
  | [] => rfl
  | a :: l => by
    rw [List.flatMap_cons, List.countP_append, countP_flatMap_any hone l, List.countP_cons, Nat.add_comm]
    congr 1
    have h := hone a
    by_cases ha : (made a).any p = true
    · have hpos : 0 < (made a).countP p := List.countP_pos_iff.2 (List.any_eq_true.1 ha)
      rw [if_pos ha]
      omega
    · rw [if_neg ha]
      simpa using ha

end Calls
