/-
Transactions, the heap their objects live on, and the rules of `rules.drl`: when a rule matches a
transaction, what its consequence writes and what it shows. A consequence writes only
`fraudReason`, which no condition reads, so it never changes what a transaction matches.
-/
import FraudDetect.Lib.Double
import Mathlib.Data.List.Infix
import Mathlib.Logic.Function.Basic

namespace FraudDetect.Drools

/-! ## Transactions -/

/-- A `model.Transaction`; a `Date` is its number of milliseconds, `none` is `null`. -/
structure Transaction where
  id : Option String := none
  amount : Double := ⟨0#64⟩
  accountId : Option String := none
  timestamp : Option Int64 := none
  fraudReason : Option String := none
deriving DecidableEq, Repr, Inhabited

namespace Transaction

def setFraudReason (t : Transaction) (reason : String) : Transaction := { t with fraudReason := some reason }

/-- Two transactions with the same fields, `fraudReason` aside. -/
def SameButReason (t u : Transaction) : Prop :=
  t.id = u.id ∧ t.amount = u.amount ∧ t.accountId = u.accountId ∧ t.timestamp = u.timestamp

theorem SameButReason.refl (t : Transaction) : SameButReason t t := ⟨rfl, rfl, rfl, rfl⟩

theorem SameButReason.symm {t u : Transaction} (h : SameButReason t u) : SameButReason u t :=
  ⟨h.1.symm, h.2.1.symm, h.2.2.1.symm, h.2.2.2.symm⟩

theorem SameButReason.trans {t u v : Transaction} (h : SameButReason t u) (h' : SameButReason u v) :
    SameButReason t v :=
  ⟨h.1.trans h'.1, h.2.1.trans h'.2.1, h.2.2.1.trans h'.2.2.1, h.2.2.2.trans h'.2.2.2⟩

theorem setFraudReason_same (t : Transaction) (reason : String) : SameButReason (t.setFraudReason reason) t :=
  ⟨rfl, rfl, rfl, rfl⟩

theorem SameButReason.setFraudReason_eq {t u : Transaction} (h : SameButReason t u) (reason : String) :
    t.setFraudReason reason = u.setFraudReason reason := by
  obtain ⟨h1, h2, h3, h4⟩ := h
  simp only [setFraudReason, h1, h2, h3, h4]

end Transaction

/-! ## The heap -/

/-- The identity of a `Transaction` object. -/
abbrev Ref := Nat

/-- The `Transaction` objects: those below `next` have been allocated. -/
structure Heap where
  next : Ref
  obj : Ref → Transaction

namespace Heap

def empty : Heap := ⟨0, fun _ => default⟩

/-- Allocates a new object; its reference is the old `next`. -/
def alloc (h : Heap) (t : Transaction) : Heap := ⟨h.next + 1, Function.update h.obj h.next t⟩

def write (h : Heap) (r : Ref) (t : Transaction) : Heap := { h with obj := Function.update h.obj r t }

@[simp] theorem alloc_obj_self (h : Heap) (t : Transaction) : (h.alloc t).obj h.next = t :=
  Function.update_self ..

theorem alloc_obj_of_ne (h : Heap) (t : Transaction) {r : Ref} (hr : r ≠ h.next) :
    (h.alloc t).obj r = h.obj r :=
  Function.update_of_ne hr ..

theorem alloc_obj_of_lt (h : Heap) (t : Transaction) {r : Ref} (hr : r < h.next) :
    (h.alloc t).obj r = h.obj r :=
  h.alloc_obj_of_ne t (Nat.ne_of_lt hr)

@[simp] theorem write_obj_self (h : Heap) (r : Ref) (t : Transaction) : (h.write r t).obj r = t :=
  Function.update_self ..

theorem write_obj_of_ne (h : Heap) {r r' : Ref} (t : Transaction) (hr : r' ≠ r) :
    (h.write r t).obj r' = h.obj r' :=
  Function.update_of_ne hr ..

/-- `h'` may have more objects than `h`, and those of `h` have changed in their reason at most. -/
structure Grows (h h' : Heap) : Prop where
  next : h.next ≤ h'.next
  same : ∀ r < h.next, (h'.obj r).SameButReason (h.obj r)

theorem Grows.refl (h : Heap) : Grows h h := ⟨le_rfl, fun _ _ => .refl _⟩

theorem alloc_grows (h : Heap) (t : Transaction) : Grows h (h.alloc t) := by
  refine ⟨Nat.le_succ _, fun r hr => ?_⟩
  rw [alloc_obj_of_lt h t hr]
  exact .refl _

end Heap

/-! ## rules.drl -/

/-- The `contains` operator on a string field: false on `null`. -/
def contains : Option String → String → Bool
  | none, _ => false
  | some s, sub => decide (sub.toList <:+: s.toList)

/-- The rules of `rules.drl`. -/
inductive Rule
  | highTransactionAmount
  | suspiciousAccount
deriving DecidableEq, Repr

/-- An operand of the string concatenation passed to `showText`. -/
inductive Operand
  | lit (s : String)
  | double (x : Double)
  | string (s : Option String)
deriving DecidableEq, Repr

namespace Rule

/-- The condition of a rule. -/
def «when» : Rule → Transaction → Bool
  | highTransactionAmount, t => t.amount.gt (Double.ofNat 9000)
  | suspiciousAccount, t => contains t.accountId "bad"

/-- The argument of `setFraudReason` in the consequence. -/
def reason : Rule → String
  | highTransactionAmount => "High transaction amount"
  | suspiciousAccount => "Suspicious Account"

/-- The argument of `showResults.showText` in the consequence. -/
def text : Rule → Transaction → List Operand
  | highTransactionAmount, t =>
    [.lit "Fraud detected: High transaction amount - ", .double t.amount, .lit " transId:", .string t.id]
  | suspiciousAccount, t =>
    [.lit "Fraud detected: Suspicious account - ", .string t.accountId, .lit " transId:", .string t.id]

end Rule

/-- The rules, in the order of the file. -/
def rules : List Rule := [.highTransactionAmount, .suspiciousAccount]

/-- The rules a transaction satisfies. -/
def matching (t : Transaction) : List Rule := rules.filter (·.when t)

/-- The transaction satisfies a rule. -/
def flagged (t : Transaction) : Bool := rules.any (·.when t)

theorem mem_rules (rule : Rule) : rule ∈ rules := by cases rule <;> decide

theorem mem_matching {t : Transaction} {rule : Rule} : rule ∈ matching t ↔ rule.when t = true := by
  simp [matching, mem_rules]

theorem matching_nodup (t : Transaction) : (matching t).Nodup :=
  List.Nodup.filter _ (by decide)

theorem flagged_iff {t : Transaction} : flagged t = true ↔ ∃ rule : Rule, rule.when t = true := by
  simp [flagged, mem_rules]

theorem matching_eq_nil {t : Transaction} : matching t = [] ↔ flagged t = false := by
  simp [matching, flagged, List.filter_eq_nil_iff]

/-- On a finite amount the first rule compares exact values. -/
theorem high_when_iff {t : Transaction} (h : t.amount.isFinite = true) :
    Rule.highTransactionAmount.when t = true ↔ 9000 < t.amount.toRat := by
  have h9 : (9000 : Nat) < 2 ^ 53 := by decide
  rw [Rule.when, Double.gt_iff h (Double.isFinite_ofNat h9), Double.toRat_ofNat h9]
  norm_num

/-- A transaction that satisfies no rule. -/
def normalTransaction : Transaction :=
  { id := some "1", amount := .ofNat 100, accountId := some "Normal Account" }

/-- A transaction that satisfies the first rule only. -/
def highTransaction : Transaction :=
  { id := some "2", amount := .ofNat 10000, accountId := some "Normal Account" }

/-- A transaction that satisfies the second rule only. -/
def badTransaction : Transaction :=
  { id := some "3", amount := .ofNat 7000, accountId := some "badAccount" }

example : matching normalTransaction = [] ∧ matching highTransaction = [.highTransactionAmount] ∧
    matching badTransaction = [.suspiciousAccount] := by decide

section SameButReason

variable {t u : Transaction} (h : t.SameButReason u)
include h

/-- No condition reads `fraudReason`. -/
theorem when_congr (rule : Rule) : rule.when t = rule.when u := by
  obtain ⟨-, h2, h3, -⟩ := h
  cases rule
  · simp only [Rule.when, h2]
  · simp only [Rule.when, h3]

theorem matching_congr : matching t = matching u :=
  List.filter_congr fun rule _ => when_congr h rule

theorem flagged_congr : flagged t = flagged u := by
  simp only [flagged, rules, List.any_cons, List.any_nil, when_congr h]

theorem text_congr (rule : Rule) : rule.text t = rule.text u := by
  obtain ⟨h1, h2, h3, -⟩ := h
  cases rule
  · simp only [Rule.text, h1, h2]
  · simp only [Rule.text, h1, h3]

end SameButReason

end FraudDetect.Drools
