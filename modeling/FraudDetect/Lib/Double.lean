/-
IEEE 754 binary64 values as far as comparisons go: the bit layout, the exact rational value, the
numeric order computed on the bits, and the doubles of the natural numbers below `2^53`.
-/
import Mathlib.Algebra.Order.Field.Rat
import Mathlib.Order.Monotone.Basic
import Mathlib.Tactic.Linarith
import Mathlib.Tactic.Positivity

/-- A binary64 value, given by its bits. -/
structure Double where
  bits : BitVec 64
deriving DecidableEq, Repr

namespace Double

/-! ## Bit layout -/

def sign (x : Double) : Bool := decide (2 ^ 63 ≤ x.bits.toNat)

/-- The bits below the sign: 11 of exponent, then 52 of fraction. -/
def mag (x : Double) : Nat := x.bits.toNat % 2 ^ 63

def exponent (x : Double) : Nat := x.mag / 2 ^ 52
def fraction (x : Double) : Nat := x.mag % 2 ^ 52

def isNaN (x : Double) : Bool := decide (2047 * 2 ^ 52 < x.mag)
def isFinite (x : Double) : Bool := decide (x.mag < 2047 * 2 ^ 52)

/-- The rank of a value: its magnitude bits, negated below zero. Both zeros have rank 0 and the
infinities lie outside every finite value. -/
def rank (x : Double) : Int := if x.sign then -(x.mag : Int) else x.mag

/-- `x > y`; false as soon as one side is NaN. -/
def gt (x y : Double) : Bool := !x.isNaN && !y.isNaN && decide (y.rank < x.rank)

/-- The double of a natural number below `2^53`. -/
def ofNat (k : Nat) : Double :=
  if k = 0 then ⟨0#64⟩
  else ⟨BitVec.ofNat 64 ((k.log2 + 1023) * 2 ^ 52 + (k * 2 ^ (52 - k.log2) - 2 ^ 52))⟩

/-! ## The value -/

/-- The value of magnitude bits `m` in units of `2^-1074`, the least positive value. -/
def units (m : Nat) : Nat :=
  if m / 2 ^ 52 = 0 then m % 2 ^ 52 else (2 ^ 52 + m % 2 ^ 52) * 2 ^ (m / 2 ^ 52 - 1)

/-- The exact value of a finite double. -/
def toRat (x : Double) : ℚ := (if x.sign then -(units x.mag : ℚ) else units x.mag) / 2 ^ 1074

theorem units_lt_succ (m : Nat) : units m < units (m + 1) := by
  unfold units
  by_cases hf : m % 2 ^ 52 + 1 < 2 ^ 52
  · -- the successor stays in the binade
    have hd : (m + 1) / 2 ^ 52 = m / 2 ^ 52 := by omega
    have hm : (m + 1) % 2 ^ 52 = m % 2 ^ 52 + 1 := by omega
    rw [hd, hm]
    split
    · omega
    · exact Nat.mul_lt_mul_of_pos_right (by omega) (by positivity)
  · have hd : (m + 1) / 2 ^ 52 = m / 2 ^ 52 + 1 := by omega
    have hm : (m + 1) % 2 ^ 52 = 0 := by omega
    have hl : m % 2 ^ 52 < 2 ^ 52 := Nat.mod_lt _ (by positivity)
    rw [hd, hm, if_neg (Nat.succ_ne_zero (m / 2 ^ 52)), Nat.add_sub_cancel, Nat.add_zero]
    cases he : m / 2 ^ 52 with
    | zero => simpa using hl
    | succ e =>
      rw [if_neg (Nat.succ_ne_zero e), Nat.add_sub_cancel, Nat.pow_succ' (n := e), ← Nat.mul_assoc]
      exact Nat.mul_lt_mul_of_pos_right (by omega) (by positivity)

theorem units_strictMono : StrictMono units := strictMono_nat_of_lt_succ units_lt_succ

@[simp] theorem units_zero : units 0 = 0 := rfl

/-- The order of the ranks is the order of the values. -/
theorem rank_lt_iff (x y : Double) : y.rank < x.rank ↔ y.toRat < x.toRat := by
  have hpos : (0 : ℚ) < 2 ^ 1074 := by positivity
  have hlt : ∀ a b : Nat, (a : ℚ) < b ↔ a < b := fun _ _ => Nat.cast_lt
  have hmono : ∀ a b : Nat, (units a : ℚ) < units b ↔ a < b := fun a b => by
    rw [hlt]; exact units_strictMono.lt_iff_lt
  have hzero : ∀ a : Nat, units a = 0 ↔ a = 0 := fun a =>
    ⟨fun h => units_strictMono.injective (h.trans units_zero.symm), fun h => by rw [h]; rfl⟩
  have hnn : ∀ a : Nat, (0 : ℚ) ≤ units a := fun a => Nat.cast_nonneg _
  unfold toRat rank
  rw [div_lt_div_iff_of_pos_right hpos]
  cases x.sign <;> cases y.sign <;> simp only [if_true, if_false, Bool.false_eq_true]
  · rw [hmono]; omega
  · -- a negative `y` is below a positive `x` unless both are zero
    have h0 : -(units y.mag : ℚ) < units x.mag ↔ ¬ (y.mag = 0 ∧ x.mag = 0) := by
      rw [← hzero y.mag, ← hzero x.mag, ← not_le]
      refine not_congr ⟨fun h => ?_, fun ⟨h1, h2⟩ => by rw [h1, h2]; simp⟩
      have h1 := hnn x.mag
      have h2 := hnn y.mag
      exact ⟨by exact_mod_cast (by linarith : (units y.mag : ℚ) = 0),
        by exact_mod_cast (by linarith : (units x.mag : ℚ) = 0)⟩
    rw [h0]; omega
  · have h1 := hnn x.mag
    have h2 := hnn y.mag
    exact ⟨fun h => by omega, fun h => by linarith⟩
  · rw [neg_lt_neg_iff (a := (units y.mag : ℚ)), hmono]; omega

/-- On finite values `>` compares the exact values. -/
theorem gt_iff {x y : Double} (hx : x.isFinite = true) (hy : y.isFinite = true) :
    x.gt y = true ↔ y.toRat < x.toRat := by
  have hnan : ∀ z : Double, z.isFinite = true → z.isNaN = false := fun z hz => by
    simp only [isFinite, isNaN, decide_eq_true_eq, decide_eq_false_iff_not] at *; omega
  rw [← rank_lt_iff, gt, hnan x hx, hnan y hy]
  simp

/-! ## Natural numbers -/

/-- The magnitude bits of a positive `k`: the exponent is that of its leading bit. -/
theorem mag_ofNat {k : Nat} (h0 : k ≠ 0) (hk : k < 2 ^ 53) :
    (ofNat k).bits.toNat = (k.log2 + 1023) * 2 ^ 52 + (k * 2 ^ (52 - k.log2) - 2 ^ 52) ∧
      2 ^ 52 ≤ k * 2 ^ (52 - k.log2) ∧ k * 2 ^ (52 - k.log2) < 2 ^ 53 ∧ k.log2 ≤ 52 := by
  have hle : k.log2 ≤ 52 := by
    have := (Nat.log2_lt h0).2 hk; omega
  have hlo : 2 ^ 52 ≤ k * 2 ^ (52 - k.log2) := by
    calc 2 ^ 52 = 2 ^ k.log2 * 2 ^ (52 - k.log2) := by rw [← Nat.pow_add]; congr 1; omega
      _ ≤ k * 2 ^ (52 - k.log2) := Nat.mul_le_mul_right _ (Nat.log2_self_le h0)
  have hhi : k * 2 ^ (52 - k.log2) < 2 ^ 53 := by
    calc k * 2 ^ (52 - k.log2) < 2 ^ (k.log2 + 1) * 2 ^ (52 - k.log2) :=
          Nat.mul_lt_mul_of_pos_right (Nat.lt_log2_self) (by positivity)
      _ = 2 ^ 53 := by rw [← Nat.pow_add]; congr 1; omega
  refine ⟨?_, hlo, hhi, hle⟩
  rw [ofNat, if_neg h0]
  simp only [BitVec.toNat_ofNat]
  exact Nat.mod_eq_of_lt (by omega)

theorem toRat_ofNat {k : Nat} (hk : k < 2 ^ 53) : (ofNat k).toRat = k := by
  by_cases h0 : k = 0
  · subst h0
    have hs : (ofNat 0).sign = false := rfl
    have hu : units (ofNat 0).mag = 0 := rfl
    rw [toRat, hs, hu, if_neg Bool.false_ne_true, Nat.cast_zero, zero_div]
  · obtain ⟨hb, hlo, hhi, hle⟩ := mag_ofNat h0 hk
    have hs : (ofNat k).sign = false := by
      simp only [sign, hb, decide_eq_false_iff_not]; omega
    have hm : (ofNat k).mag = (k.log2 + 1023) * 2 ^ 52 + (k * 2 ^ (52 - k.log2) - 2 ^ 52) := by
      rw [mag, hb]; exact Nat.mod_eq_of_lt (by omega)
    have hu : units (ofNat k).mag = k * 2 ^ 1074 := by
      have hd : (ofNat k).mag / 2 ^ 52 = k.log2 + 1023 := by omega
      have hr : (ofNat k).mag % 2 ^ 52 = k * 2 ^ (52 - k.log2) - 2 ^ 52 := by omega
      unfold units
      have he : 52 - k.log2 + (k.log2 + 1023 - 1) = 1074 := by omega
      rw [hd, hr, if_neg (Nat.succ_ne_zero _), Nat.add_sub_cancel' hlo, Nat.mul_assoc, ← Nat.pow_add]
      exact congrArg (k * 2 ^ ·) he
    rw [toRat, hs, hu, if_neg Bool.false_ne_true, Nat.cast_mul, Nat.cast_pow, Nat.cast_ofNat]
    exact mul_div_cancel_right₀ _ (by positivity)

theorem isFinite_ofNat {k : Nat} (hk : k < 2 ^ 53) : (ofNat k).isFinite = true := by
  by_cases h0 : k = 0
  · subst h0; rfl
  · obtain ⟨hb, hlo, hhi, hle⟩ := mag_ofNat h0 hk
    simp only [isFinite, mag, hb, decide_eq_true_eq]; omega

end Double
