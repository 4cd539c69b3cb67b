/-
Decimal numerals of integers: they are distinct for distinct integers, and so are two of them joined by a `-`,
although `-` is the sign of the negative ones.
-/
import Mathlib.Data.List.Basic
import Mathlib.Logic.Function.Basic

namespace Decimal

/-! ## Lists with a separator -/

/-- The first separator tells where the first part ends. -/
theorem append_cons_inj_of_not_mem {α : Type*} {a : α} : ∀ {l l' r r' : List α}, a ∉ l → a ∉ l' →
    l ++ a :: r = l' ++ a :: r' → l = l' ∧ r = r'
  | [], [], _, _, _, _, h => ⟨rfl, (List.cons.inj h).2⟩
  | [], b :: l', _, _, _, h', h => by
    obtain ⟨rfl, -⟩ := List.cons.inj h
    exact absurd (List.mem_cons_self ..) h'
  | b :: l, [], _, _, h', _, h => by
    obtain ⟨rfl, -⟩ := List.cons.inj h
    exact absurd (List.mem_cons_self ..) h'
  | b :: l, b' :: l', _, _, hl, hl', h => by
    obtain ⟨rfl, ht⟩ := List.cons.inj h
    obtain ⟨rfl, hr⟩ := append_cons_inj_of_not_mem (fun hm => hl (List.mem_cons_of_mem _ hm))
      (fun hm => hl' (List.mem_cons_of_mem _ hm)) ht
    exact ⟨rfl, hr⟩

/-! ## Numerals -/

theorem dash_not_mem (m : Nat) : '-' ∉ Nat.toDigits 10 m := by
  intro h
  have hd := Nat.isDigit_of_mem_toDigits (by decide) (by decide) h
  revert hd
  decide

theorem toDigits_injective {m m' : Nat} (h : Nat.toDigits 10 m = Nat.toDigits 10 m') : m = m' := by
  calc m = Nat.ofDigitChars 10 (Nat.toDigits 10 m) 0 := Nat.ofDigitChars_ten_toDigits.symm
    _ = Nat.ofDigitChars 10 (Nat.toDigits 10 m') 0 := by rw [h]
    _ = m' := Nat.ofDigitChars_ten_toDigits

theorem toList_ofNat (m : Nat) : (toString (Int.ofNat m)).toList = Nat.toDigits 10 m := Nat.toList_repr

theorem toList_negSucc (m : Nat) : (toString (Int.negSucc m)).toList = '-' :: Nat.toDigits 10 (m + 1) := by
  show ("-" ++ Nat.repr (m + 1)).toList = _
  rw [String.toList_append, Nat.toList_repr]
  rfl

/-- No numeral of a natural number begins with the sign. -/
theorem toDigits_append_ne {m : Nat} {r l : List Char} : Nat.toDigits 10 m ++ r ≠ '-' :: l := by
  intro h
  cases hd : Nat.toDigits 10 m with
  | nil => exact Nat.toDigits_ne_nil hd
  | cons c cs =>
    rw [hd] at h
    obtain ⟨rfl, -⟩ := List.cons.inj h
    exact dash_not_mem m (by rw [hd]; exact List.mem_cons_self ..)

/-- What follows the numeral of an integer and a `-` is determined, and so is the integer. -/
theorem toList_append_dash_inj {a b : Int} {r r' : List Char}
    (h : (toString a).toList ++ '-' :: r = (toString b).toList ++ '-' :: r') : a = b ∧ r = r' := by
  rcases a with m | m <;> rcases b with m' | m' <;>
    simp only [toList_ofNat, toList_negSucc, List.cons_append] at h
  · obtain ⟨hd, hr⟩ := append_cons_inj_of_not_mem (dash_not_mem m) (dash_not_mem m') h
    exact ⟨congrArg Int.ofNat (toDigits_injective hd), hr⟩
  · exact absurd h toDigits_append_ne
  · exact absurd h.symm toDigits_append_ne
  · obtain ⟨hd, hr⟩ := append_cons_inj_of_not_mem (dash_not_mem _) (dash_not_mem _) (List.cons.inj h).2
    have hm : m = m' := Nat.succ.inj (toDigits_injective hd)
    exact ⟨congrArg Int.negSucc hm, hr⟩

theorem toString_injective : Function.Injective (toString : Int → String) := by
  intro a b h
  have hl : (toString a).toList ++ '-' :: [] = (toString b).toList ++ '-' :: [] := by rw [h]
  exact (toList_append_dash_inj hl).1

/-- Two numerals joined by a `-` determine both integers. -/
theorem joined_injective {a a' b b' : Int}
    (h : toString a ++ "-" ++ toString b = toString a' ++ "-" ++ toString b') : a = a' ∧ b = b' := by
  have hl := congrArg String.toList h
  simp only [String.toList_append, List.append_assoc] at hl
  have hparts : a = a' ∧ (toString b).toList = (toString b').toList := toList_append_dash_inj hl
  exact ⟨hparts.1, toString_injective (String.toList_injective hparts.2)⟩

end Decimal
