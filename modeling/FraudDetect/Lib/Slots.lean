/-
Accounting for what a family of holders has: the contents of `n` slots with at most one item each,
and of a list of holders with a list of items each, up to order, when one holder changes.
-/
import Mathlib.Algebra.Order.BigOperators.Group.Finset
import Mathlib.Data.Fintype.Basic
import Mathlib.Data.List.FinRange
import Mathlib.Data.List.Nodup
import Mathlib.Data.List.Pairwise
import Mathlib.Data.List.Perm.Basic

namespace Slots

variable {α β γ : Type*} {n : Nat}

/-! ## Slots with at most one item -/

/-- The items in the slots, in the order of the slots. -/
def contents (f : Fin n → Option α) : List α := (List.finRange n).filterMap f

theorem mem_contents {f : Fin n → Option α} {a : α} : a ∈ contents f ↔ ∃ w, f w = some a := by
  simp [contents]

theorem contents_eq_nil {f : Fin n → Option α} : contents f = [] ↔ ∀ w, f w = none := by
  simp [contents, List.filterMap_eq_nil_iff]

/-- Filling an empty slot adds its item. -/
theorem contents_fill {f : Fin n → Option α} {w : Fin n} (hw : f w = none) (a : α) :
    (contents (Function.update f w (some a))).Perm (a :: contents f) := by
  obtain ⟨l, l', hl⟩ := List.append_of_mem (List.mem_finRange w)
  have hnd : (l ++ w :: l').Nodup := by
    rw [← hl]; exact List.nodup_finRange n
  obtain ⟨hwl, -⟩ := List.nodup_cons.1 (List.nodup_middle.1 hnd)
  have hsame : ∀ k : List (Fin n), w ∉ k → k.filterMap (Function.update f w (some a)) = k.filterMap f := by
    intro k hk
    apply List.filterMap_congr
    intro x hx
    rw [Function.update_of_ne]
    rintro rfl
    exact hk hx
  unfold contents
  rw [hl, List.filterMap_append, List.filterMap_append, List.filterMap_cons_none hw,
    List.filterMap_cons_some (Function.update_self ..), hsame l fun h => hwl (List.mem_append_left _ h),
    hsame l' fun h => hwl (List.mem_append_right _ h)]
  exact List.perm_middle

/-- Emptying a slot removes its item. -/
theorem contents_clear {f : Fin n → Option α} {w : Fin n} {a : α} (hw : f w = some a) :
    (contents f).Perm (a :: contents (Function.update f w none)) := by
  have h := contents_fill (f := Function.update f w none) (Function.update_self w none f) a
  rwa [Function.update_idem, ← hw, Function.update_eq_self] at h

theorem contents_keep {f : Fin n → Option α} {w : Fin n} {x : Option α} (hw : f w = x) :
    contents (Function.update f w x) = contents f := by
  rw [← hw, Function.update_eq_self]

/-- Without duplicates, an item is in one slot only. -/
theorem slot_unique {f : Fin n → Option α} (hnd : (contents f).Nodup) {v w : Fin n} {a : α} (hv : f v = some a)
    (hw : f w = some a) : v = w := by
  by_contra hne
  -- emptying the one slot would leave the item in the other
  obtain ⟨hnot, -⟩ := List.nodup_cons.1 ((contents_clear hw).nodup_iff.1 hnd)
  refine hnot (mem_contents.2 ⟨v, ?_⟩)
  rw [Function.update_of_ne hne]
  exact hv

/-! ## Holders with a list of items -/

/-- Replacing a holder trades its items. -/
theorem flatMap_set_perm (f : α → List β) : ∀ {l : List α} {i : Nat} {y : α} (x : α), l[i]? = some y →
    (f y ++ (l.set i x).flatMap f).Perm (f x ++ l.flatMap f)
  | [], i, y, x, h => by simp at h
  | z :: l, 0, y, x, h => by
    have hy : z = y := by simpa using h
    rw [hy, List.set_cons_zero, List.flatMap_cons, List.flatMap_cons, ← List.append_assoc, ← List.append_assoc]
    exact List.perm_append_comm.append_right _
  | z :: l, i + 1, y, x, h => by
    have ih := flatMap_set_perm f (l := l) (i := i) x (by simpa using h)
    rw [List.set_cons_succ, List.flatMap_cons, List.flatMap_cons]
    have h1 : (f y ++ (f z ++ (l.set i x).flatMap f)).Perm (f z ++ (f y ++ (l.set i x).flatMap f)) :=
      List.perm_append_comm_assoc ..
    have h2 : (f z ++ (f x ++ l.flatMap f)).Perm (f x ++ (f z ++ l.flatMap f)) :=
      List.perm_append_comm_assoc ..
    exact h1.trans ((ih.append_left _).trans h2)

/-- When the items have distinct keys and are what all holders have, each is with exactly one. -/
theorem existsUnique_holder {g : β → γ} {f : α → List β} {holders : List α} {items : List β}
    (h : items.Perm (holders.flatMap f)) (hall : ∀ x, x ∈ holders) (hnd : (items.map g).Nodup) :
    ∀ b ∈ items, ∃! x, g b ∈ (f x).map g := by
  intro b hb
  have hnd' : (holders.flatMap fun x => (f x).map g).Nodup := by
    rw [← List.map_flatMap]
    exact (h.map g).nodup_iff.1 hnd
  obtain ⟨-, hdisj⟩ := List.nodup_flatMap.1 hnd'
  obtain ⟨x, -, hx⟩ := List.mem_flatMap.1 (h.mem_iff.1 hb)
  have hbx : g b ∈ (f x).map g := List.mem_map_of_mem hx
  refine ⟨x, hbx, fun y hby => ?_⟩
  by_contra hne
  have hsymm : Std.Symm (Function.onFun List.Disjoint fun x => (f x).map g) :=
    ⟨fun _ _ hd _ h1 h2 => hd h2 h1⟩
  exact hdisj.forall (hall y) (hall x) hne hby hbx

/-! ## Items under a key -/

theorem countP_or_le (p q : α → Bool) : ∀ l : List α, (l.countP fun a => p a || q a) ≤ l.countP p + l.countP q
  | [] => Nat.le_refl 0
  | a :: l => by
    have hrest := countP_or_le p q l
    simp only [List.countP_cons]
    cases p a <;> cases q a <;> simp <;> omega

/-- With at most one item under each key, there are at most as many items under some keys as there are keys. -/
theorem countP_any_le {p : β → α → Bool} {items : List α} : ∀ {keys : List β}, (∀ b ∈ keys, items.countP (p b) ≤ 1) →
    (items.countP fun a => keys.any (p · a)) ≤ keys.length
  | [], _ => by simp
  | b :: keys, h => by
    have hrest := countP_any_le fun b' hb' => h b' (List.mem_cons_of_mem _ hb')
    have hfirst := h b (List.mem_cons_self ..)
    have hor := countP_or_le (p b) (fun a => keys.any (p · a)) items
    simp only [List.any_cons, List.length_cons]
    omega

/-! ## A total over the slots -/

/-- Where one slot changes, so does the total. -/
theorem sum_of_others {f g : Fin n → Nat} {w : Fin n} (h : ∀ v, v ≠ w → g v = f v) :
    ∑ v, g v + f w = ∑ v, f v + g w := by
  have hf := Finset.add_sum_erase Finset.univ f (Finset.mem_univ w)
  have hg := Finset.add_sum_erase Finset.univ g (Finset.mem_univ w)
  have hrest : ∑ v ∈ Finset.univ.erase w, g v = ∑ v ∈ Finset.univ.erase w, f v :=
    Finset.sum_congr rfl fun v hv => h v (Finset.ne_of_mem_erase hv)
  omega

end Slots
