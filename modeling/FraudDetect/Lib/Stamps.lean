/-
Sources that stamp what they make with a reading of a clock they share and a counter of their own. A source reads the
clock, takes its counter and passes the stamp on in two steps, interleaved in any way with the steps of the others.
Over any clock, two stamps of one source differ unless a whole period of the counter lies between them. Over a clock
that does not go back, all stamps are distinct exactly when no two sources read the same time at the same count, and
none reads the same time more than a period of times.
-/
import FraudDetect.Lib.Lts
import Mathlib.Data.List.Induction
import Mathlib.Data.Nat.ModEq
import Mathlib.Data.List.Nodup
import Mathlib.Logic.Function.Iterate
import Mathlib.Order.Defs.LinearOrder
import Mathlib.Tactic.Push

namespace Stamps

/-! ## Lists that do not decrease -/

section Sorted

variable {T : Type*} [LinearOrder T] {t : T}

/-- The last entries of a list up to `t` that does not decrease are `t`, as many as there are of it. -/
theorem getElem?_count {l : List T} (hs : l.Pairwise (· ≤ ·)) (hle : ∀ x ∈ l, x ≤ t) {p : Nat} (hp : 0 < p)
    (hc : p ≤ l.count t) : l[l.length - p]? = some t := by
  have hlen : p ≤ l.length := hc.trans List.count_le_length
  have hlt : l.length - p < l.length := by omega
  rw [List.getElem?_eq_getElem hlt]
  refine congrArg some (le_antisymm (hle _ (List.getElem_mem _)) ?_)
  by_contra hne
  -- every `t` would stand after that entry, among the last `p - 1`
  have hsplit : l = l.take (l.length - p + 1) ++ l.drop (l.length - p + 1) := (List.take_append_drop _ l).symm
  have hzero : (l.take (l.length - p + 1)).count t = 0 := by
    apply List.count_eq_zero.2
    intro hm
    obtain ⟨i, hi, he⟩ := List.mem_take_iff_getElem.1 hm
    have hi' : i ≤ l.length - p := by omega
    rcases hi'.eq_or_lt with rfl | hilt
    · exact hne he.ge
    · exact hne (he.ge.trans (List.pairwise_iff_getElem.1 hs i (l.length - p) (by omega) hlt hilt))
  have hcount : l.count t ≤ (l.drop (l.length - p + 1)).length := by
    calc l.count t = (l.take (l.length - p + 1)).count t + (l.drop (l.length - p + 1)).count t := by
          conv_lhs => rw [hsplit]
          exact List.count_append
      _ ≤ (l.drop (l.length - p + 1)).length := by
          rw [hzero, Nat.zero_add]
          exact List.count_le_length
  rw [List.length_drop] at hcount
  omega

/-- From an entry `t` on, a list up to `t` that does not decrease is `t`. -/
theorem le_count_of_getElem? {l : List T} (hs : l.Pairwise (· ≤ ·)) (hle : ∀ x ∈ l, x ≤ t) {j : Nat}
    (hj : l[j]? = some t) : l.length - j ≤ l.count t := by
  obtain ⟨hlt, he⟩ := List.getElem?_eq_some_iff.1 hj
  have hall : ∀ x ∈ l.drop j, t = x := by
    intro x hx
    obtain ⟨i, hi, rfl⟩ := List.mem_drop_iff_getElem.1 hx
    refine le_antisymm ?_ (hle _ (List.getElem_mem _))
    rw [← he]
    rcases Nat.eq_zero_or_pos i with rfl | hpos
    · simp
    · exact List.pairwise_iff_getElem.1 hs j (j + i) hlt (by omega) (by omega)
  calc l.length - j = (l.drop j).length := List.length_drop.symm
    _ = (l.drop j).count t := (List.count_eq_length.2 hall).symm
    _ ≤ l.count t := (List.drop_sublist j l).count_le t

end Sorted

/-! ## Counters -/

/-- A counter that starts at `zero` and takes `period` values before it repeats. -/
structure Counter (C : Type*) where
  zero : C
  succ : C → C
  period : Nat
  pos : 0 < period
  iterate_eq_iff : ∀ m n, succ^[m] zero = succ^[n] zero ↔ m % period = n % period

variable {S T C : Type*}

/-- The value of the counter for the `k`-th stamp of a source. -/
def Counter.nth (c : Counter C) (k : Nat) : C := c.succ^[k] c.zero

theorem Counter.nth_succ (c : Counter C) (k : Nat) : c.nth (k + 1) = c.succ (c.nth k) :=
  Function.iterate_succ_apply' c.succ k c.zero

theorem Counter.nth_sub_period (c : Counter C) {k : Nat} (hk : c.period ≤ k) : c.nth (k - c.period) = c.nth k := by
  apply (c.iterate_eq_iff _ _).2
  calc (k - c.period) % c.period = (k - c.period + c.period) % c.period := (Nat.add_mod_right ..).symm
    _ = k % c.period := by rw [Nat.sub_add_cancel hk]

theorem Counter.nth_ne_of_lt (c : Counter C) {j k : Nat} (hjk : j < k) (hlt : k - j < c.period) : c.nth j ≠ c.nth k := by
  intro h
  have hmod : j ≡ k [MOD c.period] := (c.iterate_eq_iff j k).1 h
  have hdvd := (Nat.modEq_iff_dvd' hjk.le).1 hmod
  have := Nat.le_of_dvd (by omega) hdvd
  omega

/-! ## States and steps -/

/-- Where a source is: the counter of its next stamp, and the stamp it has made and not passed on yet. -/
structure Loop (T C : Type*) where
  next : C
  held : Option (T × C)

/-- The sources started, the last reading of the clock, and the stamps passed on, each with its source. -/
structure State (S T C : Type*) where
  loop : S → Option (Loop T C)
  now : Option T
  out : List (S × T × C)

inductive Action (S T : Type*)
  | start (src : S)
  | read (src : S) (t : T)
  | pass (src : S)

variable [DecidableEq S] (c : Counter C)

def step (s : State S T C) : Action S T → Option (State S T C)
  | .start src =>
    match s.loop src with
    | none => some { s with loop := Function.update s.loop src (some ⟨c.zero, none⟩) }
    | some _ => none
  | .read src t =>
    match s.loop src with
    | some ⟨n, none⟩ => some { s with loop := Function.update s.loop src (some ⟨c.succ n, some (t, n)⟩), now := some t }
    | _ => none
  | .pass src =>
    match s.loop src with
    | some ⟨n, some stamp⟩ =>
      some { s with loop := Function.update s.loop src (some ⟨n, none⟩), out := s.out ++ [(src, stamp)] }
    | _ => none

/-- The stamps a source has passed on. -/
def State.passed (s : State S T C) (src : S) : List (T × C) := (s.out.filter (·.1 = src)).map (·.2)

def State.held (s : State S T C) (src : S) : Option (T × C) := (s.loop src).bind Loop.held

/-- The stamps a source has made. -/
def State.made (s : State S T C) (src : S) : List (T × C) := s.passed src ++ (s.held src).toList

/-- The counter of the next stamp of a source, started or not. -/
def State.next (s : State S T C) (src : S) : C := (s.loop src).elim c.zero Loop.next

variable {c} {s s' : State S T C} {src : S}

theorem step_start : step c s (.start src) = some s' ↔
    s.loop src = none ∧ s' = { s with loop := Function.update s.loop src (some ⟨c.zero, none⟩) } := by
  simp only [step]
  cases s.loop src <;> simp [eq_comm]

theorem step_read {t : T} : step c s (.read src t) = some s' ↔ ∃ n, s.loop src = some ⟨n, none⟩ ∧
    s' = { s with loop := Function.update s.loop src (some ⟨c.succ n, some (t, n)⟩), now := some t } := by
  simp only [step]
  rcases s.loop src with _ | ⟨n, _ | stamp⟩ <;> simp [eq_comm]

theorem step_pass : step c s (.pass src) = some s' ↔ ∃ n stamp, s.loop src = some ⟨n, some stamp⟩ ∧
    s' = { s with loop := Function.update s.loop src (some ⟨n, none⟩), out := s.out ++ [(src, stamp)] } := by
  simp only [step]
  rcases s.loop src with _ | ⟨n, _ | ⟨t, k⟩⟩
  · simp
  · simp
  · constructor
    · intro h
      exact ⟨n, (t, k), rfl, (Option.some.inj h).symm⟩
    · rintro ⟨n', stamp, hl, rfl⟩
      cases hl
      rfl

/-! ## What the steps make -/

/-- Starting a source makes no stamp. -/
theorem start_made (h : step c s (.start src) = some s') : s'.made = s.made ∧ s'.next c = s.next c ∧ s'.now = s.now := by
  obtain ⟨hl, rfl⟩ := step_start.1 h
  refine ⟨funext fun src' => ?_, funext fun src' => ?_, rfl⟩
  · by_cases hne : src' = src
    · subst hne
      simp [State.made, State.held, State.passed, hl]
    · simp [State.made, State.held, State.passed, hne]
  · by_cases hne : src' = src
    · subst hne
      simp [State.next, hl]
    · simp [State.next, hne]

/-- A reading makes a stamp of it and the counter. -/
theorem read_made {t : T} (h : step c s (.read src t) = some s') :
    s'.made = Function.update s.made src (s.made src ++ [(t, s.next c src)]) ∧
      s'.next c = Function.update (s.next c) src (c.succ (s.next c src)) ∧ s'.now = some t := by
  obtain ⟨n, hl, rfl⟩ := step_read.1 h
  refine ⟨funext fun src' => ?_, funext fun src' => ?_, rfl⟩
  · by_cases hne : src' = src
    · subst hne
      simp [State.made, State.held, State.passed, State.next, hl]
    · simp [State.made, State.held, State.passed, hne]
  · by_cases hne : src' = src
    · subst hne
      simp [State.next, hl]
    · simp [State.next, hne]

/-- A stamp passed on is one made before. -/
theorem pass_made (h : step c s (.pass src) = some s') : s'.made = s.made ∧ s'.next c = s.next c ∧ s'.now = s.now := by
  obtain ⟨n, stamp, hl, rfl⟩ := step_pass.1 h
  refine ⟨funext fun src' => ?_, funext fun src' => ?_, rfl⟩
  · by_cases hne : src' = src
    · subst hne
      simp [State.made, State.held, State.passed, hl]
    · simp [State.made, State.held, State.passed, hne, Ne.symm hne]
  · by_cases hne : src' = src
    · subst hne
      simp [State.next, hl]
    · simp [State.next, hne]

/-! ## The counters of a source -/

/-- The stamps of each source are numbered from the start of its counter. -/
structure Numbered (c : Counter C) (s : State S T C) : Prop where
  made : ∀ src, (s.made src).map (·.2) = (List.range (s.made src).length).map c.nth
  next : ∀ src, s.next c src = c.nth (s.made src).length

/-- No stamp has been made yet. -/
structure Initial (c : Counter C) (s : State S T C) : Prop where
  out : s.out = []
  now : s.now = none
  loop : ∀ src l, s.loop src = some l → l = ⟨c.zero, none⟩

theorem Initial.made_eq (h : Initial c s) (src : S) : s.made src = [] := by
  have hheld : s.held src = none := by
    unfold State.held
    cases hl : s.loop src with
    | none => rfl
    | some l => rw [h.loop src l hl]; rfl
  simp [State.made, State.passed, h.out, hheld]

omit [DecidableEq S] in
theorem Initial.next_eq (h : Initial c s) (src : S) : s.next c src = c.zero := by
  unfold State.next
  cases hl : s.loop src with
  | none => rfl
  | some l => rw [h.loop src l hl]; rfl

theorem numbered_initial (h : Initial c s) : Numbered c s := by
  constructor
  · intro src; simp [h.made_eq src]
  · intro src
    rw [h.next_eq, h.made_eq]
    rfl

theorem numbered_step {a : Action S T} (hI : Numbered c s) (h : step c s a = some s') : Numbered c s' := by
  cases a with
  | start src =>
    obtain ⟨hm, hn, -⟩ := start_made h
    constructor
    · rw [hm]; exact hI.made
    · rw [hm, hn]; exact hI.next
  | read src t =>
    obtain ⟨hm, hn, -⟩ := read_made h
    constructor
    · intro src'
      rw [hm]
      by_cases hne : src' = src
      · subst hne
        rw [Function.update_self, List.map_append, List.length_append, List.length_singleton, List.range_succ,
          List.map_append, hI.made, List.map_singleton, List.map_singleton, hI.next]
      · rw [Function.update_of_ne hne]
        exact hI.made src'
    · intro src'
      rw [hm, hn]
      by_cases hne : src' = src
      · subst hne
        rw [Function.update_self, Function.update_self, List.length_append, List.length_singleton, c.nth_succ, hI.next]
      · rw [Function.update_of_ne hne, Function.update_of_ne hne]
        exact hI.next src'
  | pass src =>
    obtain ⟨hm, hn, -⟩ := pass_made h
    constructor
    · rw [hm]; exact hI.made
    · rw [hm, hn]; exact hI.next

theorem numbered_run {ls : List (Action S T)} (hs : Initial c s) (h : Lts.run (step c) s ls = some s') : Numbered c s' :=
  Lts.run_inv (fun _ _ _ hI h => numbered_step hI h) (numbered_initial hs) h

theorem Numbered.counter_eq (hI : Numbered c s) {k : Nat} {x : T × C} (hk : (s.made src)[k]? = some x) :
    x.2 = c.nth k := by
  have hlen := (List.getElem?_eq_some_iff.1 hk).1
  have hk' : ((s.made src).map (·.2))[k]? = some x.2 := by rw [List.getElem?_map, hk]; rfl
  rw [hI.made src, List.getElem?_map, List.getElem?_range hlen] at hk'
  exact (Option.some.inj hk').symm

/-- Two stamps of one source have different counters unless a whole period lies between them. -/
theorem Numbered.counter_ne (hI : Numbered c s) {j k : Nat} {x y : T × C} (hj : (s.made src)[j]? = some x)
    (hk : (s.made src)[k]? = some y) (hjk : j < k) (hlt : k - j < c.period) : x.2 ≠ y.2 := by
  rw [hI.counter_eq hj, hI.counter_eq hk]
  exact c.nth_ne_of_lt hjk hlt

/-! ## A clock that does not go back -/

section Clock

variable [LinearOrder T]

/-- A reading is in this order with the last one. -/
def Ordered (r : T → T → Prop) (s : State S T C) : Action S T → Prop
  | .read _ t => ∀ t₀ ∈ s.now, r t₀ t
  | _ => True

/-- A reading is not before the last one. -/
abbrev NonDecreasing (s : State S T C) (a : Action S T) : Prop := Ordered (· ≤ ·) s a

/-- A reading is after the last one. -/
abbrev Later (s : State S T C) (a : Action S T) : Prop := Ordered (· < ·) s a

/-- The readings of each source do not decrease, and none is after the last one taken. -/
structure Timed (s : State S T C) : Prop where
  sorted : ∀ src, ((s.made src).map (·.1)).Pairwise (· ≤ ·)
  now : ∀ src, ∀ x ∈ s.made src, ∃ t ∈ s.now, x.1 ≤ t

theorem timed_initial (h : Initial c s) : Timed s := by
  constructor
  · intro src; simp [h.made_eq src]
  · intro src x hx; simp [h.made_eq src] at hx

/-- No reading of a source is after one taken now. -/
theorem Timed.le {t : T} (hI : Timed s) (ht : NonDecreasing s (.read src t)) (src' : S) :
    ∀ x ∈ (s.made src').map (·.1), x ≤ t := by
  intro x hx
  obtain ⟨y, hy, rfl⟩ := List.mem_map.1 hx
  obtain ⟨t₀, h0, hle⟩ := hI.now src' y hy
  exact hle.trans (ht t₀ h0)

theorem timed_step {a : Action S T} (hI : Timed s) (ht : NonDecreasing s a) (h : step c s a = some s') : Timed s' := by
  cases a with
  | start src =>
    obtain ⟨hm, -, hnow⟩ := start_made h
    constructor
    · rw [hm]; exact hI.sorted
    · rw [hm, hnow]; exact hI.now
  | read src t =>
    obtain ⟨hm, -, hnow⟩ := read_made h
    have hle := hI.le ht
    constructor
    · intro src'
      rw [hm]
      by_cases hne : src' = src
      · subst hne
        rw [Function.update_self, List.map_append, List.pairwise_append]
        refine ⟨hI.sorted src', List.pairwise_singleton .., fun x hx y hy => ?_⟩
        rw [List.mem_singleton.1 hy]
        exact hle src' x hx
      · rw [Function.update_of_ne hne]
        exact hI.sorted src'
    · intro src' x hx
      refine ⟨t, hnow, ?_⟩
      rw [hm] at hx
      by_cases hne : src' = src
      · subst hne
        rw [Function.update_self] at hx
        rcases List.mem_append.1 hx with hx | hx
        · exact hle src' x.1 (List.mem_map_of_mem hx)
        · rw [List.mem_singleton.1 hx]
      · rw [Function.update_of_ne hne] at hx
        exact hle src' x.1 (List.mem_map_of_mem hx)
  | pass src =>
    obtain ⟨hm, -, hnow⟩ := pass_made h
    constructor
    · rw [hm]; exact hI.sorted
    · rw [hm, hnow]; exact hI.now

/-- The next stamp of a source is one of those it has made exactly when a whole period of them is of this reading. -/
theorem next_mem_iff {t : T} (hN : Numbered c s) (hT : Timed s) (ht : NonDecreasing s (.read src t)) :
    (t, s.next c src) ∈ s.made src ↔ c.period ≤ ((s.made src).map (·.1)).count t := by
  have hle := hT.le ht src
  have hlen : ((s.made src).map (·.1)).length = (s.made src).length := List.length_map ..
  rw [hN.next]
  constructor
  · intro hm
    obtain ⟨j, hj⟩ := List.mem_iff_getElem?.1 hm
    have hlt := (List.getElem?_eq_some_iff.1 hj).1
    -- the counter has come round since that stamp
    have hperiod : c.period ≤ (s.made src).length - j := by
      by_contra hshort
      exact c.nth_ne_of_lt hlt (by omega) (hN.counter_eq hj).symm
    have hj' : ((s.made src).map (·.1))[j]? = some t := by rw [List.getElem?_map, hj]; rfl
    have hcount := le_count_of_getElem? (hT.sorted src) hle hj'
    omega
  · intro hcount
    -- the stamp a whole period ago has the same counter, and is of this reading too
    have hk := getElem?_count (hT.sorted src) hle c.pos hcount
    rw [List.getElem?_map, hlen] at hk
    obtain ⟨x, hx, hxt⟩ := Option.map_eq_some_iff.1 hk
    have hge : c.period ≤ (s.made src).length := (hcount.trans List.count_le_length).trans hlen.le
    have hx' : x = (t, c.nth (s.made src).length) := by
      refine Prod.ext hxt ?_
      rw [hN.counter_eq hx]
      exact c.nth_sub_period hge
    rw [← hx']
    exact List.mem_of_getElem? hx

end Clock

/-! ## Distinct stamps -/

section Distinct

variable {A : Type*}

/-- No entry is twice in the lists of the sources. -/
def Distinct (f : S → List A) : Prop :=
  (∀ src, (f src).Nodup) ∧ ∀ src src', src ≠ src' → (f src).Disjoint (f src')

omit [DecidableEq S] in
theorem Distinct.sublist {f g : S → List A} (h : Distinct f) (hsub : ∀ src, (g src).Sublist (f src)) : Distinct g := by
  constructor
  · exact fun src => (h.1 src).sublist (hsub src)
  · intro src src' hne x hx hx'
    exact h.2 src src' hne ((hsub src).subset hx) ((hsub src').subset hx')

/-- With one entry more the lists are distinct exactly when none held it before. -/
theorem distinct_update {f : S → List A} {src : S} {x : A} :
    Distinct (Function.update f src (f src ++ [x])) ↔ Distinct f ∧ ∀ src', x ∉ f src' := by
  constructor
  · intro h
    have hsub : ∀ a, (f a).Sublist (Function.update f src (f src ++ [x]) a) := by
      intro a
      by_cases ha : a = src
      · subst ha
        rw [Function.update_self]
        exact List.sublist_append_left ..
      · rw [Function.update_of_ne ha]
    have hself : Function.update f src (f src ++ [x]) src = f src ++ [x] := Function.update_self ..
    refine ⟨h.sublist hsub, fun a hx => ?_⟩
    by_cases ha : a = src
    · subst ha
      have hnodup := h.1 a
      rw [hself] at hnodup
      exact (List.nodup_append.1 hnodup).2.2 x hx x (List.mem_singleton_self x) rfl
    · refine h.2 a src ha ((hsub a).subset hx) ?_
      rw [hself]
      exact List.mem_append_right _ (List.mem_singleton_self x)
  · rintro ⟨h, hx⟩
    -- what is in a list now was there before, or is the new entry
    have hmem : ∀ {a y}, y ∈ Function.update f src (f src ++ [x]) a → y ∈ f a ∨ (a = src ∧ y = x) := by
      intro a y hy
      by_cases ha : a = src
      · subst ha
        rw [Function.update_self] at hy
        exact (List.mem_append.1 hy).imp id fun hy => ⟨rfl, List.mem_singleton.1 hy⟩
      · rw [Function.update_of_ne ha] at hy
        exact .inl hy
    constructor
    · intro a
      by_cases ha : a = src
      · subst ha
        rw [Function.update_self]
        refine List.nodup_append.2 ⟨h.1 a, List.nodup_singleton x, fun y hy z hz => ?_⟩
        rw [List.mem_singleton.1 hz]
        rintro rfl
        exact hx a hy
      · rw [Function.update_of_ne ha]
        exact h.1 a
    · intro a b hne y hya hyb
      rcases hmem hya, hmem hyb with ⟨hya | ⟨ha, rfl⟩, hyb | ⟨hb, hy⟩⟩
      · exact h.2 a b hne hya hyb
      · rw [hy] at hya
        exact hx a hya
      · exact hx b hyb
      · exact hne (ha.trans hb.symm)

/-- The entries of a log are distinct exactly when those of its sources are. -/
theorem nodup_log_iff (l : List (S × A)) :
    (l.map (·.2)).Nodup ↔ Distinct fun src => (l.filter (·.1 = src)).map (·.2) := by
  induction l using List.reverseRecOn with
  | nil => simp [Distinct]
  | append_singleton l p ih =>
    obtain ⟨src, x⟩ := p
    have hupdate : (fun a => ((l ++ [(src, x)]).filter (·.1 = a)).map (·.2)) =
        Function.update (fun a => (l.filter (·.1 = a)).map (·.2)) src ((l.filter (·.1 = src)).map (·.2) ++ [x]) := by
      funext a
      by_cases ha : a = src
      · subst ha; simp
      · simp [ha, Ne.symm ha]
    rw [hupdate, distinct_update (f := fun a => (l.filter (·.1 = a)).map (·.2)), ← ih, List.map_append, List.nodup_append]
    simp only [List.map_singleton, List.nodup_singleton, List.mem_singleton, List.mem_map, List.mem_filter,
      decide_eq_true_eq]
    constructor
    · rintro ⟨hl, -, hne⟩
      refine ⟨hl, ?_⟩
      rintro a ⟨p, ⟨hp, -⟩, hpx⟩
      exact hne p.2 ⟨p, hp, rfl⟩ x rfl hpx
    · rintro ⟨hl, hx⟩
      refine ⟨hl, trivial, ?_⟩
      rintro y ⟨p, hp, rfl⟩ z rfl hz
      exact hx p.1 ⟨p, ⟨hp, rfl⟩, hz⟩

end Distinct

section Apart

variable [LinearOrder T]

/-- A reading is not of a time that another source has read at the same count, nor of one that the same source has read
a whole period of times. -/
def Apart (c : Counter C) (s : State S T C) : Action S T → Prop
  | .read src t => (∀ src', src' ≠ src → (t, s.next c src) ∉ s.made src') ∧ ((s.made src).map (·.1)).count t < c.period
  | _ => True

/-- A step over a clock that does not go back keeps the stamps made distinct exactly when its reading is apart. -/
theorem distinct_step {a : Action S T} (hN : Numbered c s) (hT : Timed s) (ht : NonDecreasing s a)
    (h : step c s a = some s') : Distinct s'.made ↔ Distinct s.made ∧ Apart c s a := by
  cases a with
  | start src =>
    rw [(start_made h).1]
    exact (and_iff_left trivial).symm
  | read src t =>
    rw [(read_made h).1, distinct_update]
    apply and_congr_right
    intro _
    have hself := next_mem_iff hN hT ht
    constructor
    · intro hx
      exact ⟨fun src' _ => hx src', by rw [← not_le, ← hself]; exact hx src⟩
    · rintro ⟨hne, hlt⟩ src'
      by_cases heq : src' = src
      · subst heq
        rw [hself]
        exact not_le.2 hlt
      · exact hne src' heq
  | pass src =>
    rw [(pass_made h).1]
    exact (and_iff_left trivial).symm

omit [DecidableEq S] in
theorem nonDecreasing_of_later {a : Action S T} (hl : Later s a) : NonDecreasing s a := by
  cases a with
  | start src => trivial
  | read src t => exact fun t₀ h0 => (hl t₀ h0).le
  | pass src => trivial

theorem apart_of_later {a : Action S T} (hT : Timed s) (hl : Later s a) : Apart c s a := by
  cases a with
  | start src => trivial
  | read src t =>
    have hlt : ∀ src', ∀ x ∈ s.made src', x.1 < t := by
      intro src' x hx
      obtain ⟨t₀, h0, hle⟩ := hT.now src' x hx
      exact hle.trans_lt (hl t₀ h0)
    constructor
    · intro src' _ hm
      exact (hlt src' _ hm).false
    · have hzero : ((s.made src).map (·.1)).count t = 0 := by
        rw [List.count_eq_zero]
        intro hm
        obtain ⟨x, hx, hxt⟩ := List.mem_map.1 hm
        exact (hlt src x hx).ne hxt
      rw [hzero]
      exact c.pos
  | pass src => trivial

/-- Readings each after the one before are apart. -/
theorem along_apart_of_later {ls : List (Action S T)} (hs : Initial c s) (hlater : Lts.Along (step c) Later s ls) :
    Lts.Along (step c) (Apart c) s ls :=
  Lts.along_of_along (fun _ _ _ hT hl h => timed_step hT (nonDecreasing_of_later hl) h)
    (fun _ _ hT hl => apart_of_later hT hl) (timed_initial hs) hlater

section Run

variable {ls : List (Action S T)} (hs : Initial c s) (hclock : Lts.Along (step c) NonDecreasing s ls)
  (h : Lts.run (step c) s ls = some s')
include hs hclock h

theorem distinct_run : Distinct s'.made ↔ Lts.Along (step c) (Apart c) s ls := by
  have hstart : Distinct s.made := by
    constructor
    · intro src; simp [hs.made_eq src]
    · intro src src' _; simp [hs.made_eq src]
  have hiff := Lts.inv_iff_along_of (J := fun x => Numbered c x ∧ Timed x) (I := fun x => Distinct x.made)
    (fun x a x' hJ ht hx => ⟨numbered_step hJ.1 hx, timed_step hJ.2 ht hx⟩)
    (fun x a x' hJ ht hx => distinct_step hJ.1 hJ.2 ht hx) ⟨numbered_initial hs, timed_initial hs⟩ hclock h
  exact hiff.trans (and_iff_right hstart)

/-- The stamps passed on are distinct when every reading is apart. -/
theorem nodup_out (hapart : Lts.Along (step c) (Apart c) s ls) : (s'.out.map (·.2)).Nodup := by
  rw [nodup_log_iff]
  exact ((distinct_run hs hclock h).2 hapart).sublist fun src => List.sublist_append_left ..

/-- When all stamps made have been passed on, they are distinct exactly when every reading was apart. -/
theorem nodup_out_iff (hheld : ∀ src, s'.held src = none) :
    (s'.out.map (·.2)).Nodup ↔ Lts.Along (step c) (Apart c) s ls := by
  have hmade : s'.made = fun src => (s'.out.filter (·.1 = src)).map (·.2) := by
    funext src
    simp [State.made, State.passed, hheld src]
  rw [nodup_log_iff, ← distinct_run hs hclock h, hmade]

end Run

end Apart

end Stamps
