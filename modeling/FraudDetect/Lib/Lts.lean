/-
Runs of a labelled transition system given by a partial step function: the state after a list of
labels, conditions on every step and on every state of a run, the induction rules for them, and
simulations by an abstraction function, which carry runs and conditions to another system.
-/
import Mathlib.Data.List.Forall2

namespace Lts

variable {σ τ ℓ κ : Type*}

/-! ## Runs -/

/-- The state after the labels; `none` as soon as a step is not enabled. -/
def run (step : σ → ℓ → Option σ) : σ → List ℓ → Option σ
  | s, [] => some s
  | s, l :: ls => (step s l).bind fun s' => run step s' ls

@[simp] theorem run_nil (step : σ → ℓ → Option σ) (s : σ) : run step s [] = some s := rfl

theorem run_cons {step : σ → ℓ → Option σ} {s s'' : σ} {l : ℓ} {ls : List ℓ} :
    run step s (l :: ls) = some s'' ↔ ∃ s', step s l = some s' ∧ run step s' ls = some s'' := by
  simp only [run, Option.bind_eq_some_iff]

theorem run_append {step : σ → ℓ → Option σ} : ∀ {s s'' : σ} {ls ls' : List ℓ},
    run step s (ls ++ ls') = some s'' ↔ ∃ s', run step s ls = some s' ∧ run step s' ls' = some s''
  | s, s'', [], ls' => by simp
  | s, s'', l :: ls, ls' => by
    simp only [List.cons_append, run_cons]
    constructor
    · rintro ⟨a, h, hr⟩
      obtain ⟨b, h1, h2⟩ := run_append.1 hr
      exact ⟨b, ⟨a, h, h1⟩, h2⟩
    · rintro ⟨b, ⟨a, h, h1⟩, h2⟩
      exact ⟨a, h, run_append.2 ⟨b, h1, h2⟩⟩

theorem run_single {step : σ → ℓ → Option σ} {s s' : σ} {l : ℓ} :
    run step s [l] = some s' ↔ step s l = some s' := by
  rw [run_cons]; simp

/-! ## Conditions on the steps and on the states of a run -/

/-- Every step of the run is taken in a state and with a label that `C` relates. -/
def Along (step : σ → ℓ → Option σ) (C : σ → ℓ → Prop) : σ → List ℓ → Prop
  | _, [] => True
  | s, l :: ls => C s l ∧ ∀ s', step s l = some s' → Along step C s' ls

/-- `P` holds in every state of the run, its first and last included. -/
def Always (step : σ → ℓ → Option σ) (P : σ → Prop) : σ → List ℓ → Prop
  | s, [] => P s
  | s, l :: ls => P s ∧ ∀ s', step s l = some s' → Always step P s' ls

@[simp] theorem along_nil (step : σ → ℓ → Option σ) (C : σ → ℓ → Prop) (s : σ) :
    Along step C s [] ↔ True := Iff.rfl

@[simp] theorem always_nil (step : σ → ℓ → Option σ) (P : σ → Prop) (s : σ) :
    Always step P s [] ↔ P s := Iff.rfl

theorem along_cons {step : σ → ℓ → Option σ} {C : σ → ℓ → Prop} {s s' : σ} {l : ℓ} {ls : List ℓ}
    (h : step s l = some s') : Along step C s (l :: ls) ↔ C s l ∧ Along step C s' ls := by
  simp [Along, h]

/-- A condition with a decision procedure can be tested along a run. -/
instance decidableAlong {step : σ → ℓ → Option σ} {C : σ → ℓ → Prop} [∀ s l, Decidable (C s l)] :
    ∀ (s : σ) (ls : List ℓ), Decidable (Along step C s ls)
  | _, [] => isTrue trivial
  | s, l :: ls =>
    match h : step s l with
    | some s' =>
      have : Decidable (Along step C s' ls) := decidableAlong s' ls
      decidable_of_iff (C s l ∧ Along step C s' ls) (along_cons h).symm
    | none => decidable_of_iff (C s l) ⟨fun hc => ⟨hc, fun s' hs => by rw [h] at hs; cases hs⟩, And.left⟩

theorem along_single {step : σ → ℓ → Option σ} {C : σ → ℓ → Prop} {s : σ} {l : ℓ} : Along step C s [l] ↔ C s l := by
  simp [Along]

theorem always_cons {step : σ → ℓ → Option σ} {P : σ → Prop} {s s' : σ} {l : ℓ} {ls : List ℓ}
    (h : step s l = some s') : Always step P s (l :: ls) ↔ P s ∧ Always step P s' ls := by
  simp [Always, h]

theorem along_append {step : σ → ℓ → Option σ} {C : σ → ℓ → Prop} :
    ∀ {s s' : σ} {ls ls' : List ℓ}, run step s ls = some s' →
      (Along step C s (ls ++ ls') ↔ Along step C s ls ∧ Along step C s' ls')
  | s, s', [], ls', h => by cases h; simp
  | s, s', l :: ls, ls', h => by
    obtain ⟨a, h1, h2⟩ := run_cons.1 h
    rw [List.cons_append, along_cons h1, along_cons h1, along_append h2, and_assoc]

theorem along_of_forall {step : σ → ℓ → Option σ} {C : σ → ℓ → Prop} :
    ∀ {s : σ} {ls : List ℓ}, (∀ l ∈ ls, ∀ s, C s l) → Along step C s ls
  | _, [], _ => trivial
  | s, l :: _, h => ⟨h l (List.mem_cons_self ..) s, fun s' _ =>
      along_of_forall (s := s') fun k hk => h k (List.mem_cons_of_mem _ hk)⟩

theorem along_and {step : σ → ℓ → Option σ} {C D : σ → ℓ → Prop} : ∀ {s : σ} {ls : List ℓ}, Along step C s ls →
    Along step D s ls → Along step (fun s l => C s l ∧ D s l) s ls
  | _, [], _, _ => trivial
  | _, _ :: _, hC, hD => ⟨⟨hC.1, hD.1⟩, fun s' h => along_and (hC.2 s' h) (hD.2 s' h)⟩

theorem along_true {step : σ → ℓ → Option σ} {s : σ} {ls : List ℓ} : Along step (fun _ _ => True) s ls :=
  along_of_forall fun _ _ _ => trivial

/-- Every state of a run is the end of the run over a prefix of its labels. -/
theorem always_iff {step : σ → ℓ → Option σ} {P : σ → Prop} : ∀ {s : σ} {ls : List ℓ},
    Always step P s ls ↔ ∀ ls', ls' <+: ls → ∀ s', run step s ls' = some s' → P s'
  | s, [] => by simp [List.prefix_nil]
  | s, l :: ls => by
    constructor
    · rintro ⟨hs, h⟩ ls' hp s' hr
      rcases List.prefix_cons_iff.1 hp with rfl | ⟨t, rfl, ht⟩
      · cases hr; exact hs
      · obtain ⟨a, h1, h2⟩ := run_cons.1 hr
        exact always_iff.1 (h a h1) t ht s' h2
    · intro h
      refine ⟨h [] (List.nil_prefix) s rfl, fun s' hs' => always_iff.2 fun ls' hp s'' hr => ?_⟩
      exact h (l :: ls') (List.prefix_cons_iff.2 (.inr ⟨ls', rfl, hp⟩)) s''
        (run_cons.2 ⟨s', hs', hr⟩)

/-! ## Induction over a run -/

/-- What every step satisfying `C` preserves holds at the end of a run all of whose steps
satisfy `C`. -/
theorem run_inv_along {step : σ → ℓ → Option σ} {C : σ → ℓ → Prop} {I : σ → Prop}
    (hstep : ∀ s l s', I s → C s l → step s l = some s' → I s') :
    ∀ {s s' : σ} {ls : List ℓ}, I s → Along step C s ls → run step s ls = some s' → I s'
  | _, _, [], hI, _, h => by cases h; exact hI
  | _, _, _ :: _, hI, hC, h => by
    obtain ⟨a, h1, h2⟩ := run_cons.1 h
    exact run_inv_along hstep (hstep _ _ _ hI hC.1 h1) (hC.2 a h1) h2

/-- A condition that implies another in the states its steps keep implies it along a run. -/
theorem along_of_along {step : σ → ℓ → Option σ} {C D : σ → ℓ → Prop} {J : σ → Prop}
    (hJ : ∀ s l s', J s → D s l → step s l = some s' → J s') (hDC : ∀ s l, J s → D s l → C s l) :
    ∀ {s : σ} {ls : List ℓ}, J s → Along step D s ls → Along step C s ls
  | _, [], _, _ => trivial
  | _, _ :: _, hj, hD =>
    ⟨hDC _ _ hj hD.1, fun s' h => along_of_along hJ hDC (hJ _ _ s' hj hD.1 h) (hD.2 s' h)⟩

/-- What every step preserves holds at the end of a run. -/
theorem run_inv {step : σ → ℓ → Option σ} {I : σ → Prop}
    (hstep : ∀ s l s', I s → step s l = some s' → I s') {s s' : σ} {ls : List ℓ}
    (hI : I s) (h : run step s ls = some s') : I s' :=
  run_inv_along (C := fun _ _ => True) (fun s l s' hI _ => hstep s l s' hI) hI
    along_true h

/-- An invariant of the state and the labels so far. -/
theorem run_inv_prefix {step : σ → ℓ → Option σ} {I : List ℓ → σ → Prop}
    (hstep : ∀ done s l s', I done s → step s l = some s' → I (done ++ [l]) s') :
    ∀ {s s' : σ} {ls done : List ℓ}, I done s → run step s ls = some s' → I (done ++ ls) s'
  | _, _, [], _, hI, h => by cases h; rwa [List.append_nil]
  | _, _, l :: ls, done, hI, h => by
    obtain ⟨a, h1, h2⟩ := run_cons.1 h
    have hrest := run_inv_prefix hstep (hstep done _ l a hI h1) h2
    rwa [List.append_assoc] at hrest

/-- Steps that pay for each label they count out of a measure take no more of these than it allows. -/
theorem countP_add_le {step : σ → ℓ → Option σ} {C : σ → ℓ → Prop} {I : σ → Prop} {p : ℓ → Bool} {μ : σ → Nat}
    (hstep : ∀ s l s', I s → C s l → step s l = some s' → I s')
    (hpay : ∀ s l s', I s → C s l → step s l = some s' → (if p l = true then 1 else 0) + μ s' ≤ μ s) :
    ∀ {s s' : σ} {ls : List ℓ}, I s → Along step C s ls → run step s ls = some s' → ls.countP p + μ s' ≤ μ s
  | _, _, [], _, _, h => by cases h; simp
  | _, _, _ :: _, hI, hC, h => by
    obtain ⟨a, h1, h2⟩ := run_cons.1 h
    have hfirst := hpay _ _ _ hI hC.1 h1
    have hle := countP_add_le hstep hpay (hstep _ _ _ hI hC.1 h1) (hC.2 a h1) h2
    rw [List.countP_cons]
    omega

/-- Steps that lower a measure make no longer runs than it allows. -/
theorem length_add_le {step : σ → ℓ → Option σ} {L : ℓ → Prop} {μ : σ → Nat}
    (hstep : ∀ s l s', L l → step s l = some s' → μ s' < μ s) {s s' : σ} {ls : List ℓ} (hL : ∀ l ∈ ls, L l)
    (h : run step s ls = some s') : ls.length + μ s' ≤ μ s := by
  have hcount := countP_add_le (C := fun _ l => L l) (I := fun _ => True) (p := fun _ => true) (μ := μ)
    (fun _ _ _ _ _ _ => trivial) (fun s l s' _ hl hs => ?_) trivial (along_of_forall fun l hl _ => hL l hl) h
  · rwa [List.countP_true] at hcount
  · rw [if_pos rfl, Nat.add_comm]
    exact hstep s l s' hl hs

/-- What steps satisfying `C` preserve holds in every state of a run whose steps satisfy `C`. -/
theorem always_of_along {step : σ → ℓ → Option σ} {C : σ → ℓ → Prop} {I : σ → Prop}
    (hstep : ∀ s l s', I s → C s l → step s l = some s' → I s') :
    ∀ {s : σ} {ls : List ℓ}, I s → Along step C s ls → Always step I s ls
  | _, [], hI, _ => hI
  | _, _ :: _, hI, hC => ⟨hI, fun s' h => always_of_along hstep (hstep _ _ _ hI hC.1 h) (hC.2 s' h)⟩

theorem Always.head {step : σ → ℓ → Option σ} {P : σ → Prop} : ∀ {s : σ} {ls : List ℓ}, Always step P s ls → P s
  | _, [], h => h
  | _, _ :: _, h => h.1

theorem Always.mono {step : σ → ℓ → Option σ} {P Q : σ → Prop} (hPQ : ∀ s, P s → Q s) :
    ∀ {s : σ} {ls : List ℓ}, Always step P s ls → Always step Q s ls
  | _, [], h => hPQ _ h
  | _, _ :: _, h => ⟨hPQ _ h.1, fun s' hs => (h.2 s' hs).mono hPQ⟩

/-- When a step satisfying `D` ends in `I` exactly if it started there and satisfies `C`, so does a run of such steps. -/
theorem inv_iff_along_of {step : σ → ℓ → Option σ} {C D : σ → ℓ → Prop} {J I : σ → Prop}
    (hJ : ∀ s l s', J s → D s l → step s l = some s' → J s')
    (hI : ∀ s l s', J s → D s l → step s l = some s' → (I s' ↔ I s ∧ C s l)) :
    ∀ {s s' : σ} {ls : List ℓ}, J s → Along step D s ls → run step s ls = some s' → (I s' ↔ I s ∧ Along step C s ls)
  | s, s', [], _, _, h => by cases h; simp
  | s, s', l :: ls, hj, hD, h => by
    obtain ⟨a, h1, h2⟩ := run_cons.1 h
    rw [inv_iff_along_of hJ hI (hJ _ _ _ hj hD.1 h1) (hD.2 a h1) h2, hI _ _ _ hj hD.1 h1, along_cons h1, and_assoc]

/-- When a step ends in `I` exactly if it started there and satisfies `C`, so does a run. -/
theorem inv_iff_along {step : σ → ℓ → Option σ} {C : σ → ℓ → Prop} {J I : σ → Prop}
    (hJ : ∀ s l s', J s → step s l = some s' → J s')
    (hI : ∀ s l s', J s → step s l = some s' → (I s' ↔ I s ∧ C s l)) {s s' : σ} {ls : List ℓ} (hj : J s)
    (h : run step s ls = some s') : I s' ↔ I s ∧ Along step C s ls :=
  inv_iff_along_of (D := fun _ _ => True) (fun s l s' hj _ => hJ s l s' hj) (fun s l s' hj _ => hI s l s' hj) hj
    along_true h

/-- When, in the states satisfying `J`, `C` says exactly which steps keep `I`, the runs that keep `I`
are those whose steps all satisfy `C`. -/
theorem always_iff_along {step : σ → ℓ → Option σ} {C : σ → ℓ → Prop} {J I : σ → Prop} {L : ℓ → Prop}
    (hJ : ∀ s l s', L l → J s → step s l = some s' → J s')
    (hI : ∀ s l s', L l → J s → I s → step s l = some s' → (I s' ↔ C s l)) :
    ∀ {s s' : σ} {ls : List ℓ}, (∀ l ∈ ls, L l) → J s → I s → run step s ls = some s' →
      (Always step I s ls ↔ Along step C s ls)
  | _, _, [], _, _, hs, _ => ⟨fun _ => trivial, fun _ => hs⟩
  | s, _, l :: ls, hL, hj, hs, h => by
    obtain ⟨a, h1, h2⟩ := run_cons.1 h
    obtain ⟨hl, hls⟩ := List.forall_mem_cons.1 hL
    have hstep := hI _ _ _ hl hj hs h1
    rw [always_cons h1, along_cons h1]
    constructor
    · rintro ⟨-, ha⟩
      exact ⟨hstep.1 ha.head, (always_iff_along hJ hI hls (hJ _ _ _ hl hj h1) ha.head h2).1 ha⟩
    · rintro ⟨hc, ha⟩
      have hi := hstep.2 hc
      exact ⟨hs, (always_iff_along hJ hI hls (hJ _ _ _ hl hj h1) hi h2).2 ha⟩

/-- A related pair of states stays related under two runs whose labels are related one by one. -/
theorem run_rel {step : σ → ℓ → Option σ} {step' : τ → κ → Option τ} {C : σ → ℓ → Prop}
    {R : σ → τ → Prop} {L : ℓ → κ → Prop}
    (hstep : ∀ s t l k s' t', R s t → L l k → C s l → step s l = some s' → step' t k = some t' → R s' t') :
    ∀ {s s' : σ} {t t' : τ} {ls : List ℓ} {ks : List κ}, R s t → List.Forall₂ L ls ks →
      Along step C s ls → run step s ls = some s' → run step' t ks = some t' → R s' t'
  | _, _, _, _, [], [], hR, _, _, h, h' => by cases h; cases h'; exact hR
  | _, _, _, _, _ :: _, _ :: _, hR, .cons hl hls, hC, h, h' => by
    obtain ⟨a, h1, h2⟩ := run_cons.1 h
    obtain ⟨b, h1', h2'⟩ := run_cons.1 h'
    exact run_rel hstep (hstep _ _ _ _ _ _ hR hl hC.1 h1 h1') hls (hC.2 a h1) h2 h2'

/-! ## Simulations -/

/-- `step` simulates into `step'` along `abs`: an admitted concrete step is a run of the abstract
system over the labels it stands for. -/
structure Simulation (step : σ → ℓ → Option σ) (step' : τ → κ → Option τ) where
  abs : σ → τ
  labels : σ → ℓ → List κ
  admits : σ → ℓ → Prop
  step_run : ∀ s l s', admits s l → step s l = some s' → run step' (abs s) (labels s l) = some (abs s')

namespace Simulation

variable {step : σ → ℓ → Option σ} {step' : τ → κ → Option τ}

/-- The abstract labels of a run. -/
def trace (S : Simulation step step') : σ → List ℓ → List κ
  | _, [] => []
  | s, l :: ls => S.labels s l ++ (step s l).elim [] fun s' => S.trace s' ls

theorem trace_cons (S : Simulation step step') {s s' : σ} {l : ℓ} (h : step s l = some s') (ls : List ℓ) :
    S.trace s (l :: ls) = S.labels s l ++ S.trace s' ls := by
  simp [trace, h]

/-- An abstract label of a run is one that some label of the run stands for. -/
theorem mem_trace (S : Simulation step step') {k : κ} : ∀ {s : σ} {ls : List ℓ}, k ∈ S.trace s ls →
    ∃ t, ∃ l ∈ ls, k ∈ S.labels t l
  | _, [], h => by cases h
  | s, l :: ls, h => by
    rcases List.mem_append.1 h with h | h
    · exact ⟨s, l, List.mem_cons_self .., h⟩
    · cases hs : step s l with
      | none => rw [hs] at h; cases h
      | some s' =>
        rw [hs] at h
        obtain ⟨t, l', hl', hk⟩ := S.mem_trace h
        exact ⟨t, l', List.mem_cons_of_mem _ hl', hk⟩

/-- A run of admitted steps is a run of the abstract system. -/
theorem run_trace (S : Simulation step step') : ∀ {s s' : σ} {ls : List ℓ},
    Along step S.admits s ls → run step s ls = some s' → run step' (S.abs s) (S.trace s ls) = some (S.abs s')
  | _, _, [], _, h => by cases h; rfl
  | _, _, _ :: _, hA, h => by
    obtain ⟨a, h1, h2⟩ := run_cons.1 h
    rw [S.trace_cons h1]
    exact run_append.2 ⟨S.abs a, S.step_run _ _ _ hA.1 h1, S.run_trace (hA.2 a h1) h2⟩

/-- A condition that concrete steps carry to the abstract steps they stand for holds along the
abstract run. -/
theorem along_trace (S : Simulation step step') {C : σ → ℓ → Prop} {D : τ → κ → Prop}
    (hCD : ∀ s l s', S.admits s l → C s l → step s l = some s' → Along step' D (S.abs s) (S.labels s l)) :
    ∀ {s s' : σ} {ls : List ℓ}, Along step S.admits s ls → Along step C s ls → run step s ls = some s' →
      Along step' D (S.abs s) (S.trace s ls)
  | _, _, [], _, _, _ => trivial
  | _, _, _ :: _, hA, hC, h => by
    obtain ⟨a, h1, h2⟩ := run_cons.1 h
    rw [S.trace_cons h1, along_append (S.step_run _ _ _ hA.1 h1)]
    exact ⟨hCD _ _ _ hA.1 hC.1 h1, S.along_trace hCD (hA.2 a h1) (hC.2 a h1) h2⟩

/-- A condition that a concrete step meets exactly when the abstract steps it stands for do is met along a run exactly
when it is along the abstract run. -/
theorem along_trace_iff (S : Simulation step step') {C : σ → ℓ → Prop} {D : τ → κ → Prop}
    (hCD : ∀ s l s', S.admits s l → step s l = some s' → (C s l ↔ Along step' D (S.abs s) (S.labels s l))) :
    ∀ {s s' : σ} {ls : List ℓ}, Along step S.admits s ls → run step s ls = some s' →
      (Along step C s ls ↔ Along step' D (S.abs s) (S.trace s ls))
  | _, _, [], _, _ => Iff.rfl
  | _, _, _ :: _, hA, h => by
    obtain ⟨a, h1, h2⟩ := run_cons.1 h
    rw [S.trace_cons h1, along_append (S.step_run _ _ _ hA.1 h1), along_cons h1, hCD _ _ _ hA.1 h1,
      S.along_trace_iff hCD (hA.2 a h1) h2]

end Simulation

end Lts
