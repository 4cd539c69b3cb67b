/-
A queue that delivers at least once. A send puts one message on it; a sender that tries again sends another. A message
leaves it by a delete under the receipt of one of its deliveries, or when its retention ends. A received message that is
not deleted in time is available again, and so may be a deleted one, from a copy its delete did not reach. A message is
known by its number, a delivery by its receipt.
-/
import FraudDetect.Lib.Lts
import Mathlib.Logic.Function.Basic

namespace Queue

variable {α ρ : Type*}

/-! ## States and steps -/

inductive Status
  | visible
  | inFlight     -- received, and not deleted
  | deleted
  | expired
deriving DecidableEq, Repr

structure Delivery (ρ : Type*) where
  message : Nat
  receiver : ρ
deriving DecidableEq, Repr

/-- The queue, with its deliveries, the messages that became available again and the receipts whose deletes took
effect, oldest first. The receipt of a delivery is its place in `deliveries`. -/
structure State (α ρ : Type*) where
  sent : List α
  status : Nat → Status
  deliveries : List (Delivery ρ)
  reappeared : List Nat
  deletes : List Nat

inductive Action (α ρ : Type*)
  | send (a : α)
  | receive (message : Nat) (receiver : ρ)
  | delete (receipt : Nat)
  | reappear (message : Nat)
  | expire (message : Nat)

def new : State α ρ := ⟨[], fun _ => .visible, [], [], []⟩

/-- A delete does not bring back a message that has expired. -/
def Status.delete : Status → Status
  | expired => expired
  | _ => deleted

/-- The delivery is the last one of its message so far. -/
def State.isLast (q : State α ρ) (receipt : Nat) : Bool :=
  q.deliveries[receipt]?.any fun d => (q.deliveries.drop (receipt + 1)).all fun d' => d'.message ≠ d.message

/-- How often a message has been delivered. -/
def State.times (q : State α ρ) (i : Nat) : Nat := q.deliveries.countP (·.message = i)

def step (q : State α ρ) : Action α ρ → Option (State α ρ)
  | .send a => some { q with sent := q.sent ++ [a], status := Function.update q.status q.sent.length .visible }
  | .receive i r =>
    if i < q.sent.length ∧ q.status i = .visible then
      some { q with status := Function.update q.status i .inFlight, deliveries := q.deliveries ++ [⟨i, r⟩] }
    else none
  | .delete k => q.deliveries[k]?.map fun d =>
      { q with status := Function.update q.status d.message (q.status d.message).delete, deletes := q.deletes ++ [k] }
  | .reappear i =>
    if q.status i = .inFlight ∨ q.status i = .deleted then
      some { q with status := Function.update q.status i .visible, reappeared := q.reappeared ++ [i] }
    else none
  | .expire i =>
    if i < q.sent.length ∧ (q.status i = .visible ∨ q.status i = .inFlight) then
      some { q with status := Function.update q.status i .expired }
    else none

section

variable {q q' : State α ρ} {a : α} {r : ρ} {i k : Nat}

theorem step_send : step q (.send a) = some q' ↔
    q' = { q with sent := q.sent ++ [a], status := Function.update q.status q.sent.length .visible } := by
  simp [step, @eq_comm _ _ q']

theorem step_receive : step q (.receive i r) = some q' ↔ (i < q.sent.length ∧ q.status i = .visible) ∧
    q' = { q with status := Function.update q.status i .inFlight, deliveries := q.deliveries ++ [⟨i, r⟩] } := by
  simp [step, @eq_comm _ _ q']

theorem step_delete : step q (.delete k) = some q' ↔ ∃ d, q.deliveries[k]? = some d ∧
    q' = { q with status := Function.update q.status d.message (q.status d.message).delete,
                  deletes := q.deletes ++ [k] } := by
  simp [step, Option.map_eq_some_iff, @eq_comm _ _ q']

theorem step_reappear : step q (.reappear i : Action α ρ) = some q' ↔ (q.status i = .inFlight ∨ q.status i = .deleted) ∧
    q' = { q with status := Function.update q.status i .visible, reappeared := q.reappeared ++ [i] } := by
  simp [step, @eq_comm _ _ q']

theorem step_expire : step q (.expire i : Action α ρ) = some q' ↔
    (i < q.sent.length ∧ (q.status i = .visible ∨ q.status i = .inFlight)) ∧
      q' = { q with status := Function.update q.status i .expired } := by
  simp [step, @eq_comm _ _ q']

end

/-! ## The logs -/

def Action.sends : Action α ρ → List α
  | .send a => [a]
  | _ => []

def Action.receives : Action α ρ → List (Delivery ρ)
  | .receive i r => [⟨i, r⟩]
  | _ => []

def Action.deletes : Action α ρ → List Nat
  | .delete k => [k]
  | _ => []

/-- The logs after some actions: what they send, deliver and delete is appended. -/
structure Logs (as : List (Action α ρ)) (q q' : State α ρ) : Prop where
  sent : q'.sent = q.sent ++ as.flatMap Action.sends
  deliveries : q'.deliveries = q.deliveries ++ as.flatMap Action.receives
  deletes : q'.deletes = q.deletes ++ as.flatMap Action.deletes

theorem logs_step {q q' : State α ρ} {a : Action α ρ} (h : step q a = some q') : Logs [a] q q' := by
  cases a with
  | send a =>
    rw [step_send.1 h]
    constructor <;> simp [Action.sends, Action.receives, Action.deletes]
  | receive i r =>
    obtain ⟨-, rfl⟩ := step_receive.1 h
    constructor <;> simp [Action.sends, Action.receives, Action.deletes]
  | delete k =>
    obtain ⟨d, -, rfl⟩ := step_delete.1 h
    constructor <;> simp [Action.sends, Action.receives, Action.deletes]
  | reappear i =>
    obtain ⟨-, rfl⟩ := step_reappear.1 h
    constructor <;> simp [Action.sends, Action.receives, Action.deletes]
  | expire i =>
    obtain ⟨-, rfl⟩ := step_expire.1 h
    constructor <;> simp [Action.sends, Action.receives, Action.deletes]

theorem logs_run : ∀ {q q' : State α ρ} {as : List (Action α ρ)}, Lts.run step q as = some q' → Logs as q q'
  | q, _, [], h => by cases h; constructor <;> simp
  | q, q', a :: as, h => by
    obtain ⟨q₁, h1, h2⟩ := Lts.run_cons.1 h
    have hfirst := logs_step h1
    have hrest := logs_run h2
    constructor
    · rw [hrest.sent, hfirst.sent]; simp
    · rw [hrest.deliveries, hfirst.deliveries]; simp
    · rw [hrest.deletes, hfirst.deletes]; simp

theorem getElem?_of_prefix {β : Type*} {l l' : List β} {i : Nat} {b : β} (h : l <+: l') (hb : l[i]? = some b) :
    l'[i]? = some b := by
  obtain ⟨rest, rfl⟩ := h
  obtain ⟨hlt, -⟩ := List.getElem?_eq_some_iff.1 hb
  rw [List.getElem?_append_left hlt]
  exact hb

/-- Nothing that has been sent, delivered or deleted is forgotten. -/
structure Grows (q q' : State α ρ) : Prop where
  sent : q.sent <+: q'.sent
  deliveries : q.deliveries <+: q'.deliveries
  deletes : q.deletes <+: q'.deletes

theorem Logs.grows {q q' : State α ρ} {as : List (Action α ρ)} (h : Logs as q q') : Grows q q' :=
  ⟨⟨_, h.sent.symm⟩, ⟨_, h.deliveries.symm⟩, ⟨_, h.deletes.symm⟩⟩

theorem Grows.message {q q' : State α ρ} (h : Grows q q') {i : Nat} {a : α} (ha : q.sent[i]? = some a) :
    q'.sent[i]? = some a := getElem?_of_prefix h.sent ha

theorem Grows.delivery {q q' : State α ρ} (h : Grows q q') {k : Nat} {d : Delivery ρ} (hd : q.deliveries[k]? = some d) :
    q'.deliveries[k]? = some d := getElem?_of_prefix h.deliveries hd

/-! ## The invariant -/

/-- A message is delivered once, and once more each time it has become available again; only a delivered message is in
flight, and only one whose delete took effect is gone before its time. -/
structure Wf (q : State α ρ) : Prop where
  known : ∀ d ∈ q.deliveries, d.message < q.sent.length
  times : ∀ i, q.times i + (if q.status i = .visible then 1 else 0) ≤ q.reappeared.count i + 1
  inFlight : ∀ i, q.status i = .inFlight → ∃ d ∈ q.deliveries, d.message = i
  deleted : ∀ i, q.status i = .deleted → ∃ k ∈ q.deletes, ∃ d, q.deliveries[k]? = some d ∧ d.message = i

theorem wf_new : Wf (new : State α ρ) where
  known := nofun
  times _ := Nat.le_refl 1
  inFlight := nofun
  deleted := nofun

theorem times_append {q q' : State α ρ} {i : Nat} {r : ρ} (h : q'.deliveries = q.deliveries ++ [⟨i, r⟩]) (j : Nat) :
    q'.times j = q.times j + if i = j then 1 else 0 := by
  unfold State.times
  rw [h, List.countP_append, List.countP_singleton]
  simp

/-- A message that has not been sent has not been delivered. -/
theorem Wf.times_unsent {q : State α ρ} (hI : Wf q) : q.times q.sent.length = 0 := by
  apply List.countP_eq_zero.2
  intro d hd
  have hlt := hI.known d hd
  simp only [decide_eq_true_eq]
  omega

/-- A message is delivered no more often than once and once for each time it has become available again. -/
theorem Wf.times_le {q : State α ρ} (hI : Wf q) (i : Nat) : q.times i ≤ q.reappeared.count i + 1 :=
  Nat.le_of_add_right_le (hI.times i)

/-- The status of one message changes, and nothing is sent or delivered. -/
theorem wf_update {q q' : State α ρ} {i : Nat} {x : Status} (hI : Wf q) (hsent : q'.sent = q.sent)
    (hdeliveries : q'.deliveries = q.deliveries) (hstatus : q'.status = Function.update q.status i x)
    (htimes : q.times i + (if x = .visible then 1 else 0) ≤ q'.reappeared.count i + 1)
    (hothers : ∀ j, j ≠ i → q'.reappeared.count j = q.reappeared.count j) (hx : x ≠ .inFlight)
    (hdeletes : ∀ k ∈ q.deletes, k ∈ q'.deletes)
    (hgone : x = .deleted → ∃ k ∈ q'.deletes, ∃ d, q.deliveries[k]? = some d ∧ d.message = i) : Wf q' := by
  have hsame : ∀ j, q'.times j = q.times j := fun j => by unfold State.times; rw [hdeliveries]
  refine ⟨fun d hd => ?_, fun j => ?_, fun j hj => ?_, fun j hj => ?_⟩
  · rw [hdeliveries] at hd
    rw [hsent]
    exact hI.known d hd
  · rw [hsame, hstatus]
    by_cases hne : j = i
    · subst hne; rw [Function.update_self]; exact htimes
    · rw [Function.update_of_ne hne, hothers j hne]; exact hI.times j
  · rw [hdeliveries]
    rw [hstatus] at hj
    by_cases hne : j = i
    · subst hne; rw [Function.update_self] at hj; exact absurd hj hx
    · rw [Function.update_of_ne hne] at hj; exact hI.inFlight j hj
  · rw [hdeliveries]
    rw [hstatus] at hj
    by_cases hne : j = i
    · subst hne; rw [Function.update_self] at hj; exact hgone hj
    · rw [Function.update_of_ne hne] at hj
      obtain ⟨k, hk, hd⟩ := hI.deleted j hj
      exact ⟨k, hdeletes k hk, hd⟩

theorem wf_send {q : State α ρ} (hI : Wf q) (a : α) :
    Wf { q with sent := q.sent ++ [a], status := Function.update q.status q.sent.length .visible } := by
  have hold : ∀ {j : Nat} {x : Status}, x ≠ .visible →
      Function.update q.status q.sent.length .visible j = x → q.status j = x := by
    intro j x hx hj
    by_cases hne : j = q.sent.length
    · subst hne; rw [Function.update_self] at hj; exact absurd hj.symm hx
    · rwa [Function.update_of_ne hne] at hj
  refine ⟨fun d hd => ?_, fun j => ?_, fun j hj => hI.inFlight j (hold nofun hj), fun j hj => hI.deleted j (hold nofun hj)⟩
  · have hlt := hI.known d hd
    simp only [List.length_append, List.length_singleton]
    omega
  · show q.times j + (if Function.update q.status q.sent.length .visible j = .visible then 1 else 0) ≤ _
    by_cases hne : j = q.sent.length
    · subst hne
      rw [hI.times_unsent]
      split <;> omega
    · rw [Function.update_of_ne hne]
      exact hI.times j

/-- The delivery uses up the turn that the message being visible stood for. -/
theorem wf_receive {q : State α ρ} {i : Nat} (hI : Wf q) (hlt : i < q.sent.length) (hvisible : q.status i = .visible)
    (r : ρ) : Wf { q with status := Function.update q.status i .inFlight, deliveries := q.deliveries ++ [⟨i, r⟩] } := by
  refine ⟨fun d hd => ?_, fun j => ?_, fun j hj => ?_, fun j hj => ?_⟩
  · rcases List.mem_append.1 hd with hd | hd
    · exact hI.known d hd
    · rw [List.mem_singleton.1 hd]; exact hlt
  · have ht := hI.times j
    rw [times_append (q := q) rfl]
    by_cases hne : j = i
    · subst hne
      rw [if_pos hvisible] at ht
      simpa using ht
    · simp only [if_neg (Ne.symm hne), Function.update_of_ne hne, Nat.add_zero]
      exact ht
  · by_cases hne : j = i
    · exact ⟨_, List.mem_append_right _ (List.mem_singleton_self _), hne.symm⟩
    · change Function.update q.status i .inFlight j = _ at hj
      rw [Function.update_of_ne hne] at hj
      obtain ⟨d, hd, hm⟩ := hI.inFlight j hj
      exact ⟨d, List.mem_append_left _ hd, hm⟩
  · change Function.update q.status i .inFlight j = _ at hj
    by_cases hne : j = i
    · subst hne; rw [Function.update_self] at hj; cases hj
    · rw [Function.update_of_ne hne] at hj
      obtain ⟨k, hk, d, hd, hm⟩ := hI.deleted j hj
      exact ⟨k, hk, d, getElem?_of_prefix (List.prefix_append ..) hd, hm⟩

theorem wf_step {q q' : State α ρ} {a : Action α ρ} (hI : Wf q) (h : step q a = some q') : Wf q' := by
  cases a with
  | send a => rw [step_send.1 h]; exact wf_send hI a
  | receive i r =>
    obtain ⟨⟨hlt, hvisible⟩, rfl⟩ := step_receive.1 h
    exact wf_receive hI hlt hvisible r
  | delete k =>
    obtain ⟨d, hd, rfl⟩ := step_delete.1 h
    have hx : (q.status d.message).delete ≠ .visible ∧ (q.status d.message).delete ≠ .inFlight := by
      cases q.status d.message <;> exact ⟨nofun, nofun⟩
    refine wf_update hI rfl rfl rfl ?_ (fun _ _ => rfl) hx.2 (fun k' hk' => List.mem_append_left _ hk') fun _ =>
      ⟨k, List.mem_append_right _ (List.mem_singleton_self _), d, hd, rfl⟩
    rw [if_neg hx.1]
    exact hI.times_le _
  | reappear i =>
    obtain ⟨hgone, rfl⟩ := step_reappear.1 h
    have hvisible : q.status i ≠ .visible := by
      intro hv
      rcases hgone with hg | hg <;> rw [hv] at hg <;> cases hg
    refine wf_update hI rfl rfl rfl ?_ (fun j hj => ?_) nofun (fun _ hk => hk) nofun
    · have ht := hI.times i
      rw [if_neg hvisible] at ht
      rw [if_pos rfl, List.count_append, List.count_singleton_self]
      omega
    · rw [List.count_append, List.count_singleton, if_neg (by simpa using Ne.symm hj)]
      rfl
  | expire i =>
    obtain ⟨-, rfl⟩ := step_expire.1 h
    refine wf_update hI rfl rfl rfl ?_ (fun _ _ => rfl) nofun (fun _ hk => hk) nofun
    rw [if_neg nofun]
    exact hI.times_le i

theorem wf_run {q q' : State α ρ} {as : List (Action α ρ)} (hI : Wf q) (h : Lts.run step q as = some q') : Wf q' :=
  Lts.run_inv (fun _ _ _ hI hs => wf_step hI hs) hI h

/-! ## Deletes -/

/-- The status is the same, or a delete has changed it. -/
def Status.SameOrDeleted (x x' : Status) : Prop := x' = x ∨ (x ≠ .expired ∧ x' = .deleted)

theorem Status.SameOrDeleted.trans {x x' x'' : Status} (h : x.SameOrDeleted x') (h' : x'.SameOrDeleted x'') :
    x.SameOrDeleted x'' := by
  rcases h with rfl | ⟨hne, rfl⟩
  · exact h'
  · rcases h' with rfl | ⟨-, rfl⟩ <;> exact .inr ⟨hne, rfl⟩

theorem Status.SameOrDeleted.deleted {x x' : Status} (h : x.SameOrDeleted x') (hx : x = .deleted) : x' = .deleted := by
  rcases h with rfl | ⟨-, rfl⟩
  · exact hx
  · rfl

theorem Status.SameOrDeleted.expired_iff {x x' : Status} (h : x.SameOrDeleted x') : x' = .expired ↔ x = .expired := by
  rcases h with rfl | ⟨hne, rfl⟩
  · rfl
  · exact ⟨nofun, fun hx => absurd hx hne⟩

/-- Nothing is sent or delivered, and no message changes but to be deleted. -/
structure Deletes (q q' : State α ρ) : Prop where
  sent : q'.sent = q.sent
  deliveries : q'.deliveries = q.deliveries
  status : ∀ i, (q.status i).SameOrDeleted (q'.status i)

theorem Deletes.refl (q : State α ρ) : Deletes q q := ⟨rfl, rfl, fun _ => .inl rfl⟩

theorem Deletes.trans {q q' q'' : State α ρ} (h : Deletes q q') (h' : Deletes q' q'') : Deletes q q'' where
  sent := h'.sent.trans h.sent
  deliveries := h'.deliveries.trans h.deliveries
  status i := (h.status i).trans (h'.status i)

theorem deletes_step {q : State α ρ} {k : Nat} {x : Delivery ρ} (hk : q.deliveries[k]? = some x) :
    ∃ q', step q (.delete k) = some q' ∧ Deletes q q' ∧
      (q.status x.message ≠ .expired → q'.status x.message = .deleted) := by
  refine ⟨_, step_delete.2 ⟨x, hk, rfl⟩, ⟨rfl, rfl, fun i => ?_⟩, fun hne => ?_⟩
  · by_cases hi : i = x.message
    · subst hi
      simp only [Function.update_self]
      cases q.status x.message <;> simp [Status.delete, Status.SameOrDeleted]
    · exact .inl (Function.update_of_ne hi ..)
  · simp only [Function.update_self]
    cases hs : q.status x.message with
    | expired => exact absurd hs hne
    | _ => rfl

/-- Deletes under known receipts can be made, and each deletes its message unless that has expired. -/
theorem deletes_run : ∀ {q : State α ρ} {as : List (Action α ρ)},
    (∀ a ∈ as, ∃ k x, a = .delete k ∧ q.deliveries[k]? = some x) → ∃ q', Lts.run step q as = some q' ∧ Deletes q q' ∧
      ∀ k x, .delete k ∈ as → q.deliveries[k]? = some x → q.status x.message ≠ .expired → q'.status x.message = .deleted
  | q, [], _ => ⟨q, rfl, .refl q, nofun⟩
  | q, a :: as, h => by
    obtain ⟨⟨k, x, rfl, hk⟩, hrest⟩ := List.forall_mem_cons.1 h
    obtain ⟨q₁, hq₁, hd₁, hdeleted₁⟩ := deletes_step hk
    have hknown : ∀ a ∈ as, ∃ k x, a = .delete k ∧ q₁.deliveries[k]? = some x := by
      rw [hd₁.deliveries]
      exact hrest
    obtain ⟨q', hrun, hd, hdeleted⟩ := deletes_run hknown
    refine ⟨q', Lts.run_cons.2 ⟨q₁, hq₁, hrun⟩, hd₁.trans hd, fun k' x' hk' hx' hne => ?_⟩
    rcases List.mem_cons.1 hk' with he | hk'
    · cases he
      rw [hk] at hx'
      cases hx'
      exact (hd.status _).deleted (hdeleted₁ hne)
    · exact hdeleted k' x' hk' (by rw [hd₁.deliveries]; exact hx') fun he => hne ((hd₁.status _).expired_iff.1 he)

/-- Nothing is sent, and no message but `i` changes, save to be deleted. -/
structure Spares (i : Nat) (q q' : State α ρ) : Prop where
  sent : q'.sent = q.sent
  others : ∀ i', i' ≠ i → (q.status i').SameOrDeleted (q'.status i')

theorem Spares.trans {i : Nat} {q q' q'' : State α ρ} (h : Spares i q q') (h' : Spares i q' q'') : Spares i q q'' where
  sent := h'.sent.trans h.sent
  others i' hi' := (h.others i' hi').trans (h'.others i' hi')

theorem Deletes.spares {q q' : State α ρ} (h : Deletes q q') (i : Nat) : Spares i q q' :=
  ⟨h.sent, fun i' _ => h.status i'⟩

/-- Receiving a message, and its becoming available again, do nothing to the others. -/
theorem spares_step {i : Nat} {q q' : State α ρ} {a : Action α ρ} (ha : a = .reappear i ∨ ∃ r, a = .receive i r)
    (h : step q a = some q') : Spares i q q' := by
  rcases ha with rfl | ⟨r, rfl⟩
  · obtain ⟨-, rfl⟩ := step_reappear.1 h
    exact ⟨rfl, fun i' hi' => .inl (Function.update_of_ne hi' ..)⟩
  · obtain ⟨-, rfl⟩ := step_receive.1 h
    exact ⟨rfl, fun i' hi' => .inl (Function.update_of_ne hi' ..)⟩

end Queue
