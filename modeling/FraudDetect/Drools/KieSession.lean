/-
The one `KieSession` bean with the heap its facts live on: identity-based `insert`, the agenda of
pending activations, and `fireAllRules`, which runs the consequences of all pending activations in
an order the engine chooses. A consequence calls a plain setter, so firing adds no activation.
-/
import FraudDetect.Drools.Rules

namespace FraudDetect.Drools

/-- A fact and a rule it satisfied when it was inserted. -/
structure Activation where
  ref : Ref
  rule : Rule
deriving DecidableEq, Repr

/-- The activations of a fact. -/
def activations (h : Heap) (r : Ref) : List Activation := (matching (h.obj r)).map (⟨r, ·⟩)

theorem mem_activations {h : Heap} {r : Ref} {a : Activation} :
    a ∈ activations h r ↔ a.ref = r ∧ a.rule.when (h.obj r) = true := by
  unfold activations
  rw [List.mem_map]
  constructor
  · rintro ⟨rule, hm, rfl⟩; exact ⟨rfl, mem_matching.1 hm⟩
  · rintro ⟨rfl, hw⟩; exact ⟨a.rule, mem_matching.2 hw, rfl⟩

theorem activations_nodup (h : Heap) (r : Ref) : (activations h r).Nodup :=
  (matching_nodup _).map fun _ _ e => (Activation.mk.inj e).2

theorem activations_eq_nil {h : Heap} {r : Ref} : activations h r = [] ↔ flagged (h.obj r) = false := by
  unfold activations
  rw [List.map_eq_nil_iff, matching_eq_nil]

theorem activations_congr {h h' : Heap} {r : Ref} (e : (h'.obj r).SameButReason (h.obj r)) :
    activations h' r = activations h r := by
  unfold activations
  rw [matching_congr e]

/-- The working memory and the agenda of the session. `fired` and `shown` record the consequences
run so far and the texts they passed to `showResults.showText`. -/
structure KieSession where
  heap : Heap
  facts : List Ref
  agenda : List Activation
  fired : List Activation
  shown : List (List Operand)

namespace KieSession

/-- A new session: no fact, nothing pending. -/
def new : KieSession := ⟨Heap.empty, [], [], [], []⟩

/-- `kieSession.insert`: `null` and a fact already in working memory add nothing. -/
def insert (s : KieSession) : Option Ref → KieSession
  | none => s
  | some r =>
    if r ∈ s.facts then s
    else { s with facts := s.facts ++ [r], agenda := s.agenda ++ activations s.heap r }

/-- Runs the consequence of one activation. -/
def fire (s : KieSession) (a : Activation) : KieSession :=
  let t := (s.heap.obj a.ref).setFraudReason a.rule.reason
  { s with heap := s.heap.write a.ref t, fired := s.fired ++ [a], shown := s.shown ++ [a.rule.text t] }

/-- Fires `done` in order and leaves `rest` pending. -/
def fireThen (s : KieSession) (done rest : List Activation) : KieSession :=
  { done.foldl fire s with agenda := rest }

/-- `kieSession.fireAllRules` with the pending activations fired in the given order: the number of
rules fired and the session after. -/
def fireAllRules (s : KieSession) (order : List Activation) : Nat × KieSession :=
  (order.length, s.fireThen order [])

/-- `RuleEngineDrools.evaluate`. -/
def evaluate (s : KieSession) (transaction : Option Ref) (order : List Activation) : Bool × KieSession :=
  let (firedRules, s') := (s.insert transaction).fireAllRules order
  (decide (firedRules > 0), s')

/-! ## Insert -/

theorem insert_fresh {s : KieSession} {r : Ref} (h : r ∉ s.facts) :
    s.insert (some r) = { s with facts := s.facts ++ [r], agenda := s.agenda ++ activations s.heap r } :=
  if_neg h

@[simp] theorem insert_heap (s : KieSession) (o : Option Ref) : (s.insert o).heap = s.heap := by
  unfold insert
  split
  · rfl
  · split <;> rfl

/-! ## Firing -/

/-- The reason a list of consequences leaves in the object `r`: that of the last one about `r`. -/
def written : List Activation → Ref → Option String
  | [], _ => none
  | a :: rest, r => (written rest r).or (if a.ref = r then some a.rule.reason else none)

theorem written_isSome {r : Ref} : ∀ {done : List Activation},
    (written done r).isSome = true ↔ ∃ a ∈ done, a.ref = r
  | [] => by simp [written]
  | a :: rest => by
    rw [written, Option.isSome_or, Bool.or_eq_true, written_isSome, List.exists_mem_cons_iff, or_comm]
    by_cases h : a.ref = r <;> simp [h]

theorem written_eq_none {r : Ref} {done : List Activation} : written done r = none ↔ ∀ a ∈ done, a.ref ≠ r := by
  rw [← Option.not_isSome_iff_eq_none, written_isSome]
  simp

theorem written_append (r : Ref) (done' : List Activation) : ∀ done : List Activation,
    written (done ++ done') r = (written done' r).or (written done r)
  | [] => by simp [written]
  | a :: rest => by rw [List.cons_append, written, written, written_append r done' rest, Option.or_assoc]

theorem written_some {r : Ref} {reason : String} : ∀ {done : List Activation},
    written done r = some reason → ∃ a ∈ done, a.ref = r ∧ a.rule.reason = reason
  | [], h => by cases h
  | a :: rest, h => by
    rw [written, Option.or_eq_some_iff] at h
    rcases h with h | ⟨-, h⟩
    · obtain ⟨b, hb, e⟩ := written_some h
      exact ⟨b, List.mem_cons_of_mem _ hb, e⟩
    · by_cases hr : a.ref = r
      · rw [if_pos hr] at h; exact ⟨a, List.mem_cons_self .., hr, Option.some.inj h⟩
      · rw [if_neg hr] at h; cases h

/-- What firing a list of activations does. -/
structure Fired (s : KieSession) (done : List Activation) (s' : KieSession) : Prop where
  next : s'.heap.next = s.heap.next
  obj : ∀ r, s'.heap.obj r = (written done r).elim (s.heap.obj r) (s.heap.obj r).setFraudReason
  facts : s'.facts = s.facts
  fired : s'.fired = s.fired ++ done
  shown : s'.shown = s.shown ++ done.map fun a => a.rule.text (s.heap.obj a.ref)

theorem Fired.same {s s' : KieSession} {done : List Activation} (h : Fired s done s') (r : Ref) :
    (s'.heap.obj r).SameButReason (s.heap.obj r) := by
  rw [h.obj r]
  cases written done r with
  | none => exact .refl _
  | some x => exact Transaction.setFraudReason_same _ x

theorem Fired.grows {s s' : KieSession} {done : List Activation} (h : Fired s done s') :
    s.heap.Grows s'.heap :=
  ⟨h.next.ge, fun r _ => h.same r⟩

theorem fire_obj (s : KieSession) (a : Activation) (r : Ref) :
    (s.fire a).heap.obj r =
      if a.ref = r then (s.heap.obj r).setFraudReason a.rule.reason else s.heap.obj r := by
  unfold fire
  split
  · rename_i h; rw [← h]; exact Heap.write_obj_self ..
  · rename_i h; exact Heap.write_obj_of_ne _ _ (Ne.symm h)

theorem fire_same (s : KieSession) (a : Activation) (r : Ref) :
    ((s.fire a).heap.obj r).SameButReason (s.heap.obj r) := by
  rw [fire_obj]
  split
  · exact Transaction.setFraudReason_same ..
  · exact .refl _

theorem foldl_fire_spec : ∀ (done : List Activation) (s : KieSession), Fired s done (done.foldl fire s)
  | [], s => ⟨rfl, fun _ => rfl, rfl, by simp, by simp⟩
  | a :: rest, s => by
    have ih := foldl_fire_spec rest (s.fire a)
    refine ⟨ih.next, fun r => ?_, ih.facts, ?_, ?_⟩
    · rw [List.foldl_cons, ih.obj r, written, fire_obj]
      cases written rest r with
      | none => by_cases h : a.ref = r <;> simp [h]
      | some x =>
        -- the later consequence overwrites the reason the first one wrote
        by_cases h : a.ref = r <;> simp [h, Transaction.setFraudReason]
    · rw [List.foldl_cons, ih.fired]
      show (s.fired ++ [a]) ++ rest = s.fired ++ a :: rest
      simp
    · have hrest : ∀ b : Activation, b.rule.text ((s.fire a).heap.obj b.ref) = b.rule.text (s.heap.obj b.ref) :=
        fun b => text_congr (fire_same s a b.ref) b.rule
      rw [List.foldl_cons, ih.shown]
      show (s.shown ++ [_]) ++ _ = _
      simp only [hrest, text_congr (Transaction.setFraudReason_same ..), List.map_cons, List.append_assoc,
        List.singleton_append]

theorem fireThen_spec (s : KieSession) (done rest : List Activation) : Fired s done (s.fireThen done rest) := by
  obtain ⟨h1, h2, h3, h4, h5⟩ := foldl_fire_spec done s
  exact ⟨h1, h2, h3, h4, h5⟩

@[simp] theorem fireThen_agenda (s : KieSession) (done rest : List Activation) :
    (s.fireThen done rest).agenda = rest := rfl

end KieSession

end FraudDetect.Drools
