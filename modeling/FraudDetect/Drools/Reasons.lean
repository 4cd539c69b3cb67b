/-
What the rule engine does to the `fraudReason` a transaction comes with: an object that satisfies no rule
keeps it, and an object that satisfies one has lost it as soon as none of its activations is pending. The
second is a statement about two engines that went through the same steps with objects that differ in
their reasons only; what such an object then has is the reason of a rule it satisfies.
-/
import FraudDetect.Drools.Invariant

namespace FraudDetect.Drools

/-! ## Objects that satisfy no rule -/

/-- `h'` may have more objects than `h`; those of `h` have changed in their reason at most, and not at all
if they satisfy no rule. -/
structure Heap.Keeps (h h' : Heap) : Prop extends h.Grows h' where
  clean : ∀ r < h.next, flagged (h.obj r) = false → h'.obj r = h.obj r

/-- The reason is all that was missing. -/
theorem Transaction.SameButReason.eq_setFraudReason {t u : Transaction} (h : u.SameButReason t) {reason : String}
    (hu : u.fraudReason = some reason) : u = t.setFraudReason reason := by
  obtain ⟨h1, h2, h3, h4⟩ := h
  obtain ⟨id, amount, accountId, timestamp, fraudReason⟩ := u
  obtain ⟨id', amount', accountId', timestamp', fraudReason'⟩ := t
  cases h1; cases h2; cases h3; cases h4; cases hu
  rfl

namespace Engine

variable {n : Nat} {e e' f : Engine n} {w : Fin n} {o : Option Ref} {done rest : List Activation}

/-- What a step of worker `w` does for the others: it keeps the facts and the objects, and what it makes
pending is not about an old fact. -/
structure Evolves (w : Fin n) (e e' : Engine n) : Prop where
  keeps : e.heap.Keeps e'.heap
  facts : ∀ r ∈ e.session.facts, r ∈ e'.session.facts
  agenda : ∀ a ∈ e'.session.agenda, a ∈ e.session.agenda ∨ a.ref ∉ e.session.facts
  phase : ∀ v, v ≠ w → e'.phase v = e.phase v

theorem Evolves.refl (w : Fin n) (e : Engine n) : Evolves w e e :=
  ⟨⟨.refl _, fun _ _ _ => rfl⟩, fun _ hr => hr, fun _ ha => .inl ha, fun _ _ => rfl⟩

theorem evolves_call (e : Engine n) (w : Fin n) (t : Option Transaction) : Evolves w e (e.call w t) := by
  have hphase : ∀ v, v ≠ w → (e.call w t).phase v = e.phase v := fun v hv => call_phase_of_ne e t hv
  cases t with
  | none => exact ⟨⟨.refl _, fun _ _ _ => rfl⟩, fun _ hr => hr, fun _ ha => .inl ha, hphase⟩
  | some t =>
    exact ⟨⟨Heap.alloc_grows .., fun r hr _ => Heap.alloc_obj_of_lt _ _ hr⟩, fun _ hr => hr, fun _ ha => .inl ha, hphase⟩

theorem evolves_insert (h : Objects e) (hw : e.phase w = .called o) : Evolves w e (e.insert w o) := by
  have hphase : ∀ v, v ≠ w → (e.insert w o).phase v = e.phase v := fun v hv => insert_phase_of_ne e o hv
  have hheap : (e.insert w o).heap = e.heap := KieSession.insert_heap ..
  have hkeeps : e.heap.Keeps (e.insert w o).heap := by
    rw [hheap]
    exact ⟨.refl _, fun _ _ _ => rfl⟩
  cases o with
  | none => exact ⟨hkeeps, fun _ hr => hr, fun _ ha => .inl ha, hphase⟩
  | some r₀ =>
    refine ⟨hkeeps, ?_, ?_, hphase⟩
    · intro r hr
      rw [h.insert_eq hw]
      exact List.mem_append_left _ hr
    · intro a ha
      rw [h.insert_eq hw] at ha
      rcases List.mem_append.1 ha with ha | ha
      · exact .inl ha
      · rw [(mem_activations.1 ha).1]
        exact .inr (h.calledNew w r₀ hw)

/-- Every consequence writes to an object that satisfies a rule. -/
theorem evolves_fireThen (h : Objects e) (hp : (done ++ rest).Perm e.session.agenda)
    (he : e'.session = e.session.fireThen done rest) (hphase : e'.phase = Function.update e.phase w .idle) :
    Evolves w e e' := by
  have hf := KieSession.fireThen_spec e.session done rest
  rw [← he] at hf
  refine ⟨⟨hf.grows, fun r _ hclean => ?_⟩, ?_, ?_, ?_⟩
  · have hnone : KieSession.written done r = none := by
      apply KieSession.written_eq_none.2
      rintro a ha rfl
      obtain ⟨-, hwhen⟩ := h.agendaFact a (hp.mem_iff.1 (List.mem_append_left _ ha))
      have hflag : flagged (e.heap.obj a.ref) = true := flagged_iff.2 ⟨a.rule, hwhen⟩
      rw [hclean] at hflag
      cases hflag
    rw [heap, hf.obj r, hnone]
    rfl
  · intro r hr
    rw [hf.facts]
    exact hr
  · intro a ha
    rw [he, KieSession.fireThen_agenda] at ha
    exact .inl (hp.mem_iff.1 (List.mem_append_right _ ha))
  · intro v hv
    rw [hphase, Function.update_of_ne hv]

/-! ## Two engines -/

/-- `null` twice, or two transactions that differ in their reason at most. -/
inductive SameArgument : Option Transaction → Option Transaction → Prop
  | null : SameArgument none none
  | transaction (x y : Transaction) (h : y.SameButReason x) : SameArgument (some x) (some y)

theorem SameArgument.refl : ∀ t : Option Transaction, SameArgument t t
  | none => .null
  | some x => .transaction x x (.refl x)

/-- The two engines differ in the reasons of their objects only, and not in those of a fact that satisfies
a rule and has no activation pending. -/
structure SameRun (e f : Engine n) : Prop where
  phase : f.phase = e.phase
  next : f.heap.next = e.heap.next
  facts : f.session.facts = e.session.facts
  agenda : f.session.agenda = e.session.agenda
  same : ∀ r, (f.heap.obj r).SameButReason (e.heap.obj r)
  settled : ∀ r ∈ e.session.facts, flagged (e.heap.obj r) = true → (∀ a ∈ e.session.agenda, a.ref ≠ r) →
    f.heap.obj r = e.heap.obj r

theorem SameRun.refl (e : Engine n) : SameRun e e := ⟨rfl, rfl, rfl, rfl, fun _ => .refl _, fun _ _ _ _ => rfl⟩

theorem sameRun_call {t u : Option Transaction} (hs : SameRun e f) (h : Objects e)
    (htu : SameArgument t u) : SameRun (e.call w t) (f.call w u) := by
  rcases htu with _ | ⟨x, y, hxy⟩
  · refine ⟨?_, hs.next, hs.facts, hs.agenda, hs.same, hs.settled⟩
    show Function.update f.phase w _ = Function.update e.phase w _
    rw [hs.phase]
  · refine ⟨?_, ?_, hs.facts, hs.agenda, ?_, ?_⟩
    · show Function.update f.phase w (.called (some f.heap.next)) = Function.update e.phase w (.called (some e.heap.next))
      rw [hs.phase, hs.next]
    · show f.heap.next + 1 = e.heap.next + 1
      rw [hs.next]
    · intro r
      show ((f.heap.alloc y).obj r).SameButReason ((e.heap.alloc x).obj r)
      by_cases hr : r = e.heap.next
      · rw [hr, Heap.alloc_obj_self, ← hs.next, Heap.alloc_obj_self]
        exact hxy
      · rw [Heap.alloc_obj_of_ne _ _ hr, Heap.alloc_obj_of_ne _ _ (by rw [hs.next]; exact hr)]
        exact hs.same r
    · intro r hr hflag hag
      have hlt : r < e.heap.next := h.factsLt r hr
      have he : (e.heap.alloc x).obj r = e.heap.obj r := Heap.alloc_obj_of_lt _ _ hlt
      have hf : (f.heap.alloc y).obj r = f.heap.obj r := Heap.alloc_obj_of_lt _ _ (by rw [hs.next]; exact hlt)
      show (f.heap.alloc y).obj r = (e.heap.alloc x).obj r
      have hflag' : flagged ((e.heap.alloc x).obj r) = true := hflag
      rw [he] at hflag'
      rw [he, hf]
      exact hs.settled r hr hflag' hag

theorem sameRun_insert (hs : SameRun e f) (h : Objects e) (hw : e.phase w = .called o) :
    SameRun (e.insert w o) (f.insert w o) := by
  have hphase : (f.insert w o).phase = (e.insert w o).phase := by
    show Function.update f.phase w _ = Function.update e.phase w _
    rw [hs.phase]
  cases o with
  | none => exact ⟨hphase, hs.next, hs.facts, hs.agenda, hs.same, hs.settled⟩
  | some r₀ =>
    have he := h.insert_eq hw
    have hf : (f.insert w (some r₀)).session =
        { f.session with facts := f.session.facts ++ [r₀], agenda := f.session.agenda ++ activations f.heap r₀ } := by
      apply KieSession.insert_fresh
      rw [hs.facts]
      exact h.calledNew w r₀ hw
    have hact : activations f.heap r₀ = activations e.heap r₀ := activations_congr (hs.same r₀)
    refine ⟨hphase, ?_, ?_, ?_, ?_, ?_⟩
    · rw [heap, heap, he, hf]; exact hs.next
    · rw [he, hf, hs.facts]
    · rw [he, hf, hs.agenda, hact]
    · rw [heap, heap, he, hf]; exact hs.same
    · intro r hr hflag hag
      rw [heap, he] at hflag
      rw [he] at hr hag
      rw [heap, heap, he, hf]
      rcases List.mem_append.1 hr with hr | hr
      · exact hs.settled r hr hflag fun a ha => hag a (List.mem_append_left _ ha)
      · -- a new fact that satisfies a rule has an activation pending
        rw [List.mem_singleton.1 hr] at hflag hag
        obtain ⟨rule, hwhen⟩ := flagged_iff.1 hflag
        exact absurd rfl (hag ⟨r₀, rule⟩ (List.mem_append_right _ (mem_activations.2 ⟨rfl, hwhen⟩)))

/-- Firing the same activations writes the same reasons. -/
theorem sameRun_fireThen {e' f' : Engine n} (hs : SameRun e f) (hp : (done ++ rest).Perm e.session.agenda)
    (he : e'.session = e.session.fireThen done rest) (hf : f'.session = f.session.fireThen done rest)
    (hphase : f'.phase = e'.phase) : SameRun e' f' := by
  have hfe := KieSession.fireThen_spec e.session done rest
  have hff := KieSession.fireThen_spec f.session done rest
  rw [← he] at hfe
  rw [← hf] at hff
  refine ⟨hphase, ?_, ?_, ?_, ?_, ?_⟩
  · rw [heap, heap, hfe.next, hff.next]; exact hs.next
  · rw [hfe.facts, hff.facts]; exact hs.facts
  · rw [he, hf]; rfl
  · intro r
    exact ((hff.same r).trans (hs.same r)).trans (hfe.same r).symm
  · intro r hr hflag hag
    rw [hfe.facts] at hr
    rw [he, KieSession.fireThen_agenda] at hag
    have hflag' : flagged (e.heap.obj r) = true := (flagged_congr (hfe.same r)).symm.trans hflag
    rw [heap, heap, hfe.obj r, hff.obj r]
    cases hw : KieSession.written done r with
    | some reason => exact (hs.same r).setFraudReason_eq reason
    | none =>
      apply hs.settled r hr hflag'
      intro a ha
      rcases List.mem_append.1 (hp.mem_iff.2 ha) with ha | ha
      · exact KieSession.written_eq_none.1 hw a ha
      · exact hag a ha

/-! ## The reasons given -/

/-- A fact that satisfies a rule and has no activation pending has the reason of a rule that it satisfies. -/
def Explained (e : Engine n) : Prop :=
  ∀ r ∈ e.session.facts, flagged (e.heap.obj r) = true → (∀ a ∈ e.session.agenda, a.ref ≠ r) →
    ∃ rule : Rule, rule.when (e.heap.obj r) = true ∧ (e.heap.obj r).fraudReason = some rule.reason

theorem explained_new : Explained (new n) := nofun

theorem explained_call {t : Option Transaction} (hI : Explained e) (h : Objects e) : Explained (e.call w t) := by
  cases t with
  | none => exact hI
  | some t =>
    intro r hr hflag hag
    have hobj : (e.call w (some t)).heap.obj r = e.heap.obj r := Heap.alloc_obj_of_lt _ _ (h.factsLt r hr)
    rw [hobj] at hflag ⊢
    exact hI r hr hflag hag

theorem explained_insert (hI : Explained e) (h : Objects e) (hw : e.phase w = .called o) : Explained (e.insert w o) := by
  cases o with
  | none => exact hI
  | some r₀ =>
    have hs := h.insert_eq hw
    intro r hr hflag hag
    rw [heap, hs] at hflag ⊢
    rw [hs] at hr hag
    rcases List.mem_append.1 hr with hr | hr
    · exact hI r hr hflag fun a ha => hag a (List.mem_append_left _ ha)
    · rw [List.mem_singleton.1 hr] at hflag hag
      obtain ⟨rule, hwhen⟩ := flagged_iff.1 hflag
      exact absurd rfl (hag ⟨r₀, rule⟩ (List.mem_append_right _ (mem_activations.2 ⟨rfl, hwhen⟩)))

/-- The last consequence about an object writes the reason of a rule it satisfies, whoever fires it. -/
theorem explained_fireThen (hI : Explained e) (h : Objects e) (hp : (done ++ rest).Perm e.session.agenda)
    (he : e'.session = e.session.fireThen done rest) : Explained e' := by
  have hf := KieSession.fireThen_spec e.session done rest
  rw [← he] at hf
  intro r hr hflag hag
  rw [hf.facts] at hr
  rw [he, KieSession.fireThen_agenda] at hag
  have hobj := hf.obj r
  cases hw : KieSession.written done r with
  | some reason =>
    rw [hw] at hobj
    obtain ⟨a, ha, rfl, rfl⟩ := KieSession.written_some hw
    obtain ⟨-, hwhen⟩ := h.agendaFact a (hp.mem_iff.1 (List.mem_append_left _ ha))
    refine ⟨a.rule, (when_congr (hf.same a.ref) a.rule).trans hwhen, ?_⟩
    rw [heap, hobj]
    rfl
  | none =>
    rw [hw] at hobj
    have hsame : e'.heap.obj r = e.heap.obj r := hobj
    rw [hsame] at hflag ⊢
    refine hI r hr hflag fun a ha => ?_
    rcases List.mem_append.1 (hp.mem_iff.2 ha) with ha | ha
    · exact KieSession.written_eq_none.1 hw a ha
    · exact hag a ha

end Engine

end FraudDetect.Drools
