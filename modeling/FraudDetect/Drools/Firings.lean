/-
Rule firings are conserved: whatever the interleaving, the counts returned so far and the pending
activations add up to the matches of the transactions inserted, and once all calls have returned
every match has run its consequence exactly once, whichever call got the credit. The transactions are
those passed to `evaluate` in the run, and each is left with the reason of the last consequence run for it.
-/
import FraudDetect.Drools.Callers

namespace FraudDetect.Drools

/-! ## The transactions passed to `evaluate` -/

/-- The transaction of a call, unless it is `null`. -/
def EngineAction.transaction? {n : Nat} : EngineAction n → Option Transaction
  | .call _ t => t
  | _ => none

/-- The transactions passed to `evaluate` in a run, oldest first: object `r` is the `r`-th of them. -/
def passed {n : Nat} (ls : List (EngineAction n)) : List Transaction := ls.filterMap EngineAction.transaction?

/-- How many rules the `r`-th of some transactions satisfies. -/
def matchCount (ts : List Transaction) (r : Ref) : Nat := ts[r]?.elim 0 fun t => (matching t).length

namespace Engine

variable {n : Nat}

/-- The objects are the transactions passed, each with the reason of the last consequence run for it, and each is a
fact or on its way to become one. -/
structure Recorded (ls : List (EngineAction n)) (e : Engine n) : Prop where
  next : e.heap.next = (passed ls).length
  fields : ∀ r t, (passed ls)[r]? = some t → (e.heap.obj r).SameButReason t
  reason : ∀ r t, (passed ls)[r]? = some t →
    (e.heap.obj r).fraudReason = (KieSession.written e.session.fired r).or t.fraudReason
  placed : ∀ r < e.heap.next, r ∈ e.session.facts ∨ ∃ w, e.phase w = .called (some r)

theorem recorded_new : Recorded [] (new n) := ⟨rfl, nofun, nofun, nofun⟩

section

variable {e e' : Engine n} {done : List (EngineAction n)} {w : Fin n}

/-- A step that passes nothing to `evaluate` and leaves the objects alone. -/
theorem Recorded.keep {a : EngineAction n} (hI : Recorded done e) (ha : a.transaction? = none)
    (hheap : e'.heap = e.heap) (hfired : e'.session.fired = e.session.fired)
    (hplaced : ∀ r < e.heap.next, r ∈ e'.session.facts ∨ ∃ w, e'.phase w = .called (some r)) :
    Recorded (done ++ [a]) e' := by
  have hpassed : passed (done ++ [a]) = passed done := by simp [passed, ha]
  refine ⟨?_, ?_, ?_, ?_⟩
  · rw [hpassed, hheap]; exact hI.next
  · rw [hpassed, hheap]; exact hI.fields
  · rw [hpassed, hheap, hfired]; exact hI.reason
  · rw [hheap]; exact hplaced

/-- A call on its way stays on its way when another worker takes a step. -/
theorem called_of_ne {r : Ref} (hw : e.phase w ≠ .called (some r)) (hne : ∀ v, v ≠ w → e'.phase v = e.phase v)
    (h : ∃ v, e.phase v = .called (some r)) : ∃ v, e'.phase v = .called (some r) := by
  obtain ⟨v, hv⟩ := h
  refine ⟨v, (hne v ?_).trans hv⟩
  rintro rfl
  exact hw hv

/-- No consequence has been run for the next object. -/
theorem Wf.written_next (h : Wf e) : KieSession.written e.session.fired e.heap.next = none := by
  apply KieSession.written_eq_none.2
  intro a ha
  exact Nat.ne_of_lt (h.factsLt _ (h.activation (.inl ha)).1)

theorem recorded_call (hwf : Wf e) (hI : Recorded done e) (hw : e.phase w = .idle) (t : Option Transaction) :
    Recorded (done ++ [.call w t]) (e.call w t) := by
  have hcalled : ∀ r, (∃ v, e.phase v = .called (some r)) → ∃ v, (e.call w t).phase v = .called (some r) :=
    fun r => called_of_ne (by rw [hw]; nofun) fun v hv => call_phase_of_ne e t hv
  cases t with
  | none => exact hI.keep rfl rfl rfl fun r hr => (hI.placed r hr).imp id (hcalled r)
  | some t =>
    have hpassed : passed (done ++ [.call w (some t)]) = passed done ++ [t] := by simp [passed, EngineAction.transaction?]
    -- the objects there were are those below `next`; the new one is the transaction passed
    have hobj : ∀ r u, (passed done ++ [t])[r]? = some u →
        ((passed done)[r]? = some u ∧ (e.heap.alloc t).obj r = e.heap.obj r) ∨ (r = e.heap.next ∧ u = t) := by
      intro r u hu
      rw [hI.next]
      rcases Nat.lt_trichotomy r (passed done).length with hr | hr | hr
      · rw [List.getElem?_append_left hr] at hu
        exact .inl ⟨hu, Heap.alloc_obj_of_lt _ _ (by rw [hI.next]; exact hr)⟩
      · subst hr
        rw [List.getElem?_concat_length] at hu
        exact .inr ⟨rfl, (Option.some.inj hu).symm⟩
      · rw [List.getElem?_eq_none (by rw [List.length_append, List.length_singleton]; omega)] at hu
        cases hu
    refine ⟨?_, ?_, ?_, ?_⟩
    · rw [hpassed, List.length_append, ← hI.next]
      rfl
    · rw [hpassed]
      intro r u hu
      show ((e.heap.alloc t).obj r).SameButReason u
      rcases hobj r u hu with ⟨hu, he⟩ | ⟨rfl, rfl⟩
      · rw [he]; exact hI.fields r u hu
      · rw [Heap.alloc_obj_self]; exact .refl _
    · rw [hpassed]
      intro r u hu
      show ((e.heap.alloc t).obj r).fraudReason = (KieSession.written e.session.fired r).or u.fraudReason
      rcases hobj r u hu with ⟨hu, he⟩ | ⟨rfl, rfl⟩
      · rw [he]; exact hI.reason r u hu
      · rw [Heap.alloc_obj_self, hwf.written_next, Option.none_or]
    · intro r hr
      have hr' : r < e.heap.next + 1 := hr
      rcases Nat.lt_succ_iff_lt_or_eq.1 hr' with hr | rfl
      · exact (hI.placed r hr).imp id (hcalled r)
      · exact .inr ⟨w, call_phase_self ..⟩

theorem recorded_insert {o : Option Ref} (hwf : Wf e) (hI : Recorded done e) (hw : e.phase w = .called o) :
    Recorded (done ++ [.insert w]) (e.insert w o) := by
  cases o with
  | none =>
    refine hI.keep rfl (KieSession.insert_heap ..) rfl fun r hr => (hI.placed r hr).imp id ?_
    exact called_of_ne (by rw [hw]; nofun) fun v hv => insert_phase_of_ne e none hv
  | some r₀ =>
    have hs := hwf.insert_eq hw
    refine hI.keep rfl (KieSession.insert_heap ..) (by rw [hs]) fun r hr => ?_
    rw [hs]
    by_cases hr₀ : r = r₀
    · exact .inl (by rw [hr₀]; exact List.mem_append_right _ (List.mem_singleton_self _))
    · refine (hI.placed r hr).imp (List.mem_append_left _) ?_
      refine called_of_ne ?_ fun v hv => insert_phase_of_ne e _ hv
      rw [hw]
      exact fun h => hr₀ (Option.some.inj (Phase.called.inj h)).symm

theorem recorded_fireAllRules {o : Option Ref} {order : List Activation} (hI : Recorded done e)
    (hw : e.phase w = .inserted o) : Recorded (done ++ [.fireAllRules w order]) (e.fireAllRules w o order) := by
  have hf := KieSession.fireThen_spec e.session order []
  have hpassed : passed (done ++ [.fireAllRules w order]) = passed done := by simp [passed, EngineAction.transaction?]
  refine ⟨?_, ?_, ?_, ?_⟩
  · rw [hpassed]; exact hf.next.trans hI.next
  · rw [hpassed]
    intro r t ht
    exact (hf.same r).trans (hI.fields r t ht)
  · rw [hpassed]
    intro r t ht
    show ((e.session.fireThen order []).heap.obj r).fraudReason =
      (KieSession.written (e.session.fireThen order []).fired r).or t.fraudReason
    rw [hf.fired, KieSession.written_append, hf.obj r, Option.or_assoc]
    cases KieSession.written order r with
    | none => exact hI.reason r t ht
    | some reason => rfl
  · intro r hr
    have hr' : r < e.heap.next := hf.next.symm ▸ hr
    refine (hI.placed r hr').imp (fun h => ?_) ?_
    · show r ∈ (e.session.fireThen order []).facts
      rw [hf.facts]
      exact h
    · exact called_of_ne (by rw [hw]; nofun) fun v hv => fireAllRules_phase_of_ne e o order hv

theorem recorded_step {a : EngineAction n} (hwf : Wf e) (hI : Recorded done e) (h : e.step a = some e') :
    Recorded (done ++ [a]) e' := by
  cases a with
  | call w t => obtain ⟨hw, rfl⟩ := step_call.1 h; exact recorded_call hwf hI hw t
  | insert w => obtain ⟨o, hw, rfl⟩ := step_insert.1 h; exact recorded_insert hwf hI hw
  | fireAllRules w order => obtain ⟨o, hw, -, rfl⟩ := step_fireAllRules.1 h; exact recorded_fireAllRules hI hw

end

theorem recorded_run {e : Engine n} {ls : List (EngineAction n)} (h : Lts.run step (new n) ls = some e) :
    Recorded ls e := by
  have hinv := Lts.run_inv_prefix (I := fun done x => Wf x ∧ Recorded (n := n) done x)
    (fun done x a x' hI hs => ⟨wf_step a hI.1 hs, recorded_step hI.1 hI.2 hs⟩) ⟨wf_new, recorded_new⟩ h
  exact hinv.2

/-- Once all calls have returned, every transaction passed is a fact. -/
theorem Recorded.facts_idle {e : Engine n} {ls : List (EngineAction n)} (hI : Recorded ls e) (hwf : Wf e)
    (hidle : ∀ w, e.phase w = .idle) : e.session.facts.Perm (List.range (passed ls).length) := by
  rw [List.perm_ext_iff_of_nodup hwf.factsNodup List.nodup_range]
  intro r
  rw [List.mem_range, ← hI.next]
  constructor
  · exact hwf.factsLt r
  · intro hr
    rcases hI.placed r hr with h | ⟨w, hw⟩
    · exact h
    · rw [hidle w] at hw
      cases hw

/-! ## The account -/

/-- No activation is created twice. -/
theorem Wf.ledger_nodup {e : Engine n} (h : Wf e) : (e.session.fired ++ e.session.agenda).Nodup := by
  rw [h.ledger.nodup_iff, List.nodup_flatMap]
  refine ⟨fun r _ => activations_nodup _ _, h.factsNodup.imp ?_⟩
  intro r r' hne a ha ha'
  exact hne ((mem_activations.1 ha).1.symm.trans (mem_activations.1 ha').1)

/-- The consequences run and the pending activations are the matches of the facts. -/
theorem Wf.mem_ledger {e : Engine n} (h : Wf e) (a : Activation) :
    a ∈ e.session.fired ++ e.session.agenda ↔
      a.ref ∈ e.session.facts ∧ a.rule.when (e.heap.obj a.ref) = true := by
  constructor
  · intro ha; exact h.activation (List.mem_append.1 ha)
  · rintro ⟨hr, hw⟩
    exact h.ledger.mem_iff.2 (List.mem_flatMap.2 ⟨a.ref, hr, mem_activations.2 ⟨rfl, hw⟩⟩)

theorem Wf.counts_ledger {e : Engine n} (h : Wf e) :
    (e.returned.map Return.firedRules).sum + e.session.agenda.length =
      (e.session.facts.map fun r => (matching (e.heap.obj r)).length).sum := by
  have hlen := h.ledger.length_eq
  rw [List.length_append, List.length_flatMap] at hlen
  rw [h.counts, hlen]
  simp only [activations, List.length_map]

/-- Every `insert` is followed by a `fireAllRules` of the same worker, so nothing stays pending
once all calls have returned. -/
theorem Wf.agenda_idle {e : Engine n} (h : Wf e) (hidle : ∀ w, e.phase w = .idle) : e.session.agenda = [] := by
  apply List.eq_nil_iff_forall_not_mem.2
  intro a ha
  obtain ⟨w, hw⟩ := h.owner a ha
  rw [hidle w] at hw
  cases hw

section

variable {e : Engine n} {ls : List (EngineAction n)}

/-- The objects have the matches of the transactions passed. -/
theorem Recorded.matching_obj (hI : Recorded ls e) {r : Ref} (hr : r < e.heap.next) :
    (matching (e.heap.obj r)).length = matchCount (passed ls) r := by
  rw [hI.next] at hr
  have hget := List.getElem?_eq_getElem hr
  unfold matchCount
  rw [hget, matching_congr (hI.fields r _ hget)]
  rfl

/-- Once all calls have returned, the matches are those of all transactions passed. -/
theorem Recorded.match_iff (hI : Recorded ls e) (hfacts : e.session.facts.Perm (List.range (passed ls).length))
    (a : Activation) : (a.ref ∈ e.session.facts ∧ a.rule.when (e.heap.obj a.ref) = true) ↔
      (passed ls)[a.ref]?.any a.rule.when = true := by
  rw [hfacts.mem_iff, List.mem_range, Option.any_eq_true]
  constructor
  · rintro ⟨hr, hwhen⟩
    have hget := List.getElem?_eq_getElem hr
    exact ⟨_, hget, (when_congr (hI.fields _ _ hget) a.rule).symm.trans hwhen⟩
  · rintro ⟨t, ht, hwhen⟩
    exact ⟨(List.getElem?_eq_some_iff.1 ht).1, (when_congr (hI.fields _ _ ht) a.rule).trans hwhen⟩

/-- A transaction one of whose matches has run its consequence has the reason of a rule it satisfies. -/
theorem Recorded.reason_fired (hI : Recorded ls e) (hwf : Wf e) {r : Ref} {t : Transaction}
    (ht : (passed ls)[r]? = some t) {a : Activation} (ha : a ∈ e.session.fired) (har : a.ref = r) :
    ∃ rule : Rule, rule.when t = true ∧ (e.heap.obj r).fraudReason = some rule.reason := by
  obtain ⟨reason, hreason⟩ := Option.isSome_iff_exists.1 (KieSession.written_isSome.2 ⟨a, ha, har⟩)
  obtain ⟨b, hb, rfl, hb'⟩ := KieSession.written_some hreason
  refine ⟨b.rule, (when_congr (hI.fields _ _ ht) b.rule).symm.trans (hwf.activation (.inl hb)).2, ?_⟩
  rw [hI.reason _ _ ht, hreason, hb']
  rfl

end

/-- For every pool size and every run of concurrent calls: working memory holds the objects the calls have inserted, which
are the transactions passed to them, each with the reason of the last consequence run for it; and the fired counts returned
and the pending activations add up to the matches of the transactions inserted. Once all calls have returned nothing is
pending, every transaction passed has been inserted, each of its matches has run its consequence exactly once and nothing
else has, the texts shown are those of the consequences, and a transaction that satisfies a rule has the reason of one. -/
theorem firings_conserved (n : Nat) (ls : List (EngineAction n)) (e : Engine n)
    (h : Lts.run step (new n) ls = some e) :
    e.session.facts.Perm e.inserted ∧
      (∀ r t, (passed ls)[r]? = some t → (e.heap.obj r).SameButReason t ∧
        (e.heap.obj r).fraudReason = (KieSession.written e.session.fired r).or t.fraudReason) ∧
      (e.returned.map Return.firedRules).sum + e.session.agenda.length =
        (e.inserted.map (matchCount (passed ls))).sum ∧
      ((∀ w, e.phase w = .idle) →
        e.session.agenda = [] ∧ e.inserted.Perm (List.range (passed ls).length) ∧
        (∀ a : Activation, e.session.fired.count a = if (passed ls)[a.ref]?.any a.rule.when = true then 1 else 0) ∧
        e.session.shown = (e.session.fired.map fun a => a.rule.text (e.heap.obj a.ref)) ∧
        ∀ r t, (passed ls)[r]? = some t → flagged t = true →
          ∃ rule : Rule, rule.when t = true ∧ (e.heap.obj r).fraudReason = some rule.reason) := by
  have hwf := wf_run h
  have hI := recorded_run h
  have hfacts : e.session.facts.Perm e.inserted := factsAccounted_run h
  have hcounts : (e.returned.map Return.firedRules).sum + e.session.agenda.length =
      (e.inserted.map (matchCount (passed ls))).sum := by
    rw [hwf.counts_ledger, ← (hfacts.map _).sum_eq]
    exact congrArg List.sum (List.map_congr_left fun r hr => hI.matching_obj (hwf.factsLt r hr))
  refine ⟨hfacts, fun r t ht => ⟨hI.fields r t ht, hI.reason r t ht⟩, hcounts, fun hidle => ?_⟩
  have hag := hwf.agenda_idle hidle
  have hall := hI.facts_idle hwf hidle
  have hcount : ∀ a : Activation,
      e.session.fired.count a = if (passed ls)[a.ref]?.any a.rule.when = true then 1 else 0 := by
    intro a
    have hnd := hwf.ledger_nodup
    have hmem := (hwf.mem_ledger a).trans (hI.match_iff hall a)
    rw [hag, List.append_nil] at hnd hmem
    split
    · rename_i ha; exact List.count_eq_one_of_mem hnd (hmem.2 ha)
    · rename_i ha; exact List.count_eq_zero_of_not_mem fun hm => ha (hmem.1 hm)
  refine ⟨hag, hfacts.symm.trans hall, hcount, hwf.shown, fun r t ht hflag => ?_⟩
  obtain ⟨rule, hwhen⟩ := flagged_iff.1 hflag
  have hone := hcount ⟨r, rule⟩
  rw [ht, Option.any_some, if_pos hwhen] at hone
  exact hI.reason_fired hwf ht (List.count_pos_iff.1 (hone ▸ Nat.one_pos)) rfl

/-- In the crossed run too, where one call gets the credit for the other's match. -/
theorem firings_conserved_crossed : ∃ e, Lts.run step (new 2) crossedRun = some e ∧
    (e.returned.map Return.firedRules).sum = 1 ∧ e.session.fired.count ⟨0, .highTransactionAmount⟩ = 1 ∧
      (e.heap.obj 0).fraudReason = some "High transaction amount" := by
  refine ⟨_, rfl, ?_⟩
  obtain ⟨-, -, hsum, hdone⟩ := firings_conserved 2 crossedRun _ rfl
  obtain ⟨-, -, hcount, -, hreason⟩ := hdone (by decide)
  obtain ⟨rule, hwhen, hreason⟩ := hreason 0 highTransaction rfl (by decide)
  refine ⟨hsum.trans (by decide), (hcount _).trans (by decide), hreason.trans ?_⟩
  cases rule
  · rfl
  · revert hwhen
    decide

end Engine

end FraudDetect.Drools
