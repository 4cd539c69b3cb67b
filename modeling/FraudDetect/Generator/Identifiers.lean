/-
The ids made in one process of `trans-generator`. Over any clock, two ids of one source are different strings unless
`2 ^ 32` of its ids lie between them, so the thread of `startThread` repeats none when its `i` wraps around. Over a
clock that does not go back, all ids are different exactly when no two sources read the same millisecond with the same
counter and none reads a millisecond more than `2 ^ 32` times.
-/
import FraudDetect.Generator.Sources

namespace FraudDetect.Generator

namespace TransGenerator

/-! ## Any clock -/

section Run

variable {queueName : String} {isRunning : Bool} {as : List Action} {g : TransGenerator}
  (h : Lts.run step (new queueName isRunning) as = some g)
include h

theorem run_stamps : Lts.run (Stamps.step counter) (new queueName isRunning).abs
    (stamps.trace (new queueName isRunning) as) = some g.abs :=
  stamps.run_trace Lts.along_true h

theorem numbered : Stamps.Numbered counter g.abs :=
  Stamps.numbered_run (initial_new queueName isRunning) (run_stamps h)

end Run

/-- For every run over any clock: two ids of one source that have fewer than `2 ^ 32` from the one to the other are
different strings. -/
theorem text_ne_of_lt (queueName : String) (isRunning : Bool) (as : List Action) (g : TransGenerator)
    (h : Lts.run step (new queueName isRunning) as = some g) (src : Source) (j k : Nat) (a b : Id)
    (hj : (g.made src)[j]? = some a) (hk : (g.made src)[k]? = some b) (hjk : j < k) (hlt : k - j < 2 ^ 32) :
    a.text ≠ b.text := by
  have hstamp : ∀ {m : Nat} {id : Id}, (g.made src)[m]? = some id → (g.abs.made src)[m]? = some id.stamp := by
    intro m id hm
    rw [made_abs, List.getElem?_map, hm]
    rfl
  have hne : a.i ≠ b.i := (numbered h).counter_ne (hstamp hj) (hstamp hk) hjk hlt
  intro htext
  exact hne (congrArg Id.i (Id.text_injective htext))

/-- Callees that complete. -/
def sampleCallees : Callees := Generator.sampleCallees (.ok "transactions")

/-- The background thread makes two ids while the clock goes back. -/
def backwardRun : List Action :=
  [.testRunning, .currentTimeMillis .startThread 7, .publishMessage .startThread sampleCallees,
    .currentTimeMillis .startThread 5]

theorem text_ne_backward : (Id.mk 7 0).text ≠ (Id.mk 5 1).text :=
  text_ne_of_lt "transaction-queue" true backwardRun _ rfl .startThread 0 1 _ _ rfl rfl (by decide) (by decide)

/-! ## The thread of `startThread` -/

section Thread

variable {g : TransGenerator} {i : Int32} {calls : List Event}

/-- Once round the inner loop. -/
theorem run_inner {j : Nat} (millis : Int64) (c : Callees) (ht : g.thread = some ⟨i, .looping j, calls⟩) (hj : j < 100) :
    Lts.run step g [.currentTimeMillis .startThread millis, .publishMessage .startThread c] =
      some { g with
        thread := some ⟨i + 1, .looping (j + 1), calls ++ publishCalls g.queueName c (Id.mk millis i).text⟩
        lastReading := some millis
        published := g.published ++ [(.startThread, ⟨millis, i⟩)] } := by
  simp [Lts.run, step, currentTimeMillis, publishMessage, GeneratorThread.currentTimeMillis,
    GeneratorThread.publishMessage, ht, hj]

/-- From the end of the inner loop to its start. -/
theorem run_outer (ht : g.thread = some ⟨i, .looping 100, calls⟩) (hr : g.isRunning = true) :
    Lts.run step g [.sleep, .testRunning] = some { g with thread := some ⟨i, .looping 0, calls⟩ } := by
  simp [Lts.run, step, GeneratorThread.sleep, GeneratorThread.testRunning, ht, hr]

end Thread

/-- The thread is in the inner loop and has made its ids of the readings of this clock. -/
structure Went (clock : Nat → Int64) (n : Nat) (g : TransGenerator) : Prop where
  isRunning : g.isRunning = true
  thread : ∃ j ≤ 100, ∃ calls, g.thread = some ⟨Int32.ofNat n, .looping j, calls⟩
  published : (g.published.filter (·.1 = .startThread)).map (·.2) = (List.range n).map fun k => ⟨clock k, Int32.ofNat k⟩

/-- Whatever the clock shows, the thread goes on. -/
theorem went_succ {clock : Nat → Int64} {n : Nat} {g : TransGenerator} (hg : Went clock n g) :
    ∃ as g', Lts.run step g as = some g' ∧ Went clock (n + 1) g' := by
  obtain ⟨hr, ⟨j, hj, calls, ht⟩, hp⟩ := hg
  -- a state in which the inner loop has rounds left
  obtain ⟨as, g₁, hrun, hj₁, hp₁, hr₁⟩ : ∃ as g₁, Lts.run step g as = some g₁ ∧
      (∃ j < 100, g₁.thread = some ⟨Int32.ofNat n, .looping j, calls⟩) ∧ g₁.published = g.published ∧
        g₁.isRunning = true := by
    rcases hj.lt_or_eq with hlt | rfl
    · exact ⟨[], g, rfl, ⟨j, hlt, ht⟩, rfl, hr⟩
    · exact ⟨_, _, run_outer ht hr, ⟨0, by decide, rfl⟩, rfl, hr⟩
  obtain ⟨j₁, hlt, ht₁⟩ := hj₁
  refine ⟨_, _, Lts.run_append.2 ⟨g₁, hrun, run_inner (clock n) sampleCallees ht₁ hlt⟩, hr₁, ⟨j₁ + 1, hlt, ?_⟩, ?_⟩
  · rw [ofNat_succ]
    exact ⟨_, rfl⟩
  · simp [hp₁, hp, List.range_succ]

/-- Every clock is one the thread can see: its ids are then the readings with the counters `0, 1, 2, ..`, wrapped. -/
theorem startThread_goes_on (queueName : String) (clock : Nat → Int64) (n : Nat) :
    ∃ as g, Lts.run step (new queueName true) as = some g ∧
      g.made .startThread = (List.range n).map fun k => ⟨clock k, Int32.ofNat k⟩ := by
  obtain ⟨as, g, h, hg⟩ : ∃ as g, Lts.run step (new queueName true) as = some g ∧ Went clock n g := by
    induction n with
    | zero => exact ⟨[.testRunning], _, rfl, rfl, ⟨0, by decide, [], rfl⟩, rfl⟩
    | succ n ih =>
      obtain ⟨as, g, h, hg⟩ := ih
      obtain ⟨as', g', h', hg'⟩ := went_succ hg
      exact ⟨as ++ as', g', Lts.run_append.2 ⟨g, h, h'⟩, hg'⟩
  obtain ⟨j, -, calls, ht⟩ := hg.thread
  refine ⟨as, g, h, ?_⟩
  have hpending : g.pending .startThread = none := by simp [pending, ht, GeneratorThread.pending]
  unfold made
  rw [hg.published, hpending]
  simp

/-! ## A clock that does not go back -/

/-- A reading is in this order with the last one. -/
def Ordered (r : Int64 → Int64 → Prop) (g : TransGenerator) : Action → Prop
  | .currentTimeMillis _ millis => ∀ last ∈ g.lastReading, r last millis
  | _ => True

/-- A reading is not before the last one. -/
abbrev NonDecreasing (g : TransGenerator) (a : Action) : Prop := Ordered (· ≤ ·) g a

/-- A reading is after the last one. -/
abbrev Later (g : TransGenerator) (a : Action) : Prop := Ordered (· < ·) g a

/-- A reading is not of a millisecond that another source has read with the same counter, nor of one that the same source
has read `2 ^ 32` times. -/
def Apart (g : TransGenerator) : Action → Prop
  | .currentTimeMillis src millis =>
    (∀ src', src' ≠ src → ⟨millis, g.i src⟩ ∉ g.made src') ∧ (g.made src).countP (·.millis = millis) < 2 ^ 32
  | _ => True

instance (r : Int64 → Int64 → Prop) [DecidableRel r] (g : TransGenerator) (a : Action) : Decidable (Ordered r g a) :=
  match a with
  | .currentTimeMillis _ millis =>
    decidable_of_iff (g.lastReading.all fun last => decide (r last millis)) (by simp [Ordered, Option.all_eq_true])
  | .generate _ | .testRunning | .publishMessage .. | .sleep | .respond _ => .isTrue trivial

section Step

variable {g g' : TransGenerator} {a : Action}

theorem ordered_iff {r : Int64 → Int64 → Prop} {r' : Int → Int → Prop} (hr : ∀ m n, r m n ↔ r' m.toInt n.toInt) :
    Ordered r g a ↔ Lts.Along (Stamps.step counter) (Stamps.Ordered r') g.abs (stamps.labels g a) := by
  cases a with
  | currentTimeMillis src millis =>
    refine Iff.trans ?_ Lts.along_single.symm
    show (∀ last ∈ g.lastReading, r last millis) ↔ ∀ t ∈ g.lastReading.map Int64.toInt, r' t millis.toInt
    simp only [Option.mem_def, Option.map_eq_some_iff, forall_exists_index, and_imp, forall_apply_eq_imp_iff₂, hr]
  | generate count => exact (iff_of_true trivial (Lts.along_single.2 trivial))
  | publishMessage src c => exact (iff_of_true trivial (Lts.along_single.2 trivial))
  | testRunning => exact Iff.rfl
  | sleep => exact Iff.rfl
  | respond r => exact Iff.rfl

theorem apart_iff (h : g.step a = some g') : Apart g a ↔
    Lts.Along (Stamps.step counter) (Stamps.Apart counter) g.abs (stamps.labels g a) := by
  cases a with
  | currentTimeMillis src millis =>
    have hloop : g.abs.loop src = some ⟨g.i src, none⟩ := (step_currentTimeMillis h).1
    have hnext : g.abs.next counter src = g.i src := by simp [Stamps.State.next, hloop]
    have hmem : ∀ src', (millis.toInt, g.i src) ∈ g.abs.made src' ↔ (⟨millis, g.i src⟩ : Id) ∈ g.made src' := by
      intro src'
      rw [made_abs]
      exact List.mem_map_of_injective Id.stamp_injective (a := ⟨millis, g.i src⟩)
    have hcount : ((g.abs.made src).map (·.1)).count millis.toInt = (g.made src).countP (·.millis = millis) := by
      rw [made_abs, List.map_map, List.count_eq_countP, List.countP_map]
      refine List.countP_congr fun id _ => ?_
      simp [Id.stamp, Int64.toInt_inj]
    refine Iff.trans ?_ Lts.along_single.symm
    show _ ↔ (∀ src', src' ≠ src → (millis.toInt, g.abs.next counter src) ∉ g.abs.made src') ∧
      ((g.abs.made src).map (·.1)).count millis.toInt < 2 ^ 32
    rw [hnext, hcount]
    simp only [hmem]
    rfl
  | generate count => exact (iff_of_true trivial (Lts.along_single.2 trivial))
  | publishMessage src c => exact (iff_of_true trivial (Lts.along_single.2 trivial))
  | testRunning => exact Iff.rfl
  | sleep => exact Iff.rfl
  | respond r => exact Iff.rfl

end Step

/-- The strings passed to `publishMessage` are different exactly when the stamps passed on are. -/
theorem nodup_text_iff (g : TransGenerator) : (g.published.map (·.2.text)).Nodup ↔ (g.abs.out.map (·.2)).Nodup := by
  have htext : g.published.map (·.2.text) = (g.published.map (·.2)).map Id.text := by rw [List.map_map]; rfl
  have hstamp : g.abs.out.map (·.2) = (g.published.map (·.2)).map Id.stamp := by
    show (g.published.map _).map _ = _
    rw [List.map_map, List.map_map]
    rfl
  rw [htext, hstamp, List.nodup_map_iff Id.text_injective, List.nodup_map_iff Id.stamp_injective]

section Run

variable {queueName : String} {isRunning : Bool} {as : List Action} {g : TransGenerator}
  (h : Lts.run step (new queueName isRunning) as = some g)
include h

theorem nonDecreasing_trace (hclock : Lts.Along step NonDecreasing (new queueName isRunning) as) :
    Lts.Along (Stamps.step counter) Stamps.NonDecreasing (new queueName isRunning).abs
      (stamps.trace (new queueName isRunning) as) :=
  (stamps.along_trace_iff (fun _ _ _ _ _ => ordered_iff fun _ _ => Int64.le_iff_toInt_le) Lts.along_true h).1 hclock

theorem apart_trace : Lts.Along step Apart (new queueName isRunning) as ↔
    Lts.Along (Stamps.step counter) (Stamps.Apart counter) (new queueName isRunning).abs
      (stamps.trace (new queueName isRunning) as) :=
  stamps.along_trace_iff (fun _ _ _ _ hs => apart_iff hs) Lts.along_true h

/-- Readings each after the one before are apart. -/
theorem apart_of_later (hlater : Lts.Along step Later (new queueName isRunning) as) :
    Lts.Along step Apart (new queueName isRunning) as := by
  have hiff := stamps.along_trace_iff (fun _ _ _ _ _ => ordered_iff fun _ _ => Int64.lt_iff_toInt_lt) Lts.along_true h
  exact (apart_trace h).2 (Stamps.along_apart_of_later (initial_new queueName isRunning) (hiff.1 hlater))

theorem nodup_text (hclock : Lts.Along step NonDecreasing (new queueName isRunning) as)
    (hapart : Lts.Along step Apart (new queueName isRunning) as) : (g.published.map (·.2.text)).Nodup :=
  (nodup_text_iff g).2 (Stamps.nodup_out (initial_new queueName isRunning) (nonDecreasing_trace h hclock) (run_stamps h)
    ((apart_trace h).1 hapart))

end Run

/-- For every run over a clock that does not go back: if every reading is apart, the ids passed to `publishMessage` are
pairwise different in every state; and when every id made has been passed on, they are so only if every reading was. -/
theorem published_distinct_iff (queueName : String) (isRunning : Bool) (as : List Action) (g : TransGenerator)
    (h : Lts.run step (new queueName isRunning) as = some g)
    (hclock : Lts.Along step NonDecreasing (new queueName isRunning) as) :
    (Lts.Along step Apart (new queueName isRunning) as →
        Lts.Always step (fun x => (x.published.map (·.2.text)).Nodup) (new queueName isRunning) as) ∧
      ((∀ src, g.pending src = none) →
        ((g.published.map (·.2.text)).Nodup ↔ Lts.Along step Apart (new queueName isRunning) as)) := by
  constructor
  · intro hapart
    refine Lts.always_iff.2 fun as' hp x hx => ?_
    obtain ⟨rest, rfl⟩ := hp
    exact nodup_text hx ((Lts.along_append hx).1 hclock).1 ((Lts.along_append hx).1 hapart).1
  · intro hpending
    have hheld : ∀ src, g.abs.held src = none := by
      intro src
      rw [held_abs, hpending src]
      rfl
    rw [nodup_text_iff, apart_trace h]
    exact Stamps.nodup_out_iff (initial_new queueName isRunning) (nonDecreasing_trace h hclock) (run_stamps h) hheld

/-- Two requests for one message each. -/
def twoRequests (millis millis' : Int64) : List Action :=
  [.generate 1, .generate 1, .currentTimeMillis (.generate 0) millis, .currentTimeMillis (.generate 1) millis',
    .publishMessage (.generate 0) sampleCallees, .publishMessage (.generate 1) sampleCallees]

theorem published_distinct_later : ∃ g, Lts.run step (new "transaction-queue" true) (twoRequests 5 6) = some g ∧
    Lts.Always step (fun x => (x.published.map (·.2.text)).Nodup) (new "transaction-queue" true) (twoRequests 5 6) ∧
      (g.published.map (·.2.text)).Nodup := by
  have hiff := published_distinct_iff "transaction-queue" true (twoRequests 5 6) _ rfl (by decide)
  have hapart : Lts.Along step Apart (new "transaction-queue" true) (twoRequests 5 6) := apart_of_later rfl (by decide)
  refine ⟨_, rfl, hiff.1 hapart, (hiff.2 ?_).2 hapart⟩
  rintro (_ | _ | _ | r)
  · rfl
  · rfl
  · rfl
  · rfl

/-- Two requests that read the same millisecond make the same id. -/
theorem same_millisecond : ¬ ∀ (queueName : String) (isRunning : Bool) (as : List Action) (g : TransGenerator),
    Lts.run step (new queueName isRunning) as = some g → Lts.Along step NonDecreasing (new queueName isRunning) as →
      (g.published.map (·.2.text)).Nodup := by
  intro h
  have hn := h "transaction-queue" true (twoRequests 5 5) _ rfl (by decide)
  revert hn
  decide

end TransGenerator

end FraudDetect.Generator
