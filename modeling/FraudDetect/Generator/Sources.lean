/-
The thread and the requests of `trans-generator` are sources of stamps: each makes its ids of a reading of the clock and
its own `i`, a counter of period `2 ^ 32`, and nothing else they do makes an id or passes one to `publishMessage`.
-/
import FraudDetect.Generator.Threads
import FraudDetect.Lib.Stamps

namespace FraudDetect.Generator

/-! ## The counters -/

theorem ofNat_eq_iff (m n : Nat) : Int32.ofNat m = Int32.ofNat n ↔ m % 2 ^ 32 = n % 2 ^ 32 := by
  constructor
  · intro h
    have h' := congrArg (fun x : Int32 => x.toBitVec.toNat) h
    simpa using h'
  · intro h
    apply Int32.toBitVec.inj
    apply BitVec.eq_of_toNat_eq
    simpa using h

theorem iterate_add_one (n : Nat) : (fun i : Int32 => i + 1)^[n] 0 = Int32.ofNat n := by
  induction n with
  | zero => rfl
  | succ n ih =>
    rw [Function.iterate_succ_apply', ih, ofNat_succ]

/-- A local `int i` that starts at 0 and is incremented. -/
def counter : Stamps.Counter Int32 where
  zero := 0
  succ i := i + 1
  period := 2 ^ 32
  pos := by decide
  iterate_eq_iff m n := by rw [iterate_add_one, iterate_add_one, ofNat_eq_iff]

/-! ## The ids of a source -/

/-- The reading as a number and the counter. -/
def Id.stamp (id : Id) : Int × Int32 := (id.millis.toInt, id.i)

theorem Id.stamp_injective : Function.Injective Id.stamp := by
  rintro ⟨m, i⟩ ⟨m', i'⟩ h
  obtain ⟨hm, rfl⟩ := Prod.mk.inj h
  obtain rfl := Int64.toInt_inj.1 hm
  rfl

/-- Different ids are different strings, also where a reading or a counter is negative. -/
theorem Id.text_injective : Function.Injective Id.text := by
  rintro ⟨m, i⟩ ⟨m', i'⟩ h
  obtain ⟨hm, hi⟩ := Decimal.joined_injective (a := m.toInt) (b := i.toInt) h
  rw [Int64.toInt_inj.1 hm, Int32.toInt_inj.1 hi]

/-- The id made and not passed to `publishMessage` yet. -/
def GeneratorThread.pending (t : GeneratorThread) : Option Id :=
  match t.point with
  | .publishing _ id => some id
  | _ => none

def Request.pending (q : Request) : Option Id :=
  match q.point with
  | .publishing id => some id
  | _ => none

def GeneratorThread.loop (t : GeneratorThread) : Stamps.Loop Int Int32 := ⟨t.i, t.pending.map Id.stamp⟩

/-- A request increments `i` after `publishMessage` only. -/
def Request.loop (q : Request) : Stamps.Loop Int Int32 :=
  ⟨if q.pending.isSome then q.i + 1 else q.i, q.pending.map Id.stamp⟩

section

variable {t t' : GeneratorThread} {q q' : Request} {millis : Int64} {queueName : String} {c : Callees} {id : Id}

theorem GeneratorThread.loop_testRunning {isRunning : Bool} (h : t.testRunning isRunning = some t') :
    t'.loop = t.loop := by
  unfold GeneratorThread.testRunning at h
  split at h
  · rename_i hp
    cases h
    cases isRunning <;> simp [loop, pending, hp]
  · cases h

theorem GeneratorThread.loop_sleep (h : t.sleep = some t') : t'.loop = t.loop := by
  unfold GeneratorThread.sleep at h
  split at h
  · rename_i j hp
    split at h
    · cases h
    · cases h
      simp [loop, pending, hp]
  · cases h

theorem GeneratorThread.loop_currentTimeMillis (h : t.currentTimeMillis millis = some t') :
    t.loop = ⟨t.i, none⟩ ∧ t'.loop = ⟨t.i + 1, some (millis.toInt, t.i)⟩ := by
  unfold GeneratorThread.currentTimeMillis at h
  split at h
  · rename_i j hp
    split at h
    · cases h
      simp [loop, pending, hp, Id.stamp]
    · cases h
  · cases h

theorem GeneratorThread.loop_publishMessage (h : t.publishMessage queueName c = some (id, t')) :
    t.loop = ⟨t.i, some id.stamp⟩ ∧ t'.loop = ⟨t.i, none⟩ := by
  unfold GeneratorThread.publishMessage at h
  split at h
  · rename_i j id' hp
    cases h
    simp [loop, pending, hp]
  · cases h

theorem Request.loop_receive (count : Int32) : (Request.receive count).loop = ⟨0, none⟩ := by
  unfold Request.receive Request.loop Request.pending
  by_cases hc : count ≤ 0
  · simp [hc]
  · simp [hc]

theorem Request.loop_respond (h : q.respond = some q') : q'.loop = q.loop := by
  unfold Request.respond at h
  split at h
  · rename_i hp
    split at h
    · cases h
    · cases h
      simp [loop, pending, hp]
  · cases h

theorem Request.loop_currentTimeMillis (h : q.currentTimeMillis millis = some q') :
    q.loop = ⟨q.i, none⟩ ∧ q'.loop = ⟨q.i + 1, some (millis.toInt, q.i)⟩ := by
  unfold Request.currentTimeMillis at h
  split at h
  · rename_i hp
    split at h
    · cases h
      simp [loop, pending, hp, Id.stamp]
    · cases h
  · cases h

theorem Request.loop_publishMessage (h : q.publishMessage queueName c = some (id, q')) :
    q.loop = ⟨q.i + 1, some id.stamp⟩ ∧ q'.loop = ⟨q.i + 1, none⟩ := by
  unfold Request.publishMessage at h
  split at h
  · rename_i id' hp
    cases h
    simp [loop, pending, hp]
  · cases h

end

namespace TransGenerator

variable {g g' : TransGenerator} {src : Source}

def loop (g : TransGenerator) : Source → Option (Stamps.Loop Int Int32)
  | .startThread => g.thread.map GeneratorThread.loop
  | .generate r => g.requests[r]?.map Request.loop

/-- The counter of a source. -/
def i (g : TransGenerator) : Source → Int32
  | .startThread => (g.thread.map GeneratorThread.i).getD 0
  | .generate r => (g.requests[r]?.map Request.i).getD 0

def pending (g : TransGenerator) : Source → Option Id
  | .startThread => g.thread.bind GeneratorThread.pending
  | .generate r => g.requests[r]?.bind Request.pending

/-- The ids a source has made: those it has passed to `publishMessage` and the one it is about to pass. -/
def made (g : TransGenerator) (src : Source) : List Id :=
  (g.published.filter (·.1 = src)).map (·.2) ++ (g.pending src).toList

/-! ## What the steps do to the loops -/

theorem loop_set_thread {t : GeneratorThread} (ht : g'.thread = some t) (hr : g'.requests = g.requests) :
    g'.loop = Function.update g.loop .startThread (some t.loop) := by
  funext src
  cases src with
  | startThread => simp [loop, ht]
  | generate r => simp [loop, hr]

theorem loop_set_request {r : Nat} {q q' : Request} (hq : g.requests[r]? = some q) (ht : g'.thread = g.thread)
    (hr : g'.requests = g.requests.set r q') : g'.loop = Function.update g.loop (.generate r) (some q'.loop) := by
  obtain ⟨hlt, -⟩ := List.getElem?_eq_some_iff.1 hq
  funext src
  cases src with
  | startThread => simp [loop, ht]
  | generate r' =>
    by_cases hne : r' = r
    · subst hne
      simp [loop, hr, hlt]
    · have hne' : Source.generate r' ≠ .generate r := by simpa using hne
      rw [Function.update_of_ne hne']
      simp [loop, hr, List.getElem?_set_ne (Ne.symm hne)]

/-- The step of a source that reads the clock. -/
theorem step_currentTimeMillis {millis : Int64} (h : g.step (.currentTimeMillis src millis) = some g') :
    g.loop src = some ⟨g.i src, none⟩ ∧
      g'.loop = Function.update g.loop src (some ⟨g.i src + 1, some (millis.toInt, g.i src)⟩) ∧
      g'.lastReading = some millis ∧ g'.published = g.published := by
  cases src with
  | startThread =>
    obtain ⟨t, t', ht, hstep, rfl⟩ := own_step h
    obtain ⟨hloop, hloop'⟩ := t.loop_currentTimeMillis hstep
    have hi : g.i .startThread = t.i := by simp [i, ht]
    rw [hi, ← hloop']
    exact ⟨by simp [loop, ht, hloop], loop_set_thread rfl rfl, rfl, rfl⟩
  | generate r =>
    obtain ⟨q, q', hq, hstep, rfl⟩ := own_step h
    obtain ⟨hloop, hloop'⟩ := q.loop_currentTimeMillis hstep
    have hi : g.i (.generate r) = q.i := by simp [i, hq]
    rw [hi, ← hloop']
    exact ⟨by simp [loop, hq, hloop], loop_set_request hq rfl rfl, rfl, rfl⟩

/-- The step of a source that passes its id on. -/
theorem step_publishMessage {c : Callees} (h : g.step (.publishMessage src c) = some g') :
    ∃ n id, g.loop src = some ⟨n, some id.stamp⟩ ∧ g'.loop = Function.update g.loop src (some ⟨n, none⟩) ∧
      g'.lastReading = g.lastReading ∧ g'.published = g.published ++ [(src, id)] := by
  cases src with
  | startThread =>
    obtain ⟨t, ⟨id, t'⟩, ht, hstep, rfl⟩ := own_step h
    obtain ⟨hloop, hloop'⟩ := t.loop_publishMessage hstep
    refine ⟨t.i, id, by simp [loop, ht, hloop], ?_, rfl, rfl⟩
    rw [← hloop']
    exact loop_set_thread rfl rfl
  | generate r =>
    obtain ⟨q, ⟨id, q'⟩, hq, hstep, rfl⟩ := own_step h
    obtain ⟨hloop, hloop'⟩ := q.loop_publishMessage hstep
    refine ⟨q.i + 1, id, by simp [loop, hq, hloop], ?_, rfl, rfl⟩
    rw [← hloop']
    exact loop_set_request hq rfl rfl

/-- A request that comes in starts a loop of its own. -/
theorem step_generate {count : Int32} (h : g.step (.generate count) = some g') :
    g.loop (.generate g.requests.length) = none ∧
      g'.loop = Function.update g.loop (.generate g.requests.length) (some ⟨0, none⟩) ∧
      g'.lastReading = g.lastReading ∧ g'.published = g.published := by
  cases h
  refine ⟨by simp [loop], funext fun src => ?_, rfl, rfl⟩
  cases src with
  | startThread => simp [loop]
  | generate r =>
    by_cases hne : r = g.requests.length
    · subst hne
      simp [loop, Request.loop_receive]
    · have hne' : Source.generate r ≠ .generate g.requests.length := by simpa using hne
      rw [Function.update_of_ne hne']
      show ((g.requests ++ [Request.receive count])[r]?).map Request.loop = g.requests[r]?.map Request.loop
      rcases Nat.lt_or_gt_of_ne hne with hlt | hgt
      · rw [List.getElem?_append_left hlt]
      · rw [List.getElem?_eq_none (by simp; omega), List.getElem?_eq_none (by omega)]

end TransGenerator

/-- The steps that neither make an id nor pass one on. -/
def Action.isSilent : Action → Bool
  | .testRunning | .sleep | .respond _ => true
  | .generate _ | .currentTimeMillis .. | .publishMessage .. => false

namespace TransGenerator

variable {g g' : TransGenerator} {src : Source}

theorem step_silent {a : Action} (ha : a.isSilent = true) (h : g.step a = some g') :
    g'.loop = g.loop ∧ g'.lastReading = g.lastReading ∧ g'.published = g.published := by
  -- a source that moves on with the same loop leaves the loops as they are
  have hself : ∀ src l, g.loop src = some l → Function.update g.loop src (some l) = g.loop := by
    intro src l hl
    rw [← hl]
    exact Function.update_eq_self ..
  cases a with
  | testRunning =>
    obtain ⟨t, t', ht, hstep, rfl⟩ := own_step h
    have hl : g.loop .startThread = some t'.loop := by simp [loop, ht, t.loop_testRunning hstep]
    refine ⟨?_, rfl, rfl⟩
    rw [← hself _ _ hl]
    exact loop_set_thread rfl rfl
  | sleep =>
    obtain ⟨t, t', ht, hstep, rfl⟩ := own_step h
    have hl : g.loop .startThread = some t'.loop := by simp [loop, ht, t.loop_sleep hstep]
    refine ⟨?_, rfl, rfl⟩
    rw [← hself _ _ hl]
    exact loop_set_thread rfl rfl
  | respond r =>
    obtain ⟨q, q', hq, hstep, rfl⟩ := own_step h
    have hl : g.loop (.generate r) = some q'.loop := by simp [loop, hq, q.loop_respond hstep]
    refine ⟨?_, rfl, rfl⟩
    rw [← hself _ _ hl]
    exact loop_set_request hq rfl rfl
  | generate count => cases ha
  | currentTimeMillis src millis => cases ha
  | publishMessage src c => cases ha

/-! ## The process as sources of stamps -/

def abs (g : TransGenerator) : Stamps.State Source Int Int32 :=
  ⟨g.loop, g.lastReading.map Int64.toInt, g.published.map fun p => (p.1, p.2.stamp)⟩

def stamps : Lts.Simulation step (Stamps.step (S := Source) (T := Int) counter) where
  abs := abs
  labels
    | g, .generate _ => [.start (.generate g.requests.length)]
    | _, .currentTimeMillis src millis => [.read src millis.toInt]
    | _, .publishMessage src _ => [.pass src]
    | _, .testRunning | _, .sleep | _, .respond _ => []
  admits _ _ := True
  step_run := by
    rintro g a g' - h
    have hsilent : a.isSilent = true → some g.abs = some g'.abs := by
      intro ha
      obtain ⟨hl, ht, hp⟩ := step_silent ha h
      unfold abs
      rw [hl, ht, hp]
    cases a with
    | generate count =>
      obtain ⟨hnone, hl, ht, hp⟩ := step_generate h
      refine Lts.run_single.2 (Stamps.step_start.2 ⟨hnone, ?_⟩)
      unfold abs
      rw [hl, ht, hp]
      rfl
    | currentTimeMillis src millis =>
      obtain ⟨hnone, hl, ht, hp⟩ := step_currentTimeMillis h
      refine Lts.run_single.2 (Stamps.step_read.2 ⟨g.i src, hnone, ?_⟩)
      unfold abs
      rw [hl, ht, hp]
      rfl
    | publishMessage src c =>
      obtain ⟨n, id, hsome, hl, ht, hp⟩ := step_publishMessage h
      refine Lts.run_single.2 (Stamps.step_pass.2 ⟨n, id.stamp, hsome, ?_⟩)
      unfold abs
      rw [hl, ht, hp, List.map_append]
      rfl
    | testRunning => exact hsilent rfl
    | sleep => exact hsilent rfl
    | respond r => exact hsilent rfl

theorem initial_new (queueName : String) (isRunning : Bool) : Stamps.Initial counter (new queueName isRunning).abs := by
  refine ⟨rfl, rfl, fun src l hl => ?_⟩
  cases src with
  | startThread =>
    cases isRunning with
    | true => exact (Option.some.inj hl).symm
    | false => cases hl
  | generate r => cases hl

theorem held_abs (g : TransGenerator) (src : Source) : g.abs.held src = (g.pending src).map Id.stamp := by
  cases src with
  | startThread =>
    show (g.thread.map GeneratorThread.loop).bind Stamps.Loop.held = (g.thread.bind GeneratorThread.pending).map Id.stamp
    cases g.thread <;> rfl
  | generate r =>
    show (g.requests[r]?.map Request.loop).bind Stamps.Loop.held = (g.requests[r]?.bind Request.pending).map Id.stamp
    cases g.requests[r]? <;> rfl

theorem made_abs (g : TransGenerator) (src : Source) : g.abs.made src = (g.made src).map Id.stamp := by
  have hpassed : g.abs.passed src = ((g.published.filter (·.1 = src)).map (·.2)).map Id.stamp := by
    simp [Stamps.State.passed, abs, List.filter_map, Function.comp_def]
  unfold Stamps.State.made made
  rw [hpassed, held_abs, List.map_append]
  cases g.pending src <;> rfl

end TransGenerator

end FraudDetect.Generator
