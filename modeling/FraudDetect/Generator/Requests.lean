/-
What the interleaved sources do is what the code of one does alone. In every reachable state a request that has responded
has made the calls of one `generate` over some readings and callees, and responded what it returns; and the calls of the
thread are those of as many iterations as it has made.
-/
import FraudDetect.Generator.Threads

namespace FraudDetect.Generator

open Calls

/-! ## The calls of the first iterations -/

/-- The calls of the iterations for `i < n`. -/
def callsOf (queueName : String) (iteration : Nat → Iteration) (n : Nat) : List Event :=
  (List.range n).flatMap (iterationCalls queueName iteration)

section

variable {queueName : String} {iteration : Nat → Iteration} {n : Nat}

/-- One more iteration, with a reading and callees of its own. -/
theorem callsOf_succ (millis : Int64) (c : Callees) :
    callsOf queueName (Function.update iteration n ⟨millis, c⟩) (n + 1) =
      callsOf queueName iteration n ++ publishCalls queueName c (idOf millis (Int32.ofNat n)) := by
  have hbefore : ∀ k ∈ List.range n, iterationCalls queueName (Function.update iteration n ⟨millis, c⟩) k =
      iterationCalls queueName iteration k := by
    intro k hk
    have hne : k ≠ n := (List.mem_range.1 hk).ne
    unfold iterationCalls
    rw [Function.update_of_ne hne]
  unfold callsOf
  rw [List.range_succ, List.flatMap_append, List.flatMap_congr hbefore, List.flatMap_singleton]
  unfold iterationCalls
  rw [Function.update_self]

theorem ofNat_lt_iff {count : Int32} (hn : n ≤ count.toNatClampNeg) (hcount : 0 < count) :
    Int32.ofNat n < count ↔ n < count.toNatClampNeg := by
  have hlt : n < 2 ^ 31 := hn.trans_lt count.toNatClampNeg_lt
  rw [Int32.lt_iff_toInt_lt, Int32.toInt_ofNat_of_lt hlt, ← Int32.cast_toNatClampNeg count (Int32.le_of_lt hcount)]
  exact Int.ofNat_lt

end

/-! ## Requests -/

/-- A request has made `n` iterations of `generate`, or returned what it returns. -/
structure Request.Went (queueName : String) (iteration : Nat → Iteration) (n : Nat) (q : Request) : Prop where
  i : q.i = Int32.ofNat n
  le : n ≤ q.count.toNatClampNeg
  calls : q.calls = callsOf queueName iteration n
  point : match q.point with
    | .looping => 0 < q.count
    | .publishing id => 0 < q.count ∧ id.i = Int32.ofNat n ∧ n < q.count.toNatClampNeg
    | .responded response => exec (generate queueName iteration q.count) [] = (.ok response, q.calls)

namespace Request

variable {queueName : String} {iteration : Nat → Iteration} {n : Nat} {q q' : Request} {id : Id}

theorem went_receive (queueName : String) (iteration : Nat → Iteration) (count : Int32) :
    (receive count).Went queueName iteration 0 := by
  refine ⟨rfl, Nat.zero_le _, rfl, ?_⟩
  unfold receive
  by_cases hc : count ≤ 0
  · simp only [hc, if_true]
    unfold generate
    rw [if_pos hc]
    rfl
  · simp only [hc, if_false]
    exact Int32.not_le.1 hc

theorem went_currentTimeMillis {millis : Int64} (hq : q.Went queueName iteration n)
    (h : q.currentTimeMillis millis = some q') : q'.Went queueName iteration n := by
  obtain ⟨hi, hle, hcalls, hpoint⟩ := hq
  unfold currentTimeMillis at h
  split at h
  · rename_i hp
    rw [hp] at hpoint
    split at h
    · rename_i hlt
      cases h
      rw [hi, ofNat_lt_iff hle hpoint] at hlt
      exact ⟨hi, hle, hcalls, hpoint, hi, hlt⟩
    · cases h
  · cases h

theorem went_publishMessage {c : Callees} (hq : q.Went queueName iteration n)
    (h : q.publishMessage queueName c = some (id, q')) :
    q'.Went queueName (Function.update iteration n ⟨id.millis, c⟩) (n + 1) := by
  obtain ⟨hi, hle, hcalls, hpoint⟩ := hq
  unfold publishMessage at h
  split at h
  · rename_i id' hp
    rw [hp] at hpoint
    obtain ⟨hcount, hid, hlt⟩ := hpoint
    cases h
    refine ⟨?_, hlt, ?_, hcount⟩
    · rw [ofNat_succ, ← hi]
    · rw [callsOf_succ, hcalls]
      unfold Id.text
      rw [hid]
  · cases h

theorem went_respond (hq : q.Went queueName iteration n) (h : q.respond = some q') : q'.Went queueName iteration n := by
  obtain ⟨hi, hle, hcalls, hpoint⟩ := hq
  unfold respond at h
  split at h
  · rename_i hp
    rw [hp] at hpoint
    split at h
    · cases h
    · rename_i hnot
      cases h
      -- the loop ends after `count` iterations
      rw [hi, ofNat_lt_iff hle hpoint] at hnot
      have hn : n = q.count.toNatClampNeg := by omega
      refine ⟨hi, hle, hcalls, ?_⟩
      show exec (generate queueName iteration q.count) [] = (.ok (response q.count.toInt), q.calls)
      rw [exec_generate queueName iteration q.count hpoint, hcalls, hn]
      rfl
  · cases h

end Request

/-! ## The thread -/

/-- The thread has passed on the ids of `n` iterations. -/
structure GeneratorThread.Went (queueName : String) (iteration : Nat → Iteration) (n : Nat)
    (t : GeneratorThread) : Prop where
  calls : t.calls = callsOf queueName iteration n
  point : match t.point with
    | .publishing _ id => id.i = Int32.ofNat n ∧ t.i = Int32.ofNat (n + 1)
    | _ => t.i = Int32.ofNat n

namespace GeneratorThread

variable {queueName : String} {iteration : Nat → Iteration} {n : Nat} {t t' : GeneratorThread} {id : Id}

theorem went_testRunning {isRunning : Bool} (ht : t.Went queueName iteration n) (h : t.testRunning isRunning = some t') :
    t'.Went queueName iteration n := by
  obtain ⟨hcalls, hpoint⟩ := ht
  unfold testRunning at h
  split at h
  · rename_i hp
    rw [hp] at hpoint
    cases h
    refine ⟨hcalls, ?_⟩
    cases isRunning with
    | true => exact hpoint
    | false => exact hpoint
  · cases h

theorem went_currentTimeMillis {millis : Int64} (ht : t.Went queueName iteration n)
    (h : t.currentTimeMillis millis = some t') : t'.Went queueName iteration n := by
  obtain ⟨hcalls, hpoint⟩ := ht
  unfold currentTimeMillis at h
  split at h
  · rename_i j hp
    rw [hp] at hpoint
    split at h
    · cases h
      refine ⟨hcalls, hpoint, ?_⟩
      rw [ofNat_succ, ← show t.i = Int32.ofNat n from hpoint]
    · cases h
  · cases h

theorem went_publishMessage {c : Callees} (ht : t.Went queueName iteration n)
    (h : t.publishMessage queueName c = some (id, t')) :
    t'.Went queueName (Function.update iteration n ⟨id.millis, c⟩) (n + 1) := by
  obtain ⟨hcalls, hpoint⟩ := ht
  unfold publishMessage at h
  split at h
  · rename_i j id' hp
    rw [hp] at hpoint
    obtain ⟨hid, hi⟩ := hpoint
    cases h
    refine ⟨?_, hi⟩
    rw [callsOf_succ, hcalls]
    unfold Id.text
    rw [hid]
  · cases h

theorem went_sleep (ht : t.Went queueName iteration n) (h : t.sleep = some t') : t'.Went queueName iteration n := by
  obtain ⟨hcalls, hpoint⟩ := ht
  unfold sleep at h
  split at h
  · rename_i j hp
    rw [hp] at hpoint
    split at h
    · cases h
    · cases h
      exact ⟨hcalls, hpoint⟩
  · cases h

end GeneratorThread

/-! ## The process -/

namespace TransGenerator

/-- Every source has gone through iterations of its own. -/
structure Traced (queueName : String) (g : TransGenerator) : Prop where
  name : g.queueName = queueName
  thread : ∀ t, g.thread = some t → ∃ iteration n, t.Went queueName iteration n
  requests : ∀ q ∈ g.requests, ∃ iteration n, q.Went queueName iteration n

instance : Inhabited Iteration := ⟨0, sampleCallees (.ok "transactions")⟩

theorem traced_new (queueName : String) (isRunning : Bool) : Traced queueName (new queueName isRunning) := by
  refine ⟨rfl, fun t ht => ⟨fun _ => default, 0, ?_⟩, fun q hq => ?_⟩
  · cases isRunning with
    | true =>
      obtain rfl := Option.some.inj ht
      exact ⟨rfl, rfl⟩
    | false => cases ht
  · cases hq

section Step

variable {queueName : String} {g g' : TransGenerator}

theorem Traced.set_thread (hI : Traced queueName g) {t : GeneratorThread}
    (ht : ∃ iteration n, t.Went queueName iteration n) (hname : g'.queueName = g.queueName) (hthread : g'.thread = some t)
    (hrequests : g'.requests = g.requests) : Traced queueName g' := by
  refine ⟨hname.trans hI.name, fun t' ht' => ?_, fun q hq => hI.requests q (by rw [← hrequests]; exact hq)⟩
  rw [hthread] at ht'
  cases ht'
  exact ht

theorem Traced.set_request (hI : Traced queueName g) {r : Nat} {q : Request}
    (hq : ∃ iteration n, q.Went queueName iteration n) (hname : g'.queueName = g.queueName) (hthread : g'.thread = g.thread)
    (hrequests : g'.requests = g.requests.set r q) : Traced queueName g' := by
  refine ⟨hname.trans hI.name, fun t ht => hI.thread t (by rw [← hthread]; exact ht), fun q' hq' => ?_⟩
  rw [hrequests] at hq'
  rcases List.mem_or_eq_of_mem_set hq' with h | rfl
  · exact hI.requests q' h
  · exact hq

theorem traced_step {a : Action} (hI : Traced queueName g) (h : g.step a = some g') : Traced queueName g' := by
  cases a with
  | generate count =>
    cases h
    refine ⟨hI.name, hI.thread, fun q hq => ?_⟩
    rcases List.mem_append.1 hq with hq | hq
    · exact hI.requests q hq
    · rw [List.mem_singleton.1 hq]
      exact ⟨fun _ => default, 0, Request.went_receive ..⟩
  | testRunning =>
    obtain ⟨t, t', ht, hstep, rfl⟩ := own_step h
    obtain ⟨iteration, n, hwent⟩ := hI.thread t ht
    exact hI.set_thread ⟨_, _, GeneratorThread.went_testRunning hwent hstep⟩ rfl rfl rfl
  | currentTimeMillis src millis =>
    cases src with
    | startThread =>
      obtain ⟨t, t', ht, hstep, rfl⟩ := own_step h
      obtain ⟨iteration, n, hwent⟩ := hI.thread t ht
      exact hI.set_thread ⟨_, _, GeneratorThread.went_currentTimeMillis hwent hstep⟩ rfl rfl rfl
    | generate r =>
      obtain ⟨q, q', hq, hstep, rfl⟩ := own_step h
      obtain ⟨iteration, n, hwent⟩ := hI.requests q (List.mem_of_getElem? hq)
      exact hI.set_request ⟨_, _, Request.went_currentTimeMillis hwent hstep⟩ rfl rfl rfl
  | publishMessage src c =>
    cases src with
    | startThread =>
      obtain ⟨t, ⟨id, t'⟩, ht, hstep, rfl⟩ := own_step h
      obtain ⟨iteration, n, hwent⟩ := hI.thread t ht
      rw [hI.name] at hstep
      exact hI.set_thread ⟨_, _, GeneratorThread.went_publishMessage hwent hstep⟩ rfl rfl rfl
    | generate r =>
      obtain ⟨q, ⟨id, q'⟩, hq, hstep, rfl⟩ := own_step h
      obtain ⟨iteration, n, hwent⟩ := hI.requests q (List.mem_of_getElem? hq)
      rw [hI.name] at hstep
      exact hI.set_request ⟨_, _, Request.went_publishMessage hwent hstep⟩ rfl rfl rfl
  | sleep =>
    obtain ⟨t, t', ht, hstep, rfl⟩ := own_step h
    obtain ⟨iteration, n, hwent⟩ := hI.thread t ht
    exact hI.set_thread ⟨_, _, GeneratorThread.went_sleep hwent hstep⟩ rfl rfl rfl
  | respond r =>
    obtain ⟨q, q', hq, hstep, rfl⟩ := own_step h
    obtain ⟨iteration, n, hwent⟩ := hI.requests q (List.mem_of_getElem? hq)
    exact hI.set_request ⟨_, _, Request.went_respond hwent hstep⟩ rfl rfl rfl

end Step

section Run

variable {queueName : String} {isRunning : Bool} {as : List Action} {g : TransGenerator}
  (h : Lts.run step (new queueName isRunning) as = some g)
include h

theorem traced_run : Traced queueName g :=
  Lts.run_inv (fun _ _ _ hI hs => traced_step hI hs) (traced_new queueName isRunning) h

/-- A request that has responded has made the calls of one `generate` and responded what it returns. -/
theorem responded_generate {q : Request} (hq : q ∈ g.requests) {text : String} (hp : q.point = .responded text) :
    ∃ iteration, exec (generate queueName iteration q.count) [] = (.ok text, q.calls) := by
  obtain ⟨iteration, n, hwent⟩ := (traced_run h).requests q hq
  have hpoint := hwent.point
  rw [hp] at hpoint
  exact ⟨iteration, hpoint⟩

/-- Once it has responded, a request for some messages has reported all of them. -/
theorem responded_response {q : Request} (hq : q ∈ g.requests) {text : String} (hp : q.point = .responded text)
    (hcount : 0 < q.count) : text = response q.count.toInt := by
  obtain ⟨iteration, n, hwent⟩ := (traced_run h).requests q hq
  have hpoint := hwent.point
  rw [hp] at hpoint
  have hexec : exec (generate queueName iteration q.count) [] = (.ok text, q.calls) := hpoint
  rw [exec_generate queueName iteration q.count hcount] at hexec
  simpa using (congrArg Prod.fst hexec).symm

/-- The calls made by the thread are those of its iterations. -/
theorem thread_calls {t : GeneratorThread} (ht : g.thread = some t) :
    ∃ iteration n, t.calls = callsOf queueName iteration n := by
  obtain ⟨iteration, n, hwent⟩ := (traced_run h).thread t ht
  exact ⟨iteration, n, hwent.calls⟩

end Run

/-- A request for two messages, whose `publishMessage`s are taken between those of the thread and of another request. -/
def mixedRun : List Action :=
  let callees := Generator.sampleCallees (.ok "transactions")
  [.generate 2, .testRunning, .generate 1, .currentTimeMillis (.generate 0) 0, .currentTimeMillis .startThread 0,
    .publishMessage (.generate 0) callees, .currentTimeMillis (.generate 1) 1, .publishMessage .startThread callees,
    .currentTimeMillis (.generate 0) 2, .publishMessage (.generate 1) callees, .publishMessage (.generate 0) callees,
    .respond 0]

theorem responded_generate_mixed : ∃ g q, Lts.run step (new "transaction-queue" true) mixedRun = some g ∧ q ∈ g.requests ∧
    ∃ iteration, exec (generate "transaction-queue" iteration q.count) [] =
      (.ok "2 messages generated successfully.", q.calls) := by
  have hrun : (Lts.run step (new "transaction-queue" true) mixedRun).map (fun g => g.requests[0]?.map Request.point) =
      some (some (.responded "2 messages generated successfully.")) := by decide +kernel
  obtain ⟨g, hg, hpoint⟩ := Option.map_eq_some_iff.1 hrun
  obtain ⟨q, hq, hp⟩ := Option.map_eq_some_iff.1 hpoint
  exact ⟨g, q, hg, List.mem_of_getElem? hq, responded_generate hg (List.mem_of_getElem? hq) hp⟩

end TransGenerator

end FraudDetect.Generator
