/-
What the workers do is what `processMessage` does. In every reachable state, whatever was interleaved and
whatever threw, the calls made for a delivery that has been processed are those of one `processMessage` on some
callees, and the calls made for one still under way are the beginning of such.
-/
import FraudDetect.Service.Conservation
import FraudDetect.Service.Layers

namespace FraudDetect.Service

open FraudDetect.Drools

/-! ## The rest of a `processMessage` -/

/-- The calls from a point on, with some callees. -/
def Point.Rest (urls : QueueUrls) (rest : List Event) : Point → Prop
  | .unborn => False
  | .idle => False
  | .reading m => ∃ c, rest = fromRead c urls m
  | .evaluating m => ∃ c transaction, rest = fromEvaluate c urls m transaction
  | .writing m _ => ∃ c t, rest = fromWrite c urls m t
  | .sending m body => ∃ c, rest = fromSend c urls m body
  | .deleting m => ∃ c, rest = fromDelete c urls m
  | .recovering m => ∃ c, rest = fromRecovery c urls m

/-- Callees every call of which throws. -/
def throwingCallees : Callees where
  readValue _ := .error .nullPointer
  evaluate _ := .error .nullPointer
  evaluated t := t
  writeValueAsString _ := .error .nullPointer
  sendMessage _ _ := .error .nullPointer
  deleteMessage _ _ _ := .error .nullPointer

section

variable {urls : QueueUrls} {m : Message} {rest : List Event}

theorem rest_exists (urls : QueueUrls) {p : Point} (hp : p.message? = some m) : ∃ rest, p.Rest urls rest := by
  cases p with
  | unborn => cases hp
  | idle => cases hp
  | reading m => exact ⟨_, throwingCallees, rfl⟩
  | evaluating m => exact ⟨_, throwingCallees, none, rfl⟩
  | writing m r => exact ⟨_, throwingCallees, default, rfl⟩
  | sending m body => exact ⟨_, throwingCallees, rfl⟩
  | deleting m => exact ⟨_, throwingCallees, rfl⟩
  | recovering m => exact ⟨_, throwingCallees, rfl⟩

/-! One lemma for each way to go on: the call made and the rest after it are a rest before it. Its outcome is
that of the one callee that is replaced. -/

theorem rest_readFails (h : (Point.recovering m).Rest urls rest) :
    (Point.reading m).Rest urls (.readValue false :: rest) := by
  obtain ⟨c, rfl⟩ := h
  exact ⟨{ c with readValue := fun _ => .error .nullPointer }, rfl⟩

theorem rest_read (h : (Point.evaluating m).Rest urls rest) : (Point.reading m).Rest urls (.readValue true :: rest) := by
  obtain ⟨c, transaction, rfl⟩ := h
  exact ⟨{ c with readValue := fun _ => .ok transaction }, rfl⟩

theorem rest_evaluateFails (h : (Point.recovering m).Rest urls rest) :
    (Point.evaluating m).Rest urls (.evaluate false :: rest) := by
  obtain ⟨c, rfl⟩ := h
  exact ⟨{ c with evaluate := fun _ => .error .nullPointer }, none, rfl⟩

theorem rest_evaluate {o : Option Ref} {isFraud : Bool} (h : (afterEvaluate m o isFraud).Rest urls rest) :
    (Point.evaluating m).Rest urls (.evaluate true :: rest) := by
  cases o with
  | none =>
    obtain ⟨c, rfl⟩ := h
    exact ⟨{ c with evaluate := fun _ => .ok isFraud }, none, rfl⟩
  | some r =>
    cases isFraud with
    | true =>
      obtain ⟨c, t, rfl⟩ := h
      exact ⟨{ c with evaluate := fun _ => .ok true, evaluated := fun _ => t }, some t, rfl⟩
    | false =>
      obtain ⟨c, rfl⟩ := h
      exact ⟨{ c with evaluate := fun _ => .ok false }, some default, rfl⟩

theorem rest_write {r : Ref} {body : String} {ok : Bool}
    (h : (if ok then Point.sending m body else .recovering m).Rest urls rest) :
    (Point.writing m r).Rest urls (.writeValueAsString ok :: rest) := by
  cases ok with
  | true =>
    obtain ⟨c, rfl⟩ := h
    exact ⟨{ c with writeValueAsString := fun _ => .ok body }, default, rfl⟩
  | false =>
    obtain ⟨c, rfl⟩ := h
    exact ⟨{ c with writeValueAsString := fun _ => .error .nullPointer }, default, rfl⟩

theorem rest_send {body : String} {ok : Bool} (h : (if ok then Point.deleting m else .recovering m).Rest urls rest) :
    (Point.sending m body).Rest urls (.sendMessage urls.notifyQueueUrl body ok :: rest) := by
  cases ok with
  | true =>
    obtain ⟨c, rfl⟩ := h
    exact ⟨{ c with sendMessage := fun _ _ => .ok () }, rfl⟩
  | false =>
    obtain ⟨c, rfl⟩ := h
    exact ⟨{ c with sendMessage := fun _ _ => .error .nullPointer }, rfl⟩

theorem rest_deleteFails (h : (Point.recovering m).Rest urls rest) :
    (Point.deleting m).Rest urls (.deleteMessage urls.transactionQueueUrl m.receiptHandle false :: rest) := by
  obtain ⟨c, rfl⟩ := h
  exact ⟨{ c with deleteMessage := fun recovery url handle =>
    if recovery then c.deleteMessage true url handle else .error .nullPointer }, rfl⟩

theorem rest_delete : (Point.deleting m).Rest urls [.deleteMessage urls.transactionQueueUrl m.receiptHandle true] :=
  ⟨{ throwingCallees with deleteMessage := fun _ _ _ => .ok () }, rfl⟩

theorem rest_recovery (ok : Bool) :
    (Point.recovering m).Rest urls [.deleteMessage urls.transactionQueueUrl m.receiptHandle ok] := by
  cases ok with
  | true => exact ⟨{ throwingCallees with deleteMessage := fun _ _ _ => .ok () }, rfl⟩
  | false => exact ⟨throwingCallees, rfl⟩

end

/-! ## The calls of a delivery -/

namespace Pool

variable {n : Nat} {cfg : Config} {s s' : Pool n} {w : Fin n} {m : Message}

/-- The calls made so far for a delivery. -/
def callsOf (s : Pool n) (m : Message) : List Event := (s.calls.filter fun c => c.delivery = m).map Call.event

theorem callsOf_self {event : Event} (h : s'.calls = s.calls ++ [⟨m, event⟩]) :
    s'.callsOf m = s.callsOf m ++ [event] := by
  unfold callsOf
  rw [h, List.filter_append, List.map_append]
  simp

theorem callsOf_other {event : Event} {m' : Message} (h : s'.calls = s.calls ++ [⟨m, event⟩]) (hm : m' ≠ m) :
    s'.callsOf m' = s.callsOf m' := by
  unfold callsOf
  rw [h, List.filter_append, List.map_append]
  simp [Ne.symm hm]

/-- How worker `w` goes on with the delivery `m`: without a call, by a call that a `processMessage` makes there, or
by its last call. -/
inductive Proceeds (cfg : Config) (s s' : Pool n) (w : Fin n) (m : Message) : Prop
  | stays (hpoint : s'.point = s.point) (hcalls : s'.calls = s.calls) (hfinished : s'.finished = s.finished)
  | calls (event : Event) (p : Point) (hpoint : s'.point = Function.update s.point w p) (hp : p.message? = some m)
      (hcalls : s'.calls = s.calls ++ [⟨m, event⟩]) (hfinished : s'.finished = s.finished)
      (hrest : ∀ rest, p.Rest cfg.urls rest → (s.point w).Rest cfg.urls (event :: rest))
  | ends (event : Event) (hpoint : s'.point = Function.update s.point w .idle)
      (hcalls : s'.calls = s.calls ++ [⟨m, event⟩]) (hfinished : s'.finished = s.finished ++ [m])
      (hrest : (s.point w).Rest cfg.urls [event])

theorem proceeds_call {event : Event} {p : Point} {e : Engine n} (hp : p.message? = some m)
    (hrest : ∀ rest, p.Rest cfg.urls rest → (s.point w).Rest cfg.urls (event :: rest)) :
    Proceeds cfg s (((s.record m event).withEngine e).move w p) w m :=
  .calls event p rfl hp rfl rfl hrest

theorem step_proceeds {a : PoolAction n} (h : s.step cfg a = some s') :
    (∃ w m, (s.point w = .unborn ∨ s.point w = .idle) ∧ s' = s.assign w m) ∨
      ∃ w m, (s.point w).message? = some m ∧ s'.assigned = s.assigned ∧ Proceeds cfg s s' w m := by
  cases a with
  | take w m =>
    obtain ⟨hw, rfl⟩ := step_take.1 h
    exact .inl ⟨w, m, hw, rfl⟩
  | readValue w ok =>
    obtain ⟨m, hp, ⟨-, rfl⟩ | ⟨t, e, -, -, rfl⟩⟩ := step_readValue.1 h
    · refine .inr ⟨w, m, by rw [hp]; rfl, rfl, proceeds_call (e := s.engine) rfl fun rest hr => ?_⟩
      rw [hp]; exact rest_readFails hr
    · refine .inr ⟨w, m, by rw [hp]; rfl, rfl, proceeds_call rfl fun rest hr => ?_⟩
      rw [hp]; exact rest_read hr
  | insert w =>
    obtain ⟨m, e, hp, -, rfl⟩ := step_insert.1 h
    exact .inr ⟨w, m, by rw [hp]; rfl, rfl, .stays rfl rfl rfl⟩
  | fireAllRules w order =>
    obtain ⟨m, o, e, hp, -, -, rfl⟩ := step_fireAllRules.1 h
    refine .inr ⟨w, m, by rw [hp]; rfl, rfl, proceeds_call (afterEvaluate_message ..) fun rest hr => ?_⟩
    rw [hp]; exact rest_evaluate hr
  | evaluateThrows w done rest =>
    obtain ⟨m, hp, -, -, rfl⟩ := step_evaluateThrows.1 h
    refine .inr ⟨w, m, by rw [hp]; rfl, rfl, proceeds_call rfl fun rest hr => ?_⟩
    rw [hp]; exact rest_evaluateFails hr
  | writeValueAsString w ok =>
    obtain ⟨m, r, hp, rfl⟩ := step_writeValueAsString.1 h
    refine .inr ⟨w, m, by rw [hp]; rfl, rfl, proceeds_call (e := s.engine) (by cases ok <;> rfl) fun rest hr => ?_⟩
    rw [hp]; exact rest_write hr
  | sendMessage w ok =>
    obtain ⟨m, body, hp, rfl⟩ := step_sendMessage.1 h
    refine .inr ⟨w, m, by rw [hp]; rfl, rfl, proceeds_call (e := s.engine) (by cases ok <;> rfl) fun rest hr => ?_⟩
    rw [hp]; exact rest_send hr
  | deleteMessage w ok =>
    obtain ⟨m, ⟨hp, rfl, rfl⟩ | ⟨hp, rfl⟩⟩ := step_deleteMessage.1 h
    · refine .inr ⟨w, m, by rw [hp]; rfl, rfl, proceeds_call (e := s.engine) rfl fun rest hr => ?_⟩
      rw [hp]; exact rest_deleteFails hr
    · rcases hp with ⟨hp, rfl⟩ | hp
      · exact .inr ⟨w, m, by rw [hp]; rfl, rfl, .ends _ rfl rfl rfl (by rw [hp]; exact rest_delete)⟩
      · exact .inr ⟨w, m, by rw [hp]; rfl, rfl, .ends _ rfl rfl rfl (by rw [hp]; exact rest_recovery ok)⟩

/-- Whatever the rest of its calls may be, those made so far and the rest are the calls of a `processMessage`. -/
structure Traced (cfg : Config) (s : Pool n) : Prop where
  working : ∀ w m, (s.point w).message? = some m → ∀ rest, (s.point w).Rest cfg.urls rest →
    ∃ c, trace c cfg.urls m = s.callsOf m ++ rest
  finished : ∀ m ∈ s.finished, ∃ c, trace c cfg.urls m = s.callsOf m

theorem traced_new : (new n).Traced cfg := ⟨nofun, nofun⟩

/-- Started once, a delivery is with one worker or has been processed. -/
theorem alone_of_nodup (hA : s.Accounted cfg) (hnd : s.assigned.Nodup) (hw : (s.point w).message? = some m) :
    (∀ v, (s.point v).message? = some m → v = w) ∧ m ∉ s.finished := by
  have hnd' := hA.assigned.nodup_iff.1 hnd
  refine ⟨fun v hv => Slots.slot_unique hnd'.of_append_left hv hw, fun hm => ?_⟩
  exact (List.disjoint_of_nodup_append hnd') (Slots.mem_contents.2 ⟨w, hw⟩) hm

theorem traced_assign (hA : s.Accounted cfg) (hI : s.Traced cfg) (hnd : (s.assign w m).assigned.Nodup) :
    (s.assign w m).Traced cfg := by
  refine ⟨fun v m' hv rest hr => ?_, hI.finished⟩
  by_cases hvw : v = w
  · subst hvw
    have hpt : (s.assign v m).point v = .reading m := by
      show Function.update s.point v (.reading m) v = _
      rw [Function.update_self]
    rw [hpt] at hv hr
    cases hv
    obtain ⟨c, rfl⟩ := hr
    -- no call has been made for a delivery that had not been assigned
    have hnew : m ∉ s.assigned := fun hm => List.disjoint_of_nodup_append hnd hm (List.mem_singleton_self _)
    have hnone : s.callsOf m = [] := by
      unfold callsOf
      rw [List.map_eq_nil_iff, List.filter_eq_nil_iff]
      intro x hx hxm
      exact hnew (of_decide_eq_true hxm ▸ (hA.calls x hx).1)
    exact ⟨c, by rw [show (s.assign v m).callsOf m = s.callsOf m from rfl, hnone, trace_eq]; rfl⟩
  · have hpt : (s.assign w m).point v = s.point v := Function.update_of_ne hvw ..
    rw [hpt] at hv hr
    exact hI.working v m' hv rest hr

/-- A call for the delivery of worker `w` leaves the calls of every other worker's delivery alone. -/
theorem Traced.other {event : Event} {p : Point} {v : Fin n} {m' : Message} {rest : List Event} (hI : s.Traced cfg)
    (hone : ∀ v, (s.point v).message? = some m → v = w) (hpoint : s'.point = Function.update s.point w p)
    (hcalls : s'.calls = s.calls ++ [⟨m, event⟩]) (hvw : v ≠ w) (hv : (s'.point v).message? = some m')
    (hr : (s'.point v).Rest cfg.urls rest) : ∃ c, trace c cfg.urls m' = s'.callsOf m' ++ rest := by
  rw [hpoint, Function.update_of_ne hvw] at hv hr
  rw [callsOf_other hcalls (by rintro rfl; exact hvw (hone v hv))]
  exact hI.working v m' hv rest hr

/-- And those of every delivery that has been processed. -/
theorem Traced.old {event : Event} {m' : Message} (hI : s.Traced cfg) (hnot : m ∉ s.finished)
    (hcalls : s'.calls = s.calls ++ [⟨m, event⟩]) (hm' : m' ∈ s.finished) : ∃ c, trace c cfg.urls m' = s'.callsOf m' := by
  rw [callsOf_other hcalls (by rintro rfl; exact hnot hm')]
  exact hI.finished m' hm'

theorem traced_proceeds (hA : s.Accounted cfg) (hI : s.Traced cfg) (hnd : s.assigned.Nodup)
    (hw : (s.point w).message? = some m) (h : Proceeds cfg s s' w m) : s'.Traced cfg := by
  obtain ⟨hone, hnot⟩ := alone_of_nodup hA hnd hw
  cases h with
  | stays hpoint hcalls hfinished =>
    have hof : ∀ m', s'.callsOf m' = s.callsOf m' := fun m' => by rw [callsOf, hcalls]; rfl
    constructor
    · intro v m' hv rest hr
      rw [hpoint] at hv hr
      rw [hof]
      exact hI.working v m' hv rest hr
    · intro m' hm'
      rw [hfinished] at hm'
      rw [hof]
      exact hI.finished m' hm'
  | calls event p hpoint hp hcalls hfinished hrest =>
    constructor
    · intro v m' hv rest hr
      by_cases hvw : v = w
      · subst hvw
        rw [hpoint, Function.update_self] at hv hr
        rw [hp] at hv; cases hv
        obtain ⟨c, hc⟩ := hI.working v m hw _ (hrest rest hr)
        exact ⟨c, by rw [hc, callsOf_self hcalls, List.append_assoc]; rfl⟩
      · exact hI.other hone hpoint hcalls hvw hv hr
    · intro m' hm'
      rw [hfinished] at hm'
      exact hI.old hnot hcalls hm'
  | ends event hpoint hcalls hfinished hrest =>
    constructor
    · intro v m' hv rest hr
      by_cases hvw : v = w
      · subst hvw
        rw [hpoint, Function.update_self] at hv; cases hv
      · exact hI.other hone hpoint hcalls hvw hv hr
    · intro m' hm'
      rw [hfinished] at hm'
      rcases List.mem_append.1 hm' with hold | hlast
      · exact hI.old hnot hcalls hold
      · rw [List.mem_singleton.1 hlast, callsOf_self hcalls]
        exact hI.working w m hw _ hrest

/-- As long as no delivery is assigned twice, the calls of each are those of a `processMessage`. -/
theorem traced_step {a : PoolAction n} (hA : s.Accounted cfg) (hI : s.assigned.Nodup → s.Traced cfg)
    (h : s.step cfg a = some s') (hnd : s'.assigned.Nodup) : s'.Traced cfg := by
  rcases step_proceeds h with ⟨w, m, -, rfl⟩ | ⟨w, m, hw, hst, hp⟩
  · exact traced_assign hA (hI (List.Nodup.of_append_left hnd)) hnd
  · rw [hst] at hnd
    exact traced_proceeds hA (hI hnd) hnd hw hp

theorem traced_run {actions : List (PoolAction n)} (h : Lts.run (step cfg) (new n) actions = some s)
    (hnd : s.assigned.Nodup) : s.Traced cfg := by
  have hinv : s.Accounted cfg ∧ (s.assigned.Nodup → s.Traced cfg) :=
    Lts.run_inv (I := fun t : Pool n => t.Accounted cfg ∧ (t.assigned.Nodup → t.Traced cfg))
      (fun _ _ _ hI hs => ⟨accounted_step hI.1 hs, traced_step hI.1 hI.2 hs⟩) ⟨accounted_new, fun _ => traced_new⟩ h
  exact hinv.2 hnd

theorem Traced.under_way (hI : s.Traced cfg) (hw : (s.point w).message? = some m) :
    ∃ c, s.callsOf m <+: trace c cfg.urls m := by
  obtain ⟨rest, hr⟩ := rest_exists cfg.urls hw
  obtain ⟨c, hc⟩ := hI.working w m hw rest hr
  exact ⟨c, rest, hc.symm⟩

end Pool

end FraudDetect.Service
