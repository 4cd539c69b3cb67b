/-
Whether a `fraudReason` the sender supplies reaches the notify queue. Two runs of the workers with the
same interleaving, on messages that decode to the same transactions up to their reasons, send the same
notifications as long as every notification is for a message whose own transaction satisfies a rule. A
notification for any other message is the sender's transaction as it came.
-/
import FraudDetect.Drools.Reasons
import FraudDetect.Service.Pool

namespace FraudDetect.Service

open FraudDetect.Drools

/-- The body decodes to a transaction that satisfies a rule. -/
def OwnMatch (cfg : Config) (m : Message) : Bool := (cfg.mapper.readValue m.body).any fun t => t.any flagged

theorem ownMatch_some {cfg : Config} {m : Message} {t : Transaction} (h : cfg.mapper.readValue m.body = some (some t)) :
    OwnMatch cfg m = flagged t := by
  unfold OwnMatch
  rw [h]
  rfl

/-- Deliveries with the same receipt whose bodies differ in the value of `fraudReason` at most: both fail
to decode, or they decode alike. -/
structure SameMessage (cfg : Config) (m m' : Message) : Prop where
  receiptHandle : m'.receiptHandle = m.receiptHandle
  body : (cfg.mapper.readValue m.body = none ∧ cfg.mapper.readValue m'.body = none) ∨
    ∃ t u, cfg.mapper.readValue m.body = some t ∧ cfg.mapper.readValue m'.body = some u ∧ Engine.SameArgument t u

theorem SameMessage.refl (cfg : Config) (m : Message) : SameMessage cfg m m := by
  refine ⟨rfl, ?_⟩
  cases h : cfg.mapper.readValue m.body with
  | none => exact .inl ⟨rfl, rfl⟩
  | some t => exact .inr ⟨t, t, rfl, rfl, .refl t⟩

/-! ## What one run keeps -/

/-- The object is the transaction the message decodes to; it has lost its reason only if it satisfies a
rule. -/
def Decoded (cfg : Config) (h : Heap) (m : Message) (r : Ref) : Prop :=
  ∃ t, cfg.mapper.readValue m.body = some (some t) ∧ (h.obj r).SameButReason t ∧ (flagged t = false → h.obj r = t)

/-- What is sent for the message is its own transaction, as it came unless it satisfies a rule. -/
def SentFor (cfg : Config) (m : Message) (body : String) : Prop :=
  ∃ t, cfg.mapper.readValue m.body = some (some t) ∧ (flagged t = false → body = cfg.mapper.writeValueAsString t)

theorem Decoded.mono {cfg : Config} {h h' : Heap} {m : Message} {r : Ref} (hd : Decoded cfg h m r) (hk : h.Keeps h')
    (hr : r < h.next) : Decoded cfg h' m r := by
  obtain ⟨t, ht, hs, hc⟩ := hd
  refine ⟨t, ht, (hk.same r hr).trans hs, fun hf => ?_⟩
  rw [hk.clean r hr ((flagged_congr hs).trans hf)]
  exact hc hf

namespace Pool

variable {n : Nat} {cfg : Config} {s s' t t' : Pool n} {a : PoolAction n}

/-- How the place of worker `w` is linked to the message it processes. -/
def PointLinked (cfg : Config) (e : Engine n) (w : Fin n) : Point → Prop
  | .evaluating m => ∀ r, e.phase w = .called (some r) ∨ e.phase w = .inserted (some r) → Decoded cfg e.heap m r
  | .writing m r => Decoded cfg e.heap m r ∧ r ∈ e.session.facts ∧ ∀ a ∈ e.session.agenda, a.ref ≠ r
  | .sending m body => SentFor cfg m body
  | _ => True

structure Linked (cfg : Config) (s : Pool n) : Prop where
  objects : s.engine.Objects
  point : ∀ w, PointLinked cfg s.engine w (s.point w)
  calls : ∀ c ∈ s.calls, ∀ queueUrl body ok, c.event = .sendMessage queueUrl body ok → SentFor cfg c.delivery body

theorem linked_new : (new n).Linked cfg where
  objects := Engine.objects_new
  point _ := trivial
  calls _ h := by cases h

theorem pointLinked_mono {e e' : Engine n} {w v : Fin n} {p : Point} (h : e.Objects) (he : Engine.Evolves w e e')
    (hv : v ≠ w) (hp : PointLinked cfg e v p) : PointLinked cfg e' v p := by
  cases p with
  | evaluating m =>
    intro r hr
    rw [he.phase v hv] at hr
    refine (hp r hr).mono he.keeps ?_
    rcases hr with hr | hr
    · exact h.calledLt v r hr
    · exact h.factsLt r (h.insertedFact v r hr)
  | writing m r =>
    obtain ⟨hd, hr, hag⟩ := hp
    refine ⟨hd.mono he.keeps (h.factsLt r hr), he.facts r hr, ?_⟩
    rintro a ha rfl
    rcases he.agenda a ha with ha | ha
    · exact hag a ha rfl
    · exact ha hr
  | sending m body => exact hp
  | _ => trivial

/-- Only the worker that steps needs looking at. -/
theorem linked_update {w : Fin n} {p : Point} (hI : s.Linked cfg) (hobj : s'.engine.Objects)
    (he : Engine.Evolves w s.engine s'.engine) (hpoint : s'.point = Function.update s.point w p)
    (hw : PointLinked cfg s'.engine w p)
    (hcalls : s'.calls = s.calls ∨ ∃ m event, s'.calls = s.calls ++ [⟨m, event⟩] ∧
      ∀ queueUrl body ok, event = .sendMessage queueUrl body ok → SentFor cfg m body) : s'.Linked cfg where
  objects := hobj
  point := by
    intro v
    rw [hpoint]
    by_cases hv : v = w
    · subst hv; rw [Function.update_self]; exact hw
    · rw [Function.update_of_ne hv]; exact pointLinked_mono hI.objects he hv (hI.point v)
  calls := by
    rcases hcalls with hc | ⟨m, event, hc, hevent⟩
    · rw [hc]; exact hI.calls
    · rw [hc]
      intro c hmem
      rcases List.mem_append.1 hmem with hmem | hmem
      · exact hI.calls c hmem
      · rw [List.mem_singleton.1 hmem]; exact hevent

theorem decode_some {m : Message} {ok : Bool} {x : Option Transaction} (h : cfg.decode m ok = some x) :
    cfg.mapper.readValue m.body = some x := by
  cases ok with
  | true => exact h
  | false => cases h

theorem linked_step (hI : s.Linked cfg) (h : s.step cfg a = some s') : s'.Linked cfg := by
  cases a with
  | take w m =>
    obtain ⟨-, rfl⟩ := step_take.1 h
    exact linked_update hI hI.objects (.refl w _) rfl trivial (.inl rfl)
  | readValue w ok =>
    obtain ⟨m, hp, ⟨-, rfl⟩ | ⟨x, e, hx, he, rfl⟩⟩ := step_readValue.1 h
    · exact linked_update hI hI.objects (.refl w _) rfl trivial (.inr ⟨m, _, rfl, nofun⟩)
    · obtain ⟨-, rfl⟩ := Engine.step_call.1 he
      refine linked_update hI (Engine.objects_call hI.objects w x) (Engine.evolves_call _ w x) rfl ?_
        (.inr ⟨m, _, rfl, nofun⟩)
      intro r hr
      change (s.engine.call w x).phase w = _ ∨ (s.engine.call w x).phase w = _ at hr
      rw [Engine.call_phase_self] at hr
      cases x with
      | none => rcases hr with hr | hr <;> cases hr
      | some y =>
        have hnext : s.engine.heap.next = r := by rcases hr with hr | hr <;> cases hr; rfl
        rw [← hnext]
        have hobj : (s.engine.heap.alloc y).obj s.engine.heap.next = y := Heap.alloc_obj_self ..
        refine ⟨y, decode_some hx, ?_, fun _ => hobj⟩
        show ((s.engine.heap.alloc y).obj s.engine.heap.next).SameButReason y
        rw [hobj]
        exact .refl y
  | insert w =>
    obtain ⟨m, e, hp, he, rfl⟩ := step_insert.1 h
    obtain ⟨o, ho, rfl⟩ := Engine.step_insert.1 he
    refine linked_update hI (Engine.objects_insert hI.objects ho) (Engine.evolves_insert hI.objects ho)
      (Function.update_eq_self w s.point).symm ?_ (.inl rfl)
    rw [hp]
    intro r hr
    change (s.engine.insert w o).phase w = _ ∨ (s.engine.insert w o).phase w = _ at hr
    rw [Engine.insert_phase_self] at hr
    have hor : o = some r := by rcases hr with hr | hr <;> cases hr; rfl
    have hlinked := hI.point w
    rw [hp] at hlinked
    have hd := hlinked r (.inl (by rw [ho, hor]))
    exact hd.mono (Engine.evolves_insert hI.objects ho).keeps (hI.objects.calledLt w r (by rw [ho, hor]))
  | fireAllRules w order =>
    obtain ⟨m, o, e, hp, ho, he, rfl⟩ := step_fireAllRules.1 h
    obtain ⟨o', ho', hperm, rfl⟩ := Engine.step_fireAllRules.1 he
    rw [ho] at ho'; cases ho'
    rw [← List.append_nil order] at hperm
    have hev : Engine.Evolves w s.engine (s.engine.fireAllRules w o order) :=
      Engine.evolves_fireThen hI.objects hperm rfl rfl
    refine linked_update hI (Engine.objects_fireThen hI.objects hperm rfl rfl) hev rfl ?_ (.inr ⟨m, _, rfl, nofun⟩)
    have hlinked := hI.point w
    rw [hp] at hlinked
    generalize decide (order.length > 0) = isFraud
    cases o with
    | none => trivial
    | some r =>
      cases isFraud with
      | false => trivial
      | true =>
        have hr := hI.objects.insertedFact w r ho
        exact ⟨(hlinked r (.inr ho)).mono hev.keeps (hI.objects.factsLt r hr), hev.facts r hr, nofun⟩
  | evaluateThrows w done rest =>
    obtain ⟨m, hp, hperm, -, rfl⟩ := step_evaluateThrows.1 h
    exact linked_update hI (Engine.objects_fireThen hI.objects hperm rfl rfl)
      (Engine.evolves_fireThen hI.objects hperm rfl rfl) rfl trivial (.inr ⟨m, _, rfl, nofun⟩)
  | writeValueAsString w ok =>
    obtain ⟨m, r, hp, rfl⟩ := step_writeValueAsString.1 h
    refine linked_update hI hI.objects (.refl w _) rfl ?_ (.inr ⟨m, _, rfl, nofun⟩)
    cases ok with
    | false => trivial
    | true =>
      have hlinked := hI.point w
      rw [hp] at hlinked
      obtain ⟨⟨x, hx, -, hclean⟩, -, -⟩ := hlinked
      exact ⟨x, hx, fun hf => by rw [hclean hf]⟩
  | sendMessage w ok =>
    obtain ⟨m, body, hp, rfl⟩ := step_sendMessage.1 h
    have hlinked := hI.point w
    rw [hp] at hlinked
    refine linked_update hI hI.objects (.refl w _) rfl ?_ (.inr ⟨m, _, rfl, fun queueUrl body' ok' he => ?_⟩)
    · cases ok <;> trivial
    · cases he; exact hlinked
  | deleteMessage w ok =>
    obtain ⟨m, ⟨-, -, rfl⟩ | ⟨-, rfl⟩⟩ := step_deleteMessage.1 h
    · exact linked_update hI hI.objects (.refl w _) rfl trivial (.inr ⟨m, _, rfl, nofun⟩)
    · exact linked_update hI hI.objects (.refl w _) rfl trivial (.inr ⟨m, _, rfl, nofun⟩)

/-! ## Two runs -/

/-- The same step, with a task whose body may have another `fraudReason`. -/
inductive SameAction (cfg : Config) : PoolAction n → PoolAction n → Prop
  | take (w : Fin n) {m m' : Message} (h : SameMessage cfg m m') : SameAction cfg (.take w m) (.take w m')
  | same (a : PoolAction n) (h : ∀ w m, a ≠ .take w m) : SameAction cfg a a

theorem SameAction.refl : ∀ a : PoolAction n, SameAction cfg a a
  | .take w m => .take w (.refl cfg m)
  | .readValue .. => .same _ nofun
  | .insert _ => .same _ nofun
  | .fireAllRules .. => .same _ nofun
  | .evaluateThrows .. => .same _ nofun
  | .writeValueAsString .. => .same _ nofun
  | .sendMessage .. => .same _ nofun
  | .deleteMessage .. => .same _ nofun

/-- The same place; what is being sent may differ only for a message that satisfies no rule. -/
inductive SamePoint (cfg : Config) : Point → Point → Prop
  | unborn : SamePoint cfg .unborn .unborn
  | idle : SamePoint cfg .idle .idle
  | reading {m m' : Message} (h : SameMessage cfg m m') : SamePoint cfg (.reading m) (.reading m')
  | evaluating {m m' : Message} (h : SameMessage cfg m m') : SamePoint cfg (.evaluating m) (.evaluating m')
  | writing {m m' : Message} (r : Ref) (h : SameMessage cfg m m') : SamePoint cfg (.writing m r) (.writing m' r)
  | sending {m m' : Message} {body body' : String} (h : SameMessage cfg m m')
    (hb : OwnMatch cfg m = true → body' = body) : SamePoint cfg (.sending m body) (.sending m' body')
  | deleting {m m' : Message} (h : SameMessage cfg m m') : SamePoint cfg (.deleting m) (.deleting m')
  | recovering {m m' : Message} (h : SameMessage cfg m m') : SamePoint cfg (.recovering m) (.recovering m')

/-- The same call, for a message that satisfies a rule or a call that sends nothing. -/
def SameCall (cfg : Config) (c c' : Call) : Prop :=
  (c.event.isSend = true → OwnMatch cfg c.delivery = true) → c'.event = c.event

structure SameRun (cfg : Config) (s t : Pool n) : Prop where
  engine : Engine.SameRun s.engine t.engine
  point : ∀ w, SamePoint cfg (s.point w) (t.point w)
  calls : List.Forall₂ (SameCall cfg) s.calls t.calls

theorem SameRun.point_at {w : Fin n} {p q : Point} (hR : SameRun cfg s t) (hp : s.point w = p) (hq : t.point w = q) :
    SamePoint cfg p q := by
  rw [← hp, ← hq]
  exact hR.point w

theorem sameRun_new : SameRun cfg (new n) (new n) where
  engine := .refl _
  point _ := .unborn
  calls := .nil

theorem samePoint_update {f g : Fin n → Point} {w : Fin n} {p q : Point} (hfg : ∀ v, SamePoint cfg (f v) (g v))
    (hpq : SamePoint cfg p q) (v : Fin n) :
    SamePoint cfg (Function.update f w p v) (Function.update g w q v) := by
  by_cases hv : v = w
  · subst hv; rw [Function.update_self, Function.update_self]; exact hpq
  · rw [Function.update_of_ne hv, Function.update_of_ne hv]; exact hfg v

theorem sameDecode {m m' : Message} (hm : SameMessage cfg m m') (ok : Bool) :
    (cfg.decode m ok = none ∧ cfg.decode m' ok = none) ∨
      ∃ x y, cfg.decode m ok = some x ∧ cfg.decode m' ok = some y ∧ Engine.SameArgument x y := by
  cases ok with
  | false => exact .inl ⟨rfl, rfl⟩
  | true => exact hm.body

theorem samePoint_afterEvaluate {m m' : Message} (hm : SameMessage cfg m m') (o : Option Ref) (isFraud : Bool) :
    SamePoint cfg (afterEvaluate m o isFraud) (afterEvaluate m' o isFraud) := by
  cases o with
  | none => exact .recovering hm
  | some r =>
    cases isFraud with
    | false => exact .deleting hm
    | true => exact .writing r hm

/-- A worker makes a call in both runs and goes on. -/
theorem sameRun_call {w : Fin n} {m m' : Message} {event event' : Event} {p q : Point} {e f : Engine n}
    (hR : SameRun cfg s t) (hef : Engine.SameRun e f) (hpq : SamePoint cfg p q)
    (hevent : (event.isSend = true → OwnMatch cfg m = true) → event' = event) :
    SameRun cfg (((s.record m event).withEngine e).move w p) (((t.record m' event').withEngine f).move w q) where
  engine := hef
  point := samePoint_update hR.point hpq
  calls := List.rel_append hR.calls (.cons hevent .nil)

/-- The task ends in both runs with a delete. -/
theorem sameRun_finish {w : Fin n} {m m' : Message} {event : Event} (hR : SameRun cfg s t) :
    SameRun cfg ((s.record m event).finish w m) ((t.record m' event).finish w m') where
  engine := hR.engine
  point := samePoint_update hR.point .idle
  calls := List.rel_append hR.calls (.cons (fun _ => rfl) .nil)

theorem sameRun_step {b : PoolAction n} (hI : s.Linked cfg) (hR : SameRun cfg s t) (hab : SameAction cfg a b)
    (hs : s.step cfg a = some s') (ht : t.step cfg b = some t') : SameRun cfg s' t' := by
  cases hab with
  | take w hm =>
    obtain ⟨-, rfl⟩ := step_take.1 hs
    obtain ⟨-, rfl⟩ := step_take.1 ht
    exact ⟨hR.engine, samePoint_update hR.point (.reading hm), hR.calls⟩
  | same a ha =>
  cases a with
  | take w m => exact absurd rfl (ha w m)
  | readValue w ok =>
    obtain ⟨m, hp, hs⟩ := step_readValue.1 hs
    obtain ⟨m', hq, ht⟩ := step_readValue.1 ht
    cases hR.point_at hp hq with | reading hm =>
    -- the two bodies are decoded alike up to `fraudReason`, or not at all
    rcases sameDecode hm ok with ⟨hd, hd'⟩ | ⟨x, y, hd, hd', hxy⟩
    · rw [hd] at hs
      rw [hd'] at ht
      obtain ⟨-, rfl⟩ | ⟨x, e, hx, -⟩ := hs
      · obtain ⟨-, rfl⟩ | ⟨y, f, hy, -⟩ := ht
        · exact sameRun_call hR hR.engine (.recovering hm) fun _ => rfl
        · cases hy
      · cases hx
    · rw [hd] at hs
      rw [hd'] at ht
      obtain ⟨hx, -⟩ | ⟨x', e, hx, he, rfl⟩ := hs
      · cases hx
      · obtain ⟨hy, -⟩ | ⟨y', f, hy, hf, rfl⟩ := ht
        · cases hy
        · cases hx; cases hy
          obtain ⟨-, rfl⟩ := Engine.step_call.1 he
          obtain ⟨-, rfl⟩ := Engine.step_call.1 hf
          exact sameRun_call hR (Engine.sameRun_call hR.engine hI.objects hxy) (.evaluating hm) fun _ => rfl
  | insert w =>
    obtain ⟨m, e, hp, he, rfl⟩ := step_insert.1 hs
    obtain ⟨m', f, hq, hf, rfl⟩ := step_insert.1 ht
    obtain ⟨o, ho, rfl⟩ := Engine.step_insert.1 he
    obtain ⟨o', ho', rfl⟩ := Engine.step_insert.1 hf
    rw [hR.engine.phase, ho] at ho'; cases ho'
    exact ⟨Engine.sameRun_insert hR.engine hI.objects ho, hR.point, hR.calls⟩
  | fireAllRules w order =>
    obtain ⟨m, o, e, hp, ho, he, rfl⟩ := step_fireAllRules.1 hs
    obtain ⟨m', o', f, hq, ho', hf, rfl⟩ := step_fireAllRules.1 ht
    obtain ⟨e₁, -, hperm, rfl⟩ := Engine.step_fireAllRules.1 he
    obtain ⟨f₁, -, -, rfl⟩ := Engine.step_fireAllRules.1 hf
    rw [hR.engine.phase, ho] at ho'; cases ho'
    rw [← List.append_nil order] at hperm
    cases hR.point_at hp hq with | evaluating hm =>
    refine sameRun_call hR (Engine.sameRun_fireThen hR.engine hperm rfl rfl ?_) (samePoint_afterEvaluate hm o _)
      fun _ => rfl
    show Function.update t.engine.phase w _ = Function.update s.engine.phase w _
    rw [hR.engine.phase]
  | evaluateThrows w done rest =>
    obtain ⟨m, hp, hperm, -, rfl⟩ := step_evaluateThrows.1 hs
    obtain ⟨m', hq, -, -, rfl⟩ := step_evaluateThrows.1 ht
    cases hR.point_at hp hq with | evaluating hm =>
    refine sameRun_call hR (Engine.sameRun_fireThen hR.engine hperm rfl rfl ?_) (.recovering hm) fun _ => rfl
    show Function.update t.engine.phase w _ = Function.update s.engine.phase w _
    rw [hR.engine.phase]
  | writeValueAsString w ok =>
    obtain ⟨m, r, hp, rfl⟩ := step_writeValueAsString.1 hs
    obtain ⟨m', r', hq, rfl⟩ := step_writeValueAsString.1 ht
    cases hR.point_at hp hq with | writing _ hm =>
    refine sameRun_call hR hR.engine ?_ fun _ => rfl
    cases ok with
    | false => exact .recovering hm
    | true =>
      refine .sending hm fun hown => ?_
      -- an own match has been fired before this worker returned from `evaluate`
      have hlinked := hI.point w
      rw [hp] at hlinked
      obtain ⟨⟨x, hx, hsame, -⟩, hfact, hag⟩ := hlinked
      rw [ownMatch_some hx, ← flagged_congr hsame] at hown
      rw [hR.engine.settled r hfact hown hag]
  | sendMessage w ok =>
    obtain ⟨m, body, hp, rfl⟩ := step_sendMessage.1 hs
    obtain ⟨m', body', hq, rfl⟩ := step_sendMessage.1 ht
    cases hR.point_at hp hq with | sending hm hb =>
    refine sameRun_call hR hR.engine ?_ fun hown => by rw [hb (hown rfl)]
    cases ok with
    | false => exact .recovering hm
    | true => exact .deleting hm
  | deleteMessage w ok =>
    -- of one outcome in both runs, the delete ends both tasks or neither
    have hpq := hR.point w
    obtain ⟨m, ⟨hp, hok, rfl⟩ | ⟨hp, rfl⟩⟩ := step_deleteMessage.1 hs <;>
      obtain ⟨m', ⟨hq, hok', rfl⟩ | ⟨hq, rfl⟩⟩ := step_deleteMessage.1 ht
    · cases hR.point_at hp hq with | deleting hm =>
      rw [hm.receiptHandle]
      exact sameRun_call hR hR.engine (.recovering hm) fun _ => rfl
    · rw [hp] at hpq
      rcases hq with ⟨-, hok'⟩ | hq
      · rw [hok] at hok'; cases hok'
      · rw [hq] at hpq; cases hpq
    · rw [hq] at hpq
      rcases hp with ⟨-, hok⟩ | hp
      · rw [hok'] at hok; cases hok
      · rw [hp] at hpq; cases hpq
    · have hm : SameMessage cfg m m' := by
        rcases hp with ⟨hp, -⟩ | hp <;> rcases hq with ⟨hq, -⟩ | hq <;> rw [hp, hq] at hpq <;> cases hpq <;> assumption
      rw [hm.receiptHandle]
      exact sameRun_finish hR

/-! ## Notifications -/

/-- The notifications sent, each with its outcome, oldest first. -/
def notifications (s : Pool n) : List Event := (s.calls.map Call.event).filter Event.isSend

/-- A notification is sent only for a message whose own transaction satisfies a rule. -/
def NotifiesOwn (cfg : Config) (s : Pool n) : PoolAction n → Prop
  | .sendMessage w _ =>
    match s.point w with
    | .sending m _ => OwnMatch cfg m = true
    | _ => True
  | _ => True

instance (cfg : Config) (s : Pool n) (a : PoolAction n) : Decidable (NotifiesOwn cfg s a) := by
  unfold NotifiesOwn
  split
  · split <;> infer_instance
  · infer_instance

/-- Every notification sent so far is for a message whose own transaction satisfies a rule. -/
def SendsOwn (cfg : Config) (s : Pool n) : Prop := ∀ c ∈ s.calls, c.event.isSend = true → OwnMatch cfg c.delivery = true

/-- The notification for `c` is the sender's transaction as it came, which satisfies no rule. -/
def Leaks (cfg : Config) (c : Call) : Prop :=
  ∃ t queueUrl ok, cfg.mapper.readValue c.delivery.body = some (some t) ∧ flagged t = false ∧
    c.event = .sendMessage queueUrl (cfg.mapper.writeValueAsString t) ok

theorem sendsOwn_append {c : Call} (hc : s'.calls = s.calls ++ [c]) :
    s'.SendsOwn cfg ↔ s.SendsOwn cfg ∧ (c.event.isSend = true → OwnMatch cfg c.delivery = true) := by
  unfold SendsOwn
  rw [hc, List.forall_mem_append]
  simp

/-- Any other call than `sendMessage` changes nothing. -/
theorem sendsOwn_other {m : Message} {event : Event} (hc : s'.calls = s.calls ++ [⟨m, event⟩])
    (hevent : event.isSend = false) (ha : NotifiesOwn cfg s a) :
    s'.SendsOwn cfg ↔ s.SendsOwn cfg ∧ NotifiesOwn cfg s a := by
  rw [sendsOwn_append hc]
  refine and_congr_right fun _ => iff_of_true (fun he => ?_) ha
  rw [hevent] at he
  cases he

theorem sendsOwn_step (h : s.step cfg a = some s') : s'.SendsOwn cfg ↔ s.SendsOwn cfg ∧ NotifiesOwn cfg s a := by
  cases a with
  | take w m =>
    obtain ⟨-, rfl⟩ := step_take.1 h
    exact ⟨fun hs => ⟨hs, trivial⟩, And.left⟩
  | readValue w ok =>
    obtain ⟨m, -, ⟨-, rfl⟩ | ⟨x, e, -, -, rfl⟩⟩ := step_readValue.1 h
    · exact sendsOwn_other rfl rfl trivial
    · exact sendsOwn_other rfl rfl trivial
  | insert w =>
    obtain ⟨m, e, -, -, rfl⟩ := step_insert.1 h
    exact ⟨fun hs => ⟨hs, trivial⟩, And.left⟩
  | fireAllRules w order =>
    obtain ⟨m, o, e, -, -, -, rfl⟩ := step_fireAllRules.1 h
    exact sendsOwn_other rfl rfl trivial
  | evaluateThrows w done rest =>
    obtain ⟨m, -, -, -, rfl⟩ := step_evaluateThrows.1 h
    exact sendsOwn_other rfl rfl trivial
  | writeValueAsString w ok =>
    obtain ⟨m, r, -, rfl⟩ := step_writeValueAsString.1 h
    exact sendsOwn_other rfl rfl trivial
  | sendMessage w ok =>
    obtain ⟨m, body, hp, rfl⟩ := step_sendMessage.1 h
    rw [sendsOwn_append rfl]
    simp only [NotifiesOwn, hp]
    exact and_congr_right fun _ => ⟨fun hs => hs rfl, fun hs _ => hs⟩
  | deleteMessage w ok =>
    obtain ⟨m, ⟨-, -, rfl⟩ | ⟨-, rfl⟩⟩ := step_deleteMessage.1 h
    · exact sendsOwn_other rfl rfl trivial
    · exact sendsOwn_other rfl rfl trivial

theorem events_eq : ∀ {cs ds : List Call}, List.Forall₂ (SameCall cfg) cs ds →
    (∀ c ∈ cs, c.event.isSend = true → OwnMatch cfg c.delivery = true) → ds.map Call.event = cs.map Call.event
  | [], [], _, _ => rfl
  | c :: cs, d :: ds, .cons hcd h, hown => by
    obtain ⟨hc, hcs⟩ := List.forall_mem_cons.1 hown
    rw [List.map_cons, List.map_cons, hcd hc, events_eq h hcs]

theorem notifications_eq (hR : SameRun cfg s t) (hown : s.SendsOwn cfg) : t.notifications = s.notifications := by
  unfold notifications
  rw [events_eq hR.calls hown]

/-- Two runs with the same interleaving, on messages that differ in their `fraudReason` at most: when every
notification of the first is for a message whose own transaction satisfies a rule, both send the same
notifications. In any other run some notification is a sender's transaction as it came. -/
theorem notifications_noninterfering (n : Nat) (cfg : Config) (actions : List (PoolAction n)) (s : Pool n)
    (h : Lts.run (step cfg) (new n) actions = some s) :
    (Lts.Along (step cfg) (NotifiesOwn cfg) (new n) actions → ∀ actions' s',
        List.Forall₂ (SameAction cfg) actions actions' → Lts.run (step cfg) (new n) actions' = some s' →
        s'.notifications = s.notifications) ∧
      (¬ Lts.Along (step cfg) (NotifiesOwn cfg) (new n) actions → ∃ c ∈ s.calls, Leaks cfg c) := by
  have hiff : s.SendsOwn cfg ↔ Lts.Along (step cfg) (NotifiesOwn cfg) (new n) actions := by
    have hrun := Lts.inv_iff_along (J := fun _ => True) (I := SendsOwn cfg) (fun _ _ _ _ _ => trivial)
      (fun _ _ _ _ hs => sendsOwn_step hs) trivial h
    exact hrun.trans (and_iff_right (by intro c hc; cases hc))
  constructor
  · intro hC actions' s' hactions h'
    have hrel : s.Linked cfg ∧ SameRun cfg s s' := by
      refine Lts.run_rel (C := fun _ _ => True) (R := fun s t => s.Linked cfg ∧ SameRun cfg s t) ?_
        ⟨linked_new, sameRun_new⟩ hactions Lts.along_true h h'
      intro s t a b s' t' hR hab _ hs ht
      exact ⟨linked_step hR.1 hs, sameRun_step hR.1 hR.2 hab hs ht⟩
    exact notifications_eq hrel.2 (hiff.2 hC)
  · intro hC
    have hlinked : s.Linked cfg := Lts.run_inv (fun _ _ _ hI hs => linked_step hI hs) linked_new h
    have hsends := mt hiff.1 hC
    unfold SendsOwn at hsends
    push Not at hsends
    obtain ⟨c, hc, hsend, hno⟩ := hsends
    refine ⟨c, hc, ?_⟩
    cases he : c.event with
    | sendMessage queueUrl body ok =>
      obtain ⟨x, hx, hbody⟩ := hlinked.calls c hc _ _ _ he
      have hf : flagged x = false := by
        rw [← ownMatch_some hx]
        exact Bool.not_eq_true _ ▸ hno
      exact ⟨x, queueUrl, ok, hx, hf, by rw [he, hbody hf]⟩
    | _ => rw [he] at hsend; cases hsend

/-- One worker on one delivery, whose transaction has a high amount. -/
def notifyRun (w : Fin n) (body : String) : List (PoolAction n) :=
  [.take w ⟨body, "receipt 1"⟩, .readValue w true, .insert w, .fireAllRules w [⟨0, .highTransactionAmount⟩],
    .writeValueAsString w true, .sendMessage w true, .deleteMessage w true]

/-- A claimed reason does not reach the notification. -/
theorem notifications_noninterfering_high : ∃ s s', Lts.run (step sampleConfig) (new 1) (notifyRun 0 highText) = some s ∧
    Lts.run (step sampleConfig) (new 1) (notifyRun 0 highClaimedText) = some s' ∧ s'.notifications = s.notifications := by
  obtain ⟨s, hs⟩ : ∃ s, Lts.run (step sampleConfig) (new 1) (notifyRun 0 highText) = some s :=
    Option.isSome_iff_exists.1 (by decide)
  obtain ⟨s', hs'⟩ : ∃ s', Lts.run (step sampleConfig) (new 1) (notifyRun 0 highClaimedText) = some s' :=
    Option.isSome_iff_exists.1 (by decide)
  have hbody : SameMessage sampleConfig ⟨highText, "receipt 1"⟩ ⟨highClaimedText, "receipt 1"⟩ :=
    ⟨rfl, .inr ⟨some highTransaction, some (highTransaction.setFraudReason "claimed by the sender"), by decide, by decide,
      .transaction _ _ (Transaction.setFraudReason_same ..)⟩⟩
  exact ⟨s, s', hs, hs', (notifications_noninterfering 1 sampleConfig _ s hs).1 (by decide) _ s'
    (.cons (.take 0 hbody) (List.forall₂_same.2 fun a _ => .refl a)) hs'⟩

/-- The second worker fires the first one's activation and takes its own transaction for fraudulent. -/
def crossedNotifyRun (w v : Fin n) (body : String) : List (PoolAction n) :=
  [.take w ⟨highText, "receipt 1"⟩, .readValue w true, .insert w, .take v ⟨body, "receipt 2"⟩, .readValue v true,
    .insert v, .fireAllRules v [⟨0, .highTransactionAmount⟩], .writeValueAsString v true, .sendMessage v true]

/-- In the crossed run the notification for the normal transaction carries the reason its sender claims. -/
theorem claimed_reason_notified : ¬ ∀ (n : Nat) (cfg : Config) (actions actions' : List (PoolAction n)) (s s' : Pool n),
    List.Forall₂ (SameAction cfg) actions actions' → Lts.run (step cfg) (new n) actions = some s →
    Lts.run (step cfg) (new n) actions' = some s' → s'.notifications = s.notifications := by
  intro h
  have hplain : (Lts.run (step sampleConfig) (new 2) (crossedNotifyRun 0 1 normalText)).map notifications =
      some [.sendMessage "notify" normalText true] := by decide
  have hclaimed : (Lts.run (step sampleConfig) (new 2) (crossedNotifyRun 0 1 normalClaimedText)).map notifications =
      some [.sendMessage "notify" normalClaimedText true] := by decide
  obtain ⟨s, hs, hn⟩ := Option.map_eq_some_iff.1 hplain
  obtain ⟨s', hs', hn'⟩ := Option.map_eq_some_iff.1 hclaimed
  have hbody : SameMessage sampleConfig ⟨normalText, "receipt 2"⟩ ⟨normalClaimedText, "receipt 2"⟩ :=
    ⟨rfl, .inr ⟨some normalTransaction, some (normalTransaction.setFraudReason "claimed by the sender"), by decide,
      by decide, .transaction _ _ (Transaction.setFraudReason_same ..)⟩⟩
  have hactions : List.Forall₂ (SameAction sampleConfig) (crossedNotifyRun (0 : Fin 2) 1 normalText)
      (crossedNotifyRun 0 1 normalClaimedText) :=
    .cons (.refl _) (.cons (.refl _) (.cons (.refl _) (.cons (.take 1 hbody) (List.forall₂_same.2 fun a _ => .refl a))))
  have heq := h 2 sampleConfig _ _ s s' hactions hs hs'
  rw [hn, hn'] at heq
  revert heq
  decide

end Pool

end FraudDetect.Service
