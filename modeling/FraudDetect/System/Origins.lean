/-
Where the messages of the two queues come from. A generator puts at most one message on the transaction queue for each id
it has passed to `publishMessage`, and that message holds the transaction it drew for the id. A notification goes back to
such a message, with the reason of a rule its transaction satisfies if it satisfies any.
-/
import FraudDetect.Generator.Agreement
import FraudDetect.Generator.Sources
import FraudDetect.System.Delivery

namespace FraudDetect.System

open Drools (Rule flagged)
open Generator (TransGenerator Draws generateRandomTransaction)
open Service (FraudDetectionService Message)

/-! ## The rules on a generated transaction -/

/-- The draws for which the generated transaction satisfies a rule. -/
def Satisfies (draws : Draws ℚ) : Rule → Prop
  | .highTransactionAmount => 9 / 10 ≤ (draws.amount : ℚ)
  | .suspiciousAccount => 8 / 10 < (draws.account : ℚ) ∨ (¬ 8 / 10 < (draws.account : ℚ) ∧ draws.BadByChance)

theorem when_generated_iff (draws : Draws ℚ) (id : String) (rule : Rule) :
    rule.when (generateRandomTransaction draws id).received = true ↔ Satisfies draws rule := by
  cases rule with
  | highTransactionAmount => exact Generator.high_iff draws id
  | suspiciousAccount => exact Generator.account_iff draws id

theorem exists_satisfies (draws : Draws ℚ) : (∃ rule, Satisfies draws rule) ↔
    draws.Suspicious ∨ (¬ 8 / 10 < (draws.account : ℚ) ∧ draws.BadByChance) := by
  unfold Draws.Suspicious
  constructor
  · rintro ⟨rule, hrule⟩
    cases rule with
    | highTransactionAmount => exact .inl (.inr hrule)
    | suspiciousAccount => exact hrule.imp_left .inl
  · rintro ((haccount | hamount) | hchance)
    · exact ⟨.suspiciousAccount, .inl haccount⟩
    · exact ⟨.highTransactionAmount, hamount⟩
    · exact ⟨.suspiciousAccount, .inr hchance⟩

/-! ## A step of a generator -/

section Generator

variable {x x' : TransGenerator}

theorem published_step {a : Generator.Action} (ha : publishes a = false) (h : x.step a = some x') :
    x'.published = x.published := by
  cases a with
  | generate count => exact (TransGenerator.step_generate h).2.2.2
  | currentTimeMillis src millis => exact (TransGenerator.step_currentTimeMillis h).2.2.2
  | publishMessage src c => cases ha
  | testRunning => exact (TransGenerator.step_silent rfl h).2.2
  | sleep => exact (TransGenerator.step_silent rfl h).2.2
  | respond r => exact (TransGenerator.step_silent rfl h).2.2

end Generator

namespace Setting

variable {γ ι : Type} (S : Setting)

/-- One `publishMessage` puts the transaction drawn for its id on the queue, once at most. -/
theorem stores_publishCalls (queueName : String) (draws : Draws ℚ) (o : Outcome) (id : String) (origin : Origin γ)
    (kept : Bool) :
    (Generator.publishCalls queueName (S.callees draws o) id).flatMap
        (S.stores origin kept : _ → List (Queue.Action _ ι)) = [] ∨
      (Generator.publishCalls queueName (S.callees draws o) id).flatMap
          (S.stores origin kept : _ → List (Queue.Action _ ι)) =
        [.send ⟨S.writeValueAsString (generateRandomTransaction draws id), origin⟩] := by
  obtain ⟨resolves, writes, sends⟩ := o
  cases resolves with
  | false => exact .inl rfl
  | true =>
    cases writes with
    | false => exact .inl rfl
    | true =>
      have hcalls : Generator.publishCalls queueName (S.callees draws ⟨true, true, sends⟩) id =
          [.getQueueUrl queueName true, .writeValueAsString true, .sendMessage S.cfg.urls.transactionQueueUrl
            (S.writeValueAsString (generateRandomTransaction draws id)) sends] := by
        cases sends <;> rfl
      rw [hcalls]
      by_cases hkept : (sends || kept) = true
      · exact .inr (by simp [stores, hkept])
      · exact .inl (by simp [stores, hkept])

end Setting

namespace Deployment

variable {γ ι : Type} [DecidableEq γ] [DecidableEq ι] {n : Nat} {S : Setting} {d d' : Deployment γ ι n}
  {a : Action γ ι n}

/-! ## What a step adds to the queue -/

theorem published_grows (h : d.step S a = some d') (g : γ) :
    (d.generators g).published <+: (d'.generators g).published := by
  refine Lts.run_inv (I := fun x => (d.generators g).published <+: x.published) (fun x b x' hI hs => ?_) List.prefix_rfl
    ((generator S g).step_run d a d' trivial h)
  by_cases hb : publishes b = true
  · cases b with
    | publishMessage src c =>
      obtain ⟨_, id, -, -, -, hpublished⟩ := TransGenerator.step_publishMessage hs
      rw [hpublished]
      exact hI.trans (List.prefix_append ..)
    | _ => cases hb
  · rw [published_step (by simpa using hb) hs]
    exact hI

/-- A step adds nothing, a message of another sender, or the transaction drawn for the id that a generator passes to
`publishMessage`. -/
theorem sent_step (h : d.step S a = some d') :
    d'.transactions.sent = d.transactions.sent ∨
      (∃ body, d'.transactions.sent = d.transactions.sent ++ [⟨body, .other⟩]) ∨
      ∃ g src id draws, (d'.generators g).published = (d.generators g).published ++ [(src, id)] ∧
        d'.transactions.sent = d.transactions.sent ++
          [⟨S.writeValueAsString (generateRandomTransaction draws id.text),
            .published g (d.generators g).published.length draws⟩] := by
  have hsent := (logs_step h).sent
  have hnone : ∀ as : List (Queue.Action (Letter γ) ι), queueLabels S d d' a = as → (∀ b ∈ as, b.sends = []) →
      d'.transactions.sent = d.transactions.sent := by
    rintro as rfl hb
    rw [hsent, List.flatMap_eq_nil_iff.2 hb, List.append_nil]
  cases a with
  | generator g b => exact .inl (hnone [] rfl nofun)
  | publishMessage g src draws o kept =>
    obtain ⟨x, q, hx, -, hd'⟩ := step_publishMessage.1 h
    obtain ⟨_, id, -, -, -, hpublished⟩ := TransGenerator.step_publishMessage hx
    have hg : d'.generators g = x := by rw [hd']; exact Function.update_self ..
    rw [← hg] at hpublished
    have hlabels : queueLabels S d d' (.publishMessage g src draws o kept) =
        (Generator.publishCalls (d.generators g).queueName (S.callees draws o) id.text).flatMap
          (S.stores (.published g (d.generators g).published.length draws) kept) := by
      simp only [queueLabels, Setting.stored, hpublished, List.drop_left, List.flatMap_cons, List.flatMap_nil,
        List.append_nil]
    rcases S.stores_publishCalls (d.generators g).queueName draws o id.text
      (.published g (d.generators g).published.length draws) kept with hs | hs
    · exact .inl (hnone _ (hlabels.trans hs) nofun)
    · refine .inr (.inr ⟨g, src, id, draws, hpublished, ?_⟩)
      rw [hsent, hlabels, hs]
      rfl
  | replica j b kept =>
    refine .inl (hnone _ rfl fun action hm => ?_)
    obtain ⟨c, -, hm⟩ := List.mem_flatMap.1 hm
    obtain ⟨receiptHandle, ok, k, -, -, rfl⟩ := Setting.mem_deletes hm
    rfl
  | receiveReturns j p is =>
    refine .inl (hnone _ rfl fun action hm => ?_)
    obtain ⟨i, -, rfl⟩ := List.mem_map.1 hm
    rfl
  | queue event =>
    cases event with
    | send body => exact .inr (.inl ⟨body, hsent⟩)
    | reappear i => exact .inl (hnone _ rfl fun action hm => by rw [List.mem_singleton.1 hm]; rfl)
    | expire i => exact .inl (hnone _ rfl fun action hm => by rw [List.mem_singleton.1 hm]; rfl)

/-! ## The invariant -/

/-- The messages of the generators are the transactions drawn for ids they have passed to `publishMessage`, and no two of
them are for the same such call. -/
structure Posted (S : Setting) (d : Deployment γ ι n) : Prop where
  letter : ∀ (i p : Nat) (body : String) (g : γ) (draws : Draws ℚ),
    d.transactions.sent[i]? = some ⟨body, .published g p draws⟩ →
      ∃ src id, (d.generators g).published[p]? = some (src, id) ∧
        body = S.writeValueAsString (generateRandomTransaction draws id.text)
  once : ∀ (i i' p : Nat) (body body' : String) (g : γ) (draws draws' : Draws ℚ),
    d.transactions.sent[i]? = some ⟨body, .published g p draws⟩ →
    d.transactions.sent[i']? = some ⟨body', .published g p draws'⟩ → i = i'

omit [DecidableEq γ] [DecidableEq ι] in
theorem posted_new (enabled : γ → Bool) (running : ι → Bool) : (new S n enabled running).Posted S where
  letter i p body g draws h := by cases h
  once i i' p body body' g draws draws' h := by cases h

omit [DecidableEq γ] [DecidableEq ι] in
/-- A message that is added is not one of a generator, or it is for the id passed in the step. -/
theorem posted_append {letter : Letter γ} (hI : d.Posted S)
    (hgrows : ∀ g, (d.generators g).published <+: (d'.generators g).published)
    (hsent : d'.transactions.sent = d.transactions.sent ++ [letter])
    (hnew : ∀ g p draws, letter.origin = .published g p draws → p = (d.generators g).published.length ∧
      ∃ src id, (d'.generators g).published[p]? = some (src, id) ∧
        letter.body = S.writeValueAsString (generateRandomTransaction draws id.text)) : d'.Posted S := by
  have hcases : ∀ i l, d'.transactions.sent[i]? = some l → d.transactions.sent[i]? = some l ∨
      (i = d.transactions.sent.length ∧ l = letter) := by
    intro i l hl
    rw [hsent, List.getElem?_append] at hl
    split at hl
    · exact .inl hl
    · rename_i hge
      obtain ⟨hlt, hl⟩ := List.getElem?_eq_some_iff.1 hl
      simp only [List.length_singleton] at hlt
      simp only [List.getElem_singleton] at hl
      exact .inr ⟨by omega, hl.symm⟩
  -- what was published before is for an earlier call
  have hearlier : ∀ (i p : Nat) (body : String) (g : γ) (draws : Draws ℚ),
      d.transactions.sent[i]? = some ⟨body, .published g p draws⟩ → p < (d.generators g).published.length := by
    intro i p body g draws hl
    obtain ⟨src, id, hp, -⟩ := hI.letter i p body g draws hl
    exact (List.getElem?_eq_some_iff.1 hp).1
  constructor
  · intro i p body g draws hl
    rcases hcases i _ hl with hold | ⟨-, rfl⟩
    · obtain ⟨src, id, hp, hbody⟩ := hI.letter i p body g draws hold
      exact ⟨src, id, Queue.getElem?_of_prefix (hgrows g) hp, hbody⟩
    · exact (hnew g p draws rfl).2
  · intro i i' p body body' g draws draws' hl hl'
    rcases hcases i _ hl with hold | ⟨hi, rfl⟩ <;> rcases hcases i' _ hl' with hold' | ⟨hi', hletter⟩
    · exact hI.once i i' p body body' g draws draws' hold hold'
    · subst hletter
      have hlt := hearlier i p body g draws hold
      have hp := (hnew g p draws' rfl).1
      omega
    · have hlt := hearlier i' p body' g draws' hold'
      have hp := (hnew g p draws rfl).1
      omega
    · omega

theorem posted_step (hI : d.Posted S) (h : d.step S a = some d') : d'.Posted S := by
  have hgrows := published_grows h
  rcases sent_step h with hsent | ⟨body, hsent⟩ | ⟨g, src, id, draws, hpublished, hsent⟩
  · constructor
    · intro i p body g draws hl
      rw [hsent] at hl
      obtain ⟨src, id, hp, hbody⟩ := hI.letter i p body g draws hl
      exact ⟨src, id, Queue.getElem?_of_prefix (hgrows g) hp, hbody⟩
    · rw [hsent]
      exact hI.once
  · exact posted_append hI hgrows hsent nofun
  · refine posted_append hI hgrows hsent ?_
    rintro g' p draws' he
    cases he
    refine ⟨rfl, src, id, ?_, rfl⟩
    rw [hpublished]
    simp

theorem posted_run {enabled : γ → Bool} {running : ι → Bool} {actions : List (Action γ ι n)}
    (h : Lts.run (step S) (new S n enabled running) actions = some d) : d.Posted S :=
  Lts.run_inv (fun _ _ _ hI hs => posted_step hI hs) (posted_new enabled running) h

/-! ## A notification about a generated transaction -/

/-- The detector reads back what the generator writes: the fields of the transaction, and no `fraudReason`. -/
def ReadsBack (S : Setting) (t : Generator.Transaction) : Prop :=
  S.cfg.mapper.readValue (S.writeValueAsString t) = some (some t.received)

/-- What may be said of a generated transaction: the reason of a rule that its draws satisfy, or nothing where they satisfy
none. -/
def SaysOf (S : Setting) (draws : Draws ℚ) (id body : String) : Prop :=
  (∃ rule, Satisfies draws rule ∧ body =
      S.cfg.mapper.writeValueAsString ((generateRandomTransaction draws id).received.setFraudReason rule.reason)) ∨
    ((∀ rule, ¬ Satisfies draws rule) ∧
      body = S.cfg.mapper.writeValueAsString (generateRandomTransaction draws id).received)

omit [DecidableEq γ] [DecidableEq ι] in
theorem saysOf_noticeFor {draws : Draws ℚ} {id body : String} {m : Message}
    (hreads : ReadsBack S (generateRandomTransaction draws id))
    (hm : m.body = S.writeValueAsString (generateRandomTransaction draws id))
    (hnotice : Service.NoticeFor S.cfg m body) : SaysOf S draws id body := by
  obtain ⟨t, ht, hbody⟩ := hnotice
  rw [hm, hreads] at ht
  obtain rfl : (generateRandomTransaction draws id).received = t := by simpa using ht
  rcases hbody with ⟨hclean, hbody⟩ | ⟨rule, hwhen, hbody⟩
  · refine .inr ⟨fun rule hrule => ?_, hbody⟩
    have hflagged := Drools.flagged_iff.2 ⟨rule, (when_generated_iff draws id rule).2 hrule⟩
    rw [hclean] at hflagged
    cases hflagged
  · exact .inl ⟨rule, (when_generated_iff draws id rule).1 hwhen, hbody⟩

/-- Whatever is interleaved, lost, delivered again or thrown: a notification about a message of a generator is about the
transaction drawn for an id that this generator has passed to `publishMessage`, it says of it what its draws, as exact
numbers, allow, and no other message on the queue is for that id. -/
theorem notifications_originate (S : Setting) (n : Nat) (enabled : γ → Bool) (running : ι → Bool)
    (actions : List (Action γ ι n)) (d : Deployment γ ι n)
    (h : Lts.run (step S) (new S n enabled running) actions = some d)
    (x : Notification ι) (hx : x ∈ d.notifications) : ∃ k i letter, S.Delivers d.transactions k i x.sender x.delivery ∧
      d.transactions.sent[i]? = some letter ∧ ∀ g p draws, letter.origin = .published g p draws →
        (∃ src id, (d.generators g).published[p]? = some (src, id) ∧
          (ReadsBack S (generateRandomTransaction draws id.text) → SaysOf S draws id.text x.body)) ∧
        ∀ i' letter' draws', d.transactions.sent[i']? = some letter' → letter'.origin = .published g p draws' → i' = i := by
  have hI := linked_run h
  have hP := posted_run h
  obtain ⟨queueUrl, ok, hc⟩ := hI.notification hx
  obtain ⟨k, i, hd⟩ := hI.notification_delivers hx
  obtain ⟨⟨body, origin⟩, hletter, hbody⟩ := Option.map_eq_some_iff.1 hd.body
  refine ⟨k, i, ⟨body, origin⟩, hd, hletter, ?_⟩
  rintro g p draws rfl
  constructor
  · obtain ⟨src, id, hp, hwritten⟩ := hP.letter i p body g draws hletter
    obtain ⟨-, hnotice⟩ := (FraudDetectionService.noticed_run (replica_run h x.sender)).calls _ hc _ _ _ rfl
    exact ⟨src, id, hp, fun hreads => saysOf_noticeFor hreads (hbody.symm.trans hwritten) hnotice⟩
  · rintro i' ⟨body', _⟩ draws' hletter' rfl
    exact hP.once i' i p body' body g draws' draws hletter' hletter

/-- Draws of a high amount. -/
def highDraws : Draws ℚ := { Generator.normalDraws with amount := ⟨95 / 100, by norm_num⟩ }

/-- The text of the transaction drawn by them for the id "0-0", as the generator and as the detector write it. -/
def generatedText (rest : String) : String :=
  "\x7b\"id\":\"0-0\",\"amount\":9501.0,\"accountId\":\"aaaaaaaaaa\",\"timestamp\":\"1970-01-01T00:00:00.000+00:00\"" ++
    rest ++ "\x7d"

def notifiedText : String := generatedText ",\"fraudReason\":\"High transaction amount\""

/-- Jackson on this transaction. -/
def generatedSetting : Setting :=
  { sampleSetting with
    cfg :=
      { Service.sampleConfig with
        mapper :=
          { readValue := fun body =>
              if body = generatedText "" then some (some (generateRandomTransaction highDraws "0-0").received) else none
            writeValueAsString := fun _ => notifiedText } }
    writeValueAsString := fun _ => generatedText "" }

def generatedStart : Deployment Unit Bool 1 := new generatedSetting 1 (fun _ => true) fun _ => true

/-- A generated transaction, from the generator to the notify queue. -/
def generatedRun : List (Action Unit Bool 1) :=
  [.generator () .testRunning, .generator () (.currentTimeMillis .startThread 0),
    .publishMessage () .startThread highDraws ⟨true, true, true⟩ false] ++ takesUp true ++ flags true

theorem generated_notified : ∃ d, Lts.run (step generatedSetting) generatedStart generatedRun = some d ∧
    d.notifications = [⟨true, ⟨generatedText "", ""⟩, notifiedText⟩] ∧ d.transactions.status 0 = .deleted ∧
      (∀ j, ∀ c ∈ (d.replicas j).pool.calls, c.event.threw = false) ∧
      (d.generators ()).published = [(.startThread, ⟨0, 0⟩)] := by
  have hrun : (Lts.run (step generatedSetting) generatedStart generatedRun).map (fun d => (d.notifications,
      d.transactions.status 0, decide (∀ j, ∀ c ∈ (d.replicas j).pool.calls, c.event.threw = false),
      (d.generators ()).published)) =
        some ([⟨true, ⟨generatedText "", ""⟩, notifiedText⟩], .deleted, true, [(.startThread, ⟨0, 0⟩)]) := by
    decide +kernel
  obtain ⟨d, hd, hstate⟩ := Option.map_eq_some_iff.1 hrun
  simp only [Prod.mk.injEq, decide_eq_true_eq] at hstate
  exact ⟨d, hd, hstate⟩

theorem notifications_originate_generated : ∃ d, Lts.run (step generatedSetting) generatedStart generatedRun = some d ∧
    ∃ k i letter, generatedSetting.Delivers d.transactions k i true ⟨generatedText "", ""⟩ ∧
      d.transactions.sent[i]? = some letter := by
  obtain ⟨d, hd, hnotifications, -⟩ := generated_notified
  obtain ⟨k, i, letter, hdelivers, hletter, -⟩ := notifications_originate generatedSetting 1 _ _ generatedRun d hd
    ⟨true, ⟨generatedText "", ""⟩, notifiedText⟩ (by rw [hnotifications]; exact List.mem_singleton_self _)
  exact ⟨d, hd, k, i, letter, hdelivers, hletter⟩

end Deployment

end FraudDetect.System
