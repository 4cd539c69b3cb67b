/-
What the rules make of a generated transaction. The amount exceeds the limit exactly for a draw of at least 0.9,
and an account of the "bad" branch is always suspicious; but the ten letters of the other branch may hold "bad" as
well, and then the rules flag a transaction the generator did not make suspicious.
-/
import FraudDetect.Drools.Rules
import FraudDetect.Generator.Publish

namespace FraudDetect.Generator

open FraudDetect.Drools (Rule contains flagged)

/-- The transaction the detector decodes from a generated one: it has no `fraudReason` yet. -/
def Transaction.received (t : Transaction) : Drools.Transaction where
  id := some t.id
  amount := t.amount
  accountId := some t.accountId
  timestamp := some t.timestamp
  fraudReason := none

section

variable {K : Type*} [Field K] [LinearOrder K] [FloorSemiring K]

/-- The random account of the other branch holds "bad". -/
def Draws.BadByChance (d : Draws K) : Prop := "bad".toList <:+: (d.randomAlphabetic 10).text.toList

/-- A suspicious account is one of the "bad" branch, or a random one that holds "bad". -/
theorem account_iff (d : Draws K) (id : String) :
    Rule.suspiciousAccount.when (generateRandomTransaction d id).received = true ↔
      8 / 10 < (d.account : K) ∨ (¬ 8 / 10 < (d.account : K) ∧ d.BadByChance) := by
  show contains (some (generateRandomTransaction d id).accountId) "bad" = true ↔ _
  unfold contains Draws.BadByChance generateRandomTransaction
  rw [decide_eq_true_eq]
  by_cases hbad : 8 / 10 < (d.account : K)
  · have hprefix : "bad".toList <:+: ("bad" ++ (d.randomAlphabetic 7).text).toList := by
      rw [String.toList_append]
      exact (List.prefix_append _ _).isInfix
    simp only [hbad, if_true, true_or, iff_true]
    exact hprefix
  · simp only [hbad, if_false, false_or, not_false_eq_true, true_and]

variable [IsStrictOrderedRing K]

theorem drawnAmount_le (d : Draws K) : d.drawnAmount ≤ 10000 := by
  obtain ⟨-, hlt⟩ := d.amount.2
  have hfloor : ⌊(d.amount : K) * 10000⌋₊ < 10000 := by
    rw [Nat.floor_lt' (by norm_num)]
    push_cast
    linarith
  unfold Draws.drawnAmount
  omega

/-- An amount above the limit is one drawn at 0.9 or above. -/
theorem high_iff (d : Draws K) (id : String) :
    Rule.highTransactionAmount.when (generateRandomTransaction d id).received = true ↔ 9 / 10 ≤ (d.amount : K) := by
  have hlt : d.drawnAmount < 2 ^ 53 := by
    have := drawnAmount_le d
    omega
  rw [Drools.high_when_iff (Double.isFinite_ofNat hlt)]
  show (9000 : ℚ) < (Double.ofNat d.drawnAmount).toRat ↔ _
  rw [Double.toRat_ofNat hlt]
  have hfloor : 9000 ≤ ⌊(d.amount : K) * 10000⌋₊ ↔ 9 / 10 ≤ (d.amount : K) := by
    rw [Nat.le_floor_iff' (by norm_num)]
    push_cast
    constructor
    · intro h; linarith
    · intro h; linarith
  rw [← hfloor]
  unfold Draws.drawnAmount
  constructor
  · intro h
    have : 9000 < 1 + ⌊(d.amount : K) * 10000⌋₊ := by exact_mod_cast h
    omega
  · intro h
    exact_mod_cast (by omega : 9000 < 1 + ⌊(d.amount : K) * 10000⌋₊)

/-- For all draws the rules flag a generated transaction exactly when the generator made it suspicious, or drew in the
other branch an account that holds "bad". -/
theorem generated_flagged_iff (d : Draws K) (id : String) :
    flagged (generateRandomTransaction d id).received = true ↔
      d.Suspicious ∨ (¬ 8 / 10 < (d.account : K) ∧ d.BadByChance) := by
  have hrules : flagged (generateRandomTransaction d id).received = true ↔
      Rule.highTransactionAmount.when (generateRandomTransaction d id).received = true ∨
        Rule.suspiciousAccount.when (generateRandomTransaction d id).received = true := by
    rw [Drools.flagged_iff]
    constructor
    · rintro ⟨rule, h⟩
      cases rule
      · exact .inl h
      · exact .inr h
    · rintro (h | h)
      · exact ⟨_, h⟩
      · exact ⟨_, h⟩
  rw [hrules, high_iff, account_iff]
  unfold Draws.Suspicious
  tauto

end

/-- A random account that holds "bad". -/
def badByChance : Alphabetic 10 := ⟨"aabadaaaaa", rfl, List.all_eq_true.1 rfl⟩

/-- Draws below both limits with such an account. -/
def chanceDraws : Draws ℚ :=
  { normalDraws with
    randomAlphabetic := fun count => if h : count = 10 then h ▸ badByChance else normalDraws.randomAlphabetic count }

theorem chance_branch : ¬ 8 / 10 < (chanceDraws.account : ℚ) ∧ chanceDraws.BadByChance := by
  constructor
  · norm_num [chanceDraws, normalDraws]
  · show "bad".toList <:+: "aabadaaaaa".toList
    decide

theorem generated_flagged_chance : flagged (generateRandomTransaction chanceDraws "1-0").received = true :=
  (generated_flagged_iff chanceDraws "1-0").2 (.inr chance_branch)

/-- The rules flag a transaction the generator did not make suspicious. -/
theorem flagged_by_chance : ¬ ∀ (d : Draws ℚ) (id : String),
    flagged (generateRandomTransaction d id).received = true ↔ d.Suspicious := by
  intro h
  have hflag := Drools.flagged_iff.2 ⟨.suspiciousAccount, (account_iff chanceDraws "1-0").2 (.inr chance_branch)⟩
  have hs := (h chanceDraws "1-0").1 hflag
  revert hs
  norm_num [Draws.Suspicious, chanceDraws, normalDraws]

end FraudDetect.Generator
