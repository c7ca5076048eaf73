import EntryCache.Duration

namespace EntryCache

def TimeUnit.factor : TimeUnit → Nat
  | .nanoseconds => 0
  | .microseconds => 0
  | .milliseconds => 1
  | .seconds => 1000
  | .minutes => 60 * 1000
  | .hours => 60 * (60 * 1000)
  | .days => 24 * (60 * (60 * 1000))

theorem TimeUnit.millis_of_coarse {u : TimeUnit} (h : u.coarse = true) (n : Nat) :
    u.millis n = n * u.factor := by
  cases u with
  | nanoseconds => cases h
  | microseconds => cases h
  | milliseconds => exact (Nat.mul_one n).symm
  | seconds => rfl
  | minutes => rfl
  | hours => rfl
  | days => rfl

theorem capped_eq_never_iff (n : Nat) : capped n = never ↔ UInt64.size - 1 ≤ n := by
  rw [← UInt64.toNat_inj, toNat_capped, toNat_never]
  omega

theorem capped_inj (m n : Nat) :
    capped m = capped n ↔ min m (UInt64.size - 1) = min n (UInt64.size - 1) := by
  rw [← UInt64.toNat_inj, toNat_capped, toNat_capped]

namespace Duration

theorem length?_eq (d : Duration) : d.length? = d.unit?.map fun u => d.amount.toNat * u.factor := by
  cases d with
  | eternal => rfl
  | lasting u n h => exact congrArg some (TimeUnit.millis_of_coarse h n.toNat)

/-- Both are without end, or both have the same number of milliseconds, as far as a word can say. -/
def LastAlike (d e : Duration) : Prop :=
  (d.unit? = none ∧ e.unit? = none) ∨ ∃ u v, d.unit? = some u ∧ e.unit? = some v ∧
    min (d.amount.toNat * u.factor) (UInt64.size - 1) = min (e.amount.toNat * v.factor)
      (UInt64.size - 1)

/-- The one is without end, and the other is so long that no moment after it can be told. -/
def EndlessBeside (d e : Duration) : Prop :=
  d.unit? = none ∧ ∃ v, e.unit? = some v ∧ UInt64.size - 1 ≤ e.amount.toNat * v.factor

variable {d e : Duration}

theorem millis?_eq (d : Duration) :
    d.millis? = d.unit?.map fun u => capped (d.amount.toNat * u.factor) := by
  rw [millis?, length?_eq, Option.map_map]
  rfl

theorem sameLength_iff : d.sameLength e = true ↔ d.millis? = e.millis? := beq_iff_eq

theorem equivalence_sameLength : Equivalence fun d e : Duration => d.sameLength e = true where
  refl _ := sameLength_iff.2 rfl
  symm h := sameLength_iff.2 (sameLength_iff.1 h).symm
  trans h h' := sameLength_iff.2 ((sameLength_iff.1 h).trans (sameLength_iff.1 h'))

theorem sameLength_iff_lastAlike : d.sameLength e = true ↔ d.LastAlike e := by
  rw [sameLength_iff, millis?_eq, millis?_eq, LastAlike]
  cases d.unit? with
  | none => cases e.unit? <;> simp
  | some u =>
    cases e.unit? with
    | none => simp
    | some v => simp [capped_inj]

theorem feed_eq_iff : d.feed = e.feed ↔ d.millis? = e.millis? := by
  rw [feed, feed]
  cases d.millis? <;> cases e.millis? <;> simp

theorem adjustedTime_eq_getD (d : Duration) (now : UInt64) :
    d.adjustedTime now = capped (now.toNat + (d.millis?.getD never).toNat) := by
  rw [adjustedTime]
  cases d.millis? with
  | none => exact ((capped_eq_never_iff _).2 (Nat.le_add_left _ _)).symm
  | some ms => rfl

theorem adjustedTime_zero (d : Duration) : d.adjustedTime 0 = d.millis?.getD never := by
  rw [adjustedTime_eq_getD, UInt64.toNat_zero, Nat.zero_add, capped_toNat]

theorem adjustedTime_agree_iff :
    (∀ now, d.adjustedTime now = e.adjustedTime now) ↔ d.millis?.getD never =
      e.millis?.getD never := by
  constructor
  · intro h
    rw [← adjustedTime_zero, ← adjustedTime_zero, h]
  · intro h now
    rw [adjustedTime_eq_getD, adjustedTime_eq_getD, h]

theorem endlessBeside_iff : d.EndlessBeside e ↔ d.millis? = none ∧ e.millis? = some never := by
  rw [millis?_eq, millis?_eq, EndlessBeside]
  cases d.unit? <;> cases e.unit? <;> simp [capped_eq_never_iff]

/-- Lengths of time are equal if they last alike. That is an equivalence, equal lengths are those
that feed the same, and they are those that lead from each moment to the same, but for one that has
no end beside one too long to tell. -/
theorem sameLength_observed :
    (Equivalence fun d e : Duration => d.sameLength e = true) ∧
    ∀ d e : Duration,
      (d.sameLength e = true ↔ d.LastAlike e) ∧
      (d.sameLength e = true ↔ d.feed = e.feed) ∧
      ((∀ now, d.adjustedTime now = e.adjustedTime now) ↔
        d.sameLength e = true ∨ d.EndlessBeside e ∨ e.EndlessBeside d) := by
  refine ⟨equivalence_sameLength, fun d e => ⟨sameLength_iff_lastAlike, ?_, ?_⟩⟩
  · rw [sameLength_iff, feed_eq_iff]
  · rw [adjustedTime_agree_iff, sameLength_iff, endlessBeside_iff, endlessBeside_iff]
    cases d.millis? with
    | none => cases e.millis? <;> simp [eq_comm]
    | some m => cases e.millis? <;> simp

end Duration

end EntryCache
