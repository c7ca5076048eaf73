import EntryCache.Proofs.Duration.Lengths

namespace EntryCache

namespace Duration

/-- Counted from a moment, a length ends before the last moment, however large a number has to be
for that. -/
def EndsAfter (d : Duration) (now : UInt64) : Prop :=
  ∃ u, d.unit? = some u ∧ now.toNat + d.amount.toNat * u.factor < UInt64.size - 1

structure LeadsOn (d : Duration) (now : UInt64) : Prop where
  ends : d.EndsAfter now → ∃ d', between now (d.adjustedTime now) = .ok d' ∧ d'.sameLength d = true
  endless : ¬d.EndsAfter now → d.adjustedTime now = never ∧ between now never = .ok .eternal
  exactly : ∀ u, d.unit? = some u →
    (d.adjustedTime now).toNat = min (now.toNat + d.amount.toNat * u.factor) (UInt64.size - 1)
  forward : now ≤ d.adjustedTime now
  monotone : ∀ later, now ≤ later → d.adjustedTime now ≤ d.adjustedTime later

variable {d : Duration} {s e now : UInt64}

theorem le_never (s : UInt64) : s ≤ never := by
  rw [UInt64.le_iff_toNat_le, toNat_never]
  exact Nat.le_sub_one_of_lt s.toNat_lt_size

theorem between_never (s : UInt64) : between s never = .ok .eternal := if_pos (.inr rfl)

theorem between_of_lt (hs : s ≠ never) (he : e ≠ never) (h : e < s) :
    ∃ err, between s e = .error err :=
  ⟨_, (if_neg (not_or.2 ⟨hs, he⟩)).trans (if_pos h)⟩

theorem between_of_le (he : e ≠ never) (h : s ≤ e) :
    between s e = .ok (.lasting .milliseconds (e - s) rfl) := by
  have hs : s ≠ never := by
    rintro rfl
    exact he (UInt64.le_antisymm (le_never e) h)
  exact (if_neg (not_or.2 ⟨hs, he⟩)).trans (if_neg (UInt64.not_lt.2 h))

theorem between_fails_iff : (∃ err, between s e = .error err) ↔ s ≠ never ∧ e ≠ never ∧ e < s := by
  constructor
  · rintro ⟨err, h⟩
    by_cases hend : s = never ∨ e = never
    · rw [between, if_pos hend] at h
      cases h
    · by_cases hlt : e < s
      · exact ⟨fun hs => hend (.inl hs), fun he => hend (.inr he), hlt⟩
      · rw [between, if_neg hend, if_neg hlt] at h
        cases h
  · rintro ⟨hs, he, h⟩
    exact between_of_lt hs he h

theorem toNat_adjustedTime {n : Nat} (h : d.length? = some n) (now : UInt64) :
    (d.adjustedTime now).toNat = min (now.toNat + n) (UInt64.size - 1) := by
  rw [adjustedTime_eq, h]
  exact toNat_capped _

theorem length?_between (s e : UInt64) :
    (Duration.lasting .milliseconds (e - s) rfl).length? = some (e - s).toNat := rfl

theorem adjustedTime_between (h : s ≤ e) : ∃ d, between s e = .ok d ∧ d.adjustedTime s = e := by
  by_cases he : e = never
  · subst he
    exact ⟨.eternal, between_never s, rfl⟩
  · refine ⟨_, between_of_le he h, ?_⟩
    rw [← UInt64.toNat_inj, toNat_adjustedTime (length?_between s e), UInt64.toNat_sub_of_le _ _ h]
    have hle := UInt64.le_iff_toNat_le.1 h
    have hsize := e.toNat_lt_size
    omega

theorem endsAfter_iff : d.EndsAfter now ↔ ∃ n, d.length? = some n ∧ now.toNat + n <
      UInt64.size - 1 := by
  rw [length?_eq]
  constructor
  · rintro ⟨u, hu, h⟩
    exact ⟨_, by rw [hu]; rfl, h⟩
  · rintro ⟨n, hn, h⟩
    obtain ⟨u, hu, rfl⟩ := Option.map_eq_some_iff.1 hn
    exact ⟨u, hu, h⟩

theorem between_adjustedTime_of_ends (h : d.EndsAfter now) :
    ∃ d', between now (d.adjustedTime now) = .ok d' ∧ d'.sameLength d = true := by
  obtain ⟨n, hn, hlt⟩ := endsAfter_iff.1 h
  have htime : (d.adjustedTime now).toNat = now.toNat + n := by
    rw [toNat_adjustedTime hn, Nat.min_eq_left (Nat.le_of_lt hlt)]
  have hle : now ≤ d.adjustedTime now := by
    rw [UInt64.le_iff_toNat_le, htime]
    exact Nat.le_add_right _ _
  have hne : d.adjustedTime now ≠ never := by
    intro heq
    rw [heq, toNat_never] at htime
    exact Nat.ne_of_lt hlt htime.symm
  refine ⟨_, between_of_le hne hle, ?_⟩
  rw [sameLength_iff, millis?, millis?, length?_between, hn, UInt64.toNat_sub_of_le _ _ hle, htime,
    Nat.add_sub_cancel_left]

theorem adjustedTime_of_endless (h : ¬d.EndsAfter now) : d.adjustedTime now = never := by
  rw [endsAfter_iff] at h
  cases hn : d.length? with
  | none =>
    rw [adjustedTime_eq, hn]
  | some n =>
    rw [← UInt64.toNat_inj, toNat_adjustedTime hn, toNat_never]
    exact Nat.min_eq_right (Nat.le_of_not_lt fun hlt => h ⟨n, hn, hlt⟩)

theorem adjustedTime_mono (d : Duration) {now later : UInt64} (h : now ≤ later) :
    d.adjustedTime now ≤ d.adjustedTime later := by
  rw [UInt64.le_iff_toNat_le] at h ⊢
  rw [adjustedTime_eq_getD, adjustedTime_eq_getD, toNat_capped, toNat_capped]
  omega

theorem le_adjustedTime (d : Duration) (now : UInt64) : now ≤ d.adjustedTime now := by
  rw [UInt64.le_iff_toNat_le, adjustedTime_eq_getD, toNat_capped]
  have hsize := now.toNat_lt_size
  omega

theorem leadsOn (d : Duration) (now : UInt64) : d.LeadsOn now where
  ends := between_adjustedTime_of_ends
  endless h := ⟨adjustedTime_of_endless h, between_never now⟩
  exactly u hu := toNat_adjustedTime (by rw [length?_eq, hu]; rfl) now
  forward := d.le_adjustedTime now
  monotone _ h := d.adjustedTime_mono h

/-- The time between two moments and the moment after a time undo each other, up to the last
moment. -/
theorem between_adjustedTime :
    (∀ s e, ((∃ err, between s e = .error err) ↔ s ≠ never ∧ e ≠ never ∧ e < s) ∧
      (s ≤ e → ∃ d, between s e = .ok d ∧ d.adjustedTime s = e)) ∧
    ∀ (d : Duration) (now : UInt64), d.LeadsOn now :=
  ⟨fun _ _ => ⟨between_fails_iff, adjustedTime_between⟩, leadsOn⟩

theorem between_adjustedTime_days :
    let d : Duration := .lasting .days 213503982334 rfl
    (d.EndsAfter 51951614 ∧ ∃ d', between 51951614 (d.adjustedTime 51951614) = .ok d' ∧
      d'.sameLength d = true) ∧
      ¬d.EndsAfter 51951615 ∧ d.adjustedTime 51951615 = never ∧ between 51951615 never =
        .ok .eternal := by
  intro d
  have hends : d.EndsAfter 51951614 := ⟨.days, rfl, by decide⟩
  have hendless : ¬d.EndsAfter 51951615 := by
    rintro ⟨u, ⟨⟩, h⟩
    revert h
    decide
  exact ⟨⟨hends, (between_adjustedTime.2 d 51951614).ends hends⟩, hendless,
    (between_adjustedTime.2 d 51951615).endless hendless⟩

end Duration

end EntryCache
