import EntryCache.Proofs.Staging.Calls

namespace EntryCache

variable {ω α : Type} {current : Option α}

def Outcome.commit : Outcome α → Option α → Option α
  | .nothing, c => c
  | .accessed, c => c
  | .loaded v, _ => some v
  | .created v, _ => some v
  | .updated v, _ => some v
  | .removed, _ => none

/-- Whether a net effect can be one on a key that was mapped to `current`. -/
def Outcome.Fits (current : Option α) : Outcome α → Prop
  | .nothing => True
  | .accessed => current.isSome
  | .loaded _ => current = none
  | .created _ => current = none
  | .updated _ => current.isSome
  | .removed => current.isSome

def Stage.Fits (current value : Option α) : Stage → Prop
  | .untouched => value = current
  | .accessed => current.isSome ∧ value = current
  | .loaded => current = none ∧ value.isSome
  | .created => current = none ∧ value.isSome
  | .updated => current.isSome ∧ value.isSome
  | .removed => current.isSome ∧ value = none

namespace StagedEntry

variable {s : StagedEntry α} {load : Option (Action ω (Option α))}

theorem read_of_ne (h : s.stage ≠ .untouched) (w : ω) : s.read load w = (s.value, s, w) := by
  unfold read
  split
  · exact absurd ‹_› h
  · exact absurd ‹_› h
  · rfl

theorem read_of_some {v : α} (hs : s.stage = .untouched) (hv : s.value = some v) (w : ω) :
    s.read load w = (some v, { s with stage := .accessed }, w) := by
  simp [read, hs, hv]

theorem read_of_load {l : Action ω (Option α)} (hs : s.stage = .untouched)
    (hv : s.value = none) (w : ω) :
    s.read (some l) w = ((s.absorb (l w).1).value, s.absorb (l w).1, (l w).2) := by
  simp [read, hs, hv]

theorem read_without_load (hv : s.value = none) (w : ω) : s.read none w = (none, s, w) := by
  unfold read
  split
  · simp_all
  · simp_all
  · rw [hv]

/-- The stages of an entry that was staged with a value are those of a mapped key, and the other way
round. -/
structure Consistent (current : Option α) (s : StagedEntry α) : Prop where
  existed : s.existed = current.isSome
  fits : s.stage.Fits current s.value

theorem consistent_ofCurrent (current : Option α) :
    Consistent current (.ofCurrent current) := ⟨rfl, rfl⟩

namespace Consistent

theorem absorb (h : Consistent current s) (hs : s.stage = .untouched) (hv : s.value = none)
    (r : Except Error (Option α)) : Consistent current (s.absorb r) := by
  have hc : s.value = current := by simpa [hs, Stage.Fits] using h.fits
  rcases r with e | _ | v
  · exact ⟨h.existed, h.fits⟩
  · exact h
  · exact ⟨h.existed, by simp [StagedEntry.absorb, Stage.Fits, ← hc, hv]⟩

theorem read (h : Consistent current s) (load : Option (Action ω (Option α))) (w : ω) :
    Consistent current (s.read load w).2.1 := by
  by_cases hs : s.stage = .untouched
  · cases hv : s.value with
    | some v =>
      rw [read_of_some hs hv]
      have hc : s.value = current := by simpa [hs, Stage.Fits] using h.fits
      exact ⟨h.existed, by simp [Stage.Fits, ← hc, hv]⟩
    | none =>
      cases load with
      | none => rwa [read_without_load hv]
      | some l =>
        rw [read_of_load hs hv]
        exact h.absorb hs hv _
  · rwa [read_of_ne hs]

theorem set (h : Consistent current s) (v : α) : Consistent current (s.set v) := by
  refine ⟨h.existed, ?_⟩
  cases hc : current <;> simp [StagedEntry.set, h.existed, hc, Stage.Fits]

theorem remove (h : Consistent current s) : Consistent current s.remove := by
  refine ⟨h.existed, ?_⟩
  have hf := h.fits
  cases hs : s.stage <;> cases hc : current <;>
    simp_all [StagedEntry.remove, h.existed, Stage.Fits]

theorem answer (h : Consistent current s) (load : Option (Action ω (Option α)))
    (c : Call α) (w : ω) : Consistent current (StagedEntry.answer load c (s, w)).2.1 := by
  cases c with
  | value => exact h.read load w
  | present => exact h
  | set v => exact h.set v
  | remove => exact h.remove

theorem answerAll (h : Consistent current s) (load : Option (Action ω (Option α)))
    (cs : List (Call α)) (w : ω) :
    Consistent current (Call.answerAll (StagedEntry.answer load) cs (s, w)).2.1 := by
  induction cs generalizing s w with
  | nil => exact h
  | cons c cs ih => exact ih (h.answer load c w) _

theorem stage_of_absent (h : Consistent current s) (hv : s.value = none) :
    s.stage = if current.isSome then .removed else .untouched := by
  have hf := h.fits
  rw [hv] at hf
  cases hs : s.stage with
  | untouched =>
    obtain rfl : none = current := by rwa [hs] at hf
    rfl
  | accessed =>
    obtain ⟨hc, rfl⟩ : current.isSome ∧ none = current := by rwa [hs] at hf
    cases hc
  | removed => rw [if_pos (by rw [hs] at hf; exact hf.1)]
  | loaded => simp [hs, Stage.Fits] at hf
  | created => simp [hs, Stage.Fits] at hf
  | updated => simp [hs, Stage.Fits] at hf

theorem outcome (h : Consistent current s) (he : s.loadError = none) :
    ∃ o, s.outcome = .ok o ∧ o.commit current = s.value ∧ o.Fits current := by
  have hf := h.fits
  unfold StagedEntry.outcome
  rw [he]
  cases hs : s.stage <;> cases hv : s.value <;>
    simp_all [Stage.Fits, Outcome.commit, Outcome.Fits]

end Consistent

theorem outcome_of_loadError {e : Error} (h : s.loadError = some e) : s.outcome = .error e := by
  rw [outcome, h]

end StagedEntry

end EntryCache
