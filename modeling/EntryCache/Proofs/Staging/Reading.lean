import EntryCache.Proofs.Staging.Removal

namespace EntryCache

variable {ω α : Type}

inductive Call.Reads : List (Call α) → Prop
  | nil : Reads []
  | value {cs : List (Call α)} : Reads cs → Reads (.value :: cs)
  | present {cs : List (Call α)} : Reads cs → Reads (.present :: cs)

theorem Call.Reads.of_isRead {cs : List (Call α)} (h : ∀ c ∈ cs, c.isRead) : Reads cs := by
  induction cs with
  | nil => exact .nil
  | cons c cs ih =>
    have hcs : Reads cs := ih fun c hc => h c (List.mem_cons_of_mem _ hc)
    have hc := h c List.mem_cons_self
    cases c with
    | value => exact .value hcs
    | present => exact .present hcs
    | set v => cases hc
    | remove => cases hc

theorem Call.Reads.anyLoaded {l : Action ω (Option α)} {cs : List (Call α)} (h : Reads cs)
    (hvalue : .value ∈ cs)
    {v : α} {w w₁ : ω} (hl : l w = (.ok (some v), w₁)) : anyLoaded l cs w = true := by
  induction h with
  | nil => cases hvalue
  | value h ih => exact anyLoaded_of_some hl _
  | present h ih => exact ih (by simpa using hvalue)

namespace StagedEntry

variable {s : StagedEntry α} {load : Option (Action ω (Option α))} {l : Action ω (Option α)}
  {cs : List (Call α)}

theorem answerAll_reads_of_ne (hcs : Call.Reads cs) (hs : s.stage ≠ .untouched) (w : ω) :
    (Call.answerAll (answer load) cs (s, w)).2 = (s, w) := by
  induction hcs with
  | nil => rfl
  | value h ih =>
    simp only [Call.answerAll, answer, read_of_ne hs]
    exact ih
  | present h ih => exact ih

theorem answerAll_reads_of_some (hcs : Call.Reads cs) (hvalue : .value ∈ cs)
    (hs : s.stage = .untouched) {v : α} (hv : s.value = some v) (w : ω) :
    (Call.answerAll (answer load) cs (s, w)).2 = ({ s with stage := .accessed }, w) := by
  induction hcs with
  | nil => cases hvalue
  | value h ih =>
    simp only [Call.answerAll, answer, read_of_some hs hv]
    exact answerAll_reads_of_ne h (show Stage.accessed ≠ .untouched by decide) w
  | present h ih => exact ih (by simpa using hvalue)

theorem answerAll_reads_without_load (hcs : Call.Reads cs) (hv : s.value = none) (w : ω) :
    (Call.answerAll (answer none) cs (s, w)).2 = (s, w) := by
  induction hcs with
  | nil => rfl
  | value h ih =>
    simp only [Call.answerAll, answer, read_without_load hv]
    exact ih
  | present h ih => exact ih

theorem answerAll_reads_of_load_some (hcs : Call.Reads cs) (hvalue : .value ∈ cs)
    (hs : s.stage = .untouched)
    (hv : s.value = none) {v : α} {w w₁ : ω} (hl : l w = (.ok (some v), w₁)) :
    (Call.answerAll (answer (some l)) cs (s, w)).2 = (s.absorb (.ok (some v)), w₁) := by
  induction hcs with
  | nil => cases hvalue
  | value h ih =>
    simp only [Call.answerAll, answer, read_of_load_some hs hv hl]
    exact answerAll_reads_of_ne h (show Stage.loaded ≠ .untouched by decide) w₁
  | present h ih => exact ih (by simpa using hvalue)

theorem loadError_read_of_some (he : s.loadError.isSome) (w : ω) :
    (s.read load w).2.1.loadError.isSome := by
  unfold read
  split
  · exact he
  · next l _ _ =>
    cases hl : l w with
    | mk r w₁ =>
      match r with
      | .error e => rfl
      | .ok none => exact he
      | .ok (some v) => exact he
  · exact he

theorem loadError_answerAll_of_some (cs : List (Call α)) (he : s.loadError.isSome) (w : ω) :
    (Call.answerAll (answer load) cs (s, w)).2.1.loadError.isSome := by
  induction cs generalizing s w with
  | nil => exact he
  | cons c cs ih =>
    cases c with
    | value => exact ih (loadError_read_of_some he w) _
    | present => exact ih he w
    | set v => exact ih (s := s.set v) he w
    | remove => exact ih (s := s.remove) he w

theorem loadError_of_outcome {o : Outcome α} (h : s.outcome = .ok o) : s.loadError = none := by
  cases he : s.loadError with
  | none => rfl
  | some e => cases (outcome_of_loadError he).symm.trans h

theorem answerAll_reads_of_load (hcs : Call.Reads cs) (hs : s.stage = .untouched)
    (hv : s.value = none) (w : ω)
    (he : (Call.answerAll (answer (some l)) cs (s, w)).2.1.loadError = none) :
    ∃ x, (Call.answerAll (answer (some l)) cs (s, w)).2.1 = s.absorb (.ok x) ∧
      x.isSome = Call.anyLoaded l cs w := by
  induction hcs generalizing w with
  | nil => exact ⟨none, rfl, rfl⟩
  | @value cs h ih =>
    cases hl : l w with
    | mk r w₁ =>
      match r with
      | .error e =>
        simp only [Call.answerAll, answer, read_of_load hs hv, hl] at he
        have hsome : (Call.answerAll (answer (some l)) cs
          (s.absorb (.error e), w₁)).2.1.loadError.isSome :=
          loadError_answerAll_of_some cs rfl w₁
        rw [he] at hsome
        cases hsome
      | .ok none =>
        simp only [Call.answerAll, answer, read_of_load_none hs hv hl,
          Call.anyLoaded_of_none hl] at he ⊢
        exact ih w₁ he
      | .ok (some v) =>
        simp only [Call.answerAll, answer, read_of_load_some hs hv hl, Call.anyLoaded_of_some hl]
        have hsame : (Call.answerAll (answer (some l)) cs (s.absorb (.ok (some v)), w₁)).2 = _ :=
          answerAll_reads_of_ne h (show Stage.loaded ≠ .untouched by decide) w₁
        exact ⟨some v, congrArg Prod.fst hsame, rfl⟩
  | present h ih => exact ih w he

end StagedEntry

end EntryCache
