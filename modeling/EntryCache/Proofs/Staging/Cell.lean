import EntryCache.Proofs.Staging.Consistency

namespace EntryCache

variable {ω α β γ : Type}

namespace Processor

def onCell : Processor α β → Option α → Except Error β × Option α
  | .done r, v => (r, v)
  | .value next, v => (next v).onCell v
  | .present next, v => (next v.isSome).onCell v
  | .set x next, _ => next.onCell (some x)
  | .remove next, _ => next.onCell none

theorem onCell_map (f : Except Error β → Except Error γ) (p : Processor α β) (v : Option α) :
    (p.map f).onCell v = (f (p.onCell v).1, (p.onCell v).2) := by
  induction p generalizing v with
  | done r => rfl
  | value next ih => exact ih ..
  | present next ih => exact ih ..
  | set x next ih => exact ih ..
  | remove next ih => exact ih ..

def Brings (P : α → Prop) : Processor α β → Prop
  | .done _ => True
  | .value next => ∀ v, (∀ x ∈ v, P x) → (next v).Brings P
  | .present next => ∀ b, (next b).Brings P
  | .set x next => P x ∧ next.Brings P
  | .remove next => next.Brings P

theorem Brings.map {P : α → Prop} {p : Processor α β} (h : p.Brings P)
    (f : Except Error β → Except Error γ) : (p.map f).Brings P := by
  induction p with
  | done r => trivial
  | value next ih => exact fun v hv => ih v (h v hv)
  | present next ih => exact fun b => ih b (h b)
  | set x next ih => exact ⟨h.1, ih h.2⟩
  | remove next ih => exact ih h

theorem Brings.onCell {P : α → Prop} {p : Processor α β} (h : p.Brings P) {v : Option α}
    (hv : ∀ x ∈ v, P x) : ∀ x ∈ (p.onCell v).2, P x := by
  induction p generalizing v with
  | done r => exact hv
  | value next ih => exact ih v (h v hv) hv
  | present next ih => exact ih v.isSome (h v.isSome) hv
  | set x next ih => exact ih h.2 (by simpa using h.1)
  | remove next ih => exact ih h nofun

end Processor

namespace StagedEntry

variable {current : Option α} {s : StagedEntry α}

theorem read_no_load (s : StagedEntry α) (w : ω) :
    ∃ s', s.read none w = (s.value, s', w) ∧ s'.value = s.value ∧ s'.loadError = s.loadError := by
  by_cases hs : s.stage = .untouched
  · cases hv : s.value with
    | none => exact ⟨s, read_without_load hv w, hv, rfl⟩
    | some v => exact ⟨_, read_of_some hs hv w, hv, rfl⟩
  · exact ⟨s, read_of_ne hs w, rfl, rfl⟩

theorem run_no_load (h : Consistent current s) (p : Processor α β) (w : ω) :
    ∃ s', run none p s w = ((p.onCell s.value).1, s', w) ∧ s'.value = (p.onCell s.value).2 ∧
      s'.loadError = s.loadError ∧ Consistent current s' := by
  induction p generalizing s with
  | done r => exact ⟨s, rfl, rfl, rfl, h⟩
  | value next ih =>
    obtain ⟨s₁, hread, hv, he⟩ := read_no_load s w
    have h₁ := h.read none w
    rw [hread] at h₁
    have hrun := ih s.value h₁
    rw [hv, he] at hrun
    rw [run, hread]
    exact hrun
  | present next ih => exact ih s.value.isSome h
  | set x next ih => exact ih (h.set x)
  | remove next ih => exact ih h.remove

end StagedEntry

end EntryCache
