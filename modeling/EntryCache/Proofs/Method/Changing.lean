import EntryCache.Method.Calls

namespace EntryCache

variable {σ α β ν : Type}

def Action.noting (note : Except Error β → ν) (a : Action σ β) : Action (σ × List ν) β := fun s =>
  let (r, t) := a s.1
  (r, (t, s.2 ++ [note r]))

theorem Action.run_noting {a : Action σ β} {s t : σ} {r : Except Error β} (h : a.run s = (r, t))
    (note : Except Error β → ν) (log : List ν) :
    (a.noting note).run (s, log) = (r, (t, log ++ [note r])) := by
  simp only [noting, run] at h ⊢
  rw [h]

inductive CacheChange (α : Type) : Type
  | put (k : Key) (v : α)
  | remove (k : Key)
  | removeAll

namespace CacheChange

def apply (cache : KeyedCache σ α) : CacheChange α → Action σ Unit
  | .put k v => cache.put k v
  | .remove k => cache.remove k
  | .removeAll => cache.removeAll

def invoke (d : ChangeDescriptor) (cache : KeyedCache σ α) (method : Action σ β) :
    CacheChange α → Action σ β
  | .put k v => d.invokePut cache k v method
  | .remove k => d.invokeRemove cache k method
  | .removeAll => d.invokeRemoveAll cache method

end CacheChange

inductive Deed (α β : Type) : Type
  | asked (k : Key)
  | changed (c : CacheChange α) (r : Except Error Unit)
  | ran (r : Except Error β)

def KeyedCache.noted (cache : KeyedCache σ α) : KeyedCache (σ × List (Deed α β)) α where
  get k := (cache.get k).noting fun _ => .asked k
  put k v := (cache.put k v).noting (.changed (.put k v))
  remove k := (cache.remove k).noting (.changed (.remove k))
  removeAll := cache.removeAll.noting (.changed .removeAll)

theorem CacheChange.apply_noted (cache : KeyedCache σ α) (c : CacheChange α) :
    c.apply (cache.noted : KeyedCache (σ × List (Deed α β)) α) =
      (c.apply cache).noting (.changed c) := by
  cases c <;> rfl

theorem CacheChange.invoke_eq_around (d : ChangeDescriptor) (cache : KeyedCache σ α)
    (method : Action σ β) (c : CacheChange α) :
    c.invoke d cache method = d.around (c.apply cache) method := by
  cases c <;> rfl

namespace ChangeDescriptor

/-- A change is made after a method that succeeded, and after a failure only if there is a filter
that accepts it. -/
def Follows (d : ChangeDescriptor) : Except Error β → Prop
  | .ok _ => True
  | .error e => ∃ filter, d.acceptedFailures = some filter ∧ filter e = true

/-- What a call comes to: its result, the state, and all that was done, in order. -/
inductive Around (d : ChangeDescriptor) (c : CacheChange α) (change : Action σ Unit)
    (method : Action σ β) (s : σ) :
    Except Error β → σ → List (Deed α β) → Prop
  | refused {e s₁} (hd : d.afterInvocation = false) (hchange : change.run s = (.error e, s₁)) :
    Around d c change method s (.error e) s₁ [.changed c (.error e)]
  | before {r s₁ s₂} (hd : d.afterInvocation = false) (hchange : change.run s = (.ok (), s₁))
    (hmethod : method.run s₁ = (r, s₂)) :
    Around d c change method s r s₂ [.changed c (.ok ()), .ran r]
  | unchanged {r s₁} (hd : d.afterInvocation = true) (hmethod : method.run s = (r, s₁))
    (hr : ¬d.Follows r) : Around d c change method s r s₁ [.ran r]
  | failed {r e s₁ s₂} (hd : d.afterInvocation = true) (hmethod : method.run s = (r, s₁))
    (hr : d.Follows r) (hchange : change.run s₁ = (.error e, s₂)) :
    Around d c change method s (.error e) s₂ [.ran r, .changed c (.error e)]
  | after {r s₁ s₂} (hd : d.afterInvocation = true) (hmethod : method.run s = (r, s₁))
    (hr : d.Follows r) (hchange : change.run s₁ = (.ok (), s₂)) :
    Around d c change method s r s₂ [.ran r, .changed c (.ok ())]

section

variable {d : ChangeDescriptor} {method : Action σ β} {s s₁ : σ} {r : Except Error β}

theorem acceptsFailure_iff (d : ChangeDescriptor) (e : Error) :
    acceptsFailure d.acceptedFailures false e = true ↔ d.Follows (.error e : Except Error β) := by
  cases hfilter : d.acceptedFailures with
  | none => simp [acceptsFailure, Follows, hfilter]
  | some filter => simp [acceptsFailure, Follows, hfilter]

theorem around_before (hd : d.afterInvocation = false) (change : Action σ Unit)
    (method : Action σ β) : d.around change method = change >>= fun _ => method := by
  rw [around, hd, if_neg Bool.false_ne_true]

theorem run_around_of_not_follows (hd : d.afterInvocation = true) (hmethod : method.run s = (r, s₁))
    (hr : ¬d.Follows r) (change : Action σ Unit) : (d.around change method).run s = (r, s₁) := by
  have hattempt : method.attempt.run s = (.ok r, s₁) := by rw [Action.run_attempt, hmethod]
  rw [around, hd, if_pos rfl, Action.run_bind_of_ok hattempt]
  cases r with
  | ok v => exact absurd trivial hr
  | error e =>
    rw [← acceptsFailure_iff] at hr
    simp only [hr]
    rfl

theorem run_around_of_follows (hd : d.afterInvocation = true) (hmethod : method.run s = (r, s₁))
    (hr : d.Follows r) (change : Action σ Unit) :
    (d.around change method).run s = (change >>= fun _ => Action.ofExcept r).run s₁ := by
  have hattempt : method.attempt.run s = (.ok r, s₁) := by rw [Action.run_attempt, hmethod]
  rw [around, hd, if_pos rfl, Action.run_bind_of_ok hattempt]
  cases r with
  | ok v => rfl
  | error e =>
    rw [← acceptsFailure_iff] at hr
    simp only [hr, if_true]

end

theorem around_noted_before {d : ChangeDescriptor} (hd : d.afterInvocation = false)
    (c : CacheChange α) (change : Action σ Unit) (method : Action σ β) (s : σ) :
    ∃ r t deeds, (d.around change method).run s = (r, t) ∧
      (d.around (change.noting (.changed c)) (method.noting .ran)).run (s, []) = (r, (t, deeds)) ∧
      d.Around c change method s r t deeds := by
  rw [around_before hd, around_before hd]
  rcases hchange : change.run s with ⟨changed, s₁⟩
  have hnoted := Action.run_noting hchange (Deed.changed c : _ → Deed α β) []
  rcases changed with e | ⟨⟩
  · exact ⟨_, _, _, Action.run_bind_of_error hchange, Action.run_bind_of_error hnoted,
      .refused hd hchange⟩
  · refine ⟨_, _, _, Action.run_bind_of_ok hchange, ?_, .before hd hchange rfl⟩
    exact (Action.run_bind_of_ok hnoted).trans (Action.run_noting rfl _ _)

theorem around_noted_after {d : ChangeDescriptor} (hd : d.afterInvocation = true)
    (c : CacheChange α) (change : Action σ Unit) (method : Action σ β) (s : σ) :
    ∃ r t deeds, (d.around change method).run s = (r, t) ∧
      (d.around (change.noting (.changed c)) (method.noting .ran)).run (s, []) = (r, (t, deeds)) ∧
      d.Around c change method s r t deeds := by
  rcases hmethod : method.run s with ⟨r, s₁⟩
  have hran := Action.run_noting hmethod (Deed.ran : _ → Deed α β) []
  by_cases hr : d.Follows r
  · rw [run_around_of_follows hd hmethod hr, run_around_of_follows hd hran hr]
    rcases hchange : change.run s₁ with ⟨changed, s₂⟩
    have hnoted := Action.run_noting hchange (Deed.changed c : _ → Deed α β) ([] ++ [.ran r])
    rcases changed with e | ⟨⟩
    · exact ⟨_, _, _, Action.run_bind_of_error hchange, Action.run_bind_of_error hnoted,
        .failed hd hmethod hr hchange⟩
    · exact ⟨_, _, _, Action.run_bind_of_ok hchange, Action.run_bind_of_ok hnoted,
        .after hd hmethod hr hchange⟩
  · exact ⟨_, _, _, run_around_of_not_follows hd hmethod hr _,
      run_around_of_not_follows hd hran hr _,
      .unchanged hd hmethod hr⟩

end ChangeDescriptor

/-- For each of the three changes, any cache and any method: a call comes to what the table says,
and the record of what is done is that of a call which answers and does the same. -/
theorem CacheChange.invoke_around (d : ChangeDescriptor) (cache : KeyedCache σ α)
    (c : CacheChange α) (method : Action σ β) (s : σ) :
    ∃ r t deeds, (c.invoke d cache method).run s = (r, t) ∧
      (c.invoke d cache.noted (method.noting .ran)).run (s, []) = (r, (t, deeds)) ∧
      d.Around c (c.apply cache) method s r t deeds := by
  rw [invoke_eq_around, invoke_eq_around, apply_noted]
  cases hd : d.afterInvocation with
  | false => exact ChangeDescriptor.around_noted_before hd c _ method s
  | true => exact ChangeDescriptor.around_noted_after hd c _ method s

end EntryCache
