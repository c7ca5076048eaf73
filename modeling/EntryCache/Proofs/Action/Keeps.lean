import EntryCache.Action

namespace EntryCache.Action

variable {σ τ ρ α β : Type}

theorem run_bind_pure (a : Action σ α) (f : α → β) (s : σ) :
    (a >>= fun x => pure (f x)).run s = ((a.run s).1.map f, (a.run s).2) := by
  rw [run_bind]
  rcases a.run s with ⟨e | x, s'⟩ <;> rfl

theorem run_map (f : α → β) (a : Action σ α) (s : σ) :
    (f <$> a).run s = ((a.run s).1.map f, (a.run s).2) := by
  rw [← bind_pure_comp, run_bind_pure]

theorem exists_of_run_map {f : α → β} {a : Action σ α} {s : σ} {y : β}
    (h : ((f <$> a).run s).1 = .ok y) : ∃ x, (a.run s).1 = .ok x ∧ f x = y := by
  rw [run_map] at h
  rcases hrun : a.run s with ⟨e | x, s'⟩ <;> rw [hrun] at h
  · cases h
  · exact ⟨x, rfl, Except.ok.inj h⟩

theorem snd_run_map (f : α → β) (a : Action σ α) (s : σ) :
    ((f <$> a).run s).2 = (a.run s).2 := by rw [run_map]

theorem run_discard (a : Action σ α) (s : σ) :
    (discard a).run s = ((a.run s).1.map fun _ => (), (a.run s).2) := run_map _ a s

theorem snd_run_bind_pure (a : Action σ α) (f : α → β) (s : σ) :
    ((a >>= fun x => pure (f x)).run s).2 = (a.run s).2 := by rw [run_bind_pure]

theorem run_focus (get : τ → σ) (put : σ → τ → τ) (a : Action σ α) (t : τ) :
    (a.focus get put).run t = ((a.run (get t)).1, put (a.run (get t)).2 t) := rfl

theorem ok_of_run_mapError {a : Action σ α} {f : Error → Error} {s : σ} {x : α}
    (h : ((a.mapError f).run s).1 = .ok x) : (a.run s).1 = .ok x := by
  rw [run_mapError] at h
  rcases hr : a.run s with ⟨e | y, s'⟩ <;> rw [hr] at h
  · cases h
  · exact h

def Keeps (I : σ → Prop) (a : Action σ α) : Prop := ∀ s, I s → I (a.run s).2

namespace Keeps

variable {I : σ → Prop}

theorem pure (x : α) : Keeps I (pure x : Action σ α) := fun _ h => h

theorem fail (e : Error) : Keeps I (fail e : Action σ α) := fun _ h => h

theorem ofExcept (r : Except Error α) : Keeps I (ofExcept r : Action σ α) := fun _ h => h

theorem bind {a : Action σ α} {f : α → Action σ β} (ha : Keeps I a) (hf : ∀ x, Keeps I (f x)) :
    Keeps I (a >>= f) := by
  intro s h
  have ha := ha s h
  rw [run_bind]
  split
  · next x s' hr => exact hf x s' (by rwa [hr] at ha)
  · next e s' hr => rwa [hr] at ha

theorem map {a : Action σ α} (f : α → β) (h : Keeps I a) : Keeps I (f <$> a) := by
  intro s hs
  rw [run_map]
  exact h s hs

theorem discard {a : Action σ α} (h : Keeps I a) : Keeps I (discard a) := h.map _

theorem mapError {a : Action σ α} (f : Error → Error) (h : Keeps I a) : Keeps I (a.mapError f) := by
  intro s hs
  rw [run_mapError]
  exact h s hs

theorem attempt {a : Action σ α} (h : Keeps I a) : Keeps I a.attempt := h

theorem forEach {f : α → Action σ Unit} {xs : List α} (h : ∀ x ∈ xs, Keeps I (f x)) :
    Keeps I (forEach f xs) := by
  induction xs with
  | nil => exact pure ()
  | cons x xs ih =>
    apply bind (h x List.mem_cons_self)
    intro _
    exact ih fun y hy => h y (List.mem_cons_of_mem _ hy)

theorem beside {a : Action τ α} {I : σ × τ → Prop} (h : ∀ s, Keeps (fun t => I (s, t)) a) :
    Keeps I (beside a : Action (σ × τ) α) := fun s hs => h s.1 s.2 hs

end Keeps

def Leaves (f : σ → ρ) (a : Action σ α) : Prop := ∀ s, f (a.run s).2 = f s

namespace Leaves

variable {f : σ → ρ}

theorem keeps {a : Action σ α} (h : Leaves f a) (P : ρ → Prop) : Keeps (fun s => P (f s)) a := by
  intro s hs
  rwa [h s]

theorem of_keeps {a : Action σ α} (h : ∀ x, Keeps (fun s => f s = x) a) :
    Leaves f a := fun s => h (f s) s rfl

end Leaves

end EntryCache.Action
