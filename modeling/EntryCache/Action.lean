import EntryCache.Error

/-! Steps over a state that answer or fail. The state after a failed step is kept, so what had been
done before the failure stays done. -/

namespace EntryCache

def Action (σ α : Type) : Type := σ → Except Error α × σ

namespace Action

variable {σ τ α β : Type}

def run (a : Action σ α) (s : σ) : Except Error α × σ := a s

def bind (a : Action σ α) (f : α → Action σ β) : Action σ β := fun s =>
  match a s with
  | (.ok x, s') => f x s'
  | (.error e, s') => (.error e, s')

instance : Monad (Action σ) where
  pure x := fun s => (.ok x, s)
  bind := Action.bind

instance : MonadExceptOf Error (Action σ) where
  throw e := fun s => (.error e, s)
  tryCatch a handle := fun s =>
    match a s with
    | (.ok x, s') => (.ok x, s')
    | (.error e, s') => handle e s'

instance : MonadStateOf σ (Action σ) where
  get := fun s => (.ok s, s)
  set s := fun _ => (.ok (), s)
  modifyGet f := fun s => let (x, s') := f s; (.ok x, s')

def fail (e : Error) : Action σ α := fun s => (.error e, s)

def ofExcept (r : Except Error α) : Action σ α := fun s => (r, s)

def attempt (a : Action σ α) : Action σ (Except Error α) := fun s =>
  let (r, s') := a s
  (.ok r, s')

def mapError (f : Error → Error) (a : Action σ α) : Action σ α := fun s =>
  match a s with
  | (.ok x, s') => (.ok x, s')
  | (.error e, s') => (.error (f e), s')

def focus (get : τ → σ) (put : σ → τ → τ) (a : Action σ α) : Action τ α := fun t =>
  let (r, s) := a (get t)
  (r, put s t)

def beside (a : Action τ α) : Action (σ × τ) α := fun (s, t) =>
  let (r, t') := a t
  (r, (s, t'))

def forEach (f : α → Action σ Unit) : List α → Action σ Unit
  | [] => pure ()
  | x :: xs => do
    f x
    forEach f xs

@[simp] theorem run_pure (x : α) (s : σ) : (pure x : Action σ α).run s = (.ok x, s) := rfl

@[simp] theorem run_fail (e : Error) (s : σ) : (fail e : Action σ α).run s = (.error e, s) := rfl

@[simp] theorem run_throw (e : Error) (s : σ) :
    (throw e : Action σ α).run s = (.error e, s) := rfl

@[simp] theorem run_ofExcept (r : Except Error α) (s : σ) : (ofExcept r).run s = (r, s) := rfl

theorem run_bind (a : Action σ α) (f : α → Action σ β) (s : σ) :
    (a >>= f).run s = match a.run s with
      | (.ok x, s') => (f x).run s'
      | (.error e, s') => (.error e, s') := rfl

theorem run_bind_of_ok {a : Action σ α} {f : α → Action σ β} {s s' : σ} {x : α}
    (h : a.run s = (.ok x, s')) : (a >>= f).run s = (f x).run s' := by
  rw [run_bind, h]

theorem run_bind_of_error {a : Action σ α} {f : α → Action σ β} {s s' : σ} {e : Error}
    (h : a.run s = (.error e, s')) : (a >>= f).run s = (.error e, s') := by
  rw [run_bind, h]

@[simp] theorem run_get (s : σ) : (get : Action σ σ).run s = (.ok s, s) := rfl

@[simp] theorem run_set (s t : σ) : (set t : Action σ PUnit).run s = (.ok (), t) := rfl

@[simp] theorem run_modify (f : σ → σ) (s : σ) :
    (modify f : Action σ PUnit).run s = (.ok (), f s) := rfl

@[simp] theorem run_attempt (a : Action σ α) (s : σ) :
    (attempt a).run s = (.ok (a.run s).1, (a.run s).2) := rfl

theorem run_mapError (f : Error → Error) (a : Action σ α) (s : σ) :
    (mapError f a).run s = ((a.run s).1.mapError f, (a.run s).2) := by
  simp only [run, mapError]
  cases h : a s with
  | mk r s' => cases r <;> rfl

@[simp] theorem run_beside (a : Action τ α) (s : σ) (t : τ) :
    (beside a).run (s, t) = ((a.run t).1, (s, (a.run t).2)) := rfl

theorem bind_pure_run (a : Action σ α) : Action.bind a pure = a := by
  funext s
  simp only [Action.bind, pure]
  cases a s with
  | mk r s' => cases r <;> rfl

theorem bind_assoc_run {γ : Type} (a : Action σ α) (f : α → Action σ β) (g : β → Action σ γ) :
    Action.bind (Action.bind a f) g = Action.bind a fun x => Action.bind (f x) g := by
  funext s
  simp only [Action.bind]
  cases a s with
  | mk r s' => cases r <;> rfl

instance : LawfulMonad (Action σ) :=
  LawfulMonad.mk' (Action σ) bind_pure_run (fun _ _ => rfl) bind_assoc_run

end Action

end EntryCache
