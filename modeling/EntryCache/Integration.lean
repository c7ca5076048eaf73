import EntryCache.Action
import EntryCache.FiniteMap

namespace EntryCache

variable {ω κ α : Type}

def loadEach [DecidableEq κ] (load : κ → Action ω (Option α)) (m : FiniteMap κ α) :
    List κ → Action ω (FiniteMap κ α)
  | [] => pure m
  | k :: ks => do
    match ← load k with
    | some v => loadEach load (m.insert k v) ks
    | none => loadEach load m ks

structure Loader (ω κ α : Type) [DecidableEq κ] : Type where
  load : κ → Action ω (Option α)
  loadAll : List κ → Action ω (FiniteMap κ α) := loadEach load ∅

def counted {β : Type} (f : β → Action ω Unit) (x : β) : Action (Nat × ω) Unit := do
  Action.beside (f x)
  modify fun s => (s.1 + 1, s.2)

/-- Handles the items of a batch in order, up to the first failure, and then takes as many off its
front as were counted: the result, and what is left. -/
def drain {β : Type} (f : β → Action ω Unit) (batch : List β) (w : ω) :
    (Except Error Unit × List β) × ω :=
  let (r, handled, w) := (Action.forEach (counted f) batch).run (0, w)
  ((r, batch.drop handled), w)

section

variable {β : Type} {f : β → Action ω Unit} {x : β} {w w' : ω}

theorem run_counted_of_ok (h : f x w = (.ok (), w')) (n : Nat) :
    (counted f x).run (n, w) = (.ok (), (n + 1, w')) := by
  have hbeside : (Action.beside (f x)).run (n, w) = (.ok (), (n, w')) := by
    rw [Action.run_beside, Action.run, h]
  rw [counted, Action.run_bind_of_ok hbeside, Action.run_modify]

theorem run_counted_of_error {e : Error} (h : f x w = (.error e, w')) (n : Nat) :
    (counted f x).run (n, w) = (.error e, (n, w')) := by
  have hbeside : (Action.beside (f x)).run (n, w) = (.error e, (n, w')) := by
    rw [Action.run_beside, Action.run, h]
  rw [counted, Action.run_bind_of_error hbeside]

theorem run_forEach_counted (f : β → Action ω Unit) (batch : List β) (n : Nat) (w : ω) :
    (Action.forEach (counted f) batch).run (n, w) =
      let (r, handled, w') := (Action.forEach (counted f) batch).run (0, w)
      (r, n + handled, w') := by
  induction batch generalizing n w with
  | nil => rfl
  | cons x batch ih =>
    rw [Action.forEach]
    rcases hx : f x w with ⟨e | ⟨⟩, w₁⟩
    · simp only [Action.run_bind_of_error (run_counted_of_error hx _), Nat.add_zero]
    · simp only [Action.run_bind_of_ok (run_counted_of_ok hx _)]
      rw [ih (n + 1), ih (0 + 1)]
      simp only [Nat.add_assoc, Nat.zero_add]

theorem drain_nil (f : β → Action ω Unit) (w : ω) : drain f [] w = ((.ok (), []), w) := rfl

theorem drain_cons_of_ok (h : f x w = (.ok (), w')) (batch : List β) :
    drain f (x :: batch) w = drain f batch w' := by
  rw [drain, Action.forEach, Action.run_bind_of_ok (run_counted_of_ok h 0),
    run_forEach_counted, drain]
  simp only [Nat.zero_add, Nat.add_comm 1, List.drop_succ_cons]

theorem drain_cons_of_error {e : Error} (h : f x w = (.error e, w')) (batch : List β) :
    drain f (x :: batch) w = ((.error e, x :: batch), w') := by
  rw [drain, Action.forEach, Action.run_bind_of_error (run_counted_of_error h 0)]
  rfl

end

structure Writer (ω κ α : Type) : Type where
  write : κ → α → Action ω Unit
  delete : κ → Action ω Unit

namespace Writer

def writeAll (w : Writer ω κ α) : List (κ × α) → ω → (Except Error Unit × List (κ × α)) × ω :=
  drain fun p => w.write p.1 p.2

def deleteAll (w : Writer ω κ α) : List κ → ω → (Except Error Unit × List κ) × ω :=
  drain w.delete

end Writer

end EntryCache
