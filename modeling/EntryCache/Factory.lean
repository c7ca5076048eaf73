/-! Factories of the components that a configuration names. Two handles are of the same factory if
they carry the same number; making an instance may change the world that the factory lives in. -/

namespace EntryCache

structure Factory (ω τ : Type) : Type where
  id : Nat
  create : ω → τ × ω

namespace Factory

variable {ω τ : Type}

def singleton (id : Nat) (x : τ) : Factory ω τ := ⟨id, fun w => (x, w)⟩

def ofDefault (id : Nat) [Inhabited τ] : Factory ω τ := ⟨id, fun w => (default, w)⟩

def same (f g : Factory ω τ) : Bool := f.id == g.id

def sameOption : Option (Factory ω τ) → Option (Factory ω τ) → Bool
  | none, none => true
  | some f, some g => f.same g
  | _, _ => false

def createMany (f : Factory ω τ) : (n : Nat) → ω → List τ × ω
  | 0, w => ([], w)
  | n + 1, w =>
    let (x, w) := f.create w
    let (xs, w) := f.createMany n w
    (x :: xs, w)

theorem same_refl (f : Factory ω τ) : f.same f = true := beq_self_eq_true _

theorem sameOption_refl (f : Option (Factory ω τ)) : sameOption f f = true := by
  cases f with
  | none => rfl
  | some f => exact f.same_refl

end Factory

end EntryCache
