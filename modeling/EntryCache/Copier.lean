import EntryCache.Action
import EntryCache.Envelope

namespace EntryCache

structure Cell : Type where
  place : Nat
  deriving DecidableEq

abbrev Cells (α : Type) : Type := List α

namespace Cells

variable {α : Type}

def alloc (a : α) (s : Cells α) : Cell × Cells α := (⟨s.length⟩, s ++ [a])

def get? (s : Cells α) (c : Cell) : Option α := s[c.place]?

def change (f : α → α) (c : Cell) (s : Cells α) : Cells α := s.modify c.place f

theorem get?_change_of_ne {s : Cells α} {c d : Cell} (f : α → α) (h : c ≠ d) :
    (s.change f c).get? d = s.get? d := by
  have : c.place ≠ d.place := fun e => h (by cases c; cases d; cases e; rfl)
  simp [change, get?, this]

theorem get?_alloc_self (a : α) (s : Cells α) : (s.alloc a).2.get? (s.alloc a).1 = some a := by
  simp [alloc, get?]

end Cells

inductive Copier : Type
  | byReference
  | byValue

variable {α : Type}

def Copier.copy [Wire.Form α] (k : Copier) (c : Cell) : Action (Cells α) Cell := fun s =>
  match k, s.get? c with
  | .byValue, some a =>
    match Envelope.copy a with
    | .ok a => let (c, s) := s.alloc a; (.ok c, s)
    | .error e => (.error e, s)
  | _, _ => (.ok c, s)

end EntryCache
