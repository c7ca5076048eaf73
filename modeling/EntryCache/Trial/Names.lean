import EntryCache.Configuration
import EntryCache.Trial.World

namespace EntryCache.Trial

abbrev Registers (α : Type) : Type := FiniteMap String α

structure Names : Type where
  listeners : Registers (Factory World (Listener World String String)) := ∅
  filters : Registers (Factory World (EventFilter World String String)) := ∅
  numbers : Registers Nat := ∅
  next : Nat := 0

abbrev Naming : Type → Type := StateM Names

variable {α : Type}

def fresh : Naming Nat := modifyGet fun n => (n.next, { n with next := n.next + 1 })

def named (get : Names → Registers α) (put : Registers α → Names → Names) (name : String)
    (make : Nat → α) : Naming α := fun n =>
  match (get n).get? name with
  | some a => (a, n)
  | none =>
    let a := make n.next
    (a, put ((get n).insert name a) { n with next := n.next + 1 })

def numberOf (name : String) : Naming Nat :=
  named (·.numbers) (fun r n => { n with numbers := r }) name id

def recorderNamed (name : String) (failures : List (EventType × Error)) :
    Naming (Factory World (Listener World String String)) :=
  named (·.listeners) (fun r n => { n with listeners := r }) name fun id =>
    .singleton id (recorder name failures)

def filterNamed (filter : EventFilter World String String) (name : String) :
    Naming (Factory World (EventFilter World String String)) :=
  named (·.filters) (fun r n => { n with filters := r }) name fun id => .singleton id filter

def emptyLoader {κ : Type} [DecidableEq κ] (id : Nat) : Factory World (Loader World κ α) :=
  .singleton id { load := fun _ => pure none }

def idleWriter {κ : Type} (id : Nat) : Factory World (Writer World κ α) :=
  .singleton id ⟨fun _ _ => pure (), fun _ => pure ()⟩

def deaf {κ : Type} (l : ListenerConfiguration World String String) :
    ListenerConfiguration World κ α :=
  ⟨.singleton l.listener.id {}, l.filter.map fun f => .singleton f.id fun _ => pure true,
    l.oldValueRequired, l.synchronous⟩

end EntryCache.Trial
