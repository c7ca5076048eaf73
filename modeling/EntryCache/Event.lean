import EntryCache.Action
import EntryCache.Factory
import EntryCache.Text.Quoted

namespace EntryCache

inductive EventType : Type
  | created
  | updated
  | removed
  | expired
  deriving DecidableEq

def EventType.shown : EventType → String
  | .created => "CREATED"
  | .updated => "UPDATED"
  | .removed => "REMOVED"
  | .expired => "EXPIRED"

def EventType.all : List EventType := [.created, .updated, .removed, .expired]

def EventType.ofName? (s : String) : Option EventType := all.find? (·.shown == s)

structure Event (κ α : Type) : Type where
  source : String
  type : EventType
  key : κ
  value : Option α
  oldValue : Option α
  deriving DecidableEq

def Event.isOldValueAvailable {κ α : Type} (e : Event κ α) : Bool := e.oldValue.isSome

variable {ω κ α : Type}

structure Listener (ω κ α : Type) : Type where
  onCreated : List (Event κ α) → Action ω Unit := fun _ => pure ()
  onUpdated : List (Event κ α) → Action ω Unit := fun _ => pure ()
  onRemoved : List (Event κ α) → Action ω Unit := fun _ => pure ()
  onExpired : List (Event κ α) → Action ω Unit := fun _ => pure ()

def Listener.hook (l : Listener ω κ α) : EventType → List (Event κ α) → Action ω Unit
  | .created => l.onCreated
  | .updated => l.onUpdated
  | .removed => l.onRemoved
  | .expired => l.onExpired

def Listener.dispatch (l : Listener ω κ α) (t : EventType) (events : List (Event κ α)) :
    Action ω Unit :=
  l.hook t events

abbrev EventFilter (ω κ α : Type) : Type := Event κ α → Action ω Bool

structure ListenerConfiguration (ω κ α : Type) : Type where
  listener : Factory ω (Listener ω κ α)
  filter : Option (Factory ω (EventFilter ω κ α))
  oldValueRequired : Bool
  synchronous : Bool

namespace ListenerConfiguration

def same (c d : ListenerConfiguration ω κ α) : Bool :=
  c.listener.same d.listener && Factory.sameOption c.filter d.filter &&
    c.oldValueRequired == d.oldValueRequired && c.synchronous == d.synchronous

/-- A clone, or a copy from what a listener configuration answers for itself; the factories are
shared. -/
def ofConfiguration (c : ListenerConfiguration ω κ α) : ListenerConfiguration ω κ α where
  listener := c.listener
  filter := c.filter
  oldValueRequired := c.oldValueRequired
  synchronous := c.synchronous

def shown (c : ListenerConfiguration ω κ α) : String :=
  Text.record "MutableCacheEntryListenerConfiguration" [
    ("has_filter", toString c.filter.isSome),
    ("old_value_required", toString c.oldValueRequired),
    ("synchronous", toString c.synchronous)]

theorem same_refl (c : ListenerConfiguration ω κ α) : c.same c = true := by
  simp [same, Factory.same_refl, Factory.sameOption_refl]

end ListenerConfiguration

end EntryCache
