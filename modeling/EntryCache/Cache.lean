import EntryCache.Configuration
import EntryCache.StagedEntry
import EntryCache.Statistics

/-! A cache in memory, and the two changes that all its operations are made of. A change goes to
the writer first, then to the entries and the counters, and to the listeners last; a failure on the
way leaves done what was done. -/

namespace EntryCache

/-- How a listener was registered: with the cache, by its place, or later, by whoever holds it. -/
inductive ListenerHandle : Type
  | initial (place : Nat)
  | given (id : Nat)
  deriving DecidableEq

structure Registered (ω κ α : Type) : Type where
  handle : ListenerHandle
  config : ListenerConfiguration ω κ α
  listener : Listener ω κ α
  filter : Option (EventFilter ω κ α)

structure Cache (ω κ α : Type) [DecidableEq κ] : Type where
  name : String
  config : Configuration ω κ α
  copy : α → Except Error α
  loader : Option (Loader ω κ α)
  writer : Option (Writer ω κ α)
  entries : FiniteMap κ α
  listeners : List (Registered ω κ α)
  stats : Statistics
  closed : Bool

namespace Cache

variable {ω κ α β : Type} [DecidableEq κ]

abbrev Op (ω κ α β : Type) [DecidableEq κ] : Type := Action (Cache ω κ α × ω) β

def closedError (name : String) : Error := .illegalState ("Cache " ++ name ++ " is closed")

def look (f : Cache ω κ α → β) : Op ω κ α β := fun s => (.ok (f s.1), s)

def update (f : Cache ω κ α → Cache ω κ α) : Op ω κ α Unit := fun s => (.ok (), (f s.1, s.2))

def ensureOpen : Op ω κ α Unit := fun s =>
  if s.1.closed then (.error (closedError s.1.name), s) else (.ok (), s)

def onSome (c : Option β) (f : β → Action ω Unit) : Action ω Unit :=
  match c with
  | some b => f b
  | none => pure ()

/-- The event that a listener is told of; it carries the old value only if the listener asked for
it. -/
def eventFor (source : String) (t : EventType) (k : κ) (value old : Option α)
    (r : Registered ω κ α) : Event κ α where
  source := source
  type := t
  key := k
  value := value
  oldValue := if r.config.oldValueRequired then old else none

def accepts (r : Registered ω κ α) (e : Event κ α) : Action ω Bool :=
  match r.filter with
  | some f => f e
  | none => pure true

def tell (r : Registered ω κ α) (e : Event κ α) : Action ω Unit := do
  if ← accepts r e then
    (r.listener.dispatch e.type [e]).mapError (·.attributeTo .listener)

/-- Tells the listeners of a change in the order of their registration; the first failure ends
it. -/
def notify (t : EventType) (k : κ) (value old : Option α) : Op ω κ α Unit := fun s =>
  (Action.forEach (fun r => tell r (eventFor s.1.name t k value old r)) s.1.listeners).beside s

def writer? (c : Cache ω κ α) : Option (Writer ω κ α) :=
  if c.config.flags.writeThrough then c.writer else none

def loader? (c : Cache ω κ α) : Option (Loader ω κ α) :=
  if c.config.flags.readThrough then c.loader else none

def writeThrough (k : κ) (v : α) : Op ω κ α Unit := fun s =>
  (onSome s.1.writer? fun w => (w.write k v).mapError (·.attributeTo .writer)).beside s

def deleteThrough (k : κ) : Op ω κ α Unit := fun s =>
  (onSome s.1.writer? fun w => (w.delete k).mapError (·.attributeTo .writer)).beside s

def enter (k : κ) (v : α) (c : Cache ω κ α) : Cache ω κ α :=
  { c with entries := c.entries.insert k v }

def countPut (c : Cache ω κ α) : Cache ω κ α := { c with stats := c.stats.recordPuts 1 }
def countRemoval (c : Cache ω κ α) : Cache ω κ α := { c with stats := c.stats.recordRemovals 1 }
def countHit (c : Cache ω κ α) : Cache ω κ α := { c with stats := c.stats.recordHits 1 }
def countMiss (c : Cache ω κ α) : Cache ω κ α := { c with stats := c.stats.recordMisses 1 }

def copied (v : α) : Op ω κ α α := fun s => (s.1.copy v, s)

def storeValue (k : κ) (v : α) : Op ω κ α (Option α) := do
  writeThrough k v
  let stored ← copied v
  let old ← look (·.entries.get? k)
  update fun c => (c.enter k stored).countPut
  match old with
  | some o => notify .updated k (some v) (some o)
  | none => notify .created k (some v) none
  return old

def deleteValue (k : κ) : Op ω κ α (Option α) := do
  deleteThrough k
  let old ← look (·.entries.get? k)
  match old with
  | some o => do
    update fun c => { c with entries := c.entries.erase k }.countRemoval
    notify .removed k (some o) (some o)
  | none => pure ()
  return old

end Cache

end EntryCache
