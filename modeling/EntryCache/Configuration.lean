import EntryCache.Event
import EntryCache.Expiry
import EntryCache.Integration

/-! Configurations of caches. Factories stand for the live parts; the flags and the choice of a
stock expiry policy are what a configuration can be stored as. -/

namespace EntryCache

structure Flags : Type where
  storeByValue : Bool
  readThrough : Bool
  writeThrough : Bool
  statistics : Bool
  management : Bool
  deriving DecidableEq

instance : Inhabited Flags := ⟨⟨true, false, false, false, false⟩⟩

def Flags.toList (f : Flags) : List Bool :=
  [f.storeByValue, f.readThrough, f.writeThrough, f.statistics, f.management]

variable {ω κ α : Type} [DecidableEq κ]

structure Configuration (ω κ α : Type) [DecidableEq κ] : Type where
  flags : Flags
  listeners : List (ListenerConfiguration ω κ α)
  loader : Option (Factory ω (Loader ω κ α))
  writer : Option (Factory ω (Writer ω κ α))
  expiry : Factory ω ExpiryPolicy

structure CacheSettings : Type where
  flags : Flags
  expiry : ExpirySettings
  deriving DecidableEq

instance : Inhabited CacheSettings := ⟨⟨default, default⟩⟩

namespace Configuration

def new (id : Nat) : Configuration ω κ α := ⟨default, [], none, none, .singleton id .eternal⟩

def ofSettings (id : Nat) (s : CacheSettings) : Configuration ω κ α :=
  { (new id : Configuration ω κ α) with flags := s.flags, expiry := s.expiry.factory id }

/-- What is stored of a configuration; the expiry policy cannot be seen in its factory. -/
def settings (c : Configuration ω κ α) (expiry : ExpirySettings) :
    CacheSettings := ⟨c.flags, expiry⟩

def withStoreByValue (c : Configuration ω κ α) (b : Bool) : Configuration ω κ α :=
  { c with flags := { c.flags with storeByValue := b } }
def withReadThrough (c : Configuration ω κ α) (b : Bool) : Configuration ω κ α :=
  { c with flags := { c.flags with readThrough := b } }
def withWriteThrough (c : Configuration ω κ α) (b : Bool) : Configuration ω κ α :=
  { c with flags := { c.flags with writeThrough := b } }
def withStatistics (c : Configuration ω κ α) (b : Bool) : Configuration ω κ α :=
  { c with flags := { c.flags with statistics := b } }
def withManagement (c : Configuration ω κ α) (b : Bool) : Configuration ω κ α :=
  { c with flags := { c.flags with management := b } }
def withLoader (c : Configuration ω κ α) (f : Factory ω (Loader ω κ α)) : Configuration ω κ α :=
  { c with loader := some f }
def withWriter (c : Configuration ω κ α) (f : Factory ω (Writer ω κ α)) : Configuration ω κ α :=
  { c with writer := some f }
def withExpiry (c : Configuration ω κ α) (f : Factory ω ExpiryPolicy) : Configuration ω κ α :=
  { c with expiry := f }

def hasListener (c : Configuration ω κ α) (l : ListenerConfiguration ω κ α) : Bool :=
  c.listeners.any (·.same l)

def addListener (c : Configuration ω κ α) (l : ListenerConfiguration ω κ α) :
    Except Error (Configuration ω κ α) :=
  if c.hasListener l then
    .error (.invalidArgument "A CacheEntryListenerConfiguration can be registered only once")
  else .ok { c with listeners := c.listeners ++ [l] }

def removeListener (c : Configuration ω κ α) (l : ListenerConfiguration ω κ α) :
    Bool × Configuration ω κ α :=
  let kept := c.listeners.filter fun d => !d.same l
  (kept.length != c.listeners.length, { c with listeners := kept })

def ofComplete (c : Configuration ω κ α) : Configuration ω κ α where
  flags := c.flags
  listeners := c.listeners
  loader := c.loader
  writer := c.writer
  expiry := c.expiry

def sameListeners (c d : Configuration ω κ α) : Bool :=
  c.listeners.length == d.listeners.length && (c.listeners.zip d.listeners).all fun p =>
    p.1.same p.2

def shown (keyType valueType : String) (c : Configuration ω κ α) : String :=
  Text.record "MutableConfiguration" [
    ("key_type", Text.quoted keyType),
    ("value_type", Text.quoted valueType),
    ("store_by_value", toString c.flags.storeByValue),
    ("read_through", toString c.flags.readThrough),
    ("write_through", toString c.flags.writeThrough),
    ("statistics_enabled", toString c.flags.statistics),
    ("management_enabled", toString c.flags.management),
    ("listeners", toString c.listeners.length)]

end Configuration

namespace CacheSettings

structure Parts : Type where
  storeByValue : Option Bool
  readThrough : Option Bool
  writeThrough : Option Bool
  statistics : Option Bool
  management : Option Bool
  expiry : Option ExpirySettings

def Parts.empty : Parts := ⟨none, none, none, none, none, none⟩

def Parts.finish (p : Parts) : CacheSettings where
  flags := {
    storeByValue := p.storeByValue.getD true
    readThrough := p.readThrough.getD false
    writeThrough := p.writeThrough.getD false
    statistics := p.statistics.getD false
    management := p.management.getD false }
  expiry := p.expiry.getD .eternal

def jsonFields : List (Json.Field Parts) := [
  ⟨"store_by_value", fun p => p.storeByValue.isSome,
    fun d p => do return { p with storeByValue := some (← Json.Form.read d) }⟩,
  ⟨"read_through", fun p => p.readThrough.isSome,
    fun d p => do return { p with readThrough := some (← Json.Form.read d) }⟩,
  ⟨"write_through", fun p => p.writeThrough.isSome,
    fun d p => do return { p with writeThrough := some (← Json.Form.read d) }⟩,
  ⟨"statistics_enabled", fun p => p.statistics.isSome,
    fun d p => do return { p with statistics := some (← Json.Form.read d) }⟩,
  ⟨"management_enabled", fun p => p.management.isSome,
    fun d p => do return { p with management := some (← Json.Form.read d) }⟩,
  ⟨"expiry", fun p => p.expiry.isSome,
    fun d p => do return { p with expiry := some (← Json.Form.read d) }⟩]

instance : Json.Form CacheSettings where
  write s := Json.writeObject [
    ("store_by_value", Json.Form.write s.flags.storeByValue),
    ("read_through", Json.Form.write s.flags.readThrough),
    ("write_through", Json.Form.write s.flags.writeThrough),
    ("statistics_enabled", Json.Form.write s.flags.statistics),
    ("management_enabled", Json.Form.write s.flags.management),
    ("expiry", Json.Form.write s.expiry)]
  read d := do return (← Json.fields jsonFields true Parts.empty d).finish

instance : Wire.Form CacheSettings where
  write s := do
    let flags ← s.flags.toList.mapM Wire.Form.write
    return flags.flatten ++ (← Wire.Form.write s.expiry)
  read := do
    let storeByValue ← Wire.Form.read
    let readThrough ← Wire.Form.read
    let writeThrough ← Wire.Form.read
    let statistics ← Wire.Form.read
    let management ← Wire.Form.read
    let expiry ← Wire.Form.read
    return ⟨⟨storeByValue, readThrough, writeThrough, statistics, management⟩, expiry⟩

end CacheSettings

end EntryCache
