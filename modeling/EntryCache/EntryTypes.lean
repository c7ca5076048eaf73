import EntryCache.Cache.Invoke
import EntryCache.Envelope
import EntryCache.Key.Form

/-! The types that keys and values of caches may have, and caches and configurations that carry
theirs with them. Taking one back with other types is a failure that names both pairs. A cache as
such may have any types; where they are erased, three for keys and four for values stand for all. -/

namespace EntryCache

inductive KeyType : Type
  | text
  | word
  | key
  deriving DecidableEq

inductive ValueType : Type
  | text
  | word
  | integer
  | failure
  deriving DecidableEq

namespace KeyType

abbrev Carrier : KeyType → Type
  | .text => String
  | .word => UInt64
  | .key => Key

instance : (t : KeyType) → DecidableEq t.Carrier
  | .text => inferInstanceAs (DecidableEq String)
  | .word => inferInstanceAs (DecidableEq UInt64)
  | .key => inferInstanceAs (DecidableEq Key)

def name : KeyType → String
  | .text => "alloc::string::String"
  | .word => "u64"
  | .key => "cache_api::annotation::DefaultCacheKey"

def shown : (t : KeyType) → t.Carrier → String
  | .text, s => s
  | .word, n => toString n.toNat
  | .key, k => k.shown

end KeyType

namespace ValueType

abbrev Carrier : ValueType → Type
  | .text => String
  | .word => UInt64
  | .integer => Int32
  | .failure => Error

def name : ValueType → String
  | .text => "alloc::string::String"
  | .word => "u64"
  | .integer => "i32"
  | .failure => "cache_api::error::Error"

def shown : (t : ValueType) → t.Carrier → String
  | .text, s => s
  | .word, n => toString n.toNat
  | .integer, n => toString n.toInt
  | .failure, e => e.message

def decEq? : (t : ValueType) → Option (DecidableEq t.Carrier)
  | .text => some (inferInstanceAs (DecidableEq String))
  | .word => some (inferInstanceAs (DecidableEq UInt64))
  | .integer => some (inferInstanceAs (DecidableEq Int32))
  | .failure => none

/-- The copy of a value: through an envelope, or the value itself. Failures have no envelope. -/
def copy : (t : ValueType) → (byValue : Bool) → t.Carrier → Except Error t.Carrier
  | .text, true => Envelope.copy (α := String)
  | .word, true => Envelope.copy (α := UInt64)
  | .integer, true => Envelope.copy (α := Int32)
  | _, _ => .ok

end ValueType

structure EntryTypes : Type where
  key : KeyType
  value : ValueType
  deriving DecidableEq

namespace EntryTypes

def shown (t : EntryTypes) : String := "<" ++ t.key.name ++ ", " ++ t.value.name ++ ">"

def mismatch (expected found : EntryTypes) : Error := .typeMismatch expected.shown found.shown

def supported : EntryTypes → Bool
  | ⟨.text, .text⟩ => true
  | ⟨.text, .word⟩ => true
  | ⟨.text, .integer⟩ => true
  | ⟨.word, .text⟩ => true
  | ⟨.key, .text⟩ => true
  | ⟨.key, .word⟩ => true
  | ⟨.key, .failure⟩ => true
  | _ => false

abbrev Cache (ω : Type) (t : EntryTypes) : Type :=
  EntryCache.Cache ω t.key.Carrier t.value.Carrier

abbrev Configuration (ω : Type) (t : EntryTypes) : Type :=
  EntryCache.Configuration ω t.key.Carrier t.value.Carrier

end EntryTypes

structure AnyConfiguration (ω : Type) : Type where
  types : EntryTypes
  config : types.Configuration ω

namespace AnyConfiguration

variable {ω : Type}

def shown (c : AnyConfiguration ω) : String := "ErasedConfiguration" ++ c.types.shown

def typed (t : EntryTypes) (c : AnyConfiguration ω) : Except Error (t.Configuration ω) :=
  if h : c.types = t then .ok (h ▸ c.config) else .error (t.mismatch c.types)

end AnyConfiguration

structure AnyCache (ω : Type) : Type where
  types : EntryTypes
  cache : types.Cache ω

namespace AnyCache

variable {ω β : Type}

def name (c : AnyCache ω) : String := c.cache.name

def closed (c : AnyCache ω) : Bool := c.cache.closed

def shown (c : AnyCache ω) : String := "ErasedCache(" ++ c.name ++ ": " ++ c.types.shown ++ ")"

def close (c : AnyCache ω) : AnyCache ω := ⟨c.types, c.cache.close⟩

def run (f : (t : EntryTypes) → t.Cache ω × ω → β × (t.Cache ω × ω)) (s : AnyCache ω × ω) :
    β × (AnyCache ω × ω) :=
  let (r, (cache, w)) := f s.1.types (s.1.cache, s.2)
  (r, (⟨s.1.types, cache⟩, w))

def clear : Action (AnyCache ω × ω) Unit := run fun _ => Cache.clear

def typed (t : EntryTypes) (c : AnyCache ω) : Except Error (t.Cache ω) :=
  if h : c.types = t then .ok (h ▸ c.cache) else .error (t.mismatch c.types)

def create (name : String) (c : AnyConfiguration ω) (w : ω) : AnyCache ω × ω :=
  let copy := c.types.value.copy c.config.flags.storeByValue
  let (cache, w) := Cache.create name c.config copy w
  (⟨c.types, cache⟩, w)

theorem typed_self (c : AnyCache ω) : c.typed c.types = .ok c.cache := dif_pos rfl

theorem typed_eq_error {t : EntryTypes} {c : AnyCache ω} (h : c.types ≠ t) :
    c.typed t = .error (t.mismatch c.types) := dif_neg h

end AnyCache

end EntryCache
