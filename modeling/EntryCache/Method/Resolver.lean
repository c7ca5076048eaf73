import EntryCache.Manager.Equipped
import EntryCache.Method

namespace EntryCache

structure CacheSource (σ τ : Type) : Type where
  find : EntryTypes → String → Action σ (Option τ)
  make : EntryTypes → String → Action σ τ

namespace CacheSource

variable {σ τ : Type}

/-- The cache under a name, made if there is none. If making it fails because somebody else was
faster, theirs is taken. -/
def getOrCreate (s : CacheSource σ τ) (t : EntryTypes) (name : String) : Action σ τ := do
  match ← s.find t name with
  | some c => return c
  | none => do
    match ← (s.make t name).attempt with
    | .ok c => return c
    | .error (.cache text) => do
      match ← s.find t name with
      | some c => return c
      | none => .fail (.cache text)
    | .error e => .fail e

def resolve (s : CacheSource σ τ) (v : ValueType) (d : MethodDetails) : Action σ τ :=
  s.getOrCreate ⟨.key, v⟩ d.cacheName

def resolveExceptions (s : CacheSource σ τ) (d : MethodDetails) : Action σ τ :=
  match d.exceptionCacheName with
  | some name => s.getOrCreate ⟨.key, .failure⟩ name
  | none => .fail (.descriptor (d.methodName ++ " does not declare an exception cache"))

def ofManager {ω : Type} (id : Nat) : CacheSource (Manager ω × ω) CacheId where
  find := Manager.getCache
  make t name := Manager.createCache name ⟨t, .new id⟩

def ofEquipped {ω : Type} (id : Nat) : CacheSource (Equipped ω × ω) CacheId where
  find := Equipped.getCache
  make t name := Equipped.createCache t name (.new id)

end CacheSource

end EntryCache
