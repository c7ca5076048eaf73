import EntryCache.EntryTypes
import EntryCache.Scope

/-! Managers of caches. A manager keeps every cache that it ever made, so that a handle stays good
after its name was given up; the names it holds lead to some of them. -/

namespace EntryCache

abbrev CacheId : Type := Nat

abbrev Properties : Type := List (String × String)

structure Manager (ω : Type) : Type where
  uri : String
  scope : ScopeId
  properties : Properties
  created : List (AnyCache ω)
  held : FiniteMap String CacheId
  closed : Bool

namespace Manager

variable {ω β : Type}

abbrev Op (ω β : Type) : Type := Action (Manager ω × ω) β

def new (uri : String) (scope : ScopeId) (properties : Properties) : Manager ω :=
  ⟨uri, scope, properties, [], ∅, false⟩

def closedError (uri : String) : Error := .illegalState ("CacheManager " ++ uri ++ " is closed")

def existsError (name : String) : Error := .cache ("A cache named " ++ name ++ " already exists")

def unsupportedError (t : EntryTypes) : Error := .unsupported ("caches of " ++ t.shown)

def look (f : Manager ω → β) : Op ω β := fun s => (.ok (f s.1), s)

def update (f : Manager ω → Manager ω) : Op ω Unit := fun s => (.ok (), (f s.1, s.2))

def ensureOpen : Op ω Unit := fun s =>
  if s.1.closed then (.error (closedError s.1.uri), s) else (.ok (), s)

def cacheAt? (m : Manager ω) (id : CacheId) : Option (AnyCache ω) := m.created[id]?

def setCache (m : Manager ω) (id : CacheId) (c : AnyCache ω) : Manager ω :=
  { m with created := m.created.set id c }

def onCache (id : CacheId) (f : (t : EntryTypes) → t.Cache ω × ω → β × (t.Cache ω × ω))
    (s : Manager ω × ω) : Option (β × (Manager ω × ω)) :=
  (s.1.cacheAt? id).map fun c =>
    let (r, (c, w)) := AnyCache.run f (c, s.2)
    (r, (s.1.setCache id c, w))

def find? (m : Manager ω) (name : String) : Option (CacheId × AnyCache ω) := do
  let id ← m.held.get? name
  return (id, ← m.cacheAt? id)

def holding (m : Manager ω) (name : String) (c : AnyCache ω) : Manager ω :=
  { m with created := m.created ++ [c], held := m.held.insert name m.created.length }

def createCache (name : String) (config : AnyConfiguration ω) : Op ω CacheId := do
  ensureOpen
  if ← look (·.held.contains name) then .fail (existsError name)
  else if config.types.supported then fun (m, w) =>
    let (c, w) := AnyCache.create name config w
    let id := m.created.length
    (.ok id, ({ m with created := m.created ++ [c], held := m.held.insert name id }, w))
  else .fail (unsupportedError config.types)

def lookup (name : String) : Op ω (Option (CacheId × AnyCache ω)) := do
  ensureOpen
  look (·.find? name)

def getCache (t : EntryTypes) (name : String) : Op ω (Option CacheId) := do
  match ← lookup name with
  | none => return none
  | some (id, c) => do
    discard (Action.ofExcept (c.typed t))
    return some id

def names (m : Manager ω) : List String := m.held.keys.mergeSort (· ≤ ·)

def cacheNames : Op ω (List String) := do
  ensureOpen
  look names

/-- Gives up a name, empties its cache and closes it; a cache that was closed before cannot be
emptied. -/
def destroyCache (name : String) : Op ω Unit := do
  ensureOpen
  match ← look (·.find? name) with
  | none => return ()
  | some (id, c) => do
    update fun m => { m with held := m.held.erase name }
    fun (m, w) =>
      match AnyCache.clear (c, w) with
      | (.ok (), (c, w)) => (.ok (), (m.setCache id c.close, w))
      | (.error e, (c, w)) => (.error e, (m.setCache id c, w))

def clearCache (name : String) : Op ω (Option (Except Error Unit)) := do
  match ← lookup name with
  | none => return none
  | some (id, c) => fun (m, w) =>
    let (r, (c, w)) := AnyCache.clear (c, w)
    (.ok (some r), (m.setCache id c, w))

def closeHeld (name : String) : Op ω (Option Bool) := do
  match ← lookup name with
  | none => return none
  | some (id, c) => do
    update fun m => m.setCache id c.close
    return some c.close.closed

def enableManagement (_name : String) (_enabled : Bool) : Op ω Unit := ensureOpen

def enableStatistics (_name : String) (_enabled : Bool) : Op ω Unit := ensureOpen

def closeCache (m : Manager ω) (id : CacheId) : Manager ω :=
  { m with created := m.created.modify id AnyCache.close }

def close (m : Manager ω) : Manager ω :=
  if m.closed then m
  else
    let m := m.held.toList.foldl (fun m p => m.closeCache p.2) m
    { m with held := ∅, closed := true }

end Manager

end EntryCache
