import EntryCache.Manager
import EntryCache.Management

/-! A provider of managers. It keeps every manager that it ever handed out; those it holds are
found again by their scope and uri. -/

namespace EntryCache

abbrev ManagerId : Type := Nat

structure Provider (ω : Type) : Type where
  managers : List (Manager ω)
  held : FiniteMap (ScopeId × String) ManagerId
  /-- Only a provider that can hand out itself can make managers. -/
  shared : Bool

namespace Provider

variable {ω β : Type}

def new (shared : Bool) : Provider ω := ⟨[], ∅, shared⟩

def defaultUri : String := "memory://default"

def defaultProperties : Properties := []

def notSharedError : Error := .illegalState "provider was not created with shared()"

def isSupported : OptionalFeature → Bool
  | .storeByReference => true

def managerAt? (p : Provider ω) (id : ManagerId) : Option (Manager ω) := p.managers[id]?

def setManager (p : Provider ω) (id : ManagerId) (m : Manager ω) : Provider ω :=
  { p with managers := p.managers.set id m }

def openManager? (p : Provider ω) (key : ScopeId × String) : Option ManagerId := do
  let id ← p.held.get? key
  let m ← p.managerAt? id
  if m.closed then none else some id

/-- The manager of a uri in a scope, made if there is no open one. What is not given is the
default; the scope is then the `context`. -/
def cacheManager (context : ScopeId) (uri : Option String) (scope : Option ScopeId)
    (properties : Option Properties) : Action (Provider ω) ManagerId := fun p =>
  let uri := uri.getD defaultUri
  let scope := scope.getD context
  match p.openManager? (scope, uri) with
  | some id => (.ok id, p)
  | none =>
    if p.shared then
      let m := Manager.new uri scope (properties.getD defaultProperties)
      let id := p.managers.length
      (.ok id, { p with managers := p.managers ++ [m], held := p.held.insert (scope, uri) id })
    else (.error notSharedError, p)

def closeAt (p : Provider ω) (id : ManagerId) : Provider ω :=
  { p with managers := p.managers.modify id Manager.close }

def closeHeld (p : Provider ω) (which : (ScopeId × String) → Bool) : Provider ω :=
  (p.held.toList.filter fun q => which q.1).foldl
    (fun p q => { p.closeAt q.2 with held := p.held.erase q.1 }) p

def close (p : Provider ω) : Provider ω := p.closeHeld fun _ => true

def closeScope (p : Provider ω) (scope : ScopeId) : Provider ω := p.closeHeld fun q => q.1 == scope

def closeManager (p : Provider ω) (uri : String) (scope : ScopeId) : Provider ω :=
  p.closeHeld fun q => q == (scope, uri)

def holds (p : Provider ω) (id : ManagerId) : Bool := p.held.toList.any (·.2 == id)

def scopes (p : Provider ω) : List ScopeId :=
  p.held.toList.filterMap fun q => (p.managerAt? q.2).map (·.scope)

def onManager (id : ManagerId) (f : Manager ω × ω → β × (Manager ω × ω)) (s : Provider ω × ω) :
    Option (β × (Provider ω × ω)) :=
  (s.1.managerAt? id).map fun m =>
    let (r, (m, w)) := f (m, s.2)
    (r, (s.1.setManager id m, w))

def onCache (id : ManagerId) (cache : CacheId)
    (f : (t : EntryTypes) → t.Cache ω × ω → β × (t.Cache ω × ω)) (s : Provider ω × ω) :
    Option (β × (Provider ω × ω)) := do
  let m ← s.1.managerAt? id
  let (r, (m, w)) ← Manager.onCache cache f (m, s.2)
  return (r, (s.1.setManager id m, w))

end Provider

end EntryCache
