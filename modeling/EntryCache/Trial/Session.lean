import EntryCache.Cache.Operation
import EntryCache.Provider
import EntryCache.Trial.Names
import EntryCache.Trial.Script

namespace EntryCache.Trial

structure Handle : Type where
  manager : ManagerId
  cache : CacheId
  around : List Interception

abbrev Registration : Type := ListenerHandle × ListenerConfiguration World String String

abbrev TrialOp (t : EntryTypes) : Type :=
  Cache.Operation World t.key.Carrier t.value.Carrier (List Answer)

abbrev TrialReply (t : EntryTypes) : Type :=
  Cache.Reply t.key.Carrier t.value.Carrier (List Answer)

structure Session : Type where
  provider : Provider World := .new true
  world : World := {}
  names : Names := {}
  scopes : Scopes Unit := .new
  scopeIds : Registers ScopeId := ∅
  managers : Registers ManagerId := ∅
  caches : Registers Handle := ∅
  listeners : Registers (ListenerConfiguration World String String) := ∅

abbrev Talk : Type → Type := StateM Session

namespace Session

variable {α β : Type}

def unknown : Error := .illegalState "nothing is held under this name"

def naming (a : Naming α) : Talk α := fun s =>
  let (x, n) := a s.names
  (x, { s with names := n })

def scope (name : String) : Talk ScopeId := fun s =>
  match s.scopeIds.get? name with
  | some id => (id, s)
  | none =>
    let (id, scopes) := s.scopes.make name none
    (id, { s with scopes := scopes, scopeIds := s.scopeIds.insert name id })

def holders (r : Registers α) (p : α → Bool) : List String :=
  ((r.toList.filter fun q => p q.2).map Prod.fst).mergeSort (· ≤ ·)

def manager? (s : Session) (name : String) : Option (Manager World) :=
  (s.managers.get? name).bind s.provider.managerAt?

def onProvider (f : Provider World → Provider World) : Talk Unit :=
  modify fun s => { s with provider := f s.provider }

def onManager (name : String) (op : Manager.Op World α) : Talk (Except Error α) := fun s =>
  match (s.managers.get? name).bind fun id => Provider.onManager id op (s.provider, s.world) with
  | some (r, (p, w)) => (r, { s with provider := p, world := w })
  | none => (.error unknown, s)

def onCache (h : Handle) (f : (t : EntryTypes) → t.Cache World × World →
    β × (t.Cache World × World)) :
    Talk (Option β) := fun s =>
  match Provider.onCache h.manager h.cache f (s.provider, s.world) with
  | some (r, (p, w)) => (some r, { s with provider := p, world := w })
  | none => (none, s)

def openManager (name : String) (uri : Option String) (scope : Option ScopeId)
    (properties : Option Properties) :
    Talk (Except Error (Option (Manager World) × List String)) := fun s =>
  match Provider.cacheManager s.scopes.context uri scope properties s.provider with
  | (.error e, p) => (.error e, { s with provider := p })
  | (.ok id, p) => (.ok (p.managerAt? id, holders s.managers (· == id)),
      { s with provider := p, managers := s.managers.insert name id })

def hold (manager name : String) (id : CacheId) : Talk Unit :=
  modify fun s => match s.managers.get? manager with
    | some m => { s with caches := s.caches.insert name ⟨m, id, []⟩ }
    | none => s

def createCache (manager cache name : String) (config : AnyConfiguration World) :
    Talk (Except Error Unit) := do
  let r ← onManager manager (Manager.createCache cache config)
  match r with
  | .ok id => hold manager name id
  | .error _ => pure ()
  return r.map fun _ => ()

def findCache (manager cache name : String) (t : EntryTypes) :
    Talk (Except Error (Option (List String))) := do
  match ← onManager manager (Manager.getCache t cache) with
  | .error e => return .error e
  | .ok none => return .ok none
  | .ok (some id) =>
    let s ← get
    hold manager name id
    return .ok (some (holders s.caches fun h =>
      some h.manager == s.managers.get? manager && h.cache == id && h.around.isEmpty))

def intercept (name second : String) (i : Interception) : Talk Unit :=
  modify fun s => match s.caches.get? name with
    | some h => { s with caches := s.caches.insert second { h with around := i :: h.around } }
    | none => s

def owner (s : Session) (h : Handle) : Option String :=
  if s.provider.holds h.manager || s.managers.toList.any (·.2 == h.manager) then
    (s.provider.managerAt? h.manager).map (·.uri)
  else none

def listenerOf (name : String) (make : Naming (ListenerConfiguration World String String)) :
    Talk Registration := do
  let id ← naming (numberOf ("listener " ++ name))
  match (← get).listeners.get? name with
  | some c => return (.given id, c)
  | none =>
    let c ← naming make
    modify fun s => { s with listeners := s.listeners.insert name c }
    return (.given id, c)

def operate (h : Handle) (t : EntryTypes) (op : TrialOp t) (s : t.Cache World × World) :
    Except Error (TrialReply t) × (t.Cache World × World) :=
  match t.value.decEq? with
  | some _ => op.run (fun run => h.around.foldr Interception.around run) s
  | none => (.error unknown, s)

end Session

end EntryCache.Trial
