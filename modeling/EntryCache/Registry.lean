import EntryCache.Action
import EntryCache.Scope
import EntryCache.Text.Blank

/-! The registry of providers: it finds the providers of a scope, makes each once, and keeps them
until they are closed or their scope is dropped. Constructors may change the world, and the
registry too. -/

namespace EntryCache

inductive ConstructionFailure : Type
  | failed (e : Error)
  | panicked

def ConstructionFailure.message : ConstructionFailure → String
  | .failed e => e.message
  | .panicked => "constructor panicked"

structure Registry (ι π : Type) : Type where
  scopes : Scopes ι
  /-- The only provider to look for, if there is one. -/
  override : Option String
  defaultScope? : Option ScopeId
  table : FiniteMap ScopeId (List (String × π))

namespace Registry

variable {ι π μ ω α : Type}

abbrev Op (ι π ω α : Type) : Type := Action (Registry ι π × ω) α

abbrev Constructor (ι π ω : Type) : Type :=
  ι → Registry ι π × ω → Except ConstructionFailure π × (Registry ι π × ω)

structure Interface (π μ ω : Type) : Type where
  name : π → String
  defaultManager : (context : ScopeId) → π → Action ω μ
  close : π → Action ω Unit

def new (scopes : Scopes ι) (override : Option String) : Registry ι π := ⟨scopes, override, none, ∅⟩

def overrideOf (setting : Option String) : Option String := setting.filter fun s => !Text.blank s

def defaultScope (r : Registry ι π) : ScopeId := r.defaultScope?.getD r.scopes.context

def setDefaultScope (s : Option ScopeId) (r : Registry ι π) : Registry ι π :=
  { r with defaultScope? := s }

def look (f : Registry ι π → α) : Op ι π ω α := fun s => (.ok (f s.1), s)

def update (f : Registry ι π → Registry ι π) : Op ι π ω Unit := fun s => (.ok (), (f s.1, s.2))

def forget (r : Registry ι π) : Registry ι π :=
  { r with table := r.table.filter r.scopes.isAlive }

def loadError (name why : String) : Error :=
  .cache ("Failed to load the CachingProvider [" ++ name ++ "]: " ++ why)

def unregistered (label : String) : String := "not registered in scope " ++ label

def construct (make : Constructor ι π ω) (service : ι) : Op ι π ω π := fun s =>
  let (r, s) := make service s
  (r.mapError fun
    | .failed e => e
    | .panicked => .cache ConstructionFailure.panicked.message, s)

def load (construct : Constructor ι π ω) (name : String) (scope : ScopeId) : Op ι π ω π := fun s =>
  match s.1.scopes.load scope name with
  | none => (.error (loadError name (unregistered (s.1.scopes.label scope))), s)
  | some service =>
    let (r, s) := construct service s
    (r.mapError fun why => loadError name why.message, s)

def loadEach (construct : Constructor ι π ω) (scope : ScopeId) :
    List String → Op ι π ω (List (String × π))
  | [] => return []
  | name :: names => do
    let p ← load construct name scope
    let ps ← loadEach construct scope names
    return (name, p) :: ps

def names (r : Registry ι π) (scope : ScopeId) : List String :=
  match r.override with
  | some name => [name]
  | none => r.scopes.serviceNames scope

/-- Makes the providers of a scope; they are kept only if all of them can be made. -/
def discover (construct : Constructor ι π ω) (scope : ScopeId) : Op ι π ω (List (String × π)) := do
  let found ← loadEach construct scope (← look (names · scope))
  update fun r => { r with table := r.table.insert scope found }
  return found

def known (construct : Constructor ι π ω) (scope : ScopeId) : Op ι π ω (List (String × π)) := do
  match ← look (·.table.get? scope) with
  | some found => return found
  | none => discover construct scope

def providers (construct : Constructor ι π ω) (scope : ScopeId) : Op ι π ω (List π) := do
  update forget
  return (← known construct scope).map Prod.snd

def noneError : Error := .cache "No CachingProviders have been configured"

def manyError (names : List String) : Error :=
  .cache
    ("Multiple CachingProviders have been configured when only a single CachingProvider is expected: "
    ++ ", ".intercalate names)

def provider (construct : Constructor ι π ω) (name : π → String) (scope : ScopeId) :
    Op ι π ω π := do
  match ← providers construct scope with
  | [] => .fail noneError
  | [p] => return p
  | ps => .fail (manyError (ps.map name))

def keep (scope : ScopeId) (name : String) (p : π) (r : Registry ι π) : Registry ι π :=
  { r with table := r.table.insert scope ((r.table.get? scope).getD [] ++ [(name, p)]) }

/-- The provider of a name, which is made if it was not found with the others. -/
def providerNamed (construct : Constructor ι π ω) (name : String) (scope : ScopeId) :
    Op ι π ω π := do
  update forget
  discard (known construct scope)
  match ← look fun r => ((r.table.get? scope).getD []).lookup name with
  | some p => return p
  | none => do
    let p ← load construct name scope
    update (keep scope name p)
    return p

def count : Op ι π ω Nat := do
  update forget
  look (·.table.size)

/-- Closes providers in order, each one whatever became of those before: the failures by name. -/
def closeEach (close : π → Action ω Unit) : List (String × π) → ω → List (String × Error) × ω
  | [], w => ([], w)
  | (name, p) :: ps, w =>
    let (r, w) := close p w
    let (failures, w) := closeEach close ps w
    match r with
    | .ok () => (failures, w)
    | .error e => ((name, e) :: failures, w)

def shutdown : List (String × Error) → Except Error Unit
  | [] => .ok ()
  | failures => .error (.shutdown failures)

def closing (close : π → Action ω Unit) (ps : List (String × π)) : Op ι π ω Unit := fun (r, w) =>
  let (failures, w) := closeEach close ps w
  (shutdown failures, (r, w))

def closeAll (close : π → Action ω Unit) : Op ι π ω Unit := do
  let all ← look (·.table.toList.flatMap Prod.snd)
  update fun r => { r with table := ∅ }
  closing close all

def closeScope (close : π → Action ω Unit) (scope : ScopeId) : Op ι π ω Unit := do
  let ps ← look fun r => (r.table.get? scope).getD []
  update fun r => { r with table := r.table.erase scope }
  closing close ps

def putBack (scope : ScopeId) (ps : List (String × π)) (r : Registry ι π) : Registry ι π :=
  { r with table := if ps.isEmpty then r.table.erase scope else r.table.insert scope ps }

def closeProvider (close : π → Action ω Unit) (name : String) (scope : ScopeId) :
    Op ι π ω Unit := do
  let ps ← look fun r => (r.table.get? scope).getD []
  match ps.lookup name with
  | none => return ()
  | some p => do
    update (putBack scope (FiniteMap.drop name ps))
    closing close [(name, p)]

def defaultManager (construct : Constructor ι π ω) (i : Interface π μ ω) (scope : ScopeId) :
    Op ι π ω μ := do
  let p ← provider construct i.name scope
  (i.defaultManager (← look (·.scopes.context)) p).beside

def getCache (construct : Constructor ι π ω) (i : Interface π μ ω) (find : μ → Action ω α) :
    Op ι π ω α := do
  let m ← defaultManager construct i (← look defaultScope)
  (find m).beside

def dropScopes (captures : ι → List ScopeId) (held : List ScopeId) (r : Registry ι π) :
    Registry ι π :=
  { r with scopes := r.scopes.drop captures (r.defaultScope?.toList ++ held) }

end Registry

end EntryCache
