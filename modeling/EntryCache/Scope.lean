import EntryCache.FiniteMap
import EntryCache.Text.Quoted

namespace EntryCache

abbrev ScopeId : Type := Nat

structure Scope (ι : Type) : Type where
  label : String
  parent : Option ScopeId
  services : FiniteMap String ι

structure Scopes (ι : Type) : Type where
  made : List (Scope ι)
  alive : List ScopeId
  context? : Option ScopeId

namespace Scope

variable {ι : Type}

/-- Of two registrations of one name the first counts. -/
def register (name : String) (service : ι) (s : Scope ι) : Scope ι :=
  if s.services.contains name then s else { s with services := s.services.insert name service }

def references (captures : ι → List ScopeId) (s : Scope ι) : List ScopeId :=
  s.parent.toList ++ s.services.toList.flatMap fun p => captures p.2

end Scope

namespace Scopes

variable {ι : Type}

def find : List (Scope ι) → ScopeId → Option (Scope ι)
  | [], _ => none
  | s :: older, id => if id = older.length then some s else find older id

def modify (f : Scope ι → Scope ι) : List (Scope ι) → ScopeId → List (Scope ι)
  | [], _ => []
  | s :: older, id => if id = older.length then f s :: older else s :: modify f older id

def ancestry : List (Scope ι) → ScopeId → List (Scope ι)
  | [], _ => []
  | s :: older, id =>
    if id = older.length then
      s :: match s.parent with
        | some p => ancestry older p
        | none => []
    else ancestry older id

def system : ScopeId := 0

def new : Scopes ι := ⟨[⟨"system", none, ∅⟩], [system], none⟩

def get? (c : Scopes ι) (id : ScopeId) : Option (Scope ι) := find c.made id

def label (c : Scopes ι) (id : ScopeId) : String := ((c.get? id).map (·.label)).getD ""

def chain (c : Scopes ι) (id : ScopeId) : List (Scope ι) := ancestry c.made id

def isAlive (c : Scopes ι) (id : ScopeId) : Bool := c.alive.contains id

def make (label : String) (parent : Option ScopeId) (c : Scopes ι) : ScopeId × Scopes ι :=
  let id := c.made.length
  (id, { c with made := ⟨label, parent, ∅⟩ :: c.made, alive := id :: c.alive })

def register (id : ScopeId) (name : String) (service : ι) (c : Scopes ι) : Scopes ι :=
  { c with made := modify (·.register name service) c.made id }

def serviceNames (c : Scopes ι) (id : ScopeId) : List String :=
  ((c.chain id).flatMap (·.services.keys)).eraseDups

def load (c : Scopes ι) (id : ScopeId) (name : String) : Option ι :=
  (c.chain id).findSome? (·.services.get? name)

def context (c : Scopes ι) : ScopeId := c.context?.getD system

def setContext (s : Option ScopeId) (c : Scopes ι) : Option ScopeId × Scopes ι :=
  (c.context?, { c with context? := s })

def shown (number : ScopeId → String) (c : Scopes ι) (id : ScopeId) : String :=
  let parent := (c.get? id).bind (·.parent)
  Text.record "ProviderScope" [("id", number id), ("label", Text.quoted (c.label id)),
    ("parent", (parent.map fun p => "Some(" ++ number p ++ ")").getD "None")]

def referred (captures : ι → List ScopeId) (c : Scopes ι) (id : ScopeId) : Bool :=
  c.alive.any fun other => match c.get? other with
    | some s => (s.references captures).contains id
    | none => false

def dropOnce (captures : ι → List ScopeId) (held : List ScopeId) (c : Scopes ι) : Scopes ι :=
  { c with alive := c.alive.filter fun id => held.contains id || c.referred captures id }

def dropMany (captures : ι → List ScopeId) (held : List ScopeId) : Nat → Scopes ι → Scopes ι
  | 0, c => c
  | n + 1, c => dropMany captures held n (c.dropOnce captures held)

/-- Drops what can be reached from the outside no more: every pass but the last one drops a
scope. -/
def drop (captures : ι → List ScopeId) (held : List ScopeId) (c : Scopes ι) : Scopes ι :=
  c.dropMany captures (system :: c.context?.toList ++ held) c.alive.length

end Scopes

end EntryCache
