import EntryCache.Error

namespace EntryCache

inductive Processor (α β : Type) : Type
  | done : Except Error β → Processor α β
  | value : (Option α → Processor α β) → Processor α β
  | present : (Bool → Processor α β) → Processor α β
  | set : α → Processor α β → Processor α β
  | remove : Processor α β → Processor α β

namespace Processor

variable {α β γ : Type}

def map (f : Except Error β → Except Error γ) : Processor α β → Processor α γ
  | .done r => .done (f r)
  | .value next => .value fun v => (next v).map f
  | .present next => .present fun b => (next b).map f
  | .set v next => .set v (next.map f)
  | .remove next => .remove (next.map f)

def bind (f : β → Processor α γ) : Processor α β → Processor α γ
  | .done (.ok b) => f b
  | .done (.error e) => .done (.error e)
  | .value next => .value fun v => (next v).bind f
  | .present next => .present fun b => (next b).bind f
  | .set v next => .set v (next.bind f)
  | .remove next => .remove (next.bind f)

instance : Monad (Processor α) where
  pure b := .done (.ok b)
  bind p f := p.bind f

def readValue : Processor α (Option α) := .value fun v => .done (.ok v)

def isPresent : Processor α Bool := .present fun b => .done (.ok b)

def setValue (v : α) : Processor α Unit := .set v (.done (.ok ()))

def removeValue : Processor α Unit := .remove (.done (.ok ()))

def fail (e : Error) : Processor α β := .done (.error e)

end Processor

end EntryCache
