import EntryCache.Cache.Invoke
import EntryCache.Method

namespace EntryCache

structure KeyedCache (σ α : Type) : Type where
  get : Key → Action σ (Option α)
  put : Key → α → Action σ Unit
  remove : Key → Action σ Unit
  removeAll : Action σ Unit

namespace KeyedCache

variable {σ τ ω α : Type}

def ofCache : KeyedCache (Cache ω Key α × ω) α where
  get := Cache.get
  put := Cache.put
  remove k := discard (Cache.remove k)
  removeAll := Cache.removeAll

def focus (get : τ → σ) (put : σ → τ → τ) (c : KeyedCache σ α) : KeyedCache τ α where
  get k := (c.get k).focus get put
  put k v := (c.put k v).focus get put
  remove k := (c.remove k).focus get put
  removeAll := c.removeAll.focus get put

end KeyedCache

variable {σ α β : Type}

def acceptsFailure (filter : Option ErrorFilter) (byDefault : Bool) (e : Error) : Bool :=
  match filter with
  | some f => f e
  | none => byDefault

namespace ResultDescriptor

def kept (cache : KeyedCache σ α) (exceptions : Option (KeyedCache σ Error)) (k : Key) :
    Action σ (Option (Except Error α)) := do
  match ← cache.get k with
  | some v => return some (.ok v)
  | none =>
    match exceptions with
    | none => return none
    | some exceptions => return (← exceptions.get k).map .error

def run (d : ResultDescriptor) (cache : KeyedCache σ α) (exceptions : Option (KeyedCache σ Error))
    (k : Key) (method : Action σ α) : Action σ α := do
  match ← method.attempt with
  | .ok v => do
    cache.put k v
    return v
  | .error e => do
    match exceptions with
    | some exceptions =>
      if acceptsFailure d.cachedExceptions true e then exceptions.put k e
    | none => pure ()
    .fail e

def invoke (d : ResultDescriptor) (cache : KeyedCache σ α)
    (exceptions : Option (KeyedCache σ Error)) (k : Key) (method : Action σ α) : Action σ α := do
  if d.skipGet then d.run cache exceptions k method
  else
    match ← kept cache exceptions k with
    | some (.ok v) => return v
    | some (.error e) => .fail e
    | none => d.run cache exceptions k method

end ResultDescriptor

namespace ChangeDescriptor

/-- Changes the cache before the method, or after it if it succeeded or its failure is accepted. -/
def around (d : ChangeDescriptor) (change : Action σ Unit) (method : Action σ β) : Action σ β := do
  if d.afterInvocation then
    let r ← method.attempt
    match r with
    | .ok _ => change
    | .error e => if acceptsFailure d.acceptedFailures false e then change
    Action.ofExcept r
  else
    change
    method

def invokePut (d : ChangeDescriptor) (cache : KeyedCache σ α) (k : Key) (v : α)
    (method : Action σ β) : Action σ β :=
  d.around (cache.put k v) method

def invokeRemove (d : ChangeDescriptor) (cache : KeyedCache σ α) (k : Key)
    (method : Action σ β) : Action σ β :=
  d.around (cache.remove k) method

def invokeRemoveAll (d : ChangeDescriptor) (cache : KeyedCache σ α)
    (method : Action σ β) : Action σ β :=
  d.around cache.removeAll method

end ChangeDescriptor

end EntryCache
