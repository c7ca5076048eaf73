import EntryCache.Cache

namespace EntryCache.Cache

variable {ω κ α β : Type} [DecidableEq κ]

def readThrough (k : κ) (l : Loader ω κ α) : Op ω κ α (Option α) := do
  match ← ((l.load k).mapError (·.attributeTo .loader)).beside with
  | none => return none
  | some v => do
    let stored ← copied v
    update (enter k stored)
    notify .created k (some v) none
    return some v

def get (k : κ) : Op ω κ α (Option α) := do
  ensureOpen
  match ← look (·.entries.get? k) with
  | some v => do
    let v ← copied v
    update countHit
    return some v
  | none => do
    update countMiss
    match ← look loader? with
    | some l => readThrough k l
    | none => return none

def containsKey (k : κ) : Op ω κ α Bool := do
  ensureOpen
  look (·.entries.contains k)

def getAndPut (k : κ) (v : α) : Op ω κ α (Option α) := do
  ensureOpen
  storeValue k v

def put (k : κ) (v : α) : Op ω κ α Unit := do
  ensureOpen
  discard (storeValue k v)

def putIfAbsent (k : κ) (v : α) : Op ω κ α Bool := do
  ensureOpen
  if ← look (·.entries.contains k) then return false
  discard (storeValue k v)
  return true

def getAndRemove (k : κ) : Op ω κ α (Option α) := do
  ensureOpen
  deleteValue k

def remove (k : κ) : Op ω κ α Bool := do
  ensureOpen
  return (← deleteValue k).isSome

def removeIfEquals [DecidableEq α] (k : κ) (old : α) : Op ω κ α Bool := do
  ensureOpen
  if (← look (·.entries.get? k)) = some old then
    discard (deleteValue k)
    return true
  else return false

def replaceIfEquals [DecidableEq α] (k : κ) (old new : α) : Op ω κ α Bool := do
  ensureOpen
  if (← look (·.entries.get? k)) = some old then
    discard (storeValue k new)
    return true
  else return false

def getAndReplace (k : κ) (v : α) : Op ω κ α (Option α) := do
  ensureOpen
  if ← look (·.entries.contains k) then storeValue k v else return none

def replace (k : κ) (v : α) : Op ω κ α Bool := do
  return (← getAndReplace k v).isSome

def getOrPutWith (k : κ) (compute : κ → Action ω α) : Op ω κ α α := do
  match ← get k with
  | some v => return v
  | none => do
    let v ← (compute k).beside
    put k v
    return v

end EntryCache.Cache
