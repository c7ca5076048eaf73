import EntryCache.Cache.Access
import EntryCache.Completion

namespace EntryCache.Cache

variable {ω κ α β : Type} [DecidableEq κ]

def getEach (found : FiniteMap κ α) : List κ → Op ω κ α (FiniteMap κ α)
  | [] => return found
  | k :: ks => do
    match ← get k with
    | some v => getEach (found.insert k v) ks
    | none => getEach found ks

def getAll (keys : List κ) : Op ω κ α (FiniteMap κ α) := getEach ∅ keys

def putAll (pairs : List (κ × α)) : Op ω κ α Unit := do
  ensureOpen
  Action.forEach (fun p => discard (storeValue p.1 p.2)) pairs

def removeKeys (keys : List κ) : Op ω κ α Unit := do
  ensureOpen
  Action.forEach (fun k => discard (deleteValue k)) keys

def removeAll : Op ω κ α Unit := do
  ensureOpen
  let keys ← look (·.entries.keys)
  Action.forEach (fun k => discard (deleteValue k)) keys

def clear : Op ω κ α Unit := do
  ensureOpen
  update fun c => { c with entries := ∅ }

def entryOf (p : κ × α) : Op ω κ α (κ × α) := do return (p.1, ← copied p.2)

def collect {γ : Type} (f : β → Op ω κ α γ) : List β → Op ω κ α (List γ)
  | [] => return []
  | x :: xs => do
    let y ← f x
    let ys ← collect f xs
    return y :: ys

def listEntries : Op ω κ α (List (κ × α)) := do
  ensureOpen
  collect entryOf (← look (·.entries.toList))

def wanted (keys : List κ) (replaceExisting : Bool) (c : Cache ω κ α) : List κ :=
  keys.filter fun k => replaceExisting || !c.entries.contains k

def loadInto (keys : List κ) (replaceExisting : Bool) : Op ω κ α Unit := do
  match ← look (·.loader) with
  | none => return ()
  | some l => do
    let keys ← look (wanted keys replaceExisting)
    let loaded ← ((l.loadAll keys).mapError (·.attributeTo .loader)).beside
    Action.forEach (fun p => do
      let stored ← copied p.2
      update (enter p.1 stored)) loaded.toList

def report (listener : CompletionListener ω) : Except Error Unit → Action ω Unit
  | .ok () => listener.onCompletion
  | .error e => listener.onException e

/-- Loads keys, and reports the end of it to the listener; without one a failure goes unheard. -/
def loadAll (keys : List κ) (replaceExisting : Bool) (listener : Option (CompletionListener ω)) :
    Op ω κ α Unit := do
  ensureOpen
  let r ← (loadInto keys replaceExisting).attempt
  (onSome listener fun l => report l r).beside

def registerListener (handle : ListenerHandle) (config : ListenerConfiguration ω κ α) :
    Op ω κ α Unit := do
  ensureOpen
  if (← look (·.listeners)).any (·.handle == handle) then
    .fail (.invalidArgument "listener configuration already registered")
  else fun (c, w) =>
    let (listener, w) := config.listener.create w
    let (filter, w) := match config.filter with
      | some f => let (x, w) := f.create w; (some x, w)
      | none => (none, w)
    (.ok (), ({ c with listeners := c.listeners ++ [⟨handle, config, listener, filter⟩] }, w))

def deregisterListener (handle : ListenerHandle) : Op ω κ α Unit := do
  ensureOpen
  update fun c => { c with listeners := c.listeners.filter (·.handle != handle) }

def createOption {τ : Type} (f : Option (Factory ω τ)) (w : ω) : Option τ × ω :=
  match f with
  | some f => let (x, w) := f.create w; (some x, w)
  | none => (none, w)

def create (name : String) (config : Configuration ω κ α) (copy : α → Except Error α) (w : ω) :
    Cache ω κ α × ω :=
  let (loader, w) := createOption config.loader w
  let (writer, w) := createOption config.writer w
  let c : Cache ω κ α := ⟨name, config, copy, loader, writer, ∅, [], default, false⟩
  (Action.forEach (fun p => registerListener (.initial p.2) p.1) config.listeners.zipIdx (c, w)).2

def close (c : Cache ω κ α) : Cache ω κ α := { c with closed := true }

end EntryCache.Cache
