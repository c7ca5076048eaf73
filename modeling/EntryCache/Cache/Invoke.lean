import EntryCache.Cache.Batch

namespace EntryCache

structure RawRun (β : Type) : Type where
  result : Except Error Unit
  runs : List (Except Error β)

namespace RawRun

variable {β : Type}

def lastFailure (r : RawRun β) : Option Error :=
  r.runs.foldl (fun last x => match x with | .error e => some e | .ok _ => last) none

def lastOutput (r : RawRun β) : Option β :=
  r.runs.foldl (fun last x => match x with | .ok b => some b | .error _ => last) none

/-- The processor's own failure comes before that of the cache, and a cache that did not run the
processor fails. -/
def conclude (name : String) (r : RawRun β) : Except Error β :=
  match r.lastFailure, r.result, r.lastOutput with
  | some e, _, _ => .error e
  | none, .error e, _ => .error e
  | none, .ok (), some b => .ok b
  | none, .ok (), none =>
    .error (.illegalState ("cache " ++ name ++ " did not run the entry processor"))

end RawRun

def invokeThrough {σ α β : Type} (name : String)
    (raw : Processor α β → σ → RawRun β × σ) (p : Processor α β) : Action σ β := fun s =>
  let (r, s) := raw (p.map (·.mapError (·.attributeTo .processor))) s
  (r.conclude name, s)

def resultsOf {σ κ β : Type} (step : κ → Action σ β) : List κ → σ → List (κ × Except Error β) × σ
  | [], s => ([], s)
  | k :: ks, s =>
    let (r, s) := step k s
    let (rs, s) := resultsOf step ks s
    ((k, r) :: rs, s)

namespace Cache

variable {ω κ α β : Type} [DecidableEq κ]

def runStaged (k : κ) (p : Processor α β) : Op ω κ α (Except Error β × StagedEntry α) := do
  ensureOpen
  let current ← match ← look (·.entries.get? k) with
    | some v => some <$> copied v
    | none => pure none
  let load ← look fun c => c.loader?.map (·.load k)
  fun (c, w) =>
    let (r, staged, w) := StagedEntry.run load p (.ofCurrent current) w
    (.ok (r, staged), (c, w))

def apply (k : κ) : Outcome α → Op ω κ α Unit
  | .nothing => return ()
  | .accessed => update countHit
  | .loaded v => discard (storeValue k v)
  | .created v => discard (storeValue k v)
  | .updated v => discard (storeValue k v)
  | .removed => discard (deleteValue k)

def commit (k : κ) (staged : StagedEntry α) : Op ω κ α Unit := do
  apply k (← Action.ofExcept staged.outcome)

def invokeRaw (k : κ) (p : Processor α β) (s : Cache ω κ α × ω) : RawRun β × (Cache ω κ α × ω) :=
  match runStaged k p s with
  | (.error e, s) => (⟨.error e, []⟩, s)
  | (.ok (.error e, _), s) => (⟨.error e, [.error e]⟩, s)
  | (.ok (.ok b, staged), s) =>
    let (r, s) := commit k staged s
    (⟨r, [.ok b]⟩, s)

def invoke (k : κ) (p : Processor α β) : Op ω κ α β := fun s =>
  invokeThrough s.1.name (invokeRaw k) p s

def invokeAll (p : κ → Processor α β) : List κ → Cache ω κ α × ω →
    List (κ × Except Error β) × (Cache ω κ α × ω) :=
  resultsOf fun k => invoke k (p k)

end Cache

end EntryCache
