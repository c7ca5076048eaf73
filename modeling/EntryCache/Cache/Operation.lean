import EntryCache.Cache.Batch
import EntryCache.Cache.Invoke

namespace EntryCache.Cache

inductive Operation (ω κ α β : Type) : Type
  | get (k : κ)
  | getAll (ks : List κ)
  | containsKey (k : κ)
  | loadAll (ks : List κ) (replaceExisting : Bool) (listener : Option (CompletionListener ω))
  | put (k : κ) (v : α)
  | getAndPut (k : κ) (v : α)
  | putAll (es : List (κ × α))
  | putIfAbsent (k : κ) (v : α)
  | remove (k : κ)
  | removeIfEquals (k : κ) (old : α)
  | getAndRemove (k : κ)
  | replaceIfEquals (k : κ) (old new : α)
  | replace (k : κ) (v : α)
  | getAndReplace (k : κ) (v : α)
  | removeKeys (ks : List κ)
  | removeAll
  | clear
  | entries
  | invoke (k : κ) (p : Processor α β)
  | invokeAll (ks : List κ) (p : κ → Processor α β)
  | invokeRaw (k : κ) (p : Processor α β)
  | getOrPutWith (k : κ) (compute : κ → Action ω α)
  | register (handle : ListenerHandle) (config : ListenerConfiguration ω κ α)
  | deregister (handle : ListenerHandle)
  | clearStatistics
  | close

inductive Reply (κ α β : Type) : Type
  | done
  | truth (b : Bool)
  | value (v : Option α)
  | entries (es : List (κ × α))
  | output (b : β)
  | outputs (rs : List (κ × Except Error β))
  | raw (r : RawRun β)

variable {ω κ α β γ : Type} [DecidableEq κ]

def Op.as (f : γ → Reply κ α β) (op : Op ω κ α γ) : Op ω κ α (Reply κ α β) := do return f (← op)

abbrev Around (ω κ α β : Type) [DecidableEq κ] : Type :=
  (Cache ω κ α × ω → RawRun β × (Cache ω κ α × ω)) → Cache ω κ α × ω → RawRun β × (Cache ω κ α × ω)

def invokeAround (around : Around ω κ α β) (k : κ) (p : Processor α β) : Op ω κ α β := fun s =>
  invokeThrough s.1.name (fun p => around (invokeRaw k p)) p s

def Operation.run [DecidableEq α] (around : Around ω κ α β) :
    Operation ω κ α β → Op ω κ α (Reply κ α β)
  | .get k => (Cache.get k).as .value
  | .getAll ks => (Cache.getAll ks).as fun m => .entries m.toList
  | .containsKey k => (Cache.containsKey k).as .truth
  | .loadAll ks all l => (Cache.loadAll ks all l).as fun _ => .done
  | .put k v => (Cache.put k v).as fun _ => .done
  | .getAndPut k v => (Cache.getAndPut k v).as .value
  | .putAll es => (Cache.putAll es).as fun _ => .done
  | .putIfAbsent k v => (Cache.putIfAbsent k v).as .truth
  | .remove k => (Cache.remove k).as .truth
  | .removeIfEquals k old => (Cache.removeIfEquals k old).as .truth
  | .getAndRemove k => (Cache.getAndRemove k).as .value
  | .replaceIfEquals k old new => (Cache.replaceIfEquals k old new).as .truth
  | .replace k v => (Cache.replace k v).as .truth
  | .getAndReplace k v => (Cache.getAndReplace k v).as .value
  | .removeKeys ks => (Cache.removeKeys ks).as fun _ => .done
  | .removeAll => Cache.removeAll.as fun _ => .done
  | .clear => Cache.clear.as fun _ => .done
  | .entries => Cache.listEntries.as .entries
  | .invoke k p => (invokeAround around k p).as .output
  | .invokeAll ks p => fun s =>
    let (rs, s) := resultsOf (fun k => invokeAround around k (p k)) ks s
    (.ok (.outputs rs), s)
  | .invokeRaw k p => fun s =>
    let (r, s) := around (Cache.invokeRaw k p) s
    (.ok (.raw r), s)
  | .getOrPutWith k compute => (Cache.getOrPutWith k compute).as fun v => .value (some v)
  | .register handle config => (Cache.registerListener handle config).as fun _ => .done
  | .deregister handle => (Cache.deregisterListener handle).as fun _ => .done
  | .clearStatistics => (Cache.update fun c => { c with stats := default }).as fun _ => .done
  | .close => (Cache.update Cache.close).as fun _ => .done

def Operation.runAll [DecidableEq α] (ops : List (Operation ω κ α β)) (s : Cache ω κ α × ω) :
    List (Except Error (Reply κ α β)) × (Cache ω κ α × ω) :=
  match ops with
  | [] => ([], s)
  | op :: ops =>
    let (r, s) := op.run id s
    let (rs, s) := runAll ops s
    (r :: rs, s)

end EntryCache.Cache
