import EntryCache.Completion
import EntryCache.Event
import EntryCache.Integration

namespace EntryCache.Trial

structure World : Type where
  events : List String := []
  loads : List (List String) := []
  writes : List (List String) := []
  calls : Nat := 0
  future : Completion := .pending

instance : Inhabited World := ⟨{}⟩

def World.forget (w : World) : World :=
  { w with events := [], loads := w.loads.map fun _ => [], writes := w.writes.map fun _ => [] }

def quoted : Option String → String
  | some s => "'" ++ s ++ "'"
  | none => "-"

def eventText (e : Event String String) : String :=
  " ".intercalate [e.source, e.type.shown, e.key, quoted e.value, "old=" ++ quoted e.oldValue,
    toString e.isOldValueAvailable]

def record (name : String) (failures : List (EventType × Error)) (t : EventType)
    (es : List (Event String String)) : Action World Unit := fun w =>
  let w := { w with
    events := w.events ++ es.map fun e => name ++ " " ++ t.shown ++ ": " ++ eventText e }
  match failures.find? (·.1 = t) with
  | some (_, e) => (.error e, w)
  | none => (.ok (), w)

def recorder (name : String) (failures : List (EventType × Error)) :
    Listener World String String where
  onCreated := record name failures .created
  onUpdated := record name failures .updated
  onRemoved := record name failures .removed
  onExpired := record name failures .expired

def skipping (start : String) (failure : Option Error) :
    EventFilter World String String := fun e w =>
  match failure with
  | some err => (.error err, w)
  | none => (.ok (!e.key.startsWith start), w)

abbrev Failures : Type := List (String × Error)

def tableLoad (slot : Nat) (table : FiniteMap String String) (failures : Failures) (k : String) :
    Action World (Option String) := fun w =>
  let w := { w with loads := w.loads.modify slot (· ++ [k]) }
  match failures.lookup k with
  | some e => (.error e, w)
  | none => (.ok (table.get? k), w)

def tableLoader (id : Nat) (table : FiniteMap String String) (failures : Failures) :
    Factory World (Loader World String String) where
  id := id
  create w := ({ load := tableLoad w.loads.length table failures },
    { w with loads := w.loads ++ [[]] })

def note (slot : Nat) (failures : Failures) (k line : String) : Action World Unit := fun w =>
  match failures.lookup k with
  | some e => (.error e, w)
  | none => (.ok (), { w with writes := w.writes.modify slot (· ++ [line]) })

def noteWriter (id : Nat) (failures : Failures) : Factory World (Writer World String String) where
  id := id
  create w :=
    let slot := w.writes.length
    ({ write := fun k v => note slot failures k ("write " ++ k ++ "=" ++ v)
       delete := fun k => note slot failures k ("delete " ++ k) },
      { w with writes := w.writes ++ [[]] })

def compute {α : Type} (r : Except Error α) : Action World α := fun w =>
  (r, { w with calls := w.calls + 1 })

def listener : CompletionListener World :=
  Completion.listener (·.future) fun c w => { w with future := c }

end EntryCache.Trial
