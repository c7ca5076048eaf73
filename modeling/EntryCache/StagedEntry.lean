import EntryCache.Integration
import EntryCache.Processor

/-! Entries that record what a processor does instead of doing it, and the net effect of what they
recorded. A value that is read where there is none comes from the loader, unless the entry was
written before. -/

namespace EntryCache

inductive Stage : Type
  | untouched
  | accessed
  | loaded
  | created
  | updated
  | removed
  deriving DecidableEq

structure StagedEntry (α : Type) : Type where
  value : Option α
  existed : Bool
  stage : Stage
  loadError : Option Error

inductive Outcome (α : Type) : Type
  | nothing
  | accessed
  | loaded (v : α)
  | created (v : α)
  | updated (v : α)
  | removed
  deriving DecidableEq

namespace Outcome

variable {α : Type}

def name : Outcome α → String
  | .nothing => "None"
  | .accessed => "Accessed"
  | .loaded _ => "Loaded"
  | .created _ => "Created"
  | .updated _ => "Updated"
  | .removed => "Removed"

def value? : Outcome α → Option α
  | .loaded v => some v
  | .created v => some v
  | .updated v => some v
  | _ => none

end Outcome

namespace StagedEntry

variable {ω α β : Type}

def ofCurrent (current : Option α) : StagedEntry α := ⟨current, current.isSome, .untouched, none⟩

/-- Takes over what a loader answered; a failure is kept for the end. -/
def absorb (s : StagedEntry α) : Except Error (Option α) → StagedEntry α
  | .ok (some v) => { s with value := some v, stage := .loaded }
  | .ok none => s
  | .error e => { s with loadError := some (e.attributeTo .loader) }

def read (load : Option (Action ω (Option α))) (s : StagedEntry α) (w : ω) :
    Option α × StagedEntry α × ω :=
  match s.stage, s.value, load with
  | .untouched, some v, _ => (some v, { s with stage := .accessed }, w)
  | .untouched, none, some load =>
    let (r, w) := load w
    let s := s.absorb r
    (s.value, s, w)
  | _, v, _ => (v, s, w)

def present (s : StagedEntry α) : Bool := s.value.isSome

def set (v : α) (s : StagedEntry α) : StagedEntry α :=
  { s with value := some v, stage := if s.existed then .updated else .created }

def remove (s : StagedEntry α) : StagedEntry α :=
  { s with
    value := none
    stage := match s.stage with
      | .created => .untouched
      | .loaded => .untouched
      | _ => if s.existed then .removed else .untouched }

/-- The net effect; the failure of a loader comes before it. -/
def outcome (s : StagedEntry α) : Except Error (Outcome α) :=
  match s.loadError with
  | some e => .error e
  | none =>
    .ok <| match s.stage, s.value with
      | .untouched, _ => .nothing
      | .accessed, _ => .accessed
      | .loaded, some v => .loaded v
      | .created, some v => .created v
      | .updated, some v => .updated v
      | .removed, _ => .removed
      | _, none => .nothing

def run (load : Option (Action ω (Option α))) :
    Processor α β → StagedEntry α → ω → Except Error β × StagedEntry α × ω
  | .done r, s, w => (r, s, w)
  | .value next, s, w =>
    let (v, s, w) := s.read load w
    run load (next v) s w
  | .present next, s, w => run load (next s.present) s w
  | .set v next, s, w => run load next (s.set v) w
  | .remove next, s, w => run load next s.remove w

end StagedEntry

end EntryCache
