import EntryCache.EntryTypes

namespace EntryCache.Trial

inductive Step (α : Type) : Type
  | key
  | value
  | present
  | remove
  | set (v : α)
  | append (v : α)
  | fail (e : Error)

def Step.ofName {α : Type} (v : α) (e : Error) : String → Step α
  | "key" => .key
  | "value" => .value
  | "exists" => .present
  | "remove" => .remove
  | "set" => .set v
  | "append" => .append v
  | _ => .fail e

inductive Answer : Type
  | text (s : String)
  | value (s : Option String)
  | truth (b : Bool)

def append : (t : ValueType) → Option t.Carrier → t.Carrier → t.Carrier
  | .text, old, s => old.getD "" ++ s
  | .word, old, n => old.getD 0 + n
  | .integer, old, n => old.getD 0 + n
  | .failure, _, e => e

def step (t : ValueType) (key : String) : Step t.Carrier → Processor t.Carrier Answer
  | .key => return .text key
  | .value => do return .value ((← Processor.readValue).map t.shown)
  | .present => do return .truth (← Processor.isPresent)
  | .remove => do
    Processor.removeValue
    return .text "removed"
  | .set v => do
    Processor.setValue v
    return .text "set"
  | .append v => do
    let v := append t (← Processor.readValue) v
    Processor.setValue v
    return .text (t.shown v)
  | .fail e => .fail e

def script (t : ValueType) (key : String) :
    List (Step t.Carrier) → Processor t.Carrier (List Answer)
  | [] => return []
  | s :: ss => do
    let a ← step t key s
    let as ← script t key ss
    return a :: as

inductive Interception : Type
  | skip
  | failBefore
  | failAfter
  | swallow
  | twice
  | plain

def Interception.ofName : String → Interception
  | "skip" => .skip
  | "fail_before" => .failBefore
  | "fail_after" => .failAfter
  | "swallow" => .swallow
  | "twice" => .twice
  | _ => .plain

def Interception.around {σ β : Type} (i : Interception) (run : σ → RawRun β × σ) (s : σ) :
    RawRun β × σ :=
  match i with
  | .skip => (⟨.ok (), []⟩, s)
  | .failBefore => (⟨.error (.transaction "lock lost"), []⟩, s)
  | .failAfter =>
    let (r, s) := run s
    (⟨.error (.transaction "commit failed"), r.runs⟩, s)
  | .swallow =>
    let (r, s) := run s
    (⟨.ok (), r.runs⟩, s)
  | .twice =>
    let (r, s) := run s
    match r.result with
    | .error _ => (r, s)
    | .ok () =>
      let (r', s) := run s
      (⟨r'.result, r.runs ++ r'.runs⟩, s)
  | .plain => run s

end EntryCache.Trial
