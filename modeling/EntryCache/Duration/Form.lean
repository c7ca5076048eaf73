import EntryCache.Duration
import EntryCache.Json.Form
import EntryCache.Wire

namespace EntryCache

namespace TimeUnit

instance : Json.Form TimeUnit where
  write u := Json.writeChars u.name.toList
  read := Json.choice ofName? fun _ => none

instance : Wire.Form TimeUnit where
  write u := .ok (Wire.varint (all.idxOf u))
  read := Wire.readCase fun n => all[n]?.map pure

def ofTree? : Json.Tree → Option TimeUnit
  | .text s => ofName? s
  | .object [(s, .null)] => ofName? s
  | .object [(s, .object [])] => ofName? s
  | _ => none

end TimeUnit

namespace Duration

structure Parts : Type where
  unit : Option (Option TimeUnit)
  amount : Option UInt64

def Parts.empty : Parts := ⟨none, none⟩

def Parts.finish (p : Parts) : Except Json.Refusal Duration :=
  match p.amount with
  | none => .error .malformed
  | some n =>
    match ofParts (p.unit.getD none) n with
    | .ok d => .ok d
    | .error e => .error (.refused e)

def jsonFields : List (Json.Field Parts) := [
  ⟨"time_unit", fun p => p.unit.isSome,
    fun d p => do return { p with unit := some (← Json.Form.read d) }⟩,
  ⟨"amount", fun p => p.amount.isSome,
    fun d p => do return { p with amount := some (← Json.Form.read d) }⟩]

instance : Json.Form Duration where
  write d := Json.writeObject
    [("time_unit", Json.Form.write d.unit?), ("amount", Json.Form.write d.amount)]
  read d := do (← Json.fields jsonFields false Parts.empty d).finish

def Parts.withUnit (p : Parts) (t : Json.Tree) : Option Parts :=
  match p.unit, t with
  | some _, _ => none
  | none, .null => some { p with unit := some none }
  | none, t => (TimeUnit.ofTree? t).map fun u => { p with unit := some (some u) }

def Parts.withAmount (p : Parts) (t : Json.Tree) : Option Parts :=
  match p.amount, t with
  | none, .integer i =>
    if 0 ≤ i ∧ i < UInt64.size then some { p with amount := some (UInt64.ofNat i.toNat) } else none
  | _, _ => none

def Parts.ofMembers (p : Parts) : List (String × Json.Tree) → Option Parts
  | [] => some p
  | (name, t) :: ms =>
    if name = "time_unit" then (p.withUnit t).bind (ofMembers · ms)
    else if name = "amount" then (p.withAmount t).bind (ofMembers · ms)
    else ofMembers p ms

def Parts.ofTree? : Json.Tree → Option Parts
  | .array [u, n] => (empty.withUnit u).bind (·.withAmount n)
  | .object ms => empty.ofMembers ms
  | _ => none

def ofTree (t : Json.Tree) : Except Json.Refusal Duration :=
  match Parts.ofTree? t with
  | some p => p.finish
  | none => .error .malformed

instance : Wire.Form Duration where
  write d := do return (← Wire.Form.write d.unit?) ++ (← Wire.Form.write d.amount)
  read := do
    let u ← Wire.Form.read
    let n ← Wire.Form.read
    match ofParts u n with
    | .ok d => return d
    | .error _ => Wire.fault .refused

end Duration

end EntryCache
