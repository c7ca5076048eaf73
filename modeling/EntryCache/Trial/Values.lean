import EntryCache.Copier
import EntryCache.Factory
import EntryCache.FiniteMap
import EntryCache.Json.Form
import EntryCache.Key
import EntryCache.Wire

namespace EntryCache.Trial

structure Profile : Type where
  id : UInt64
  tags : List String

structure Profile.Parts : Type where
  id : Option UInt64
  tags : Option (List String)

def Profile.jsonFields : List (Json.Field Profile.Parts) := [
  ⟨"id", fun p => p.id.isSome, fun d p => do return { p with id := some (← Json.Form.read d) }⟩,
  ⟨"tags", fun p => p.tags.isSome, fun d p => do
    return { p with tags := some (← Json.Form.read d) }⟩]

instance : Json.Form Profile where
  write p := Json.writeObject [("id", Json.Form.write p.id), ("tags", Json.Form.write p.tags)]
  read d := do
    match ← Json.fields Profile.jsonFields false ⟨none, none⟩ d with
    | ⟨some id, some tags⟩ => return ⟨id, tags⟩
    | _ => Json.malformed

instance : Wire.Form Profile where
  write p := Wire.Form.write (p.id, p.tags)
  read := do
    let (id, tags) ← Wire.Form.read
    return ⟨id, tags⟩

structure SortedMap : Type where
  pairs : List (String × UInt64)

def SortedMap.ofList (xs : List (String × UInt64)) : SortedMap :=
  ⟨(FiniteMap.ofList xs).toList.mergeSort fun a b => a.1 ≤ b.1⟩

instance : Json.Form SortedMap where
  write m := Json.writeObject (m.pairs.map fun p => (p.1, Json.Form.write p.2))
  read := Json.nested '\x7b' fun d => do
    let xs ← Json.members (fun name xs => do return (name, ← Json.Form.read d) :: xs) []
    return .ofList xs.reverse

instance : Wire.Form SortedMap where
  write m := Wire.Form.write m.pairs
  read := SortedMap.ofList <$> Wire.Form.read

structure Unwritable : Type where
  why : Wire.Fault

instance : Wire.Form Unwritable where
  write x := .error x.why
  read := return ⟨.refusedToWrite⟩

def nested : (n : Nat) → KeyPart → KeyPart
  | 0, p => p
  | n + 1, p => .array [nested n p]

def pushEach {ω : Type} (f : Factory ω (List UInt32)) (n : Nat) (w : ω) : List (List UInt32) :=
  (f.createMany n w).1.zipIdx.map fun p => p.1 ++ [.ofNat p.2]

def pushEachCell (f : Factory (Cells (List UInt32)) Cell) :
    (n i : Nat) → Cells (List UInt32) → List (List UInt32)
  | 0, _, _ => []
  | n + 1, i, s =>
    let (c, s) := f.create s
    let s := s.change (· ++ [.ofNat i]) c
    (s.get? c).getD [] :: pushEachCell f n (i + 1) s

end EntryCache.Trial
