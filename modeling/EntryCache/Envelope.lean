import EntryCache.Wire

/-! Envelopes: a mark and a version in front of a value's binary form. The whole envelope is read
before the mark and the version are looked at, in this order. -/

namespace EntryCache.Envelope

open Wire

variable {α : Type}

def mark : Bytes := [74, 67, 65, 80]

def version : Nat := 1

def shownBytes (bs : Bytes) : String :=
  "[" ++ ", ".intercalate (bs.map fun b => toString b.toNat) ++ "]"

def encode [Form α] (a : α) : Except Error Bytes :=
  match Form.write a with
  | .ok bs => .ok (mark ++ varint version ++ bs)
  | .error f => .error (.serialization f.message)

def readParts [Form α] : Reader (Bytes × Nat × α) := do
  let m ← take 4
  let v ← readVarint32
  let a ← Form.read
  return (m, v, a)

def decode [Form α] (bytes : Bytes) : Except Error α :=
  match (readParts (α := α)).run bytes with
  | .error f => .error (.serialization f.message)
  | .ok ((m, v, a), _) =>
    if m ≠ mark then
      .error (.serialization
        ("Invalid magic: expected " ++ shownBytes mark ++ ", got " ++ shownBytes m))
    else if v ≠ version then
      .error (.serialization
        ("Version mismatch: expected " ++ toString version ++ ", got " ++ toString v))
    else .ok a

def copy [Form α] (a : α) : Except Error α := do decode (← encode a)

end EntryCache.Envelope
