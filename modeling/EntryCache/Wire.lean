import EntryCache.Error

/-! The binary form of values. Numbers wider than a byte are written seven bits at a time, lowest
first; texts and lists follow their length; fields stand in order without names. What follows a
value is left to the reader of the rest. -/

namespace EntryCache.Wire

abbrev Bytes : Type := List UInt8

inductive Fault : Type
  | unexpectedEnd
  | badVarint
  | badBool
  | badText
  | badOption
  | refused
  | refusedToWrite
  | unknownLength
  /-- The form cannot tell how to read the type. -/
  | neverReadable
  deriving DecidableEq

def Fault.message : Fault → String
  | .unexpectedEnd => "Hit the end of buffer, expected more data"
  | .badVarint => "Found a varint that didn't terminate. Is the usize too big for this platform?"
  | .badBool => "Found a bool that wasn't 0 or 1"
  | .badText => "Tried to parse invalid utf-8"
  | .badOption => "Found an Option discriminant that wasn't 0 or 1"
  | .refused => "Serde Deserialization Error"
  | .refusedToWrite => "Serde Serialization Error"
  | .unknownLength => "The length of a sequence must be known"
  | .neverReadable => "This is a feature that PostCard will never implement"

def Fault.toError (f : Fault) : Error := .serialization ("Postcard error: " ++ f.message)

abbrev Reader : Type → Type := StateT Bytes (Except Fault)

class Form (α : Type) : Type where
  write : α → Except Fault Bytes
  read : Reader α

variable {α β : Type}

def fault (f : Fault) : Reader α := fun _ => .error f

def byte : Reader UInt8 := fun s =>
  match s with
  | [] => .error .unexpectedEnd
  | b :: r => .ok (b, r)

def take (n : Nat) : Reader Bytes := fun s =>
  if n ≤ s.length then .ok (s.take n, s.drop n) else .error .unexpectedEnd

def groups : (k : Nat) → Nat → Bytes
  | 0, _ => []
  | k + 1, n =>
    if n < 128 then [UInt8.ofNat n] else UInt8.ofNat (n % 128 + 128) :: groups k (n / 128)

def varint (n : Nat) : Bytes := groups 10 n

def readGroups (last : Nat) : (k : Nat) → Reader Nat
  | 0 => fault .badVarint
  | k + 1 => do
    let b ← byte
    if b.toNat < 128 then
      if k = 0 ∧ last < b.toNat then fault .badVarint else return b.toNat
    else
      let rest ← readGroups last k
      return b.toNat - 128 + 128 * rest

def readVarint16 : Reader Nat := readGroups 3 3
def readVarint32 : Reader Nat := readGroups 15 5
def readVarint64 : Reader Nat := readGroups 1 10

def zigzag : Int → Nat
  | .ofNat n => 2 * n
  | .negSucc n => 2 * n + 1

def unzigzag (n : Nat) : Int := if n % 2 = 0 then .ofNat (n / 2) else .negSucc (n / 2)

instance : Form Unit where
  write _ := .ok []
  read := return ()

instance : Form Bool where
  write b := .ok [if b then 1 else 0]
  read := do
    match (← byte).toNat with
    | 0 => return false
    | 1 => return true
    | _ => fault .badBool

instance : Form UInt8 where
  write b := .ok [b]
  read := byte

instance : Form UInt16 where
  write n := .ok (varint n.toNat)
  read := UInt16.ofNat <$> readVarint16

instance : Form UInt32 where
  write n := .ok (varint n.toNat)
  read := UInt32.ofNat <$> readVarint32

instance : Form UInt64 where
  write n := .ok (varint n.toNat)
  read := UInt64.ofNat <$> readVarint64

instance : Form Int32 where
  write n := .ok (varint (zigzag n.toInt))
  read := (fun n => Int32.ofInt (unzigzag n)) <$> readVarint32

instance : Form Int64 where
  write n := .ok (varint (zigzag n.toInt))
  read := (fun n => Int64.ofInt (unzigzag n)) <$> readVarint64

def writeFloat32 (bits : UInt32) : Bytes :=
  let n := bits.toNat
  [UInt8.ofNat n, UInt8.ofNat (n >>> 8), UInt8.ofNat (n >>> 16), UInt8.ofNat (n >>> 24)]

def readFloat32 : Reader UInt32 := do
  match ← take 4 with
  | [a, b, c, d] =>
    return UInt32.ofNat (a.toNat + b.toNat <<< 8 + c.toNat <<< 16 + d.toNat <<< 24)
  | _ => fault .unexpectedEnd

instance : Form String where
  write s := .ok (varint s.utf8ByteSize ++ s.toByteArray.data.toList)
  read := do
    let n ← readVarint64
    let bytes ← take n
    match String.fromUTF8? ⟨bytes.toArray⟩ with
    | some s => return s
    | none => fault .badText

def readMany (item : Reader α) : (n : Nat) → Reader (List α)
  | 0 => return []
  | n + 1 => do
    let x ← item
    let xs ← readMany item n
    return x :: xs

def writeList (item : α → Except Fault Bytes) (xs : List α) : Except Fault Bytes := do
  let parts ← xs.mapM item
  return varint xs.length ++ parts.flatten

def readList (item : Reader α) : Reader (List α) := do
  let n ← readVarint64
  readMany item n

instance [Form α] : Form (List α) where
  write := writeList Form.write
  read := readList Form.read

instance [Form α] : Form (Option α) where
  write
    | none => .ok [0]
    | some a => do return 1 :: (← Form.write a)
  read := do
    match (← byte).toNat with
    | 0 => return none
    | 1 => some <$> Form.read
    | _ => fault .badOption

instance [Form α] [Form β] : Form (α × β) where
  write p := do return (← Form.write p.1) ++ (← Form.write p.2)
  read := do
    let a ← Form.read
    let b ← Form.read
    return (a, b)

def writeCase (n : Nat) (content : Except Fault Bytes) : Except Fault Bytes := do
  return varint n ++ (← content)

def readCase (case : Nat → Option (Reader α)) : Reader α := do
  match case (← readVarint32) with
  | some r => r
  | none => fault .refused

end EntryCache.Wire
