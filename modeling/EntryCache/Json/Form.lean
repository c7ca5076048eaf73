import EntryCache.Json.Reader

namespace EntryCache.Json

class Form (α : Type) : Type where
  write : α → List Char
  read : (depth : Nat) → Reader α

variable {α β σ : Type}

def write [Form α] (a : α) : String := String.ofList (Form.write a)

def read [Form α] (s : String) : Except Refusal α := wholeText (Form.read depthLimit) s

def writeList (bracket close : Char) (xs : List (List Char)) : List Char :=
  bracket :: [','].intercalate xs ++ [close]

def writeArray (xs : List (List Char)) : List Char := writeList '[' ']' xs

def writeObject (ms : List (String × List Char)) : List Char :=
  writeList '\x7b' '\x7d' (ms.map fun m => writeChars m.1.toList ++ ':' :: m.2)

def writeInt (i : Int) : List Char :=
  match i with
  | .ofNat n => Nat.toDigits 10 n
  | .negSucc n => '-' :: Nat.toDigits 10 (n + 1)

instance : Form Unit where
  write _ := "null".toList
  read _ := word "null"

instance : Form Bool where
  write b := if b then "true".toList else "false".toList
  read _ := do
    match ← peek with
    | some 't' => word "true"; return true
    | some 'f' => word "false"; return false
    | _ => malformed

instance : Form UInt8 where
  write n := writeInt n.toNat
  read _ := do return UInt8.ofNat (← integer 0 255).toNat

instance : Form UInt16 where
  write n := writeInt n.toNat
  read _ := do return UInt16.ofNat (← integer 0 (UInt16.size - 1)).toNat

instance : Form UInt32 where
  write n := writeInt n.toNat
  read _ := do return UInt32.ofNat (← integer 0 (UInt32.size - 1)).toNat

instance : Form UInt64 where
  write n := writeInt n.toNat
  read _ := do return UInt64.ofNat (← integer 0 (UInt64.size - 1)).toNat

instance : Form Int32 where
  write n := writeInt n.toInt
  read _ := do return Int32.ofInt (← integer Int32.minValue.toInt Int32.maxValue.toInt)

instance : Form Int64 where
  write n := writeInt n.toInt
  read _ := do return Int64.ofInt (← integer Int64.minValue.toInt Int64.maxValue.toInt)

instance : Form String where
  write s := writeChars s.toList
  read _ := text

def readList (item : Nat → Reader α) : Nat → Reader (List α) :=
  nested '[' fun d => do
    let xs ← items (fun xs => do return (← item d) :: xs) []
    return xs.reverse

instance [Form α] : Form (List α) where
  write xs := writeArray (xs.map Form.write)
  read := readList Form.read

instance [Form α] : Form (Option α) where
  write
    | none => "null".toList
    | some a => Form.write a
  read d := do
    match ← peek with
    | some 'n' => word "null"; return none
    | _ => some <$> Form.read d

instance [Form α] [Form β] : Form (α × β) where
  write p := writeArray [Form.write p.1, Form.write p.2]
  read := nested '[' fun d => do
    if ← more ']' true then
      let a ← Form.read d
      if ← more ']' false then
        let b ← Form.read d
        symbol ']'
        return (a, b)
    malformed

structure Field (σ : Type) : Type where
  name : String
  isSet : σ → Bool
  read : (depth : Nat) → σ → Reader σ

/-- Reads the fields of a record into a state. An object may leave fields out, which the state then
shows; an array may not, unless it is `lenient`. Unknown members are passed over. -/
def fields (fs : List (Field σ)) (lenient : Bool) (init : σ) (depth : Nat) : Reader σ := do
  match ← peek with
  | some '[' =>
    nested '[' (fun d => do
      let (x, left) ← items (fun (x, left) =>
        match left with
        | [] => malformed
        | f :: left => do return (← f.read d x, left)) (init, fs)
      if lenient || left.isEmpty then return x else malformed) depth
  | some '\x7b' =>
    nested '\x7b' (fun d => members (fun name x =>
      match fs.find? (·.name == name) with
      | some f => if f.isSet x then malformed else f.read d x
      | none => do skip; return x) init) depth
  | _ => malformed

def choice (plain : String → Option α) (held : String → Option ((depth : Nat) → Reader α))
    (depth : Nat) : Reader α := do
  match ← peek with
  | some '"' => do
    match plain (← text) with
    | some a => return a
    | none => malformed
  | some '\x7b' =>
    nested '\x7b' (fun d => do
      let name ← text
      symbol ':'
      let a ← match held name, plain name with
        | some r, _ => r d
        | none, some a => (fun _ => a) <$> word "null"
        | none, none => malformed
      symbol '\x7d'
      return a) depth
  | _ => malformed

end EntryCache.Json
