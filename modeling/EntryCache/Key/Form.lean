import EntryCache.Key
import EntryCache.Json.Form
import EntryCache.Wire

namespace EntryCache

namespace KeyPart

mutual

def json : KeyPart → List Char
  | .null => Json.writeChars "Null".toList
  | .bool b => Json.writeObject [("Bool", Json.Form.write b)]
  | .int i => Json.writeObject [("Int", Json.Form.write i)]
  | .uint n => Json.writeObject [("UInt", Json.Form.write n)]
  | .float bits => Json.writeObject [("Float", Json.Form.write bits)]
  | .text s => Json.writeObject [("Str", Json.Form.write s)]
  | .bytes bs => Json.writeObject [("Bytes", Json.Form.write bs)]
  | .array xs => Json.writeObject [("Array", Json.writeArray (jsonList xs))]

def jsonList : List KeyPart → List (List Char)
  | [] => []
  | x :: xs => x.json :: jsonList xs

end

def ofName? (name : String) : Option KeyPart := if name = "Null" then some .null else none

def content (array : Nat → Json.Reader (List KeyPart)) (name : String) :
    Option (Nat → Json.Reader KeyPart) :=
  if name = "Bool" then some fun d => KeyPart.bool <$> Json.Form.read d
  else if name = "Int" then some fun d => KeyPart.int <$> Json.Form.read d
  else if name = "UInt" then some fun d => KeyPart.uint <$> Json.Form.read d
  else if name = "Float" then some fun d => KeyPart.float <$> Json.Form.read d
  else if name = "Str" then some fun d => KeyPart.text <$> Json.Form.read d
  else if name = "Bytes" then some fun d => KeyPart.bytes <$> Json.Form.read d
  else if name = "Array" then some fun d => KeyPart.array <$> array d
  else none

def readJson : (depth : Nat) → Json.Reader KeyPart
  | 0 => Json.choice ofName? (fun _ => none) 0
  | 1 => Json.choice ofName? (content fun _ => Json.malformed) 1
  | d + 2 => Json.choice ofName? (content (Json.readList fun _ => readJson d)) (d + 2)

instance : Json.Form KeyPart where
  write := json
  read := readJson

mutual

def wire : KeyPart → Except Wire.Fault Wire.Bytes
  | .null => Wire.writeCase 0 (.ok [])
  | .bool b => Wire.writeCase 1 (Wire.Form.write b)
  | .int i => Wire.writeCase 2 (Wire.Form.write i)
  | .uint n => Wire.writeCase 3 (Wire.Form.write n)
  | .float bits => Wire.writeCase 4 (Wire.Form.write bits)
  | .text s => Wire.writeCase 5 (Wire.Form.write s)
  | .bytes bs => Wire.writeCase 6 (Wire.Form.write bs)
  | .array xs => Wire.writeCase 7 do return Wire.varint xs.length ++ (← wireList xs)

def wireList : List KeyPart → Except Wire.Fault Wire.Bytes
  | [] => .ok []
  | x :: xs => do return (← x.wire) ++ (← wireList xs)

end

/-- Every array takes a byte at least, so the length of the input is fuel enough. -/
def readWire : (fuel : Nat) → Wire.Reader KeyPart
  | 0 => Wire.fault .unexpectedEnd
  | n + 1 => Wire.readCase fun
    | 0 => some (return .null)
    | 1 => some (KeyPart.bool <$> Wire.Form.read)
    | 2 => some (KeyPart.int <$> Wire.Form.read)
    | 3 => some (KeyPart.uint <$> Wire.Form.read)
    | 4 => some (KeyPart.float <$> Wire.Form.read)
    | 5 => some (KeyPart.text <$> Wire.Form.read)
    | 6 => some (KeyPart.bytes <$> Wire.Form.read)
    | 7 => some (KeyPart.array <$> Wire.readList (readWire n))
    | _ => none

instance : Wire.Form KeyPart where
  write := wire
  read := fun s => readWire (s.length + 1) s

end KeyPart

namespace Key

instance : Json.Form Key where
  write k := Json.Form.write k.parts
  read d := Key.mk <$> Json.Form.read d

/-- The key that a text is read as; how a refusal is worded is left open. -/
def ofJson (wording : String → Json.Refusal → String) (text : String) : Except Error Key :=
  (Json.read text).mapError fun r => .serialization (wording text r)

instance : Wire.Form Key where
  write k := Wire.Form.write k.parts
  read := Key.mk <$> Wire.Form.read

end Key

end EntryCache
