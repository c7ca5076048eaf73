import EntryCache.Error
import EntryCache.Json.Numeral
import EntryCache.Json.Text

/-! Reading JSON by the wanted type. A reader takes the value it wants from the front of the text
and leaves the rest; brackets of wanted values nest at most `depthLimit` deep, and what nobody wants
is passed over at any depth. -/

namespace EntryCache.Json

/-- Why a text is not read: it is not of the wanted form, or a value in it breaks a rule of its
own. -/
inductive Refusal : Type
  | malformed
  | refused (e : Error)

abbrev Reader : Type → Type := StateT (List Char) (Except Refusal)

variable {α β σ : Type}

def malformed : Reader α := fun _ => .error .malformed

def refuse (e : Error) : Reader α := fun _ => .error (.refused e)

def ofOption (r : List Char → Option (α × List Char)) : Reader α := fun s =>
  match r s with
  | some x => .ok x
  | none => .error .malformed

def isSpace (c : Char) : Bool := c == ' ' || c == '\n' || c == '\t' || c == '\r'

def skipSpaces (s : List Char) : List Char := s.dropWhile isSpace

def peek : Reader (Option Char) := fun s =>
  let r := skipSpaces s
  .ok (r.head?, r)

def symbol (c : Char) : Reader Unit := fun s =>
  match skipSpaces s with
  | x :: r => if x = c then .ok ((), r) else .error .malformed
  | [] => .error .malformed

def word (w : String) : Reader Unit := fun s =>
  let r := skipSpaces s
  if w.toList.isPrefixOf r then .ok ((), r.drop w.toList.length) else .error .malformed

def text : Reader String := do
  symbol '"'
  String.ofList <$> ofOption readChars

def depthLimit : Nat := 127

def nested (bracket : Char) (body : Nat → Reader α) : Nat → Reader α
  | 0 => malformed
  | d + 1 => do
    symbol bracket
    body d

def more (close : Char) (first : Bool) : Reader Bool := fun s =>
  match skipSpaces s with
  | [] => .error .malformed
  | c :: r =>
    if c = close then .ok (false, r)
    else if first then .ok (true, c :: r)
    else if c = ',' then
      match skipSpaces r with
      | [] => .error .malformed
      | d :: r' => if d = close then .error .malformed else .ok (true, d :: r')
    else .error .malformed

def itemsFrom (step : σ → Reader σ) : (fuel : Nat) → (first : Bool) → σ → Reader σ
  | 0, _, _ => malformed
  | n + 1, first, x => do
    if ← more ']' first then
      let y ← step x
      itemsFrom step n false y
    else
      return x

def membersFrom (name : Reader α) (step : α → σ → Reader σ) :
    (fuel : Nat) → (first : Bool) → σ → Reader σ
  | 0, _, _ => malformed
  | n + 1, first, x => do
    if ← more '\x7d' first then
      let a ← name
      symbol ':'
      let y ← step a x
      membersFrom name step n false y
    else
      return x

def items (step : σ → Reader σ) (init : σ) : Reader σ := fun s =>
  itemsFrom step (s.length + 1) true init s

def members (step : String → σ → Reader σ) (init : σ) : Reader σ := fun s =>
  membersFrom text step (s.length + 1) true init s

def numeral : Reader Numeral := fun s => ofOption numeralChars (skipSpaces s)

def integer (low high : Int) : Reader Int := do
  let n ← numeral
  match n.integer? with
  | some i => if low ≤ i && i ≤ high then return i else malformed
  | none => malformed

def skipText : Reader Unit := do
  symbol '"'
  ofOption fun s => (skipChars s).map fun r => ((), r)

def skipFrom : (fuel : Nat) → Reader Unit
  | 0 => malformed
  | n + 1 => do
    match ← peek with
    | some 'n' => word "null"
    | some 't' => word "true"
    | some 'f' => word "false"
    | some '"' => skipText
    | some '[' => do
      symbol '['
      itemsFrom (fun _ => skipFrom n) n true ()
    | some '\x7b' => do
      symbol '\x7b'
      membersFrom skipText (fun _ _ => skipFrom n) n true ()
    | _ => discard numeral

def skip : Reader Unit := fun s => skipFrom (s.length + 1) s

inductive Tree : Type
  | null
  | bool : Bool → Tree
  | integer : Int → Tree
  | real
  | text : String → Tree
  | array : List Tree → Tree
  | object : List (String × Tree) → Tree

def numberTree : Reader Tree := do
  let n ← numeral
  match n.integer? with
  | some i =>
    if Int64.minValue.toInt ≤ i && i < UInt64.size then return .integer i
    else if n.overflows then malformed else return .real
  | none => if n.overflows then malformed else return .real

def treeOf : (depth : Nat) → Char → Reader Tree
  | _, 'n' => do word "null"; return .null
  | _, 't' => do word "true"; return .bool true
  | _, 'f' => do word "false"; return .bool false
  | _, '"' => Tree.text <$> text
  | d + 1, '[' => do
    symbol '['
    let ts ← items (fun ts => do
      match ← peek with
      | some c => return (← treeOf d c) :: ts
      | none => malformed) []
    return .array ts.reverse
  | d + 1, '\x7b' => do
    symbol '\x7b'
    let ms ← members (fun name ms => do
      match ← peek with
      | some c => return (name, ← treeOf d c) :: ms
      | none => malformed) []
    return .object ms.reverse
  | 0, '[' => malformed
  | 0, '\x7b' => malformed
  | _, _ => numberTree

def tree (depth : Nat) : Reader Tree := do
  match ← peek with
  | some c => treeOf depth c
  | none => malformed

def wholeText (r : Reader α) (s : String) : Except Refusal α :=
  match r.run s.toList with
  | .ok (x, rest) => if (skipSpaces rest).isEmpty then .ok x else .error .malformed
  | .error e => .error e

end EntryCache.Json
