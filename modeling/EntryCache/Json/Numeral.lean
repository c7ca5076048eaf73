namespace EntryCache.Json

structure Numeral : Type where
  negative : Bool
  whole : List Char
  point : Option (List Char)
  power : Option Int

def digits (s : List Char) : Option (List Char × List Char) :=
  match s.takeWhile Char.isDigit with
  | [] => none
  | ds => some (ds, s.dropWhile Char.isDigit)

def wholeDigits (s : List Char) : Option (List Char × List Char) :=
  match digits s with
  | some ('0' :: _ :: _, _) => none
  | r => r

def pointDigits : List Char → Option (Option (List Char) × List Char)
  | '.' :: r => (digits r).map fun p => (some p.1, p.2)
  | r => some (none, r)

def signedDigits : List Char → Option (Int × List Char)
  | '-' :: r => (digits r).map fun p => (-(Nat.ofDigitChars 10 p.1 0 : Int), p.2)
  | '+' :: r => (digits r).map fun p => ((Nat.ofDigitChars 10 p.1 0 : Int), p.2)
  | r => (digits r).map fun p => ((Nat.ofDigitChars 10 p.1 0 : Int), p.2)

def powerDigits : List Char → Option (Option Int × List Char)
  | 'e' :: r => (signedDigits r).map fun p => (some p.1, p.2)
  | 'E' :: r => (signedDigits r).map fun p => (some p.1, p.2)
  | r => some (none, r)

def numeralOf (negative : Bool) (s : List Char) : Option (Numeral × List Char) := do
  let (whole, s) ← wholeDigits s
  let (point, s) ← pointDigits s
  let (power, s) ← powerDigits s
  return (⟨negative, whole, point, power⟩, s)

def numeralChars : List Char → Option (Numeral × List Char)
  | '-' :: r => numeralOf true r
  | r => numeralOf false r

def Numeral.integer? (n : Numeral) : Option Int :=
  match n.point, n.power with
  | none, none =>
    let m := Nat.ofDigitChars 10 n.whole 0
    if n.negative then (if m = 0 then none else some (-(m : Int))) else some m
  | _, _ => none

structure Gathered : Type where
  number : Nat
  power : Int
  full : Bool

namespace Gathered

def push (after dropped : Int) (g : Gathered) (c : Char) : Gathered :=
  let n := 10 * g.number + (c.toNat - '0'.toNat)
  if g.full || UInt64.size ≤ n then { g with power := g.power + dropped, full := true }
  else { g with number := n, power := g.power + after }

def ofNumeral (n : Numeral) : Gathered :=
  let whole := n.whole.foldl (push 0 1) ⟨0, 0, false⟩
  let all := (n.point.getD []).foldl (push (-1) 0) { whole with full := false }
  { all with power := all.power + n.power.getD 0 }

end Gathered

def nearest53 (n : Nat) : Nat :=
  let unit := 1 <<< (n.log2 - 52)
  let twice := 2 * (n % unit)
  let up := unit < twice || (twice == unit && n / unit % 2 == 1)
  (n / unit + if up then 1 else 0) * unit

def Numeral.overflows (n : Numeral) : Bool :=
  let g := Gathered.ofNumeral n
  match g.power with
  | .ofNat k => g.number != 0 &&
    (308 < k || 1 <<< 1024 - 1 <<< 970 ≤ nearest53 g.number * nearest53 (Nat.pow 10 k))
  | .negSucc _ => false

end EntryCache.Json
