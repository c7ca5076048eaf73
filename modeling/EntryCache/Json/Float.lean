import EntryCache.Json.Form

namespace EntryCache.Json

def powerOfTen (n : Nat) : Float := Float.ofScientific 1 false n

def shrink (x : Float) : (steps : Nat) → (power : Nat) → Float
  | 0, _ => 0
  | steps + 1, power =>
    if power ≤ 308 then x / powerOfTen power else shrink (x / powerOfTen 308) steps (power - 308)

def scale (n : Nat) (power : Int) : Float :=
  let x := (UInt64.ofNat n).toFloat
  match power with
  | .ofNat k => if n = 0 then 0 else x * powerOfTen k
  | .negSucc k => shrink x 4 (k + 1)

def Numeral.float? (n : Numeral) : Option Float :=
  if n.overflows then none
  else
    let g := Gathered.ofNumeral n
    let x := scale g.number g.power
    some (if n.negative then -x else x)

def Numeral.float32Bits? (n : Numeral) : Option UInt32 :=
  match n.integer? with
  | some i =>
    if 0 ≤ i && i < UInt64.size then some (UInt64.ofNat i.toNat).toFloat32.toBits
    else if Int64.minValue.toInt ≤ i && i < 0 then some (Int64.ofInt i).toFloat32.toBits
    else n.float?.map (·.toFloat32.toBits)
  | none => n.float?.map (·.toFloat32.toBits)

def float32Bits : Reader UInt32 := do
  match (← numeral).float32Bits? with
  | some bits => return bits
  | none => malformed

end EntryCache.Json
