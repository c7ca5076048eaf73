/-! Floating point numbers of 64 bits as decimals: the fewest digits that read back as the same
number, and of those the nearest, written without an exponent. -/

namespace EntryCache.Decimal

inductive Magnitude : Type
  | nan
  | infinite
  | finite (m : Nat) (q : Int) (narrow : Bool)

def magnitude (bits : UInt64) : Magnitude :=
  let e : Nat := bits.toNat >>> 52 % 2048
  let f : Nat := bits.toNat % 1 <<< 52
  if e = 2047 then if f = 0 then .infinite else .nan
  else if e = 0 then .finite f (-1074) false
  else .finite (f + 1 <<< 52) ((e : Int) - 1075) (f == 0 && e != 1)

def isNegative (bits : UInt64) : Bool := bits.toNat >>> 63 == 1

structure Ratio : Type where
  num : Nat
  den : Nat

def Ratio.le (a b : Ratio) : Bool := a.num * b.den ≤ b.num * a.den
def Ratio.lt (a b : Ratio) : Bool := a.num * b.den < b.num * a.den

def scaled (m b : Nat) (e : Int) : Ratio :=
  match e with
  | .ofNat n => ⟨m * Nat.pow b n, 1⟩
  | .negSucc n => ⟨m, Nat.pow b (n + 1)⟩

structure Interval : Type where
  low : Ratio
  value : Ratio
  high : Ratio
  closed : Bool

def interval (m : Nat) (q : Int) (narrow : Bool) : Interval where
  low := scaled (if narrow then 4 * m - 1 else 4 * m - 2) 2 (q - 2)
  value := scaled (4 * m) 2 (q - 2)
  high := scaled (4 * m + 2) 2 (q - 2)
  closed := m % 2 == 0

def Interval.has (i : Interval) (r : Ratio) : Bool :=
  if i.closed then i.low.le r && r.le i.high else i.low.lt r && r.lt i.high

def exponentFrom (r : Ratio) : Nat → Int → Int
  | 0, k => k
  | n + 1, k => if r.lt (scaled 1 10 (k - (n + 1))) then k - (n + 1) else exponentFrom r n k

def exponent (r : Ratio) : Int := exponentFrom r 640 310

structure Point : Type where
  n : Nat
  e : Int

def Point.ratio (p : Point) : Ratio := scaled p.n 10 p.e

def floorAt (r : Ratio) (e : Int) : Nat :=
  match e with
  | .ofNat k => r.num / (r.den * Nat.pow 10 k)
  | .negSucc k => r.num * Nat.pow 10 (k + 1) / r.den

def upperIsNearer (r : Ratio) (lower upper : Ratio) : Bool :=
  (lower.num * upper.den + upper.num * lower.den) * r.den ≤ 2 * r.num * (lower.den * upper.den)

def candidate (i : Interval) (e : Int) : Option Point :=
  let n := floorAt i.value e
  let lower : Point := ⟨n, e⟩
  let upper : Point := ⟨n + 1, e⟩
  match n != 0 && i.has lower.ratio, i.has upper.ratio with
  | true, true => some (if upperIsNearer i.value lower.ratio upper.ratio then upper else lower)
  | true, false => some lower
  | false, true => some upper
  | false, false => none

def shortestFrom (i : Interval) (k : Int) : (tries digits : Nat) → Point
  | 0, d => ⟨floorAt i.value (k - d), k - d⟩
  | t + 1, d => (candidate i (k - d)).getD (shortestFrom i k t (d + 1))

def shortest (i : Interval) : Point := shortestFrom i (exponent i.value) 17 1

def dropZeros (digits : List Char) : List Char := (digits.reverse.dropWhile (· = '0')).reverse

def positional (digits : List Char) (k : Int) : List Char :=
  match k with
  | .ofNat 0 => ['0', '.'] ++ digits
  | .ofNat k => if digits.length ≤ k then digits ++ List.replicate (k - digits.length) '0'
      else digits.take k ++ '.' :: digits.drop k
  | .negSucc k => ['0', '.'] ++ List.replicate (k + 1) '0' ++ digits

def Point.text (p : Point) : List Char :=
  let digits := Nat.toDigits 10 p.n
  positional (dropZeros digits) (digits.length + p.e)

def text (bits : UInt64) : String :=
  let sign : List Char := if isNegative bits then ['-'] else []
  match magnitude bits with
  | .nan => "NaN"
  | .infinite => String.ofList (sign ++ ['i', 'n', 'f'])
  | .finite 0 _ _ => String.ofList (sign ++ ['0'])
  | .finite m q narrow => String.ofList (sign ++ (shortest (interval m q narrow)).text)

def normalize (width f : Nat) : (fuel : Nat) → (shifts : Nat) → Nat × Nat
  | 0, s => (f % 1 <<< width, s)
  | n + 1, s => if 1 <<< width ≤ f then (f % 1 <<< width, s) else normalize width (2 * f) n (s + 1)

def widen (bits : UInt32) : UInt64 :=
  let s := bits.toNat >>> 31
  let e := bits.toNat >>> 23 % 256
  let f := bits.toNat % 1 <<< 23
  let (e', f') :=
    if e = 255 then (2047, if f = 0 then 0 else if f < 1 <<< 22 then f + 1 <<< 22 else f)
    else if e ≠ 0 then (e + 896, f)
    else if f = 0 then (0, 0)
    else
      let (f', shifts) := normalize 23 f 23 0
      (897 - shifts, f')
  UInt64.ofNat (s <<< 63 + e' <<< 52 + f' <<< 29)

end EntryCache.Decimal
