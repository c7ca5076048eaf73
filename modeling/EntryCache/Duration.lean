import EntryCache.Error
import EntryCache.Hashing

/-! Lengths of time after which entries expire. Lengths are exact numbers of milliseconds; only
where they leave as a 64-bit number are they capped at the largest one. -/

namespace EntryCache

inductive TimeUnit : Type
  | nanoseconds
  | microseconds
  | milliseconds
  | seconds
  | minutes
  | hours
  | days
  deriving DecidableEq

namespace TimeUnit

def all : List TimeUnit :=
  [.nanoseconds, .microseconds, .milliseconds, .seconds, .minutes, .hours, .days]

def name : TimeUnit → String
  | .nanoseconds => "Nanoseconds"
  | .microseconds => "Microseconds"
  | .milliseconds => "Milliseconds"
  | .seconds => "Seconds"
  | .minutes => "Minutes"
  | .hours => "Hours"
  | .days => "Days"

def symbol : TimeUnit → String
  | .nanoseconds => "ns"
  | .microseconds => "us"
  | .milliseconds => "ms"
  | .seconds => "s"
  | .minutes => "min"
  | .hours => "h"
  | .days => "d"

def ofName? (s : String) : Option TimeUnit := all.find? (·.name == s)

def coarse : TimeUnit → Bool
  | .nanoseconds => false
  | .microseconds => false
  | _ => true

def millis (u : TimeUnit) (amount : Nat) : Nat :=
  match u with
  | .nanoseconds => amount / 1000000
  | .microseconds => amount / 1000
  | .milliseconds => amount
  | .seconds => amount * 1000
  | .minutes => amount * 60000
  | .hours => amount * 3600000
  | .days => amount * 86400000

end TimeUnit

def never : UInt64 := UInt64.ofNat (UInt64.size - 1)

def capped (n : Nat) : UInt64 := if n < UInt64.size then UInt64.ofNat n else never

theorem toNat_capped (n : Nat) : (capped n).toNat = min n (UInt64.size - 1) := by
  unfold capped never
  split <;> simp_all [UInt64.toNat_ofNat, UInt64.size] <;> omega

theorem toNat_never : never.toNat = UInt64.size - 1 := rfl

theorem capped_toNat (n : UInt64) : capped n.toNat = n := by
  rw [← UInt64.toNat_inj, toNat_capped, UInt64.size]
  have := n.toNat_lt
  omega

/-- A length of time: without end, or an amount of a unit of at least a millisecond. -/
inductive Duration : Type
  | eternal
  | lasting (unit : TimeUnit) (amount : UInt64) (coarse : unit.coarse = true)
  deriving DecidableEq

namespace Duration

def zero : Duration := .lasting .seconds 0 rfl
def oneDay : Duration := .lasting .days 1 rfl
def oneHour : Duration := .lasting .hours 1 rfl
def thirtyMinutes : Duration := .lasting .minutes 30 rfl
def twentyMinutes : Duration := .lasting .minutes 20 rfl
def tenMinutes : Duration := .lasting .minutes 10 rfl
def fiveMinutes : Duration := .lasting .minutes 5 rfl
def oneMinute : Duration := .lasting .minutes 1 rfl

def constants : List (String × Duration) := [("ETERNAL", eternal), ("ZERO", zero),
  ("ONE_DAY", oneDay), ("ONE_HOUR", oneHour), ("THIRTY_MINUTES", thirtyMinutes),
  ("TWENTY_MINUTES", twentyMinutes), ("TEN_MINUTES", tenMinutes), ("FIVE_MINUTES", fiveMinutes),
  ("ONE_MINUTE", oneMinute)]

instance : Inhabited Duration := ⟨eternal⟩

def unit? : Duration → Option TimeUnit
  | .eternal => none
  | .lasting u _ _ => some u

def amount : Duration → UInt64
  | .eternal => 0
  | .lasting _ n _ => n

def isEternal (d : Duration) : Bool := d.unit?.isNone

def isZero (d : Duration) : Bool := d.unit?.isSome && d.amount == 0

def ofUnit (u : TimeUnit) (n : UInt64) : Except Error Duration :=
  if h : u.coarse = true then .ok (.lasting u n h)
  else .error (.invalidArgument
    ("Must specify a TimeUnit of milliseconds or higher, got " ++ u.name))

def ofParts (u : Option TimeUnit) (n : UInt64) : Except Error Duration :=
  match u with
  | some u => ofUnit u n
  | none =>
    if n = 0 then .ok .eternal
    else .error (.invalidArgument "Duration without a time unit must have amount 0")

/-- The time from one moment to another; it has no end if one of them is never. -/
def between (start stop : UInt64) : Except Error Duration :=
  if start = never ∨ stop = never then .ok .eternal
  else if stop < start then
    .error (.invalidArgument ("Cannot specify a duration that ends (" ++ toString stop.toNat
      ++ ") before it starts (" ++ toString start.toNat ++ ")"))
  else .ok (.lasting .milliseconds (stop - start) rfl)

def ofClock (seconds nanos : Nat) : Duration :=
  .lasting .milliseconds (capped (seconds * 1000 + nanos / 1000000)) rfl

def length? : Duration → Option Nat
  | .eternal => none
  | .lasting u n _ => some (u.millis n.toNat)

def millis? (d : Duration) : Option UInt64 := d.length?.map capped

def adjustedTime (d : Duration) (now : UInt64) : UInt64 :=
  match d.millis? with
  | none => never
  | some ms => capped (now.toNat + ms.toNat)

def toClock (d : Duration) : Option (Nat × Nat) :=
  d.millis?.map fun ms => (ms.toNat / 1000, ms.toNat % 1000 * 1000000)

/-- Lengths count, units do not: a minute is sixty seconds. -/
def sameLength (d e : Duration) : Bool := d.millis? == e.millis?

def feed (d : Duration) : List HashInput :=
  match d.millis? with
  | none => [.byte 0]
  | some ms => [.byte 1, .word ms]

def shown : Duration → String
  | .eternal => "ETERNAL"
  | .lasting u n _ => toString n.toNat ++ u.symbol

theorem ofParts_parts (d : Duration) : ofParts d.unit? d.amount = .ok d := by
  cases d with
  | eternal => rfl
  | lasting u n h => simp [ofParts, unit?, amount, ofUnit, h]

theorem adjustedTime_eq (d : Duration) (now : UInt64) :
    d.adjustedTime now = match d.length? with
      | none => never
      | some n => capped (now.toNat + n) := by
  unfold adjustedTime millis?
  cases d.length? with
  | none => rfl
  | some n =>
    simp only [Option.map_some]
    rw [← UInt64.toNat_inj]
    simp only [toNat_capped]
    have := now.toNat_lt
    omega

end Duration

end EntryCache
