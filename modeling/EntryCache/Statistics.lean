import EntryCache.Duration
import EntryCache.Wire

/-! Counters of a cache. Counts wrap, times stop at the largest 64-bit number of nanoseconds;
shares and averages are 32-bit floating point numbers. -/

namespace EntryCache

structure Statistics : Type where
  hits : UInt64 := 0
  misses : UInt64 := 0
  puts : UInt64 := 0
  removals : UInt64 := 0
  evictions : UInt64 := 0
  getNanos : UInt64 := 0
  putNanos : UInt64 := 0
  removeNanos : UInt64 := 0
  deriving DecidableEq

structure Snapshot : Type where
  hits : UInt64
  misses : UInt64
  gets : UInt64
  puts : UInt64
  removals : UInt64
  evictions : UInt64
  hitPercentage : UInt32
  missPercentage : UInt32
  averageGetTime : UInt32
  averagePutTime : UInt32
  averageRemoveTime : UInt32
  deriving DecidableEq

namespace Statistics

instance : Inhabited Statistics := ⟨{}⟩

def gets (s : Statistics) : UInt64 := s.hits + s.misses

def recordHits (s : Statistics) (n : UInt64) : Statistics := { s with hits := s.hits + n }
def recordMisses (s : Statistics) (n : UInt64) : Statistics := { s with misses := s.misses + n }
def recordPuts (s : Statistics) (n : UInt64) : Statistics := { s with puts := s.puts + n }
def recordRemovals (s : Statistics) (n : UInt64) : Statistics :=
  { s with removals := s.removals + n }
def recordEvictions (s : Statistics) (n : UInt64) : Statistics :=
  { s with evictions := s.evictions + n }

def addSpan (total : UInt64) (seconds nanos : Nat) : UInt64 :=
  capped (total.toNat + (capped (seconds * 1000000000 + nanos)).toNat)

def recordGetTime (s : Statistics) (seconds nanos : Nat) : Statistics :=
  { s with getNanos := addSpan s.getNanos seconds nanos }
def recordPutTime (s : Statistics) (seconds nanos : Nat) : Statistics :=
  { s with putNanos := addSpan s.putNanos seconds nanos }
def recordRemoveTime (s : Statistics) (seconds nanos : Nat) : Statistics :=
  { s with removeNanos := addSpan s.removeNanos seconds nanos }

def percentage (part total : UInt64) : UInt32 :=
  if total = 0 then 0 else (part.toFloat / total.toFloat * 100).toFloat32.toBits

def averageMicros (nanos count : UInt64) : UInt32 :=
  if count = 0 then 0 else (nanos.toFloat / count.toFloat / 1000).toFloat32.toBits

def hitPercentage (s : Statistics) : UInt32 := percentage s.hits s.gets

def missPercentage (s : Statistics) : UInt32 := percentage s.misses s.gets

def snapshot (s : Statistics) : Snapshot where
  hits := s.hits
  misses := s.misses
  gets := s.gets
  puts := s.puts
  removals := s.removals
  evictions := s.evictions
  hitPercentage := s.hitPercentage
  missPercentage := s.missPercentage
  averageGetTime := averageMicros s.getNanos s.gets
  averagePutTime := averageMicros s.putNanos s.puts
  averageRemoveTime := averageMicros s.removeNanos s.removals

end Statistics

namespace Snapshot

def counts (s : Snapshot) : List UInt64 :=
  [s.hits, s.misses, s.gets, s.puts, s.removals, s.evictions]

def measures (s : Snapshot) : List UInt32 :=
  [s.hitPercentage, s.missPercentage, s.averageGetTime, s.averagePutTime, s.averageRemoveTime]

instance : Wire.Form Snapshot where
  write s := .ok (s.counts.flatMap (fun n => Wire.varint n.toNat)
    ++ s.measures.flatMap Wire.writeFloat32)
  read := do
    let hits ← Wire.Form.read
    let misses ← Wire.Form.read
    let gets ← Wire.Form.read
    let puts ← Wire.Form.read
    let removals ← Wire.Form.read
    let evictions ← Wire.Form.read
    let hitPercentage ← Wire.readFloat32
    let missPercentage ← Wire.readFloat32
    let averageGetTime ← Wire.readFloat32
    let averagePutTime ← Wire.readFloat32
    let averageRemoveTime ← Wire.readFloat32
    return { hits, misses, gets, puts, removals, evictions, hitPercentage, missPercentage,
             averageGetTime, averagePutTime, averageRemoveTime }

def zero : Snapshot := (default : Statistics).snapshot

end Snapshot

end EntryCache
