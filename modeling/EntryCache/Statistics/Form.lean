import EntryCache.Json.Float
import EntryCache.Statistics

namespace EntryCache.Snapshot

structure Parts : Type where
  counts : List (String × UInt64)
  measures : List (String × UInt32)

def countField (name : String) : Json.Field Parts :=
  ⟨name, fun p => (p.counts.lookup name).isSome,
    fun d p => do return { p with counts := (name, ← Json.Form.read d) :: p.counts }⟩

def measureField (name : String) : Json.Field Parts :=
  ⟨name, fun p => (p.measures.lookup name).isSome,
    fun _ p => do return { p with measures := (name, ← Json.float32Bits) :: p.measures }⟩

def countNames : List String := ["hits", "misses", "gets", "puts", "removals", "evictions"]

def measureNames : List String :=
  ["hit_percentage", "miss_percentage", "average_get_time", "average_put_time",
    "average_remove_time"]

def jsonFields : List (Json.Field Parts) :=
  countNames.map countField ++ measureNames.map measureField

def Parts.finish (p : Parts) : Option Snapshot := do
  let [hits, misses, gets, puts, removals, evictions] ← countNames.mapM fun name =>
    p.counts.lookup name | none
  let [hitPercentage, missPercentage, averageGetTime, averagePutTime, averageRemoveTime] ←
    measureNames.mapM fun name => p.measures.lookup name | none
  return { hits, misses, gets, puts, removals, evictions, hitPercentage, missPercentage,
           averageGetTime, averagePutTime, averageRemoveTime }

def readJson (d : Nat) : Json.Reader Snapshot := do
  match (← Json.fields jsonFields false ⟨[], []⟩ d).finish with
  | some s => return s
  | none => Json.malformed

def ofJson (text : String) : Except Json.Refusal Snapshot :=
  Json.wholeText (readJson Json.depthLimit) text

end EntryCache.Snapshot
