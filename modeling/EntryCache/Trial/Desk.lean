import EntryCache.EntryTypes
import EntryCache.Method.Calls

namespace EntryCache.Trial

def nameAndCount : KeyGenerator := fun i =>
  .ok ⟨[.text i.details.methodName, .uint (.ofNat i.arguments.length)]⟩

def rejecting : KeyGenerator := fun i => .error (.descriptor ("no key for " ++ i.details.cacheName))

def generatorOf : String → Option KeyGenerator
  | "default" => some .standard
  | "method_name" => some nameAndCount
  | "reject" => some rejecting
  | _ => none

structure Desk : Type where
  values : Cache Unit Key String
  failures : Cache Unit Key Error
  calls : Nat
  seen : Option (Except Error (List (Key × String)))

namespace Desk

variable {α : Type}

def new (storeByValue : Bool) : Desk where
  values := (Cache.create "values" ((Configuration.new 0).withStoreByValue storeByValue)
    (ValueType.copy .text storeByValue) ()).1
  failures := (Cache.create "failures" ((Configuration.new 1).withStoreByValue storeByValue)
    (ValueType.copy .failure storeByValue) ()).1
  calls := 0
  seen := none

def onValues (op : Cache.Op Unit Key String α) : Action Desk α :=
  Action.focus (fun d => (d.values, ())) (fun s d => { d with values := s.1 }) op

def onFailures (op : Cache.Op Unit Key Error α) : Action Desk α :=
  Action.focus (fun d => (d.failures, ())) (fun s d => { d with failures := s.1 }) op

def entries (d : Desk) : Except Error (List (Key × String)) := (Cache.listEntries (d.values, ())).1

def failureEntries (d : Desk) : Except Error (List (Key × Error)) :=
  (Cache.listEntries (d.failures, ())).1

def method (outcome : Except Error String) : Action Desk String := fun d =>
  (outcome, { d with calls := d.calls + 1, seen := some d.entries })

def call (exceptions : Bool) (k : Key) (v : String) (outcome : Except Error String) :
    Descriptor → Action Desk String :=
  let values := KeyedCache.ofCache.focus (fun d => (d.values, ())) fun s (d : Desk) =>
    { d with values := s.1 }
  let failures := KeyedCache.ofCache.focus (fun d => (d.failures, ()))
    fun s (d : Desk) => { d with failures := s.1 }
  fun
  | .result d => d.invoke values (if exceptions then some failures else none) k (method outcome)
  | .put d => d.invokePut values k v (method outcome)
  | .remove d => d.invokeRemove values k (method outcome)
  | .removeAll d => d.invokeRemoveAll values (method outcome)

end Desk

end EntryCache.Trial
