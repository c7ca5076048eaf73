import EntryCache.Error
import EntryCache.Key
import EntryCache.Text.Blank
import EntryCache.Text.Quoted

namespace EntryCache

abbrev ErrorFilter : Type := Error → Bool

structure ResultDescriptor : Type where
  cacheName : Option String
  skipGet : Bool
  exceptionCacheName : Option String
  cachedExceptions : Option ErrorFilter

structure ChangeDescriptor : Type where
  cacheName : Option String
  afterInvocation : Bool
  acceptedFailures : Option ErrorFilter

inductive Descriptor : Type
  | result (d : ResultDescriptor)
  | put (d : ChangeDescriptor)
  | remove (d : ChangeDescriptor)
  | removeAll (d : ChangeDescriptor)

instance : Inhabited ResultDescriptor := ⟨⟨none, false, none, none⟩⟩

instance : Inhabited ChangeDescriptor := ⟨⟨none, true, none⟩⟩

def properName (name : Option String) : Option String := name.filter fun s => !s.isEmpty

namespace Descriptor

def givenName : Descriptor → Option String
  | .result d => d.cacheName
  | .put d => d.cacheName
  | .remove d => d.cacheName
  | .removeAll d => d.cacheName

def kind : Descriptor → String
  | .result _ => "CacheResult"
  | .put _ => "CachePut"
  | .remove _ => "CacheRemove"
  | .removeAll _ => "CacheRemoveAll"

end Descriptor

structure MethodDetails : Type where
  methodName : String
  cacheName : String
  descriptor : Descriptor

inductive Role : Type
  | plain
  | key
  | value
  deriving DecidableEq

def Role.ofName : String → Role
  | "key" => .key
  | "value" => .value
  | _ => .plain

structure Argument : Type where
  position : Nat
  name : String
  value : KeyPart
  role : Role

structure Invocation : Type where
  details : MethodDetails
  arguments : List Argument

abbrev KeyGenerator : Type := Invocation → Except Error Key

structure CacheDefaults : Type where
  cacheName : Option String
  keyGenerator : Option KeyGenerator

namespace CacheDefaults

def shown (d : CacheDefaults) : String :=
  Text.record "CacheDefaults" [
    ("cache_name", Text.quotedOption d.cacheName),
    ("key_generator", toString d.keyGenerator.isSome)]

end CacheDefaults

namespace MethodDetails

/-- The cache is named by the method's descriptor, else by the defaults, else after the method. -/
def new (methodName : String) (descriptor : Descriptor) (defaults : CacheDefaults) :
    Except Error MethodDetails :=
  if Text.blank methodName then
    .error (.descriptor (descriptor.kind ++ " requires a method name"))
  else
    let name := (properName descriptor.givenName).or (properName defaults.cacheName)
    .ok ⟨methodName, name.getD methodName, descriptor⟩

def exceptionCacheName (d : MethodDetails) : Option String :=
  match d.descriptor with
  | .result r => properName r.exceptionCacheName
  | _ => none

def shown (d : MethodDetails) : String :=
  Text.record "CacheMethodDetails" [
    ("method_name", Text.quoted d.methodName),
    ("cache_name", Text.quoted d.cacheName),
    ("annotation", Text.quoted d.descriptor.kind)]

end MethodDetails

namespace Invocation

/-- The arguments marked as key, or all that are not values if none is. -/
def keyArguments (i : Invocation) : List Argument :=
  match i.arguments.filter (·.role = .key) with
  | [] => i.arguments.filter (·.role ≠ .value)
  | marked => marked

def valueArgument (i : Invocation) : Except Error Argument :=
  match i.arguments.filter (·.role = .value) with
  | [a] => .ok a
  | [] => .error (.descriptor (i.details.methodName ++ " has no value parameter"))
  | _ => .error (.descriptor (i.details.methodName ++ " has more than one value parameter"))

end Invocation

namespace KeyGenerator

def standard : KeyGenerator := fun i => .ok ⟨i.keyArguments.map (·.value)⟩

end KeyGenerator

end EntryCache
