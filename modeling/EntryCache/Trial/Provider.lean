import EntryCache.Provider
import EntryCache.Registry

namespace EntryCache.Trial

inductive Making : Type
  | sound
  | failingClose (e : Error)
  | failing (e : Error)
  | panicking
  | flaky (failures : Nat)
  | layered (scope : ScopeId)
  | memory
  | unsharedMemory

def Making.ofName (e : Error) (failures : Nat) (scope : ScopeId) : String → Making
  | "bad_close" => .failingClose e
  | "err" => .failing e
  | "panic" => .panicking
  | "flaky" => .flaky failures
  | "layered" => .layered scope
  | "memory" => .memory
  | _ => .sound

structure Service : Type where
  id : Nat
  name : String
  making : Making

inductive Body : Type
  | stub (closing : Except Error Unit)
  | memory (place : Nat)

structure TrialProvider : Type where
  name : String
  number : Option Nat
  body : Body

structure Lab : Type where
  made : Nat := 0
  stubs : List Nat := []
  tries : List Nat := []
  memories : List (EntryCache.Provider Unit) := []
  closed : List String := []

def Lab.addStub (name : String) (closing : Except Error Unit) (l : Lab) : TrialProvider × Lab :=
  (⟨name, some l.made, .stub closing⟩, { l with made := l.made + 1, stubs := l.stubs ++ [l.made] })

def Lab.addMemory (name : String) (shared : Bool) (l : Lab) : TrialProvider × Lab :=
  let l' := { l with memories := l.memories ++ [.new shared] }
  let body := Body.memory l.memories.length
  if shared then (⟨name, some l.made, body⟩, { l' with made := l.made + 1 })
    else (⟨name, none, body⟩, l')

def construct : (fuel : Nat) → Registry.Constructor Service TrialProvider Lab
  | 0, _, s => (.error .panicked, s)
  | n + 1, service, (r, l) =>
    let done (p : TrialProvider × Lab) : Except ConstructionFailure TrialProvider ×
        (Registry Service TrialProvider × Lab) := (.ok p.1, (r, p.2))
    match service.making with
    | .sound => done (l.addStub service.name (.ok ()))
    | .failingClose e => done (l.addStub service.name (.error e))
    | .failing e => (.error (.failed e), (r, l))
    | .panicking => (.error .panicked, (r, l))
    | .flaky failures =>
      if l.tries.count service.id < failures then
        (.error (.failed (.cache "not yet")), (r, { l with tries := service.id :: l.tries }))
      else done (l.addStub service.name (.ok ()))
    | .layered scope =>
      match Registry.provider (construct n) (·.name) scope (r, l) with
      | (.error e, s) => (.error (.failed e), s)
      | (.ok p, (r, l)) =>
        let (q, l) := l.addStub (service.name ++ "/" ++ p.name) (.ok ())
        (.ok q, (r, l))
    | .memory => done (l.addMemory service.name true)
    | .unsharedMemory => done (l.addMemory service.name false)

def Service.captures (s : Service) : List ScopeId :=
  match s.making with
  | .layered scope => [scope]
  | _ => []

namespace TrialProvider

def label (p : TrialProvider) : String := p.name ++ "#" ++ toString (p.number.getD 0)

def isStub (p : TrialProvider) : Bool :=
  match p.body with
  | .stub _ => true
  | .memory _ => false

def defaultUri (p : TrialProvider) : String :=
  match p.body with
  | .stub _ => "stub://" ++ p.name
  | .memory _ => EntryCache.Provider.defaultUri

def isSupported (f : OptionalFeature) (p : TrialProvider) : Bool :=
  match p.body with
  | .stub _ => false
  | .memory _ => EntryCache.Provider.isSupported f

def close (p : TrialProvider) : Action Lab Unit := fun l =>
  match p.body with
  | .stub closing => (closing, { l with closed := l.closed ++ [p.label] })
  | .memory place => (.ok (), { l with memories := l.memories.modify place (·.close) })

def defaultManager (context : ScopeId) (p : TrialProvider) :
    Action Lab (Nat × ManagerId) := fun l =>
  match p.body with
  | .stub _ => (.error (.unsupported "no managers"), l)
  | .memory place =>
    match l.memories[place]? with
    | none => (.error (.unsupported "no managers"), l)
    | some m =>
      let (r, m) := EntryCache.Provider.cacheManager context none none none m
      (r.map fun id => (place, id), { l with memories := l.memories.set place m })

def interface : Registry.Interface TrialProvider (Nat × ManagerId) Lab where
  name := (·.name)
  defaultManager := defaultManager
  close := close

end TrialProvider

namespace Lab

variable {β : Type}

def managerAt? (l : Lab) (id : Nat × ManagerId) : Option (Manager Unit) := do
  let m ← l.memories[id.1]?
  m.managerAt? id.2

def onManager (id : Nat × ManagerId) (op : Manager.Op Unit β) : Action Lab β := fun l =>
  match l.memories[id.1]? with
  | none => (.error (.unsupported "no managers"), l)
  | some p =>
    match EntryCache.Provider.onManager id.2 op (p, ()) with
    | none => (.error (.unsupported "no managers"), l)
    | some (r, (p, _)) => (r, { l with memories := l.memories.set id.1 p })

def scopes (l : Lab) : List ScopeId := l.memories.flatMap (·.scopes)

end Lab

structure Bench : Type where
  registry : Registry Service TrialProvider
  lab : Lab := {}
  scopes : FiniteMap String ScopeId := ∅
  kept : List TrialProvider := []

namespace Bench

variable {α : Type}

abbrev Op (α : Type) : Type := Registry.Op Service TrialProvider Lab α

def constructor (b : Bench) : Registry.Constructor Service TrialProvider Lab :=
  construct (b.registry.scopes.made.length + 1)

def run (op : Op α) : StateM Bench (Except Error α) := fun b =>
  let (r, (registry, lab)) := op (b.registry, b.lab)
  (r, { b with registry := registry, lab := lab })

def scope (b : Bench) (name : Option String) : ScopeId :=
  (name.bind b.scopes.get?).getD b.registry.defaultScope

def onScopes (f : Scopes Service → Scopes Service) : StateM Bench Unit :=
  modify fun b => { b with registry := { b.registry with scopes := f b.registry.scopes } }

def register (b : Bench) (id : ScopeId) (name shown : String) (making : Making) :
    StateM Bench Unit :=
  let number := b.registry.scopes.made.foldl (fun n scope => n + scope.services.size) 0
  onScopes (Scopes.register id name ⟨number, shown, making⟩)

def makeScope (name label : String) (parent : Option ScopeId) : StateM Bench ScopeId := fun b =>
  let (id, scopes) := b.registry.scopes.make label parent
  (id, { b with registry := { b.registry with scopes := scopes }, scopes :=
    b.scopes.insert name id })

def referred (b : Bench) : List Nat :=
  (b.registry.table.toList.flatMap (fun p => p.2.map Prod.snd) ++ b.kept).filterMap fun p =>
    if p.isStub then p.number else none

def settle : StateM Bench (List Nat) := fun b =>
  let held := b.scopes.toList.map Prod.snd ++ b.lab.scopes
  let (stubs, dropped) := b.lab.stubs.partition b.referred.contains
  (dropped, { b with
    registry := b.registry.dropScopes Service.captures held
    lab := { b.lab with stubs := stubs, closed := [] } })

end Bench

end EntryCache.Trial
