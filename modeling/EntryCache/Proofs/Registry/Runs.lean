import EntryCache.Registry
import EntryCache.Proofs.Action.Keeps
import EntryCache.Proofs.FiniteMap

namespace EntryCache.Registry

variable {ι π ω α : Type}

/-- What makes providers and closes them. A constructor sees the world, but nothing of the
registry. -/
structure Workshop (ι π ω : Type) : Type where
  make : ι → ω → Except ConstructionFailure π × ω
  close : π → Action ω Unit
  name : π → String

def Workshop.construct (k : Workshop ι π ω) : Constructor ι π ω := fun service s =>
  ((k.make service s.2).1, (s.1, (k.make service s.2).2))

inductive Operation (ι : Type) : Type
  | makeScope (label : String) (parent : Option ScopeId)
  | register (scope : ScopeId) (name : String) (service : ι)
  | dropScopes (captures : ι → List ScopeId) (held : List ScopeId)
  | setDefaultScope (scope : Option ScopeId)
  | setContext (scope : Option ScopeId)
  | providers (scope : ScopeId)
  | provider (scope : ScopeId)
  | providerNamed (name : String) (scope : ScopeId)
  | load (name : String) (scope : ScopeId)
  | count
  | closeProvider (name : String) (scope : ScopeId)
  | closeScope (scope : ScopeId)
  | closeAll

inductive Reply (π : Type) : Type
  | done
  | scope (s : Option ScopeId)
  | providers (ps : List π)
  | provider (p : π)
  | number (n : Nat)

def Reply.instances : Reply π → List π
  | .providers ps => ps
  | .provider p => [p]
  | _ => []

def onScopes (f : Scopes ι → α × Scopes ι) : Op ι π ω α := fun (r, w) =>
  (.ok (f r.scopes).1, ({ r with scopes := (f r.scopes).2 }, w))

def Operation.run (k : Workshop ι π ω) : Operation ι → Op ι π ω (Reply π)
  | .makeScope label parent => (fun s => .scope (some s)) <$> onScopes (Scopes.make label parent)
  | .register scope name service => onScopes fun c => (.done, c.register scope name service)
  | .dropScopes captures held => (fun _ => .done) <$> update (Registry.dropScopes captures held)
  | .setDefaultScope scope => (fun _ => .done) <$> update (Registry.setDefaultScope scope)
  | .setContext scope => .scope <$> onScopes (Scopes.setContext scope)
  | .providers scope => .providers <$> Registry.providers k.construct scope
  | .provider scope => .provider <$> Registry.provider k.construct k.name scope
  | .providerNamed name scope => .provider <$> Registry.providerNamed k.construct name scope
  | .load name scope => .provider <$> Registry.load k.construct name scope
  | .count => .number <$> Registry.count
  | .closeProvider name scope => (fun _ => .done) <$> Registry.closeProvider k.close name scope
  | .closeScope scope => (fun _ => .done) <$> Registry.closeScope k.close scope
  | .closeAll => (fun _ => .done) <$> Registry.closeAll k.close

def Operation.runAll (k : Workshop ι π ω) (ops : List (Operation ι)) (s : Registry ι π × ω) :
    List (Except Error (Reply π)) × (Registry ι π × ω) :=
  match ops with
  | [] => ([], s)
  | op :: ops =>
    let (r, s) := op.run k s
    let (rs, s) := runAll k ops s
    (r :: rs, s)

theorem Operation.runAll_append (k : Workshop ι π ω) (before later : List (Operation ι))
    (s : Registry ι π × ω) :
    (runAll k (before ++ later) s).2 = (runAll k later (runAll k before s).2).2 := by
  induction before generalizing s with
  | nil => rfl
  | cons op before ih => exact ih _

theorem Operation.runAll_snoc (k : Workshop ι π ω) (before : List (Operation ι)) (op : Operation ι)
    (s : Registry ι π × ω) :
    (runAll k (before ++ [op]) s).2 = ((op.run k).run (runAll k before s).2).2 :=
  runAll_append k before [op] s

@[simp] theorem run_look (f : Registry ι π → α) (s : Registry ι π × ω) :
    (look f).run s = (.ok (f s.1), s) := rfl

@[simp] theorem run_update (f : Registry ι π → Registry ι π) (s : Registry ι π × ω) :
    (update f).run s = (.ok (), (f s.1, s.2)) := rfl

inductive Deed (ι π : Type) : Type
  | made (service : ι) (answer : Except ConstructionFailure π)
  | closed (p : π) (answer : Except Error Unit)

def Workshop.noted (k : Workshop ι π ω) : Workshop ι π (ω × List (Deed ι π)) where
  make service w :=
    ((k.make service w.1).1, ((k.make service w.1).2,
      w.2 ++ [.made service (k.make service w.1).1]))
  close p := fun w =>
    (((k.close p).run w.1).1, (((k.close p).run w.1).2, w.2 ++ [.closed p ((k.close p).run w.1).1]))
  name := k.name

@[simp] theorem Workshop.make_noted (k : Workshop ι π ω) (service : ι) (w : ω)
    (deeds : List (Deed ι π)) : k.noted.make service (w, deeds) =
      ((k.make service w).1, ((k.make service w).2,
        deeds ++ [.made service (k.make service w).1])) := rfl

@[simp] theorem Workshop.run_close_noted (k : Workshop ι π ω) (p : π) (w : ω)
    (deeds : List (Deed ι π)) : (k.noted.close p).run (w, deeds) =
      (((k.close p).run w).1, (((k.close p).run w).2,
        deeds ++ [.closed p ((k.close p).run w).1])) := rfl

def noting (deeds : List (Deed ι π)) (x : Except Error α × (Registry ι π × ω)) :
    Except Error α × (Registry ι π × (ω × List (Deed ι π))) := (x.1, (x.2.1, (x.2.2, deeds)))

def Operation.Does (k : Workshop ι π ω) (op : Operation ι) (s : Registry ι π × ω)
    (deeds : List (Deed ι π)) : Prop :=
  (op.run k.noted).run (s.1, (s.2, [])) = noting deeds ((op.run k).run s)

end EntryCache.Registry
