import EntryCache.Provider
import EntryCache.Proofs.Manager.Runs

namespace EntryCache.Provider

variable {ω β γ : Type}

inductive Operation (ω β : Type) : Type
  | cacheManager (context : ScopeId) (uri : Option String) (scope : Option ScopeId)
    (properties : Option Properties)
  | close
  | closeScope (scope : ScopeId)
  | closeManager (uri : String) (scope : ScopeId)
  | onManager (id : ManagerId) (op : Manager.Operation ω β)

inductive Reply (β : Type) : Type
  | done
  | manager (id : ManagerId)
  | ofManager (r : Except Error (Manager.Reply β))

def update (f : Provider ω → Provider ω) :
    Action (Provider ω × ω) Unit := fun s => (.ok (), (f s.1, s.2))

def onProvider (a : Action (Provider ω) γ) : Action (Provider ω × ω) γ := fun s =>
  ((a.run s.1).1, ((a.run s.1).2, s.2))

noncomputable def Operation.run : Operation ω β → Action (Provider ω × ω) (Reply β)
  | .cacheManager context uri scope properties =>
    .manager <$> onProvider (Provider.cacheManager context uri scope properties)
  | .close => (fun _ => .done) <$> update Provider.close
  | .closeScope scope => (fun _ => .done) <$> update (Provider.closeScope · scope)
  | .closeManager uri scope => (fun _ => .done) <$> update (Provider.closeManager · uri scope)
  | .onManager id op => fun s =>
    match Provider.onManager id op.run s with
    | some (r, s) => (.ok (.ofManager r), s)
    | none => (.ok .done, s)

noncomputable def Operation.runAll (ops : List (Operation ω β)) (s : Provider ω × ω) :
    List (Except Error (Reply β)) × (Provider ω × ω) :=
  match ops with
  | [] => ([], s)
  | op :: ops =>
    let (r, s) := op.run s
    let (rs, s) := runAll ops s
    (r :: rs, s)

theorem run_onManager (id : ManagerId) (op : Manager.Operation ω β) (p : Provider ω) (w : ω) :
    (Operation.onManager id op).run.run (p, w) =
      match p.managerAt? id with
      | none => (.ok .done, (p, w))
      | some m =>
        let r := op.run.run (m, w)
        (.ok (.ofManager r.1), (p.setManager id r.2.1, r.2.2)) := by
  change (match Provider.onManager id op.run (p, w) with
    | some (r, s) => (Except.ok (Reply.ofManager r), s)
    | none => (.ok .done, (p, w))) = _
  unfold Provider.onManager
  cases p.managerAt? id <;> rfl

def making (p : Provider ω) (m : Manager ω) : Provider ω :=
  { p with managers := p.managers ++ [m], held := p.held.insert (m.scope, m.uri) p.managers.length }

theorem run_cacheManager (context : ScopeId) (uri : Option String) (scope : Option ScopeId)
    (properties : Option Properties) (p : Provider ω) :
    (Provider.cacheManager context uri scope properties).run p =
      match p.openManager? (scope.getD context, uri.getD defaultUri) with
      | some id => (.ok id, p)
      | none =>
        if p.shared then
          (.ok p.managers.length,
            p.making (.new (uri.getD defaultUri) (scope.getD context)
              (properties.getD defaultProperties)))
        else (.error notSharedError, p) := rfl

theorem Operation.runAll_append (before later : List (Operation ω β)) (s : Provider ω × ω) :
    (runAll (before ++ later) s).2 = (runAll later (runAll before s).2).2 := by
  induction before generalizing s with
  | nil => rfl
  | cons op before ih => exact ih _

end EntryCache.Provider
