import EntryCache.Proofs.Provider.Holding

namespace EntryCache.Provider

variable {ω β : Type} {p p' : Provider ω} {id : ManagerId} {m m' m'' : Manager ω}

structure Request : Type where
  context : ScopeId
  uri : Option String
  scope : Option ScopeId
  properties : Option Properties

namespace Request

def key (q : Request) : ScopeId × String := (q.scope.getD q.context, q.uri.getD defaultUri)

def settings (q : Request) : Properties := q.properties.getD defaultProperties

def run (q : Request) : Action (Provider ω) ManagerId :=
  cacheManager q.context q.uri q.scope q.properties

def operation (q : Request) : Operation ω β := .cacheManager q.context q.uri q.scope q.properties

def manager (q : Request) : Manager ω := .new q.key.2 q.key.1 q.settings

theorem run_of_open {q : Request} (h : p.openManager? q.key = some id) :
    q.run.run p = (.ok id, p) := by
  rw [run, run_cacheManager]
  change p.openManager? (q.scope.getD q.context, q.uri.getD defaultUri) = some id at h
  rw [h]

theorem run_of_none {q : Request} (h : p.openManager? q.key = none) :
    q.run.run p =
      if p.shared then (.ok p.managers.length, p.making q.manager)
          else (.error notSharedError, p) := by
  rw [run, run_cacheManager]
  change p.openManager? (q.scope.getD q.context, q.uri.getD defaultUri) = none at h
  rw [h]
  rfl

theorem run_operation (q : Request) (s : Provider ω × ω) :
    ((q.operation : Operation ω β).run.run s).2 = ((q.run.run s.1).2, s.2) := Action.snd_run_map ..

end Request

def Operation.Closes (key : ScopeId × String) (id : ManagerId) : Operation ω β → Prop
  | .cacheManager _ _ _ _ => False
  | .close => True
  | .closeScope scope => key.1 = scope
  | .closeManager uri scope => key = (scope, uri)
  | .onManager other op => other = id ∧ op.Shuts

inductive Becomes (p : Provider ω) (op : Operation ω β) : Provider ω → Prop
  | same (hop : ∀ {key id m}, p.managerAt? id = some m → ¬op.Closes key id) : Becomes p op p
  | made (q : Request) (hop : op = q.operation) (hnone : p.openManager? q.key = none)
    (hshared : p.shared = true) : Becomes p op (p.making q.manager)
  | closed (which : ScopeId × String → Bool)
    (hop : ∀ {key id}, op.Closes key id ↔ which key = true) : Becomes p op (p.closeHeld which)
  | changed {id m m' done} (hop : op = .onManager id done) (hm : p.managerAt? id = some m)
    (hb : m.Becomes done m') : Becomes p op (p.setManager id m')

theorem Operation.becomes (op : Operation ω β) (p : Provider ω) (w : ω) :
    p.Becomes op (op.run.run (p, w)).2.1 := by
  cases op with
  | cacheManager context uri scope properties =>
    let q : Request := ⟨context, uri, scope, properties⟩
    have hstate : ((q.operation : Operation ω β).run.run (p, w)).2 = _ := q.run_operation (p, w)
    change p.Becomes q.operation ((q.operation : Operation ω β).run.run (p, w)).2.1
    rw [hstate]
    cases hfound : p.openManager? q.key with
    | some id =>
      rw [Request.run_of_open hfound]
      exact .same fun _ hcloses => hcloses
    | none =>
      rw [Request.run_of_none hfound]
      cases hshared : p.shared with
      | true => exact .made q rfl hfound hshared
      | false => exact .same fun _ hcloses => hcloses
  | close =>
    rw [run, Action.snd_run_map]
    exact .closed (fun _ => true) (iff_of_true trivial rfl)
  | closeScope scope =>
    rw [run, Action.snd_run_map]
    exact .closed (fun key => key.1 == scope) beq_iff_eq.symm
  | closeManager uri scope =>
    rw [run, Action.snd_run_map]
    exact .closed (fun key => key == (scope, uri)) beq_iff_eq.symm
  | onManager id op =>
    rw [run_onManager]
    cases hm : p.managerAt? id with
    | none =>
      refine .same fun {_ other n} hn hcloses => ?_
      obtain rfl : id = other := hcloses.1
      rw [hm] at hn
      cases hn
    | some m => exact .changed rfl hm (op.becomes m w)

structure Fate (closes : Prop) (m m' : Manager ω) : Prop where
  key : (m'.scope, m'.uri) = (m.scope, m.uri)
  properties : m'.properties = m.properties
  closed : m'.closed = true ↔ m.closed = true ∨ closes

namespace Fate

variable {closes closes' : Prop}

theorem refl (h : ¬closes) : Fate closes m m := ⟨rfl, rfl, (or_iff_left h).symm⟩

theorem trans (h : Fate closes m m') (h' : Fate closes' m' m'') :
    Fate (closes ∨ closes') m m'' where
  key := h'.key.trans h.key
  properties := h'.properties.trans h.properties
  closed := by rw [h'.closed, h.closed, or_assoc]

theorem congr (h : Fate closes m m') (hiff : closes ↔ closes') : Fate closes' m m' :=
  ⟨h.key, h.properties, h.closed.trans (or_congr_right hiff)⟩

theorem closeIf (m : Manager ω) (b : Bool) : Fate (b = true) m (if b then m.close else m) := by
  cases b with
  | false => exact .refl nofun
  | true =>
    exact ⟨Prod.ext (Manager.scope_close m) (Manager.uri_close m), Manager.properties_close m,
      iff_of_true (Manager.closed_close m) (.inr rfl)⟩

theorem of_becomes {op : Manager.Operation ω β} (hb : m.Becomes op m') (h : m.Tidy) :
    Fate op.Shuts m m' where
  key := Prod.ext (hb.reaches h).later.scope (hb.reaches h).later.uri
  properties := hb.properties
  closed := hb.closed_iff

end Fate

namespace Becomes

variable {op : Operation ω β}

theorem reaches (hb : p.Becomes op p') (h : p.Tidy) : p.Reaches p' := by
  cases hb with
  | same _ => exact h.reaches_self
  | made q _ hnone _ => exact h.reaches_making (Manager.tidy_new ..) hnone
  | closed which _ => exact h.reaches_closeHeld which
  | changed _ hm hb => exact h.reaches_setManager hm (hb.reaches (h.managers hm))

theorem fate (hb : p.Becomes op p') (h : p.Tidy) (hm : p.managerAt? id = some m) :
    ∃ m', p'.managerAt? id = some m' ∧ Fate (op.Closes (m.scope, m.uri) id) m m' := by
  cases hb with
  | same hop => exact ⟨m, hm, .refl (hop hm)⟩
  | made q hop _ _ =>
    subst hop
    exact ⟨m, managerAt?_making hm _, .refl fun hcloses => hcloses⟩
  | closed which hop => exact ⟨_, h.managerAt?_closeHeld_of_some which hm,
      (Fate.closeIf m _).congr hop.symm⟩
  | @changed other n n' done hop hn hb =>
    subst hop
    rw [managerAt?_setManager hn]
    split
    · next heq =>
      subst heq
      obtain rfl := Option.some.inj (hm.symm.trans hn)
      exact ⟨n', rfl, (Fate.of_becomes hb (h.managers hm)).congr (and_iff_right rfl).symm⟩
    · next hne => exact ⟨m, hm, .refl fun hcloses => hne hcloses.1⟩

theorem shared (hb : p.Becomes op p') : p'.shared = p.shared := by
  cases hb with
  | closed which _ => rw [closeHeld, foldl_closeAt]
  | _ => rfl

theorem exists_request (hb : p.Becomes op p') (h : p.Tidy) (hnone : p.managerAt? id = none)
    (hm : p'.managerAt? id = some m) :
    ∃ q : Request, op = q.operation ∧ (q.run.run p).1 = .ok id ∧ m = q.manager := by
  cases hb with
  | same _ =>
    rw [hnone] at hm
    cases hm
  | made q hop hfree hshared =>
    rcases getElem?_snoc hm with hm | ⟨rfl, rfl⟩
    · rw [managerAt?, hm] at hnone
      cases hnone
    · exact ⟨q, hop, by rw [Request.run_of_none hfree, if_pos hshared], rfl⟩
  | closed which _ =>
    rw [h.managerAt?_closeHeld, hnone] at hm
    cases hm
  | @changed other n n' _ _ hn _ =>
    rw [managerAt?_setManager hn] at hm
    split at hm
    · next heq =>
      subst heq
      rw [hn] at hnone
      cases hnone
    · rw [hnone] at hm
      cases hm

end Becomes

namespace Operation

/-- Whatever is done with a provider, its managers and their caches, what it handed out is still
there, and none of it is lost open. -/
theorem reaches (op : Operation ω β) {s : Provider ω × ω} (h : s.1.Tidy) :
    s.1.Reaches (op.run.run s).2.1 :=
  (op.becomes s.1 s.2).reaches h

theorem reaches_runAll (ops : List (Operation ω β)) {s : Provider ω × ω} (h : s.1.Tidy) :
    s.1.Reaches (runAll ops s).2.1 := by
  induction ops generalizing s with
  | nil => exact h.reaches_self
  | cons op ops ih =>
    have hop := op.reaches h
    exact hop.trans (ih hop.tidy)

theorem shared_runAll (ops : List (Operation ω β)) (s : Provider ω × ω) :
    (runAll ops s).2.1.shared = s.1.shared := by
  induction ops generalizing s with
  | nil => rfl
  | cons op ops ih => exact (ih _).trans (op.becomes s.1 s.2).shared

theorem fate_runAll (ops : List (Operation ω β)) {s : Provider ω × ω} (h : s.1.Tidy)
    (hm : s.1.managerAt? id = some m) : ∃ m', (runAll ops s).2.1.managerAt? id = some m' ∧
      Fate (∃ op ∈ ops, op.Closes (m.scope, m.uri) id) m m' := by
  induction ops generalizing s m with
  | nil => exact ⟨m, hm, .refl fun ⟨_, hop, _⟩ => List.not_mem_nil hop⟩
  | cons op ops ih =>
    obtain ⟨m', hm', hfate⟩ := (op.becomes s.1 s.2).fate h hm
    obtain ⟨m'', hm'', hfate'⟩ := ih (op.reaches h).tidy hm'
    rw [hfate.key] at hfate'
    refine ⟨m'', hm'', (hfate.trans hfate').congr ?_⟩
    rw [List.exists_mem_cons_iff]

end Operation

end EntryCache.Provider
