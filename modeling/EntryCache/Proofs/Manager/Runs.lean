import EntryCache.Manager
import EntryCache.Proofs.Cache.Changes
import EntryCache.Proofs.FiniteMap

namespace EntryCache

noncomputable instance (t : ValueType) : DecidableEq t.Carrier := t.decEq?.getD (Classical.decEq _)

namespace AnyCache

variable {ω : Type}

def emptied (c : AnyCache ω) : AnyCache ω := ⟨c.types, { c.cache with entries := ∅ }⟩

theorem run_clear (c : AnyCache ω) (w : ω) :
    clear.run (c, w) = if c.closed then (.error (Cache.closedError c.name), (c, w))
      else (.ok (), (c.emptied, w)) := by
  obtain ⟨t, c⟩ := c
  change run (fun _ => Cache.clear) (⟨t, c⟩, w) = if c.closed then _ else _
  cases h : c.closed with
  | true =>
    have hclear : Cache.clear (c, w) = _ :=
      Action.run_bind_of_error (Cache.run_ensureOpen_of_closed h w)
    simp only [run, hclear]
    rfl
  | false =>
    have hclear : Cache.clear (c, w) = _ := Action.run_bind_of_ok (Cache.run_ensureOpen h w)
    simp only [run, hclear]
    rfl

end AnyCache

namespace Manager

variable {ω β γ δ : Type} {m : Manager ω} {s : Manager ω × ω}

inductive Operation (ω β : Type) : Type
  | create (name : String) (config : AnyConfiguration ω)
  | lookup (name : String)
  | get (types : EntryTypes) (name : String)
  | names
  | destroy (name : String)
  | clear (name : String)
  | closeHeld (name : String)
  | enableManagement (name : String) (enabled : Bool)
  | enableStatistics (name : String) (enabled : Bool)
  | close
  | onCache (id : CacheId) (op : (t : EntryTypes) →
    Cache.Operation ω t.key.Carrier t.value.Carrier β)

inductive Reply (β : Type) : Type
  | done
  | cache (id : CacheId)
  | found (id : Option CacheId)
  | names (ns : List String)
  | cleared (r : Option (Except Error Unit))
  | shut (closed : Option Bool)
  | ofCache (t : EntryTypes) (r : Except Error (Cache.Reply t.key.Carrier t.value.Carrier β))

noncomputable def runCache (op : (t : EntryTypes) →
    Cache.Operation ω t.key.Carrier t.value.Carrier β)
    (t : EntryTypes) (s : t.Cache ω × ω) : Reply β × (t.Cache ω × ω) :=
  (.ofCache t (((op t).run id).run s).1, (((op t).run id).run s).2)

noncomputable def Operation.run : Operation ω β → Op ω (Reply β)
  | .create name config => .cache <$> createCache name config
  | .lookup name => (fun found => .found (found.map Prod.fst)) <$> Manager.lookup name
  | .get t name => .found <$> getCache t name
  | .names => .names <$> cacheNames
  | .destroy name => (fun _ => .done) <$> destroyCache name
  | .clear name => .cleared <$> clearCache name
  | .closeHeld name => .shut <$> Manager.closeHeld name
  | .enableManagement name enabled => (fun _ => .done) <$> Manager.enableManagement name enabled
  | .enableStatistics name enabled => (fun _ => .done) <$> Manager.enableStatistics name enabled
  | .close => (fun _ => .done) <$> update Manager.close
  | .onCache id op => fun s =>
    match Manager.onCache id (runCache op) s with
    | some (r, s) => (.ok r, s)
    | none => (.ok .done, s)

noncomputable def Operation.runAll (ops : List (Operation ω β)) (s : Manager ω × ω) :
    List (Except Error (Reply β)) × (Manager ω × ω) :=
  match ops with
  | [] => ([], s)
  | op :: ops =>
    let (r, s) := op.run s
    let (rs, s) := runAll ops s
    (r :: rs, s)

@[simp] theorem run_look (f : Manager ω → γ) (s : Manager ω × ω) :
    (look f).run s = (.ok (f s.1), s) := rfl

@[simp] theorem run_update (f : Manager ω → Manager ω) (s : Manager ω × ω) :
    (update f).run s = (.ok (), (f s.1, s.2)) := rfl

theorem run_ensureOpen (h : m.closed = false) (w : ω) :
    ensureOpen.run (m, w) = (.ok (), (m, w)) := by
  simp [ensureOpen, Action.run, h]

theorem run_onCache (id : CacheId)
    (op : (t : EntryTypes) → Cache.Operation ω t.key.Carrier t.value.Carrier β)
    (m : Manager ω) (w : ω) :
    (Operation.onCache id op).run.run (m, w) =
      match m.cacheAt? id with
      | none => (.ok .done, (m, w))
      | some c =>
        let r := AnyCache.run (runCache op) (c, w)
        (.ok r.1, (m.setCache id r.2.1, r.2.2)) := by
  change (match Manager.onCache id (runCache op) (m, w) with
    | some (r, s) => (Except.ok r, s)
    | none => (.ok .done, (m, w))) = _
  rw [Manager.onCache]
  cases m.cacheAt? id <;> rfl

theorem ensureOpen_leaves : (ensureOpen : Op ω Unit).Leaves id := by
  intro s
  cases h : s.1.closed <;> simp [ensureOpen, Action.run, h]

theorem lookup_leaves (name : String) : (lookup name : Op ω _).Leaves id :=
  .of_keeps fun x => (ensureOpen_leaves.keeps (· = x)).bind fun _ _ h => h

theorem cacheNames_leaves : (cacheNames : Op ω _).Leaves id :=
  .of_keeps fun x => (ensureOpen_leaves.keeps (· = x)).bind fun _ _ h => h

theorem getCache_leaves (t : EntryTypes) (name : String) :
    (getCache t name : Op ω _).Leaves id := by
  apply Action.Leaves.of_keeps
  intro x
  refine ((lookup_leaves name).keeps (· = x)).bind fun found => ?_
  rcases found with _ | ⟨id, c⟩
  · exact .pure _
  · exact (Action.Keeps.ofExcept _).discard.bind fun _ => .pure _

def Refuses (s : Manager ω × ω) (op : Op ω γ) : Prop := op.run s = (.error (closedError s.1.uri), s)

theorem refuses_ensureOpen (h : s.1.closed = true) : Refuses s ensureOpen := by
  simp [Refuses, ensureOpen, Action.run, h]

theorem Refuses.bind {op : Op ω γ} (h : Refuses s op) (f : γ → Op ω δ) : Refuses s (op >>= f) :=
  Action.run_bind_of_error h

theorem Refuses.map {op : Op ω γ} (h : Refuses s op) (f : γ → δ) : Refuses s (f <$> op) := by
  rw [Refuses, Action.run_map, h]
  rfl

theorem refuses_lookup (h : s.1.closed = true) (name : String) : Refuses s (lookup name) :=
  (refuses_ensureOpen h).bind _

namespace Operation

def NeedsOpen : Operation ω β → Prop
  | .close => False
  | .onCache _ _ => False
  | _ => True

theorem refuses {op : Operation ω β} (h : s.1.closed = true) (hop : op.NeedsOpen) :
    Refuses s op.run := by
  cases op with
  | close => exact hop.elim
  | onCache id op => exact hop.elim
  | create name config => exact ((refuses_ensureOpen h).bind _).map _
  | lookup name => exact (refuses_lookup h name).map _
  | get t name => exact ((refuses_lookup h name).bind _).map _
  | names => exact ((refuses_ensureOpen h).bind _).map _
  | destroy name => exact ((refuses_ensureOpen h).bind _).map _
  | clear name => exact ((refuses_lookup h name).bind _).map _
  | closeHeld name => exact ((refuses_lookup h name).bind _).map _
  | enableManagement name enabled => exact (refuses_ensureOpen h).map _
  | enableStatistics name enabled => exact (refuses_ensureOpen h).map _

end Operation

theorem run_createCache (h : m.closed = false) (name : String)
    (config : AnyConfiguration ω) (w : ω) : (createCache name config).run (m, w) =
      if m.held.contains name then (.error (existsError name), (m, w))
      else if config.types.supported then
        (.ok m.created.length,
          (m.holding name (AnyCache.create name config w).1, (AnyCache.create name config w).2))
      else (.error (unsupportedError config.types), (m, w)) := by
  rw [createCache, Action.run_bind_of_ok (run_ensureOpen h w), Action.run_bind_of_ok (run_look _ _)]
  cases m.held.contains name with
  | true => rfl
  | false =>
    cases config.types.supported with
    | true => rfl
    | false => rfl

theorem run_lookup (h : m.closed = false) (name : String) (w : ω) :
    (lookup name).run (m, w) = (.ok (m.find? name), (m, w)) := by
  rw [lookup, Action.run_bind_of_ok (run_ensureOpen h w), run_look]

theorem run_clearCache (h : m.closed = false) (name : String) (w : ω) :
    (clearCache name).run (m, w) =
      match m.find? name with
      | none => (.ok none, (m, w))
      | some (id, c) =>
        let r := AnyCache.clear (c, w)
        (.ok (some r.1), (m.setCache id r.2.1, r.2.2)) := by
  rw [clearCache, Action.run_bind_of_ok (run_lookup h name w)]
  rcases m.find? name with _ | ⟨id, c⟩ <;> rfl

theorem run_closeHeld (h : m.closed = false) (name : String) (w : ω) :
    (Manager.closeHeld name).run (m, w) =
      match m.find? name with
      | none => (.ok none, (m, w))
      | some (id, c) => (.ok (some true), (m.setCache id c.close, w)) := by
  rw [Manager.closeHeld, Action.run_bind_of_ok (run_lookup h name w)]
  rcases m.find? name with _ | ⟨id, c⟩ <;> rfl

def without (m : Manager ω) (name : String) (id : CacheId) (c : AnyCache ω) : Manager ω :=
  ({ m with held := m.held.erase name } : Manager ω).setCache id c

theorem run_destroyCache (h : m.closed = false) (name : String) (w : ω) :
    (destroyCache name).run (m, w) =
      match m.find? name with
      | none => (.ok (), (m, w))
      | some (id, c) =>
        if c.closed then (.error (Cache.closedError c.name), (m.without name id c, w))
        else (.ok (), (m.without name id c.emptied.close, w)) := by
  rw [destroyCache, Action.run_bind_of_ok (run_ensureOpen h w),
    Action.run_bind_of_ok (run_look _ _)]
  rcases m.find? name with _ | ⟨id, c⟩
  · rfl
  · have hclear : AnyCache.clear (c, w) = _ := c.run_clear w
    refine (Action.run_bind_of_ok (run_update _ _)).trans ?_
    simp only [Action.run, hclear]
    cases c.closed <;> rfl

end Manager

end EntryCache
