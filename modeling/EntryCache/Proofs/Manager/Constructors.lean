import Mathlib.Data.List.Sort
import Mathlib.Data.String.Basic
import EntryCache.Manager.Equipped
import EntryCache.Proofs.Manager.Destroying

namespace EntryCache

variable {ω β : Type}

theorem Constructor.run_of (t : EntryTypes) (copierFor : CopierFor ω t) (name : String)
    (config : t.Configuration ω) (w : ω) :
    (Constructor.of t copierFor name ⟨t, config⟩).run w =
      let made := Cache.create name config (copierFor config) w
      (.ok ⟨t, made.1⟩, made.2) := by
  have htyped : (⟨t, config⟩ : AnyConfiguration ω).typed t = .ok config := dif_pos rfl
  have hrun : (Action.ofExcept ((⟨t, config⟩ : AnyConfiguration ω).typed t)).run w =
      (.ok config, w) := by
    rw [Action.run_ofExcept, htyped]
  exact Action.run_bind_of_ok hrun

theorem AnyCache.run_discard_typed {σ : Type} (t : EntryTypes) (c : AnyCache ω) (s : σ) :
    (discard (Action.ofExcept (c.typed t))).run s =
      (if c.types = t then .ok () else .error (t.mismatch c.types), s) := by
  rw [Action.run_discard, Action.run_ofExcept]
  split
  · next ht =>
    subst ht
    rw [c.typed_self]
    rfl
  · next ht =>
    rw [AnyCache.typed_eq_error ht]
    rfl

namespace Manager

variable {m : Manager ω} {name : String} {id : CacheId} {c : AnyCache ω}

theorem run_getCache (h : m.closed = false) (t : EntryTypes) (name : String) (w : ω) :
    (getCache t name).run (m, w) =
      match m.find? name with
      | none => (.ok none, (m, w))
      | some (id, c) => if c.types = t then (.ok (some id), (m, w))
          else (.error (t.mismatch c.types), (m, w)) := by
  rw [getCache, Action.run_bind_of_ok (run_lookup h name w)]
  rcases m.find? name with _ | ⟨id, c⟩
  · rfl
  · simp only [Action.run_bind, AnyCache.run_discard_typed]
    by_cases ht : c.types = t
    · rw [if_pos ht, if_pos ht]
      rfl
    · rw [if_neg ht, if_neg ht]

theorem pairwise_names (m : Manager ω) : m.names.Pairwise (· < ·) := by
  have hsorted : m.names.Pairwise (· ≤ ·) := List.pairwise_mergeSort' _ m.held.keys
  have hdistinct : m.names.Pairwise (· ≠ ·) :=
    (List.mergeSort_perm m.held.keys _).nodup_iff.2 m.held.nodup
  exact hsorted.imp₂ (fun _ _ => lt_of_le_of_ne) hdistinct

end Manager

namespace Equipped

variable {m m' : Equipped ω} {t : EntryTypes} {name : String} {id : CacheId}
  {copierFor : CopierFor ω t}

def Sound (m : Equipped ω) : Prop :=
  ∀ {t make}, m.constructors.get? t = some make → ∃ copierFor : CopierFor ω t,
    make = .of t copierFor

theorem Sound.supportWith (h : m.Sound) (copierFor : CopierFor ω t) :
    (m.supportWith t copierFor).Sound := by
  intro other make hmake
  change (m.constructors.insert t _).get? other = some make at hmake
  rw [FiniteMap.get?_insert] at hmake
  split at hmake
  · next heq =>
    subst heq
    exact ⟨copierFor, (Option.some.inj hmake).symm⟩
  · exact h hmake

theorem constructor?_equip (m : Manager ω) (t : EntryTypes) :
    (equip m).constructors.get? t = if t.supported then some (.of t .byValue) else none := by
  obtain ⟨k, v⟩ := t
  cases k <;> cases v <;> rfl

theorem sound_equip (m : Manager ω) : (equip m).Sound := by
  intro t make hmake
  rw [constructor?_equip] at hmake
  split at hmake
  · exact ⟨.byValue, (Option.some.inj hmake).symm⟩
  · cases hmake

theorem run_onManager (op : Manager.Op ω β) (m : Equipped ω) (w : ω) :
    (onManager op).run (m, w) =
      ((op.run (m.manager, w)).1,
        ({ m with manager := (op.run (m.manager, w)).2.1 }, (op.run (m.manager, w)).2.2)) := rfl

theorem run_constructor? (t : EntryTypes) (m : Equipped ω) (w : ω) :
    (constructor? t).run (m, w) = (.ok (m.constructors.get? t), (m, w)) := rfl

theorem refuses_createErased (h : m.manager.closed = true) (name : String)
    (config : AnyConfiguration ω) (w : ω) : (createErased name config).run (m, w) =
    (.error (Manager.closedError m.manager.uri), (m, w)) := by
  refine Action.run_bind_of_error ?_
  rw [run_onManager, Manager.refuses_ensureOpen (s := (m.manager, w)) h]

theorem run_createErased (h : m.manager.closed = false) (name : String)
    (config : AnyConfiguration ω) (w : ω) : (createErased name config).run (m, w) =
      if m.manager.held.contains name then (.error (Manager.existsError name), (m, w))
      else
        match m.constructors.get? config.types with
        | none => (.error (Manager.unsupportedError config.types), (m, w))
        | some make =>
          match (make name config).run w with
          | (.error e, w) => (.error e, (m, w))
          | (.ok c, w) =>
            (.ok (m.manager.created.length, c),
              ({ m with manager := m.manager.holding name c }, w)) := by
  have hopen : (onManager Manager.ensureOpen).run (m, w) = (.ok (), (m, w)) := by
    rw [run_onManager, Manager.run_ensureOpen h]
  rw [createErased, Action.run_bind_of_ok hopen]
  refine (Action.run_bind_of_ok (run_onManager _ m w)).trans ?_
  simp only [Manager.run_look]
  cases m.manager.held.contains name with
  | true => rfl
  | false =>
    rw [if_neg Bool.false_ne_true, if_neg Bool.false_ne_true]
    rw [Action.run_bind_of_ok (run_constructor? config.types m w)]
    cases m.constructors.get? config.types with
    | none => rfl
    | some make =>
      simp only [Action.run_bind, Action.run_beside]
      rcases (make name config).run w with ⟨e | c, w'⟩ <;> rfl

theorem run_createErased_of_constructor (h : m.manager.closed = false)
    (hname : m.manager.held.contains name = false)
    (hmake : m.constructors.get? t = some (.of t copierFor)) (config : t.Configuration ω) (w : ω) :
    let made := Cache.create name config (copierFor config) w
    (createErased name ⟨t, config⟩).run (m, w) =
      (.ok (m.manager.created.length, ⟨t, made.1⟩),
        ({ m with manager := m.manager.holding name ⟨t, made.1⟩ }, made.2)) := by
  rw [run_createErased h, hname, hmake]
  simp only [Constructor.run_of]
  rfl

theorem createErased_cases (h : m.Sound) (name : String) (config : AnyConfiguration ω) (w : ω) :
    (∃ e, (createErased name config).run (m, w) = (.error e, (m, w))) ∨
      ∃ c w', m.manager.closed = false ∧ m.manager.held.contains name = false ∧
        c.types = config.types ∧ c.name = name ∧
        (createErased name config).run (m, w) =
          (.ok (m.manager.created.length, c),
            ({ m with manager := m.manager.holding name c }, w')) := by
  cases hclosed : m.manager.closed with
  | true => exact .inl ⟨_, refuses_createErased hclosed name config w⟩
  | false =>
    cases hname : m.manager.held.contains name with
    | true => exact .inl ⟨_, by rw [run_createErased hclosed, hname]; rfl⟩
    | false =>
      cases hmake : m.constructors.get? config.types with
      | none => exact .inl ⟨_, by rw [run_createErased hclosed, hname, hmake]; rfl⟩
      | some make =>
        obtain ⟨copierFor, rfl⟩ := h hmake
        have hrun := run_createErased_of_constructor hclosed hname hmake config.config w
        refine .inr ⟨_, _, rfl, rfl, rfl, ?_, hrun⟩
        exact (Cache.later_create ..).1

theorem run_createErased_equip (m : Manager ω) (name : String)
    (config : AnyConfiguration ω) (w : ω) :
    (Prod.fst <$> createErased name config).run (equip m, w) =
      (onManager (Manager.createCache name config)).run (equip m, w) := by
  have hm : (equip m).manager = m := rfl
  rw [Action.run_map, run_onManager, hm]
  cases hclosed : m.closed with
  | true =>
    have hrefused : Manager.Refuses (m, w) (Manager.createCache name config) :=
      (Manager.refuses_ensureOpen hclosed).bind _
    rw [refuses_createErased hclosed, hrefused]
    rfl
  | false =>
    rw [Manager.run_createCache hclosed]
    cases hname : m.held.contains name with
    | true =>
      rw [run_createErased hclosed, hm, hname]
      rfl
    | false =>
      cases hsupported : config.types.supported with
      | true =>
        have hmake := constructor?_equip m config.types
        rw [if_pos hsupported] at hmake
        rw [run_createErased_of_constructor hclosed hname hmake config.config]
        rfl
      | false =>
        rw [run_createErased hclosed, hm, hname, constructor?_equip, hsupported]
        rfl

theorem snd_run_createCache (t : EntryTypes) (name : String) (config : t.Configuration ω)
    (s : Equipped ω × ω) :
    ((createCache t name config).run s).2 = ((createErased name ⟨t, config⟩).run s).2 := by
  rw [createCache, Action.run_bind]
  rcases (createErased name ⟨t, config⟩).run s with ⟨e | ⟨id, c⟩, s'⟩
  · rfl
  · simp only [Action.run_bind, AnyCache.run_discard_typed]
    by_cases ht : c.types = t
    · rw [if_pos ht]
      rfl
    · rw [if_neg ht]

theorem run_createCache_of_held (h : m.manager.closed = false)
    (hname : m.manager.held.contains name = true) (config : t.Configuration ω) (w : ω) :
    (createCache t name config).run (m, w) = (.error (Manager.existsError name), (m, w)) :=
  Action.run_bind_of_error (by rw [run_createErased h, hname]; rfl)

theorem run_createCache_of_unsupported (h : m.manager.closed = false)
    (hname : m.manager.held.contains name = false)
    (hmake : m.constructors.get? t = none) (config : t.Configuration ω) (w : ω) :
    (createCache t name config).run (m, w) = (.error (Manager.unsupportedError t), (m, w)) :=
  Action.run_bind_of_error (by rw [run_createErased h, hname, hmake]; rfl)

theorem run_createCache_of_constructor (h : m.manager.closed = false)
    (hname : m.manager.held.contains name = false)
    (hmake : m.constructors.get? t = some (.of t copierFor)) (config : t.Configuration ω) (w : ω) :
    let made := Cache.create name config (copierFor config) w
    (createCache t name config).run (m, w) =
      (.ok m.manager.created.length,
        ({ m with manager := m.manager.holding name ⟨t, made.1⟩ }, made.2)) := by
  refine (Action.run_bind_of_ok (run_createErased_of_constructor h hname hmake config w)).trans ?_
  refine Action.run_bind_of_ok (x := ()) ?_
  rw [AnyCache.run_discard_typed, if_pos rfl]

end Equipped

end EntryCache
