import EntryCache.Proofs.Cache.Changes
import EntryCache.Proofs.FiniteMap

namespace EntryCache

variable {ω κ α ρ : Type} [DecidableEq κ]

structure Writer.Maintains (stored : ω → κ → Option α) (wr : Writer ω κ α) : Prop where
  written : ∀ {k v w w'}, (wr.write k v).run w = (.ok (), w') →
    stored w' = Function.update (stored w) k (some v)
  writeRefused : ∀ {k v w w' e}, (wr.write k v).run w = (.error e, w') → stored w' = stored w
  deleted : ∀ {k w w'}, (wr.delete k).run w = (.ok (), w') →
    stored w' = Function.update (stored w) k none
  deleteRefused : ∀ {k w w' e}, (wr.delete k).run w = (.error e, w') → stored w' = stored w

structure Loader.Reads (stored : ω → κ → Option α) (l : Loader ω κ α) : Prop where
  leaves : ∀ k, (l.load k).Leaves stored
  loaded : ∀ {k w v}, ((l.load k).run w).1 = .ok v → v = stored w k

structure Loader.ReadsAll (stored : ω → κ → Option α) (l : Loader ω κ α) :
    Prop extends l.Reads stored where
  leavesAll : ∀ ks, (l.loadAll ks).Leaves stored
  loadedAll : ∀ {ks w m}, ((l.loadAll ks).run w).1 = .ok m → ∀ k v, m.get? k = some v →
    stored w k = some v

theorem loadEach_leaves {f : ω → ρ} {load : κ → Action ω (Option α)} (h : ∀ k, (load k).Leaves f)
    (m : FiniteMap κ α) (ks : List κ) : (loadEach load m ks).Leaves f := by
  apply Action.Leaves.of_keeps
  intro x
  induction ks generalizing m with
  | nil => exact .pure m
  | cons k ks ih =>
    refine ((h k).keeps (· = x)).bind fun v => ?_
    cases v with
    | some v => exact ih _
    | none => exact ih _

theorem loadEach_loaded {stored : ω → κ → Option α} {load : κ → Action ω (Option α)}
    (hl : ∀ k, (load k).Leaves stored) (hr : ∀ {k w v}, ((load k).run w).1 = .ok v → v = stored w k)
    {m m' : FiniteMap κ α} {ks : List κ} {w : ω}
    (hm : ∀ k v, m.get? k = some v → stored w k = some v)
    (h : ((loadEach load m ks).run w).1 = .ok m') (k : κ) (v : α) (hk : m'.get? k = some v) :
    stored w k = some v := by
  induction ks generalizing m w with
  | nil =>
    obtain rfl : m = m' := Except.ok.inj h
    exact hm k v hk
  | cons j ks ih =>
    rw [loadEach, Action.run_bind] at h
    have hw := hl j w
    rcases hrun : (load j).run w with ⟨e | u, w'⟩
    · rw [hrun] at h
      cases h
    · have hj : u = stored w j := hr (congrArg Prod.fst hrun)
      rw [hrun] at h hw
      rw [← hw]
      cases u with
      | none => exact ih (by rwa [hw]) h
      | some u =>
        refine ih ?_ h
        intro i a hi
        rw [hw]
        rw [FiniteMap.get?_insert] at hi
        split at hi
        · next hij => rw [← hij, ← hj, hi]
        · exact hm i a hi

theorem Loader.Reads.all {stored : ω → κ → Option α} {load : κ → Action ω (Option α)}
    (h : Loader.Reads stored { load := load }) : Loader.ReadsAll stored { load := load } where
  toReads := h
  leavesAll := loadEach_leaves h.leaves ∅
  loadedAll := loadEach_loaded h.leaves h.loaded (by simp)

structure Registered.Leaves (f : ω → ρ) (r : Registered ω κ α) : Prop where
  hooks : ∀ t es, (r.listener.dispatch t es).Leaves f
  filters : ∀ g ∈ r.filter, ∀ e, (g e).Leaves f

namespace Cache

omit [DecidableEq κ] in
theorem tell_leaves {f : ω → ρ} {r : Registered ω κ α} (h : r.Leaves f) (e : Event κ α) :
    (tell r e).Leaves f := by
  apply Action.Leaves.of_keeps
  intro x
  have ha : (accepts r e).Leaves f := by
    unfold accepts
    split
    · next g hg => exact h.filters g hg e
    · exact fun _ => rfl
  refine (ha.keeps (· = x)).bind fun b => ?_
  cases b with
  | true => exact ((h.hooks e.type [e]).keeps (· = x)).mapError _
  | false => exact .pure ()

theorem notify_leaves {f : ω → ρ} {c : Cache ω κ α} (h : ∀ r ∈ c.listeners, r.Leaves f)
    (t : EventType) (k : κ)
    (value old : Option α) (w : ω) : f ((notify t k value old).run (c, w)).2.2 = f w := by
  have hall : (Action.forEach (fun r => tell r (eventFor c.name t k value old r))
    c.listeners).Leaves f :=
    .of_keeps fun x => .forEach fun r hr => (tell_leaves (h r hr) _).keeps (· = x)
  exact hall w

theorem tellStored_leaves {f : ω → ρ} {c : Cache ω κ α} (h : ∀ r ∈ c.listeners, r.Leaves f)
    (k : κ) (v : α) (old : Option α) (w : ω) : f ((tellStored k v old).run (c, w)).2.2 = f w := by
  cases old with
  | some o => exact notify_leaves h ..
  | none => exact notify_leaves h ..

structure Still (stored : ω → κ → Option α) (s s' : Cache ω κ α × ω) : Prop where
  cache : ∃ n, s'.1 = { s.1 with stats := n }
  store : stored s'.2 = stored s.2

structure Moved (stored : ω → κ → Option α) (k : κ) (entry value : Option α)
    (s s' : Cache ω κ α × ω) : Prop where
  cache : ∃ es n, s'.1 = { s.1 with entries := es, stats := n } ∧
    es.get? = Function.update s.1.entries.get? k entry
  store : stored s'.2 = Function.update (stored s.2) k value

variable {stored : ω → κ → Option α} {wr : Writer ω κ α} {c : Cache ω κ α}

theorem storeValue_effect (hwr : c.writer? = some wr) (hm : wr.Maintains stored)
    (hl : ∀ r ∈ c.listeners, r.Leaves stored) (k : κ) (v : α) (w : ω) :
    (∃ e, ((wr.write k v).run w).1 = .error e) ∧ Still stored (c, w)
      ((storeValue k v).run (c, w)).2 ∨
      Moved stored k ((c.copy v).toOption.or (c.entries.get? k)) (some v) (c, w)
        ((storeValue k v).run (c, w)).2 := by
  have hrun := run_writeThrough k v c w
  rw [hwr] at hrun
  rcases hres : (wr.write k v).run w with ⟨e | x, w₁⟩ <;> simp only [hres] at hrun
  · left
    rw [run_storeValue_of_refused hrun]
    exact ⟨⟨e, rfl⟩, ⟨c.stats, rfl⟩, hm.writeRefused hres⟩
  · right
    cases hcopy : c.copy v with
    | error e =>
      rw [run_storeValue_of_no_copy hrun hcopy]
      exact ⟨⟨c.entries, c.stats, rfl, (Function.update_eq_self ..).symm⟩, hm.written hres⟩
    | ok u =>
      rw [run_storeValue_of_written hrun hcopy, Action.snd_run_bind_pure]
      refine ⟨⟨_, _, tellStored_cache .., FiniteMap.get?_insert_eq_update ..⟩, ?_⟩
      exact (tellStored_leaves (c := (c.enter k u).countPut) hl ..).trans (hm.written hres)

theorem deleteValue_effect (hwr : c.writer? = some wr) (hm : wr.Maintains stored)
    (hl : ∀ r ∈ c.listeners, r.Leaves stored) (k : κ) (w : ω) :
    (∃ e, ((wr.delete k).run w).1 = .error e) ∧ Still stored (c, w) ((deleteValue k).run (c, w)).2 ∨
      Moved stored k none none (c, w) ((deleteValue k).run (c, w)).2 := by
  have hrun := run_deleteThrough k c w
  rw [hwr] at hrun
  rcases hres : (wr.delete k).run w with ⟨e | x, w₁⟩ <;> simp only [hres] at hrun
  · left
    rw [run_deleteValue_of_refused hrun]
    exact ⟨⟨e, rfl⟩, ⟨c.stats, rfl⟩, hm.deleteRefused hres⟩
  · right
    cases hold : c.entries.get? k with
    | none =>
      rw [run_deleteValue_of_absent hrun hold]
      refine ⟨⟨c.entries, c.stats, rfl, ?_⟩, hm.deleted hres⟩
      rw [← hold, Function.update_eq_self]
    | some o =>
      rw [run_deleteValue_of_mapped hrun hold, Action.snd_run_bind_pure]
      refine ⟨⟨_, _, notify_cache .., FiniteMap.get?_erase_eq_update ..⟩, ?_⟩
      exact (notify_leaves (c := c.without k) hl ..).trans (hm.deleted hres)

theorem readThrough_effect {l : Loader ω κ α} (hread : l.Reads stored)
    (hl : ∀ r ∈ c.listeners, r.Leaves stored) (k : κ) (w : ω) :
    (∃ e, ((l.load k).run w).1 = .error e) ∧ Still stored (c, w) ((readThrough k l).run (c, w)).2 ∨
      match stored w k with
      | none => Still stored (c, w) ((readThrough k l).run (c, w)).2
      | some v => Moved stored k ((c.copy v).toOption.or (c.entries.get? k)) (some v) (c, w)
          ((readThrough k l).run (c, w)).2 := by
  have hw := hread.leaves k w
  rcases hres : (l.load k).run w with ⟨e | x, w₁⟩ <;> rw [hres] at hw
  · left
    rw [run_readThrough_of_failed hres]
    exact ⟨⟨e, rfl⟩, ⟨c.stats, rfl⟩, hw⟩
  · right
    rw [← hread.loaded (congrArg Prod.fst hres)]
    cases x with
    | none =>
      simp only
      rw [run_readThrough_of_none hres]
      exact ⟨⟨c.stats, rfl⟩, hw⟩
    | some v =>
      have hv : some v = stored w k := hread.loaded (congrArg Prod.fst hres)
      have hself : Function.update (stored w) k (some v) = stored w := by
        rw [hv, Function.update_eq_self]
      simp only
      cases hcopy : c.copy v with
      | error e =>
        rw [run_readThrough_of_no_copy hres hcopy]
        exact ⟨⟨c.entries, c.stats, rfl, (Function.update_eq_self ..).symm⟩, hw.trans hself.symm⟩
      | ok u =>
        rw [run_readThrough_of_some hres hcopy, Action.snd_run_bind_pure]
        refine ⟨⟨_, _, notify_cache .., FiniteMap.get?_insert_eq_update ..⟩, ?_⟩
        exact ((notify_leaves (c := c.enter k u) hl ..).trans hw).trans hself.symm

end Cache

abbrev Table (κ α : Type) : Type := κ → Option α

namespace Table

variable (refused : κ → Bool)

def refusal : Error := .plain .cache "refused"

def writer : Writer (Table κ α) κ α where
  write k v t := if refused k then (.error refusal, t) else (.ok (), Function.update t k (some v))
  delete k t := if refused k then (.error refusal, t) else (.ok (), Function.update t k none)

def loader : Loader (Table κ α) κ α where
  load k t := if refused k then (.error refusal, t) else (.ok (t k), t)

theorem run_write (k : κ) (v : α) (t : Table κ α) : ((writer refused).write k v).run t =
    if refused k then (.error refusal, t) else (.ok (), Function.update t k (some v)) := rfl

theorem run_delete (k : κ) (t : Table κ α) : ((writer refused).delete k).run t =
    if refused k then (.error refusal, t) else (.ok (), Function.update t k none) := rfl

theorem run_load (k : κ) (t : Table κ α) : ((loader refused).load k).run t =
    if refused k then (.error refusal, t) else (.ok (t k), t) := rfl

theorem writer_maintains : (writer refused : Writer (Table κ α) κ α).Maintains id where
  written h := by
    rw [run_write] at h
    split at h <;> cases h
    rfl
  writeRefused h := by
    rw [run_write] at h
    split at h <;> cases h
    rfl
  deleted h := by
    rw [run_delete] at h
    split at h <;> cases h
    rfl
  deleteRefused h := by
    rw [run_delete] at h
    split at h <;> cases h
    rfl

theorem loader_reads : (loader refused : Loader (Table κ α) κ α).ReadsAll id := by
  apply Loader.Reads.all
  constructor
  · intro k t
    change id ((loader refused).load k |>.run t).2 = id t
    rw [run_load]
    split <;> rfl
  · intro k t v h
    change ((loader refused).load k |>.run t).1 = .ok v at h
    rw [run_load] at h
    split at h <;> cases h
    rfl

end Table

end EntryCache
