import EntryCache.Proofs.Cache.Composition

namespace EntryCache.Cache

open EntryCache.Action (Keeps)

variable {ω κ α β γ : Type} [DecidableEq κ] {I : Cache ω κ α × ω → Prop}

theorem keeps_ensureOpen : Keeps I ensureOpen := by
  rintro ⟨c, w⟩ h
  cases hc : c.closed with
  | false => rwa [run_ensureOpen hc]
  | true => rwa [run_ensureOpen_of_closed hc]

theorem keeps_opened {f : Op ω κ α β} (h : Keeps I f) : Keeps I (ensureOpen >>= fun _ => f) :=
  keeps_ensureOpen.bind fun _ => h

theorem keeps_look (f : Cache ω κ α → β) : Keeps I (look f) := fun _ h => h

theorem keeps_copied (v : α) : Keeps I (copied v) := fun _ h => h

theorem keeps_look_bind {f : Cache ω κ α → β} {g : β → Op ω κ α γ}
    (h : ∀ c w, I (c, w) → I ((g (f c)).run (c, w)).2) :
      Keeps I (look f >>= g) := fun s hs => h s.1 s.2 hs

theorem keeps_update {f : Cache ω κ α → Cache ω κ α} (h : ∀ c w, I (c, w) → I (f c, w)) :
    Keeps I (update f) :=
  fun s hs => h s.1 s.2 hs

omit [DecidableEq κ] in
theorem keeps_resultsOf {σ : Type} {I : σ → Prop} {step : κ → Action σ β}
    (h : ∀ k, Keeps I (step k)) (ks : List κ) (s : σ) (hs : I s) : I (resultsOf step ks s).2 := by
  induction ks generalizing s with
  | nil => exact hs
  | cons k ks ih => exact ih _ (h k s hs)

theorem keeps_compositional (hs : ∀ k v, Keeps I (storeValue k v))
    (hd : ∀ k, Keeps I (deleteValue k)) : Compositional fun _ op => Keeps I op where
  pure := .pure
  bind h hf := h.bind hf
  opens := keeps_ensureOpen
  looks := keeps_look
  copies := keeps_copied
  stores := hs
  deletes := hd

structure KeptByChanges (I : Cache ω κ α × ω → Prop) : Prop where
  counts : ∀ c w n, I (c, w) → I ({ c with stats := n }, w)
  stores : ∀ k v, Keeps I (storeValue k v)
  deletes : ∀ k, Keeps I (deleteValue k)
  loads : ∀ c l k, c.loader? = some l → Keeps (fun w => I (c, w)) (l.load k)
  readsThrough : ∀ c w l k, c.loader? = some l → c.entries.get? k = none → I (c, w) →
    I ((readThrough k l).run (c, w)).2

namespace KeptByChanges

theorem compositional (h : KeptByChanges I) : Compositional fun _ op => Keeps I op :=
  keeps_compositional h.stores h.deletes

theorem count (h : KeptByChanges I) (f : Statistics → Statistics) :
    Keeps I (update fun c => { c with stats := f c.stats }) := fun s hs => h.counts s.1 s.2 _ hs

theorem get (h : KeptByChanges I) (k : κ) : Keeps I (get k) := by
  rintro ⟨c, w⟩ hc
  cases hclosed : c.closed with
  | true => rwa [Cache.get, Action.run_bind_of_error (run_ensureOpen_of_closed hclosed w)]
  | false =>
    cases hk : c.entries.get? k with
    | some v =>
      obtain ⟨n, hn⟩ := run_get_of_mapped hclosed hk w
      rw [hn]
      exact h.counts c w n hc
    | none =>
      rw [run_get_of_unmapped hclosed hk]
      have hmiss : I (c.countMiss, w) := h.counts c w _ hc
      cases hl : c.loader? with
      | none => exact hmiss
      | some l => exact h.readsThrough c.countMiss w l k hl hk hmiss

theorem runStaged (h : KeptByChanges I) (k : κ) (p : Processor α β) : Keeps I (runStaged k p) := by
  rintro ⟨c, w⟩ hc
  cases hclosed : c.closed with
  | true => rwa [Cache.runStaged, Action.run_bind_of_error (run_ensureOpen_of_closed hclosed w)]
  | false =>
    rw [run_runStaged hclosed]
    cases current k c with
    | error e => exact hc
    | ok v =>
      apply StagedEntry.keeps_run (I := fun w => I (c, w)) _ p _ hc
      intro load hload
      obtain ⟨l, hl, rfl⟩ := Option.map_eq_some_iff.1 hload
      exact h.loads c l k hl

theorem apply (h : KeptByChanges I) (k : κ) (o : Outcome α) : Keeps I (apply k o) := by
  cases o with
  | nothing => exact .pure _
  | accessed => exact h.count (·.recordHits 1)
  | loaded v => exact (h.stores k v).discard
  | created v => exact (h.stores k v).discard
  | updated v => exact (h.stores k v).discard
  | removed => exact (h.deletes k).discard

theorem commit (h : KeptByChanges I) (k : κ) (staged : StagedEntry α) : Keeps I (commit k staged) :=
  (Keeps.ofExcept _).bind fun o => h.apply k o

theorem invokeRaw (h : KeptByChanges I) (k : κ) (p : Processor α β) (s : Cache ω κ α × ω)
    (hs : I s) : I (invokeRaw k p s).2 := by
  have hr := h.runStaged k p s hs
  unfold Cache.invokeRaw
  split
  · next hrun => rwa [Action.run, hrun] at hr
  · next hrun => rwa [Action.run, hrun] at hr
  · next staged s' hrun =>
    rw [Action.run, hrun] at hr
    exact h.commit k staged s' hr

theorem invoke (h : KeptByChanges I) (k : κ) (p : Processor α β) : Keeps I (invokeAround id k p) :=
  fun s hs => h.invokeRaw k _ s hs

end KeptByChanges

def Operation.Admits (I : Cache ω κ α × ω → Prop) : Operation ω κ α β → Prop
  | .loadAll ks all l => Keeps I (Cache.loadAll ks all l)
  | .clear => Keeps I Cache.clear
  | .getOrPutWith k compute => ∀ c, Keeps (fun w => I (c, w)) (compute k)
  | .register handle config => Keeps I (registerListener handle config)
  | .deregister handle => Keeps I (deregisterListener handle)
  | .close => Keeps I (update Cache.close)
  | _ => True

theorem Op.keeps_as {f : γ → Reply κ α β} {op : Op ω κ α γ} (h : Keeps I op) : Keeps I (op.as f) :=
  h.bind fun _ => .pure _

theorem Operation.keeps_run [DecidableEq α] (h : KeptByChanges I) {op : Operation ω κ α β}
    (hop : op.Admits I) : Keeps I (op.run id) := by
  cases op with
  | get k => exact Op.keeps_as (h.get k)
  | getAll ks => exact Op.keeps_as (h.compositional.getEach h.get ks ∅)
  | getOrPutWith k compute =>
    exact Op.keeps_as (h.compositional.getOrPutWith (h.get k) (.beside hop))
  | invoke k p => exact Op.keeps_as (h.invoke k p)
  | invokeAll ks p => exact keeps_resultsOf (fun k => h.invoke k (p k)) ks
  | invokeRaw k p => exact h.invokeRaw k p
  | loadAll ks all l => exact Op.keeps_as hop
  | clear => exact Op.keeps_as hop
  | register handle config => exact Op.keeps_as hop
  | deregister handle => exact Op.keeps_as hop
  | clearStatistics => exact Op.keeps_as (h.count fun _ => default)
  | close => exact Op.keeps_as hop
  | _ => exact h.compositional.run trivial

theorem Operation.keeps_runAll [DecidableEq α] (h : KeptByChanges I)
    (ops : List (Operation ω κ α β))
    (hops : ∀ op ∈ ops, op.Admits I) (s : Cache ω κ α × ω) (hs : I s) : I (runAll ops s).2 := by
  induction ops generalizing s with
  | nil => exact hs
  | cons op ops ih =>
    apply ih fun op' h => hops op' (List.mem_cons_of_mem _ h)
    exact op.keeps_run h (hops op List.mem_cons_self) s hs

end EntryCache.Cache
