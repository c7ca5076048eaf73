import EntryCache.Proofs.Events.Journal

namespace EntryCache

/-- What counters have counted; they show it as far as 64 bits go. -/
structure Tally : Type where
  hits : Nat
  misses : Nat
  puts : Nat
  removals : Nat

structure Statistics.Shows (s : Statistics) (n : Tally) : Prop where
  hits : s.hits = .ofNat n.hits
  misses : s.misses = .ofNat n.misses
  puts : s.puts = .ofNat n.puts
  removals : s.removals = .ofNat n.removals

namespace Statistics.Shows

variable {s : Statistics} {n : Tally}

theorem hit (h : s.Shows n) : (s.recordHits 1).Shows { n with hits := n.hits + 1 } :=
  { h with hits := by simp [recordHits, h.hits, UInt64.ofNat_add] }

theorem miss (h : s.Shows n) : (s.recordMisses 1).Shows { n with misses := n.misses + 1 } :=
  { h with misses := by simp [recordMisses, h.misses, UInt64.ofNat_add] }

theorem put (h : s.Shows n) : (s.recordPuts 1).Shows { n with puts := n.puts + 1 } :=
  { h with puts := by simp [recordPuts, h.puts, UInt64.ofNat_add] }

theorem removal (h : s.Shows n) :
    (s.recordRemovals 1).Shows { n with removals := n.removals + 1 } :=
  { h with removals := by simp [recordRemovals, h.removals, UInt64.ofNat_add] }

end Statistics.Shows

variable {ω κ α β : Type} [DecidableEq κ]

namespace Cache

inductive Access (ω κ α β : Type) [DecidableEq κ] : Type
  | lookup (k : κ) (s : Cache ω κ α × ω)
  | invocation (k : κ) (p : Processor α β) (s : Cache ω κ α × ω)

def supplies (k : κ) (s : Cache ω κ α × ω) : Bool :=
  match s.1.loader? with
  | some l => match ((l.load k).run s.2).1 with
    | .ok (some _) => true
    | _ => false
  | none => false

def onlyReads (k : κ) (p : Processor α β) (s : Cache ω κ α × ω) : Bool :=
  match ((runStaged k p).run s).1 with
  | .ok (.ok _, staged) => match staged.outcome with
    | .ok .accessed => true
    | _ => false
  | _ => false

namespace Access

def isLookup : Access ω κ α β → Bool
  | .lookup _ s => !s.1.closed
  | .invocation _ _ _ => false

def isSupplied : Access ω κ α β → Bool
  | .lookup k s => !s.1.closed && !s.1.entries.contains k && supplies k s
  | .invocation _ _ _ => false

def isReading : Access ω κ α β → Bool
  | .lookup _ _ => false
  | .invocation k p s => onlyReads k p s

end Access

def lookups : List κ → Cache ω κ α × ω → List (Access ω κ α β)
  | [], _ => []
  | k :: ks, s =>
    .lookup k s :: match (get k).run s with
      | (.ok _, t) => lookups ks t
      | (.error _, _) => []

def invocations (p : κ → Processor α β) : List κ → Cache ω κ α × ω → List (Access ω κ α β)
  | [], _ => []
  | k :: ks, s => .invocation k (p k) s :: invocations p ks ((invoke k (p k)).run s).2

namespace Operation

def accesses : Operation ω κ α β → Cache ω κ α × ω → List (Access ω κ α β)
  | .get k, s => [.lookup k s]
  | .getAll ks, s => lookups ks s
  | .getOrPutWith k _, s => [.lookup k s]
  | .invoke k p, s => [.invocation k p s]
  | .invokeRaw k p, s => [.invocation k p s]
  | .invokeAll ks p, s => invocations p ks s
  | _, _ => []

def KeepsCounts : Operation ω κ α β → Prop
  | .clearStatistics => False
  | _ => True

def accessesAll [DecidableEq α] : List (Operation ω κ α β) → Cache ω κ α × ω → List (Access ω κ α β)
  | [], _ => []
  | op :: ops, s => op.accesses s ++ accessesAll ops (op.run id s).2

end Operation

end Cache

def told (t : EventType) (es : List (Event κ α)) : Nat := es.countP (·.type = t)

structure Tally.Agrees (n : Tally) (es : List (Event κ α)) (size : Nat)
    (as : List (Cache.Access ω κ α β)) : Prop where
  removals : told .removed es = n.removals
  changes : told .created es + told .updated es = n.puts + as.countP Cache.Access.isSupplied
  entries : size + told .removed es = told .created es
  reads : n.hits + n.misses = as.countP Cache.Access.isLookup + as.countP Cache.Access.isReading

namespace Tally.Agrees

open Cache (Access storedType)

variable {n : Tally} {es : List (Event κ α)} {size : Nat} {as : List (Access ω κ α β)}
  {e : Event κ α}

omit [DecidableEq κ] in
theorem told_snoc (t : EventType) (es : List (Event κ α)) (e : Event κ α) :
    told t (es ++ [e]) = told t es + if e.type = t then 1 else 0 := by
  simp [told, List.countP_append, List.countP_singleton]

theorem countP_snoc (p : Access ω κ α β → Bool) (as : List (Access ω κ α β)) (a : Access ω κ α β) :
    (as ++ [a]).countP p = as.countP p + (p a).toNat := by
  rw [List.countP_append, List.countP_singleton]
  cases p a <;> rfl

theorem stored (h : n.Agrees es size as) {old : Option α} (he : e.type = storedType old) :
    Agrees { n with puts := n.puts + 1 } (es ++ [e]) (size + if old.isSome then 0 else 1) as := by
  obtain ⟨hremovals, hchanges, hentries, hreads⟩ := h
  cases old <;> constructor <;> simp [told_snoc, he, storedType] <;> omega

theorem removed (h : n.Agrees es (size + 1) as) (he : e.type = .removed) :
    Agrees { n with removals := n.removals + 1 } (es ++ [e]) size as := by
  obtain ⟨hremovals, hchanges, hentries, hreads⟩ := h
  constructor <;> simp [told_snoc, he] <;> omega

theorem accessed (h : n.Agrees es size as) {a : Access ω κ α β}
    (ha : a.isSupplied = false) {i j : Nat}
    (hij : i + j = n.hits + n.misses + (a.isLookup.toNat + a.isReading.toNat)) :
    Agrees { n with hits := i, misses := j } es size (as ++ [a]) := by
  obtain ⟨hremovals, hchanges, hentries, hreads⟩ := h
  refine ⟨hremovals, ?_, hentries, ?_⟩ <;> simp only [countP_snoc, ha, Bool.toNat_false] <;> omega

theorem loaded (h : n.Agrees es size as) {a : Access ω κ α β} (hlookup : a.isLookup = true)
    (hsupplied : a.isSupplied = true) (hreading : a.isReading = false) (he : e.type = .created) :
    Agrees { n with misses := n.misses + 1 } (es ++ [e]) (size + 1) (as ++ [a]) := by
  obtain ⟨hremovals, hchanges, hentries, hreads⟩ := h
  constructor <;> simp [told_snoc, he, hlookup, hsupplied, hreading] <;> omega

end Tally.Agrees

namespace Cache

open EntryCache.Action (Keeps)

variable {journal : ω → List (Event κ α)} {r : Registered ω κ α} {as : List (Access ω κ α β)}
variable {s t : Cache ω κ α × ω} {c : Cache ω κ α} {w : ω}

/-- The counters agree with what was told, with the entries, and with what was looked up and run. -/
def Balanced (journal : ω → List (Event κ α)) (as : List (Access ω κ α β))
    (s : Cache ω κ α × ω) : Prop :=
  ∃ n : Tally, s.1.stats.Shows n ∧ n.Agrees (journal s.2) s.1.entries.size as

structure Accounted (journal : ω → List (Event κ α)) (r : Registered ω κ α)
    (as : List (Access ω κ α β)) (s : Cache ω κ α × ω) : Prop where
  listened : s.1.Listened journal r
  balanced : Balanced journal as s

namespace Accounted

theorem of_quiet (h : Accounted journal r as s) (ht : Quiet journal r s t) :
    Accounted journal r as t := by
  obtain ⟨n, hshows, hagrees⟩ := h.balanced
  refine ⟨ht.listened, n, ?_, ?_⟩
  · rwa [ht.stats]
  · rwa [ht.journal, ht.entries]

theorem of_told (h : Accounted journal r as (c, w)) {e : Event κ α} {es : FiniteMap κ α}
    {m : Statistics} {n : Tally}
    {bs : List (Access ω κ α β)} (ht : Told journal e { c with entries := es, stats := m } (c, w) t)
    (hshows : m.Shows n) (hagrees : n.Agrees (journal w ++ [e]) es.size bs) :
    Accounted journal r bs t := by
  refine ⟨?_, n, ?_, ?_⟩
  · rw [ht.cache]
    exact h.listened.of_same es m
  · rwa [ht.cache]
  · rwa [ht.cache, ht.journal]

theorem storeValue (h : Accounted journal r as s) (hr : r.Hears journal) (k : κ) (v : α) :
    Accounted journal r as ((storeValue k v).run s).2 := by
  obtain ⟨c, w⟩ := s
  rcases h.listened.storeValue hr k v w with ht | ht
  · exact h.of_quiet ht
  · obtain ⟨n, hshows, hagrees⟩ := h.balanced
    refine h.of_told ht hshows.put ?_
    have hsize : (c.enter k v).entries.size = _ := FiniteMap.size_insert c.entries k v
    rw [hsize]
    exact hagrees.stored rfl

theorem deleteValue (h : Accounted journal r as s) (hr : r.Hears journal) (k : κ) :
    Accounted journal r as ((deleteValue k).run s).2 := by
  obtain ⟨c, w⟩ := s
  rcases h.listened.deleteValue hr k w with ht | ⟨o, hold, ht⟩
  · exact h.of_quiet ht
  · obtain ⟨n, hshows, hagrees⟩ := h.balanced
    rw [← FiniteMap.size_erase hold] at hagrees
    exact h.of_told ht hshows.removal (hagrees.removed rfl)

theorem compositional (hr : r.Hears journal) :
    Compositional fun _ op => Keeps (Accounted journal r as) op :=
  keeps_compositional (fun k v _ h => h.storeValue hr k v) fun k _ h => h.deleteValue hr k

variable {a : Access ω κ α β}

theorem idle (h : Accounted journal r as s) (ha : a.isSupplied = false)
    (hlookup : a.isLookup = false)
    (hreading : a.isReading = false) : Accounted journal r (as ++ [a]) s := by
  obtain ⟨n, hshows, hagrees⟩ := h.balanced
  exact ⟨h.listened, n, hshows, hagrees.accessed ha (by simp [hlookup, hreading])⟩

theorem hit (h : Accounted journal r as (c, w)) (ha : a.isSupplied = false)
    (hone : a.isLookup.toNat + a.isReading.toNat = 1) :
    Accounted journal r (as ++ [a]) (c.countHit, w) := by
  obtain ⟨n, hshows, hagrees⟩ := h.balanced
  exact ⟨h.listened.of_same _ _, _, hshows.hit, hagrees.accessed ha (by omega)⟩

theorem miss (h : Accounted journal r as (c, w)) (ha : a.isSupplied = false)
    (hone : a.isLookup.toNat + a.isReading.toNat = 1) :
    Accounted journal r (as ++ [a]) (c.countMiss, w) := by
  obtain ⟨n, hshows, hagrees⟩ := h.balanced
  exact ⟨h.listened.of_same _ _, _, hshows.miss, hagrees.accessed ha (by omega)⟩

theorem get (h : Accounted journal r as s) (hr : r.Hears journal) (k : κ) :
    Accounted journal r (as ++ [.lookup k s]) ((get k).run s).2 := by
  obtain ⟨c, w⟩ := s
  cases hclosed : c.closed with
  | true =>
    rw [Cache.get, Action.run_bind_of_error (run_ensureOpen_of_closed hclosed w)]
    exact h.idle (by simp [Access.isSupplied, hclosed]) (by simp [Access.isLookup, hclosed]) rfl
  | false =>
    have hlookup : (Access.lookup k (c, w) : Access ω κ α β).isLookup = true := by
      simp [Access.isLookup, hclosed]
    cases hk : c.entries.get? k with
    | some v =>
      rw [run_get_of_copied hclosed hk (h.listened.copies v)]
      exact h.hit (by simp [Access.isSupplied, FiniteMap.contains, hk]) (by rw [hlookup]; rfl)
    | none =>
      have hmapped : c.entries.contains k = false := by simp [FiniteMap.contains, hk]
      rw [run_get_of_unmapped hclosed hk]
      cases hl : c.loader? with
      | none =>
        have hsupplied : (Access.lookup k (c, w) : Access ω κ α β).isSupplied = false := by
          simp [Access.isSupplied, supplies, hl]
        exact h.miss hsupplied (by rw [hlookup]; rfl)
      | some l =>
        have hload := h.listened.loader l (loader_of_loader? hl) k
        have ht := (h.listened.of_same c.entries (c.stats.recordMisses 1)).readThrough hr hload w
        split at ht
        · next v hv =>
          have hsupplied : (Access.lookup k (c, w) : Access ω κ α β).isSupplied = true := by
            simp [Access.isSupplied, supplies, hclosed, hmapped, hl, hv]
          obtain ⟨n, hshows, hagrees⟩ := h.balanced
          have hsize : (c.entries.insert k v).size = c.entries.size + 1 := by
            simp [FiniteMap.size_insert, hk]
          refine h.of_told (e := eventFor c.name .created k (some v) none r) ⟨ht.cache, ht.journal⟩
            hshows.miss ?_
          rw [hsize]
          exact hagrees.loaded hlookup hsupplied rfl rfl
        · next hv =>
          have hsupplied : (Access.lookup k (c, w) : Access ω κ α β).isSupplied = false := by
            simp [Access.isSupplied, supplies, hl]
          exact (h.miss hsupplied (by rw [hlookup]; rfl)).of_quiet ht

theorem runStaged (h : Accounted journal r as s) (k : κ) (p : Processor α β) :
    Accounted journal r as ((runStaged k p).run s).2 := by
  obtain ⟨c, w⟩ := s
  cases hclosed : c.closed with
  | true => rwa [Cache.runStaged, Action.run_bind_of_error (run_ensureOpen_of_closed hclosed w)]
  | false =>
    rw [run_runStaged hclosed]
    cases current k c with
    | error e => exact h
    | ok v =>
      apply StagedEntry.keeps_run (I := fun w => Accounted journal r as (c, w)) _ p _ h
      intro load hload w₁ h₁
      obtain ⟨l, hl, rfl⟩ := Option.map_eq_some_iff.1 hload
      exact h₁.of_quiet (h₁.listened.quiet (h₁.listened.loader l (loader_of_loader? hl) k w₁))

theorem commit (h : Accounted journal r as s) (hr : r.Hears journal) (k : κ)
    {staged : StagedEntry α} (ha : a.isSupplied = false) (hlookup : a.isLookup = false)
    (hreading : a.isReading = match staged.outcome with | .ok .accessed => true | _ => false) :
    Accounted journal r (as ++ [a]) ((commit k staged).run s).2 := by
  have hedits : Compositional fun _ op => Keeps (Accounted journal r (as ++ [a])) op :=
    compositional hr
  rw [Cache.commit, Action.run_bind, Action.run_ofExcept]
  cases ho : staged.outcome with
  | error e =>
    rw [ho] at hreading
    exact h.idle ha hlookup hreading
  | ok o =>
    rw [ho] at hreading
    cases o with
    | nothing => exact h.idle ha hlookup hreading
    | accessed => exact h.hit ha (by rw [hlookup, hreading]; rfl)
    | loaded v => exact (hedits.discard (hedits.stores k v)) s (h.idle ha hlookup hreading)
    | created v => exact (hedits.discard (hedits.stores k v)) s (h.idle ha hlookup hreading)
    | updated v => exact (hedits.discard (hedits.stores k v)) s (h.idle ha hlookup hreading)
    | removed => exact (hedits.discard (hedits.deletes k)) s (h.idle ha hlookup hreading)

theorem invokeRaw (h : Accounted journal r as s) (hr : r.Hears journal) {k : κ} {p : Processor α β}
    (ha : a.isSupplied = false) (hlookup : a.isLookup = false)
    (hreading : a.isReading = onlyReads k p s) :
    Accounted journal r (as ++ [a]) (invokeRaw k p s).2 := by
  have hrun := h.runStaged k p
  unfold onlyReads at hreading
  unfold Cache.invokeRaw
  rw [Action.run] at hrun hreading
  split
  · next hs =>
    rw [hs] at hrun hreading
    exact hrun.idle ha hlookup hreading
  · next hs =>
    rw [hs] at hrun hreading
    exact hrun.idle ha hlookup hreading
  · next staged t hs =>
    rw [hs] at hrun hreading
    exact hrun.commit hr k ha hlookup hreading

theorem onlyReads_map (f : Error → Error) (k : κ) (p : Processor α β) (s : Cache ω κ α × ω) :
    onlyReads k (p.map (·.mapError f)) s = onlyReads k p s := by
  rw [onlyReads, onlyReads, run_runStaged_map]
  rcases (Cache.runStaged k p).run s with ⟨e | ⟨e | b, staged⟩, t⟩ <;> rfl

theorem invoke (h : Accounted journal r as s) (hr : r.Hears journal) (k : κ) (p : Processor α β) :
    Accounted journal r (as ++ [.invocation k p s]) ((invoke k p).run s).2 :=
  h.invokeRaw hr rfl rfl (onlyReads_map _ k p s).symm

theorem getEach (h : Accounted journal r as s) (hr : r.Hears journal) (ks : List κ)
    (found : FiniteMap κ α) :
    Accounted journal r (as ++ lookups ks s) ((getEach found ks).run s).2 := by
  induction ks generalizing as s found with
  | nil =>
    rw [lookups, List.append_nil]
    exact h
  | cons k ks ih =>
    have hget := h.get hr k
    rw [lookups, Cache.getEach, Action.run_bind, List.append_cons]
    rcases hrun : (Cache.get k).run s with ⟨e | v, t⟩ <;> rw [hrun] at hget
    · rw [List.append_nil]
      exact hget
    · cases v with
      | none => exact ih hget found
      | some v => exact ih hget (found.insert k v)

theorem getOrPutWith (h : Accounted journal r as s) (hr : r.Hears journal) {k : κ}
    {compute : κ → Action ω α} (hcompute : (compute k).Leaves journal) :
    Accounted journal r (as ++ [.lookup k s]) ((getOrPutWith k compute).run s).2 := by
  have hget := h.get hr k
  rw [Cache.getOrPutWith, Action.run_bind]
  rcases hrun : (Cache.get k).run s with ⟨e | v, t⟩ <;> rw [hrun] at hget
  · exact hget
  · cases v with
    | some v => exact hget
    | none =>
      have hworld : Keeps (Accounted journal r (as ++ [.lookup k s]))
        ((compute k).beside : Op ω κ α α) :=
        .beside fun c w h => h.of_quiet (h.listened.quiet (hcompute w))
      exact hworld.bind (fun v => ((compositional hr).put k v).bind fun _ => .pure v) t hget

theorem resultsOf (h : Accounted journal r as s) (hr : r.Hears journal) (p : κ → Processor α β)
    (ks : List κ) : Accounted journal r (as ++ invocations p ks s)
      (resultsOf (fun k => invokeAround id k (p k)) ks s).2 := by
  induction ks generalizing as s with
  | nil =>
    rw [invocations, List.append_nil]
    exact h
  | cons k ks ih =>
    rw [invocations, List.append_cons]
    exact ih (h.invoke hr k (p k))

theorem operation [DecidableEq α] (h : Accounted journal r as s) (hr : r.Hears journal)
    {op : Operation ω κ α β}
    (hleaves : op.Leaves journal) (hheard : op.HeardBy r.handle) (hcounts : op.KeepsCounts) :
    Accounted journal r (as ++ op.accesses s) (op.run id s).2 := by
  have hadmits : op.Admits (Accounted journal r as) :=
    Listened.admits_of_quiet of_quiet Accounted.listened hheard hleaves
  have hreply {γ : Type} {f : γ → Reply κ α β} {a : Op ω κ α γ} {bs : List (Access ω κ α β)}
      (hbs : Accounted journal r bs (a.run s).2) : Accounted journal r bs ((a.as f).run s).2 := by
    rwa [Op.run_as]
  have hnone (hop : op.accesses s = []) (hs : Accounted journal r as (op.run id s).2) :
      Accounted journal r (as ++ op.accesses s) (op.run id s).2 := by
    rwa [hop, List.append_nil]
  have hedits (hop : op.Edits) : Accounted journal r as (op.run id s).2 :=
    (compositional hr).run hop s h
  cases op with
  | get k => exact hreply (h.get hr k)
  | getAll ks => exact hreply (h.getEach hr ks ∅)
  | getOrPutWith k compute => exact hreply (h.getOrPutWith hr hleaves)
  | invoke k p => exact hreply (h.invoke hr k p)
  | invokeAll ks p => exact h.resultsOf hr p ks
  | invokeRaw k p => exact h.invokeRaw hr rfl rfl rfl
  | clearStatistics => exact hcounts.elim
  | loadAll ks all l => exact hheard.elim
  | clear => exact hheard.elim
  | register handle config => exact hnone rfl (Op.keeps_as hadmits s h)
  | deregister handle => exact hnone rfl (Op.keeps_as hadmits s h)
  | close => exact hnone rfl (Op.keeps_as hadmits s h)
  | _ => exact hnone rfl (hedits trivial)

theorem runAll [DecidableEq α] (hr : r.Hears journal) {ops : List (Operation ω κ α β)}
    (hops : ∀ op ∈ ops, op.Leaves journal ∧ op.HeardBy r.handle ∧ op.KeepsCounts)
    (h : Accounted journal r as s) :
    Accounted journal r (as ++ Operation.accessesAll ops s) (Operation.runAll ops s).2 := by
  induction ops generalizing as s with
  | nil =>
    rw [Operation.accessesAll, List.append_nil]
    exact h
  | cons op ops ih =>
    obtain ⟨hleaves, hheard, hcounts⟩ := hops op List.mem_cons_self
    rw [Operation.accessesAll, ← List.append_assoc]
    exact ih (fun op' hop => hops op' (List.mem_cons_of_mem _ hop))
      (h.operation hr hleaves hheard hcounts)

end Accounted

/-- From a new cache on, what the counters show balances with what the first listener was told,
after every run of operations that it hears of and that do not reset them. -/
theorem balanced_runAll [DecidableEq α] (hr : r.Hears journal) (hc : c.Listened journal r)
    (hnew : c.entries = ∅)
    (hstats : c.stats = default) (hw : journal w = []) {ops : List (Operation ω κ α β)}
    (hops : ∀ op ∈ ops, op.Leaves journal ∧ op.HeardBy r.handle ∧ op.KeepsCounts) :
    Balanced journal (Operation.accessesAll ops (c, w)) (Operation.runAll ops (c, w)).2 := by
  have hstart : Accounted journal r ([] : List (Access ω κ α β)) (c, w) := by
    refine ⟨hc, ⟨0, 0, 0, 0⟩, ?_, ?_⟩
    · rw [hstats]
      exact ⟨rfl, rfl, rfl, rfl⟩
    · rw [hw, hnew]
      exact ⟨rfl, rfl, rfl, rfl⟩
  exact (hstart.runAll hr hops).balanced

/-- Two reads load a value and one finds it; a processor reads, another writes, and a removal fails
when it is done. -/
theorem balanced_runAll_failing :
    let others : List (ListenerConfiguration (Notes Nat Nat) Nat Nat) :=
      [⟨.singleton 4 Notes.grumbler, none, false, true⟩]
    let c :=
      (create "c" (Notes.configuration (fun k => if k < 3 then some (10 * k) else none) true others)
        .ok {}).1
    let set : Processor Nat Unit := .set 31 (.done (.ok ()))
    let read : Processor Nat Unit := .value fun _ => .done (.ok ())
    let ops : List (Operation (Notes Nat Nat) Nat Nat Unit) :=
      [.getAll [1, 2, 4, 1], .put 3 30, .invoke 3 set, .invokeAll [3, 5] fun _ => read, .remove 2,
        .close, .get 1]
    let s := (Operation.runAll ops (c, {})).2
    let as := Operation.accessesAll ops (c, {})
    (s.1.stats = { hits := 2, misses := 3, puts := 2, removals := 1 } ∧
      as.countP Access.isSupplied = 2 ∧
      s.2.events.map Event.type = [.created, .created, .created, .updated, .removed] ∧
      s.1.entries.size = 2) ∧
      Balanced Notes.events as s := by
  intro others c set read ops s as
  have hc : c.Listened Notes.events Notes.registered := Notes.listened ..
  have hops : ∀ op ∈ ops, op.Leaves Notes.events ∧ op.HeardBy (.initial 0) ∧ op.KeepsCounts := by
    simp [ops, Operation.Leaves, Operation.HeardBy, Operation.KeepsCounts]
  exact ⟨by decide +kernel, balanced_runAll Notes.records.hears hc rfl rfl rfl hops⟩

end Cache

end EntryCache
