import EntryCache.Proofs.Backing.Store
import EntryCache.Proofs.Staging.Cell

namespace EntryCache

variable {ω κ α β γ δ : Type} [DecidableEq κ]

namespace Table

def put (m : Table κ α) (k : κ) (v : α) : Table κ α := Function.update m k (some v)

def remove (m : Table κ α) (k : κ) : Table κ α := Function.update m k none

end Table

namespace Cache

/-- A plain cache that maps `m`; values with the property `P` have faithful copies, and all values
of `m` have it. -/
structure Plain (P : α → Prop) (m : Table κ α) (c : Cache ω κ α) : Prop where
  opened : c.closed = false
  loader : c.loader = none
  writer : c.writer = none
  listeners : c.listeners = []
  copies : ∀ v, P v → c.copy v = .ok v
  mapped : c.entries.get? = m
  holds : ∀ k, ∀ v ∈ m k, P v

def Gives (P : α → Prop) (s : Cache ω κ α × ω) (op : Op ω κ α γ) (r : Except Error γ)
    (t : Table κ α × ω) : Prop :=
  ∃ c, op.run s = (r, (c, t.2)) ∧ c.Plain P t.1

variable {P : α → Prop} {m : Table κ α} {c : Cache ω κ α} {w : ω} {s : Cache ω κ α × ω}
  {r : Except Error γ}
  {t u : Table κ α × ω} {op : Op ω κ α γ}

namespace Gives

theorem map (f : γ → δ) (h : Gives P s op r t) : Gives P s (f <$> op) (r.map f) t := by
  obtain ⟨c, hrun, hc⟩ := h
  exact ⟨c, by rw [Action.run_map, hrun], hc⟩

theorem after {x : γ} {s' : Cache ω κ α × ω} {f : γ → Op ω κ α δ} {r : Except Error δ}
    (hrun : op.run s = (.ok x, s')) (h : Gives P s' (f x) r t) : Gives P s (op >>= f) r t := by
  obtain ⟨c, hrun', hc⟩ := h
  exact ⟨c, by rw [Action.run_bind_of_ok hrun, hrun'], hc⟩

theorem bind {x : γ} {f : γ → Op ω κ α δ} {r : Except Error δ} (h : Gives P s op (.ok x) t)
    (hf : ∀ c, c.Plain P t.1 → Gives P (c, t.2) (f x) r u) : Gives P s (op >>= f) r u := by
  obtain ⟨c, hrun, hc⟩ := h
  exact .after hrun (hf c hc)

end Gives

namespace Plain

theorem pure (h : c.Plain P m) (x : γ) : Gives P (c, w) (pure x) (.ok x) (m, w) := ⟨c, rfl, h⟩

theorem look (h : c.Plain P m) (g : Cache ω κ α → γ) :
    Gives P (c, w) (look g) (.ok (g c)) (m, w) := ⟨c, rfl, h⟩

theorem open_bind (h : c.Plain P m) {f : Unit → Op ω κ α γ} (hf : Gives P (c, w) (f ()) r t) :
    Gives P (c, w) (ensureOpen >>= f) r t := .after (run_ensureOpen h.opened w) hf

theorem get? (h : c.Plain P m) (k : κ) : c.entries.get? k = m k := congrFun h.mapped k

theorem contains (h : c.Plain P m) (k : κ) :
    c.entries.contains k = (m k).isSome := congrArg Option.isSome (h.get? k)

theorem count (h : c.Plain P m) (n : Statistics) : Plain P m { c with stats := n } :=
  ⟨h.opened, h.loader, h.writer, h.listeners, h.copies, h.mapped, h.holds⟩

theorem loader? (h : c.Plain P m) : c.loader? = none := by
  simp [Cache.loader?, h.loader]

theorem writer? (h : c.Plain P m) : c.writer? = none := by
  simp [Cache.writer?, h.writer]

theorem remap (h : c.Plain P m) {k : κ} {x : Option α} {es : FiniteMap κ α}
    (hes : es.get? = Function.update c.entries.get? k x) (hx : ∀ v ∈ x, P v) (n : Statistics) :
    Plain P (Function.update m k x) { c with entries := es, stats := n } := by
  refine ⟨h.opened, h.loader, h.writer, h.listeners, h.copies, ?_, ?_⟩
  · rw [← h.mapped]
    exact hes
  · intro j v hv
    rw [Function.update_apply] at hv
    split at hv
    · exact hx v hv
    · exact h.holds j v hv

theorem run_notify (h : c.Plain P m) (e : EventType) (k : κ) (value old : Option α) (w : ω) :
    (notify e k value old).run (c, w) = (.ok (), (c, w)) :=
  run_notify_of_no_listeners h.listeners ..

theorem run_copied (h : c.Plain P m) {v : α} (hv : P v) (w : ω) :
    (copied v).run (c, w) = (.ok v, (c, w)) := by
  rw [Cache.run_copied, h.copies v hv]

theorem storeValue (h : c.Plain P m) (k : κ) {v : α} (hv : P v) :
    Gives P (c, w) (storeValue k v) (.ok (m k)) (m.put k v, w) := by
  have hwrite := run_writeThrough k v c w
  rw [h.writer?] at hwrite
  have hput : (c.enter k v).countPut.Plain P (m.put k v) :=
    h.remap (FiniteMap.get?_insert_eq_update ..) (by simpa using hv) _
  refine ⟨(c.enter k v).countPut, ?_, hput⟩
  rw [run_storeValue_of_written hwrite (h.copies v hv), h.get?]
  cases m k with
  | none => exact Action.run_bind_of_ok (hput.run_notify ..)
  | some o => exact Action.run_bind_of_ok (hput.run_notify ..)

theorem deleteValue (h : c.Plain P m) (k : κ) :
    Gives P (c, w) (deleteValue k) (.ok (m k)) (m.remove k, w) := by
  have hdelete := run_deleteThrough k c w
  rw [h.writer?] at hdelete
  cases hk : m k with
  | none =>
    refine ⟨c, run_deleteValue_of_absent hdelete ((h.get? k).trans hk), ?_⟩
    rwa [Table.remove, ← hk, Function.update_eq_self]
  | some o =>
    have hremove : (c.without k).Plain P (m.remove k) :=
      h.remap (FiniteMap.get?_erase_eq_update ..) nofun _
    refine ⟨c.without k, ?_, hremove⟩
    rw [run_deleteValue_of_mapped hdelete ((h.get? k).trans hk)]
    exact Action.run_bind_of_ok (hremove.run_notify ..)

theorem get (h : c.Plain P m) (k : κ) : Gives P (c, w) (get k) (.ok (m k)) (m, w) := by
  apply h.open_bind
  apply Gives.after (run_look _ _)
  simp only [h.get?]
  cases hk : m k with
  | some v =>
    have hcopy := h.run_copied (h.holds k v hk) w
    exact .after hcopy (.after (run_update ..) ((h.count _).pure _))
  | none =>
    apply Gives.after (run_update ..)
    apply Gives.after (run_look _ _)
    have hload : c.countMiss.loader? = none := h.loader?
    simp only [hload]
    exact (h.count _).pure none

theorem containsKey (h : c.Plain P m) (k : κ) :
    Gives P (c, w) (containsKey k) (.ok (m k).isSome) (m, w) := by
  apply h.open_bind
  rw [← h.contains k]
  exact h.look _

theorem getAndPut (h : c.Plain P m) (k : κ) {v : α} (hv : P v) :
    Gives P (c, w) (getAndPut k v) (.ok (m k)) (m.put k v, w) := h.open_bind (h.storeValue k hv)

theorem put (h : c.Plain P m) (k : κ) {v : α} (hv : P v) :
    Gives P (c, w) (Cache.put k v) (.ok ()) (m.put k v, w) :=
  h.open_bind ((h.storeValue k hv).map _)

theorem putIfAbsent (h : c.Plain P m) (k : κ) {v : α} (hv : P v) :
    Gives P (c, w) (putIfAbsent k v) (.ok (m k).isNone)
      (if (m k).isNone then m.put k v else m, w) := by
  apply h.open_bind
  apply Gives.after (run_look _ _)
  simp only [h.contains]
  cases m k with
  | some o => exact h.pure false
  | none => exact ((h.storeValue k hv).map _).bind fun _ hc => hc.pure true

theorem getAndRemove (h : c.Plain P m) (k : κ) :
    Gives P (c, w) (getAndRemove k) (.ok (m k)) (m.remove k, w) :=
  h.open_bind (h.deleteValue k)

theorem remove (h : c.Plain P m) (k : κ) :
    Gives P (c, w) (Cache.remove k) (.ok (m k).isSome) (m.remove k, w) :=
  h.open_bind ((h.deleteValue k).bind fun _ hc => hc.pure _)

theorem onlyIf (h : c.Plain P m) (p : Prop) [Decidable p] {x : γ} {m' : Table κ α}
    (hop : Gives P (c, w) op (.ok x) (m', w)) :
    Gives P (c, w) (if p then do discard op; return true else return false) (.ok (decide p))
      (if p then m' else m, w) := by
  by_cases hp : p
  · simp only [hp, if_true, decide_true]
    exact (hop.map _).bind fun _ hc => hc.pure true
  · simp only [hp, if_false, decide_false]
    exact h.pure false

theorem removeIfEquals [DecidableEq α] (h : c.Plain P m) (k : κ) (old : α) :
    Gives P (c, w) (removeIfEquals k old) (.ok (decide (m k = some old)))
      (if m k = some old then m.remove k else m, w) := by
  apply h.open_bind
  apply Gives.after (run_look _ _)
  rw [h.get?]
  exact h.onlyIf _ (h.deleteValue k)

theorem replaceIfEquals [DecidableEq α] (h : c.Plain P m) (k : κ) (old : α) {new : α}
    (hnew : P new) : Gives P (c, w) (replaceIfEquals k old new) (.ok (decide (m k = some old)))
      (if m k = some old then m.put k new else m, w) := by
  apply h.open_bind
  apply Gives.after (run_look _ _)
  rw [h.get?]
  exact h.onlyIf _ (h.storeValue k hnew)

theorem getAndReplace (h : c.Plain P m) (k : κ) {v : α} (hv : P v) :
    Gives P (c, w) (getAndReplace k v) (.ok (m k)) (if (m k).isSome then m.put k v else m, w) := by
  apply h.open_bind
  apply Gives.after (run_look _ _)
  simp only [h.contains]
  have hstore := h.storeValue (w := w) k hv
  cases hk : m k with
  | some o =>
    rw [hk] at hstore
    exact hstore
  | none => exact h.pure none

theorem replace (h : c.Plain P m) (k : κ) {v : α} (hv : P v) :
    Gives P (c, w) (replace k v) (.ok (m k).isSome) (if (m k).isSome then m.put k v else m, w) :=
  (h.getAndReplace k hv).bind fun _ hc => hc.pure _

theorem getOrPutWith (h : c.Plain P m) (k : κ) {compute : κ → Action ω α}
    (hv : ∀ v w', (compute k).run w = (.ok v, w') → P v) :
    match m k, (compute k).run w with
    | some v, _ => Gives P (c, w) (getOrPutWith k compute) (.ok v) (m, w)
    | none, (.ok v, w') => Gives P (c, w) (getOrPutWith k compute) (.ok v) (m.put k v, w')
    | none, (.error e, w') => Gives P (c, w) (getOrPutWith k compute) (.error e) (m, w') := by
  have hget := h.get (w := w) k
  cases hk : m k with
  | some v =>
    rw [hk] at hget
    exact hget.bind fun _ hc => hc.pure v
  | none =>
    rw [hk] at hget
    cases hrun : (compute k).run w with
    | mk r w' =>
      cases r with
      | error e =>
        obtain ⟨c', hrun', hc⟩ := hget
        refine ⟨c', ?_, hc⟩
        rw [Cache.getOrPutWith, Action.run_bind_of_ok hrun']
        exact Action.run_bind_of_error (by rw [Action.run_beside, hrun])
      | ok v =>
        refine hget.bind fun c' hc => ?_
        have hcompute : (compute k).beside.run (c', w) = (.ok v, (c', w')) := by
          rw [Action.run_beside, hrun]
        exact .after hcompute ((hc.put k (hv v w' hrun)).bind fun _ hc => hc.pure v)

end Plain

end Cache

end EntryCache
