import EntryCache.Proofs.Plain.Batch
import EntryCache.Proofs.Wire.RoundTrip
import Mathlib.Data.List.Forall2

namespace EntryCache.Cache

variable {ω κ α β γ : Type} [DecidableEq κ]

/-- What a map answers: a reply, or the entries that a reply is to list, in whatever order. -/
inductive MapAnswer (κ α β : Type) : Type
  | reply (r : Reply κ α β)
  | listing (m : Table κ α)

inductive MapAnswer.Shown : MapAnswer κ α β → Reply κ α β → Prop
  | reply (r : Reply κ α β) : Shown (.reply r) r
  | listing {m : Table κ α} {es : List (κ × α)} : (es.map Prod.fst).Nodup →
      (∀ k v, (k, v) ∈ es ↔ m k = some v) → Shown (.listing m) (.entries es)

inductive Agrees : Except Error (MapAnswer κ α β) → Except Error (Reply κ α β) → Prop
  | ok {a : MapAnswer κ α β} {r : Reply κ α β} : a.Shown r → Agrees (.ok a) (.ok r)
  | error (e : Error) : Agrees (.error e) (.error e)

namespace Operation

def replies (r : Reply κ α β) (m : Table κ α) (w : ω) :
    Except Error (MapAnswer κ α β) × (Table κ α × ω) :=
  (.ok (.reply r), (m, w))

def onMap [DecidableEq α] (m : Table κ α) (w : ω) :
    Operation ω κ α β → Except Error (MapAnswer κ α β) × (Table κ α × ω)
  | .get k => replies (.value (m k)) m w
  | .getAll ks => (.ok (.listing fun k => if k ∈ ks then m k else none), (m, w))
  | .containsKey k => replies (.truth (m k).isSome) m w
  | .loadAll _ _ listener =>
    let (r, w) := (onSome listener (·.onCompletion)).run w
    (r.map fun _ => .reply .done, (m, w))
  | .put k v => replies .done (m.put k v) w
  | .getAndPut k v => replies (.value (m k)) (m.put k v) w
  | .putAll es => replies .done (m.putAll es) w
  | .putIfAbsent k v => replies (.truth (m k).isNone) (if (m k).isNone then m.put k v else m) w
  | .remove k => replies (.truth (m k).isSome) (m.remove k) w
  | .removeIfEquals k old => replies (.truth (m k = some old))
      (if m k = some old then m.remove k else m) w
  | .getAndRemove k => replies (.value (m k)) (m.remove k) w
  | .replaceIfEquals k old new =>
      replies (.truth (m k = some old)) (if m k = some old then m.put k new else m) w
  | .replace k v => replies (.truth (m k).isSome) (if (m k).isSome then m.put k v else m) w
  | .getAndReplace k v => replies (.value (m k)) (if (m k).isSome then m.put k v else m) w
  | .removeKeys ks => replies .done (m.removeAll ks) w
  | .removeAll => replies .done (fun _ => none) w
  | .clear => replies .done (fun _ => none) w
  | .entries => (.ok (.listing m), (m, w))
  | .invoke k p => ((m.invoke k p).1.map fun b => .reply (.output b), ((m.invoke k p).2, w))
  | .invokeAll ks p => replies (.outputs (m.invokeAll p ks).1) (m.invokeAll p ks).2 w
  | .invokeRaw k p => replies (.raw (m.invokeRaw k p).1) (m.invokeRaw k p).2 w
  | .getOrPutWith k compute =>
    match m k with
    | some v => replies (.value (some v)) m w
    | none =>
      match (compute k).run w with
      | (.ok v, w) => replies (.value (some v)) (m.put k v) w
      | (.error e, w) => (.error e, (m, w))
  -- A map has neither listeners nor statistics.
  | _ => replies .done m w

def runAllOnMap [DecidableEq α] (ops : List (Operation ω κ α β)) (s : Table κ α × ω) :
    List (Except Error (MapAnswer κ α β)) × (Table κ α × ω) :=
  match ops with
  | [] => ([], s)
  | op :: ops =>
    let (r, s) := op.onMap s.1 s.2
    let (rs, s) := runAllOnMap ops s
    (r :: rs, s)

/-- A cache is not plain any more once it has a listener, or is closed. -/
def KeepsPlain : Operation ω κ α β → Prop
  | .register _ _ => False
  | .close => False
  | _ => True

def Brings (P : α → Prop) : Operation ω κ α β → Prop
  | .put _ v => P v
  | .getAndPut _ v => P v
  | .putAll es => ∀ p ∈ es, P p.2
  | .putIfAbsent _ v => P v
  | .replaceIfEquals _ _ new => P new
  | .replace _ v => P v
  | .getAndReplace _ v => P v
  | .invoke _ p => p.Brings P
  | .invokeAll ks p => ∀ k ∈ ks, (p k).Brings P
  | .invokeRaw _ p => p.Brings P
  | .getOrPutWith k compute => ∀ w v w', (compute k).run w = (.ok v, w') → P v
  | _ => True

end Operation

variable {P : α → Prop} {m : Table κ α} {c : Cache ω κ α} {w : ω} {s : Cache ω κ α × ω}
  {r : Except Error γ}
  {t : Table κ α × ω} {op : Op ω κ α γ}

theorem Gives.agrees (f : γ → Reply κ α β) (h : Gives P s op r t) :
    ∃ r', Agrees (r.map fun x => .reply (f x)) r' ∧ Gives P s (op.as f) r' t := by
  refine ⟨r.map f, ?_, ?_⟩
  · cases r with
    | error e => exact .error e
    | ok x => exact .ok (.reply _)
  · rw [Op.as, bind_pure_comp]
    exact h.map f

theorem Gives.lists {m' : Table κ α} {es : List (κ × α)} {f : γ → Reply κ α β} {x : γ}
    (h : Gives P s op (.ok x) t) (hf : f x = .entries es) (hkeys : (es.map Prod.fst).Nodup)
    (hes : ∀ k v, (k, v) ∈ es ↔ m' k = some v) :
    ∃ r', Agrees (.ok (.listing m')) r' ∧ Gives P s (op.as f) r' t := by
  refine ⟨.ok (f x), .ok ?_, ?_⟩
  · rw [hf]
    exact .listing hkeys hes
  · rw [Op.as, bind_pure_comp]
    exact h.map f

theorem Plain.operation [DecidableEq α] (h : c.Plain P m) {op : Operation ω κ α β}
    (hop : op.KeepsPlain) (hp : op.Brings P) (w : ω) :
    ∃ r, Agrees (op.onMap m w).1 r ∧ Gives P (c, w) (op.run id) r (op.onMap m w).2 := by
  cases op with
  | get k => exact (h.get k).agrees _
  | getAll ks =>
    refine (h.getEach ∅ ks).lists rfl (m.gather ∅ ks).nodup fun k v => ?_
    rw [FiniteMap.mem_toList_iff, Table.get?_gather, FiniteMap.get?_empty, Option.or_none]
  | containsKey k => exact (h.containsKey k).agrees _
  | loadAll ks all listener => exact (h.loadAll ks all listener).agrees fun _ => .done
  | put k v => exact (h.put k hp).agrees fun _ => .done
  | getAndPut k v => exact (h.getAndPut k hp).agrees _
  | putAll es => exact (h.putAll hp).agrees fun _ => .done
  | putIfAbsent k v => exact (h.putIfAbsent k hp).agrees _
  | remove k => exact (h.remove k).agrees _
  | removeIfEquals k old => exact (h.removeIfEquals k old).agrees _
  | getAndRemove k => exact (h.getAndRemove k).agrees _
  | replaceIfEquals k old new => exact (h.replaceIfEquals k old hp).agrees _
  | replace k v => exact (h.replace k hp).agrees _
  | getAndReplace k v => exact (h.getAndReplace k hp).agrees _
  | removeKeys ks => exact (h.removeKeys ks).agrees fun _ => .done
  | removeAll => exact h.removeAll.agrees fun _ => .done
  | clear => exact h.clear.agrees fun _ => .done
  | entries =>
    refine h.listEntries.lists rfl c.entries.nodup fun k v => ?_
    rw [FiniteMap.mem_toList_iff, h.get?]
  | invoke k p => exact (h.invoke k hp).agrees _
  | invokeAll ks p =>
    obtain ⟨c', hrun, hc'⟩ := h.invokeAll (w := w) hp
    refine ⟨_, .ok (.reply _), c', ?_, hc'⟩
    change (Except.ok (Reply.outputs (resultsOf _ ks (c, w)).1), (resultsOf _ ks (c, w)).2) = _
    rw [hrun]
    rfl
  | invokeRaw k p =>
    obtain ⟨c', hrun, hc'⟩ := h.invokeRaw (w := w) k hp
    refine ⟨_, .ok (.reply _), c', ?_, hc'⟩
    change (Except.ok (Reply.raw (Cache.invokeRaw k p (c, w)).1), (Cache.invokeRaw k p (c, w)).2) =
      _
    rw [hrun]
    rfl
  | getOrPutWith k compute =>
    have hgives := h.getOrPutWith (w := w) k (hp w)
    rw [Operation.onMap]
    cases hk : m k with
    | some v =>
      rw [hk] at hgives
      exact hgives.agrees fun v => .value (some v)
    | none =>
      cases hrun : (compute k).run w with
      | mk r w' =>
        rw [hk, hrun] at hgives
        cases r with
        | error e => exact hgives.agrees fun v => .value (some v)
        | ok v => exact hgives.agrees fun v => .value (some v)
  | register handle config => exact hop.elim
  | deregister handle => exact (h.deregisterListener handle).agrees fun _ => .done
  | clearStatistics =>
    have hgives : Gives P (c, w) (update fun c => { c with stats := default }) (.ok ()) (m, w) :=
      ⟨_, run_update .., h.count default⟩
    exact hgives.agrees fun _ => .done
  | close => exact hop.elim

theorem Plain.runAll [DecidableEq α] (h : c.Plain P m) {ops : List (Operation ω κ α β)}
    (hops : ∀ op ∈ ops, op.KeepsPlain ∧ op.Brings P) (w : ω) :
    List.Forall₂ Agrees (Operation.runAllOnMap ops (m, w)).1 (Operation.runAll ops (c, w)).1 ∧
      ∃ c', (Operation.runAll ops (c, w)).2 = (c', (Operation.runAllOnMap ops (m, w)).2.2) ∧
        c'.Plain P (Operation.runAllOnMap ops (m, w)).2.1 := by
  induction ops generalizing c m w with
  | nil => exact ⟨.nil, c, rfl, h⟩
  | cons op ops ih =>
    have hop := hops op List.mem_cons_self
    obtain ⟨r, hr, c', hrun, hc'⟩ := h.operation hop.1 hop.2 w
    obtain ⟨hrs, hend⟩ := ih hc' (fun o ho => hops o (List.mem_cons_of_mem _ ho)) (op.onMap m w).2.2
    change op.run id (c, w) = _ at hrun
    simp only [Operation.runAll, Operation.runAllOnMap, hrun]
    exact ⟨.cons hr hrs, hend⟩

/-- Runs of operations on an open cache without loader, writer and listeners are runs on the map of
its entries, for all types of values, however they are stored. -/
theorem runAll_refines_map {t : ValueType} [DecidableEq t.Carrier] {c : Cache ω κ t.Carrier}
    {byValue : Bool}
    (hcopy : c.copy = t.copy byValue) (hopen : c.closed = false) (hloader : c.loader = none)
    (hwriter : c.writer = none) (hlisteners : c.listeners = [])
    (hfits : ∀ k, ∀ v ∈ c.entries.get? k, t.Fits byValue v) {ops : List (Operation ω κ t.Carrier β)}
    (hops : ∀ op ∈ ops, op.KeepsPlain ∧ op.Brings (t.Fits byValue)) (w : ω) :
    let cache := Operation.runAll ops (c, w)
    let map := Operation.runAllOnMap ops (c.entries.get?, w)
    List.Forall₂ Agrees map.1 cache.1 ∧ cache.2.1.entries.get? = map.2.1 ∧ cache.2.2 = map.2.2 := by
  intro cache map
  have hplain : c.Plain (t.Fits byValue) c.entries.get? := by
    refine ⟨hopen, hloader, hwriter, hlisteners, fun v hv => ?_, rfl, hfits⟩
    rw [hcopy]
    exact ValueType.copy_eq hv
  obtain ⟨hanswers, c', hend, hc'⟩ := hplain.runAll hops w
  exact ⟨hanswers, (congrArg (·.1.entries.get?) hend).trans hc'.mapped, congrArg Prod.snd hend⟩

theorem runAll_refines_map_text :
    let c := (create "c" (Configuration.new 0) (ValueType.text.copy true) () : Cache Unit String
      String × Unit).1
    let ops : List (Operation Unit String String Unit) :=
      [.put "a" "x", .getAndPut "a" "y", .invoke "b" (.set "z" (.done (.ok ()))),
        .getAll ["a", "b"], .removeKeys ["a"]]
    let cache := Operation.runAll ops (c, ())
    let map := Operation.runAllOnMap ops (c.entries.get?, ())
    (map.2.1 "a" = none ∧ map.2.1 "b" = some "z") ∧
      List.Forall₂ Agrees map.1 cache.1 ∧ cache.2.1.entries.get? = map.2.1 ∧
      cache.2.2 = map.2.2 := by
  intro c ops cache map
  have hcopy : c.copy = ValueType.text.copy true := rfl
  refine ⟨⟨by decide, by decide⟩, runAll_refines_map (t := .text) hcopy rfl rfl rfl rfl nofun ?_ ()⟩
  simp [ops, Operation.KeepsPlain, Operation.Brings, Processor.Brings, ValueType.Fits]
  decide

end EntryCache.Cache
