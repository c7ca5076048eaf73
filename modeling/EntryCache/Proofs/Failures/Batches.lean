import EntryCache.Proofs.Failures.Changes

namespace EntryCache

variable {σ τ ρ ω κ α β γ : Type} [DecidableEq κ]

namespace Action

omit [DecidableEq κ]

theorem forEach_map (f : β → Action σ Unit) (g : γ → β) (xs : List γ) :
    forEach f (xs.map g) = forEach (fun x => f (g x)) xs := by
  induction xs with
  | nil => rfl
  | cons x xs ih => rw [List.map_cons, forEach, ih, forEach]

end Action

structure FailsOnlyWith (answers : List (Except Error Unit)) (r : Except Error γ) : Prop where
  fails : FailsWith answers r
  blames : ∀ err, r = .error err → ∃ e, .error e ∈ answers

namespace FailsOnlyWith

omit [DecidableEq κ]

variable {xs ys : List (Except Error Unit)}

theorem nil (x : γ) : FailsOnlyWith [] (.ok x) := ⟨.nil _, nofun⟩

theorem of_error {e : Error} (h : FailsOnlyWith xs (.error e : Except Error β)) :
    FailsOnlyWith xs (.error e : Except Error γ) := ⟨h.fails.of_error, fun _ _ => h.blames e rfl⟩

theorem map {r : Except Error β} (h : FailsOnlyWith xs r) (f : β → γ) :
    FailsOnlyWith xs (r.map f) := by
  refine ⟨h.fails.map f, fun err herr => ?_⟩
  cases r with
  | error e => exact h.blames e rfl
  | ok x => cases herr

theorem append {x : β} {r : Except Error γ} (hx : FailsOnlyWith xs (.ok x))
    (hy : FailsOnlyWith ys r) : FailsOnlyWith (xs ++ ys) r := by
  refine ⟨hx.fails.append hy.fails, fun err herr => ?_⟩
  obtain ⟨e, he⟩ := hy.blames err herr
  exact ⟨e, List.mem_append_right xs he⟩

theorem ended (r : Except Error γ) : FailsOnlyWith [EntryCache.ended r] r := by
  rcases r with e | x
  · refine ⟨fun e' he => ?_, fun _ _ => ⟨e, List.mem_singleton_self _⟩⟩
    cases List.mem_singleton.1 he
    exact ⟨e, rfl, rfl⟩
  · exact ⟨fun e he => (nomatch List.mem_singleton.1 he), nofun⟩

theorem attributed {r : Except Error γ} (h : FailsOnlyWith xs r) (x : Component) :
    FailsOnlyWith xs (r.mapError (·.attributeTo x)) := by
  refine ⟨fun e he => ?_, fun err herr => ?_⟩
  · obtain ⟨err, rfl, hroot⟩ := h.fails e he
    exact ⟨_, rfl, (Error.rootCause_attributeTo x err).trans hroot⟩
  · cases r with
    | error e => exact h.blames e rfl
    | ok y => cases herr

end FailsOnlyWith

namespace Action

def Itemizes (told : σ → List (κ × Except Error Unit)) (k : κ) (a : Action σ γ) : Prop :=
  ∀ s, ∃ answers, told (a.run s).2 = told s ++ answers.map (k, ·) ∧
    FailsOnlyWith answers (a.run s).1

namespace Itemizes

omit [DecidableEq κ]

variable {told : σ → List (κ × Except Error Unit)} {k : κ}

theorem of_logs {a : Action σ γ} (h : a.Logs told fun r => (k, ended r)) : a.Itemizes told k :=
  fun s => ⟨[ended (a.run s).1], h s, .ended _⟩

theorem pure (x : γ) : (pure x : Action σ γ).Itemizes told k :=
  fun s => ⟨[], (List.append_nil (told s)).symm, .nil x⟩

theorem bind {a : Action σ β} {f : β → Action σ γ} (ha : a.Itemizes told k)
    (hf : ∀ x, (f x).Itemizes told k) : (a >>= f).Itemizes told k := by
  intro s
  obtain ⟨xs, hxs, hfails⟩ := ha s
  rcases hrun : a.run s with ⟨e | x, t⟩ <;> rw [hrun] at hxs hfails
  · rw [run_bind_of_error hrun]
    exact ⟨xs, hxs, hfails.of_error⟩
  · rw [run_bind_of_ok hrun]
    obtain ⟨ys, hys, hrest⟩ := hf x t
    exact ⟨xs ++ ys, by rw [hys, hxs, List.map_append, List.append_assoc], hfails.append hrest⟩

theorem forEach {f : β → Action σ Unit} {xs : List β} (h : ∀ x ∈ xs, (f x).Itemizes told k) :
    (forEach f xs).Itemizes told k := by
  induction xs with
  | nil => exact pure ()
  | cons x xs ih =>
    rw [List.forall_mem_cons] at h
    exact h.1.bind fun _ => ih h.2

theorem attributed {a : Action σ γ} (h : a.Itemizes told k) (x : Component) :
    (a.mapError (·.attributeTo x)).Itemizes told k := by
  intro s
  obtain ⟨xs, hxs, hfails⟩ := h s
  rw [run_mapError]
  exact ⟨xs, hxs, hfails.attributed x⟩

end Itemizes

end Action

structure Registered.LogsKeys (told : ω → List (κ × Except Error Unit))
    (r : Registered ω κ α) : Prop where
  hooks : ∀ e, (r.listener.dispatch e.type [e]).Logs told fun x => (e.key, ended x)
  filters : ∀ g ∈ r.filter, ∀ e, (g e).Logs told fun x => (e.key, ended x)

namespace Cache

variable {asked : ω → List (WriterCall κ α × Except Error Unit)}
  {told : ω → List (κ × Except Error Unit)}
  {c : Cache ω κ α} {w : ω} {k : κ} {v : α} {new : Option α}

/-- The calls of the writer are on one record, those of filters and hooks on another, key by key. -/
structure Itemized (asked : ω → List (WriterCall κ α × Except Error Unit))
    (told : ω → List (κ × Except Error Unit)) (c : Cache ω κ α) : Prop where
  writer : ∀ wr ∈ c.writer?, wr.Logs asked ∧ wr.Leaves told
  listeners : ∀ r ∈ c.listeners, r.LogsKeys told ∧ r.Leaves asked

theorem Itemized.logs (h : c.Itemized asked told) :
    ∀ wr ∈ c.writer?, wr.Logs asked ∧ wr.Leaves fun _ => ([] : List (Except Error Unit)) :=
  fun wr hwr => ⟨(h.writer wr hwr).1, fun _ _ _ => rfl, fun _ _ => rfl⟩

omit [DecidableEq κ] in
theorem tell_itemizes {r : Registered ω κ α} (h : r.LogsKeys told) (e : Event κ α) :
    (tell r e).Itemizes told e.key := by
  have haccepts : (accepts r e).Itemizes told e.key := by
    unfold accepts
    split
    · next g hg => exact .of_logs (h.filters g hg e)
    · exact .pure true
  refine haccepts.bind fun b => ?_
  cases b with
  | true => exact (Action.Itemizes.of_logs (h.hooks e)).attributed .listener
  | false => exact .pure ()

theorem notify_itemized (h : ∀ r ∈ c.listeners, r.LogsKeys told) (t : EventType) (k : κ)
    (value old : Option α) (w : ω) : let x := (notify t k value old).run (c, w)
    ∃ answers, told x.2.2 = told w ++ answers.map (k, ·) ∧ FailsOnlyWith answers x.1 := by
  have hall : (Action.forEach (fun r => tell r (eventFor c.name t k value old r))
    c.listeners).Itemizes told k :=
    .forEach fun r hr => tell_itemizes (h r hr) (eventFor c.name t k value old r)
  exact hall w

def change (k : κ) : Option α → Op ω κ α Unit
  | some v => discard (storeValue k v)
  | none => discard (deleteValue k)

inductive Tried (asked : ω → List (WriterCall κ α × Except Error Unit))
    (told : ω → List (κ × Except Error Unit)) (k : κ) (new : Option α) (c : Cache ω κ α) (w : ω) :
    Except Error Unit × (Cache ω κ α × ω) → Prop
  | refused {w₁ : ω} {e : Error} (hasked : asked w₁ = asked w ++ [(.toHold k new, .error e)])
    (htold : told w₁ = told w) :
    Tried asked told k new c w (.error (e.attributeTo .writer), (c, w₁))
  | made {r : Except Error Unit} {es : FiniteMap κ α} {n : Statistics} {w₁ : ω}
    {answers : List (Except Error Unit)} (hes : es.get? = Function.update c.entries.get? k new)
    (hasked : asked w₁ = asked w ++ c.accepted k new)
    (htold : told w₁ = told w ++ answers.map (k, ·)) (hfails : FailsOnlyWith answers r) :
    Tried asked told k new c w (r, ({ c with entries := es, stats := n }, w₁))

theorem notify_tried (hc : c.Itemized asked told) {w₁ : ω}
    (hasked : asked w₁ = asked w ++ c.accepted k new)
    (htold : told w₁ = told w) (t : EventType) (value old : Option α) (f : Unit → γ) :
    let x := (notify t k value old).run (c.holding k new, w₁)
    Tried asked told k new c w ((x.1.map f).map fun _ => (), x.2) := by
  have hlisteners : (c.holding k new).listeners = c.listeners := by cases new <;> rfl
  have hl : ∀ r ∈ (c.holding k new).listeners, r.LogsKeys told ∧ r.Leaves asked :=
    hlisteners ▸ hc.listeners
  have hleaves := notify_leaves (fun r hr => (hl r hr).2) t k value old w₁
  obtain ⟨answers, hanswers, hfails⟩ := notify_itemized (fun r hr => (hl r hr).1) t k value old w₁
  have hasked := hleaves.trans hasked
  rw [htold] at hanswers
  cases new with
  | some v =>
      exact .made (FiniteMap.get?_insert_eq_update ..) hasked hanswers ((hfails.map f).map _)
  | none => exact .made (FiniteMap.get?_erase_eq_update ..) hasked hanswers ((hfails.map f).map _)

theorem store_tried (hc : c.Itemized asked told) (hcopy : c.copy v = .ok v) (k : κ) (w : ω) :
    Tried asked told k (some v) c w ((discard (storeValue k v)).run (c, w)) := by
  have hconsulted := writeThrough_consulted hc.logs k v w
  obtain ⟨r, w₁, hrun, htold⟩ := writeThrough_leaves (fun wr hwr => (hc.writer wr hwr).2) k v w
  rw [hrun] at hconsulted
  rw [Action.run_discard]
  cases hconsulted with
  | refused hasked _ =>
    rw [run_storeValue_of_refused hrun]
    exact .refused hasked htold
  | accepted hasked _ =>
    rw [run_storeValue_of_written hrun hcopy, tellStored_eq_notify, Action.run_bind_pure]
    exact notify_tried hc hasked htold _ _ _ _

theorem delete_tried (hc : c.Itemized asked told) (k : κ) (w : ω) :
    Tried asked told k none c w ((discard (deleteValue k)).run (c, w)) := by
  have hconsulted := deleteThrough_consulted hc.logs k w
  obtain ⟨r, w₁, hrun, htold⟩ := deleteThrough_leaves (fun wr hwr => (hc.writer wr hwr).2) k w
  rw [hrun] at hconsulted
  rw [Action.run_discard]
  cases hconsulted with
  | refused hasked _ =>
    rw [run_deleteValue_of_refused hrun]
    exact .refused hasked htold
  | accepted hasked _ =>
    cases hold : c.entries.get? k with
    | none =>
      rw [run_deleteValue_of_absent hrun hold]
      have hsame : c.entries.get? = Function.update c.entries.get? k none := by
        rw [← hold, Function.update_eq_self]
      have hquiet : told w₁ = told w ++ ([] : List (Except Error Unit)).map (k, ·) :=
        htold.trans (List.append_nil _).symm
      exact .made (n := c.stats) hsame hasked hquiet (.nil ())
    | some o =>
      rw [run_deleteValue_of_mapped hrun hold, Action.run_bind_pure]
      exact notify_tried hc hasked htold _ _ _ _

theorem change_tried (hc : c.Itemized asked told)
    (hcopy : ∀ v, new = some v → c.copy v = .ok v) (w : ω) :
    Tried asked told k new c w ((change k new).run (c, w)) := by
  cases new with
  | some v => exact store_tried hc (hcopy v rfl) k w
  | none => exact delete_tried hc k w

def changeAll (items : List (κ × Option α)) :
    Op ω κ α Unit := Action.forEach (fun x => change x.1 x.2) items

/-- What a batch comes to of which `done` was carried out and `rest` was not: `r` is its result and
`c'` the cache after it, `calls` are those of the writer, and `answers` those of filters and
hooks. -/
structure CarriedOut (done rest : List (κ × Option α)) (c : Cache ω κ α) (r : Except Error γ)
    (c' : Cache ω κ α) (calls : List (WriterCall κ α × Except Error Unit))
    (answers : List (κ × Except Error Unit)) : Prop where
  changed : ∀ x ∈ done, c'.entries.get? x.1 = x.2
  others : ∀ k, k ∉ done.map Prod.fst → c'.entries.get? k = c.entries.get? k
  written : calls.filter (·.2.isOk) = done.flatMap fun x => c.accepted x.1 x.2
  finished : ∀ x, r = .ok x → rest = []
  refused : ∀ call e, (call, .error e) ∈ calls →
    (∃ k new after, rest = (k, new) :: after ∧ call = .toHold k new) ∧
      ∃ err, r = .error err ∧ Error.Attributed .writer e err
  failed : ∀ k e, (k, .error e) ∈ answers →
    (∃ before new, done = before ++ [(k, new)]) ∧ ∃ err, r = .error err ∧
      err.rootCause = e.rootCause
  blames : ∀ err, r = .error err → (∃ call e, (call, .error e) ∈ calls) ∨ ∃ k e,
    (k, .error e) ∈ answers

theorem filter_accepted (k : κ) (new : Option α) (c : Cache ω κ α) :
    (c.accepted k new).filter (·.2.isOk) = c.accepted k new := by
  refine List.filter_eq_self.2 fun x hx => ?_
  rw [mem_accepted hx]
  rfl

namespace CarriedOut

variable {items done rest : List (κ × Option α)} {c' : Cache ω κ α} {es : FiniteMap κ α}
  {n : Statistics}
  {answers : List (Except Error Unit)}

theorem nothing (c : Cache ω κ α) : CarriedOut [] [] c (.ok () : Except Error Unit) c [] [] :=
  ⟨nofun, fun _ _ => rfl, rfl, fun _ _ => rfl, nofun, nofun, nofun⟩

theorem map {r : Except Error β} {calls : List (WriterCall κ α × Except Error Unit)}
    {answers : List (κ × Except Error Unit)} (h : CarriedOut done rest c r c' calls answers)
    (f : β → γ) : CarriedOut done rest c (r.map f) c' calls answers := by
  refine ⟨h.changed, h.others, h.written, fun x hx => ?_, fun call e he => ?_, fun k e he => ?_,
    fun err herr => ?_⟩
  · rcases r with e | y
    · cases hx
    · exact h.finished y rfl
  · obtain ⟨hrest, err, rfl, hattributed⟩ := h.refused call e he
    exact ⟨hrest, err, rfl, hattributed⟩
  · obtain ⟨hdone, err, rfl, hroot⟩ := h.failed k e he
    exact ⟨hdone, err, rfl, hroot⟩
  · rcases r with e | y
    · exact h.blames e rfl
    · cases herr

theorem of_refused (c : Cache ω κ α) (k : κ) (new : Option α) (items : List (κ × Option α))
    (e : Error) :
    CarriedOut [] ((k, new) :: items) c (.error (e.attributeTo .writer) : Except Error Unit) c
      [(.toHold k new, .error e)] [] := by
  refine ⟨nofun, fun _ _ => rfl, rfl, nofun, fun call e' he => ?_, nofun, fun _ _ => ?_⟩
  · cases List.mem_singleton.1 he
    exact ⟨⟨k, new, items, rfl, rfl⟩, _, rfl, e.attributed .writer⟩
  · exact .inl ⟨_, e, List.mem_singleton_self _⟩

theorem of_failed {e : Error} (hes : es.get? = Function.update c.entries.get? k new)
    (hfails : FailsOnlyWith answers (.error e : Except Error Unit)) (items : List (κ × Option α)) :
    CarriedOut [(k, new)] items c (.error e : Except Error Unit)
      { c with entries := es, stats := n }
      (c.accepted k new) (answers.map (k, ·)) := by
  refine ⟨fun x hx => ?_, fun j hj => ?_, ?_, nofun, fun call e' he => ?_, fun j e' he => ?_,
    fun _ _ => ?_⟩
  · rw [List.mem_singleton.1 hx]
    simp only [hes, Function.update_self]
  · simp only [hes, Function.update_of_ne (List.ne_of_not_mem_cons hj)]
  · rw [filter_accepted, List.flatMap_singleton]
  · cases mem_accepted he
  · obtain ⟨answer, hanswer, heq⟩ := List.mem_map.1 he
    cases heq
    exact ⟨⟨[], new, rfl⟩, hfails.fails e' hanswer⟩
  · obtain ⟨e', he'⟩ := hfails.blames e rfl
    exact .inr ⟨k, e', List.mem_map_of_mem he'⟩

theorem cons {r : Except Error Unit} {calls : List (WriterCall κ α × Except Error Unit)}
    {others : List (κ × Except Error Unit)} (hes : es.get? = Function.update c.entries.get? k new)
    (hfails : FailsOnlyWith answers (.ok () : Except Error Unit)) (hk : k ∉ done.map Prod.fst)
    (h : CarriedOut done rest { c with entries := es, stats := n } r c' calls others) :
    CarriedOut ((k, new) :: done) rest c r c' (c.accepted k new ++ calls)
      (answers.map (k, ·) ++ others) := by
  refine ⟨List.forall_mem_cons.2 ⟨?_, h.changed⟩, fun j hj => ?_, ?_, h.finished,
    fun call e he => ?_, fun j e he => ?_,
    fun err herr => ?_⟩
  · simp only [h.others k hk, hes, Function.update_self]
  · rw [List.map_cons, List.mem_cons, not_or] at hj
    simp only [h.others j hj.2, hes, Function.update_of_ne hj.1]
  · rw [List.filter_append, filter_accepted, h.written, List.flatMap_cons]
    rfl
  · rcases List.mem_append.1 he with he | he
    · cases mem_accepted he
    · exact h.refused call e he
  · rcases List.mem_append.1 he with he | he
    · obtain ⟨answer, hanswer, heq⟩ := List.mem_map.1 he
      cases heq
      obtain ⟨_, herr, -⟩ := hfails.fails e hanswer
      cases herr
    · obtain ⟨⟨before, last, rfl⟩, herr⟩ := h.failed j e he
      exact ⟨⟨(k, new) :: before, last, rfl⟩, herr⟩
  · rcases h.blames err herr with ⟨call, e, he⟩ | ⟨j, e, he⟩
    · exact .inl ⟨call, e, List.mem_append_right _ he⟩
    · exact .inr ⟨j, e, List.mem_append_right _ he⟩

end CarriedOut

theorem changeAll_carriedOut {items : List (κ × Option α)} (hc : c.Itemized asked told)
    (hkeys : (items.map Prod.fst).Nodup)
    (hcopy : ∀ k v, (k, some v) ∈ items → c.copy v = .ok v) (w : ω) :
    let x := (changeAll items).run (c, w)
    ∃ done rest calls answers, items = done ++ rest ∧ asked x.2.2 = asked w ++ calls ∧
      told x.2.2 = told w ++ answers ∧ CarriedOut done rest c x.1 x.2.1 calls answers := by
  induction items generalizing c w with
  | nil => exact ⟨[], [], [], [], rfl, (List.append_nil _).symm,
      (List.append_nil _).symm, .nothing c⟩
  | cons item items ih =>
    obtain ⟨k, new⟩ := item
    rw [List.map_cons, List.nodup_cons] at hkeys
    have htried := change_tried hc (k := k) (fun v hv => hcopy k v (hv ▸ List.mem_cons_self)) w
    rw [changeAll, Action.forEach, ← changeAll]
    generalize hrun : (change k new).run (c, w) = x at htried
    cases htried with
    | @refused w₁ e hasked htold =>
      rw [Action.run_bind_of_error hrun]
      exact ⟨[], _, _, [], rfl, hasked, htold.trans (List.append_nil _).symm,
        .of_refused c k new items e⟩
    | @made r es n w₁ answers hes hasked htold hfails =>
      rcases r with e | _
      · rw [Action.run_bind_of_error hrun]
        exact ⟨[(k, new)], items, _, _, rfl, hasked, htold, .of_failed hes hfails items⟩
      · rw [Action.run_bind_of_ok hrun]
        obtain ⟨done, rest, calls, others, rfl, hcalls, hothers, h⟩ :=
          ih (c := { c with entries := es, stats := n }) ⟨hc.writer, hc.listeners⟩ hkeys.2
            (fun k v hv => hcopy k v (List.mem_cons_of_mem _ hv)) w₁
        have hk : k ∉ done.map Prod.fst := by
          rw [List.map_append, List.mem_append, not_or] at hkeys
          exact hkeys.1.1
        refine ⟨(k, new) :: done, rest, _, _, rfl, ?_, ?_, .cons hes hfails hk h⟩
        · rw [hcalls, hasked, List.append_assoc]
        · rw [hothers, htold, List.append_assoc]

def Operation.items (c : Cache ω κ α) : Operation ω κ α β → Option (List (κ × Option α))
  | .putAll es => some (es.map fun p => (p.1, some p.2))
  | .removeKeys ks => some (ks.map (·, none))
  | .removeAll => some (c.entries.keys.map (·, none))
  | _ => none

theorem Operation.run_items [DecidableEq α] (hopen : c.closed = false) {op : Operation ω κ α β}
    {items : List (κ × Option α)} (hop : op.items c = some items) (w : ω) :
    op.run id (c, w) = (((changeAll items).run (c, w)).1.map fun _ => .done,
      ((changeAll items).run (c, w)).2) := by
  cases op with
  | putAll es =>
    cases hop
    change ((Cache.putAll es).as fun _ => .done).run (c, w) = _
    rw [Op.run_as, Cache.putAll, Action.run_bind_of_ok (run_ensureOpen hopen w), changeAll,
      Action.forEach_map]
    rfl
  | removeKeys ks =>
    cases hop
    change ((Cache.removeKeys ks).as fun _ => .done).run (c, w) = _
    rw [Op.run_as, Cache.removeKeys, Action.run_bind_of_ok (run_ensureOpen hopen w), changeAll,
      Action.forEach_map]
    rfl
  | removeAll =>
    cases hop
    change (Cache.removeAll.as fun _ => .done).run (c, w) = _
    rw [Op.run_as, Cache.removeAll, Action.run_bind_of_ok (run_ensureOpen hopen w),
      Action.run_bind_of_ok (run_look _ _), changeAll, Action.forEach_map]
    rfl
  | _ => cases hop

/-- Whatever fails in a batch, the batch is carried out up to there and no further: to the key
before the one that the writer refuses, and to the very key that a filter or a listener fails at. -/
theorem batch_carriedOut [DecidableEq α] (hc : c.Itemized asked told) (hopen : c.closed = false)
    {op : Operation ω κ α β} {items : List (κ × Option α)} (hop : op.items c = some items)
    (hkeys : (items.map Prod.fst).Nodup)
    (hcopy : ∀ k v, (k, some v) ∈ items → c.copy v = .ok v) (w : ω) : let x := op.run id (c, w)
    ∃ done rest calls answers, items = done ++ rest ∧ asked x.2.2 = asked w ++ calls ∧
      told x.2.2 = told w ++ answers ∧ CarriedOut done rest c x.1 x.2.1 calls answers := by
  obtain ⟨done, rest, calls, answers, hitems, hasked, htold, h⟩ :=
    changeAll_carriedOut hc hkeys hcopy w
  rw [Operation.run_items hopen hop]
  exact ⟨done, rest, calls, answers, hitems, hasked, htold, h.map _⟩

end Cache

structure Itemization (κ α : Type) : Type where
  asked : List (WriterCall κ α × Except Error Unit) := []
  told : List (κ × Except Error Unit) := []

namespace Itemization

variable (verdict answer : κ → Except Error Unit)

def writer : Writer (Itemization κ α) κ α where
  write k v n := (verdict k, { n with asked := n.asked ++ [(.write k v, verdict k)] })
  delete k n := (verdict k, { n with asked := n.asked ++ [(.delete k, verdict k)] })

def hook : List (Event κ α) → Action (Itemization κ α) Unit
  | [] => pure ()
  | e :: _ => fun n => (answer e.key, { n with told := n.told ++ [(e.key, answer e.key)] })

def listener : Listener (Itemization κ α) κ α :=
  ⟨hook answer, hook answer, hook answer, hook answer⟩

def configuration : Configuration (Itemization κ α) κ α where
  flags := { (default : Flags) with writeThrough := true }
  listeners := [⟨.singleton 0 (listener answer), none, false, true⟩]
  loader := none
  writer := some (.singleton 1 (writer verdict))
  expiry := .singleton 2 .eternal

omit [DecidableEq κ] in
theorem hook_logs (e : Event κ α) :
    (hook answer [e] : Action (Itemization κ α) Unit).Logs told fun x => (e.key, ended x) := by
  intro n
  change n.told ++ [(e.key, answer e.key)] = n.told ++ [(e.key, ended (answer e.key))]
  cases answer e.key <;> rfl

theorem itemized_create (name : String) (copy : α → Except Error α) :
    (Cache.create name (configuration verdict answer) copy {}).1.Itemized asked told where
  writer := by
    rintro wr ⟨⟩
    exact ⟨⟨fun _ _ _ => rfl, fun _ _ => rfl⟩, ⟨fun _ _ _ => rfl, fun _ _ => rfl⟩⟩
  listeners := by
    intro r hr
    obtain rfl := List.mem_singleton.1 hr
    refine ⟨⟨fun e => ?_, fun _ h => nomatch h⟩, ⟨fun t es n => ?_, fun _ h => nomatch h⟩⟩
    · have hhook : (listener answer).dispatch e.type [e] =
          (hook answer [e] : Action (Itemization κ α) Unit) := by
        cases e.type <;> rfl
      exact hhook ▸ hook_logs answer e
    · cases t <;> cases es <;> rfl

end Itemization

theorem Cache.batch_carriedOut_of_three :
    let denied : Error := .cache "read-only"
    let full : Error := .cache "full"
    let verdict (k : Nat) : Except Error Unit := if k = 3 then .error denied else .ok ()
    let answer (k : Nat) : Except Error Unit := if k = 2 then .error full else .ok ()
    let c := (create "c" (Itemization.configuration verdict fun _ => .ok ()) .ok {}).1
    let d := (create "d" (Itemization.configuration (fun _ => .ok ()) answer) .ok {}).1
    let op : Operation (Itemization Nat Nat) Nat Nat Unit := .putAll [(1, 10), (2, 20), (3, 30)]
    let x := op.run id (c, {})
    let y := op.run id (d, {})
    (x.1 = .error (.wrapped .writer denied.message denied) ∧ x.2.1.entries.toList =
      [(1, 10), (2, 20)] ∧
        ∃ done after, CarriedOut done ((3, some 30) :: after) c x.1 x.2.1 x.2.2.asked x.2.2.told) ∧
      y.1 = .error (.wrapped .listener full.message full) ∧ y.2.1.entries.toList =
        [(1, 10), (2, 20)] ∧
        ∃ before rest, CarriedOut (before ++ [(2, some 20)]) rest d y.1 y.2.1 y.2.2.asked
          y.2.2.told := by
  intro denied full verdict answer c d op x y
  have hop : op.items c = some [(1, some 10), (2, some 20), (3, some 30)] := rfl
  have hop' : op.items d = some [(1, some 10), (2, some 20), (3, some 30)] := rfl
  have hkeys : ([(1, some 10), (2, some 20), (3, some 30)].map Prod.fst).Nodup := by decide
  refine ⟨⟨rfl, rfl, ?_⟩, rfl, rfl, ?_⟩
  · have hc := Itemization.itemized_create (κ := Nat) (α := Nat) verdict (fun _ => .ok ()) "c" .ok
    obtain ⟨done, rest, calls, answers, -, hasked, htold, h⟩ :=
      batch_carriedOut hc rfl hop hkeys (fun _ _ _ => rfl) {}
    obtain rfl : x.2.2.asked = calls := hasked
    obtain rfl : x.2.2.told = answers := htold
    have hcall : (.write 3 30, .error denied) ∈ x.2.2.asked := .tail _ (.tail _ (.head _))
    obtain ⟨⟨k, new, after, rfl, hkey⟩, -⟩ := h.refused _ _ hcall
    cases new with
    | none => cases hkey
    | some v =>
      cases hkey
      exact ⟨done, after, h⟩
  · have hd := Itemization.itemized_create (κ := Nat) (α := Nat) (fun _ => .ok ()) answer "d" .ok
    obtain ⟨done, rest, calls, answers, hitems, hasked, htold, h⟩ :=
      batch_carriedOut hd rfl hop' hkeys (fun _ _ _ => rfl) {}
    obtain rfl : y.2.2.asked = calls := hasked
    obtain rfl : y.2.2.told = answers := htold
    have hanswer : (2, .error full) ∈ y.2.2.told := .tail _ (.head _)
    obtain ⟨⟨before, new, rfl⟩, -⟩ := h.failed _ _ hanswer
    have hitems : [(1, some 10), (2, some 20), (3, some 30)] = before ++ [(2, new)] ++ rest :=
      hitems
    have hnew : (2, new) ∈ [(1, some 10), (2, some 20), (3, some 30)] := by
      rw [hitems]
      exact List.mem_append_left _ (List.mem_append_right _ (List.mem_singleton_self _))
    obtain rfl : new = some 20 := by simpa using hnew
    exact ⟨before, rest, h⟩

end EntryCache
