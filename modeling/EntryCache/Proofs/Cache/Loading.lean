import EntryCache.Configuration
import EntryCache.Envelope
import EntryCache.Proofs.Cache.Changes
import EntryCache.Proofs.FiniteMap
import EntryCache.Proofs.Failures.Surfacing

namespace EntryCache

variable {ω κ α ρ : Type} [DecidableEq κ]

def Loader.answers (l : Loader ω κ α) : List κ → ω → List (κ × Except Error (Option α)) × ω
  | [], w => ([], w)
  | k :: ks, w =>
    match l.load k w with
    | (.error e, w) => ([(k, .error e)], w)
    | (.ok v, w) =>
      let (rs, w) := l.answers ks w
      ((k, .ok v) :: rs, w)

def gather (m : FiniteMap κ α) : List (κ × Except Error (Option α)) → Except Error (FiniteMap κ α)
  | [] => .ok m
  | (_, .error e) :: _ => .error e
  | (_, .ok none) :: rs => gather m rs
  | (k, .ok (some v)) :: rs => gather (m.insert k v) rs

namespace Loader

variable {l : Loader ω κ α}

theorem run_loadEach (l : Loader ω κ α) (m : FiniteMap κ α) (ks : List κ) (w : ω) :
    (loadEach l.load m ks).run w = (gather m (l.answers ks w).1, (l.answers ks w).2) := by
  induction ks generalizing m w with
  | nil => rfl
  | cons k ks ih =>
    rcases hload : l.load k w with ⟨e | v, w₁⟩
    · rw [loadEach, Action.run_bind_of_error hload, answers, hload]
      rfl
    · rw [loadEach, Action.run_bind_of_ok hload, answers, hload]
      cases v with
      | none => exact ih m w₁
      | some v => exact ih (m.insert k v) w₁

theorem answers_leaves {f : ω → ρ} (h : ∀ k, (l.load k).Leaves f) (ks : List κ) (w : ω) :
    f (l.answers ks w).2 = f w := by
  induction ks generalizing w with
  | nil => rfl
  | cons k ks ih =>
    have hleaves : f (l.load k w).2 = f w := h k w
    rcases hload : l.load k w with ⟨e | v, w₁⟩ <;> rw [hload] at hleaves <;> rw [answers, hload]
    · exact hleaves
    · exact (ih w₁).trans hleaves

theorem mem_of_answers {ks : List κ} {w : ω} {k : κ} {r : Except Error (Option α)}
    (h : (k, r) ∈ (l.answers ks w).1) : k ∈ ks := by
  induction ks generalizing w with
  | nil => cases h
  | cons j ks ih =>
    rw [answers] at h
    rcases hload : l.load j w with ⟨e | v, w₁⟩ <;> rw [hload] at h
    · cases List.mem_singleton.1 h
      exact List.mem_cons_self
    · rcases List.mem_cons.1 h with h | h
      · cases h
        exact List.mem_cons_self
      · exact List.mem_cons_of_mem _ (ih h)

theorem gather_of_failed {ks : List κ} {w : ω} {k : κ} {e : Error}
    (h : (k, .error e) ∈ (l.answers ks w).1)
    (m : FiniteMap κ α) : gather m (l.answers ks w).1 = .error e := by
  induction ks generalizing m w with
  | nil => cases h
  | cons j ks ih =>
    rw [answers] at h ⊢
    rcases hload : l.load j w with ⟨e' | v, w₁⟩ <;> rw [hload] at h
    · cases List.mem_singleton.1 h
      rfl
    · rcases List.mem_cons.1 h with hfirst | hrest
      · cases hfirst
      · cases v <;> exact ih hrest _

theorem keys_of_answers {ks : List κ} {w : ω} (h : ∀ x ∈ (l.answers ks w).1, ∃ v, x.2 = .ok v) :
    (l.answers ks w).1.map Prod.fst = ks := by
  induction ks generalizing w with
  | nil => rfl
  | cons k ks ih =>
    rw [answers] at h ⊢
    rcases hload : l.load k w with ⟨e | v, w₁⟩ <;> rw [hload] at h
    · obtain ⟨v, hv⟩ := h _ (List.mem_singleton_self _)
      cases hv
    · rw [List.forall_mem_cons] at h
      exact congrArg (k :: ·) (ih h.2)

end Loader

section

variable {m m' : FiniteMap κ α} {rs : List (κ × Except Error (Option α))} {k : κ} {v : α}

theorem failed_of_gather {e : Error} (h : gather m rs = .error e) : ∃ k, (k, .error e) ∈ rs := by
  induction rs generalizing m with
  | nil => cases h
  | cons x rs ih =>
    rcases x with ⟨j, e' | _ | u⟩
    · cases h
      exact ⟨j, List.mem_cons_self⟩
    · exact (ih h).imp fun _ => List.mem_cons_of_mem _
    · exact (ih h).imp fun _ => List.mem_cons_of_mem _

theorem mem_of_gather (h : gather m rs = .ok m') (hk : m'.get? k = some v) :
    m.get? k = some v ∨ (k, .ok (some v)) ∈ rs := by
  induction rs generalizing m with
  | nil =>
    cases h
    exact .inl hk
  | cons x rs ih =>
    rcases x with ⟨j, e | _ | u⟩
    · cases h
    · exact (ih h).imp_right (List.mem_cons_of_mem _)
    · rcases ih h with hm | hrs
      · rw [FiniteMap.get?_insert] at hm
        split at hm
        · next hjk =>
          cases hm
          exact .inr (hjk ▸ List.mem_cons_self)
        · exact .inl hm
      · exact .inr (List.mem_cons_of_mem _ hrs)

theorem get?_gather (h : gather m rs = .ok m') (hkeys : (rs.map Prod.fst).Nodup) :
    (∀ k v, (k, .ok (some v)) ∈ rs → m'.get? k = some v) ∧ ∀ k ∉ rs.map Prod.fst,
      m'.get? k = m.get? k := by
  induction rs generalizing m with
  | nil =>
    cases h
    exact ⟨nofun, fun _ _ => rfl⟩
  | cons x rs ih =>
    rw [List.map_cons, List.nodup_cons] at hkeys
    rcases x with ⟨j, e | _ | u⟩
    · cases h
    · obtain ⟨hanswered, hothers⟩ := ih h hkeys.2
      refine ⟨fun k v hkv => ?_, fun k hk => hothers k fun hk' => hk (List.mem_cons_of_mem _ hk')⟩
      rcases List.mem_cons.1 hkv with heq | hkv
      · cases heq
      · exact hanswered k v hkv
    · obtain ⟨hanswered, hothers⟩ := ih h hkeys.2
      refine ⟨fun k v hkv => ?_, fun k hk => ?_⟩
      · rcases List.mem_cons.1 hkv with heq | hkv
        · cases heq
          rw [hothers j hkeys.1, FiniteMap.get?_insert_self]
        · exact hanswered k v hkv
      · rw [List.map_cons, List.mem_cons, not_or] at hk
        rw [hothers k hk.2, FiniteMap.get?_insert_of_ne (Ne.symm hk.1)]

end

def Completion.ofResult : Except Error Unit → Completion
  | .ok () => .completed
  | .error e => .failed e

namespace Cache

variable {c : Cache ω κ α} {w : ω} {l : Loader ω κ α}

def enterCopy (p : κ × α) : Op ω κ α Unit := do
  let stored ← copied p.2
  update (enter p.1 stored)

structure EnteredEach (c : Cache ω κ α) (ps : List (κ × α)) (r : Except Error Unit)
    (es : FiniteMap κ α) : Prop where
  finished : r = .ok () → ∀ p ∈ ps, ∃ u, c.copy p.2 = .ok u ∧ es.get? p.1 = some u
  stopped : ∀ e, r = .error e → ∃ p ∈ ps, c.copy p.2 = .error e
  entries : ∀ k, es.get? k = c.entries.get? k ∨ ∃ v u, (k, v) ∈ ps ∧ c.copy v = .ok u ∧
    es.get? k = some u

theorem run_enterEach {ps : List (κ × α)} (hkeys : (ps.map Prod.fst).Nodup)
    (c : Cache ω κ α) (w : ω) :
    ∃ r es, (Action.forEach enterCopy ps).run (c, w) = (r, ({ c with entries := es }, w)) ∧
      EnteredEach c ps r es := by
  induction ps generalizing c with
  | nil => exact ⟨_, c.entries, rfl, fun _ => nofun, nofun, fun _ => .inl rfl⟩
  | cons p ps ih =>
    obtain ⟨k, v⟩ := p
    rw [List.map_cons, List.nodup_cons] at hkeys
    rw [Action.forEach]
    cases hcopy : c.copy v with
    | error e =>
      have hcopied : (copied v).run (c, w) = (.error e, (c, w)) := by rw [run_copied, hcopy]
      have hstep : (enterCopy (k, v)).run (c, w) = (.error e, (c, w)) :=
        Action.run_bind_of_error hcopied
      refine ⟨_, c.entries, Action.run_bind_of_error hstep, fun hr => ?_, fun e' he => ?_,
        fun _ => .inl rfl⟩
      · cases hr
      · cases he
        exact ⟨_, List.mem_cons_self, hcopy⟩
    | ok u =>
      have hcopied : (copied v).run (c, w) = (.ok u, (c, w)) := by rw [run_copied, hcopy]
      have hstep : (enterCopy (k, v)).run (c, w) = (.ok (), (c.enter k u, w)) :=
        Action.run_bind_of_ok hcopied
      obtain ⟨r, es, hrun, h⟩ := ih hkeys.2 (c.enter k u)
      -- none of the pairs that follow is about `k`
      have hk : es.get? k = some u := by
        rcases h.entries k with hkept | ⟨x, _, hx, -⟩
        · exact hkept.trans (FiniteMap.get?_insert_self ..)
        · exact absurd (List.mem_map_of_mem hx) hkeys.1
      refine ⟨r, es, (Action.run_bind_of_ok hstep).trans hrun, fun hr => ?_, fun e he => ?_,
        fun j => ?_⟩
      · exact List.forall_mem_cons.2 ⟨⟨u, hcopy, hk⟩, h.finished hr⟩
      · obtain ⟨p, hp, hcopy⟩ := h.stopped e he
        exact ⟨p, List.mem_cons_of_mem _ hp, hcopy⟩
      · by_cases hj : j = k
        · exact .inr ⟨v, u, hj ▸ List.mem_cons_self, hcopy, hj ▸ hk⟩
        · rcases h.entries j with hkept | ⟨x, y, hx, hentered⟩
          · exact .inl (hkept.trans (FiniteMap.get?_insert_of_ne (Ne.symm hj)))
          · exact .inr ⟨x, y, List.mem_cons_of_mem _ hx, hentered⟩

structure Entered (c : Cache ω κ α) (rs : List (κ × Except Error (Option α)))
    (r : Except Error Unit) (es : FiniteMap κ α) : Prop where
  failed : ∀ k e, (k, .error e) ∈ rs → r = .error (e.attributeTo .loader) ∧ es = c.entries
  finished : r = .ok () → ∀ k v, (k, .ok (some v)) ∈ rs → ∃ u, c.copy v = .ok u ∧ es.get? k = some u
  blames : ∀ err, r = .error err →
    (∃ k e, (k, .error e) ∈ rs) ∨ ∃ k v, (k, .ok (some v)) ∈ rs ∧ c.copy v = .error err
  entries : ∀ k, es.get? k = c.entries.get? k ∨
    ∃ v u, (k, .ok (some v)) ∈ rs ∧ c.copy v = .ok u ∧ es.get? k = some u

namespace Entered

variable {rs : List (κ × Except Error (Option α))} {r : Except Error Unit} {es : FiniteMap κ α}
  {k : κ} {v : α}

theorem others (h : Entered c rs r es) (hk : ∀ v, (k, .ok (some v)) ∉ rs) :
    es.get? k = c.entries.get? k :=
  (h.entries k).resolve_right fun ⟨v, _, hkv, _⟩ => hk v hkv

theorem loaded (h : Entered c rs r es)
    (hok : ∀ x ∈ rs, ∃ v, x.2 = .ok v ∧ ∀ a ∈ v, ∃ u, c.copy a = .ok u) : r = .ok () := by
  rcases r with err | _
  · rcases h.blames err rfl with ⟨k, e, he⟩ | ⟨k, v, hkv, hcopy⟩
    · obtain ⟨v, hv, -⟩ := hok _ he
      cases hv
    · obtain ⟨_, hv, hcopies⟩ := hok _ hkv
      cases hv
      obtain ⟨u, hu⟩ := hcopies v rfl
      cases hcopy.symm.trans hu
  · rfl

theorem uncopied (h : Entered c rs r es) (hok : ∀ x ∈ rs, ∃ v, x.2 = .ok v) {e : Error}
    (hkv : (k, .ok (some v)) ∈ rs) (hcopy : c.copy v = .error e) :
    ∃ j x err, (j, .ok (some x)) ∈ rs ∧ c.copy x = .error err ∧ r = .error err := by
  rcases r with err | _
  · rcases h.blames err rfl with ⟨j, e', he⟩ | ⟨j, x, hjx, hx⟩
    · obtain ⟨x, hx⟩ := hok _ he
      cases hx
    · exact ⟨j, x, err, hjx, hx, rfl⟩
  · obtain ⟨u, hu, -⟩ := h.finished rfl k v hkv
    cases hcopy.symm.trans hu

end Entered

theorem loadInto_entered (hl : c.loader = some l) (hdefault : l.loadAll = loadEach l.load ∅)
    {ks : List κ} (hks : ks.Nodup) (all : Bool) (w : ω) : let a := l.answers (wanted ks all c) w
    ∃ r es, (loadInto ks all).run (c, w) = (r, ({ c with entries := es }, a.2)) ∧
      Entered c a.1 r es := by
  intro a
  have hload : ((l.loadAll (wanted ks all c)).mapError (·.attributeTo .loader)).beside.run (c, w) =
      ((gather ∅ a.1).mapError (·.attributeTo .loader), (c, a.2)) := by
    rw [Action.run_beside, Action.run_mapError, hdefault, l.run_loadEach]
  have hinto : (loadInto ks all).run (c, w) =
      (((l.loadAll (wanted ks all c)).mapError (·.attributeTo .loader)).beside >>= fun m =>
        Action.forEach enterCopy m.toList : Op ω κ α Unit).run (c, w) := by
    rw [loadInto, Action.run_bind_of_ok (run_look _ _)]
    simp only [hl]
    rfl
  rw [hinto]
  cases hgather : gather ∅ a.1 with
  | error e =>
    rw [hgather] at hload
    refine ⟨_, c.entries, Action.run_bind_of_error hload, fun k e' he => ?_, nofun, fun _ _ => ?_,
      fun _ => .inl rfl⟩
    · cases hgather.symm.trans (Loader.gather_of_failed he ∅)
      exact ⟨rfl, rfl⟩
    · exact .inl ((failed_of_gather hgather).imp fun _ h => ⟨e, h⟩)
  | ok m =>
    rw [hgather] at hload
    have hanswered : ∀ x ∈ a.1, ∃ v, x.2 = .ok v := by
      rintro ⟨k, e | v⟩ hx
      · cases hgather.symm.trans (Loader.gather_of_failed hx ∅)
      · exact ⟨v, rfl⟩
    have hkeys : (a.1.map Prod.fst).Nodup := l.keys_of_answers hanswered ▸ hks.filter _
    have hmem (k : κ) (v : α) : (k, v) ∈ m.toList ↔ (k, .ok (some v)) ∈ a.1 := by
      rw [FiniteMap.mem_toList_iff]
      exact ⟨fun h => (mem_of_gather hgather h).resolve_left nofun,
        (get?_gather hgather hkeys).1 k v⟩
    obtain ⟨r, es, hrun, h⟩ := run_enterEach m.nodup c a.2
    refine ⟨r, es, (Action.run_bind_of_ok hload).trans hrun, fun k e he => ?_, fun hr k v hkv => ?_,
      fun err herr => ?_,
      fun k => ?_⟩
    · obtain ⟨v, hv⟩ := hanswered _ he
      cases hv
    · exact h.finished hr _ ((hmem k v).2 hkv)
    · obtain ⟨⟨k, v⟩, hkv, hcopy⟩ := h.stopped err herr
      exact .inr ⟨k, v, (hmem k v).1 hkv, hcopy⟩
    · exact (h.entries k).imp_right fun ⟨v, u, hkv, hentered⟩ => ⟨v, u, (hmem k v).1 hkv, hentered⟩

/-- The keys that are asked for and have no mapping yet, or all that are asked for. -/
def Wanted (c : Cache ω κ α) (ks : List κ) (all : Bool) (k : κ) : Prop :=
  k ∈ ks ∧ (all = true ∨ c.entries.get? k = none)

/-- What the loader answers for the keys that are wanted, and the world after that. -/
def loads (ks : List κ) (all : Bool) (s : Cache ω κ α × ω) :
    List (κ × Except Error (Option α)) × ω :=
  match s.1.loader with
  | some l => l.answers (ks.filter fun k => all = true ∨ s.1.entries.get? k = none) s.2
  | none => ([], s.2)

theorem wanted_eq_filter (ks : List κ) (all : Bool) (c : Cache ω κ α) :
    wanted ks all c = ks.filter fun k => all = true ∨ c.entries.get? k = none := by
  apply List.filter_congr
  intro k _
  cases hk : c.entries.get? k <;> simp [FiniteMap.contains, hk]

theorem mem_wanted_iff {ks : List κ} {all : Bool} {k : κ} :
    k ∈ wanted ks all c ↔ c.Wanted ks all k := by
  simp [wanted_eq_filter, Wanted]

theorem loads_of_loader (hl : c.loader = some l) (ks : List κ) (all : Bool) (w : ω) :
    loads ks all (c, w) = l.answers (wanted ks all c) w := by
  simp only [loads, hl, wanted_eq_filter]

theorem loads_of_none (hl : c.loader = none) (ks : List κ) (all : Bool) (w : ω) :
    loads ks all (c, w) = ([], w) := by
  simp only [loads, hl]

theorem run_loadInto_of_none (hl : c.loader = none) (ks : List κ) (all : Bool) (w : ω) :
    (loadInto ks all).run (c, w) = (.ok (), (c, w)) := by
  rw [loadInto, Action.run_bind_of_ok (run_look _ _), hl, Action.run_pure]

theorem loadInto_loads (hdefault : ∀ l ∈ c.loader, l.loadAll = loadEach l.load ∅) {ks : List κ}
    (hks : ks.Nodup) (all : Bool) (w : ω) :
    ∃ r es, (loadInto ks all).run (c, w) =
      (r, ({ c with entries := es }, (loads ks all (c, w)).2)) ∧
      Entered c (loads ks all (c, w)).1 r es := by
  obtain hl | ⟨l, hl⟩ := c.loader.eq_none_or_eq_some
  · rw [loads_of_none hl]
    exact ⟨.ok (), c.entries, run_loadInto_of_none hl ks all w, nofun, fun _ _ _ => nofun, nofun,
      fun _ => .inl rfl⟩
  · rw [loads_of_loader hl]
    exact loadInto_entered hl (hdefault l hl) hks all w

variable {get : ω → Completion} {put : Completion → ω → ω}

omit [DecidableEq κ] in
theorem run_report_future (hpending : get w = .pending) (r : Except Error Unit) :
    (report (Completion.listener get put) r).run w = (.ok (), put (.ofResult r) w) := by
  cases r <;> simp only [report, Completion.listener, Action.run_focus, hpending] <;> rfl

theorem run_loadAll_future (hopen : c.closed = false) {ks : List κ} {all : Bool}
    {r : Except Error Unit}
    {c' : Cache ω κ α} {w' : ω} (hrun : (loadInto ks all).run (c, w) = (r, (c', w')))
    (hpending : get w' = .pending) :
    (loadAll ks all (some (Completion.listener get put))).run (c, w) =
    (.ok (), (c', put (.ofResult r) w')) := by
  rw [loadAll, Action.run_bind_of_ok (run_ensureOpen hopen w),
    Action.run_bind_of_ok (Action.run_attempt ..), hrun,
    onSome, Action.run_beside, run_report_future hpending]

/-- What a bulk load comes to that reports to a future; `get` and `put` find the future in the
world. -/
structure LoadedAtOnce (get : ω → Completion) (put : Completion → ω → ω) (ks : List κ) (all : Bool)
    (s : Cache ω κ α × ω) (x : Except Error Unit × (Cache ω κ α × ω)) : Prop where
  ended : x.1 = .ok ()
  reported : (get x.2.2).isDone = true
  untouched : ∃ es fin, x.2 = ({ s.1 with entries := es }, put fin (loads ks all s).2)
  others : ∀ k, ¬s.1.Wanted ks all k → x.2.1.entries.get? k = s.1.entries.get? k
  unloaded : s.1.loader = none → (get x.2.2).outcome? = some (.ok ()) ∧
    x.2 = (s.1, put .completed s.2)
  loaded : (∀ y ∈ (loads ks all s).1, ∃ v, y.2 = .ok v ∧ ∀ a ∈ v, ∃ u, s.1.copy a = .ok u) →
    (get x.2.2).outcome? = some (.ok ()) ∧
      (s.1.loader.isSome → ∀ k, k ∈ (loads ks all s).1.map Prod.fst ↔ s.1.Wanted ks all k) ∧
      (∀ k v u, (k, .ok (some v)) ∈ (loads ks all s).1 → s.1.copy v = .ok u →
        x.2.1.entries.get? k = some u) ∧
      ∀ k, (∀ v, (k, .ok (some v)) ∉ (loads ks all s).1) → x.2.1.entries.get? k = s.1.entries.get? k
  uncopied : (∀ y ∈ (loads ks all s).1, ∃ v, y.2 = .ok v) →
    (∃ k v e, (k, .ok (some v)) ∈ (loads ks all s).1 ∧ s.1.copy v = .error e) →
    (∃ k v e, (k, .ok (some v)) ∈ (loads ks all s).1 ∧ s.1.copy v = .error e ∧
      (get x.2.2).outcome? = some (.error (.execution e))) ∧
      ∀ k, x.2.1.entries.get? k = s.1.entries.get? k ∨
        ∃ v u, (k, .ok (some v)) ∈ (loads ks all s).1 ∧ s.1.copy v = .ok u ∧
          x.2.1.entries.get? k = some u
  failed : ∀ k e, (k, .error e) ∈ (loads ks all s).1 → s.1.Wanted ks all k ∧
    (∃ err, (get x.2.2).outcome? = some (.error (.execution err)) ∧
      Error.Attributed .loader e err) ∧ x.2.1 = s.1

theorem wanted_of_loads {ks : List κ} {all : Bool} {s : Cache ω κ α × ω} {k : κ}
    {r : Except Error (Option α)} (h : (k, r) ∈ (loads ks all s).1) : s.1.Wanted ks all k := by
  rw [← mem_wanted_iff]
  obtain hl | ⟨l, hl⟩ := s.1.loader.eq_none_or_eq_some
  · rw [loads_of_none hl] at h
    cases h
  · rw [loads_of_loader hl] at h
    exact Loader.mem_of_answers h

/-- A bulk load loads all keys that are wanted, or none if the loader fails, and reports once how
that went. Only a value that cannot be copied ends it half-way; and nothing else changes. -/
theorem loadAll_atOnce (hopen : c.closed = false)
    (hdefault : ∀ l ∈ c.loader, l.loadAll = loadEach l.load ∅)
    (hleaves : ∀ l ∈ c.loader, ∀ k, (l.load k).Leaves get) (hput : ∀ fin w, get (put fin w) = fin)
    (hpending : get w = .pending) {ks : List κ} (hks : ks.Nodup) (all : Bool) :
    LoadedAtOnce get put ks all (c, w)
      ((loadAll ks all (some (Completion.listener get put))).run (c, w)) := by
  obtain ⟨r, es, hrun, hentered⟩ := loadInto_loads hdefault hks all w
  have hpending' : get (loads ks all (c, w)).2 = .pending := by
    unfold loads
    split
    · next l hl => exact (Loader.answers_leaves (hleaves l hl) _ w).trans hpending
    · exact hpending
  rw [run_loadAll_future hopen hrun hpending']
  have hget : get (put (.ofResult r) (loads ks all (c, w)).2) = .ofResult r := hput ..
  refine {
    ended := rfl
    reported := ?_
    untouched := ⟨es, .ofResult r, rfl⟩
    others := fun _ hk => hentered.others fun _ hkv => hk (wanted_of_loads hkv)
    unloaded := fun hl => ?_
    loaded := fun hok => ?_
    uncopied := fun hok ⟨k, v, e, hkv, hcopy⟩ => ?_
    failed := fun k e he => ?_ }
  · rw [hget]
    rcases r with e | _ <;> rfl
  · have hnone := run_loadInto_of_none hl ks all w
    rw [hrun] at hnone
    obtain ⟨rfl, hsame⟩ := Prod.mk.inj hnone
    obtain ⟨hcache, hworld⟩ := Prod.mk.inj hsame
    rw [hget, hcache, hworld]
    exact ⟨rfl, rfl⟩
  · obtain rfl := hentered.loaded hok
    rw [hget]
    refine ⟨rfl, fun hl => ?_, fun k v u hkv hu => ?_, fun _ => hentered.others⟩
    · obtain ⟨l, hl⟩ := Option.isSome_iff_exists.1 hl
      rw [loads_of_loader hl] at hok ⊢
      intro k
      rw [Loader.keys_of_answers fun y hy => (hok y hy).imp fun _ h => h.1, mem_wanted_iff]
    · obtain ⟨u', hu', hget⟩ := hentered.finished rfl k v hkv
      cases hu'.symm.trans hu
      exact hget
  · obtain ⟨j, x, err, hjx, hx, rfl⟩ := hentered.uncopied hok hkv hcopy
    rw [hget]
    exact ⟨⟨j, x, err, hjx, hx, rfl⟩, hentered.entries⟩
  · obtain ⟨rfl, rfl⟩ := hentered.failed k e he
    rw [hget]
    exact ⟨wanted_of_loads he, ⟨_, rfl, e.attributed .loader⟩, rfl⟩

/-- One key is mapped already, one has no value, one cannot be loaded, and one has a value that
cannot be copied; the world counts the loads. -/
theorem loadAll_atOnce_of_some :
    let gone : Error := .cache "gone"
    let tooHigh : Error := .serialization "too high"
    let copy (n : Nat) : Except Error Nat := if n < 100 then .ok n else .error tooHigh
    let load (k : Nat) : Action (Completion × Nat) (Option Nat) := fun w =>
      (if k = 2 then .error gone else .ok (if k = 4 then none else some (10 * k)), (w.1, w.2 + 1))
    let config : Configuration (Completion × Nat) Nat Nat :=
      { flags := default
        listeners := []
        loader := some (.singleton 0 { load := load })
        writer := none
        expiry := .singleton 1 .eternal }
    let c := (create "c" config copy (.pending, 0)).1.enter 1 5
    let x (ks : List Nat) (all : Bool) :=
      (loadAll ks all (some (Completion.listener Prod.fst fun fin w => (fin, w.2)))).run
        (c, (.pending, 0))
    ((x [1, 3, 4] false).2.2.1.outcome? = some (.ok ()) ∧
        (x [1, 3, 4] false).2.1.entries.get? 3 = some 30 ∧
        (x [1, 3, 4] false).2.1.entries.get? 1 = some 5 ∧ (x [1, 3, 4] false).2.2.2 = 2) ∧
      ((x [1, 3] true).2.2.1.outcome? = some (.ok ()) ∧
        (x [1, 3] true).2.1.entries.get? 1 = some 10 ∧ (x [1, 3] true).2.2.2 = 2) ∧
      ((x [3, 1, 2] false).2.2.1.outcome? =
          some (.error (.execution (.wrapped .loader gone.message gone))) ∧
        (x [3, 1, 2] false).2.1 = c) ∧
      (x [3, 12] false).2.2.1.outcome? = some (.error (.execution tooHigh)) ∧
        (x [3, 12] false).2.1.entries.get? 3 = some 30 := by
  intro gone tooHigh copy load config c x
  have hx (ks : List Nat) (hks : ks.Nodup) (all : Bool) :
      LoadedAtOnce Prod.fst (fun fin w => (fin, w.2)) ks all (c, (.pending, 0)) (x ks all) := by
    refine loadAll_atOnce rfl ?_ ?_ (fun _ _ => rfl) rfl hks all
    · rintro l ⟨⟩
      rfl
    · rintro l ⟨⟩ k w
      rfl
  refine ⟨?_, ?_, ?_, ?_⟩
  · have h := hx [1, 3, 4] (by decide) false
    have hanswers : ∀ y ∈ (loads [1, 3, 4] false (c, (Completion.pending, 0))).1,
        ∃ v, y.2 = .ok v ∧ ∀ a ∈ v, ∃ u, c.copy a = .ok u := by
      rintro y (_ | ⟨_, _ | ⟨_, ⟨⟩⟩⟩)
      · exact ⟨_, rfl, fun a ha => ⟨30, by cases ha; rfl⟩⟩
      · exact ⟨_, rfl, nofun⟩
    obtain ⟨hok, -, hvalues, -⟩ := h.loaded hanswers
    refine ⟨hok, hvalues 3 30 30 (.head _) rfl, h.others 1 ?_, rfl⟩
    rintro ⟨-, hreplace | hunmapped⟩
    · cases hreplace
    · cases hunmapped
  · have hanswers : ∀ y ∈ (loads [1, 3] true (c, (Completion.pending, 0))).1,
        ∃ v, y.2 = .ok v ∧ ∀ a ∈ v, ∃ u, c.copy a = .ok u := by
      rintro y (_ | ⟨_, _ | ⟨_, ⟨⟩⟩⟩)
      · exact ⟨_, rfl, fun a ha => ⟨10, by cases ha; rfl⟩⟩
      · exact ⟨_, rfl, fun a ha => ⟨30, by cases ha; rfl⟩⟩
    obtain ⟨hok, -, hvalues, -⟩ := (hx [1, 3] (by decide) true).loaded hanswers
    exact ⟨hok, hvalues 1 10 10 (.head _) rfl, rfl⟩
  · have h := (hx [3, 1, 2] (by decide) false).failed 2 gone (.tail _ (.head _))
    obtain ⟨-, ⟨err, herr, hattributed⟩, hsame⟩ := h
    rw [hattributed.wrapped nofun] at herr
    exact ⟨herr, hsame⟩
  · have hanswers : ∀ y ∈ (loads [3, 12] false (c, (Completion.pending, 0))).1, ∃ v,
        y.2 = .ok v := by
      rintro y (_ | ⟨_, _ | ⟨_, ⟨⟩⟩⟩) <;> exact ⟨_, rfl⟩
    obtain ⟨⟨k, v, e, hkv, hcopy, hget⟩, -⟩ :=
      (hx [3, 12] (by decide) false).uncopied hanswers ⟨12, 120, tooHigh, .tail _ (.head _), rfl⟩
    obtain _ | ⟨_, _ | ⟨_, ⟨⟩⟩⟩ := hkv
    · cases hcopy
    · cases hcopy
      exact ⟨hget, rfl⟩

/-- A choice of a policy is loaded, but it cannot be copied through an envelope. -/
theorem loadAll_expiry_uncopied :
    let load (_ : Nat) : Action Completion (Option ExpirySettings) := pure (some .eternal)
    let config : Configuration Completion Nat ExpirySettings :=
      { flags := default
        listeners := []
        loader := some (.singleton 0 { load := load })
        writer := none
        expiry := .singleton 1 .eternal }
    let c := (create "c" config Envelope.copy .pending).1
    let x := (loadAll [1] false (some (Completion.listener id fun fin _ => fin))).run (c, .pending)
    let refusal : Error := .serialization "This is a feature that PostCard will never implement"
    (loads [1] false (c, .pending)).1 = [(1, .ok (some .eternal))] ∧
      x.2.2.outcome? = some (.error (.execution refusal)) ∧ x.2.1.entries.get? 1 = none := by
  intro load config c x refusal
  exact ⟨rfl, rfl, rfl⟩

end Cache

end EntryCache
