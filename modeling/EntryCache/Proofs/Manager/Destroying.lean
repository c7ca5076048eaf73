import EntryCache.Proofs.Manager.Steps

namespace EntryCache

def AnyCache.Empty {ω : Type} (c : AnyCache ω) : Prop := c.cache.entries.toList = []

namespace Manager

variable {ω β : Type} {m : Manager ω} {name other : String} {id : CacheId} {c c' : AnyCache ω}

def destroyed (m : Manager ω) (name : String) : Except Error Unit :=
  match m.find? name with
  | some (_, c) => if c.closed then .error (.illegalState ("Cache " ++ name ++ " is closed"))
      else .ok ()
  | none => .ok ()

theorem mem_names : name ∈ m.names ↔ m.held.contains name = true := by
  rw [names, List.mem_mergeSort, FiniteMap.mem_keys_iff]

theorem run_cacheNames (h : m.closed = false) (w : ω) :
    cacheNames.run (m, w) = (.ok m.names, (m, w)) := by
  rw [cacheNames, Action.run_bind_of_ok (run_ensureOpen h w), run_look]

theorem Tidy.contains (h : m.Tidy) (hf : m.find? name = none) : m.held.contains name = false := by
  rw [FiniteMap.contains]
  rcases hheld : m.held.get? name with _ | id
  · rfl
  · obtain ⟨c, hc, -⟩ := h.held hheld
    rw [Manager.find?, hheld] at hf
    change (m.cacheAt? id).bind (fun c => some (id, c)) = none at hf
    rw [hc] at hf
    cases hf

theorem contains_without : (m.without name id c).held.contains name = false := by
  change (m.held.erase name).contains name = false
  rw [FiniteMap.contains, FiniteMap.get?_erase_self]
  rfl

theorem cacheAt?_without (hc : m.cacheAt? id = some c) {i : CacheId} (hi : id ≠ i) :
    (m.without name id c').cacheAt? i = m.cacheAt? i :=
  (cacheAt?_setCache hc c' i).trans (if_neg hi)

theorem Tidy.find?_without (h : m.Tidy) (hf : m.find? name = some (id, c)) (hne : other ≠ name) :
    (m.without name id c').find? other = m.find? other := by
  obtain ⟨-, hc, hname⟩ := h.find? hf
  change ((m.held.erase name).get? other).bind _ = (m.held.get? other).bind _
  rw [FiniteMap.get?_erase_of_ne (Ne.symm hne)]
  cases hheld : m.held.get? other with
  | none => rfl
  | some i =>
    obtain ⟨d, hd, hdname⟩ := h.held hheld
    have hi : id ≠ i := by
      rintro rfl
      obtain rfl := Option.some.inj (hc.symm.trans hd)
      exact hne (hdname.symm.trans hname)
    change ((m.without name id c').cacheAt? i).bind _ = (m.cacheAt? i).bind _
    rw [cacheAt?_without hc hi]

theorem Tidy.run_destroyCache (h : m.Tidy) (hm : m.closed = false)
    (hf : m.find? name = some (id, c)) (w : ω) :
    ∃ c', (destroyCache name).run (m, w) = (m.destroyed name, (m.without name id c', w)) ∧
      c'.closed = true ∧
      (c'.Empty ↔ c.closed = false ∨ c.Empty) := by
  obtain ⟨-, -, rfl⟩ := h.find? hf
  rw [Manager.run_destroyCache hm, destroyed, hf]
  simp only
  cases hc : c.closed with
  | true => exact ⟨c, rfl, hc, ⟨.inr, fun h => h.resolve_left nofun⟩⟩
  | false => exact ⟨c.emptied.close, rfl, rfl, iff_of_true rfl (.inl rfl)⟩

theorem free_of_not_held (hm : m.closed = false) (hname : m.held.contains name = false) (w : ω) :
    (∃ ns, (cacheNames.run (m, w)).1 = .ok ns ∧ name ∉ ns) ∧
      ∀ config : AnyConfiguration ω, config.types.supported = true →
        ∃ id, ((createCache name config).run (m, w)).1 = .ok id := by
  constructor
  · refine ⟨m.names, by rw [run_cacheNames hm], fun hmem => ?_⟩
    rw [mem_names, hname] at hmem
    cases hmem
  · intro config hconfig
    rw [run_createCache hm, hname, hconfig]
    exact ⟨_, rfl⟩

/-- In every state that an open manager can come to, destroying frees the name, closes the cache
that had it and leaves all others alone; it succeeds, and the cache is emptied, unless the cache had
been closed before. -/
theorem destroyCache_frees (uri : String) (scope : ScopeId) (properties : Properties) (w : ω)
    (ops : List (Operation ω β)) (name : String) :
    let s := (Operation.runAll ops (Manager.new uri scope properties, w)).2
    let t := ((destroyCache name).run s).2
    s.1.closed = false →
      ((destroyCache name).run s).1 = s.1.destroyed name ∧
      (∃ ns, (cacheNames.run t).1 = .ok ns ∧ name ∉ ns) ∧
      (∀ config : AnyConfiguration ω, config.types.supported = true →
        ∃ id, ((createCache name config).run t).1 = .ok id) ∧
      (∀ id c, s.1.find? name = some (id, c) →
        ∃ c', t.1.cacheAt? id = some c' ∧ c'.closed = true ∧
          (c'.Empty ↔ c.closed = false ∨ c.Empty)) ∧
      (∀ other, other ≠ name → t.1.find? other = s.1.find? other) ∧
      (∀ id, s.1.held.get? name ≠ some id → t.1.cacheAt? id = s.1.cacheAt? id) ∧
      t.2 = s.2 := by
  intro s t hopen
  have h : s.1.Tidy := (Operation.reaches_runAll ops (tidy_new uri scope properties)).tidy
  cases hf : s.1.find? name with
  | none =>
    have hrun : (destroyCache name).run s = (.ok (), s) := by
      rw [Manager.run_destroyCache hopen, hf]
    have ht : t = s := congrArg Prod.snd hrun
    obtain ⟨hlisted, hcreate⟩ := free_of_not_held hopen (h.contains hf) s.2
    rw [ht]
    refine ⟨by rw [hrun, destroyed, hf], hlisted, hcreate, fun id c heq => ?_, fun _ _ => rfl,
      fun _ _ => rfl, rfl⟩
    cases heq
  | some p =>
    obtain ⟨id, c⟩ := p
    obtain ⟨hheld, hc, -⟩ := h.find? hf
    obtain ⟨c', hrun, hclosed, hempty⟩ := h.run_destroyCache hopen hf s.2
    have ht : t = (s.1.without name id c', s.2) := congrArg Prod.snd hrun
    obtain ⟨hlisted, hcreate⟩ := free_of_not_held (m := s.1.without name id c') hopen
      contains_without s.2
    rw [ht]
    refine ⟨congrArg Prod.fst hrun, hlisted, hcreate, ?_, fun other => h.find?_without hf,
      fun i hi => ?_, rfl⟩
    · intro i d heq
      obtain ⟨rfl, rfl⟩ := Prod.mk.inj (Option.some.inj heq)
      exact ⟨c', (cacheAt?_setCache hc c' id).trans (if_pos rfl), hclosed, hempty⟩
    · exact cacheAt?_without hc fun heq => hi (heq ▸ hheld)

def onTexts (op : Cache.Operation ω String String β) :
    (t : EntryTypes) → Cache.Operation ω t.key.Carrier t.value.Carrier β
  | ⟨.text, .text⟩ => op
  | _ => .entries

theorem destroyCache_frees_two :
    let config : AnyConfiguration Unit := ⟨⟨.text, .text⟩, Configuration.new 0⟩
    let ops : List (Operation Unit Unit) :=
      [.create "c" config, .create "d" config, .onCache 0 (onTexts (.put "k" "v")),
        .onCache 1 (onTexts .close)]
    let s := (Operation.runAll ops (Manager.new "m" 0 [], ())).2
    s.1.closed = false ∧ ((destroyCache "c").run s).1 = .ok () ∧
      ((destroyCache "d").run s).1 = .error (.illegalState "Cache d is closed") := by
  intro config ops s
  have hfrees := destroyCache_frees "m" 0 [] () ops
  exact ⟨rfl, (hfrees "c" rfl).1, (hfrees "d" rfl).1⟩

/-- A cache that was closed by its handle keeps its entry, and destroying it fails. -/
theorem destroyCache_closed :
    let config : AnyConfiguration Unit := ⟨⟨.text, .text⟩, Configuration.new 0⟩
    let ops : List (Operation Unit Unit) :=
      [.create "c" config, .onCache 0 (onTexts (.put "k" "v")), .onCache 0 (onTexts .close)]
    let s := (Operation.runAll ops (Manager.new "m" 0 [], ())).2
    let t := (destroyCache "c").run s
    s.1.closed = false ∧ t.1 ≠ .ok () ∧ ∃ c, t.2.1.cacheAt? 0 = some c ∧ ¬ c.Empty := by
  intro config ops s t
  exact ⟨rfl, nofun, _, rfl, nofun⟩

end Manager

end EntryCache
