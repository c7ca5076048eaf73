import EntryCache.Proofs.Provider.Steps

namespace EntryCache.Provider

variable {ω β : Type}

/-- What closing comes to in a state of a provider, of which any operations may follow. -/
structure Cascades (β : Type) (s : Provider ω × ω) : Prop where
  handsOut : ∀ context uri scope properties id,
    let handed := (Operation.cacheManager context uri scope properties : Operation ω β).run.run s
    handed.1 = .ok (.manager id) →
      ∃ m, handed.2.1.managerAt? id = some m ∧ (m.scope, m.uri) =
        (scope.getD context, uri.getD defaultUri)
  creates : ∀ id name config i,
    let created := (Operation.onManager id (.create name config) : Operation ω β).run.run s
    created.1 = .ok (.ofManager (.ok (.cache i))) →
      ∃ m c, created.2.1.managerAt? id = some m ∧ m.cacheAt? i = some c ∧ c.name = name
  managers : ∀ id m, s.1.managerAt? id = some m → m.closed = true ∨
    s.1.held.get? (m.scope, m.uri) = some id
  caches : ∀ id m i c, s.1.managerAt? id = some m → m.cacheAt? i = some c →
    c.closed = true ∨ m.held.get? c.name = some i
  shut : ∀ id m, s.1.managerAt? id = some m → m.closed = true → m.Shut
  close : ∀ id m, s.1.managerAt? id = some m →
    ∃ m', ((Operation.close : Operation ω β).run.run s).2.1.managerAt? id = some m' ∧
      m.Later m' ∧ m'.Shut
  closeScope : ∀ scope id m, s.1.managerAt? id = some m →
    ∃ m', ((Operation.closeScope scope : Operation ω β).run.run s).2.1.managerAt? id = some m' ∧
      m.Later m' ∧
      (m.scope = scope → m'.Shut) ∧ (m.scope ≠ scope → m' = m)
  lasts : ∀ more : List (Operation ω β), s.1.Later (Operation.runAll more s).2.1
  refuses : ∀ id m (op : Manager.Operation ω β), s.1.managerAt? id = some m → m.closed = true →
    op.NeedsOpen →
    (Operation.onManager id op).run.run s =
      (.ok (.ofManager (.error (.illegalState ("CacheManager " ++ m.uri ++ " is closed")))), s)

theorem Tidy.cascades {s : Provider ω × ω} (h : s.1.Tidy) : Cascades β s where
  handsOut context uri scope properties id := by
    intro handed hid
    obtain ⟨i, hrun, hi⟩ := Action.exists_of_run_map hid
    obtain rfl : i = id := Reply.manager.inj hi
    have hstate : handed.2 = _ := Action.snd_run_map ..
    rw [hstate]
    exact h.managerAt?_of_answered hrun
  creates id name config i := by
    intro created hi
    obtain ⟨p, w⟩ := s
    have hrun : created = _ := run_onManager id (.create name config) p w
    rw [hrun] at hi ⊢
    cases hm : p.managerAt? id with
    | none =>
      rw [hm] at hi
      cases hi
    | some m =>
      rw [hm] at hi
      obtain ⟨j, hrun, hj⟩ := Action.exists_of_run_map (Reply.ofManager.inj (Except.ok.inj hi))
      obtain rfl : j = i := Manager.Reply.cache.inj hj
      obtain ⟨c, hc, hname⟩ := Manager.cacheAt?_of_created hrun
      refine ⟨_, c, (managerAt?_setManager hm _ id).trans (if_pos rfl), ?_, hname⟩
      rw [Manager.Operation.run, Action.snd_run_map]
      exact hc
  managers _ _ := h.kept
  caches _ _ _ _ hm := (h.managers hm).kept
  shut _ _ hm := (h.managers hm).shut
  close id m hm := by
    refine ⟨m.close, ?_, .close (h.managers hm), (h.managers hm).shut_close⟩
    rw [Operation.run, Action.snd_run_map]
    exact h.managerAt?_closeHeld_of_some (fun _ => true) hm
  closeScope scope id m hm := by
    refine ⟨if m.scope == scope then m.close else m, ?_, ?_, ?_, ?_⟩
    · rw [Operation.run, Action.snd_run_map]
      exact h.managerAt?_closeHeld_of_some (fun q => q.1 == scope) hm
    · split
      · exact .close (h.managers hm)
      · exact .refl m
    · intro hscope
      rw [if_pos (beq_iff_eq.2 hscope)]
      exact (h.managers hm).shut_close
    · intro hscope
      exact if_neg fun heq => hscope (beq_iff_eq.1 heq)
  lasts more := (Operation.reaches_runAll more h).later
  refuses id m op hm hclosed hop := by
    obtain ⟨p, w⟩ := s
    have hrefused : op.run.run (m, w) = _ := op.refuses (s := (m, w)) hclosed hop
    have hself : p.setManager id m = p := by rw [Provider.setManager, set_of_getElem?_eq_some hm]
    rw [run_onManager, hm]
    simp only [hrefused, hself]
    rfl

/-- Whatever was done with a provider before, its managers and their caches, closing reaches all of
them that are open, and what it closes stays closed. -/
theorem cascades_runAll (w : ω) (ops : List (Operation ω β)) :
    Cascades β (Operation.runAll ops (Provider.new true, w)).2 :=
  (Operation.reaches_runAll ops (tidy_new true)).tidy.cascades

theorem cascades_runAll_scopes :
    let config : AnyConfiguration Unit := ⟨⟨.text, .text⟩, Configuration.new 0⟩
    let ops : List (Operation Unit Unit) :=
      [.cacheManager 0 none none none, .onManager 0 (.create "c" config),
        .cacheManager 0 none (some 1) none,
        .onManager 1 (.create "c" config)]
    let s := (Operation.runAll ops (Provider.new true, ())).2
    let t := ((Operation.closeScope 0 : Operation Unit Unit).run.run s).2
    (∃ m, t.1.managerAt? 0 = some m ∧ m.Shut ∧ m.created.length = 1) ∧
      ∃ m, t.1.managerAt? 1 = some m ∧ m.closed = false ∧ ∃ c, m.cacheAt? 0 = some c ∧
        c.closed = false := by
  intro config ops s t
  have h : Cascades Unit s := cascades_runAll () ops
  constructor
  · obtain ⟨m, hm, -, hshut, -⟩ := h.closeScope 0 0 _ rfl
    obtain rfl := Option.some.inj hm
    exact ⟨_, hm, hshut rfl, rfl⟩
  · obtain ⟨m, hm, -, -, hsame⟩ := h.closeScope 0 1 _ rfl
    obtain rfl := hsame nofun
    exact ⟨_, hm, rfl, _, rfl, rfl⟩

end EntryCache.Provider
