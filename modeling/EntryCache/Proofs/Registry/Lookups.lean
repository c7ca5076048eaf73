import EntryCache.Proofs.Registry.Runs
import EntryCache.Proofs.Registry.Scopes

namespace EntryCache.Registry

variable {ι π ω α : Type}

def held (r : Registry ι π) (scope : ScopeId) : List (String × π) := (r.table.get? scope).getD []

theorem held_insert (r : Registry ι π) (scope : ScopeId) (ps : List (String × π)) :
    ({ r with table := r.table.insert scope ps } : Registry ι π).held =
      Function.update r.held scope ps := by
  funext a
  simp only [held, FiniteMap.get?_insert_eq_update, Function.update_apply]
  split <;> rfl

theorem held_erase (r : Registry ι π) (scope : ScopeId) :
    ({ r with table := r.table.erase scope } : Registry ι π).held =
      Function.update r.held scope [] := by
  funext a
  simp only [held, FiniteMap.get?_erase_eq_update, Function.update_apply]
  split <;> rfl

theorem get?_forget (r : Registry ι π) (scope : ScopeId) :
    r.forget.table.get? scope = if r.scopes.isAlive scope then r.table.get? scope else none :=
  FiniteMap.get?_filter ..

theorem held_forget (r : Registry ι π) (scope : ScopeId) :
    r.forget.held scope = if r.scopes.isAlive scope then r.held scope else [] := by
  rw [held, get?_forget]
  split <;> rfl

theorem held_keep (r : Registry ι π) (scope : ScopeId) (name : String) (p : π) :
    (r.keep scope name p).held = Function.update r.held scope (r.held scope ++ [(name, p)]) :=
  held_insert ..

theorem held_putBack (r : Registry ι π) (scope : ScopeId) (ps : List (String × π)) :
    (r.putBack scope ps).held = Function.update r.held scope ps := by
  unfold putBack
  split
  · next h => rw [held_erase, List.isEmpty_iff.1 h]
  · exact held_insert ..

theorem nodup_names (r : Registry ι π) (scope : ScopeId) : (r.names scope).Nodup := by
  unfold names
  split
  · exact List.nodup_singleton _
  · exact Scopes.nodup_serviceNames ..

/-- Every provider that is made is a new instance, and closings are on record. -/
structure Workshop.Ledger (k : Workshop ι π ω) (made : ω → π → Prop)
    (closed : ω → List π) : Prop where
  makes : ∀ {i w p}, (k.make i w).1 = .ok p → ¬ made w p ∧ made (k.make i w).2 p
  makeKeeps : ∀ {i w p}, made w p → made (k.make i w).2 p
  makeCloses : ∀ i w, closed (k.make i w).2 = closed w
  closeKeeps : ∀ {q w p}, made w p → made ((k.close q).run w).2 p
  closes : ∀ q w, closed ((k.close q).run w).2 = closed w ++ [q]

variable {k : Workshop ι π ω} {made : ω → π → Prop} {closed : ω → List π} {s t u : Registry ι π × ω}
  {scope : ScopeId}
  {name : String} {new more : List (String × π)}

structure Built (made : ω → π → Prop) (closed : ω → List π) (w w' : ω) : Prop where
  made : ∀ p, made w p → made w' p
  closed : closed w' = closed w

structure Grows (made : ω → π → Prop) (closed : ω → List π) (scope : ScopeId)
    (new : List (String × π)) (s s' : Registry ι π × ω) : Prop where
  scopes : s'.1.scopes = s.1.scopes
  held : s'.1.held = Function.update s.1.held scope (s.1.held scope ++ new)
  known : new ≠ [] → scope < s.1.scopes.made.length
  names : ((s.1.held scope).map Prod.fst).Nodup → ((s.1.held scope ++ new).map Prod.fst).Nodup
  instances : (new.map Prod.snd).Nodup
  fresh : ∀ q ∈ new, ¬ made s.2 q.2 ∧ made s'.2 q.2
  world : Built made closed s.2 s'.2

namespace Built

variable {w w' w'' : ω}

theorem refl (w : ω) : Built made closed w w := ⟨fun _ h => h, rfl⟩

theorem trans (h : Built made closed w w') (h' : Built made closed w' w'') :
    Built made closed w w'' :=
  ⟨fun p hp => h'.made p (h.made p hp), h'.closed.trans h.closed⟩

end Built

namespace Grows

theorem of_built {w w' : ω} {r : Registry ι π} (h : Built made closed w w') :
    Grows made closed scope [] (r, w) (r, w') where
  scopes := rfl
  held := by rw [List.append_nil, Function.update_eq_self]
  known := absurd rfl
  names hn := by rwa [List.append_nil]
  instances := List.nodup_nil
  fresh := nofun
  world := h

theorem refl : Grows made closed scope [] s s := of_built (.refl s.2)

theorem held_self (h : Grows made closed scope new s t) :
    t.1.held scope = s.1.held scope ++ new := by
  rw [h.held, Function.update_self]

theorem trans (h : Grows made closed scope new s t) (h' : Grows made closed scope more t u) :
    Grows made closed scope (new ++ more) s u where
  scopes := h'.scopes.trans h.scopes
  held := by rw [h'.held, h.held_self, h.held, Function.update_idem, List.append_assoc]
  known hne := by
    by_cases hnew : new = []
    · subst hnew
      rw [← h.scopes]
      exact h'.known hne
    · exact h.known hnew
  names hn := by
    rw [← List.append_assoc, ← h.held_self]
    apply h'.names
    rw [h.held_self]
    exact h.names hn
  instances := by
    rw [List.map_append]
    refine h.instances.append h'.instances fun p hp hp' => ?_
    obtain ⟨q, hq, rfl⟩ := List.mem_map.1 hp
    obtain ⟨q', hq', heq⟩ := List.mem_map.1 hp'
    exact (h'.fresh q' hq').1 (heq ▸ (h.fresh q hq).2)
  fresh q hq := by
    rcases List.mem_append.1 hq with hq | hq
    · exact ⟨(h.fresh q hq).1, h'.world.made _ (h.fresh q hq).2⟩
    · exact ⟨fun hmade => (h'.fresh q hq).1 (h.world.made _ hmade), (h'.fresh q hq).2⟩
  world := h.world.trans h'.world

end Grows

theorem run_load (name : String) (scope : ScopeId) (r : Registry ι π) (w : ω) :
    (load k.construct name scope).run (r, w) =
      match r.scopes.load scope name with
      | none => (.error (loadError name (unregistered (r.scopes.label scope))), (r, w))
      | some service =>
        ((k.make service w).1.mapError fun why => loadError name why.message,
          (r, (k.make service w).2)) := by
  change load k.construct name scope (r, w) = _
  unfold load
  cases r.scopes.load scope name <;> rfl

theorem run_loadEach_cons (name : String) (names : List String) (scope : ScopeId)
    (s : Registry ι π × ω) : (loadEach k.construct scope (name :: names)).run s =
      match (load k.construct name scope).run s with
      | (.error e, s') => (.error e, s')
      | (.ok p, s') =>
        match (loadEach k.construct scope names).run s' with
        | (.error e, s') => (.error e, s')
        | (.ok ps, s') => (.ok ((name, p) :: ps), s') := by
  rw [loadEach, Action.run_bind]
  rcases (load k.construct name scope).run s with ⟨e | p, s'⟩
  · rfl
  · simp only
    rw [Action.run_bind]
    rcases (loadEach k.construct scope names).run s' with ⟨e | ps, s'⟩ <;> rfl

theorem load_leaves (name : String) (scope : ScopeId) :
    (load k.construct name scope).Leaves (Prod.fst : Registry ι π × ω → Registry ι π) := by
  rintro ⟨r, w⟩
  rw [run_load]
  cases r.scopes.load scope name <;> rfl

theorem loadEach_leaves (scope : ScopeId) (names : List String) :
    (loadEach k.construct scope names).Leaves (Prod.fst : Registry ι π × ω → Registry ι π) := by
  apply Action.Leaves.of_keeps
  intro r
  induction names with
  | nil => exact .pure _
  | cons name names ih =>
    refine ((load_leaves name scope).keeps (· = r)).bind fun p => ?_
    exact ih.bind fun ps => .pure _

theorem loadEach_names {scope : ScopeId} {names : List String} {s : Registry ι π × ω}
    {found : List (String × π)} (h : ((loadEach k.construct scope names).run s).1 = .ok found) :
    found.map Prod.fst = names := by
  induction names generalizing s found with
  | nil =>
    obtain rfl : [] = found := Except.ok.inj h
    rfl
  | cons name names ih =>
    rw [run_loadEach_cons] at h
    rcases hload : (load k.construct name scope).run s with ⟨e | p, s'⟩ <;> rw [hload] at h
    · cases h
    · simp only at h
      rcases hrest : (loadEach k.construct scope names).run s' with ⟨e | ps, s''⟩ <;>
        rw [hrest] at h <;> cases h
      rw [List.map_cons, ih (congrArg Prod.fst hrest)]

theorem load_built (h : k.Ledger made closed) (name : String) (scope : ScopeId)
    (s : Registry ι π × ω) : Built made closed s.2 ((load k.construct name scope).run s).2.2 ∧
      ∀ p, ((load k.construct name scope).run s).1 = .ok p →
        scope < s.1.scopes.made.length ∧ ¬ made s.2 p ∧
        made ((load k.construct name scope).run s).2.2 p := by
  obtain ⟨r, w⟩ := s
  rw [run_load]
  cases hload : r.scopes.load scope name with
  | none => exact ⟨.refl w, nofun⟩
  | some service =>
    refine ⟨⟨fun _ => h.makeKeeps, h.makeCloses service w⟩, fun p hp => ?_⟩
    refine ⟨Scopes.lt_of_load_eq_some hload, h.makes ?_⟩
    rcases hmake : (k.make service w).1 with e | q <;> simp only [hmake] at hp <;> cases hp
    rfl

theorem loadEach_built (h : k.Ledger made closed) (scope : ScopeId) (names : List String)
    (s : Registry ι π × ω) : Built made closed s.2 ((loadEach k.construct scope names).run s).2.2 ∧
      ∀ found, ((loadEach k.construct scope names).run s).1 = .ok found →
        (found.map Prod.snd).Nodup ∧ (found ≠ [] → scope < s.1.scopes.made.length) ∧
          ∀ q ∈ found, ¬ made s.2 q.2 ∧ made
            ((loadEach k.construct scope names).run s).2.2 q.2 := by
  induction names generalizing s with
  | nil =>
    refine ⟨.refl _, fun found hfound => ?_⟩
    obtain rfl : [] = found := Except.ok.inj hfound
    exact ⟨List.nodup_nil, absurd rfl, nofun⟩
  | cons name names ih =>
    rw [run_loadEach_cons]
    obtain ⟨hbuilt, hnew⟩ := load_built h name scope s
    rcases hload : (load k.construct name scope).run s with ⟨e | p, s'⟩ <;>
      rw [hload] at hbuilt hnew
    · exact ⟨hbuilt, nofun⟩
    · obtain ⟨hknown, hp⟩ := hnew p rfl
      obtain ⟨hrest, hfound⟩ := ih s'
      simp only
      rcases heach : (loadEach k.construct scope names).run s' with ⟨e | ps, s''⟩ <;>
        rw [heach] at hrest hfound
      · exact ⟨hbuilt.trans hrest, nofun⟩
      · refine ⟨hbuilt.trans hrest, fun found heq => ?_⟩
        obtain rfl : (name, p) :: ps = found := Except.ok.inj heq
        obtain ⟨hdistinct, -, hfresh⟩ := hfound ps rfl
        refine ⟨?_, fun _ => hknown, fun q hq => ?_⟩
        · rw [List.map_cons, List.nodup_cons]
          refine ⟨fun hmem => ?_, hdistinct⟩
          obtain ⟨q, hq, heq⟩ := List.mem_map.1 hmem
          exact (hfresh q hq).1 (heq ▸ hp.2)
        · rcases List.mem_cons.1 hq with rfl | hq
          · exact ⟨hp.1, hrest.made _ hp.2⟩
          · exact ⟨fun hmade => (hfresh q hq).1 (hbuilt.made _ hmade), (hfresh q hq).2⟩

def shelve (scope : ScopeId) (ps : List (String × π)) (r : Registry ι π) : Registry ι π :=
  { r with table := r.table.insert scope ps }

theorem run_discover (scope : ScopeId) (s : Registry ι π × ω) :
    (discover k.construct scope).run s =
      match (loadEach k.construct scope (s.1.names scope)).run s with
      | (.error e, s') => (.error e, s')
      | (.ok found, s') => (.ok found, (s'.1.shelve scope found, s'.2)) := by
  rw [discover, Action.run_bind_of_ok (run_look _ _), Action.run_bind]
  rcases (loadEach k.construct scope (s.1.names scope)).run s with ⟨e | found, s'⟩ <;> rfl

theorem run_known (scope : ScopeId) (s : Registry ι π × ω) :
    (known k.construct scope).run s =
      match s.1.table.get? scope with
      | some found => (.ok found, s)
      | none => (discover k.construct scope).run s := by
  rw [known, Action.run_bind_of_ok (run_look _ _)]
  cases s.1.table.get? scope <;> rfl

theorem run_providers (scope : ScopeId) (s : Registry ι π × ω) :
    (providers k.construct scope).run s =
      ((known k.construct scope).run (s.1.forget, s.2)).map
        (Except.map (List.map Prod.snd)) id := by
  rw [providers, Action.run_bind_of_ok (run_update _ _), bind_pure_comp, Action.run_map]
  rfl

theorem discover_names {scope : ScopeId} {s : Registry ι π × ω} {found : List (String × π)}
    (h : ((discover k.construct scope).run s).1 = .ok found) :
    found.map Prod.fst = s.1.names scope := by
  rw [run_discover] at h
  rcases heach : (loadEach k.construct scope (s.1.names scope)).run s with ⟨e | ps, s'⟩ <;>
    rw [heach] at h <;> cases h
  exact loadEach_names (congrArg Prod.fst heach)

theorem discover_grows (h : k.Ledger made closed) {scope : ScopeId}
    (hnone : s.1.table.get? scope = none) :
    ∃ new, Grows made closed scope new s ((discover k.construct scope).run s).2 ∧
      ∀ found, ((discover k.construct scope).run s).1 = .ok found →
        found = ((discover k.construct scope).run s).2.1.held scope := by
  obtain ⟨r, w⟩ := s
  have hheld : r.held scope = [] := by rw [held, hnone]; rfl
  rw [run_discover]
  obtain ⟨hbuilt, hfound⟩ := loadEach_built h scope (r.names scope) (r, w)
  have hleaves := loadEach_leaves scope (r.names scope) (k := k) (r, w)
  rcases heach : (loadEach k.construct scope (r.names scope)).run
    (r, w) with ⟨e | found, r', w'⟩ <;>
    rw [heach] at hbuilt hfound hleaves <;> obtain rfl : r' = r := hleaves
  · exact ⟨[], .of_built hbuilt, nofun⟩
  · obtain ⟨hdistinct, hknown, hfresh⟩ := hfound found rfl
    refine ⟨found, ⟨rfl, ?_, hknown, fun _ => ?_, hdistinct, hfresh, hbuilt⟩, ?_⟩
    · rw [hheld]
      exact held_insert r' scope found
    · rw [hheld, List.nil_append, loadEach_names (congrArg Prod.fst heach)]
      exact nodup_names r' scope
    · rintro _ ⟨⟩
      have hself := congrFun (held_insert r' scope found) scope
      rw [Function.update_self] at hself
      exact hself.symm

theorem known_grows (h : k.Ledger made closed) (scope : ScopeId) (s : Registry ι π × ω) :
    ∃ new, Grows made closed scope new s ((known k.construct scope).run s).2 ∧
      ∀ found, ((known k.construct scope).run s).1 = .ok found →
        found = ((known k.construct scope).run s).2.1.held scope := by
  rw [run_known]
  cases hget : s.1.table.get? scope with
  | some found =>
    refine ⟨[], .refl, ?_⟩
    rintro _ ⟨⟩
    rw [held, hget]
    rfl
  | none =>
    exact discover_grows h hget

theorem providers_grows (h : k.Ledger made closed) (scope : ScopeId) (s : Registry ι π × ω) :
    ∃ new, Grows made closed scope new (s.1.forget, s.2) ((providers k.construct scope).run s).2 ∧
      ∀ ps, ((providers k.construct scope).run s).1 = .ok ps →
        ps = (((providers k.construct scope).run s).2.1.held scope).map Prod.snd := by
  rw [run_providers]
  obtain ⟨new, hgrows, hfound⟩ := known_grows h scope (s.1.forget, s.2)
  refine ⟨new, hgrows, fun ps hps => ?_⟩
  rcases hrun : (known k.construct scope).run (s.1.forget, s.2) with ⟨e | found, s'⟩ <;>
    rw [hrun] at hps hfound
  · cases hps
  · cases hps
    rw [hfound found rfl]
    rfl

theorem snd_run_provider (scope : ScopeId) (s : Registry ι π × ω) :
    ((provider k.construct k.name scope).run s).2 = ((providers k.construct scope).run s).2 := by
  rw [provider, Action.run_bind]
  rcases (providers k.construct scope).run s with ⟨e | _ | ⟨p, _ | ⟨q, ps⟩⟩, s'⟩ <;> rfl

theorem providers_of_provider {scope : ScopeId} {s : Registry ι π × ω} {p : π}
    (h : ((provider k.construct k.name scope).run s).1 = .ok p) :
    ((providers k.construct scope).run s).1 = .ok [p] := by
  rw [provider, Action.run_bind] at h
  rcases hrun : (providers k.construct scope).run s with ⟨e | _ | ⟨p', _ | ⟨q, ps⟩⟩, s'⟩ <;>
    rw [hrun] at h <;> cases h
  rfl

theorem run_providerNamed (name : String) (scope : ScopeId) (s : Registry ι π × ω) :
    (providerNamed k.construct name scope).run s =
      match (known k.construct scope).run (s.1.forget, s.2) with
      | (.error e, s') => (.error e, s')
      | (.ok _, s') =>
        match (s'.1.held scope).lookup name with
        | some p => (.ok p, s')
        | none =>
          match (load k.construct name scope).run s' with
          | (.error e, s') => (.error e, s')
          | (.ok p, s') => (.ok p, (s'.1.keep scope name p, s'.2)) := by
  rw [providerNamed, Action.run_bind_of_ok (run_update _ _), Action.run_bind, Action.run_discard]
  rcases (known k.construct scope).run (s.1.forget, s.2) with ⟨e | found, s'⟩
  · rfl
  · change (look _ >>= _).run s' = _
    rw [Action.run_bind_of_ok (run_look _ _)]
    change (match (s'.1.held scope).lookup name with | some p => _ | none => _ : Op ι π ω π).run
      s' = _
    simp only
    cases (s'.1.held scope).lookup name with
    | some p => rfl
    | none =>
      simp only
      rw [Action.run_bind]
      rcases (load k.construct name scope).run s' with ⟨e | p, t⟩ <;> rfl

theorem keep_grows {w' : ω} (hbuilt : Built made closed s.2 w')
    (hnone : (s.1.held scope).lookup name = none) {p : π}
    (hp : scope < s.1.scopes.made.length ∧ ¬ made s.2 p ∧ made w' p) :
    Grows made closed scope [(name, p)] s (s.1.keep scope name p, w') where
  scopes := rfl
  held := held_keep ..
  known _ := hp.1
  names hn := by
    rw [List.map_append]
    refine hn.append (List.nodup_singleton _) fun n hn hname => ?_
    obtain rfl : n = name := by simpa using hname
    obtain ⟨q, hq, rfl⟩ := List.mem_map.1 hn
    simpa using List.lookup_eq_none_iff.1 hnone q hq
  instances := List.nodup_singleton _
  fresh q hq := by
    obtain rfl := List.mem_singleton.1 hq
    exact hp.2
  world := hbuilt

theorem providerNamed_grows (h : k.Ledger made closed) (name : String) (scope : ScopeId)
    (s : Registry ι π × ω) : ∃ new, Grows made closed scope new (s.1.forget, s.2)
      ((providerNamed k.construct name scope).run s).2 ∧
      ∀ p, ((providerNamed k.construct name scope).run s).1 = .ok p →
        (name, p) ∈ ((providerNamed k.construct name scope).run s).2.1.held scope := by
  obtain ⟨new, hgrows, -⟩ := known_grows h scope (s.1.forget, s.2)
  rw [run_providerNamed]
  rcases hknown : (known k.construct scope).run (s.1.forget, s.2) with ⟨e | found, t⟩ <;>
    rw [hknown] at hgrows
  · exact ⟨new, hgrows, nofun⟩
  · simp only
    cases hlookup : (t.1.held scope).lookup name with
    | some p =>
      refine ⟨new, hgrows, ?_⟩
      rintro _ ⟨⟩
      exact (FiniteMap.perm_cons_drop hlookup).symm.subset List.mem_cons_self
    | none =>
      obtain ⟨hbuilt, hnew⟩ := load_built h name scope t
      have hleaves := load_leaves name scope (k := k) t
      simp only
      rcases hload : (load k.construct name scope).run t with ⟨e | p, r, w⟩ <;>
        rw [hload] at hbuilt hnew hleaves <;> obtain rfl : r = t.1 := hleaves
      · refine ⟨new, ?_, nofun⟩
        have hall := hgrows.trans (Grows.of_built hbuilt)
        rwa [List.append_nil] at hall
      · refine ⟨_, hgrows.trans (keep_grows hbuilt hlookup (hnew p rfl)), ?_⟩
        rintro _ ⟨⟩
        rw [held_keep, Function.update_self]
        exact List.mem_append_right _ List.mem_cons_self

end EntryCache.Registry
