import EntryCache.Proofs.Registry.Instances

namespace EntryCache.Registry

variable {ι π ω α : Type} {k : Workshop ι π ω} {c : Scopes ι} {r : Registry ι π}
  {s : Registry ι π × ω}
  {scope a : ScopeId} {names : List String} {deeds : List (Deed ι π)}

structure Make (ι π : Type) : Type where
  name : String
  service : ι
  provider : π

namespace Make

def deed (m : Make ι π) : Deed ι π := .made m.service (.ok m.provider)

def entry (m : Make ι π) : String × π := (m.name, m.provider)

end Make

/-- What comes of loading names one after the other: all providers are made, or a name is not
registered, or its service fails to make a provider. -/
inductive Loading (c : Scopes ι) (scope : ScopeId) :
    List String → List (Deed ι π) → Except Error (List (String × π)) → Prop
  | complete (makes : List (Make ι π))
    (services : ∀ m ∈ makes, c.load scope m.name = some m.service) :
      Loading c scope (makes.map Make.name) (makes.map Make.deed) (.ok (makes.map Make.entry))
  | missing (makes : List (Make ι π)) (services : ∀ m ∈ makes, c.load scope m.name = some m.service)
      (name : String) (rest : List String) (service : c.load scope name = none) :
      Loading c scope (makes.map Make.name ++ name :: rest) (makes.map Make.deed)
        (.error (.cache ("Failed to load the CachingProvider [" ++ name ++ "]: " ++
          ("not registered in scope " ++ c.label scope))))
  | broken (makes : List (Make ι π)) (services : ∀ m ∈ makes, c.load scope m.name = some m.service)
      (name : String) (rest : List String) (x : ι) (service : c.load scope name = some x)
      (failure : ConstructionFailure) :
      Loading c scope (makes.map Make.name ++ name :: rest)
        (makes.map Make.deed ++ [.made x (.error failure)])
        (.error (.cache ("Failed to load the CachingProvider [" ++ name ++ "]: " ++
          match failure with
          | .failed e => e.message
          | .panicked => "constructor panicked")))

theorem Loading.cons {loaded : Except Error (List (String × π))}
    (h : Loading c scope names deeds loaded) (m : Make ι π)
    (hm : c.load scope m.name = some m.service) :
    Loading c scope (m.name :: names) (m.deed :: deeds) (loaded.map (m.entry :: ·)) := by
  cases h with
  | complete makes services => exact .complete (m :: makes) (List.forall_mem_cons.2 ⟨hm, services⟩)
  | missing makes services name rest service =>
    exact .missing (m :: makes) (List.forall_mem_cons.2 ⟨hm, services⟩) name rest service
  | broken makes services name rest x service failure =>
    exact .broken (m :: makes) (List.forall_mem_cons.2 ⟨hm, services⟩) name rest x service failure

theorem load_noted (name : String) (scope : ScopeId) (s : Registry ι π × ω)
    (before : List (Deed ι π)) :
    ∃ deeds, (load k.noted.construct name scope).run (s.1, (s.2, before)) =
      noting (before ++ deeds) ((load k.construct name scope).run s) := by
  obtain ⟨r, w⟩ := s
  rw [run_load, run_load]
  cases r.scopes.load scope name with
  | none => exact ⟨[], by rw [List.append_nil]; rfl⟩
  | some service => exact ⟨_, rfl⟩

theorem loadEach_noted (scope : ScopeId) (names : List String) (r : Registry ι π) (w : ω)
    (before : List (Deed ι π)) :
    ∃ deeds, (loadEach k.noted.construct scope names).run (r, (w, before)) =
        noting (before ++ deeds) ((loadEach k.construct scope names).run (r, w)) ∧
      Loading r.scopes scope names deeds ((loadEach k.construct scope names).run (r, w)).1 := by
  induction names generalizing w before with
  | nil => exact ⟨[], by rw [List.append_nil]; rfl, .complete [] nofun⟩
  | cons name names ih =>
    rw [run_loadEach_cons, run_loadEach_cons, run_load, run_load]
    cases hload : r.scopes.load scope name with
    | none => exact ⟨[], by rw [List.append_nil]; rfl, .missing [] nofun name names hload⟩
    | some service =>
      simp only [Workshop.make_noted]
      rcases k.make service w with ⟨failure | p, w'⟩
      · exact ⟨[.made service (.error failure)], rfl,
          .broken [] nofun name names service hload failure⟩
      · obtain ⟨deeds, hrun, hloading⟩ := ih w' (before ++ [.made service (.ok p)])
        have hcons := hloading.cons ⟨name, service, p⟩ hload
        rw [List.append_assoc] at hrun
        simp only [Except.mapError, hrun]
        rcases heach : (loadEach k.construct scope names).run (r, w') with ⟨e | found, s'⟩ <;>
          rw [heach] at hcons
        · exact ⟨_, rfl, hcons⟩
        · exact ⟨_, rfl, hcons⟩

def shelveLoaded (scope : ScopeId) (loaded : Except Error (List (String × π))) (r : Registry ι π) :
    Registry ι π :=
  match loaded with
  | .ok found => r.shelve scope found
  | .error _ => r

structure Discovers (k : Workshop ι π ω) (s : Registry ι π × ω) (scope : ScopeId)
    (deeds : List (Deed ι π)) (loaded : Except Error (List (String × π))) : Prop where
  does : (providers k.noted.construct scope).run (s.1, (s.2, [])) =
    noting deeds ((providers k.construct scope).run s)
  loading : Loading s.1.scopes scope
    (match s.1.override with
      | some name => [name]
      | none => s.1.scopes.serviceNames scope)
    deeds loaded
  answer : ((providers k.construct scope).run s).1 = loaded.map (List.map Prod.snd)
  registry : ((providers k.construct scope).run s).2.1 = s.1.forget.shelveLoaded scope loaded

theorem known_noted (hnone : r.table.get? scope = none) (w : ω) :
    ∃ deeds loaded, Loading r.scopes scope (r.names scope) deeds loaded ∧
      (known k.noted.construct scope).run (r, (w, [])) =
        noting deeds ((known k.construct scope).run (r, w)) ∧
      ((known k.construct scope).run (r, w)).1 = loaded ∧
      ((known k.construct scope).run (r, w)).2.1 = r.shelveLoaded scope loaded := by
  obtain ⟨deeds, hrun, hloading⟩ := loadEach_noted (k := k) scope (r.names scope) r w []
  have hleaves := loadEach_leaves (k := k) scope (r.names scope) (r, w)
  refine ⟨deeds, _, hloading, ?_⟩
  rw [run_known, run_known, hnone]
  simp only
  rw [run_discover, run_discover, hrun]
  rcases hx : (loadEach k.construct scope (r.names scope)).run (r, w) with ⟨e | found, s'⟩ <;>
    rw [hx] at hleaves
  · exact ⟨rfl, rfl, hleaves⟩
  · exact ⟨rfl, rfl, congrArg (shelve scope found) hleaves⟩

theorem providers_discovers (hnone : s.1.forget.table.get? scope = none) :
    ∃ deeds loaded, Discovers k s scope deeds loaded ∧
      (known k.noted.construct scope).run (s.1.forget, (s.2, [])) =
        noting deeds ((known k.construct scope).run (s.1.forget, s.2)) := by
  obtain ⟨r, w⟩ := s
  obtain ⟨deeds, loaded, hloading, hrun, hanswer, hregistry⟩ := known_noted (k := k) hnone w
  refine ⟨deeds, loaded, ⟨?_, hloading, ?_, ?_⟩, hrun⟩
  · simp only [run_providers, hrun]
    rfl
  · rw [run_providers]
    exact congrArg (Except.map _) hanswer
  · rw [run_providers]
    exact hregistry

theorem does_map {β : Type} {x : Op ι π ω α} {y : Op ι π (ω × List (Deed ι π)) α}
    (h : y.run (s.1, (s.2, [])) = noting deeds (x.run s)) (f : α → β) :
    (f <$> y).run (s.1, (s.2, [])) = noting deeds ((f <$> x).run s) := by
  rw [Action.run_map, Action.run_map, h]
  rfl

theorem provider_noted
    (h : (providers k.noted.construct scope).run (s.1, (s.2, [])) =
      noting deeds ((providers k.construct scope).run s)) :
    (provider k.noted.construct k.noted.name scope).run (s.1, (s.2, [])) =
      noting deeds ((provider k.construct k.name scope).run s) := by
  rw [provider, provider, Action.run_bind, Action.run_bind, h]
  rcases (providers k.construct scope).run s with ⟨e | _ | ⟨p, _ | ⟨q, ps⟩⟩, s'⟩ <;> rfl

theorem providerNamed_noted
    (h : (known k.noted.construct scope).run (s.1.forget, (s.2, [])) =
      noting deeds ((known k.construct scope).run (s.1.forget, s.2))) (name : String) :
    ∃ more, (providerNamed k.noted.construct name scope).run (s.1, (s.2, [])) =
      noting (deeds ++ more) ((providerNamed k.construct name scope).run s) := by
  rw [run_providerNamed, run_providerNamed, h]
  rcases (known k.construct scope).run (s.1.forget, s.2) with ⟨e | found, t⟩
  · exact ⟨[], by rw [List.append_nil]; rfl⟩
  · simp only [noting]
    rcases (t.1.held scope).lookup name with _ | p
    · obtain ⟨more, hload⟩ := load_noted (k := k) name scope t deeds
      refine ⟨more, ?_⟩
      simp only [hload]
      rcases (load k.construct name scope).run t with ⟨e | p, t'⟩ <;> rfl
    · exact ⟨[], by rw [List.append_nil]⟩

theorem get?_shelve_of_ne (h : scope ≠ a) (found : List (String × π)) (r : Registry ι π) :
    (r.shelve a found).table.get? scope = r.table.get? scope :=
  FiniteMap.get?_insert_of_ne h.symm ..

theorem get?_known_of_ne (h : scope ≠ a) (s : Registry ι π × ω) :
    ((known k.construct a).run s).2.1.table.get? scope = s.1.table.get? scope := by
  have hleaves := loadEach_leaves a (s.1.names a) (k := k) s
  rw [run_known]
  cases s.1.table.get? a with
  | some found => rfl
  | none =>
    simp only
    rw [run_discover]
    rcases heach : (loadEach k.construct a (s.1.names a)).run s with ⟨e | found, s'⟩ <;>
      rw [heach] at hleaves
    · exact congrArg (·.table.get? scope) hleaves
    · exact (get?_shelve_of_ne h found s'.1).trans (congrArg (·.table.get? scope) hleaves)

theorem get?_providerNamed_of_ne (h : scope ≠ a) (name : String) (s : Registry ι π × ω) :
    ((providerNamed k.construct name a).run s).2.1.table.get? scope =
      s.1.forget.table.get? scope := by
  have hknown := get?_known_of_ne (k := k) h (s.1.forget, s.2)
  rw [run_providerNamed]
  rcases hrun : (known k.construct a).run (s.1.forget, s.2) with ⟨e | found, t⟩ <;>
    rw [hrun] at hknown
  · exact hknown
  · simp only at hknown ⊢
    rcases (t.1.held a).lookup name with _ | p
    · have hleaves := load_leaves name a (k := k) t
      simp only
      rcases hload : (load k.construct name a).run t with ⟨e | p, t'⟩ <;> rw [hload] at hleaves
      · exact (congrArg (·.table.get? scope) hleaves).trans hknown
      · exact (get?_shelve_of_ne h _ t'.1).trans
          ((congrArg (·.table.get? scope) hleaves).trans hknown)
    · exact hknown

theorem get?_forget_none (h : r.table.get? scope = none) : r.forget.table.get? scope = none := by
  rw [get?_forget, h, ite_self]

namespace Operation

theorem get?_run_none {op : Operation ι} (hop : op.asked ≠ some scope)
    (h : s.1.table.get? scope = none) : ((op.run k).run s).2.1.table.get? scope = none := by
  have hforget : s.1.forget.table.get? scope = none := get?_forget_none h
  cases op with
  | register a name service => exact h
  | providers a =>
    have hne : scope ≠ a := fun heq => hop (congrArg some heq.symm)
    rw [run, Action.snd_run_map, run_providers]
    exact (get?_known_of_ne hne _).trans hforget
  | provider a =>
    have hne : scope ≠ a := fun heq => hop (congrArg some heq.symm)
    rw [run, Action.snd_run_map, snd_run_provider, run_providers]
    exact (get?_known_of_ne hne _).trans hforget
  | providerNamed name a =>
    have hne : scope ≠ a := fun heq => hop (congrArg some heq.symm)
    rw [run, Action.snd_run_map, get?_providerNamed_of_ne hne]
    exact hforget
  | load name a =>
    rw [run, Action.snd_run_map, load_leaves]
    exact h
  | count => exact hforget
  | closeProvider name a =>
    obtain ⟨r, w⟩ := s
    rw [run, Action.snd_run_map, run_closeProvider]
    cases hlookup : (r.held a).lookup name with
    | none => exact h
    | some p =>
      have hne : a ≠ scope := fun heq => by
        rw [heq, held, h] at hlookup
        cases hlookup
      simp only [putBack]
      split
      · rw [FiniteMap.get?_erase_of_ne hne]
        exact h
      · rw [FiniteMap.get?_insert_of_ne hne]
        exact h
  | closeScope a =>
    rw [run, Action.snd_run_map, run_closeScope, FiniteMap.get?_erase, h, ite_self]
  | closeAll =>
    rw [run, Action.snd_run_map, run_closeAll]
    rfl
  | _ => exact h

theorem get?_runAll_none {ops : List (Operation ι)} (hops : ∀ op ∈ ops, op.asked ≠ some scope)
    (h : s.1.table.get? scope = none) : (runAll k ops s).2.1.table.get? scope = none := by
  induction ops generalizing s with
  | nil => exact h
  | cons op ops ih =>
    rw [List.forall_mem_cons] at hops
    exact ih hops.2 (get?_run_none hops.1 h)

theorem discovers_of_asked {op : Operation ι} (hop : op.asked = some scope)
    (h : s.1.forget.table.get? scope = none) :
    ∃ deeds loaded all, Discovers k s scope deeds loaded ∧ op.Does k s all ∧ deeds <+: all := by
  obtain ⟨deeds, loaded, hd, hknown⟩ := providers_discovers (k := k) h
  cases op with
  | providers a =>
    obtain rfl : a = scope := Option.some.inj hop
    exact ⟨deeds, loaded, deeds, hd, does_map hd.does _, List.prefix_refl _⟩
  | provider a =>
    obtain rfl : a = scope := Option.some.inj hop
    exact ⟨deeds, loaded, deeds, hd, does_map (provider_noted hd.does) _, List.prefix_refl _⟩
  | providerNamed name a =>
    obtain rfl : a = scope := Option.some.inj hop
    obtain ⟨more, hmore⟩ := providerNamed_noted hknown name
    exact ⟨deeds, loaded, deeds ++ more, hd, does_map hmore _, List.prefix_append _ _⟩
  | _ => cases hop

end Operation

/-- The providers of a scope for which nothing is kept are discovered: the names are loaded in order
up to the first that fails. After a failure every later lookup in that scope discovers them
anew. -/
theorem discovery_exact (k : Workshop ι π ω) {s : Registry ι π × ω} {scope : ScopeId}
    (hnone : s.1.forget.table.get? scope = none) :
    ∃ deeds loaded, Discovers k s scope deeds loaded ∧
      ∀ e, loaded = .error e → ∀ later : List (Operation ι), (∀ op ∈ later, op.asked ≠ some scope) →
        let t := (Operation.runAll k (.providers scope :: later) s).2
        t.1.forget.table.get? scope = none ∧ ∀ op : Operation ι, op.asked = some scope →
          ∃ deeds loaded all, Discovers k t scope deeds loaded ∧ op.Does k t all ∧
            deeds <+: all := by
  obtain ⟨deeds, loaded, hd, -⟩ := providers_discovers (k := k) hnone
  refine ⟨deeds, loaded, hd, ?_⟩
  rintro e rfl later hlater t
  have hfirst : (((Operation.providers scope).run k).run s).2.1.table.get? scope = none := by
    rw [Operation.run, Action.snd_run_map, hd.registry]
    exact hnone
  have hlast := Operation.get?_runAll_none (k := k) hlater hfirst
  have ht : t.1.forget.table.get? scope = none := get?_forget_none hlast
  exact ⟨ht, fun op hop => Operation.discovers_of_asked hop ht⟩

theorem discovery_exact_panicked :
    let k : Workshop String String Unit :=
      ⟨fun service w => (if service = "bad" then .error .panicked else .ok service, w),
        fun _ w => (.ok (), w), id⟩
    let ops : List (Operation String) :=
      [.makeScope "s" none, .register 1 "p" "x", .register 1 "q" "bad", .register 1 "r" "y"]
    let s := (Operation.runAll k ops (Registry.new .new none, ())).2
    s.1.forget.table.get? 1 = none ∧
      ∃ deeds loaded, Discovers k s 1 deeds loaded ∧
        deeds = [.made "x" (.ok "x"), .made "bad" (.error .panicked)] ∧
        loaded = .error (.cache "Failed to load the CachingProvider [q]: constructor panicked") ∧
        ∃ deeds loaded all, Discovers k (Operation.runAll k [.providers 1, .count] s).2 1
          deeds loaded ∧
          (Operation.providerNamed "p" 1).Does k
            (Operation.runAll k [.providers 1, .count] s).2 all ∧
          deeds <+: all := by
  intro k ops s
  have hnone : s.1.forget.table.get? 1 = none := rfl
  obtain ⟨deeds, loaded, hd, hlater⟩ := discovery_exact k hnone
  have hdeeds : deeds = [.made "x" (.ok "x"), .made "bad" (.error .panicked)] :=
    (congrArg (·.2.2.2) hd.does).symm
  have hloaded :
      loaded = .error (.cache "Failed to load the CachingProvider [q]: constructor panicked") := by
    cases loaded with
    | error e => exact congrArg Except.error (Except.error.inj hd.answer).symm
    | ok found => cases hd.answer
  refine ⟨hnone, deeds, loaded, hd, hdeeds, hloaded, ?_⟩
  exact (hlater _ hloaded [.count] (by simp [Operation.asked])).2 (.providerNamed "p" 1) rfl

end EntryCache.Registry
