import EntryCache.Proofs.Registry.Instances
import Mathlib.Data.List.Induction

namespace EntryCache.Registry

variable {ι π ω : Type} {k : Workshop ι π ω} {r : Registry ι π} {s : Registry ι π × ω}
  {scope a : ScopeId}
  {op : Operation ι} {ops : List (Operation ι)}

def Vacant (r : Registry ι π) (scope : ScopeId) : Prop := r.table.get? scope = some []

def occupied (r : Registry ι π) :
    List ScopeId := r.table.keys.filter fun scope => !(r.held scope).isEmpty

def Unadvertised (r : Registry ι π) (scope : ScopeId) : Prop :=
  r.forget.table.get? scope = none ∧ r.names scope = []

theorem size_eq_occupied_iff : r.table.size = r.occupied.length ↔ ∀ scope, ¬ r.Vacant scope := by
  have hsize : r.table.size = r.table.keys.length := (List.length_map _).symm
  rw [hsize, occupied, eq_comm, List.length_filter_eq_length_iff]
  constructor
  · intro h scope hvacant
    have hne := h scope (FiniteMap.mem_keys_iff.2 (by rw [FiniteMap.contains, hvacant]; rfl))
    rw [held, hvacant] at hne
    cases hne
  · intro h scope hscope
    rw [FiniteMap.mem_keys_iff, FiniteMap.contains] at hscope
    obtain ⟨ps, hget⟩ := Option.isSome_iff_exists.1 hscope
    rw [held, hget]
    cases ps with
    | nil => exact absurd hget (h scope)
    | cons p ps => rfl

theorem not_vacant_of_none (h : r.table.get? scope = none) : ¬ r.Vacant scope := by
  rw [Vacant, h]
  nofun

theorem vacant_of_forget (h : r.forget.Vacant scope) : r.Vacant scope := by
  rw [Vacant, get?_forget] at h
  split at h
  · exact h
  · cases h

theorem vacant_shelve {ps : List (String × π)} :
    (r.shelve scope ps).Vacant a ↔ if a = scope then ps = [] else r.Vacant a := by
  rw [Vacant, shelve, FiniteMap.get?_insert_eq_update, Function.update_apply]
  split
  · exact Option.some_inj
  · rfl

theorem not_vacant_putBack (h : ¬ r.Vacant a) (ps : List (String × π)) :
    ¬ (r.putBack scope ps).Vacant a := by
  unfold putBack
  cases ps with
  | nil =>
    simp only [List.isEmpty_nil, if_true, Vacant, FiniteMap.get?_erase]
    split
    · exact (Option.some_ne_none _).symm
    · exact h
  | cons p ps =>
    change ¬ (r.shelve scope (p :: ps)).Vacant a
    rw [vacant_shelve]
    split
    · exact List.cons_ne_nil p ps
    · exact h

theorem vacant_discover (hnone : s.1.table.get? scope = none) :
    ((discover k.construct scope).run s).2.1.Vacant a ↔ s.1.Vacant a ∨ a = scope ∧
    s.1.names scope = [] := by
  have hleaves := loadEach_leaves scope (s.1.names scope) (k := k) s
  rw [run_discover]
  rcases heach : (loadEach k.construct scope (s.1.names scope)).run s with ⟨e | found, s'⟩ <;>
    rw [heach] at hleaves
  · -- Without names there is no failure.
    have hnames : s.1.names scope ≠ [] := fun hnil => by
      rw [hnil] at heach
      cases heach
    simp only at hleaves ⊢
    rw [hleaves]
    exact ⟨.inl, fun h => h.resolve_right fun h => hnames h.2⟩
  · have hnames := loadEach_names (congrArg Prod.fst heach)
    simp only at hleaves ⊢
    rw [vacant_shelve, hleaves, ← hnames, List.map_eq_nil_iff]
    split
    · next ha =>
      subst ha
      exact ⟨fun h => .inr ⟨rfl, h⟩,
        fun h => h.elim (absurd · (not_vacant_of_none hnone)) And.right⟩
    · next ha => exact ⟨.inl, fun h => h.resolve_right fun h => ha h.1⟩

theorem vacant_known :
    ((known k.construct scope).run s).2.1.Vacant a ↔
      s.1.Vacant a ∨ a = scope ∧ s.1.table.get? scope = none ∧ s.1.names scope = [] := by
  rw [run_known]
  cases hget : s.1.table.get? scope with
  | some found => simp
  | none =>
    simp only [true_and]
    exact vacant_discover hget

theorem vacant_providers :
    ((providers k.construct scope).run s).2.1.Vacant a ↔ s.1.forget.Vacant a ∨ a = scope ∧
    s.1.Unadvertised scope := by
  rw [run_providers]
  exact vacant_known

theorem serviceNames_of_names_nil (h : r.names scope = []) : r.scopes.serviceNames scope = [] := by
  unfold names at h
  split at h
  · cases h
  · exact h

theorem scopes_known (scope : ScopeId) (s : Registry ι π × ω) :
    ((known k.construct scope).run s).2.1.scopes = s.1.scopes := by
  have hleaves := loadEach_leaves scope (s.1.names scope) (k := k) s
  rw [run_known]
  cases s.1.table.get? scope with
  | some found => rfl
  | none =>
    simp only
    rw [run_discover]
    rcases heach : (loadEach k.construct scope (s.1.names scope)).run s with ⟨e | found, s'⟩ <;>
      rw [heach] at hleaves
    · exact congrArg Registry.scopes hleaves
    · exact (congrArg Registry.scopes hleaves : s'.1.scopes = s.1.scopes)

theorem vacant_of_providerNamed {name : String}
    (h : ((providerNamed k.construct name scope).run s).2.1.Vacant a) :
    s.1.forget.Vacant a ∨ a = scope ∧ s.1.Unadvertised scope := by
  have hknown : ((known k.construct scope).run (s.1.forget, s.2)).2.1.Vacant a → _ := vacant_known.1
  rw [run_providerNamed] at h
  rcases hrun : (known k.construct scope).run (s.1.forget, s.2) with ⟨e | found, t⟩ <;>
    rw [hrun] at h hknown
  · exact hknown h
  · simp only at h
    cases hlookup : (t.1.held scope).lookup name <;> rw [hlookup] at h
    · have hleaves := load_leaves name scope (k := k) t
      simp only at h
      rcases hload : (load k.construct name scope).run t with ⟨e | p, t'⟩ <;>
        rw [hload] at h hleaves
      · exact hknown (hleaves ▸ h)
      · have hshelve : (t'.1.shelve scope (t'.1.held scope ++ [(name, p)])).Vacant a := h
        rw [vacant_shelve, hleaves] at hshelve
        split at hshelve
        · cases List.append_eq_nil_iff.1 hshelve |>.2
        · exact hknown hshelve
    · exact hknown h

theorem providerNamed_vacant (h : s.1.Unadvertised scope) (name : String) :
    ((providerNamed k.construct name scope).run s).2.1.Vacant scope := by
  have hknown : ((known k.construct scope).run (s.1.forget, s.2)).2.1.Vacant scope :=
    vacant_known.2 (.inr ⟨rfl, h⟩)
  have hscopes := scopes_known scope (k := k) (s.1.forget, s.2)
  rw [run_providerNamed]
  rcases hrun : (known k.construct scope).run (s.1.forget, s.2) with ⟨e | found, r, w⟩ <;>
    rw [hrun] at hknown hscopes
  · exact hknown
  · have hheld : r.held scope = [] := congrArg (Option.getD · []) hknown
    have hload : r.scopes.load scope name = none :=
      hscopes ▸ Scopes.load_of_serviceNames_nil (serviceNames_of_names_nil h.2) name
    simp only [hheld, List.lookup_nil]
    rw [run_load, hload]
    exact hknown

theorem run_providers_eq_discover_iff (hheld : s.1.forget.held scope = []) :
    (providers k.construct scope).run s = (List.map Prod.snd <$> discover k.construct scope).run
    (s.1.forget, s.2) ↔
      ¬ (s.1.forget.Vacant scope ∧ s.1.names scope ≠ []) := by
  rw [run_providers, run_known, Action.run_map]
  rcases hget : s.1.forget.table.get? scope with _ | found <;> simp only
  · refine ⟨fun _ h => ?_, fun _ => rfl⟩
    rw [Vacant, hget] at h
    cases h.1
  · obtain rfl : found = [] := by rwa [held, hget] at hheld
    constructor
    · rintro heq ⟨-, hnames⟩
      have hanswer := congrArg Prod.fst heq
      rcases hdiscover : (discover k.construct scope).run (s.1.forget, s.2) with ⟨e | found, s'⟩ <;>
        rw [hdiscover] at hanswer
      · cases hanswer
      · obtain rfl : found = [] := List.map_eq_nil_iff.1 (Except.ok.inj hanswer).symm
        exact hnames (discover_names (congrArg Prod.fst hdiscover)).symm
    · intro h
      have hnames : s.1.forget.names scope = [] := not_not.1 fun hne => h ⟨hget, hne⟩
      rw [run_discover, hnames]
      change _ = (Except.ok [], (s.1.forget.shelve scope [], s.2))
      rw [shelve, FiniteMap.insert_eq_self hget]
      rfl

namespace Operation

theorem vacant_of_run (h : ((op.run k).run s).2.1.Vacant a) :
    s.1.Vacant a ∨ op.asked = some a ∧ s.1.Unadvertised a := by
  have hlookup : ∀ {scope}, op.asked = some scope → s.1.forget.Vacant a ∨ a = scope ∧
    s.1.Unadvertised scope →
      s.1.Vacant a ∨ op.asked = some a ∧ s.1.Unadvertised a := by
    rintro scope hop (hvacant | ⟨rfl, hun⟩)
    · exact .inl (vacant_of_forget hvacant)
    · exact .inr ⟨hop, hun⟩
  cases op with
  | register scope name service => exact .inl h
  | providers scope =>
    rw [run, Action.snd_run_map] at h
    exact hlookup rfl (vacant_providers.1 h)
  | provider scope =>
    rw [run, Action.snd_run_map, snd_run_provider] at h
    exact hlookup rfl (vacant_providers.1 h)
  | providerNamed name scope =>
    rw [run, Action.snd_run_map] at h
    exact hlookup rfl (vacant_of_providerNamed h)
  | load name scope =>
    rw [run, Action.snd_run_map, load_leaves] at h
    exact .inl h
  | count => exact .inl (vacant_of_forget h)
  | closeProvider name scope =>
    obtain ⟨r, w⟩ := s
    rw [run, Action.snd_run_map, run_closeProvider] at h
    cases hlookup : (r.held scope).lookup name <;> rw [hlookup] at h
    · exact .inl h
    · exact .inl (not_not.1 fun hnot => not_vacant_putBack hnot _ h)
  | closeScope scope =>
    rw [run, Action.snd_run_map, run_closeScope, Vacant, FiniteMap.get?_erase] at h
    split at h
    · cases h
    · exact .inl h
  | closeAll =>
    rw [run, Action.snd_run_map, run_closeAll] at h
    exact absurd h (not_vacant_of_none rfl)
  | _ =>
    rw [run, Action.snd_run_map] at h
    exact .inl h

theorem run_vacant (hop : op.asked = some a) (h : s.1.Unadvertised a) :
    ((op.run k).run s).2.1.Vacant a := by
  cases op with
  | providers scope =>
    obtain rfl : scope = a := Option.some.inj hop
    rw [run, Action.snd_run_map]
    exact vacant_providers.2 (.inr ⟨rfl, h⟩)
  | provider scope =>
    obtain rfl : scope = a := Option.some.inj hop
    rw [run, Action.snd_run_map, snd_run_provider]
    exact vacant_providers.2 (.inr ⟨rfl, h⟩)
  | providerNamed name scope =>
    obtain rfl : scope = a := Option.some.inj hop
    rw [run, Action.snd_run_map]
    exact providerNamed_vacant h name
  | _ => cases hop

theorem not_vacant_runAll {start : Registry ι π × ω} (hstart : ∀ scope, ¬ start.1.Vacant scope)
    (hops : ∀ before op, before ++ [op] <+: ops → ∀ scope, op.asked = some scope →
      ¬ (runAll k before start).2.1.Unadvertised scope) (scope : ScopeId) :
    ¬ (runAll k ops start).2.1.Vacant scope := by
  induction ops using List.reverseRecOn with
  | nil => exact hstart scope
  | append_singleton ops op ih =>
    intro h
    rw [runAll_snoc] at h
    rcases vacant_of_run h with h | ⟨hop, hun⟩
    · exact ih (fun before o hpre => hops before o (hpre.trans (List.prefix_append ops [op]))) h
    · exact hops ops op (List.prefix_refl _) scope hop hun

end Operation

/-- A run leaves no scope vacant exactly if none of its lookups asks where nothing is kept and
nothing advertised. As long as no scope is vacant, the count is that of the scopes that hold
providers, and a lookup where none is held discovers what is advertised; a vacant scope is counted,
and there the lookup finds nothing. -/
theorem vacant_iff_unadvertised (k : Workshop ι π ω) (c : Scopes ι)
    (override : Option String) (w : ω) (ops : List (Operation ι)) :
    let start : Registry ι π × ω := (Registry.new c override, w)
    let s := (Operation.runAll k ops start).2
    ((∀ before, before <+: ops → ∀ scope, ¬ (Operation.runAll k before start).2.1.Vacant scope) ↔
        ∀ before op, before ++ [op] <+: ops → ∀ scope, op.asked = some scope →
          ¬ (Operation.runAll k before start).2.1.Unadvertised scope) ∧
      ((count.run s).1 = .ok s.1.forget.occupied.length ↔ ∀ scope, ¬ s.1.forget.Vacant scope) ∧
      ∀ scope, s.1.forget.held scope = [] →
        ((providers k.construct scope).run s =
            (List.map Prod.snd <$> discover k.construct scope).run (s.1.forget, s.2) ↔
          ¬ (s.1.forget.Vacant scope ∧ s.1.names scope ≠ [])) := by
  intro start s
  refine ⟨⟨fun h before op hpre scope hop hun => ?_, fun h before hpre scope => ?_⟩, ?_,
    fun scope => run_providers_eq_discover_iff⟩
  · have hvacant := Operation.run_vacant (k := k) hop hun
    rw [← Operation.runAll_snoc] at hvacant
    exact h _ hpre scope hvacant
  · exact Operation.not_vacant_runAll (fun _ => not_vacant_of_none rfl)
      (fun b op hb => h b op (hb.trans hpre)) scope
  · rw [← size_eq_occupied_iff]
    exact ⟨Except.ok.inj, congrArg Except.ok⟩

theorem vacant_iff_unadvertised_closed :
    let k : Workshop String String Unit :=
      ⟨fun service w => (.ok service, w), fun _ w => (.ok (), w), id⟩
    let ops : List (Operation String) :=
      [.makeScope "s" none, .register 1 "p" "x", .providers 1, .closeProvider "p" 1]
    let s := (Operation.runAll k ops (Registry.new .new none, ())).2
    s.1.forget.held 1 = [] ∧
      (providers k.construct 1).run s = (List.map Prod.snd <$> discover k.construct 1).run
        (s.1.forget, s.2) := by
  intro k ops s
  refine ⟨rfl, ((vacant_iff_unadvertised k .new none () ops).2.2 1 rfl).2 ?_⟩
  rintro ⟨hvacant, -⟩
  cases hvacant

/-- A provider that is registered after a lookup is not found, and the scope counts without it. -/
theorem registered_after_lookup_not_found :
    let k : Workshop String String Unit :=
      ⟨fun service w => (.ok service, w), fun _ w => (.ok (), w), id⟩
    let ops : List (Operation String) := [.makeScope "s" none, .providers 1, .register 1 "p" "x"]
    let s := (Operation.runAll k ops (Registry.new .new none, ())).2
    s.1.table.get? 1 = some [] ∧ (count.run s).1 = .ok 1 ∧ s.1.names 1 = ["p"] ∧
      ((providers k.construct 1).run s).1 = .ok [] := by
  intro k ops s
  exact ⟨rfl, rfl, rfl, rfl⟩

end EntryCache.Registry
