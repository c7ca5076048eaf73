import EntryCache.Proofs.FiniteMap
import EntryCache.Proofs.Registry.Scopes

namespace EntryCache

structure Registration (ι : Type) : Type where
  scope : ScopeId
  name : String
  service : ι

namespace Registration

variable {ι : Type} {regs : List (Registration ι)} {g : Registration ι} {a : ScopeId} {m n : String}

def isOf (a : ScopeId) (n : String) (g : Registration ι) : Bool := g.scope == a && g.name == n

def has (regs : List (Registration ι)) (a : ScopeId) (n : String) : Bool := regs.any (isOf a n)

def first (regs : List (Registration ι)) (a : ScopeId) (n : String) : Option ι :=
  (regs.find? (isOf a n)).map (·.service)

def place (regs : List (Registration ι)) (a : ScopeId) (n : String) : Nat := regs.findIdx (isOf a n)

def rank (regs : List (Registration ι)) : List ScopeId → String → Nat × Nat
  | [], _ => (0, 0)
  | a :: line, n => if has regs a n then (0, place regs a n)
      else ((rank regs line n).1 + 1, (rank regs line n).2)

/-- The nearer scope comes first, and within a scope the earlier registration. -/
def Before (regs : List (Registration ι)) (line : List ScopeId) (m n : String) : Prop :=
  (rank regs line m).1 < (rank regs line n).1 ∨
    (rank regs line m).1 = (rank regs line n).1 ∧ (rank regs line m).2 < (rank regs line n).2

theorem isSome_first : (first regs a n).isSome = has regs a n := by
  rw [first, Option.isSome_map, List.isSome_find?]
  rfl

theorem first_snoc (h : has regs a n = true ∨ g.isOf a n = false) :
    first (regs ++ [g]) a n = first regs a n := by
  rw [← isSome_first, first, Option.isSome_map] at h
  rw [first, first, List.find?_append]
  rcases h with h | h
  · obtain ⟨g', hg'⟩ := Option.isSome_iff_exists.1 h
    rw [hg']
    rfl
  · rw [List.find?_singleton, h]
    simp

theorem first_snoc_new (h : has regs a n = false) (hg : g.isOf a n = true) :
    first (regs ++ [g]) a n = some g.service := by
  rw [← isSome_first, first, Option.isSome_map, Option.isSome_eq_false_iff,
    Option.isNone_iff_eq_none] at h
  rw [first, List.find?_append, h, List.find?_singleton, hg]
  rfl

theorem place_lt (h : has regs a n = true) : place regs a n < regs.length :=
  List.findIdx_lt_length.2 (List.any_eq_true.1 h)

theorem place_snoc (h : has regs a n = true) : place (regs ++ [g]) a n = place regs a n := by
  have hlt : regs.findIdx (isOf a n) < regs.length := place_lt h
  rw [place, List.findIdx_append, if_pos hlt, place]

theorem le_place_snoc (h : has regs a n = false) : regs.length ≤ place (regs ++ [g]) a n := by
  have hall : ¬ regs.findIdx (isOf a n) < regs.length := fun hlt => by
    rw [List.findIdx_lt_length, ← List.any_eq_true] at hlt
    exact absurd hlt (Bool.eq_false_iff.1 h)
  rw [place, List.findIdx_append, if_neg hall]
  exact Nat.le_add_left _ _

structure Lists (regs : List (Registration ι)) (a : ScopeId)
    (services : FiniteMap String ι) : Prop where
  get : ∀ n, services.get? n = first regs a n
  order : services.keys.Pairwise fun m n => place regs a m < place regs a n

namespace Lists

variable {services : FiniteMap String ι}

theorem mem_keys (h : Lists regs a services) : n ∈ services.keys ↔ has regs a n = true := by
  rw [FiniteMap.mem_keys_iff, FiniteMap.contains, h.get, isSome_first]

theorem empty (h : ∀ g ∈ regs, g.scope ≠ a) : Lists regs a (∅ : FiniteMap String ι) where
  get n := by
    have hnone : regs.find? (isOf a n) = none := by
      rw [List.find?_eq_none]
      intro g hg
      simp [isOf, h g hg]
    rw [first, hnone]
    rfl
  order := List.Pairwise.nil

theorem snoc_same (h : Lists regs a services) (hg : ∀ n, g.isOf a n = true → has regs a n = true) :
    Lists (regs ++ [g]) a services where
  get n := by
    rw [h.get, first_snoc]
    by_cases hn : g.isOf a n = true
    · exact .inl (hg n hn)
    · exact .inr (Bool.eq_false_iff.2 hn)
  order := h.order.imp_of_mem fun hm hn hlt => by
    rwa [place_snoc (h.mem_keys.1 hm), place_snoc (h.mem_keys.1 hn)]

theorem snoc_new (h : Lists regs a services) {x : ι} (hn : has regs a n = false) :
    Lists (regs ++ [⟨a, n, x⟩]) a (services.insert n x) where
  get m := by
    rw [FiniteMap.get?_insert]
    split
    · next hnm =>
      subst hnm
      exact (first_snoc_new (g := ⟨a, n, x⟩) hn (by simp [isOf])).symm
    · next hnm => rw [h.get, first_snoc (.inr (by simp [isOf, hnm]))]
  order := by
    have hnew : n ∉ services.keys := fun hmem => Bool.eq_false_iff.1 hn (h.mem_keys.1 hmem)
    rw [FiniteMap.keys_insert_of_new hnew, List.pairwise_append]
    refine ⟨h.order.imp_of_mem fun hm hn hlt => ?_, List.pairwise_singleton _ _,
      fun m hm i hi => ?_⟩
    · rwa [place_snoc (h.mem_keys.1 hm), place_snoc (h.mem_keys.1 hn)]
    · rw [List.mem_singleton.1 hi, place_snoc (h.mem_keys.1 hm)]
      exact Nat.lt_of_lt_of_le (place_lt (h.mem_keys.1 hm)) (le_place_snoc hn)

theorem register {s : Scope ι} (h : Lists regs g.scope s.services) :
    Lists (regs ++ [g]) g.scope (s.register g.name g.service).services := by
  rw [Scope.register]
  split
  · next hc =>
    refine h.snoc_same fun n hn => ?_
    have hname : g.name = n := by simpa [isOf] using hn
    exact h.mem_keys.1 (FiniteMap.mem_keys_iff.2 (hname ▸ hc))
  · next hc =>
    have hnew : has regs g.scope g.name = false :=
      Bool.eq_false_iff.2 fun hg => hc (FiniteMap.mem_keys_iff.1 (h.mem_keys.2 hg))
    exact h.snoc_new hnew

end Lists

theorem sublist_eraseDups : (ns : List String) → ns.eraseDups.Sublist ns
  | [] => .slnil
  | n :: ns => by
    rw [List.eraseDups_cons]
    exact ((sublist_eraseDups _).trans List.filter_sublist).cons_cons n
termination_by ns => ns.length
decreasing_by
  have hle := List.length_filter_le (fun i => !i == n) ns
  rw [List.length_cons]
  omega

theorem before_of_has (ha : has regs a m = true) (hb : has regs a n = true) {line : List ScopeId}
    (hlt : place regs a m < place regs a n) : Before regs (a :: line) m n := by
  simp [Before, rank, ha, hb, hlt]

theorem before_of_has_not (ha : has regs a m = true) (hb : has regs a n = false)
    (line : List ScopeId) : Before regs (a :: line) m n := by
  simp [Before, rank, ha, hb]

theorem before_cons (ha : has regs a m = false) (hb : has regs a n = false) {line : List ScopeId}
    (h : Before regs line m n) : Before regs (a :: line) m n := by
  simpa [Before, rank, ha, hb] using h

/-- The names of a line of scopes come in the order of their first registrations. Which names are
looked for is left open: those that a nearer scope has do not count again. -/
theorem pairwise_eraseDups {names : ScopeId → List String} {line : List ScopeId}
    (hmem : ∀ a ∈ line, ∀ n, n ∈ names a ↔ has regs a n = true)
    (horder : ∀ a ∈ line, (names a).Pairwise fun m n => place regs a m < place regs a n)
    (p : String → Bool) :
    ((line.flatMap names).filter p).eraseDups.Pairwise (Before regs line) := by
  induction line generalizing p with
  | nil => exact List.Pairwise.nil
  | cons a line ih =>
    rw [List.forall_mem_cons] at hmem horder
    have hrest : (((line.flatMap names).filter p).removeAll ((names a).filter p)) =
        (line.flatMap names).filter fun n => !((names a).filter p).contains n && p n := by
      rw [List.removeAll, List.filter_filter]
    have hnew : ∀ n ∈ (((line.flatMap names).filter p).removeAll ((names a).filter p)).eraseDups,
        has regs a n = false := by
      intro n hn
      rw [List.mem_eraseDups, hrest, List.mem_filter] at hn
      rw [Bool.eq_false_iff, Ne, ← hmem.1 n]
      intro hna
      simp_all
    rw [List.flatMap_cons, List.filter_append, List.eraseDups_append, List.pairwise_append]
    refine ⟨?_, ?_, fun m hm n hn => ?_⟩
    · refine ((horder.1.sublist List.filter_sublist).sublist (sublist_eraseDups _)).imp_of_mem
        fun hm hn hlt => ?_
      rw [List.mem_eraseDups, List.mem_filter, hmem.1] at hm hn
      exact before_of_has hm.1 hn.1 hlt
    · rw [hrest] at hnew ⊢
      exact (ih hmem.2 horder.2 _).imp_of_mem fun hm hn h => before_cons (hnew _ hm) (hnew _ hn) h
    · rw [List.mem_eraseDups, List.mem_filter, hmem.1] at hm
      exact before_of_has_not hm.1 (hnew n hn) line

end Registration

namespace Scopes

open Registration

variable {ι : Type} {c c' : Scopes ι} {regs : List (Registration ι)} {scope a b : ScopeId}
  {made : List (Scope ι)}

def lineageIn : List (Scope ι) → ScopeId → List ScopeId
  | [], _ => []
  | s :: older, id =>
    if id = older.length then
      id :: match s.parent with
        | some p => lineageIn older p
        | none => []
    else lineageIn older id

def lineage (c : Scopes ι) (scope : ScopeId) : List ScopeId := lineageIn c.made scope

theorem lt_of_find {s : Scope ι} (h : find made a = some s) : a < made.length := by
  induction made with
  | nil => cases h
  | cons s' older ih =>
    rw [find] at h
    split at h
    · next ha => exact ha ▸ Nat.lt_succ_self _
    · exact Nat.lt_succ_of_lt (ih h)

theorem find_modify (f : Scope ι → Scope ι) (made : List (Scope ι)) (scope a : ScopeId) :
    find (modify f made scope) a = if a = scope then (find made a).map f else find made a := by
  induction made with
  | nil => simp [modify, find]
  | cons s older ih =>
    by_cases hs : scope = older.length <;> by_cases ha : a = older.length
    · simp [modify, find, hs, ha]
    · simp [modify, find, hs, ha]
    · simp [modify, find, hs, ha, length_modify, Ne.symm hs]
    · simp [modify, find, hs, ha, length_modify, ih]

theorem get?_register (name : String) (service : ι) :
    (c.register scope name service).get? a =
      if a = scope then (c.get? a).map (·.register name service) else c.get? a := find_modify ..

theorem map_ancestry {β : Type} {f : Scope ι → β} {g : ScopeId → β}
    (h : ∀ a s, find made a = some s → f s = g a) :
      (ancestry made scope).map f = (lineageIn made scope).map g := by
  induction made generalizing scope with
  | nil => rfl
  | cons s older ih =>
    have holder : ∀ a s', find older a = some s' → f s' = g a := fun a s' hs' =>
      h a s' (by rw [find, if_neg (Nat.ne_of_lt (lt_of_find hs')), hs'])
    rw [ancestry, lineageIn]
    split
    · next hs =>
      rw [List.map_cons, List.map_cons, h scope s (by rw [find, if_pos hs])]
      cases s.parent with
      | none => rfl
      | some p => rw [ih holder]
    · exact ih holder

theorem map_some_chain (c : Scopes ι) (scope : ScopeId) :
    (c.chain scope).map some = (c.lineage scope).map c.get? := map_ancestry fun _ _ hs => hs.symm

theorem exists_get?_of_mem_lineage (h : a ∈ c.lineage scope) : ∃ s, c.get? a = some s := by
  have hmem : c.get? a ∈ (c.chain scope).map some := map_some_chain c scope ▸ List.mem_map_of_mem h
  obtain ⟨s, -, hs⟩ := List.mem_map.1 hmem
  exact ⟨s, hs.symm⟩

def namesIn (c : Scopes ι) (a : ScopeId) : List String := ((c.get? a).map (·.services.keys)).getD []

theorem namesIn_eq {s : Scope ι} (h : c.get? a = some s) : c.namesIn a = s.services.keys := by
  rw [namesIn, h]
  rfl

theorem serviceNames_eq_lineage (c : Scopes ι) (scope : ScopeId) :
    c.serviceNames scope = ((c.lineage scope).flatMap c.namesIn).eraseDups := by
  have hmap : (c.chain scope).map (·.services.keys) = (c.lineage scope).map c.namesIn :=
    map_ancestry fun _ _ hs => (namesIn_eq hs).symm
  rw [serviceNames, List.flatMap_def, List.flatMap_def, hmap]

theorem mem_lineageIn (h : b ∈ lineageIn made a) : b ≤ a ∧ b < made.length := by
  induction made generalizing a with
  | nil => cases h
  | cons s older ih =>
    rw [lineageIn] at h
    split at h
    · next ha =>
      rcases List.mem_cons.1 h with rfl | h
      · exact ⟨Nat.le_refl _, ha ▸ Nat.lt_succ_self _⟩
      · cases hp : s.parent with
        | none => simp [hp] at h
        | some p =>
          rw [hp] at h
          have hlt := (ih h).2
          exact ⟨ha ▸ Nat.le_of_lt hlt, Nat.lt_succ_of_lt hlt⟩
    · exact ⟨(ih h).1, Nat.lt_succ_of_lt (ih h).2⟩

theorem lt_of_mem_tail_lineageIn (h : b ∈ (lineageIn made a).tail) : b < a := by
  induction made with
  | nil => cases h
  | cons s older ih =>
    rw [lineageIn] at h
    split at h
    · next ha =>
      cases hp : s.parent with
      | none => simp [hp] at h
      | some p =>
        rw [hp] at h
        exact ha ▸ (mem_lineageIn h).2
    · exact ih h

theorem head?_lineageIn (h : a < made.length) : (lineageIn made a).head? = some a := by
  induction made with
  | nil => cases h
  | cons s older ih =>
    rw [lineageIn]
    split
    · rfl
    · next ha => exact ih (Nat.lt_of_le_of_ne (Nat.le_of_lt_succ h) ha)

theorem lineageIn_modify {f : Scope ι → Scope ι} (hf : ∀ s, (f s).parent = s.parent) :
    lineageIn (modify f made scope) a = lineageIn made a := by
  induction made generalizing a with
  | nil => rfl
  | cons s older ih =>
    rw [modify]
    split
    · rw [lineageIn, lineageIn, hf]
    · rw [lineageIn, lineageIn, length_modify]
      simp only [ih]

theorem parent_register (name : String) (service : ι) (s : Scope ι) :
    (s.register name service).parent = s.parent := by
  rw [Scope.register]
  split <;> rfl

theorem lineage_register (name : String) (service : ι) :
    (c.register scope name service).lineage a = c.lineage a :=
  lineageIn_modify (parent_register name service)

theorem ancestry_modify {f : Scope ι → Scope ι} (h : scope ∉ lineageIn made a) :
    ancestry (modify f made scope) a = ancestry made a := by
  induction made generalizing a with
  | nil => rfl
  | cons s older ih =>
    rw [lineageIn] at h
    rw [modify]
    split
    · next hs =>
      have ha : a ≠ older.length := fun ha => by simp [ha, hs] at h
      rw [ancestry, ancestry, if_neg ha, if_neg ha]
    · rw [ancestry, ancestry, length_modify]
      split at h
      · next ha =>
        rw [if_pos ha, if_pos ha]
        cases hp : s.parent with
        | none => rfl
        | some p =>
          rw [hp] at h
          simp only [ih (List.not_mem_of_not_mem_cons h)]
      · next ha => rw [if_neg ha, if_neg ha, ih h]

/-- How scopes come about, with what was registered in them. Services are registered in scopes that
were made. -/
inductive Grown : Scopes ι → List (Registration ι) → Prop
  | new : Grown .new []
  | make {c : Scopes ι} {regs : List (Registration ι)} (h : Grown c regs) (label : String)
      (parent : Option ScopeId) : Grown (c.make label parent).2 regs
  | register {c : Scopes ι} {regs : List (Registration ι)} (h : Grown c regs) (g : Registration ι)
      (hmade : g.scope < c.made.length) : Grown (c.register g.scope g.name g.service) (regs ++ [g])
  | drop {c : Scopes ι} {regs : List (Registration ι)} (h : Grown c regs)
    (captures : ι → List ScopeId)
      (held : List ScopeId) : Grown (c.drop captures held) regs
  | setContext {c : Scopes ι} {regs : List (Registration ι)} (h : Grown c regs)
    (s : Option ScopeId) :
      Grown (c.setContext s).2 regs

namespace Grown

theorem scope_lt (h : Grown c regs) : ∀ g ∈ regs, g.scope < c.made.length := by
  induction h with
  | new => exact fun g hg => absurd hg List.not_mem_nil
  | make h label parent ih => exact fun g hg => Nat.lt_succ_of_lt (ih g hg)
  | register h g hmade ih =>
    intro g' hg'
    rw [length_made_register]
    rcases List.mem_append.1 hg' with hg' | hg'
    · exact ih g' hg'
    · exact List.mem_singleton.1 hg' ▸ hmade
  | drop h captures held ih => exact (made_drop captures held _).symm ▸ ih
  | setContext h s ih => exact ih

theorem lists (h : Grown c regs) : ∀ a s, c.get? a = some s → Lists regs a s.services := by
  induction h with
  | new =>
    intro a s hs
    have hempty : s.services = ∅ := by
      rw [get?, Scopes.new, find] at hs
      split at hs
      · exact Option.some.inj hs ▸ rfl
      · cases hs
    exact hempty ▸ Lists.empty fun g hg => absurd hg List.not_mem_nil
  | @make c regs h label parent ih =>
    intro a s hs
    rw [get?, Scopes.make, find] at hs
    split at hs
    · next ha =>
      obtain rfl := Option.some.inj hs
      exact Lists.empty fun g hg => Nat.ne_of_lt (ha ▸ h.scope_lt g hg)
    · exact ih a s hs
  | register h g hmade ih =>
    intro a s hs
    rw [get?_register] at hs
    split at hs
    · next ha =>
      subst ha
      obtain ⟨before, hbefore, rfl⟩ := Option.map_eq_some_iff.1 hs
      exact (ih _ before hbefore).register
    · next ha =>
      refine (ih a s hs).snoc_same fun n hn => absurd ?_ ha
      rw [isOf, Bool.and_eq_true, beq_iff_eq] at hn
      exact hn.1.symm
  | drop h captures held ih =>
    simp only [get?, made_drop]
    exact ih
  | setContext h s ih => exact ih

end Grown

/-- What a scope advertises and what can be loaded in it, by the registrations in the scope and in
its ancestors. -/
structure Advertises (c : Scopes ι) (regs : List (Registration ι)) (scope : ScopeId) : Prop where
  chain : (c.chain scope).map some = (c.lineage scope).map c.get?
  nodup : (c.serviceNames scope).Nodup
  mem : ∀ name, name ∈ c.serviceNames scope ↔ (c.load scope name).isSome = true
  order : (c.serviceNames scope).Pairwise (Before regs (c.lineage scope))
  load : ∀ name, c.load scope name = (c.lineage scope).findSome? (first regs · name)
  kept : ∀ name service n, has regs scope n = true → (c.register scope name service).load scope n =
    c.load scope n
  ancestors : ∀ name service, ∀ a ∈ (c.lineage scope).tail,
    (c.register scope name service).chain a = c.chain a ∧
      (c.register scope name service).serviceNames a = c.serviceNames a ∧
      ∀ n, (c.register scope name service).load a n = c.load a n

namespace Grown

theorem load_eq (h : Grown c regs) (scope : ScopeId) (name : String) :
    c.load scope name = (c.lineage scope).findSome? (first regs · name) := by
  have hmap : (c.chain scope).map (·.services.get? name) =
    (c.lineage scope).map (first regs · name) :=
    map_ancestry fun a s hs => (h.lists a s hs).get name
  have hload : c.load scope name = ((c.chain scope).map (·.services.get? name)).findSome? id := by
    rw [List.findSome?_map]
    rfl
  rw [hload, hmap, List.findSome?_map]
  rfl

theorem pairwise_serviceNames (h : Grown c regs) (scope : ScopeId) :
    (c.serviceNames scope).Pairwise (Before regs (c.lineage scope)) := by
  have hmade : ∀ a ∈ c.lineage scope, ∃ s, c.get? a = some s := fun a ha =>
    exists_get?_of_mem_lineage ha
  have hmem : ∀ a ∈ c.lineage scope, ∀ n, n ∈ c.namesIn a ↔ has regs a n = true := by
    intro a ha n
    obtain ⟨s, hs⟩ := hmade a ha
    rw [namesIn_eq hs, (h.lists a s hs).mem_keys]
  have horder : ∀ a ∈ c.lineage scope, (c.namesIn a).Pairwise fun m n =>
      place regs a m < place regs a n := by
    intro a ha
    obtain ⟨s, hs⟩ := hmade a ha
    rw [namesIn_eq hs]
    exact (h.lists a s hs).order
  have hall := pairwise_eraseDups hmem horder fun _ => true
  rwa [List.filter_true, ← serviceNames_eq_lineage] at hall

theorem advertises (h : Grown c regs) (scope : ScopeId) : c.Advertises regs scope where
  chain := map_some_chain c scope
  nodup := nodup_serviceNames c scope
  mem _ := mem_serviceNames_iff
  order := h.pairwise_serviceNames scope
  load := h.load_eq scope
  kept name service n hn := by
    obtain ⟨g, hg, hgn⟩ := List.any_eq_true.1 hn
    have hscope : g.scope = scope := by
      rw [isOf, Bool.and_eq_true, beq_iff_eq] at hgn
      exact hgn.1
    have hlt : scope < c.made.length := hscope ▸ h.scope_lt g hg
    obtain ⟨line, hline⟩ : ∃ line, c.lineage scope = scope :: line :=
      List.head?_eq_some_iff.1 (head?_lineageIn hlt)
    obtain ⟨x, hx⟩ : ∃ x, first regs scope n = some x :=
      Option.isSome_iff_exists.1 (isSome_first.trans hn)
    rw [h.load_eq, (h.register ⟨scope, name, service⟩ hlt).load_eq, lineage_register, hline,
      List.findSome?_cons,
      List.findSome?_cons, first_snoc (.inl hn), hx]
  ancestors name service a ha := by
    have hnot : scope ∉ lineageIn c.made a := fun hmem =>
      Nat.not_le_of_lt (lt_of_mem_tail_lineageIn ha) (mem_lineageIn hmem).1
    have hchain : (c.register scope name service).chain a = c.chain a := ancestry_modify hnot
    simp only [serviceNames, Scopes.load, hchain, implies_true, and_self]

theorem advertises_tenant :
    ∃ (c : Scopes Nat) (regs : List (Registration Nat)), Grown c regs ∧ c.Advertises regs 2 ∧
      regs = [⟨1, "shared", 10⟩, ⟨2, "own", 20⟩, ⟨1, "base", 11⟩, ⟨2, "shared", 21⟩,
        ⟨2, "own", 22⟩] ∧
      c.lineage 2 = [2, 1] ∧ c.serviceNames 2 = ["own", "shared", "base"] ∧
      ["own", "shared", "base"].map (c.load 2) = [some 20, some 21, some 11] :=
  have h :=
    (((((((Grown.new (ι := Nat)).make "root" none).make "tenant" (some 1)).register
      ⟨1, "shared", 10⟩ (by decide)).register
      ⟨2, "own", 20⟩ (by decide)).register
      ⟨1, "base", 11⟩ (by decide)).register
      ⟨2, "shared", 21⟩ (by decide)).register
      ⟨2, "own", 22⟩ (by decide)
  ⟨_, _, h, h.advertises 2, rfl, by decide, by decide, by decide⟩

end Grown

end Scopes

end EntryCache
