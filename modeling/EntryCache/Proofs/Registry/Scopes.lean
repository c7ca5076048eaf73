import EntryCache.Scope
import Mathlib.Data.List.Nodup

namespace EntryCache.Scopes

variable {ι : Type} {c : Scopes ι} {scope a : ScopeId}

theorem nodup_eraseDups {κ : Type} [DecidableEq κ] : (ks : List κ) → ks.eraseDups.Nodup
  | [] => List.nodup_nil
  | k :: ks => by
    rw [List.eraseDups_cons, List.nodup_cons]
    exact ⟨by simp [List.mem_eraseDups], nodup_eraseDups _⟩
termination_by ks => ks.length
decreasing_by
  have hle := List.length_filter_le (fun j => !j == k) ks
  rw [List.length_cons]
  omega

theorem nodup_serviceNames (c : Scopes ι) (scope : ScopeId) :
    (c.serviceNames scope).Nodup := nodup_eraseDups _

theorem mem_serviceNames_iff {name : String} :
    name ∈ c.serviceNames scope ↔ (c.load scope name).isSome = true := by
  rw [serviceNames, List.mem_eraseDups, List.mem_flatMap, load, List.findSome?_isSome_iff]
  simp only [FiniteMap.mem_keys_iff, FiniteMap.contains]

theorem load_of_serviceNames_nil (h : c.serviceNames scope = []) (name : String) :
    c.load scope name = none := by
  rw [← Option.not_isSome_iff_eq_none, ← mem_serviceNames_iff, h]
  exact List.not_mem_nil

theorem lt_of_ancestry_ne_nil {made : List (Scope ι)} (h : ancestry made scope ≠ []) :
    scope < made.length := by
  induction made with
  | nil => exact absurd rfl h
  | cons s older ih =>
    rw [ancestry] at h
    split at h
    · next hs => exact hs ▸ Nat.lt_succ_self _
    · exact Nat.lt_succ_of_lt (ih h)

theorem lt_of_load_eq_some {name : String} {service : ι} (h : c.load scope name = some service) :
    scope < c.made.length := by
  apply lt_of_ancestry_ne_nil
  intro hnil
  rw [load, chain, hnil] at h
  cases h

theorem length_modify (f : Scope ι → Scope ι) (made : List (Scope ι)) (scope : ScopeId) :
    (modify f made scope).length = made.length := by
  induction made with
  | nil => rfl
  | cons s older ih =>
    rw [modify]
    split
    · rfl
    · rw [List.length_cons, ih, List.length_cons]

theorem length_made_register (scope : ScopeId) (name : String) (service : ι) (c : Scopes ι) :
    (c.register scope name service).made.length = c.made.length := length_modify ..

theorem isAlive_of_make {label : String} {parent : Option ScopeId}
    (h : (c.make label parent).2.isAlive a = true) (ha : a < c.made.length) :
    c.isAlive a = true := by
  rcases List.mem_cons.1 (List.contains_iff_mem.1 h) with rfl | h
  · exact absurd ha (Nat.lt_irrefl _)
  · exact List.contains_iff_mem.2 h

theorem dropMany_shrinks (captures : ι → List ScopeId) (held : List ScopeId) (n : Nat)
    (c : Scopes ι) :
    (c.dropMany captures held n).made = c.made ∧ (c.dropMany captures held n).alive ⊆ c.alive := by
  induction n generalizing c with
  | zero => exact ⟨rfl, fun _ h => h⟩
  | succ n ih =>
    obtain ⟨hmade, halive⟩ := ih (c.dropOnce captures held)
    exact ⟨hmade, fun _ h => (List.mem_filter.1 (halive h)).1⟩

theorem made_drop (captures : ι → List ScopeId) (held : List ScopeId) (c : Scopes ι) :
    (c.drop captures held).made = c.made := (dropMany_shrinks ..).1

theorem isAlive_of_drop {captures : ι → List ScopeId} {held : List ScopeId}
    (h : (c.drop captures held).isAlive a = true) : c.isAlive a = true :=
  List.contains_iff_mem.2 ((dropMany_shrinks ..).2 (List.contains_iff_mem.1 h))

end EntryCache.Scopes
