namespace EntryCache

structure FiniteMap (κ α : Type) : Type where
  toList : List (κ × α)
  nodup : (toList.map Prod.fst).Nodup

namespace FiniteMap

variable {κ α : Type}

def empty : FiniteMap κ α := ⟨[], List.nodup_nil⟩

instance : EmptyCollection (FiniteMap κ α) := ⟨empty⟩

def keys (m : FiniteMap κ α) : List κ := m.toList.map Prod.fst

def size (m : FiniteMap κ α) : Nat := m.toList.length

variable [DecidableEq κ]

def find (k : κ) : List (κ × α) → Option α
  | [] => none
  | (j, a) :: m => if j = k then some a else find k m

def put (k : κ) (a : α) : List (κ × α) → List (κ × α)
  | [] => [(k, a)]
  | (j, b) :: m => if j = k then (k, a) :: m else (j, b) :: put k a m

def drop (k : κ) : List (κ × α) → List (κ × α)
  | [] => []
  | (j, b) :: m => if j = k then m else (j, b) :: drop k m

theorem mem_keys_put {k j : κ} {a : α} {m : List (κ × α)} :
    j ∈ (put k a m).map Prod.fst ↔ j = k ∨ j ∈ m.map Prod.fst := by
  induction m with
  | nil => simp [put]
  | cons p m ih =>
    obtain ⟨i, b⟩ := p
    unfold put
    split
    · next h => subst h; simp
    · next h => simp only [List.map_cons, List.mem_cons, ih]; grind

theorem mem_keys_of_drop {k j : κ} {m : List (κ × α)} (h : j ∈ (drop k m).map Prod.fst) :
    j ∈ m.map Prod.fst := by
  induction m with
  | nil => simp [drop] at h
  | cons p m ih =>
    obtain ⟨i, b⟩ := p
    unfold drop at h
    split at h
    · exact List.mem_cons_of_mem _ h
    · rcases List.mem_cons.1 h with rfl | h
      · exact List.mem_cons_self
      · exact List.mem_cons_of_mem _ (ih h)

theorem nodup_put {k : κ} {a : α} {m : List (κ × α)} (h : (m.map Prod.fst).Nodup) :
    ((put k a m).map Prod.fst).Nodup := by
  induction m with
  | nil => simp [put]
  | cons p m ih =>
    obtain ⟨i, b⟩ := p
    rw [List.map_cons, List.nodup_cons] at h
    unfold put
    split
    · next hik => subst hik; exact List.nodup_cons.2 h
    · next hik =>
      rw [List.map_cons, List.nodup_cons, mem_keys_put]
      exact ⟨fun hm => hm.elim hik h.1, ih h.2⟩

theorem nodup_drop {k : κ} {m : List (κ × α)} (h : (m.map Prod.fst).Nodup) :
    ((drop k m).map Prod.fst).Nodup := by
  induction m with
  | nil => simp [drop]
  | cons p m ih =>
    obtain ⟨i, b⟩ := p
    rw [List.map_cons, List.nodup_cons] at h
    unfold drop
    split
    · exact h.2
    · exact List.nodup_cons.2 ⟨fun hm => h.1 (mem_keys_of_drop hm), ih h.2⟩

def get? (m : FiniteMap κ α) (k : κ) : Option α := find k m.toList

def contains (m : FiniteMap κ α) (k : κ) : Bool := (m.get? k).isSome

def insert (m : FiniteMap κ α) (k : κ) (a : α) : FiniteMap κ α :=
  ⟨put k a m.toList, nodup_put m.nodup⟩

def erase (m : FiniteMap κ α) (k : κ) : FiniteMap κ α :=
  ⟨drop k m.toList, nodup_drop m.nodup⟩

def filter (m : FiniteMap κ α) (f : κ → Bool) : FiniteMap κ α :=
  ⟨m.toList.filter (fun p => f p.1),
    m.nodup.sublist (List.filter_sublist.map _)⟩

/-- Of pairs with one key the last counts. -/
def ofList (xs : List (κ × α)) : FiniteMap κ α := xs.foldl (fun m p => m.insert p.1 p.2) empty

def insertAll (m : FiniteMap κ α) (xs : List (κ × α)) : FiniteMap κ α :=
  xs.foldl (fun m p => m.insert p.1 p.2) m

theorem find_put (k j : κ) (a : α) (m : List (κ × α)) :
    find j (put k a m) = if k = j then some a else find j m := by
  induction m with
  | nil => simp [put, find]
  | cons p m ih =>
    obtain ⟨i, b⟩ := p
    by_cases h : i = k
    · subst h; by_cases hj : i = j <;> simp [put, find, hj]
    · by_cases hk : k = j
      · subst hk; simp [put, find, h, ih]
      · simp [put, find, h, hk, ih]

theorem find_eq_none {k : κ} {m : List (κ × α)} :
    find k m = none ↔ k ∉ m.map Prod.fst := by
  induction m with
  | nil => simp [find]
  | cons p m ih =>
    obtain ⟨i, b⟩ := p
    by_cases h : i = k
    · subst h; simp [find]
    · simp [find, h, ih, Ne.symm h]

theorem find_drop {m : List (κ × α)} (h : (m.map Prod.fst).Nodup) (k j : κ) :
    find j (drop k m) = if k = j then none else find j m := by
  induction m with
  | nil => simp [drop, find]
  | cons p m ih =>
    obtain ⟨i, b⟩ := p
    rw [List.map_cons, List.nodup_cons] at h
    by_cases hik : i = k
    · subst hik
      by_cases hj : i = j
      · subst hj; simp [drop, find_eq_none.2 h.1]
      · simp [drop, find, hj]
    · by_cases hk : k = j
      · subst hk; simp [drop, find, hik, ih h.2]
      · simp [drop, find, hik, hk, ih h.2]

@[simp] theorem get?_empty (k : κ) : (∅ : FiniteMap κ α).get? k = none := rfl

theorem get?_insert (m : FiniteMap κ α) (k j : κ) (a : α) :
    (m.insert k a).get? j = if k = j then some a else m.get? j := find_put k j a m.toList

theorem get?_erase (m : FiniteMap κ α) (k j : κ) :
    (m.erase k).get? j = if k = j then none else m.get? j := find_drop m.nodup k j

@[simp] theorem get?_insert_self (m : FiniteMap κ α) (k : κ) (a : α) :
    (m.insert k a).get? k = some a := by rw [get?_insert, if_pos rfl]

@[simp] theorem get?_erase_self (m : FiniteMap κ α) (k : κ) : (m.erase k).get? k = none := by
  rw [get?_erase, if_pos rfl]

theorem get?_insert_of_ne {m : FiniteMap κ α} {k j : κ} {a : α} (h : k ≠ j) :
    (m.insert k a).get? j = m.get? j := by rw [get?_insert, if_neg h]

theorem get?_erase_of_ne {m : FiniteMap κ α} {k j : κ} (h : k ≠ j) :
    (m.erase k).get? j = m.get? j := by rw [get?_erase, if_neg h]

theorem get?_eq_none {m : FiniteMap κ α} {k : κ} : m.get? k = none ↔ k ∉ m.keys := find_eq_none

theorem mem_keys_iff {m : FiniteMap κ α} {k : κ} : k ∈ m.keys ↔ m.contains k = true := by
  rw [contains, Option.isSome_iff_ne_none, Ne, get?_eq_none, Decidable.not_not]

end FiniteMap

end EntryCache
