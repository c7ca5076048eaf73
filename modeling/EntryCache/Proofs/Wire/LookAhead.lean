import EntryCache.Proofs.Wire.RoundTrip

/-! Readers that do not look ahead: what they read from some bytes they read from them whatever
follows. Such a reader cannot end within the bytes of a value that it reads back, so there it runs
out of them. -/

namespace EntryCache

open Wire

namespace Wire

variable {α β : Type}

def Extends (r r' : Reader α) : Prop :=
  ∀ ⦃s a t⦄, r.run s = .ok (a, t) → ∀ u, r'.run (s ++ u) = .ok (a, t ++ u)

namespace Extends

variable {r r' : Reader α}

theorem pure (a : α) : Extends (pure a) (pure a) := by
  rintro s b t h u
  cases h
  rfl

theorem fault (f : Fault) (r : Reader α) : Extends (fault f) r := by
  intro s a t h
  cases h

theorem bind {f f' : α → Reader β} (h : Extends r r') (hf : ∀ a, Extends (f a) (f' a)) :
    Extends (r >>= f) (r' >>= f') := by
  intro s b t hrun u
  rw [StateT.run_bind] at hrun ⊢
  cases hr : r.run s with
  | error e =>
    rw [hr] at hrun
    cases hrun
  | ok x =>
    rw [hr] at hrun
    rw [h hr u]
    exact hf x.1 hrun u

theorem map (f : α → β) (h : Extends r r') : Extends (f <$> r) (f <$> r') := by
  rw [← bind_pure_comp, ← bind_pure_comp]
  exact h.bind fun a => .pure (f a)

theorem byte : Extends byte byte := by
  intro s b t h u
  cases s with
  | nil => cases h
  | cons c s =>
    cases h
    rfl

theorem take (n : Nat) : Extends (take n) (take n) := by
  intro s bs t h u
  change (if n ≤ s.length then _ else _) = _ at h
  change (if n ≤ (s ++ u).length then _ else _) = _
  split at h
  · next hn =>
    cases h
    rw [if_pos (by simp; omega), List.take_append_of_le_length hn, List.drop_append_of_le_length hn]
  · cases h

theorem refuses_cut {bs p q : Bytes} {a : α} (h : Extends r r) (hr : Reads r bs a)
    (hpq : p ++ q = bs) (hq : q ≠ []) : ∃ f, r.run p = .error f := by
  cases hp : r.run p with
  | error f => exact ⟨f, rfl⟩
  | ok x =>
    -- What it reads from the part it reads from the whole, and then the rest is left over.
    have hwhole := h hp q
    have hall := hr []
    rw [hpq, ← List.append_nil bs, hall] at hwhole
    have hrest : x.2 ++ q = [] := (congrArg Prod.snd (Except.ok.inj hwhole)).symm
    exact absurd (List.append_eq_nil_iff.1 hrest).2 hq

end Extends

theorem extends_readGroups (last k : Nat) : Extends (readGroups last k) (readGroups last k) := by
  induction k with
  | zero => exact .fault _ _
  | succ k ih =>
    apply Extends.byte.bind
    intro b
    split
    · split
      · exact .fault _ _
      · exact .pure _
    · exact ih.bind fun rest => .pure _

theorem extends_readCase {case case' : Nat → Option (Reader α)}
    (h : ∀ n, ∀ r ∈ case n, ∃ r' ∈ case' n, Extends r r') :
      Extends (readCase case) (readCase case') := by
  apply (extends_readGroups 15 5).bind
  intro n
  cases hn : case n with
  | none => exact .fault _ _
  | some r =>
    obtain ⟨r', hr', hext⟩ := h n r hn
    rw [Option.mem_def.1 hr']
    exact hext

theorem extends_readMany {item item' : Reader α} (h : Extends item item') (n : Nat) :
    Extends (readMany item n) (readMany item' n) := by
  induction n with
  | zero => exact .pure []
  | succ n ih => exact h.bind fun x => ih.bind fun xs => .pure (x :: xs)

theorem extends_readList {item item' : Reader α} (h : Extends item item') :
    Extends (readList item) (readList item') :=
  (extends_readGroups 1 10).bind fun n => extends_readMany h n

def ReadsAlone (α : Type) [Form α] : Prop := Extends (Form.read : Reader α) Form.read

theorem readsAlone_bool : ReadsAlone Bool := by
  apply Extends.byte.bind
  intro b
  split
  · exact .pure false
  · exact .pure true
  · exact .fault _ _

theorem readsAlone_uint8 : ReadsAlone UInt8 := .byte

theorem readsAlone_uint16 : ReadsAlone UInt16 := (extends_readGroups 3 3).map _

theorem readsAlone_uint32 : ReadsAlone UInt32 := (extends_readGroups 15 5).map _

theorem readsAlone_uint64 : ReadsAlone UInt64 := (extends_readGroups 1 10).map _

theorem readsAlone_int32 : ReadsAlone Int32 := (extends_readGroups 15 5).map _

theorem readsAlone_int64 : ReadsAlone Int64 := (extends_readGroups 1 10).map _

theorem readsAlone_string : ReadsAlone String := by
  apply (extends_readGroups 1 10).bind
  intro n
  apply (Extends.take n).bind
  intro bytes
  split
  · exact .pure _
  · exact .fault _ _

theorem readsAlone_list [Form α] (h : ReadsAlone α) : ReadsAlone (List α) := extends_readList h

theorem readsAlone_option [Form α] (h : ReadsAlone α) : ReadsAlone (Option α) := by
  apply Extends.byte.bind
  intro b
  split
  · exact .pure none
  · exact h.map some
  · exact .fault _ _

theorem readsAlone_prod [Form α] [Form β] (ha : ReadsAlone α) (hb : ReadsAlone β) :
    ReadsAlone (α × β) :=
  ha.bind fun a => hb.bind fun b => .pure (a, b)

end Wire

theorem TimeUnit.readsAlone : ReadsAlone TimeUnit := by
  apply extends_readCase
  intro n r hr
  obtain ⟨u, -, rfl⟩ := Option.map_eq_some_iff.1 hr
  exact ⟨_, hr, .pure u⟩

theorem Duration.readsAlone : ReadsAlone Duration := by
  apply (readsAlone_option TimeUnit.readsAlone).bind
  intro u
  apply readsAlone_uint64.bind
  intro n
  split
  · exact .pure _
  · exact .fault _ _

theorem KeyPart.extends_readWire {n m : Nat} (h : n ≤ m) : Extends (readWire n) (readWire m) := by
  induction n generalizing m with
  | zero => exact .fault _ _
  | succ n ih =>
    obtain ⟨m, rfl⟩ := Nat.exists_eq_add_one_of_ne_zero
      (Nat.ne_of_gt (Nat.lt_of_lt_of_le n.succ_pos h))
    apply extends_readCase
    intro k r hr
    split at hr <;> cases hr
    · exact ⟨_, rfl, .pure null⟩
    · exact ⟨_, rfl, readsAlone_bool.map bool⟩
    · exact ⟨_, rfl, readsAlone_int64.map int⟩
    · exact ⟨_, rfl, readsAlone_uint64.map uint⟩
    · exact ⟨_, rfl, readsAlone_uint64.map float⟩
    · exact ⟨_, rfl, readsAlone_string.map text⟩
    · exact ⟨_, rfl, (readsAlone_list readsAlone_uint8).map bytes⟩
    · exact ⟨_, rfl, (extends_readList (ih (Nat.le_of_succ_le_succ h))).map array⟩

theorem KeyPart.readsAlone : ReadsAlone KeyPart := by
  intro s p t h u
  have hlength : s.length + 1 ≤ (s ++ u).length + 1 := by simp
  exact extends_readWire hlength h u

theorem Key.readsAlone : ReadsAlone Key := (readsAlone_list KeyPart.readsAlone).map mk

end EntryCache
