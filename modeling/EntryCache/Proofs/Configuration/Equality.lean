import EntryCache.Event

namespace EntryCache

variable {ω κ α : Type}

theorem Factory.sameOption_iff {τ : Type} {f g : Option (Factory ω τ)} :
    sameOption f g = true ↔ f.map (·.id) = g.map (·.id) := by
  cases f <;> cases g <;> simp [sameOption, same]

namespace ListenerConfiguration

variable {c d e : ListenerConfiguration ω κ α}

theorem same_iff :
    c.same d = true ↔ c.listener.id = d.listener.id ∧ c.filter.map (·.id) = d.filter.map (·.id) ∧
      c.oldValueRequired = d.oldValueRequired ∧ c.synchronous = d.synchronous := by
  simp [same, Factory.same, Factory.sameOption_iff, and_assoc]

theorem same_of_same (hc : c.same e = true) (hd : d.same e = true) : c.same d = true := by
  rw [same_iff] at hc hd ⊢
  simp only [hc, hd, and_self]

def identity (c : ListenerConfiguration ω κ α) : Nat × Option Nat × Bool × Bool :=
  (c.listener.id, c.filter.map (·.id), c.oldValueRequired, c.synchronous)

theorem same_iff_identity : c.same d = true ↔ c.identity = d.identity := by
  simp [same_iff, identity]

theorem same_eq (c d : ListenerConfiguration ω κ α) :
    c.same d = decide (c.identity = d.identity) := by
  rw [Bool.eq_iff_iff, same_iff_identity, decide_eq_true_iff]

theorem same_comm (c d : ListenerConfiguration ω κ α) : c.same d = d.same c := by
  simp only [same_eq, eq_comm]

theorem equivalence_same : Equivalence fun c d :
      ListenerConfiguration ω κ α => c.same d = true where
  refl c := c.same_refl
  symm h := same_iff_identity.2 (same_iff_identity.1 h).symm
  trans h h' := same_iff_identity.2 ((same_iff_identity.1 h).trans (same_iff_identity.1 h'))

theorem any_same_of_same (h : c.same d = true) (cs : List (ListenerConfiguration ω κ α)) :
    cs.any (·.same c) = cs.any (·.same d) := by
  simp only [same_eq, same_iff_identity.1 h]

theorem any_same_concat (cs : List (ListenerConfiguration ω κ α))
    (c d : ListenerConfiguration ω κ α) :
    (cs ++ [c].filter fun e => !cs.any (·.same e)).any (·.same d) =
    (c.same d || cs.any (·.same d)) := by
  rw [List.any_append, Bool.or_comm]
  by_cases hc : c.same d = true
  · cases hany : cs.any (·.same d) <;> simp [hc, any_same_of_same hc, hany]
  · simp [hc]

theorem any_same_filter (cs : List (ListenerConfiguration ω κ α))
    (c d : ListenerConfiguration ω κ α) :
    (cs.filter fun e => !c.same e).any (·.same d) = (cs.any (·.same d) && !c.same d) := by
  rw [List.any_filter]
  have heach : ∀ e : ListenerConfiguration ω κ α, (!c.same e && e.same d) =
      (e.same d && !c.same d) := by
    intro e
    cases he : e.same d with
    | false => simp
    | true => simp [same_eq, same_iff_identity.1 he]
  simp only [heach]
  cases c.same d <;> simp

def Distinct (cs : List (ListenerConfiguration ω κ α)) :
    Prop := cs.Pairwise fun c d => c.same d = false

instance (cs : List (ListenerConfiguration ω κ α)) : Decidable (Distinct cs) :=
  inferInstanceAs (Decidable (List.Pairwise ..))

theorem distinct_concat {cs : List (ListenerConfiguration ω κ α)} :
    Distinct (cs ++ [c]) ↔ Distinct cs ∧ ∀ d ∈ cs, d.same c = false := by
  simp [Distinct, List.pairwise_append]

theorem Distinct.countP_le {cs : List (ListenerConfiguration ω κ α)} (h : Distinct cs)
    (e : ListenerConfiguration ω κ α) : cs.countP (·.same e) ≤ 1 := by
  induction cs with
  | nil => simp
  | cons c cs ih =>
    rw [Distinct, List.pairwise_cons] at h
    rw [List.countP_cons]
    by_cases hc : c.same e = true
    · have hrest : cs.countP (·.same e) = 0 := by
        rw [List.countP_eq_zero]
        intro d hd hsame
        simpa [same_of_same hc hsame] using h.1 d hd
      simp [hc, hrest]
    · simpa [hc] using ih h.2

end ListenerConfiguration

end EntryCache
