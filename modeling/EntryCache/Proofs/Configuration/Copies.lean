import EntryCache.Proofs.Arena
import EntryCache.Proofs.Configuration.Changes

namespace EntryCache.Configuration

open ListenerConfiguration (Distinct)

variable {ω κ α : Type} [DecidableEq κ]

/-- Configurations by number; where one was given away and not given back there is none. -/
abbrev Shelf (ω κ α : Type) [DecidableEq κ] : Type := List (Option (Configuration ω κ α))

/-- A copy gets the next number, which stays unused if there was nothing to copy. -/
inductive Step (ω κ α : Type) [DecidableEq κ] : Type
  | change (n : Nat) (x : Change ω κ α)
  | clone (n : Nat)
  | ofComplete (n : Nat)

namespace Step

def copy (f : Configuration ω κ α → Configuration ω κ α) (n : Nat) (s : Shelf ω κ α) :
    Answer × Shelf ω κ α :=
  match s[n]?.join with
  | some c => (.done, s ++ [some (f c)])
  | none => (.gone, s ++ [none])

def run : Step ω κ α → Shelf ω κ α → Answer × Shelf ω κ α
  | .change n x, s =>
    match s[n]? with
    | some (some c) => ((x.run c).1, s.set n (x.run c).2)
    | _ => (.gone, s)
  | .clone n, s => copy id n s
  | .ofComplete n, s => copy Configuration.ofComplete n s

def runAll (id : Nat) (steps : List (Step ω κ α)) : Shelf ω κ α :=
  steps.foldl (fun s step => (step.run s).2) [some (new id)]

def note : Step ω κ α → List (List (Change ω κ α)) → List (List (Change ω κ α))
  | .change n x, ls => ls.modify n (· ++ [x])
  | .clone n, ls => ls ++ [ls[n]?.getD []]
  | .ofComplete n, ls => ls ++ [ls[n]?.getD []]

/-- The changes that each configuration goes back to; those made before it was copied are of its
line, too. -/
def lines (steps : List (Step ω κ α)) : List (List (Change ω κ α)) :=
  steps.foldl (fun ls (step : Step ω κ α) => step.note ls) [[]]

theorem run_change {s : Shelf ω κ α} {n : Nat} {c : Configuration ω κ α}
    (hc : s[n]? = some (some c))
    (x : Change ω κ α) : (change n x).run s = ((x.run c).1, s.set n (x.run c).2) := by
  rw [run, hc]

theorem run_change_of_gone {s : Shelf ω κ α} {n : Nat} (hn : ∀ c, s[n]? ≠ some (some c))
    (x : Change ω κ α) : (change n x).run s = (.gone, s) := by
  rw [run]
  split
  · next c hc => exact absurd hc (hn c)
  · rfl

theorem run_ofComplete (s : Shelf ω κ α) (n : Nat) : (ofComplete n).run s = (clone n).run s := by
  have hcopy : (Configuration.ofComplete : Configuration ω κ α → Configuration ω κ α) = id := rfl
  rw [run, run, hcopy]

theorem run_clone {s : Shelf ω κ α} {n : Nat} {c : Configuration ω κ α}
    (hc : s[n]? = some (some c)) : (clone n).run s = (.done, s ++ [some c]) := by
  rw [run, copy, hc]
  rfl

theorem run_clone_snd (s : Shelf ω κ α) (n : Nat) : ((clone n).run s).2 = s ++ [s[n]?.join] := by
  rw [run, copy]
  cases s[n]?.join <;> rfl

end Step

structure Recorded (id : Nat) (ls : List (List (Change ω κ α))) (s : Shelf ω κ α) : Prop where
  length : ls.length = s.length
  follows : ∀ (n : Nat) (c : Configuration ω κ α), s[n]? = some (some c) → ∃ xs, ls[n]? = some xs ∧
    Follows id xs c

namespace Recorded

variable {id : Nat} {ls : List (List (Change ω κ α))} {s : Shelf ω κ α}

theorem new (id : Nat) : Recorded id [[]] [some (new id : Configuration ω κ α)] where
  length := rfl
  follows n c h := by
    cases n with
    | zero =>
      cases h
      exact ⟨[], rfl, .new id⟩
    | succ n => cases h

theorem copied (h : Recorded id ls s) (n : Nat) :
    Recorded id (ls ++ [ls[n]?.getD []]) (s ++ [s[n]?.join]) where
  length := by simp [h.length]
  follows m c hm := by
    obtain hm | ⟨rfl, hc⟩ := getElem?_snoc hm
    · obtain ⟨xs, hxs, hfollows⟩ := h.follows m c hm
      exact ⟨xs, getElem?_snoc_of_some hxs _, hfollows⟩
    · obtain ⟨xs, hxs, hfollows⟩ := h.follows n c (Option.join_eq_some_iff.1 hc)
      refine ⟨xs, ?_, hfollows⟩
      rw [← h.length, List.getElem?_concat_length, hxs]
      rfl

theorem elsewhere (h : Recorded id ls s) {n m : Nat} (hn : n ≠ m) (x : Change ω κ α)
    {c : Configuration ω κ α} (hm : s[m]? = some (some c)) :
    ∃ xs, (ls.modify n (· ++ [x]))[m]? = some xs ∧ Follows id xs c := by
  obtain ⟨xs, hxs, hfollows⟩ := h.follows m c hm
  refine ⟨xs, ?_, hfollows⟩
  simp [hn, hxs]

theorem changed (h : Recorded id ls s) {n : Nat} {c : Configuration ω κ α}
    (hc : s[n]? = some (some c))
    (x : Change ω κ α) : Recorded id (ls.modify n (· ++ [x])) (s.set n (x.run c).2) where
  length := by simp [h.length]
  follows m c' hm := by
    rw [getElem?_set_of_some hc] at hm
    by_cases hn : n = m
    · subst hn
      rw [if_pos rfl] at hm
      obtain ⟨xs, hxs, hfollows⟩ := h.follows n c hc
      refine ⟨xs ++ [x], ?_, hfollows.change (Prod.ext rfl (Option.some.inj hm))⟩
      rw [List.getElem?_modify_eq, hxs]
      rfl
    · rw [if_neg hn] at hm
      exact h.elsewhere hn x hm

theorem missed (h : Recorded id ls s) {n : Nat} (hn : ∀ c, s[n]? ≠ some (some c))
    (x : Change ω κ α) : Recorded id (ls.modify n (· ++ [x])) s where
  length := by simp [h.length]
  follows m c hm := by
    apply h.elsewhere ?_ x hm
    rintro rfl
    exact hn c hm

theorem step (h : Recorded id ls s) (step : Step ω κ α) :
    Recorded id (step.note ls) (step.run s).2 := by
  cases step with
  | change n x =>
    by_cases hn : ∃ c, s[n]? = some (some c)
    · obtain ⟨c, hc⟩ := hn
      rw [Step.run_change hc]
      exact h.changed hc x
    · rw [not_exists] at hn
      rw [Step.run_change_of_gone hn]
      exact h.missed hn x
  | clone n =>
    rw [Step.run_clone_snd]
    exact h.copied n
  | ofComplete n =>
    rw [Step.run_ofComplete, Step.run_clone_snd]
    exact h.copied n

theorem runAll (id : Nat) (steps : List (Step ω κ α)) :
    Recorded id (Step.lines steps) (Step.runAll id steps) := by
  induction steps using List.reverseRecOn with
  | nil => exact .new id
  | append_singleton steps step ih =>
    rw [Step.lines, Step.runAll, List.foldl_concat, List.foldl_concat]
    exact ih.step step

end Recorded

/-- What the steps that concern listeners come to at a configuration: its listeners are a set. -/
structure ActsAsSet (s : Shelf ω κ α) (n : Nat) (c : Configuration ω κ α) : Prop where
  distinct : Distinct c.listeners
  add : ∀ l, (Step.change n (.add l)).run s =
    if c.Has l then (.refused twice, s) else (.done, s.set n (some (c.listenTo l)))
  withListener : ∀ l, (Step.change n (.withListener l)).run s =
    if c.Has l then (.refused twice, s.set n none) else (.done, s.set n (some (c.listenTo l)))
  remove : ∀ l, (Step.change n (.remove l)).run s =
    (.removed (c.Has l), s.set n (some (c.without l)))
  set : ∀ v, (Step.change n (.set v)).run s = (.done, s.set n (some (v.apply c)))
  listeners_apply : ∀ v : Setting ω κ α, (v.apply c).listeners = c.listeners
  not_has_without : ∀ l, ¬(c.without l).Has l
  without_of_not_has : ∀ l, ¬c.Has l → c.without l = c

/-- A configuration is not touched by changes of others, its copies included, and copies are what it
is. -/
structure StandsAlone (s : Shelf ω κ α) (n : Nat) (c : Configuration ω κ α) : Prop where
  others : ∀ step : Step ω κ α, (∀ x, step ≠ .change n x) → (step.run s).2[n]? = some (some c)
  clone : (Step.clone n).run s = (.done, s ++ [some c])
  ofComplete : (Step.ofComplete n).run s = (.done, s ++ [some c])

variable {s : Shelf ω κ α} {n : Nat} {c : Configuration ω κ α}

theorem actsAsSet (hc : s[n]? = some (some c)) (hdistinct : Distinct c.listeners) :
    ActsAsSet s n c where
  distinct := hdistinct
  add l := by
    rw [Step.run_change hc]
    split
    · next hl => rw [run_add_of_has hl, set_of_getElem?_eq_some hc]
    · next hl => rw [run_add_of_not_has hl]
  withListener l := by
    rw [Step.run_change hc]
    split
    · next hl => rw [run_withListener_of_has hl]
    · next hl => rw [run_withListener_of_not_has hl]
  remove l := by
    have hfound : c.hasListener l = decide (c.Has l) := by
      rw [Bool.eq_iff_iff, hasListener_iff, decide_eq_true_iff]
    rw [Step.run_change hc, run_remove, hfound]
  set v := Step.run_change hc (.set v)
  listeners_apply v := v.listeners_apply c
  not_has_without := c.not_has_without
  without_of_not_has _ := Configuration.without_of_not_has

theorem standsAlone (hc : s[n]? = some (some c)) : StandsAlone s n c where
  others step hstep := by
    cases step with
    | change m x =>
      have hm : m ≠ n := fun hm => hstep x (hm ▸ rfl)
      by_cases hthere : ∃ d, s[m]? = some (some d)
      · obtain ⟨d, hd⟩ := hthere
        rw [Step.run_change hd]
        exact (List.getElem?_set_ne hm).trans hc
      · rw [not_exists] at hthere
        rw [Step.run_change_of_gone hthere]
        exact hc
    | clone m =>
      rw [Step.run_clone_snd]
      exact getElem?_snoc_of_some hc _
    | ofComplete m =>
      rw [Step.run_ofComplete, Step.run_clone_snd]
      exact getElem?_snoc_of_some hc _
  clone := Step.run_clone hc
  ofComplete := (Step.run_ofComplete s n).trans (Step.run_clone hc)

/-- Whatever is done to configurations and copies of them, the listeners of each are an ordered set:
those of the additions that stand, in their order, and no two of them equal. An addition is refused
if and only if an equal listener is there, and then nothing is changed, but where it has taken the
configuration that is not given back. A removal tells whether an equal listener was there, and then
there is none. What is equal is decided by factories and flags, so copies are equal. -/
theorem listeners_orderedSet :
    (Equivalence fun k l : ListenerConfiguration ω κ α => k.same l = true) ∧
    (∀ k l : ListenerConfiguration ω κ α,
      (k.same l = true ↔ k.listener.id = l.listener.id ∧ k.filter.map (·.id) = l.filter.map (·.id) ∧
        k.oldValueRequired = l.oldValueRequired ∧ k.synchronous = l.synchronous) ∧
      k.ofConfiguration.same k = true ∧ k.ofConfiguration.same l.ofConfiguration = k.same l) ∧
    ∀ (id : Nat) (steps : List (Step ω κ α)) (n : Nat) (c : Configuration ω κ α),
      (Step.runAll id steps)[n]? = some (some c) →
      (∃ xs, (Step.lines steps)[n]? = some xs ∧ Follows id xs c) ∧
      ActsAsSet (Step.runAll id steps) n c ∧ StandsAlone (Step.runAll id steps) n c := by
  refine ⟨ListenerConfiguration.equivalence_same, ?_, ?_⟩
  · intro k l
    exact ⟨ListenerConfiguration.same_iff, k.same_refl, rfl⟩
  · intro id steps n c hc
    obtain ⟨xs, hxs, hfollows⟩ := (Recorded.runAll id steps).follows n c hc
    have hdistinct : Distinct c.listeners := by
      rw [hfollows.listeners]
      exact Change.distinct_standing xs
    exact ⟨⟨xs, hxs, hfollows⟩, actsAsSet hc hdistinct, standsAlone hc⟩

theorem listeners_orderedSet_copied :
    let a : ListenerConfiguration Unit Nat Nat := ⟨.singleton 1 {}, none, false, false⟩
    let b : ListenerConfiguration Unit Nat Nat := { a with synchronous := true }
    let steps : List (Step Unit Nat Nat) :=
      [.change 0 (.add a), .clone 0, .change 1 (.add b), .change 1 (.remove a),
      .change 0 (.set (.flag .statistics true)), .ofComplete 1, .change 2 (.withListener b)]
    let s := Step.runAll 7 steps
    let original : Configuration Unit Nat Nat := ((new 7).listenTo a).withStatistics true
    let copy : Configuration Unit Nat Nat := (new 7).listenTo b
    s = [some original, some copy, none] ∧
      Follows 7 [.add a, .set (.flag .statistics true)] original ∧
      Follows 7 [.add a, .add b, .remove a] copy ∧
      (Step.change 0 (.add a)).run s = (.refused twice, s) ∧
      (Step.change 1 (.add a)).run s = (.done, s.set 1 (some (copy.listenTo a))) := by
  intro a b steps s original copy
  have hs : s = [some original, some copy, none] := rfl
  have horiginal : s[0]? = some (some original) := by rw [hs]; rfl
  have hcopy : s[1]? = some (some copy) := by rw [hs]; rfl
  obtain ⟨⟨xs, hxs, hfollows⟩, hset, -⟩ := listeners_orderedSet.2.2 7 steps 0 original horiginal
  obtain ⟨⟨ys, hys, hfollows'⟩, hset', -⟩ := listeners_orderedSet.2.2 7 steps 1 copy hcopy
  have hline : (Step.lines steps)[0]? = some [.add a, .set (.flag .statistics true)] := rfl
  have hline' : (Step.lines steps)[1]? = some [.add a, .add b, .remove a] := rfl
  obtain rfl := Option.some.inj (hline.symm.trans hxs)
  obtain rfl := Option.some.inj (hline'.symm.trans hys)
  have hhas : original.Has a := by decide
  have hnew : ¬copy.Has a := by decide
  refine ⟨hs, hfollows, hfollows', ?_, ?_⟩
  · exact (hset.add a).trans (if_pos hhas)
  · exact (hset'.add a).trans (if_neg hnew)

end EntryCache.Configuration
