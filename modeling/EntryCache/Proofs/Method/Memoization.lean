import EntryCache.Configuration
import EntryCache.Envelope
import EntryCache.Proofs.Method.Keeping
import Mathlib.Data.List.Induction

namespace EntryCache

variable {ω α : Type}

/-- The calls of a sequence that ran their method, by their places, each with the outcome of the
method. -/
abbrev CallLog (α : Type) : Type := List (Nat × Except Error α)

namespace MethodCall

def noted (i : Nat) (c : MethodCall ω α) : MethodCall (ω × CallLog α) α where
  key := c.key
  method s := ((c.method.run s.1).1, ((c.method.run s.1).2, s.2 ++ [(i, (c.method.run s.1).1)]))

theorem run_noted (i : Nat) (c : MethodCall ω α) (w : ω) (log : CallLog α) :
    (c.noted i).method.run (w, log) =
      ((c.method.run w).1, ((c.method.run w).2, log ++ [(i, (c.method.run w).1)])) := rfl

def noteAll (cs : List (MethodCall ω α)) : List (MethodCall (ω × CallLog α) α) := cs.mapIdx noted

theorem noteAll_concat (cs : List (MethodCall ω α)) (c : MethodCall ω α) :
    noteAll (cs ++ [c]) = noteAll cs ++ [c.noted cs.length] := by
  simp [noteAll, List.mapIdx_append]

end MethodCall

namespace ResultDescriptor

open MethodCall

variable {d : ResultDescriptor} {c₀ : MethodCaches (ω × CallLog α) α} {cs : List (MethodCall ω α)}
  {c : MethodCall ω α} {log l : CallLog α} {i : Nat} {k : Key} {r u : Except Error α}
  {answers : List (Except Error α)} {t t' : Table Key (Except Error α)}

/-- A call before place `i` ran its method for the key `k`, with an outcome `r` of which `u` is
kept. -/
def KeptBefore (d : ResultDescriptor) (c₀ : MethodCaches (ω × CallLog α) α)
    (cs : List (MethodCall ω α)) (log : CallLog α) (i : Nat) (k : Key)
    (r u : Except Error α) : Prop :=
  ∃ j < i, ∃ c, cs[j]? = some c ∧ c.key = k ∧ (j, r) ∈ log ∧ d.Keeps c₀ r u

structure Memoized (d : ResultDescriptor) (c₀ : MethodCaches (ω × CallLog α) α)
    (cs : List (MethodCall ω α)) (log : CallLog α) (answers : List (Except Error α)) (i : Nat)
    (k : Key) : Prop where
  ran_iff : (∃ r, (i, r) ∈ log) ↔ ¬∃ r u, d.KeptBefore c₀ cs log i k r u
  own : ∀ r, (i, r) ∈ log → ∃ a, answers[i]? = some a ∧ d.Answers c₀ r a
  replayed : ∀ r u, d.KeptBefore c₀ cs log i k r u → answers[i]? = some (c₀.replay u)
  unchanged : ∀ r, d.KeptBefore c₀ cs log i k r r → answers[i]? = some r

structure Remembers (d : ResultDescriptor) (c₀ : MethodCaches (ω × CallLog α) α)
    (cs : List (MethodCall ω α)) (log : CallLog α) (answers : List (Except Error α))
    (t : Table Key (Except Error α)) : Prop where
  answered : answers.length = cs.length
  within : ∀ x ∈ log, x.1 < cs.length
  once : (log.map Prod.fst).Pairwise (· < ·)
  kept : ∀ k u, t k = some u ↔ ∃ r, d.KeptBefore c₀ cs log cs.length k r u
  memoized : ∀ i c, cs[i]? = some c → d.Memoized c₀ cs log answers i c.key

theorem keptBefore_concat (hi : i ≤ cs.length) (hl : ∀ x ∈ l, cs.length ≤ x.1) :
    d.KeptBefore c₀ (cs ++ [c]) (log ++ l) i k r u ↔ d.KeptBefore c₀ cs log i k r u := by
  apply exists_congr
  intro j
  apply and_congr_right
  intro hj
  have hnew : (j, r) ∉ l := fun h => absurd (hl _ h) (by simp only; omega)
  rw [List.getElem?_append_left (by omega)]
  simp only [List.mem_append, hnew, or_false]

theorem keptBefore_succ (hlog : ∀ x ∈ log, x.1 < cs.length) (hl : ∀ x ∈ l, cs.length ≤ x.1) :
    d.KeptBefore c₀ (cs ++ [c]) (log ++ l) (cs.length + 1) k r u ↔
      d.KeptBefore c₀ cs log cs.length k r u ∨
        c.key = k ∧ (cs.length, r) ∈ l ∧ d.Keeps c₀ r u := by
  have hold : (cs.length, r) ∉ log := fun h => absurd (hlog _ h) (by simp)
  have hlast : (∃ b, (cs ++ [c])[cs.length]? = some b ∧ b.key = k ∧ (cs.length, r) ∈ log ++ l ∧
      d.Keeps c₀ r u) ↔ c.key = k ∧ (cs.length, r) ∈ l ∧ d.Keeps c₀ r u := by
    simp [hold]
  rw [← keptBefore_concat (c := c) (Nat.le_refl _) hl, ← hlast]
  simp only [KeptBefore, Nat.lt_succ_iff_lt_or_eq, or_and_right, exists_or, exists_eq_left]

theorem KeptBefore.copied (h : d.KeptBefore c₀ cs log i k r u) : c₀.copy r = .ok u := by
  obtain ⟨j, -, b, -, -, -, -, hcopy⟩ := h
  exact hcopy

namespace Memoized

theorem of_replayed (hran : (∃ r, (i, r) ∈ log) ↔ ¬∃ r u, d.KeptBefore c₀ cs log i k r u)
    (hown : ∀ r, (i, r) ∈ log → ∃ a, answers[i]? = some a ∧ d.Answers c₀ r a)
    (hreplayed : ∀ r u, d.KeptBefore c₀ cs log i k r u → answers[i]? = some (c₀.replay u)) :
    d.Memoized c₀ cs log answers i k := by
  refine ⟨hran, hown, hreplayed, fun r hr => ?_⟩
  rw [hreplayed r r hr, MethodCaches.replay_of_copy hr.copied]

theorem concat (h : d.Memoized c₀ cs log answers i k) (hi : i < cs.length)
    (hlen : answers.length = cs.length) (hl : ∀ x ∈ l, cs.length ≤ x.1) (a : Except Error α) :
    d.Memoized c₀ (cs ++ [c]) (log ++ l) (answers ++ [a]) i k := by
  have hnew : ∀ s, (i, s) ∉ l := fun s hs => absurd (hl _ hs) (by simp only; omega)
  have hkept : ∀ r u, d.KeptBefore c₀ (cs ++ [c]) (log ++ l) i k r u ↔
      d.KeptBefore c₀ cs log i k r u := fun r u => keptBefore_concat (by omega) hl
  have hanswer : (answers ++ [a])[i]? = answers[i]? := List.getElem?_append_left (by omega)
  apply of_replayed
  · simpa only [List.mem_append, hnew, or_false, hkept] using h.ran_iff
  · intro r hr
    rw [hanswer]
    exact h.own r (by simpa [hnew] using hr)
  · intro r u hr
    rw [hanswer]
    exact h.replayed r u ((hkept r u).mp hr)

end Memoized

namespace Remembers

theorem memoized_concat {a : Except Error α} (h : d.Remembers c₀ cs log answers t)
    (hl : ∀ x ∈ l, cs.length ≤ x.1)
    (hlast : d.Memoized c₀ (cs ++ [c]) (log ++ l) (answers ++ [a]) cs.length c.key) :
    ∀ i b, (cs ++ [c])[i]? = some b →
      d.Memoized c₀ (cs ++ [c]) (log ++ l) (answers ++ [a]) i b.key := by
  intro i b hb
  -- Of the earlier calls nothing changes; that leaves the last one.
  by_cases hi : i < cs.length
  · rw [List.getElem?_append_left hi] at hb
    exact (h.memoized i b hb).concat hi h.answered hl a
  · have hlt := (List.getElem?_eq_some_iff.mp hb).1
    have heq : i = cs.length := by
      rw [List.length_append, List.length_singleton] at hlt
      omega
    subst heq
    simp only [List.getElem?_concat_length, Option.some.injEq] at hb
    exact hb ▸ hlast

theorem replay (h : d.Remembers c₀ cs log answers t) (hu : t c.key = some u) :
    d.Remembers c₀ (cs ++ [c]) log (answers ++ [c₀.replay u]) t := by
  have hkept : ∀ x, (∃ r, d.KeptBefore c₀ (cs ++ [c]) log cs.length c.key r x) ↔
      u = x := fun x => by
    rw [← Option.some.injEq, ← hu, h.kept]
    apply exists_congr
    intro r
    rw [← keptBefore_concat (c := c) (l := []) (Nat.le_refl cs.length) nofun, List.append_nil]
  have hnoted : ∀ r, (cs.length, r) ∉ log := fun r hr => absurd (h.within _ hr) (by simp)
  refine ⟨by simp [h.answered], fun x hx => ?_, h.once, fun k x => ?_, ?_⟩
  · exact Nat.lt_trans (h.within x hx) (by simp)
  · rw [h.kept, List.length_append, List.length_singleton]
    apply exists_congr
    intro r
    have hsucc : d.KeptBefore c₀ (cs ++ [c]) (log ++ []) (cs.length + 1) k r x ↔ _ :=
      keptBefore_succ h.within nofun
    simpa only [List.append_nil, List.not_mem_nil, false_and, and_false, or_false] using hsucc.symm
  · have hlast : d.Memoized c₀ (cs ++ [c]) (log ++ []) (answers ++ [c₀.replay u])
        cs.length c.key := by
      rw [List.append_nil]
      apply Memoized.of_replayed
      · refine iff_of_false (not_exists.mpr hnoted) (not_not.mpr ?_)
        obtain ⟨r, hr⟩ := (hkept u).2 rfl
        exact ⟨r, u, hr⟩
      · exact fun r hr => absurd hr (hnoted r)
      · intro r x hr
        rw [← h.answered, List.getElem?_concat_length, (hkept x).1 ⟨r, hr⟩]
    simpa only [List.append_nil] using h.memoized_concat (l := []) nofun hlast

theorem ran {a : Except Error α} (h : d.Remembers c₀ cs log answers t) (hk : t c.key = none)
    (ha : d.Answers c₀ r a)
    (ht : ∀ k u, t' k = some u ↔ t k = some u ∨ c.key = k ∧ d.Keeps c₀ r u) :
    d.Remembers c₀ (cs ++ [c]) (log ++ [(cs.length, r)]) (answers ++ [a]) t' := by
  have hl : ∀ x ∈ [(cs.length, r)], cs.length ≤ x.1 := by simp
  have hold : ∀ s, (cs.length, s) ∉ log := fun s hs => absurd (h.within _ hs) (by simp)
  have hnone : ∀ s x, ¬d.KeptBefore c₀ (cs ++ [c]) (log ++ [(cs.length, r)]) cs.length
      c.key s x := by
    intro s x hs
    rw [keptBefore_concat (Nat.le_refl _) hl] at hs
    cases hk.symm.trans ((h.kept c.key x).2 ⟨s, hs⟩)
  refine ⟨by simp [h.answered], ?_, ?_, fun k x => ?_, h.memoized_concat hl (.of_replayed ?_ ?_ ?_)⟩
  · intro x hx
    rw [List.mem_append, List.mem_singleton] at hx
    rw [List.length_append, List.length_singleton]
    rcases hx with hx | rfl
    · exact Nat.lt_trans (h.within x hx) (Nat.lt_succ_self _)
    · exact Nat.lt_succ_self _
  · rw [List.map_append, List.pairwise_append]
    refine ⟨h.once, by simp, ?_⟩
    simp only [List.mem_map, List.map_cons, List.map_nil, List.mem_singleton]
    rintro - ⟨x, hx, rfl⟩ - rfl
    exact h.within x hx
  · rw [ht, h.kept, List.length_append, List.length_singleton]
    simp only [keptBefore_succ h.within hl, List.mem_singleton, Prod.mk.injEq, true_and, exists_or]
    simp
  · exact iff_of_true ⟨r, by simp⟩ fun ⟨s, x, hs⟩ => hnone s x hs
  · intro s hs
    have heq : s = r := by simpa [hold] using hs
    rw [← h.answered, List.getElem?_concat_length, heq]
    exact ⟨a, rfl, ha⟩
  · exact fun s x hs => absurd hs (hnone s x)

theorem call (h : d.Remembers c₀ cs log answers t) (hskip : d.skipGet = false)
    {caches : MethodCaches (ω × CallLog α) α} (hkeep : Keeping c₀ t caches) (w : ω) :
    ∃ a t' caches' w' log',
      (d.call (c.noted cs.length)).run (caches, (w, log)) = (a, (caches', (w', log'))) ∧
        d.Remembers c₀ (cs ++ [c]) log' (answers ++ [a]) t' ∧ Keeping c₀ t' caches' := by
  have hcall := hkeep.call hskip (c.noted cs.length) (w, log)
  have hkey : t (c.noted cs.length).key = t c.key := rfl
  rw [run_noted, hkey] at hcall
  cases hk : t c.key with
  | some u =>
    rw [hk] at hcall
    obtain ⟨caches', hrun, hkeep'⟩ := hcall
    exact ⟨c₀.replay u, t, caches', w, log, hrun, h.replay hk, hkeep'⟩
  | none =>
    rw [hk] at hcall
    obtain ⟨a, t', caches', hrun, ha, ht, hkeep'⟩ := hcall
    exact ⟨a, t', caches', _, _, hrun, h.ran hk ha ht, hkeep'⟩

end Remembers

theorem callAll_remembers (hskip : d.skipGet = false)
    (hcaches : Keeping c₀ (fun _ => none) c₀) (w : ω) (cs : List (MethodCall ω α)) :
    ∃ answers t caches w' log, d.callAll (noteAll cs) (c₀, (w, [])) =
      (answers, (caches, (w', log))) ∧
      d.Remembers c₀ cs log answers t ∧ Keeping c₀ t caches := by
  -- From the end, since the last call finds what all the others left.
  induction cs using List.reverseRecOn with
  | nil =>
    refine ⟨[], fun _ => none, c₀, w, [], rfl, ⟨rfl, nofun, .nil, fun k u => ?_, nofun⟩, hcaches⟩
    exact iff_of_false nofun fun ⟨r, j, hj, _⟩ => absurd hj (Nat.not_lt_zero j)
  | append_singleton cs c ih =>
    obtain ⟨answers, t, caches₁, w₁, log, hrun, ht, hkeep⟩ := ih
    obtain ⟨a, t', caches', w', log', hcall, ht', hkeep'⟩ := ht.call hskip hkeep w₁
    refine ⟨answers ++ [a], t', caches', w', log', ?_, ht', hkeep'⟩
    rw [noteAll_concat, callAll_concat, hrun]
    simp only [hcall]

/-- Along any calls on two caches that start empty: every call is answered; no method is run more
often than once; and each call is memoized. -/
theorem calls_memoized (d : ResultDescriptor) (hskip : d.skipGet = false)
    {caches : MethodCaches (ω × CallLog α) α} (hresults : caches.results.Blank)
    (hfailures : caches.failures.Blank) (cs : List (MethodCall ω α)) (w : ω) :
    let run := d.callAll (noteAll cs) (caches, (w, []))
    let log := run.2.2.2
    run.1.length = cs.length ∧ (log.map Prod.fst).Pairwise (· < ·) ∧
      ∀ i c, cs[i]? = some c → d.Memoized caches cs log run.1 i c.key := by
  intro run log
  obtain ⟨answers, t, caches', w', log', hrun, ht, -⟩ :=
    callAll_remembers hskip ⟨hresults.bare, hfailures.bare⟩ w cs
  simp only [run, log, hrun]
  exact ⟨ht.answered, ht.once, ht.memoized⟩

/-- Prices from 10 on are too high for a copy. Without a filter, the failure that is late is
kept. -/
theorem calls_memoized_quotes :
    let tooHigh : Error := .serialization "too high"
    let copy (n : Nat) : Except Error Nat := if n < 10 then .ok n else .error tooHigh
    let caches : MethodCaches (Unit × CallLog Nat) Nat :=
      ⟨(Cache.create "quotes" (Configuration.new 0) copy ((), [])).1,
        (Cache.create "failures" (Configuration.new 0) .ok ((), [])).1⟩
    let closed : Error := .cache "closed"
    let late : Error := .timeout "late"
    let quote (symbol : String) (r : Except Error Nat) : MethodCall Unit Nat :=
      ⟨⟨[.text symbol]⟩, .ofExcept r⟩
    let morning := [quote "A" (.ok 1), quote "A" (.ok 2), quote "B" (.error closed),
      quote "B" (.ok 3)]
    let noon := [quote "C" (.error late), quote "C" (.ok 4)]
    let evening := [quote "D" (.ok 12), quote "D" (.ok 5)]
    let plain : ResultDescriptor := default
    let filtered := { plain with cachedExceptions := some fun e => e.kind = .plain .cache }
    let run (d : ResultDescriptor) (cs : List (MethodCall Unit Nat)) :=
      d.callAll (noteAll cs) (caches, ((), []))
    let log (d : ResultDescriptor) (cs : List (MethodCall Unit Nat)) := (run d cs).2.2.2
    ((log filtered morning).map Prod.fst = [0, 2] ∧
        (run filtered morning).1[1]? = some (.ok 1) ∧
        (run filtered morning).1[3]? = some (.error closed)) ∧
      ((log filtered noon).map Prod.fst = [0, 1] ∧ (log plain noon).map Prod.fst = [0] ∧
        (run plain noon).1[1]? = some (.error late)) ∧
      (log plain evening).map Prod.fst = [0, 1] ∧
        (run plain evening).1[0]? = some (.error tooHigh) := by
  intro tooHigh copy caches closed late quote morning noon evening plain filtered run log
  have hmemoized (d : ResultDescriptor) (hskip : d.skipGet = false)
    (cs : List (MethodCall Unit Nat)) :
      ∀ i c, cs[i]? = some c → d.Memoized caches cs (log d cs) (run d cs).1 i c.key :=
    (calls_memoized d hskip ⟨rfl, rfl, rfl, rfl, rfl⟩ ⟨rfl, rfl, rfl, rfl, rfl⟩ cs ()).2.2
  refine ⟨?_, ⟨by rfl, ?_⟩, ?_⟩
  · have hlog : log filtered morning = [(0, .ok 1), (2, .error closed)] := by rfl
    have h := hmemoized filtered rfl morning
    rw [hlog] at h ⊢
    have hkeep : filtered.ToKeep (.error closed : Except Error Nat) := by
      rintro f ⟨⟩
      rfl
    exact ⟨rfl, (h 1 _ rfl).unchanged (.ok 1) ⟨0, by decide, _, rfl, rfl, by simp, trivial, rfl⟩,
      (h 3 _ rfl).unchanged (.error closed) ⟨2, by decide, _, rfl, rfl, by simp, hkeep, rfl⟩⟩
  · have hlog : log plain noon = [(0, .error late)] := by rfl
    have h := hmemoized plain rfl noon
    rw [hlog] at h ⊢
    exact ⟨rfl, (h 1 _ rfl).unchanged (.error late)
      ⟨0, by decide, _, rfl, rfl, by simp, nofun, rfl⟩⟩
  · have hlog : log plain evening = [(0, .ok 12), (1, .ok 5)] := by rfl
    have h := hmemoized plain rfl evening
    rw [hlog] at h ⊢
    obtain ⟨a, ha, hanswers⟩ := (h 0 _ rfl).own (.ok 12) (by simp)
    cases hanswers with
    | own h => exact absurd ⟨trivial, rfl⟩ (h tooHigh)
    | uncopied hkeep hcopy =>
      cases hcopy
      exact ⟨rfl, ha⟩

/-- A choice of a policy cannot be copied through an envelope, so the method is run again, and what
it returns is not the answer. -/
theorem call_expiry_uncopied :
    let caches : MethodCaches (Unit × CallLog ExpirySettings) ExpirySettings :=
      ⟨(Cache.create "expiry" (Configuration.new 0) Envelope.copy ((), [])).1,
        (Cache.create "failures" (Configuration.new 0) .ok ((), [])).1⟩
    let ask : MethodCall Unit ExpirySettings := ⟨⟨[.text "A"]⟩, .ofExcept (.ok .eternal)⟩
    let run := (default : ResultDescriptor).callAll (noteAll [ask, ask]) (caches, ((), []))
    let log := run.2.2.2
    let refusal : Error := .serialization "This is a feature that PostCard will never implement"
    log = [(0, .ok .eternal), (1, .ok .eternal)] ∧ run.1 = [.error refusal, .error refusal] := by
  intro caches ask run log refusal
  constructor
  · rfl
  · rfl

end ResultDescriptor

end EntryCache
