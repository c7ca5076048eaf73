import EntryCache.Proofs.Staging.Cell
import EntryCache.Proofs.Cache.Changes

/-! Caches that copy their values, next to the same caches that keep the values themselves. As long
as the values have faithful copies nothing that is done tells them apart. -/

namespace EntryCache

variable {ω κ α β γ δ : Type} [DecidableEq κ] {P : α → Prop} {Q : γ → Prop} {R : δ → Prop}

structure Loader.Brings (P : α → Prop) (l : Loader ω κ α) : Prop where
  load : ∀ {k w v}, ((l.load k).run w).1 = .ok v → ∀ x ∈ v, P x
  loadAll : ∀ {ks w m}, ((l.loadAll ks).run w).1 = .ok m → ∀ k, ∀ x ∈ m.get? k, P x

theorem loadEach_brings {load : κ → Action ω (Option α)}
    (h : ∀ {k w v}, ((load k).run w).1 = .ok v → ∀ x ∈ v, P x)
    {m m' : FiniteMap κ α} {ks : List κ} {w : ω} (hm : ∀ k, ∀ x ∈ m.get? k, P x)
    (hrun : ((loadEach load m ks).run w).1 = .ok m') : ∀ k, ∀ x ∈ m'.get? k, P x := by
  induction ks generalizing m w with
  | nil =>
    obtain rfl : m = m' := Except.ok.inj hrun
    exact hm
  | cons j ks ih =>
    rw [loadEach, Action.run_bind] at hrun
    rcases hload : (load j).run w with ⟨e | v, w'⟩ <;> rw [hload] at hrun
    · cases hrun
    · have hv := h (congrArg Prod.fst hload)
      cases v with
      | none => exact ih hm hrun
      | some x =>
        refine ih (fun k y hy => ?_) hrun
        rw [FiniteMap.get?_insert] at hy
        split at hy
        · exact hv y hy
        · exact hm k y hy

theorem Loader.brings_loadEach {load : κ → Action ω (Option α)}
    (h : ∀ {k w v}, ((load k).run w).1 = .ok v → ∀ x ∈ v, P x) :
      Loader.Brings P { load := load } where
  load := h
  loadAll := loadEach_brings h nofun

namespace StagedEntry

variable {load : Option (Action ω (Option α))} {s : StagedEntry α} {w : ω}

theorem read_brings (hload : ∀ l ∈ load, ∀ {w v}, (l.run w).1 = .ok v → ∀ x ∈ v, P x)
    (hs : ∀ x ∈ s.value, P x) (w : ω) :
    (∀ x ∈ (s.read load w).1, P x) ∧ ∀ x ∈ (s.read load w).2.1.value, P x := by
  by_cases hstage : s.stage = .untouched
  · cases hv : s.value with
    | some v =>
      rw [read_of_some hstage hv]
      exact ⟨hv ▸ hs, hs⟩
    | none =>
      cases load with
      | none =>
        rw [read_without_load hv]
        exact ⟨nofun, hs⟩
      | some l =>
        have habsorb : ∀ x ∈ (s.absorb (l.run w).1).value, P x := by
          rcases hr : (l.run w).1 with e | v
          · exact hs
          · cases v with
            | none => exact hs
            | some v => exact hload l rfl hr
        rw [read_of_load hstage hv]
        exact ⟨habsorb, habsorb⟩
  · rw [read_of_ne hstage]
    exact ⟨hs, hs⟩

theorem run_brings (hload : ∀ l ∈ load, ∀ {w v}, (l.run w).1 = .ok v → ∀ x ∈ v, P x)
    {p : Processor α β} (hp : p.Brings P) (hs : ∀ x ∈ s.value, P x) (w : ω) :
      ∀ x ∈ (run load p s w).2.1.value, P x := by
  induction p generalizing s w with
  | done r => exact hs
  | value next ih =>
    obtain ⟨hanswer, hs'⟩ := read_brings hload hs w
    exact ih _ (hp _ hanswer) hs' _
  | present next ih => exact ih _ (hp _) hs w
  | set v next ih => exact ih hp.2 (by simpa [set] using hp.1) w
  | remove next ih => exact ih hp (by simp [remove]) w

theorem outcome_brings {o : Outcome α} (h : s.outcome = .ok o) (hs : ∀ x ∈ s.value, P x) :
    ∀ x ∈ o.value?, P x := by
  unfold outcome at h
  grind [Outcome.value?]

end StagedEntry

namespace Cache

def byReference (c : Cache ω κ α) : Cache ω κ α :=
  { c with config := c.config.withStoreByValue false, copy := .ok }

/-- Values with a property have faithful copies, and what is in the cache or comes from its loader
has it. -/
structure Sound (P : α → Prop) (c : Cache ω κ α) : Prop where
  copies : ∀ v, P v → c.copy v = .ok v
  holds : ∀ k, ∀ v ∈ c.entries.get? k, P v
  loader : ∀ l ∈ c.loader, l.Brings P

def Blind (P : α → Prop) (Q : γ → Prop) (op : Op ω κ α γ) : Prop :=
  ∀ c w, c.Sound P → ∃ r c' w', op.run (c, w) = (r, (c', w')) ∧
    op.run (c.byReference, w) = (r, (c'.byReference, w')) ∧ c'.Sound P ∧ ∀ x, r = .ok x → Q x

abbrev Any : γ → Prop := fun _ => True

namespace Sound

variable {c : Cache ω κ α}

theorem enter (h : c.Sound P) (k : κ) {v : α} (hv : P v) : (c.enter k v).Sound P := by
  refine ⟨h.copies, fun j x hx => ?_, h.loader⟩
  rw [Cache.enter, FiniteMap.get?_insert] at hx
  split at hx
  · exact Option.mem_some.1 hx ▸ hv
  · exact h.holds j x hx

theorem without (h : c.Sound P) (k : κ) : (c.without k).Sound P := by
  refine ⟨h.copies, fun j x hx => ?_, h.loader⟩
  change x ∈ (c.entries.erase k).get? j at hx
  rw [FiniteMap.get?_erase] at hx
  split at hx
  · cases hx
  · exact h.holds j x hx

theorem count (h : c.Sound P) (n : Statistics) :
    Sound P { c with stats := n } := ⟨h.copies, h.holds, h.loader⟩

end Sound

namespace Blind

variable {op : Op ω κ α γ}

theorem pure {x : γ} (h : Q x) : Blind P Q (pure x : Op ω κ α γ) := by
  intro c w hc
  refine ⟨.ok x, c, w, rfl, rfl, hc, ?_⟩
  rintro _ ⟨⟩
  exact h

theorem ofExcept {r : Except Error γ} (h : ∀ x, r = .ok x → Q x) :
    Blind P Q (.ofExcept r : Op ω κ α γ) :=
  fun c w hc => ⟨r, c, w, rfl, rfl, hc, h⟩

theorem bind {f : γ → Op ω κ α δ} (h : Blind P Q op) (hf : ∀ x, Q x → Blind P R (f x)) :
    Blind P R (op >>= f) := by
  intro c w hc
  obtain ⟨r, c', w', hrun, href, hc', hr⟩ := h c w hc
  cases r with
  | error e =>
    exact ⟨.error e, c', w', Action.run_bind_of_error hrun,
      Action.run_bind_of_error href, hc', nofun⟩
  | ok x =>
    rw [Action.run_bind_of_ok hrun, Action.run_bind_of_ok href]
    exact hf x (hr x rfl) c' w' hc'

theorem then_pure {f : γ → δ} (h : Blind P Q op) : Blind P Any (op >>= fun x => Pure.pure (f x)) :=
  h.bind fun _ _ => pure trivial

theorem discard (h : Blind P Q op) : Blind P Any (discard op) := h.then_pure

theorem look {f : Cache ω κ α → γ} (hf : ∀ c : Cache ω κ α, f c.byReference = f c)
    (hq : ∀ c, c.Sound P → Q (f c)) : Blind P Q (look f) := by
  intro c w hc
  refine ⟨.ok (f c), c, w, rfl, by rw [← hf c]; rfl, hc, ?_⟩
  rintro _ ⟨⟩
  exact hq c hc

theorem looks {f : Cache ω κ α → γ} (hf : ∀ c : Cache ω κ α, f c.byReference = f c) :
    Blind P Any (Cache.look f) :=
  look hf fun _ _ => trivial

theorem update {f : Cache ω κ α → Cache ω κ α}
    (hf : ∀ c : Cache ω κ α, f c.byReference = (f c).byReference)
    (hs : ∀ c, c.Sound P → (f c).Sound P) : Blind P Any (update f) :=
  fun c w hc => ⟨.ok (), f c, w, rfl, by rw [← hf c]; rfl, hs c hc, fun _ _ => trivial⟩

theorem beside {a : Cache ω κ α → Action ω γ} (ha : ∀ c : Cache ω κ α, a c.byReference = a c)
    (hq : ∀ c, c.Sound P → ∀ w x, ((a c).run w).1 = .ok x → Q x) :
      Blind P Q fun s => (a s.1).beside s := by
  intro c w hc
  refine ⟨((a c).run w).1, c, ((a c).run w).2, rfl, ?_, hc, hq c hc w⟩
  change ((a c.byReference).beside).run (c.byReference, w) = _
  rw [ha, Action.run_beside]

theorem world {a : Action ω γ} (hq : ∀ w x, (a.run w).1 = .ok x → Q x) :
    Blind P Q (a.beside : Op ω κ α γ) :=
  beside (a := fun _ => a) (fun _ => rfl) fun _ _ => hq

theorem copied {v : α} (hv : P v) : Blind P (· = v) (copied v : Op ω κ α α) := by
  intro c w hc
  refine ⟨.ok v, c, w, ?_, rfl, hc, ?_⟩
  · rw [run_copied, hc.copies v hv]
  · rintro _ ⟨⟩
    rfl

theorem ensureOpen : Blind P Any (ensureOpen : Op ω κ α Unit) := by
  intro c w hc
  cases hclosed : c.closed with
  | false => exact ⟨_, c, w, run_ensureOpen hclosed w,
      run_ensureOpen (c := c.byReference) hclosed w, hc, fun _ _ => trivial⟩
  | true =>
    exact ⟨_, c, w, run_ensureOpen_of_closed hclosed w,
      run_ensureOpen_of_closed (c := c.byReference) hclosed w, hc,
      fun _ _ => trivial⟩

theorem opened (h : Blind P Q op) :
    Blind P Q (Cache.ensureOpen >>= fun _ => op) := ensureOpen.bind fun _ _ => h

theorem forEach {f : β → Op ω κ α Unit} {xs : List β} (h : ∀ x ∈ xs, Blind P Any (f x)) :
    Blind P Any (Action.forEach f xs) := by
  induction xs with
  | nil => exact pure trivial
  | cons x xs ih =>
    rw [List.forall_mem_cons] at h
    exact h.1.bind fun _ _ => ih h.2

theorem attempt (h : Blind P Q op) : Blind P (fun r => ∀ x, r = .ok x → Q x) op.attempt := by
  intro c w hc
  obtain ⟨r, c', w', hrun, href, hc', hr⟩ := h c w hc
  refine ⟨.ok r, c',
    w', by rw [Action.run_attempt, hrun], by rw [Action.run_attempt, href], hc', ?_⟩
  rintro _ ⟨⟩
  exact hr

end Blind

end Cache

end EntryCache
