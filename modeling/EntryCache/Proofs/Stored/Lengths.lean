import EntryCache.Expiry
import EntryCache.Proofs.Json.Checking

namespace EntryCache

open Json

structure SoundCheck {α β : Type} (check : β → Except Error α) (stored : α → β)
    (Sound : β → Prop) : Prop where
  eq_ok_iff : ∀ b a, check b = .ok a ↔ stored a = b
  sound_iff : ∀ b, Sound b ↔ ∃ a, check b = .ok a

namespace SoundCheck

variable {α β γ : Type} {check : β → Except Error α} {stored : α → β} {Sound : β → Prop}

theorem map_eq_ok_iff (h : SoundCheck check stored Sound) {b : β} {put : α → γ} {c : γ} :
    (check b).map put = .ok c ↔ ∃ a, stored a = b ∧ put a = c := by
  simp only [← h.eq_ok_iff]
  cases check b with
  | error e => exact ⟨nofun, nofun⟩
  | ok a =>
    constructor
    · rintro ⟨⟩
      exact ⟨a, rfl, rfl⟩
    · rintro ⟨_, ⟨⟩, rfl⟩
      rfl

theorem sound_iff_map (h : SoundCheck check stored Sound) {b : β} {put : α → γ} :
    Sound b ↔ ∃ c, (check b).map put = .ok c := by
  simp only [h.sound_iff, h.map_eq_ok_iff, h.eq_ok_iff]
  constructor
  · rintro ⟨a, ha⟩
    exact ⟨put a, a, ha, rfl⟩
  · rintro ⟨_, a, ha, -⟩
    exact ⟨a, ha⟩

end SoundCheck

namespace Duration

structure Stored : Type where
  unit : Option TimeUnit
  amount : UInt64
  deriving DecidableEq

def stored (d : Duration) : Stored := ⟨d.unit?, d.amount⟩

namespace Stored

/-- A unit of at least a millisecond, or no unit and no amount. -/
def Sound (p : Stored) : Prop :=
  match p.unit with
  | none => p.amount = 0
  | some u => u ≠ .nanoseconds ∧ u ≠ .microseconds

def check (p : Stored) : Except Error Duration := Duration.ofParts p.unit p.amount

def ofParts (p : Parts) : Except Refusal Stored :=
  match p.amount with
  | none => .error .malformed
  | some n => .ok ⟨p.unit.getD none, n⟩

def ofTree (t : Tree) : Except Refusal Stored :=
  match Parts.ofTree? t with
  | some p => ofParts p
  | none => .error .malformed

instance : Form Stored where
  write p := writeObject [("time_unit", Form.write p.unit), ("amount", Form.write p.amount)]
  read d := do ofParts (← fields jsonFields false Parts.empty d)

instance : Wire.Form Stored where
  write p := do return (← Wire.Form.write p.unit) ++ (← Wire.Form.write p.amount)
  read := do
    let u ← Wire.Form.read
    let n ← Wire.Form.read
    return ⟨u, n⟩

end Stored

theorem ofUnit_eq_ok_iff {u : TimeUnit} {n : UInt64} {d : Duration} :
    ofUnit u n = .ok d ↔ d.stored = ⟨some u, n⟩ := by
  constructor
  · intro h
    by_cases hu : u.coarse = true
    · cases (dif_pos hu).symm.trans h
      rfl
    · cases (dif_neg hu).symm.trans h
  · intro h
    cases d with
    | eternal => cases h
    | lasting v m hv =>
      cases h
      exact dif_pos hv

theorem coarse_iff (u : TimeUnit) : u.coarse = true ↔ u ≠ .nanoseconds ∧ u ≠ .microseconds := by
  cases u <;> decide

theorem sound_check : SoundCheck Stored.check stored Stored.Sound where
  eq_ok_iff := by
    rintro ⟨_ | u, n⟩ d
    · constructor
      · intro h
        by_cases hn : n = 0
        · cases (if_pos hn).symm.trans h
          rw [hn]
          rfl
        · cases (if_neg hn).symm.trans h
      · intro h
        cases d with
        | eternal =>
          cases h
          rfl
        | lasting v m hv => cases h
    · exact ofUnit_eq_ok_iff
  sound_iff := by
    rintro ⟨_ | u, n⟩
    · refine ⟨fun h => ⟨_, if_pos h⟩, fun ⟨d, h⟩ => ?_⟩
      by_cases hn : n = 0
      · exact hn
      · cases (if_neg hn).symm.trans h
    · refine ⟨fun h => ⟨_, dif_pos ((coarse_iff u).2 h)⟩, fun ⟨d, h⟩ => (coarse_iff u).1 ?_⟩
      by_cases hu : u.coarse = true
      · exact hu
      · cases (dif_neg hu).symm.trans h

theorem finish_of_ofParts {p : Parts} {q : Stored} (h : Stored.ofParts p = .ok q) :
    p.finish = q.check.mapError .refused := by
  obtain ⟨u, _ | n⟩ := p
  · cases h
  · cases h
    simp only [Parts.finish, Stored.check]
    cases ofParts (u.getD none) n <;> rfl

theorem finish_of_error {p : Parts} {f : Refusal} (h : Stored.ofParts p = .error f) :
    ∃ g, p.finish = .error g := by
  obtain ⟨u, _ | n⟩ := p
  · exact ⟨_, rfl⟩
  · cases h

theorem checks_read (d : Nat) :
    Checks (Form.read d) (fun (p : Stored) x => x = p.check) (Form.read d : Reader Duration) :=
  .after _ fun _ => .lift (fun _ h => ⟨_, rfl, finish_of_ofParts h⟩) fun _ => finish_of_error

theorem ofTree_of_stored {t : Tree} {p : Stored} (h : Stored.ofTree t = .ok p) :
    ofTree t = p.check.mapError .refused := by
  rw [Stored.ofTree] at h
  rw [ofTree]
  cases ht : Parts.ofTree? t with
  | none =>
    rw [ht] at h
    cases h
  | some q =>
    rw [ht] at h
    exact finish_of_ofParts h

theorem ofTree_of_error {t : Tree} {f : Refusal} (h : Stored.ofTree t = .error f) :
    ∃ g, ofTree t = .error g := by
  rw [Stored.ofTree] at h
  rw [ofTree]
  cases ht : Parts.ofTree? t with
  | none => exact ⟨_, rfl⟩
  | some q =>
    rw [ht] at h
    exact finish_of_error h

end Duration

namespace TimedPolicy

structure Stored : Type where
  length : Duration.Stored

variable {rule : ExpiryRule}

def stored (p : TimedPolicy rule) : Stored := ⟨p.length.stored⟩

namespace Stored

def Sound (p : Stored) : Prop := p.length.Sound

def check (p : Stored) : Except Error (TimedPolicy rule) := p.length.check.map TimedPolicy.mk

def jsonFields : List (Json.Field (Option Duration.Stored)) := [
  ⟨"expiry_duration", Option.isSome, fun d _ => do return some (← Form.read d)⟩]

instance : Form Stored where
  write p := writeObject [("expiry_duration", Form.write p.length)]
  read d := do
    match ← fields jsonFields false none d with
    | some length => return ⟨length⟩
    | none => malformed

end Stored

theorem sound_check : SoundCheck Stored.check (@stored rule) Stored.Sound where
  eq_ok_iff := by
    rintro ⟨p⟩ ⟨d⟩
    refine Duration.sound_check.map_eq_ok_iff.trans ⟨?_, ?_⟩
    · rintro ⟨_, rfl, ⟨⟩⟩
      rfl
    · rintro ⟨⟩
      exact ⟨d, rfl, rfl⟩
  sound_iff _ := Duration.sound_check.sound_iff_map

def checkField : Option Duration.Stored → Except Error (Option Duration)
  | none => .ok none
  | some p => p.check.map some

theorem lastChecked_jsonFields :
    LastChecked (fun p x => x = checkField p) Stored.jsonFields jsonFields := by
  refine .last ⟨⟨rfl, ?_⟩, fun d _ _ _ => ?_, ?_⟩
  · rintro (_ | p) x h
    · cases h
      rfl
    · obtain ⟨l, -, rfl⟩ := exists_of_ok_eq_map h
      rfl
  · exact (Duration.checks_read d).map fun _ => rfl
  · rintro (_ | p) e h
    · cases h
    · rfl

theorem checks_read (d : Nat) :
    Checks (Form.read d) (fun (p : Stored) x => x = p.check)
      (Form.read d : Reader (TimedPolicy rule)) := by
  refine (Checks.fields lastChecked_jsonFields false (y := none) rfl d).bind ?_ ?_
  · rintro (_ | p) x h
    · cases h
      exact .malformed
    · obtain ⟨l, hp, rfl⟩ := exists_of_ok_eq_map h
      exact .pure (congrArg (Except.map mk) hp).symm
  · rintro (_ | p) e h
    · exact .malformed
    · exact .pure (congrArg (Except.map mk) (eq_error_of_error_eq_map h)).symm

end TimedPolicy

end EntryCache
