import EntryCache.Proofs.Json.Settings
import EntryCache.Proofs.Wire.Payload

namespace EntryCache

/-- What is read as `raw` reads it is decoded if it is sound, and refused if it is not. -/
structure Guards {ι α β ε ε' : Type} (decode : ι → Except ε α) (raw : ι → Except ε' β)
    (stored : α → β) (Sound : β → Prop) : Prop where
  sound : ∀ i a, decode i = .ok a → raw i = .ok (stored a) ∧ Sound (stored a)
  decodes : ∀ i b, raw i = .ok b → Sound b → ∃ a, decode i = .ok a ∧ stored a = b
  refuses : ∀ i b, raw i = .ok b → ¬Sound b → ∃ e, decode i = .error e

section

variable {ι α β ε ε' : Type} {check : β → Except Error α} {stored : α → β} {Sound : β → Prop}

theorem SoundCheck.sound_stored (h : SoundCheck check stored Sound) (a : α) : Sound (stored a) :=
  (h.sound_iff _).2 ⟨a, (h.eq_ok_iff _ a).2 rfl⟩

theorem SoundCheck.guards (h : SoundCheck check stored Sound) {decode : ι → Except ε α}
    {raw : ι → Except ε' β}
    (f : Error → ε) (hok : ∀ i b, raw i = .ok b → decode i = (check b).mapError f)
    (herror : ∀ i e, raw i = .error e → ∃ e', decode i = .error e') :
      Guards decode raw stored Sound where
  sound i a ha := by
    cases hraw : raw i with
    | error e =>
      obtain ⟨e', he⟩ := herror i e hraw
      cases he.symm.trans ha
    | ok b =>
      rw [hok i b hraw] at ha
      cases hb : check b with
      | error e =>
        rw [hb] at ha
        cases ha
      | ok a' =>
        rw [hb] at ha
        cases ha
        rw [← (h.eq_ok_iff b a).1 hb]
        exact ⟨rfl, h.sound_stored a⟩
  decodes i b hraw hb := by
    obtain ⟨a, ha⟩ := (h.sound_iff b).1 hb
    exact ⟨a, by rw [hok i b hraw, ha]; rfl, (h.eq_ok_iff b a).1 ha⟩
  refuses i b hraw hb := by
    cases hcheck : check b with
    | ok a => exact absurd ((h.sound_iff b).2 ⟨a, hcheck⟩) hb
    | error e => exact ⟨f e, by rw [hok i b hraw, hcheck]; rfl⟩

end

namespace Json

variable {α β : Type}

/-- Values of one form are written as what is stored of them, and that is read back from it, sound
or not; but they are only read where it is sound. -/
structure Widens [Form α] [Form β] (stored : α → β) (Sound : β → Prop) : Prop extends
    Guards (read : String → Except Refusal α) (read : String → Except Refusal β) stored Sound where
  written : ∀ a, write (stored a) = write a
  returned : ∀ b : β, read (write b) = .ok b

theorem Checks.widens [Form α] [Form β] {check : β → Except Error α} {stored : α → β}
    {Sound : β → Prop} (h : Checks (Form.read depthLimit) (fun (b : β) x => x = check b)
      (Form.read depthLimit : Reader α))
    (hcheck : SoundCheck check stored Sound) (hwrite : ∀ a, Form.write (stored a) = Form.write a)
    (hreturn : ∀ b : β, RoundTrips depthLimit b) : Widens stored Sound where
  toGuards := hcheck.guards .refused (fun _ _ => h.wholeText_of_ok) fun _ _ => h.wholeText_of_error
  written a := congrArg String.ofList (hwrite a)
  returned b := read_write (hreturn b)

end Json

namespace Envelope

open Wire

def made (p : Duration.Stored) : Reader Duration :=
  match p.check with
  | .ok d => return d
  | .error _ => fault .refused

theorem read_duration : (Form.read : Reader Duration) = Form.read >>= made := by
  simp only [Form.read, bind_assoc, pure_bind]
  rfl

theorem readParts_duration :
    (readParts : Reader (Bytes × Nat × Duration)) =
      readParts >>= fun x => made x.2.2 >>= fun d => pure (x.1, x.2.1, d) := by
  simp only [readParts, read_duration, bind_assoc, pure_bind]

theorem run_readParts_of_ok {bytes rest : Bytes} {m : Bytes} {v : Nat} {p : Duration.Stored}
    (h : readParts.run bytes = .ok ((m, v, p), rest)) :
    readParts.run bytes = (p.check.mapError fun _ => Fault.refused).map fun d =>
      ((m, v, d), rest) := by
  rw [readParts_duration, StateT.run_bind, h]
  change ((made p >>= fun d => pure (m, v, d)) : Reader (Bytes × Nat × Duration)).run rest = _
  rw [StateT.run_bind, made]
  cases p.check <;> rfl

theorem decode_eq_map {α β : Type} [Form α] [Form β] {bytes rest : Bytes} {m : Bytes} {v : Nat}
    {a : α} {b : β} (ha : readParts.run bytes = .ok ((m, v, a), rest))
    (hb : readParts.run bytes = .ok ((m, v, b), rest)) :
    decode bytes = (decode bytes : Except Error α).map fun _ => b := by
  rw [decode, decode, ha, hb]
  simp only
  split
  · rfl
  · split <;> rfl

theorem decode_of_refused {α : Type} [Form α] {bytes : Bytes} {f : Fault}
    (h : (readParts : Reader (Bytes × Nat × α)).run bytes = .error f) :
    (decode bytes : Except Error α) = .error (.serialization f.message) := by
  rw [decode, h]

theorem decode_of_ok {bytes : Bytes} {p : Duration.Stored} (h : decode bytes = .ok p) :
    decode bytes = p.check.mapError fun _ => .serialization Fault.refused.message := by
  cases hraw : (readParts (α := Duration.Stored)).run bytes with
  | error f => cases (decode_of_refused hraw).symm.trans h
  | ok y =>
    obtain ⟨⟨m, v, q⟩, rest⟩ := y
    obtain rfl : q = p := by
      have hsame := decode_eq_map hraw hraw
      rw [h] at hsame
      exact (Except.ok.inj hsame).symm
    have hrun := run_readParts_of_ok hraw
    cases hq : q.check with
    | error e =>
      rw [hq] at hrun
      exact decode_of_refused hrun
    | ok d =>
      rw [hq] at hrun
      rw [decode_eq_map hraw hrun, h]
      rfl

theorem decode_of_error {bytes : Bytes} {e : Error}
    (h : (decode bytes : Except Error Duration.Stored) = .error e) :
    ∃ e', (decode bytes : Except Error Duration) = .error e' := by
  cases hraw : (readParts (α := Duration.Stored)).run bytes with
  | error f =>
    have hrun : (readParts (α := Duration)).run bytes = .error f := by
      rw [readParts_duration, StateT.run_bind, hraw]
      rfl
    exact ⟨_, decode_of_refused hrun⟩
  | ok y =>
    obtain ⟨⟨m, v, q⟩, rest⟩ := y
    have hrun := run_readParts_of_ok hraw
    cases hq : q.check with
    | error e' =>
      rw [hq] at hrun
      exact ⟨_, decode_of_refused hrun⟩
    | ok d =>
      rw [hq] at hrun
      exact ⟨e, by rw [decode_eq_map hraw hrun, h]; rfl⟩

theorem read_stored :
    (Form.read : Reader Duration.Stored) =
      (fun q => ⟨q.1, q.2⟩) <$> (Form.read : Reader (Option TimeUnit × UInt64)) := by
  simp only [Form.read, map_eq_pure_bind, bind_assoc, pure_bind]

theorem roundTrips_stored (p : Duration.Stored) : RoundTrips p := by
  have hunit : RoundTrips p.unit := roundTrips_option fun u _ => u.roundTrips
  obtain ⟨bs, hwrite, hread⟩ := roundTrips_prod (p := (p.unit, p.amount)) hunit
    (roundTrips_uint64 p.amount)
  refine ⟨bs, hwrite, ?_⟩
  rw [read_stored]
  exact hread.map _

end Envelope

namespace Duration

theorem widens : Json.Widens stored Stored.Sound :=
  (checks_read _).widens sound_check (fun _ => rfl) (Json.roundTrips_length 126)

theorem guards_decode :
    Guards (Envelope.decode : _ → Except Error Duration)
      (Envelope.decode : _ → Except Error Stored) stored
      Stored.Sound :=
  sound_check.guards _ (fun _ _ => Envelope.decode_of_ok) fun _ _ => Envelope.decode_of_error

end Duration

theorem TimedPolicy.widens (rule : ExpiryRule) : Json.Widens (@stored rule) Stored.Sound :=
  (checks_read _).widens sound_check (fun _ => rfl) (Json.roundTrips_policy 125)

theorem ExpirySettings.widens : Json.Widens stored Stored.Sound := by
  refine (Stored.checks_read _).widens sound_check ?_ (Json.roundTrips_choice 125)
  rintro (_ | ⟨rule, d⟩) <;> rfl

theorem CacheSettings.widens : Json.Widens stored Stored.Sound := by
  refine (checks_read _).widens sound_check ?_ (Json.roundTrips_settings 124)
  rintro ⟨f, _ | ⟨rule, d⟩⟩ <;> rfl

namespace Duration

/-- Every length of time is sound and comes back, to its unit and amount, from what is written of
it. It is made only of a unit that is coarse enough; and in texts and envelopes of whatever kind,
what stands in the place of a length of time is read if it is sound, and the text or the envelope is
refused if it is not. -/
theorem sources_sound :
    (∀ d : Duration, d.stored.Sound ∧ Json.read (Json.write d) = .ok d ∧ Envelope.copy d = .ok d) ∧
      (∀ u n, (∃ d, ofUnit u n = .ok d) ↔ u ≠ .nanoseconds ∧ u ≠ .microseconds) ∧
      (∀ u n d, ofUnit u n = .ok d ↔ d.stored = ⟨some u, n⟩) ∧
      Json.Widens stored Stored.Sound ∧
      (∀ rule, Json.Widens (@TimedPolicy.stored rule) TimedPolicy.Stored.Sound) ∧
      Json.Widens ExpirySettings.stored ExpirySettings.Stored.Sound ∧
      Json.Widens CacheSettings.stored CacheSettings.Stored.Sound ∧
      Guards (Envelope.decode : _ → Except Error Duration)
        (Envelope.decode : _ → Except Error Stored) stored
        Stored.Sound ∧
      ∀ p : Stored, Envelope.copy p = .ok p := by
  refine ⟨fun d => ⟨sound_check.sound_stored d, ?_, Envelope.copy_of_roundTrips d.roundTrips⟩, ?_⟩
  · exact Json.read_write (Json.roundTrips_duration 126 d)
  refine ⟨fun u n => (sound_check.sound_iff ⟨some u, n⟩).symm, fun u n d => ofUnit_eq_ok_iff, ?_⟩
  refine ⟨widens, TimedPolicy.widens, ExpirySettings.widens, CacheSettings.widens,
    guards_decode, ?_⟩
  exact fun p => Envelope.copy_of_roundTrips (Envelope.roundTrips_stored p)

theorem sources_sound_nanoseconds :
    let p : Stored := ⟨some .nanoseconds, 5⟩
    let s := "\x7b\"time_unit\":\"Nanoseconds\",\"amount\":5\x7d"
    (Json.read s = .ok p ∧ ¬p.Sound) ∧ ∃ e, (Json.read s : Except Json.Refusal Duration) =
      .error e := by
  intro p s
  have hread : Json.read s = .ok p := by
    have hwrite : Json.write p = s := by decide +kernel
    exact hwrite ▸ sources_sound.2.2.2.1.returned p
  have hp : ¬p.Sound := fun h => h.1 rfl
  exact ⟨⟨hread, hp⟩, sources_sound.2.2.2.1.refuses s p hread hp⟩

end Duration

end EntryCache
