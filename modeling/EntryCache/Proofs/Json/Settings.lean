import EntryCache.Proofs.Stored.Settings

namespace EntryCache

open Json

namespace Json

theorem roundTrips_timeUnit (d : Nat) (u : TimeUnit) :
    RoundTrips d u := reads_choice (by cases u <;> rfl) d

theorem roundTrips_unit? (d : Nat) (u : Option TimeUnit) : RoundTrips d u := by
  apply roundTrips_option fun v _ => roundTrips_timeUnit d v
  intro v _
  exact ⟨'"', _, rfl, rfl, by decide⟩

theorem takes_length (d : Nat) (p : Duration.Stored) :
    Takes (Field.member Duration.jsonFields d) Duration.Parts.empty
      [("time_unit", Form.write p.unit), ("amount", Form.write p.amount)]
        ⟨some p.unit, some p.amount⟩ := by
  apply Takes.cons (y := ⟨some p.unit, none⟩)
  · exact reads_member (f := Duration.jsonFields[0]) rfl rfl
      ((roundTrips_unit? d p.unit).bind_pure _)
  apply Takes.cons (y := ⟨some p.unit, some p.amount⟩)
  · exact reads_member (f := Duration.jsonFields[1]) rfl rfl
      ((roundTrips_uint64 d p.amount).bind_pure _)
  exact .nil _

theorem roundTrips_length (d : Nat) (p : Duration.Stored) : RoundTrips (d + 1) p := by
  intro rest hrest
  exact run_bind_of_ok (reads_fields (takes_length d p) rest hrest)

theorem roundTrips_duration (d : Nat) (x : Duration) : RoundTrips (d + 1) x :=
  (Duration.checks_read (d + 1)).reads (roundTrips_length d x.stored) x.ofParts_parts

theorem roundTrips_policy (d : Nat) (p : TimedPolicy.Stored) : RoundTrips (d + 2) p := by
  have htakes : Takes (Field.member TimedPolicy.Stored.jsonFields (d + 1)) none
      [("expiry_duration", Form.write p.length)] (some p.length) := by
    apply Takes.cons
    · exact reads_member (f := TimedPolicy.Stored.jsonFields[0]) rfl rfl
        ((roundTrips_length d p.length).bind_pure some)
    exact .nil _
  intro rest hrest
  exact run_bind_of_ok (reads_fields htakes rest hrest)

section

open ExpirySettings.Stored

theorem reads_tag (d : Nat) (t : ExpirySettings.Tag) :
    Reads (Progress.member d "policy" .start) (writeChars t.name.toList) (.tagged t) := by
  have htag : ExpirySettings.Tag.ofName? t.name = some t := by
    cases t with
    | eternal => rfl
    | timed rule => cases rule <;> rfl
  exact (reads_choice htag d).bind_pure _

theorem reads_length (d : Nat) (rule : ExpiryRule) (p : Duration.Stored) :
    Reads (Progress.member (d + 1) "duration" (.tagged (.timed rule))) (Form.write p)
      (.done (.timed rule p)) :=
  ((roundTrips_length d p).bind_pure (timed rule)).bind_pure _

theorem roundTrips_choice (d : Nat) (s : ExpirySettings.Stored) : RoundTrips (d + 2) s := by
  let body : Nat → Reader ExpirySettings.Stored := fun d => do
    (← members (Progress.member d) .start).finish
  have hbody : Reads (nested '\x7b' body (d + 2)) (Form.write s) s := by
    cases s with
    | eternal =>
      have htakes := Takes.cons (reads_tag (d + 1) .eternal) (.nil _)
      exact reads_object fun rest => run_bind_of_ok (run_members htakes rest)
    | timed rule p =>
      have htakes := Takes.cons (reads_tag (d + 1) (.timed rule))
        (.cons (reads_length d rule p) (.nil _))
      exact reads_object fun rest => run_bind_of_ok (run_members htakes rest)
  intro rest hrest
  cases s <;> exact (run_bind_of_ok (run_peek rfl _)).trans (hbody rest hrest)

end

theorem takes_settings (d : Nat) (s : CacheSettings.Stored) :
    Takes (Field.member CacheSettings.Stored.jsonFields (d + 2)) (.empty, none) [
      ("store_by_value", Form.write s.flags.storeByValue),
      ("read_through", Form.write s.flags.readThrough),
      ("write_through", Form.write s.flags.writeThrough),
      ("statistics_enabled", Form.write s.flags.statistics),
      ("management_enabled", Form.write s.flags.management),
      ("expiry", Form.write s.expiry)]
      (⟨some s.flags.storeByValue, some s.flags.readThrough, some s.flags.writeThrough,
        some s.flags.statistics,
        some s.flags.management, none⟩, some s.expiry) := by
  have hflag : ∀ (f : Bool → CacheSettings.Parts) (b : Bool),
      Reads (do let p ← (do return f (← Form.read (d + 2))); return (p, none)) (Form.write b)
        ((f b, none) : CacheSettings.Stored.Parts) :=
    fun f b => ((roundTrips_bool (d + 2) b).bind_pure f).bind_pure (·, none)
  obtain ⟨⟨a, b, c, m, n⟩, e⟩ := s
  apply Takes.cons (y := (⟨some a, none, none, none, none, none⟩, none))
  · exact reads_member (f := CacheSettings.Stored.jsonFields[0]) rfl rfl (hflag _ a)
  apply Takes.cons (y := (⟨some a, some b, none, none, none, none⟩, none))
  · exact reads_member (f := CacheSettings.Stored.jsonFields[1]) rfl rfl (hflag _ b)
  apply Takes.cons (y := (⟨some a, some b, some c, none, none, none⟩, none))
  · exact reads_member (f := CacheSettings.Stored.jsonFields[2]) rfl rfl (hflag _ c)
  apply Takes.cons (y := (⟨some a, some b, some c, some m, none, none⟩, none))
  · exact reads_member (f := CacheSettings.Stored.jsonFields[3]) rfl rfl (hflag _ m)
  apply Takes.cons (y := (⟨some a, some b, some c, some m, some n, none⟩, none))
  · exact reads_member (f := CacheSettings.Stored.jsonFields[4]) rfl rfl (hflag _ n)
  apply Takes.cons (y := (⟨some a, some b, some c, some m, some n, none⟩, some e))
  · exact reads_member (f := CacheSettings.Stored.jsonFields[5]) rfl rfl
      ((roundTrips_choice d e).bind_pure _)
  exact .nil _

theorem roundTrips_settings (d : Nat) (s : CacheSettings.Stored) : RoundTrips (d + 3) s :=
  (reads_fields (takes_settings d s)).bind_pure CacheSettings.Stored.Parts.finish

theorem roundTrips_cacheSettings (d : Nat) (s : CacheSettings) : RoundTrips (d + 3) s := by
  have hreads := (CacheSettings.checks_read (d + 3)).reads (roundTrips_settings d s.stored)
    ((CacheSettings.sound_check.eq_ok_iff _ s).2 rfl)
  obtain ⟨f, _ | ⟨rule, x⟩⟩ := s <;> exact hreads

end Json

def ExpirySettings.answers : ExpirySettings → ExpiryPolicy
  | .eternal => ⟨.eternal, none, none⟩
  | .timed .created d => ⟨d, none, none⟩
  | .timed .accessed d => ⟨d, some d, none⟩
  | .timed .modified d => ⟨d, none, some d⟩
  | .timed .touched d => ⟨d, some d, some d⟩

theorem ExpirySettings.policy_eq_answers (e : ExpirySettings) : e.policy = e.answers := by
  cases e with
  | eternal => rfl
  | timed rule d => cases rule <;> rfl

/-- Settings are read from their JSON as they were written, to the unit and the amount of a length
of time; and the configuration that is made of them has their flags, gives them back, and has the
policy that they name. -/
theorem CacheSettings.read_write_ofSettings {ω κ α : Type} [DecidableEq κ] (s : CacheSettings)
    (id : Nat) (w : ω) : Json.read (Json.write s) = .ok s ∧
      let c : Configuration ω κ α := .ofSettings id s
      c.flags = s.flags ∧ c.settings s.expiry = s ∧ (c.expiry.create w).1 = s.expiry.answers :=
  ⟨read_write (roundTrips_cacheSettings 124 s), rfl, rfl, s.expiry.policy_eq_answers⟩

end EntryCache
