import EntryCache.Configuration
import EntryCache.Proofs.Wire.Payload

namespace EntryCache

open Wire

namespace Wire

variable {α β : Type}

theorem Reads.bind_error {r : Reader α} {f : α → Reader β} {bs cs : Bytes} {a : α} {e : Fault}
    (h : Reads r bs a) (hf : (f a).run cs = .error e) : (r >>= f).run (bs ++ cs) = .error e := by
  rw [StateT.run_bind, h]
  exact hf

def Refuses (r : Reader α) : Prop := ∀ s, ∃ f, r.run s = .error f

theorem Refuses.after {f : α → Reader β} (r : Reader α) (h : ∀ a, Refuses (f a)) :
    Refuses (r >>= f) := by
  intro s
  rw [StateT.run_bind]
  cases hr : r.run s with
  | error e => exact ⟨e, rfl⟩
  | ok x => exact h x.1 x.2

theorem Refuses.before {r : Reader α} (h : Refuses r) (f : α → Reader β) : Refuses (r >>= f) := by
  intro s
  obtain ⟨e, he⟩ := h s
  exact ⟨e, by rw [StateT.run_bind, he]; rfl⟩

end Wire

namespace Envelope

variable {α : Type} [Form α]

/-- A value has an envelope of its own, which is not decoded; nor is anything else decoded as a
value of its type. -/
structure WriteOnly (a : α) : Prop where
  encoded : ∃ bytes, encode a = .ok bytes ∧ (∀ b, encode b = .ok bytes → b = a) ∧
    (decode bytes : Except Error α) = .error (.serialization Fault.neverReadable.message)
  refused : ∀ bytes, ∃ text, (decode bytes : Except Error α) = .error (.serialization text)

theorem decode_refuses (h : Refuses (Form.read : Reader α)) (bytes : Bytes) :
    ∃ text, (decode bytes : Except Error α) = .error (.serialization text) := by
  have hparts : Refuses (readParts : Reader (Bytes × Nat × α)) :=
    .after _ fun _ => .after _ fun _ => h.before _
  obtain ⟨f, hf⟩ := hparts bytes
  exact ⟨f.message, by rw [decode, hf]⟩

theorem decode_of_fault {bs : Bytes} {f : Fault} (h : (Form.read : Reader α).run bs = .error f) :
    (decode (mark ++ varint version ++ bs) : Except Error α) =
      .error (.serialization f.message) := by
  have hparts : (readParts : Reader (Bytes × Nat × α)).run (mark ++ varint version ++ bs) =
      .error f := by
    rw [List.append_assoc]
    refine (Reads.take mark).bind_error ((reads_varint32 (by decide)).bind_error ?_)
    rw [StateT.run_bind, h]
    rfl
  rw [decode, hparts]

theorem writeOnly_of_reads {r : Reader α}
    (hwrite : ∀ a : α, ∃ bs, Form.write a = .ok bs ∧ Reads r bs a ∧
      (Form.read : Reader α).run bs = .error .neverReadable)
    (h : Refuses (Form.read : Reader α)) (a : α) : WriteOnly a where
  encoded := by
    obtain ⟨bs, ha, hread, hfault⟩ := hwrite a
    refine ⟨_, encode_of_write ha, fun b hb => ?_, decode_of_fault hfault⟩
    obtain ⟨cs, hb', hread', -⟩ := hwrite b
    obtain rfl : bs = cs := List.append_cancel_left
      (Except.ok.inj (hb.symm.trans (encode_of_write hb')))
    exact (congrArg Prod.fst (Except.ok.inj ((hread []).symm.trans (hread' [])))).symm
  refused := decode_refuses h

end Envelope

namespace ExpirySettings

def readNumbered : Reader ExpirySettings := readCase fun
  | 0 => some (pure .eternal)
  | n + 1 => ExpiryRule.all[n]?.map fun rule => .timed rule <$> Form.read

theorem reads_numbered (e : ExpirySettings) :
    ∃ bs, Form.write e = .ok bs ∧ Reads readNumbered bs e := by
  cases e with
  | eternal => exact ⟨varint 0 ++ [], rfl, reads_case (by decide) rfl (.pure _)⟩
  | timed rule d =>
    obtain ⟨bs, hwrite, hread⟩ := d.roundTrips
    refine ⟨varint (ExpiryRule.all.idxOf rule + 1) ++ bs, ?_, ?_⟩
    · change writeCase _ (Form.write d) = _
      rw [hwrite]
      rfl
    · cases rule <;> exact reads_case (by decide) rfl (hread.map _)

theorem refuses_read : Refuses (Form.read : Reader ExpirySettings) := fun _ => ⟨_, rfl⟩

end ExpirySettings

namespace CacheSettings

def readNumbered : Reader CacheSettings := do
  let storeByValue ← Form.read
  let readThrough ← Form.read
  let writeThrough ← Form.read
  let statistics ← Form.read
  let management ← Form.read
  let expiry ← ExpirySettings.readNumbered
  return ⟨⟨storeByValue, readThrough, writeThrough, statistics, management⟩, expiry⟩

theorem refuses_read : Refuses (Form.read : Reader CacheSettings) := by
  refine .after _ fun _ => .after _ fun _ => .after _ fun _ => .after _ fun _ =>
    .after _ fun _ => ?_
  exact ExpirySettings.refuses_read.before _

def bit (b : Bool) : Bytes := [if b then 1 else 0]

theorem reads_bit (b : Bool) : Reads Form.read (bit b) b := by
  obtain ⟨bs, hwrite, hread⟩ := roundTrips_bool b
  obtain rfl : bit b = bs := Except.ok.inj hwrite
  exact hread

theorem reads_numbered (s : CacheSettings) : ∃ bs, Form.write s = .ok bs ∧ Reads readNumbered bs s ∧
    (Form.read : Reader CacheSettings).run bs = .error .neverReadable := by
  obtain ⟨⟨a, b, c, m, n⟩, e⟩ := s
  obtain ⟨es, hwrite, hread⟩ := e.reads_numbered
  refine ⟨bit a ++ (bit b ++ (bit c ++ (bit m ++ (bit n ++ (es ++ []))))), ?_, ?_, ?_⟩
  · change (do return _ ++ (← Form.write e)) = _
    rw [hwrite, List.append_nil]
    rfl
  · refine (reads_bit a).bind ((reads_bit b).bind
      ((reads_bit c).bind ((reads_bit m).bind ((reads_bit n).bind ?_))))
    exact hread.bind (.pure _)
  · refine (reads_bit a).bind_error ((reads_bit b).bind_error ((reads_bit c).bind_error ?_))
    exact (reads_bit m).bind_error ((reads_bit n).bind_error rfl)

end CacheSettings

/-- Settings are encoded, each in an envelope of its own, and never decoded. -/
theorem settings_writeOnly (e : ExpirySettings) (s : CacheSettings) :
    Envelope.WriteOnly e ∧ Envelope.WriteOnly s := by
  constructor
  · apply Envelope.writeOnly_of_reads (r := ExpirySettings.readNumbered) _
      ExpirySettings.refuses_read
    intro e
    obtain ⟨bs, hwrite, hread⟩ := e.reads_numbered
    exact ⟨bs, hwrite, hread, rfl⟩
  · exact Envelope.writeOnly_of_reads CacheSettings.reads_numbered CacheSettings.refuses_read s

/-- The plainest choice has an envelope of six bytes, which is not decoded as that choice. -/
theorem eternal_not_decoded :
    let bytes : Bytes := [74, 67, 65, 80, 1, 0]
    let answer : Except Error ExpirySettings := Envelope.decode bytes
    Envelope.encode ExpirySettings.eternal = .ok bytes ∧ answer ≠ .ok .eternal ∧
      answer = .error (.serialization "This is a feature that PostCard will never implement") :=
  ⟨rfl, nofun, rfl⟩

end EntryCache
