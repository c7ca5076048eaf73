import EntryCache.Envelope
import EntryCache.Proofs.Wire.Forms
import EntryCache.Proofs.Wire.LookAhead

namespace EntryCache

open Wire

/-- The types of values that are sent: numbers, texts, lengths of time and keys, and lists, options
and pairs of them. -/
inductive PayloadType : Type
  | bool
  | uint8
  | uint16
  | uint32
  | uint64
  | int32
  | int64
  | text
  | duration
  | part
  | key
  | list (t : PayloadType)
  | option (t : PayloadType)
  | pair (t u : PayloadType)

namespace PayloadType

abbrev Carrier : PayloadType → Type
  | .bool => Bool
  | .uint8 => UInt8
  | .uint16 => UInt16
  | .uint32 => UInt32
  | .uint64 => UInt64
  | .int32 => Int32
  | .int64 => Int64
  | .text => String
  | .duration => Duration
  | .part => KeyPart
  | .key => Key
  | .list t => List t.Carrier
  | .option t => Option t.Carrier
  | .pair t u => t.Carrier × u.Carrier

instance form : (t : PayloadType) → Form t.Carrier
  | .bool => inferInstanceAs (Form Bool)
  | .uint8 => inferInstanceAs (Form UInt8)
  | .uint16 => inferInstanceAs (Form UInt16)
  | .uint32 => inferInstanceAs (Form UInt32)
  | .uint64 => inferInstanceAs (Form UInt64)
  | .int32 => inferInstanceAs (Form Int32)
  | .int64 => inferInstanceAs (Form Int64)
  | .text => inferInstanceAs (Form String)
  | .duration => inferInstanceAs (Form Duration)
  | .part => inferInstanceAs (Form KeyPart)
  | .key => inferInstanceAs (Form Key)
  | .list t => let _ := t.form; inferInstanceAs (Form (List t.Carrier))
  | .option t => let _ := t.form; inferInstanceAs (Form (Option t.Carrier))
  | .pair t u => let _ := t.form; let _ := u.form; inferInstanceAs (Form (t.Carrier × u.Carrier))

example : (list uint8).form = (inferInstance : Form (List UInt8)) := rfl

/-- What can be held at all: texts and lists that are no longer than a word can say, at any
depth. -/
def Fits : (t : PayloadType) → t.Carrier → Prop
  | .text, s => s.utf8ByteSize < UInt64.size
  | .part, p => p.Fits
  | .key, k => k.Fits
  | .list t, xs => xs.length < UInt64.size ∧ ∀ x ∈ xs, t.Fits x
  | .option t, x => ∀ a ∈ x, t.Fits a
  | .pair t u, p => t.Fits p.1 ∧ u.Fits p.2
  | _, _ => True

theorem roundTrips : (t : PayloadType) → (v : t.Carrier) → t.Fits v → RoundTrips v
  | .bool, b, _ => roundTrips_bool b
  | .uint8, n, _ => roundTrips_uint8 n
  | .uint16, n, _ => roundTrips_uint16 n
  | .uint32, n, _ => roundTrips_uint32 n
  | .uint64, n, _ => roundTrips_uint64 n
  | .int32, n, _ => roundTrips_int32 n
  | .int64, n, _ => roundTrips_int64 n
  | .text, _, h => roundTrips_string h
  | .duration, d, _ => d.roundTrips
  | .part, _, h => KeyPart.roundTrips h
  | .key, _, h => Key.roundTrips h
  | .list t, _, h => roundTrips_list h.1 fun x hx => t.roundTrips x (h.2 x hx)
  | .option t, _, h => roundTrips_option fun a ha => t.roundTrips a (h a ha)
  | .pair t u, p, h => roundTrips_prod (t.roundTrips p.1 h.1) (u.roundTrips p.2 h.2)

theorem readsAlone : (t : PayloadType) → ReadsAlone t.Carrier
  | .bool => readsAlone_bool
  | .uint8 => readsAlone_uint8
  | .uint16 => readsAlone_uint16
  | .uint32 => readsAlone_uint32
  | .uint64 => readsAlone_uint64
  | .int32 => readsAlone_int32
  | .int64 => readsAlone_int64
  | .text => readsAlone_string
  | .duration => Duration.readsAlone
  | .part => KeyPart.readsAlone
  | .key => Key.readsAlone
  | .list t => readsAlone_list t.readsAlone
  | .option t => readsAlone_option t.readsAlone
  | .pair t u => readsAlone_prod t.readsAlone u.readsAlone

end PayloadType

namespace Envelope

variable {α : Type} [Form α]

theorem encode_of_write {a : α} {bs : Bytes} (h : Form.write a = .ok bs) :
    encode a = .ok (mark ++ varint version ++ bs) := by
  rw [encode, h]

theorem decode_append {a : α} {bs : Bytes} (h : Reads Form.read bs a) (rest : Bytes) :
    decode (mark ++ varint version ++ bs ++ rest) = .ok a := by
  rw [decode, reads_parts h rest]
  rfl

theorem extends_readParts (h : ReadsAlone α) : Extends (readParts (α := α)) readParts := by
  apply (Extends.take 4).bind
  intro m
  apply (extends_readGroups 15 5).bind
  intro v
  exact h.bind fun a => .pure (m, v, a)

theorem decode_prefix {a : α} {bs p q : Bytes} (h : Reads Form.read bs a) (hα : ReadsAlone α)
    (hpq : p ++ q = mark ++ varint version ++ bs) (hq : q ≠ []) :
    ∃ text, (decode p : Except Error α) = .error (.serialization text) := by
  obtain ⟨f, hf⟩ := (extends_readParts hα).refuses_cut (reads_parts h) hpq hq
  refine ⟨f.message, ?_⟩
  rw [decode, hf]

/-- A value can be encoded; it is decoded from its envelope with any bytes behind it, while whatever
lacks some of the envelope is refused; and no other value has the same envelope. -/
theorem encode_delimits (t : PayloadType) (v : t.Carrier) (h : t.Fits v) :
    ∃ bytes, encode v = .ok bytes ∧
      (∀ rest, decode (bytes ++ rest) = .ok v) ∧
      (∀ p, p <+: bytes → p ≠ bytes → ∃ text, (decode p : Except Error t.Carrier) =
        .error (.serialization text)) ∧
      ∀ u : t.Carrier, t.Fits u → encode u = .ok bytes → u = v := by
  obtain ⟨bs, hwrite, hread⟩ := t.roundTrips v h
  refine ⟨_, encode_of_write hwrite, decode_append hread, ?_, ?_⟩
  · rintro p ⟨q, hpq⟩ hne
    apply decode_prefix hread t.readsAlone hpq
    rintro rfl
    exact hne (by rwa [List.append_nil] at hpq)
  · intro u hu hencode
    obtain ⟨cs, hwrite', hread'⟩ := t.roundTrips u hu
    have hsame : mark ++ varint version ++ cs = mark ++ varint version ++ bs :=
      Except.ok.inj ((encode_of_write hwrite').symm.trans hencode)
    have hu' := decode_append hread' []
    rw [hsame, decode_append hread] at hu'
    exact (Except.ok.inj hu').symm

theorem encode_delimits_nested :
    let k : Key := ⟨[.text "a", .array [.array [.null, .int (-1)], .uint 0xffffffffffffffff]]⟩
    let bytes : Bytes := [74, 67, 65, 80, 1, 2, 5, 1, 97, 7, 2, 7, 2, 0, 2, 1, 3,
      255, 255, 255, 255, 255, 255, 255, 255, 255, 1]
    (k.Fits ∧ encode k = .ok bytes) ∧
      (∀ rest, decode (bytes ++ rest) = .ok k) ∧
      (∀ p, p <+: bytes → p ≠ bytes → ∃ text, (decode p : Except Error Key) =
        .error (.serialization text)) ∧
      ∀ u : Key, u.Fits → encode u = .ok bytes → u = k := by
  intro k bytes
  have hfits : k.Fits := by
    simp only [k, Key.Fits, KeyPart.FitAll, KeyPart.Fits]
    decide
  have hencode : encode k = .ok bytes := rfl
  obtain ⟨bytes', hencode', hdelimits⟩ := encode_delimits .key k hfits
  obtain rfl : bytes = bytes' := Except.ok.inj (hencode.symm.trans hencode')
  exact ⟨⟨hfits, hencode⟩, hdelimits⟩

end Envelope

end EntryCache
