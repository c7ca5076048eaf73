import EntryCache.EntryTypes

namespace EntryCache

namespace Wire

variable {α β : Type}

def Reads (r : Reader α) (bs : Bytes) (a : α) : Prop := ∀ rest, r.run (bs ++ rest) = .ok (a, rest)

namespace Reads

variable {r : Reader α} {bs cs : Bytes} {a : α} {b : β}

theorem pure (a : α) : Reads (pure a) [] a := fun _ => rfl

theorem bind {f : α → Reader β} (h : Reads r bs a) (hf : Reads (f a) cs b) :
    Reads (r >>= f) (bs ++ cs) b := by
  intro rest
  rw [StateT.run_bind, List.append_assoc, h]
  exact hf rest

theorem map (f : α → β) (h : Reads r bs a) : Reads (f <$> r) bs (f a) := by
  intro rest
  rw [StateT.run_map, h]
  rfl

theorem byte (b : UInt8) : Reads byte [b] b := fun _ => rfl

theorem take (bs : Bytes) : Reads (take bs.length) bs bs := by
  intro rest
  simp [Wire.take, StateT.run]

end Reads

theorem reads_last_group {last k n : Nat} (hn : n < 128) (hlast : k = 0 → n ≤ last) :
    Reads (readGroups last (k + 1)) [UInt8.ofNat n] n := by
  have hb : (UInt8.ofNat n).toNat = n := UInt8.toNat_ofNat_of_lt' (Nat.lt_trans hn (by decide))
  change Reads _ ([UInt8.ofNat n] ++ []) n
  apply (Reads.byte _).bind
  have hfits : ¬(k = 0 ∧ last < n) := fun h => absurd (hlast h.1) (Nat.not_le.2 h.2)
  rw [hb, if_pos hn, if_neg hfits]
  exact .pure n

theorem reads_next_group {last k n : Nat} {bs : Bytes}
    (h : Reads (readGroups last k) bs (n / 128)) :
    Reads (readGroups last (k + 1)) (UInt8.ofNat (n % 128 + 128) :: bs) n := by
  have hb : (UInt8.ofNat (n % 128 + 128)).toNat = n % 128 + 128 :=
    UInt8.toNat_ofNat_of_lt' (show n % 128 + 128 < 256 by omega)
  change Reads _ ([UInt8.ofNat (n % 128 + 128)] ++ bs) n
  apply (Reads.byte _).bind
  have hmore : ¬n % 128 + 128 < 128 := by omega
  have hn : n % 128 + 128 - 128 + 128 * (n / 128) = n := by omega
  rw [hb, if_neg hmore]
  have hrest := h.map fun rest => n % 128 + 128 - 128 + 128 * rest
  rwa [hn] at hrest

def capacity (last : Nat) : (k : Nat) → Nat
  | 0 => last + 1
  | k + 1 => 128 * capacity last k

theorem reads_groups {last k n m : Nat} (hlast : last < 128) (hn : n < capacity last k)
    (hm : k < m) : Reads (readGroups last (k + 1)) (groups m n) n := by
  -- One group goes at a time, while there are more that may be read; the bound shrinks with them.
  induction k generalizing n m with
  | zero =>
    cases m with
    | zero => cases hm
    | succ m =>
      have hn' : n ≤ last := Nat.le_of_lt_succ hn
      have h128 : n < 128 := Nat.lt_of_le_of_lt hn' hlast
      rw [groups, if_pos h128]
      exact reads_last_group h128 fun _ => hn'
  | succ k ih =>
    cases m with
    | zero => cases hm
    | succ m =>
      rw [groups]
      split
      · next h128 => exact reads_last_group h128 nofun
      · have hrest : n / 128 < capacity last k := Nat.div_lt_of_lt_mul hn
        exact reads_next_group (ih hrest (Nat.lt_of_succ_lt_succ hm))

theorem reads_varint32 {n : Nat} (h : n < UInt32.size) : Reads readVarint32 (varint n) n :=
  reads_groups (by decide) h (by decide)

theorem reads_varint64 {n : Nat} (h : n < UInt64.size) : Reads readVarint64 (varint n) n :=
  reads_groups (by decide) h (by decide)

theorem unzigzag_zigzag (i : Int) : unzigzag (zigzag i) = i := by
  cases i with
  | ofNat n => simp [zigzag, unzigzag]
  | negSucc n =>
    have h : (2 * n + 1) / 2 = n := by omega
    simp [zigzag, unzigzag, h]

theorem zigzag_lt {i : Int} {n : Nat} (h : -n ≤ i) (h' : i < n) : zigzag i < 2 * n := by
  cases i with
  | ofNat m =>
    have hm : m < n := Int.ofNat_lt.1 h'
    simp only [zigzag]
    omega
  | negSucc m =>
    simp only [zigzag]
    omega

def RoundTrips [Form α] (a : α) : Prop := ∃ bs, Form.write a = .ok bs ∧ Reads Form.read bs a

theorem roundTrips_uint64 (n : UInt64) : RoundTrips n := by
  refine ⟨varint n.toNat, rfl, ?_⟩
  have h := (reads_varint64 n.toNat_lt).map UInt64.ofNat
  rwa [UInt64.ofNat_toNat] at h

theorem roundTrips_int32 (n : Int32) : RoundTrips n := by
  refine ⟨varint (zigzag n.toInt), rfl, ?_⟩
  have hlt : zigzag n.toInt < UInt32.size := zigzag_lt (n := UInt32.size / 2) n.le_toInt n.toInt_lt
  have h := (reads_varint32 hlt).map fun n => Int32.ofInt (unzigzag n)
  rwa [unzigzag_zigzag, Int32.ofInt_toInt] at h

theorem fromUTF8?_toByteArray (s : String) : String.fromUTF8? s.toByteArray = some s := by
  rw [String.fromUTF8?, dif_pos s.isValidUTF8]
  rfl

theorem roundTrips_string {s : String} (h : s.utf8ByteSize < UInt64.size) : RoundTrips s := by
  refine ⟨_, rfl, (reads_varint64 h).bind ?_⟩
  have hlength : s.toByteArray.data.toList.length = s.utf8ByteSize := rfl
  rw [← List.append_nil s.toByteArray.data.toList, ← hlength]
  apply (Reads.take _).bind
  rw [Array.toArray_toList, fromUTF8?_toByteArray]
  exact .pure s

end Wire

open Wire

variable {α : Type} [Form α]

theorem Envelope.reads_parts {a : α} {bs : Bytes} (h : Reads Form.read bs a) :
    Reads readParts (mark ++ varint version ++ bs) (mark, version, a) := by
  rw [← List.append_nil bs, List.append_assoc]
  exact (Reads.take mark).bind ((reads_varint32 (by decide)).bind (h.bind (.pure _)))

theorem Envelope.copy_of_roundTrips {a : α} (h : RoundTrips a) : copy a = .ok a := by
  obtain ⟨bs, hwrite, hread⟩ := h
  have hparts := reads_parts hread []
  rw [List.append_nil] at hparts
  have hencode : encode a = .ok (mark ++ varint version ++ bs) := by rw [encode, hwrite]
  rw [copy, hencode]
  change decode _ = _
  rw [decode, hparts]
  rfl

namespace ValueType

/-- What can be held: by value, a text that is no longer than a word can say, and everything
else. -/
def Fits : (t : ValueType) → (byValue : Bool) → t.Carrier → Prop
  | .text, true, s => s.utf8ByteSize < UInt64.size
  | _, _, _ => True

theorem copy_eq {t : ValueType} {byValue : Bool} {v : t.Carrier} (h : t.Fits byValue v) :
    t.copy byValue v = .ok v := by
  cases byValue with
  | false => cases t <;> rfl
  | true =>
    cases t with
    | text => exact Envelope.copy_of_roundTrips (roundTrips_string h)
    | word => exact Envelope.copy_of_roundTrips (roundTrips_uint64 v)
    | integer => exact Envelope.copy_of_roundTrips (roundTrips_int32 v)
    | failure => rfl

end ValueType

end EntryCache
