import EntryCache.Duration.Form
import EntryCache.Proofs.Wire.RoundTrip
import Mathlib.Data.List.Forall2

namespace EntryCache

open Wire

namespace Wire

variable {α β : Type}

theorem reads_varint16 {n : Nat} (h : n < UInt16.size) : Reads readVarint16 (varint n) n :=
  reads_groups (by decide) h (by decide)

theorem roundTrips_bool (b : Bool) : RoundTrips b := by
  refine ⟨[if b then 1 else 0], rfl, ?_⟩
  cases b <;> exact (Reads.byte _).bind (.pure _)

theorem roundTrips_uint8 (n : UInt8) : RoundTrips n := ⟨[n], rfl, .byte n⟩

theorem roundTrips_uint16 (n : UInt16) : RoundTrips n := by
  refine ⟨varint n.toNat, rfl, ?_⟩
  have h := (reads_varint16 n.toNat_lt).map UInt16.ofNat
  rwa [UInt16.ofNat_toNat] at h

theorem roundTrips_uint32 (n : UInt32) : RoundTrips n := by
  refine ⟨varint n.toNat, rfl, ?_⟩
  have h := (reads_varint32 n.toNat_lt).map UInt32.ofNat
  rwa [UInt32.ofNat_toNat] at h

theorem roundTrips_int64 (n : Int64) : RoundTrips n := by
  refine ⟨varint (zigzag n.toInt), rfl, ?_⟩
  have hlt : zigzag n.toInt < UInt64.size := zigzag_lt (n := UInt64.size / 2) n.le_toInt n.toInt_lt
  have h := (reads_varint64 hlt).map fun n => Int64.ofInt (unzigzag n)
  rwa [unzigzag_zigzag, Int64.ofInt_toInt] at h

theorem reads_case {case : Nat → Option (Reader α)} {n : Nat} {r : Reader α} {bs : Bytes} {a : α}
    (hn : n < UInt32.size) (hcase : case n = some r) (h : Reads r bs a) :
    Reads (readCase case) (varint n ++ bs) a := by
  apply (reads_varint32 hn).bind
  rw [hcase]
  exact h

theorem reads_many {item : Reader α} {parts : List Bytes} {xs : List α}
    (h : List.Forall₂ (Reads item) parts xs) :
    Reads (readMany item xs.length) parts.flatten xs := by
  induction h with
  | nil => exact .pure []
  | @cons bs x parts xs hx hxs ih =>
    rw [List.flatten_cons, ← List.append_nil (List.flatten parts)]
    exact hx.bind (ih.bind (.pure (x :: xs)))

theorem reads_list {item : Reader α} {parts : List Bytes} {xs : List α}
    (hlength : xs.length < UInt64.size) (h : List.Forall₂ (Reads item) parts xs) :
    Reads (readList item) (varint xs.length ++ parts.flatten) xs :=
  (reads_varint64 hlength).bind (reads_many h)

theorem roundTrips_list [Form α] {xs : List α} (hlength : xs.length < UInt64.size)
    (h : ∀ x ∈ xs, RoundTrips x) : RoundTrips xs := by
  have hparts : ∃ parts, xs.mapM Form.write = .ok parts ∧
      List.Forall₂ (Reads Form.read) parts xs := by
    clear hlength
    induction xs with
    | nil => exact ⟨[], rfl, .nil⟩
    | cons x xs ih =>
      obtain ⟨bs, hwrite, hread⟩ := h x List.mem_cons_self
      obtain ⟨parts, hwrites, hreads⟩ := ih fun y hy => h y (List.mem_cons_of_mem _ hy)
      refine ⟨bs :: parts, ?_, .cons hread hreads⟩
      rw [List.mapM_cons, hwrite, hwrites]
      rfl
  obtain ⟨parts, hwrites, hreads⟩ := hparts
  refine ⟨varint xs.length ++ parts.flatten, ?_, reads_list hlength hreads⟩
  change writeList Form.write xs = _
  rw [writeList, hwrites]
  rfl

theorem roundTrips_option [Form α] {x : Option α} (h : ∀ a ∈ x, RoundTrips a) : RoundTrips x := by
  cases x with
  | none => exact ⟨[0], rfl, (Reads.byte 0).bind (.pure none)⟩
  | some a =>
    obtain ⟨bs, hwrite, hread⟩ := h a rfl
    refine ⟨1 :: bs, ?_, (Reads.byte 1).bind (hread.map some)⟩
    change (do return 1 :: (← Form.write a)) = _
    rw [hwrite]
    rfl

theorem write_append {a b : Except Fault Bytes} {bs cs : Bytes} (ha : a = .ok bs)
    (hb : b = .ok cs) : (do return (← a) ++ (← b)) = Except.ok (ε := Fault) (bs ++ cs) := by
  rw [ha, hb]
  rfl

theorem roundTrips_prod [Form α] [Form β] {p : α × β} (ha : RoundTrips p.1) (hb : RoundTrips p.2) :
    RoundTrips p := by
  obtain ⟨bs, hwrite, hread⟩ := ha
  obtain ⟨cs, hwrite', hread'⟩ := hb
  refine ⟨bs ++ cs, write_append hwrite hwrite', ?_⟩
  rw [← List.append_nil cs]
  exact hread.bind (hread'.bind (.pure (p.1, p.2)))

end Wire

theorem TimeUnit.roundTrips (u : TimeUnit) : RoundTrips u := by
  refine ⟨varint (all.idxOf u), rfl, ?_⟩
  rw [← List.append_nil (varint _)]
  cases u <;> exact reads_case (by decide) rfl (.pure _)

theorem Duration.roundTrips (d : Duration) : RoundTrips d := by
  obtain ⟨bs, hwrite, hread⟩ := roundTrips_option fun u (_ : u ∈ d.unit?) => u.roundTrips
  obtain ⟨cs, hwrite', hread'⟩ := roundTrips_uint64 d.amount
  refine ⟨bs ++ cs, write_append hwrite hwrite', ?_⟩
  rw [← List.append_nil cs]
  refine hread.bind (hread'.bind ?_)
  rw [ofParts_parts]
  exact .pure d

namespace KeyPart

mutual

def Fits : KeyPart → Prop
  | .text s => s.utf8ByteSize < UInt64.size
  | .bytes bs => bs.length < UInt64.size
  | .array xs => xs.length < UInt64.size ∧ FitAll xs
  | _ => True

def FitAll : List KeyPart → Prop
  | [] => True
  | x :: xs => x.Fits ∧ FitAll xs

end

def Returns (p : KeyPart) : Prop :=
  ∃ bs, p.wire = .ok bs ∧ ∀ fuel, bs.length < fuel → Reads (readWire fuel) bs p

theorem returns_of_roundTrips {α : Type} [Form α] {a : α} {c : α → KeyPart} {n : Nat}
    (h : RoundTrips a) (hwire : (c a).wire = writeCase n (Form.write a))
    (hcase : ∀ fuel bs, Reads (c <$> Form.read) bs (c a) →
      Reads (readWire (fuel + 1)) (varint n ++ bs) (c a)) :
    (c a).Returns := by
  obtain ⟨bs, hwrite, hread⟩ := h
  refine ⟨varint n ++ bs, ?_, fun fuel hfuel => ?_⟩
  · rw [hwire, hwrite]
    rfl
  · cases fuel with
    | zero => cases hfuel
    | succ fuel => exact hcase fuel bs (hread.map c)

mutual

theorem returns : (p : KeyPart) → p.Fits → p.Returns
  | .null, _ => by
    refine ⟨varint 0 ++ [], rfl, fun fuel hfuel => ?_⟩
    cases fuel with
    | zero => cases hfuel
    | succ fuel => exact reads_case (by decide) rfl (.pure null)
  | .bool b, _ => returns_of_roundTrips (roundTrips_bool b) rfl fun _ _ =>
      reads_case (by decide) rfl
  | .int i, _ => returns_of_roundTrips (roundTrips_int64 i) rfl fun _ _ =>
      reads_case (by decide) rfl
  | .uint n, _ => returns_of_roundTrips (roundTrips_uint64 n) rfl fun _ _ =>
      reads_case (by decide) rfl
  | .float bits, _ => returns_of_roundTrips (roundTrips_uint64 bits) rfl fun _ _ =>
      reads_case (by decide) rfl
  | .text s, h => returns_of_roundTrips (roundTrips_string h) rfl fun _ _ =>
      reads_case (by decide) rfl
  | .bytes bs, h =>
    returns_of_roundTrips (roundTrips_list h fun b _ => roundTrips_uint8 b) rfl fun _ _ =>
      reads_case (by decide) rfl
  | .array xs, h => by
    obtain ⟨parts, hwrite, hread⟩ := returnAll xs h.2
    refine ⟨varint 7 ++ (varint xs.length ++ parts.flatten), ?_, fun fuel hfuel => ?_⟩
    · rw [wire, hwrite]
      rfl
    · cases fuel with
      | zero => cases hfuel
      | succ fuel =>
        -- The number of the case is a byte, so the parts have less fuel but also fewer bytes.
        have hparts : parts.flatten.length < fuel := by
          simp only [List.length_append] at hfuel
          have hcase : (varint 7).length = 1 := rfl
          omega
        exact reads_case (by decide) rfl ((reads_list h.1 (hread fuel hparts)).map array)

theorem returnAll : (xs : List KeyPart) → FitAll xs → ∃ parts, wireList xs = .ok parts.flatten ∧
    ∀ fuel, parts.flatten.length < fuel → List.Forall₂ (Reads (readWire fuel)) parts xs
  | [], _ => ⟨[], rfl, fun _ _ => .nil⟩
  | x :: xs, h => by
    obtain ⟨bs, hwrite, hread⟩ := returns x h.1
    obtain ⟨parts, hwrites, hreads⟩ := returnAll xs h.2
    refine ⟨bs :: parts, ?_, fun fuel hfuel => ?_⟩
    · rw [wireList]
      exact write_append hwrite hwrites
    · rw [List.flatten_cons, List.length_append] at hfuel
      exact .cons (hread fuel (by omega)) (hreads fuel (by omega))

end

theorem roundTrips {p : KeyPart} (h : p.Fits) : RoundTrips p := by
  obtain ⟨bs, hwrite, hread⟩ := p.returns h
  refine ⟨bs, hwrite, fun rest => ?_⟩
  have hfuel : bs.length < (bs ++ rest).length + 1 := by
    rw [List.length_append]
    omega
  exact hread _ hfuel rest

theorem fits_of_mem {xs : List KeyPart} (h : FitAll xs) : ∀ x ∈ xs, x.Fits := by
  induction xs with
  | nil => nofun
  | cons x xs ih => exact List.forall_mem_cons.2 ⟨h.1, ih h.2⟩

end KeyPart

def Key.Fits (k : Key) : Prop := k.parts.length < UInt64.size ∧ KeyPart.FitAll k.parts

theorem Key.roundTrips {k : Key} (h : k.Fits) : RoundTrips k := by
  obtain ⟨bs, hwrite, hread⟩ := roundTrips_list h.1 fun p hp =>
    KeyPart.roundTrips (KeyPart.fits_of_mem h.2 p hp)
  exact ⟨bs, hwrite, hread.map mk⟩

end EntryCache
