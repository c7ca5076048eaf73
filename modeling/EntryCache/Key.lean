import EntryCache.Hashing
import EntryCache.Text.Decimal

namespace EntryCache

inductive KeyPart : Type
  | null
  | bool : Bool → KeyPart
  | int : Int64 → KeyPart
  | uint : UInt64 → KeyPart
  | float : (bits : UInt64) → KeyPart
  | text : String → KeyPart
  | bytes : List UInt8 → KeyPart
  | array : List KeyPart → KeyPart

namespace KeyPart

instance : Inhabited KeyPart := ⟨null⟩

mutual

def same : KeyPart → KeyPart → Bool
  | .null, .null => true
  | .bool a, .bool b => a == b
  | .int a, .int b => a == b
  | .uint a, .uint b => a == b
  | .float a, .float b => a == b
  | .text a, .text b => a == b
  | .bytes a, .bytes b => a == b
  | .array a, .array b => sameList a b
  | _, _ => false

def sameList : List KeyPart → List KeyPart → Bool
  | [], [] => true
  | a :: as, b :: bs => a.same b && sameList as bs
  | _, _ => false

end

mutual

theorem same_iff : (a b : KeyPart) → (a.same b = true ↔ a = b)
  | .null, b => by cases b <;> simp [same]
  | .bool _, b => by cases b <;> simp [same]
  | .int _, b => by cases b <;> simp [same]
  | .uint _, b => by cases b <;> simp [same]
  | .float _, b => by cases b <;> simp [same]
  | .text _, b => by cases b <;> simp [same]
  | .bytes _, b => by cases b <;> simp [same]
  | .array as, b => by
    cases b with
    | array bs => simp [same, sameList_iff as bs]
    | _ => simp [same]

theorem sameList_iff : (as bs : List KeyPart) → (sameList as bs = true ↔ as = bs)
  | [], bs => by cases bs <;> simp [sameList]
  | a :: as, bs => by
    cases bs with
    | nil => simp [sameList]
    | cons b bs => simp [sameList, same_iff a b, sameList_iff as bs]

end

instance : DecidableEq KeyPart := fun a b => decidable_of_iff (a.same b = true) (same_iff a b)

def bracketed (items : List String) : String := "[" ++ ", ".intercalate items ++ "]"

mutual

def shown : KeyPart → String
  | .null => "null"
  | .bool b => toString b
  | .int i => toString i.toInt
  | .uint n => toString n.toNat
  | .float bits => Decimal.text bits
  | .text s => s
  | .bytes bs => bracketed (bs.map fun b => toString b.toNat)
  | .array xs => bracketed (shownList xs)

def shownList : List KeyPart → List String
  | [] => []
  | x :: xs => x.shown :: shownList xs

end

mutual

def feed : KeyPart → List HashInput
  | .null => [.word 0]
  | .bool b => [.word 1, .byte (if b then 1 else 0)]
  | .int i => [.word 2, .word i.toUInt64]
  | .uint n => [.word 3, .word n]
  | .float bits => [.word 4, .word bits]
  | .text s => [.word 5, .text s]
  | .bytes bs => .word 6 :: .word (UInt64.ofNat bs.length) :: bs.map .byte
  | .array xs => .word 7 :: .word (UInt64.ofNat xs.length) :: feedList xs

def feedList : List KeyPart → List HashInput
  | [] => []
  | x :: xs => x.feed ++ feedList xs

end

def ofFloat32 (bits : UInt32) : KeyPart := .float (Decimal.widen bits)

def ofOption {α : Type} (f : α → KeyPart) : Option α → KeyPart
  | none => .null
  | some a => f a

end KeyPart

structure Key : Type where
  parts : List KeyPart
  deriving DecidableEq

namespace Key

def shown (k : Key) : String := "DefaultCacheKey" ++ KeyPart.bracketed (KeyPart.shownList k.parts)

def digest (h : Hasher) (k : Key) : UInt64 :=
  h (.word (UInt64.ofNat k.parts.length) :: KeyPart.feedList k.parts)

/-- A key feeds only the number that it keeps. -/
def feed (h : Hasher) (k : Key) : List HashInput := [.word (k.digest h)]

/-- Compares the kept numbers first, and the parts if they agree. -/
def same (h : Hasher) (a b : Key) : Bool :=
  a.digest h == b.digest h && KeyPart.sameList a.parts b.parts

theorem same_iff (h : Hasher) (a b : Key) : a.same h b = true ↔ a = b := by
  obtain ⟨as⟩ := a
  obtain ⟨bs⟩ := b
  simp only [same, Bool.and_eq_true, KeyPart.sameList_iff, mk.injEq]
  refine ⟨And.right, fun e => ⟨?_, e⟩⟩
  subst e
  exact beq_self_eq_true _

end Key

end EntryCache
