namespace EntryCache.Text

def hexValue (c : Char) : Option Nat :=
  if '0' ≤ c && c ≤ '9' then some (c.toNat - '0'.toNat)
  else if 'a' ≤ c && c ≤ 'f' then some (c.toNat - 'a'.toNat + 10)
  else if 'A' ≤ c && c ≤ 'F' then some (c.toNat - 'A'.toNat + 10)
  else none

def hex (width n : Nat) : String :=
  let ds := Nat.toDigits 16 n
  String.ofList (List.replicate (width - ds.length) '0' ++ ds)

def ofHex (s : String) : Nat := s.toList.foldl (fun n c => 16 * n + (hexValue c).getD 0) 0

def hexBytes (bs : List UInt8) : String := String.join (bs.map fun b => hex 2 b.toNat)

def bytesOfHex : List Char → List UInt8
  | a :: b :: r => UInt8.ofNat (ofHex (String.ofList [a, b])) :: bytesOfHex r
  | _ => []

end EntryCache.Text
