import EntryCache.Text.Hex

namespace EntryCache.Json

def escapeChar (c : Char) : List Char :=
  match c with
  | '"' => ['\\', '"']
  | '\\' => ['\\', '\\']
  | '\x08' => ['\\', 'b']
  | '\x0c' => ['\\', 'f']
  | '\n' => ['\\', 'n']
  | '\r' => ['\\', 'r']
  | '\t' => ['\\', 't']
  | c => if c.toNat < 32 then ['\\', 'u', '0', '0', Nat.digitChar (c.toNat / 16),
      Nat.digitChar (c.toNat % 16)]
      else [c]

def writeChars (s : List Char) : List Char := '"' :: s.flatMap escapeChar ++ ['"']

def unit (a b c d : Char) : Option Nat := do
  let a ← Text.hexValue a
  let b ← Text.hexValue b
  let c ← Text.hexValue c
  let d ← Text.hexValue d
  return ((a * 16 + b) * 16 + c) * 16 + d

def isHighHalf (n : Nat) : Bool := 0xD800 ≤ n && n ≤ 0xDBFF
def isLowHalf (n : Nat) : Bool := 0xDC00 ≤ n && n ≤ 0xDFFF

def joinHalves (high low : Nat) : Char :=
  Char.ofNat (0x10000 + (high - 0xD800) * 0x400 + (low - 0xDC00))

def escaped : Char → Option Char
  | '"' => some '"'
  | '\\' => some '\\'
  | '/' => some '/'
  | 'b' => some '\x08'
  | 'f' => some '\x0c'
  | 'n' => some '\n'
  | 'r' => some '\r'
  | 't' => some '\t'
  | _ => none

def readChars : List Char → Option (List Char × List Char)
  | '"' :: r => some ([], r)
  | '\\' :: 'u' :: a :: b :: c :: d :: r =>
    match unit a b c d with
    | none => none
    | some n =>
      if isLowHalf n then none
      else if isHighHalf n then
        match r with
        | '\\' :: 'u' :: e :: f :: g :: h :: r' =>
          match unit e f g h with
          | none => none
          | some m =>
            if isLowHalf m then (readChars r').map fun p => (joinHalves n m :: p.1, p.2) else none
        | _ => none
      else (readChars r).map fun p => (Char.ofNat n :: p.1, p.2)
  | '\\' :: c :: r =>
    match escaped c with
    | none => none
    | some x => (readChars r).map fun p => (x :: p.1, p.2)
  | c :: r => if c.toNat < 32 || c == '\\' then none else (readChars r).map fun p => (c :: p.1, p.2)
  | [] => none

def skipChars : List Char → Option (List Char)
  | '"' :: r => some r
  | '\\' :: 'u' :: a :: b :: c :: d :: r => if (unit a b c d).isSome then skipChars r else none
  | '\\' :: c :: r => if (escaped c).isSome then skipChars r else none
  | c :: r => if c.toNat < 32 || c == '\\' then none else skipChars r
  | [] => none

end EntryCache.Json
