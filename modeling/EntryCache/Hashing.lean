namespace EntryCache

inductive HashInput : Type
  | byte : UInt8 → HashInput
  | word : UInt64 → HashInput
  | text : String → HashInput
  deriving DecidableEq

abbrev Hasher : Type := List HashInput → UInt64

def HashInput.shown : HashInput → String
  | .byte b => "u8:" ++ toString b.toNat
  | .word n => "u64:" ++ toString n.toNat
  | .text s => s

variable {α : Type}

def feedsAgree (same : α → α → Bool) (feed : α → List HashInput) (xs : List α) : Bool :=
  xs.all fun a => xs.all fun b => !same a b || feed a == feed b

def insertEach (same : α → α → Bool) (set : List α) : List α → List α × List Bool
  | [] => (set, [])
  | x :: xs =>
    let known := set.any (same x)
    let (set, news) := insertEach same (if known then set else x :: set) xs
    (set, (!known) :: news)

end EntryCache
