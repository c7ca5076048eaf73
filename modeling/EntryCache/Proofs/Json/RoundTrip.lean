import EntryCache.Json.Form

namespace EntryCache.Json

variable {α β σ : Type}

def Ends (rest : List Char) : Prop := ∀ c ∈ rest.head?, c = ',' ∨ c = ']' ∨ c = '\x7d'

theorem ends_nil : Ends [] := nofun

theorem ends_comma (rest : List Char) : Ends (',' :: rest) := by simp [Ends]

theorem ends_brace (rest : List Char) : Ends ('\x7d' :: rest) := by simp [Ends]

def Reads (r : Reader α) (cs : List Char) (a : α) :
    Prop := ∀ rest, Ends rest → r.run (cs ++ rest) = .ok (a, rest)

namespace Reads

variable {r : Reader α} {cs : List Char} {a : α}

theorem map (f : α → β) (h : Reads r cs a) : Reads (f <$> r) cs (f a) := by
  intro rest hrest
  rw [StateT.run_map, h rest hrest]
  rfl

theorem bind_pure (f : α → β) (h : Reads r cs a) : Reads (r >>= fun x => pure (f x)) cs (f a) := by
  rw [bind_pure_comp]
  exact h.map f

end Reads

theorem run_bind_of_ok {r : Reader α} {f : α → Reader β} {s t : List Char} {a : α}
    (h : r.run s = .ok (a, t)) : (r >>= f).run s = (f a).run t := by
  rw [StateT.run_bind, h]
  rfl

theorem skipSpaces_cons {c : Char} (h : isSpace c = false) (rest : List Char) :
    skipSpaces (c :: rest) = c :: rest := by
  rw [skipSpaces, List.dropWhile_cons_of_neg (by simp [h])]

theorem run_peek {c : Char} (h : isSpace c = false) (rest : List Char) :
    peek.run (c :: rest) = .ok (some c, c :: rest) := by
  change Except.ok ((skipSpaces (c :: rest)).head?, skipSpaces (c :: rest)) = _
  rw [skipSpaces_cons h]
  rfl

theorem run_symbol {c : Char} (h : isSpace c = false) (rest : List Char) :
    (symbol c).run (c :: rest) = .ok ((), rest) := by
  simp [symbol, StateT.run, skipSpaces_cons h]

theorem run_word {w : String} {c : Char} {cs : List Char} (hw : w.toList = c :: cs)
    (h : isSpace c = false)
    (rest : List Char) : (word w).run (w.toList ++ rest) = .ok ((), rest) := by
  have hskip : skipSpaces (w.toList ++ rest) = w.toList ++ rest := by
    rw [hw, List.cons_append, skipSpaces_cons h]
  simp [word, StateT.run, hskip]

theorem run_more_close {close : Char} (h : isSpace close = false) (first : Bool)
    (rest : List Char) :
    (more close first).run (close :: rest) = .ok (false, rest) := by
  simp [more, StateT.run, skipSpaces_cons h]

theorem run_more_first {close c : Char} (h : isSpace c = false) (hc : c ≠ close)
    (rest : List Char) :
    (more close true).run (c :: rest) = .ok (true, c :: rest) := by
  simp [more, StateT.run, skipSpaces_cons h, hc]

theorem run_more_next {close c : Char} (h : isSpace c = false) (hc : c ≠ close)
    (hclose : close ≠ ',')
    (rest : List Char) : (more close false).run (',' :: c :: rest) = .ok (true, c :: rest) := by
  have hcomma : isSpace ',' = false := rfl
  simp [more, StateT.run, skipSpaces_cons hcomma, skipSpaces_cons h, hc, hclose.symm]

theorem unit_digitChar {m n : Nat} (hm : m < 16) (hn : n < 16) :
    unit '0' '0' (Nat.digitChar m) (Nat.digitChar n) = some (16 * m + n) := by
  have hhex : ∀ k < 16, Text.hexValue (Nat.digitChar k) = some k := by decide
  simp [unit, hhex m hm, hhex n hn, show Text.hexValue '0' = some 0 from rfl, Nat.mul_comm]

theorem readChars_plain {c : Char} (hq : c ≠ '"') (hb : c ≠ '\\') (hc : 32 ≤ c.toNat)
    (rest : List Char) :
    readChars (c :: rest) = (readChars rest).map fun p => (c :: p.1, p.2) := by
  have hplain : (decide (c.toNat < 32) || c == '\\') = false := by simp [hb, hc]
  rw [readChars, hplain]
  · rfl
  · exact hq
  · rintro _ _ _ _ _ rfl
    exact absurd rfl hb
  · rintro _ _ rfl
    exact absurd rfl hb

theorem readChars_control {c : Char} (hc : c.toNat < 32) (rest : List Char) :
    readChars ('\\' :: 'u' :: '0' :: '0' :: Nat.digitChar (c.toNat / 16) :: Nat.digitChar
      (c.toNat % 16) :: rest) =
      (readChars rest).map fun p => (c :: p.1, p.2) := by
  have hunit : unit '0' '0' (Nat.digitChar (c.toNat / 16)) (Nat.digitChar (c.toNat % 16)) =
      some c.toNat := by
    rw [unit_digitChar (by omega) (by omega), Nat.div_add_mod]
  have hlow : isLowHalf c.toNat = false := by simp [isLowHalf]; omega
  have hhigh : isHighHalf c.toNat = false := by simp [isHighHalf]; omega
  rw [readChars, hunit]
  simp [hlow, hhigh]

theorem readChars_escapeChar (c : Char) (rest : List Char) :
    readChars (escapeChar c ++ rest) = (readChars rest).map fun p => (c :: p.1, p.2) := by
  unfold escapeChar
  split
  case h_8 hq hb _ _ _ _ _ =>
    split
    · next hc => exact readChars_control hc rest
    · next hc => exact readChars_plain hq hb (Nat.le_of_not_lt hc) rest
  all_goals rfl

theorem readChars_escaped (s rest : List Char) :
    readChars (s.flatMap escapeChar ++ '"' :: rest) = some (s, rest) := by
  induction s with
  | nil => rfl
  | cons c s ih =>
    rw [List.flatMap_cons, List.append_assoc, readChars_escapeChar, ih]
    rfl

theorem run_text (s : String) (rest : List Char) :
    text.run (writeChars s.toList ++ rest) = .ok (s, rest) := by
  have hchars : writeChars s.toList ++ rest =
      '"' :: (s.toList.flatMap escapeChar ++ '"' :: rest) := by
    simp [writeChars]
  have hread : (ofOption readChars).run (s.toList.flatMap escapeChar ++ '"' :: rest) =
      .ok (s.toList, rest) := by
    simp [ofOption, StateT.run, readChars_escaped]
  rw [hchars, text, run_bind_of_ok (run_symbol rfl _), StateT.run_map, hread]
  exact congrArg (fun s => Except.ok (s, rest)) String.ofList_toList

theorem head_toDigits (n : Nat) : ∃ c cs, Nat.toDigits 10 n = c :: cs ∧ c.isDigit = true := by
  obtain ⟨c, cs, hcs⟩ := List.exists_cons_of_ne_nil (Nat.toDigits_ne_nil (n := n) (b := 10))
  exact ⟨c, cs, hcs, Nat.isDigit_of_mem_toDigits (by decide) (by decide) (hcs ▸ List.mem_cons_self)⟩

theorem head_toDigits_ne {n : Nat} (h : 0 < n) : ∃ c cs, Nat.toDigits 10 n = c :: cs ∧ c ≠ '0' := by
  induction n using Nat.strongRecOn with
  | ind n ih =>
    by_cases hn : n < 10
    · have hchar : ∀ k < 10, 0 < k → Nat.digitChar k ≠ '0' := by decide
      exact ⟨_, [], Nat.toDigits_of_lt_base hn, hchar n hn h⟩
    · obtain ⟨c, cs, hcs, hc⟩ := ih (n / 10) (by omega) (by omega)
      refine ⟨c, cs ++ [Nat.digitChar (n % 10)], ?_, hc⟩
      rw [Nat.toDigits_of_base_le (by decide) (by omega), hcs]
      rfl

namespace Ends

variable {rest : List Char}

theorem no_digits (h : Ends rest) :
    rest.takeWhile Char.isDigit = [] ∧ rest.dropWhile Char.isDigit = rest := by
  cases rest with
  | nil => exact ⟨rfl, rfl⟩
  | cons c cs =>
    have hc : c.isDigit = false := by obtain rfl | rfl | rfl := h c rfl <;> rfl
    simp [hc]

theorem no_point (h : Ends rest) : pointDigits rest = some (none, rest) := by
  cases rest with
  | nil => rfl
  | cons c cs => obtain rfl | rfl | rfl := h c rfl <;> rfl

theorem no_power (h : Ends rest) : powerDigits rest = some (none, rest) := by
  cases rest with
  | nil => rfl
  | cons c cs => obtain rfl | rfl | rfl := h c rfl <;> rfl

end Ends

theorem digits_toDigits (n : Nat) {rest : List Char} (h : Ends rest) :
    digits (Nat.toDigits 10 n ++ rest) = some (Nat.toDigits 10 n, rest) := by
  have hall : ∀ c ∈ Nat.toDigits 10 n, c.isDigit = true :=
    fun c => Nat.isDigit_of_mem_toDigits (by decide) (by decide)
  rw [digits, List.takeWhile_append_of_pos hall, List.dropWhile_append_of_pos hall, h.no_digits.1,
    h.no_digits.2,
    List.append_nil]
  split
  · next hnil => exact absurd hnil Nat.toDigits_ne_nil
  · rfl

theorem wholeDigits_toDigits (n : Nat) {rest : List Char} (h : Ends rest) :
    wholeDigits (Nat.toDigits 10 n ++ rest) = some (Nat.toDigits 10 n, rest) := by
  rw [wholeDigits, digits_toDigits n h]
  split
  · next c cs rest' hzero =>
    have hdigits : Nat.toDigits 10 n = '0' :: c :: cs := by
      simpa using congrArg (Option.map Prod.fst) hzero
    rcases Nat.eq_zero_or_pos n with rfl | hn
    · cases hdigits
    · obtain ⟨d, ds, hd, hne⟩ := head_toDigits_ne hn
      rw [hd] at hdigits
      exact absurd (List.cons.inj hdigits).1 hne
  · rfl

theorem numeralOf_toDigits (negative : Bool) (n : Nat) {rest : List Char} (h : Ends rest) :
    numeralOf negative (Nat.toDigits 10 n ++ rest) =
      some (⟨negative, Nat.toDigits 10 n, none, none⟩, rest) := by
  simp [numeralOf, wholeDigits_toDigits n h, h.no_point, h.no_power]

theorem numeralChars_writeInt (i : Int) {rest : List Char} (h : Ends rest) :
    ∃ n : Numeral, numeralChars (writeInt i ++ rest) = some (n, rest) ∧ n.integer? = some i := by
  cases i with
  | ofNat m =>
    refine ⟨⟨false, Nat.toDigits 10 m, none, none⟩,
      ?_, by simp [Numeral.integer?, Nat.ofDigitChars_toDigits]⟩
    rw [← numeralOf_toDigits false m h, writeInt, numeralChars]
    -- The first character is a digit, so it is no minus sign.
    intro r hr
    obtain ⟨c, cs, hcs, hc⟩ := head_toDigits m
    rw [hcs] at hr
    obtain rfl : c = '-' := (List.cons.inj hr).1
    cases hc
  | negSucc m =>
    refine ⟨⟨true, Nat.toDigits 10 (m + 1), none, none⟩, numeralOf_toDigits true (m + 1) h, ?_⟩
    have hm : Nat.ofDigitChars 10 (Nat.toDigits 10 (m + 1)) 0 = m + 1 := by
      simp [Nat.ofDigitChars_toDigits]
    simp only [Numeral.integer?, hm, Nat.succ_ne_zero, if_true, if_false]
    rfl

def Starts (cs : List Char) : Prop := ∃ c ds, cs = c :: ds ∧ isSpace c = false ∧ c ≠ ']'

theorem starts_writeInt (i : Int) : Starts (writeInt i) := by
  cases i with
  | ofNat m =>
    obtain ⟨c, cs, hcs, hc⟩ := head_toDigits m
    refine ⟨c, cs, hcs, ?_, by rintro rfl; cases hc⟩
    apply Bool.eq_false_iff.2
    intro hspace
    have hblank : c = ' ' ∨ c = '\n' ∨ c = '\t' ∨ c = '\r' := by
      simpa [isSpace, or_assoc] using hspace
    obtain rfl | rfl | rfl | rfl := hblank <;> cases hc
  | negSucc m => exact ⟨'-', _, rfl, rfl, by decide⟩

theorem reads_integer {low high i : Int} (hlow : low ≤ i) (hhigh : i ≤ high) :
    Reads (integer low high) (writeInt i) i := by
  intro rest hrest
  obtain ⟨n, hn, hi⟩ := numeralChars_writeInt i hrest
  obtain ⟨c, cs, hcs, hc, -⟩ := starts_writeInt i
  have hnumeral : numeral.run (writeInt i ++ rest) = .ok (n, rest) := by
    have hskip : skipSpaces (writeInt i ++ rest) = writeInt i ++ rest := by
      rw [hcs, List.cons_append, skipSpaces_cons hc]
    simp [numeral, StateT.run, hskip, ofOption, hn]
  rw [integer, run_bind_of_ok hnumeral]
  simp [hi, hlow, hhigh]
  rfl

inductive Takes (step : String → σ → Reader σ) : σ → List (String × List Char) → σ → Prop
  | nil (x : σ) : Takes step x [] x
  | cons {x y z : σ} {name : String} {cs : List Char} {ms : List (String × List Char)} :
    Reads (step name x) cs y → Takes step y ms z → Takes step x ((name, cs) :: ms) z

variable {step : String → σ → Reader σ} {x y : σ}

def member (m : String × List Char) : List Char := writeChars m.1.toList ++ ':' :: m.2

theorem run_member {name : String} {cs : List Char} (h : Reads (step name x) cs y) {first : Bool}
    {before : List Char}
    {rest : List Char} (hmore : (more '\x7d' first).run (before ++ (member (name, cs) ++ rest)) =
      .ok (true, member (name, cs) ++ rest)) (hrest : Ends rest) (n : Nat) :
    (membersFrom text step (n + 1) first x).run (before ++ (member (name, cs) ++ rest)) =
      (membersFrom text step n false y).run rest := by
  have hmember : member (name, cs) ++ rest = writeChars name.toList ++ (':' :: (cs ++ rest)) := by
    simp [member]
  rw [membersFrom, run_bind_of_ok hmore]
  simp only [if_true]
  rw [hmember, run_bind_of_ok (run_text _ _), run_bind_of_ok (run_symbol rfl _),
    run_bind_of_ok (h rest hrest)]

def membersAfter (ms : List (String × List Char)) : List Char := ms.flatMap fun m => ',' :: member m

theorem length_le_membersAfter (ms : List (String × List Char)) :
    ms.length ≤ (membersAfter ms).length := by
  induction ms with
  | nil => exact Nat.le_refl 0
  | cons m ms ih =>
    simp only [membersAfter, List.flatMap_cons, List.length_append, List.length_cons] at ih ⊢
    omega

theorem ends_membersAfter (ms : List (String × List Char)) (rest : List Char) :
    Ends (membersAfter ms ++ '\x7d' :: rest) := by
  cases ms with
  | nil => exact ends_brace rest
  | cons m ms => exact ends_comma _

theorem run_membersAfter {ms : List (String × List Char)} (h : Takes step x ms y) {n : Nat}
    (hn : ms.length < n) (rest : List Char) :
    (membersFrom text step n false x).run (membersAfter ms ++ '\x7d' :: rest) = .ok (y, rest) := by
  induction h generalizing n with
  | nil x =>
    obtain ⟨n, rfl⟩ : ∃ k, n = k + 1 := ⟨n - 1, by omega⟩
    change (membersFrom text step (n + 1) false x).run ('\x7d' :: rest) = _
    rw [membersFrom, run_bind_of_ok (run_more_close rfl _ _)]
    rfl
  | @cons x y z name cs ms hread _ ih =>
    obtain ⟨n, rfl⟩ : ∃ k, n = k + 1 := ⟨n - 1, by simp at hn; omega⟩
    have htext : membersAfter ((name, cs) :: ms) ++ '\x7d' :: rest =
        [','] ++ (member (name, cs) ++ (membersAfter ms ++ '\x7d' :: rest)) := by
          simp [membersAfter]
    rw [htext, run_member hread (run_more_next rfl (by decide) (by decide) _)
      (ends_membersAfter ms rest)]
    exact ih (by simpa using hn)

theorem intercalate_members (m : String × List Char) (ms : List (String × List Char)) :
    [','].intercalate ((m :: ms).map member) = member m ++ membersAfter ms := by
  induction ms generalizing m with
  | nil => simp [membersAfter]
  | cons m' ms ih =>
    rw [List.map_cons, List.map_cons, List.intercalate_cons_cons, ← List.map_cons, ih]
    simp [membersAfter]

theorem run_members {ms : List (String × List Char)} (h : Takes step x ms y) (rest : List Char) :
    (members step x).run ([','].intercalate (ms.map member) ++ '\x7d' :: rest) = .ok (y, rest) := by
  change (membersFrom text step (List.length _ + 1) true x).run _ = _
  cases h with
  | nil x =>
    change (membersFrom text step (List.length _ + 1) true x).run ('\x7d' :: rest) = _
    rw [membersFrom, run_bind_of_ok (run_more_close rfl _ _)]
    rfl
  | @cons _ y _ name cs ms hread htakes =>
    have hfuel := length_le_membersAfter ms
    rw [intercalate_members, List.append_assoc]
    have hfirst : (more '\x7d' true).run
      (member (name, cs) ++ (membersAfter ms ++ '\x7d' :: rest)) =
        .ok (true, member (name, cs) ++ (membersAfter ms ++ '\x7d' :: rest)) :=
          run_more_first rfl (by decide) _
    rw [← List.nil_append (member (name, cs) ++ _),
      run_member hread hfirst (ends_membersAfter ms rest)]
    apply run_membersAfter htakes
    simp only [List.length_append, List.length_cons]
    omega

theorem reads_object {body : Nat → Reader β} {d : Nat} {ms : List (String × List Char)} {b : β}
    (h : ∀ rest, (body d).run ([','].intercalate (ms.map member) ++ '\x7d' :: rest) =
      .ok (b, rest)) :
    Reads (nested '\x7b' body (d + 1)) (writeObject ms) b := by
  intro rest _
  have htext : writeObject ms ++ rest =
    '\x7b' :: ([','].intercalate (ms.map member) ++ '\x7d' :: rest) :=
    List.append_assoc ('\x7b' :: _) ['\x7d'] rest
  rw [htext, nested, run_bind_of_ok (run_symbol rfl _)]
  exact h rest

def Field.member (fs : List (Field σ)) (d : Nat) (name : String) (x : σ) : Reader σ :=
  match fs.find? (·.name == name) with
  | some f => if f.isSet x then malformed else f.read d x
  | none => do skip; return x

theorem reads_member {fs : List (Field σ)} {f : Field σ} {d : Nat} {cs : List Char}
    (hf : fs.find? (·.name == f.name) = some f) (hset : f.isSet x = false)
    (h : Reads (f.read d x) cs y) : Reads (Field.member fs d f.name x) cs y := by
  rw [Field.member, hf]
  simpa [hset] using h

theorem reads_fields {fs : List (Field σ)} {lenient : Bool} {d : Nat}
    {ms : List (String × List Char)} (h : Takes (Field.member fs d) x ms y) :
    Reads (fields fs lenient x (d + 1)) (writeObject ms) y := by
  intro rest hrest
  have hobject : Reads (nested '\x7b' (fun d => members (Field.member fs d) x) (d + 1))
    (writeObject ms) y :=
    reads_object (run_members h)
  exact (run_bind_of_ok (run_peek rfl _)).trans (hobject rest hrest)

theorem reads_choice {plain : String → Option α} {held : String → Option ((depth : Nat) → Reader α)}
    {name : String} {a : α} (h : plain name = some a) (d : Nat) :
    Reads (choice plain held d) (writeChars name.toList) a := by
  intro rest _
  have hpeek := run_peek (c := '"') rfl (name.toList.flatMap escapeChar ++ '"' :: rest)
  have hchars : writeChars name.toList ++ rest =
      '"' :: (name.toList.flatMap escapeChar ++ '"' :: rest) := by
    simp [writeChars]
  rw [← hchars] at hpeek
  rw [choice, run_bind_of_ok hpeek]
  simp only
  rw [run_bind_of_ok (run_text name rest), h]
  rfl

def RoundTrips [Form α] (depth : Nat) (a : α) : Prop := Reads (Form.read depth) (Form.write a) a

theorem roundTrips_bool (d : Nat) (b : Bool) : RoundTrips d b := by
  intro rest _
  cases b with
  | true => exact (run_bind_of_ok (run_peek rfl _)).trans (run_bind_of_ok (run_word rfl rfl rest))
  | false => exact (run_bind_of_ok (run_peek rfl _)).trans (run_bind_of_ok (run_word rfl rfl rest))

theorem roundTrips_uint64 (d : Nat) (n : UInt64) : RoundTrips d n := by
  have hmost : (n.toNat : Int) ≤ UInt64.size - 1 := by
    have := n.toNat_lt_size
    omega
  have h := (reads_integer (Int.natCast_nonneg _) hmost).bind_pure fun i => UInt64.ofNat i.toNat
  rwa [Int.toNat_natCast, UInt64.ofNat_toNat] at h

theorem roundTrips_uint8 (d : Nat) (n : UInt8) : RoundTrips d n := by
  have hmost : (n.toNat : Int) ≤ 255 := by
    have := n.toNat_lt
    omega
  have h := (reads_integer (Int.natCast_nonneg _) hmost).bind_pure fun i => UInt8.ofNat i.toNat
  rwa [Int.toNat_natCast, UInt8.ofNat_toNat] at h

theorem roundTrips_int64 (d : Nat) (n : Int64) : RoundTrips d n := by
  have h := (reads_integer n.minValue_le_toInt n.toInt_le).bind_pure Int64.ofInt
  rwa [Int64.ofInt_toInt] at h

theorem roundTrips_string (d : Nat) (s : String) : RoundTrips d s := fun rest _ => run_text s rest

theorem roundTrips_option [Form α] {d : Nat} {x : Option α} (h : ∀ a ∈ x, RoundTrips d a)
    (hhead : ∀ a ∈ x, ∃ c cs, Form.write a = c :: cs ∧ isSpace c = false ∧ c ≠ 'n') :
      RoundTrips d x := by
  intro rest hrest
  cases x with
  | none => exact (run_bind_of_ok (run_peek rfl _)).trans (run_bind_of_ok (run_word rfl rfl rest))
  | some a =>
    obtain ⟨c, cs, hwrite, hspace, hc⟩ := hhead a rfl
    have hpeek := run_peek hspace (cs ++ rest)
    rw [← List.cons_append, ← hwrite] at hpeek
    refine (run_bind_of_ok hpeek).trans ?_
    split
    · next hn => exact absurd (Option.some.inj hn) hc
    · exact (h a rfl).map some rest hrest

theorem read_write [Form α] {a : α} (h : RoundTrips depthLimit a) : read (write a) = .ok a := by
  have hrun := h [] ends_nil
  rw [List.append_nil] at hrun
  rw [read, wholeText, write, String.toList_ofList, hrun]
  rfl

end EntryCache.Json
