import EntryCache.Configuration
import EntryCache.Proofs.Configuration.Equality
import Mathlib.Data.List.Induction

namespace EntryCache.Configuration

open ListenerConfiguration (Distinct distinct_concat any_same_concat any_same_filter)

variable {ω κ α β : Type} [DecidableEq κ]

inductive Flag : Type
  | storeByValue
  | readThrough
  | writeThrough
  | statistics
  | management
  deriving DecidableEq

def Flag.get : Flag → Flags → Bool
  | .storeByValue => Flags.storeByValue
  | .readThrough => Flags.readThrough
  | .writeThrough => Flags.writeThrough
  | .statistics => Flags.statistics
  | .management => Flags.management

inductive Setting (ω κ α : Type) [DecidableEq κ] : Type
  | flag (f : Flag) (b : Bool)
  | loader (f : Factory ω (Loader ω κ α))
  | writer (f : Factory ω (Writer ω κ α))
  | expiry (f : Factory ω ExpiryPolicy)

namespace Setting

def apply : Setting ω κ α → Configuration ω κ α → Configuration ω κ α
  | .flag .storeByValue b, c => c.withStoreByValue b
  | .flag .readThrough b, c => c.withReadThrough b
  | .flag .writeThrough b, c => c.withWriteThrough b
  | .flag .statistics b, c => c.withStatistics b
  | .flag .management b, c => c.withManagement b
  | .loader f, c => c.withLoader f
  | .writer f, c => c.withWriter f
  | .expiry f, c => c.withExpiry f

def flag? (f : Flag) : Setting ω κ α → Option Bool
  | .flag g b => if g = f then some b else none
  | _ => none

def loader? : Setting ω κ α → Option (Factory ω (Loader ω κ α))
  | .loader f => some f
  | _ => none

def writer? : Setting ω κ α → Option (Factory ω (Writer ω κ α))
  | .writer f => some f
  | _ => none

def expiry? : Setting ω κ α → Option (Factory ω ExpiryPolicy)
  | .expiry f => some f
  | _ => none

theorem listeners_apply (v : Setting ω κ α) (c : Configuration ω κ α) :
    (v.apply c).listeners = c.listeners := by
  cases v with
  | flag f b => cases f <;> rfl
  | _ => rfl

theorem get_flags_apply (f : Flag) (v : Setting ω κ α) (c : Configuration ω κ α) :
    f.get (v.apply c).flags = (v.flag? f).getD (f.get c.flags) := by
  cases v with
  | flag g b => cases g <;> cases f <;> rfl
  | _ => rfl

theorem loader_apply (v : Setting ω κ α) (c : Configuration ω κ α) :
    (v.apply c).loader = v.loader?.or c.loader := by
  cases v with
  | flag f b => cases f <;> rfl
  | _ => rfl

theorem writer_apply (v : Setting ω κ α) (c : Configuration ω κ α) :
    (v.apply c).writer = v.writer?.or c.writer := by
  cases v with
  | flag f b => cases f <;> rfl
  | _ => rfl

theorem expiry_apply (v : Setting ω κ α) (c : Configuration ω κ α) :
    (v.apply c).expiry = v.expiry?.getD c.expiry := by
  cases v with
  | flag f b => cases f <;> rfl
  | _ => rfl

end Setting

inductive Change (ω κ α : Type) [DecidableEq κ] : Type
  | add (l : ListenerConfiguration ω κ α)
  | withListener (l : ListenerConfiguration ω κ α)
  | remove (l : ListenerConfiguration ω κ α)
  | set (v : Setting ω κ α)

inductive Answer : Type
  | done
  | refused (e : Error)
  | removed (found : Bool)
  | gone

def Change.run : Change ω κ α → Configuration ω κ α → Answer × Option (Configuration ω κ α)
  | .add l, c =>
    match c.addListener l with
    | .ok c' => (.done, some c')
    | .error e => (.refused e, some c)
  | .withListener l, c =>
    match c.addListener l with
    | .ok c' => (.done, some c')
    | .error e => (.refused e, none)
  | .remove l, c =>
    let (found, c') := c.removeListener l
    (.removed found, some c')
  | .set v, c => (.done, some (v.apply c))

def Has (c : Configuration ω κ α) (l : ListenerConfiguration ω κ α) :
    Prop := ∃ d ∈ c.listeners, d.same l = true

instance (c : Configuration ω κ α) (l : ListenerConfiguration ω κ α) : Decidable (c.Has l) :=
  inferInstanceAs (Decidable (∃ d ∈ c.listeners, d.same l = true))

def listenTo (c : Configuration ω κ α) (l : ListenerConfiguration ω κ α) : Configuration ω κ α :=
  { c with listeners := c.listeners ++ [l] }

def without (c : Configuration ω κ α) (l : ListenerConfiguration ω κ α) : Configuration ω κ α :=
  { c with listeners := c.listeners.filter fun d => !d.same l }

def twice : Error :=
  .invalidArgument "A CacheEntryListenerConfiguration can be registered only once"

variable {c : Configuration ω κ α} {l : ListenerConfiguration ω κ α}

theorem hasListener_iff : c.hasListener l = true ↔ c.Has l := List.any_eq_true

theorem addListener_of_has (h : c.Has l) :
    c.addListener l = .error twice := if_pos (hasListener_iff.2 h)

theorem addListener_of_not_has (h : ¬c.Has l) : c.addListener l = .ok (c.listenTo l) :=
  if_neg fun hl => h (hasListener_iff.1 hl)

theorem removeListener_eq (c : Configuration ω κ α) (l : ListenerConfiguration ω κ α) :
    c.removeListener l = (c.hasListener l, c.without l) := by
  have hfound : ((c.listeners.filter fun d => !d.same l).length != c.listeners.length) =
      c.hasListener l := by
    rw [Bool.eq_iff_iff, bne_iff_ne, Ne, List.length_filter_eq_length_iff, hasListener_iff, Has]
    simp
  rw [removeListener, hfound]
  rfl

theorem not_has_without (c : Configuration ω κ α) (l : ListenerConfiguration ω κ α) :
    ¬(c.without l).Has l := by
  rintro ⟨d, hd, hsame⟩
  simpa [hsame] using (List.mem_filter.1 hd).2

theorem without_of_not_has (h : ¬c.Has l) : c.without l = c := by
  have hlisteners : c.listeners.filter (fun d => !d.same l) = c.listeners := by
    rw [List.filter_eq_self]
    intro d hd
    by_contra hsame
    exact h ⟨d, hd, by simpa using hsame⟩
  rw [without, hlisteners]

theorem run_add_of_has (h : c.Has l) : (Change.add l).run c = (.refused twice, some c) := by
  rw [Change.run, addListener_of_has h]

theorem run_add_of_not_has (h : ¬c.Has l) :
    (Change.add l).run c = (.done, some (c.listenTo l)) := by
  rw [Change.run, addListener_of_not_has h]

theorem run_withListener_of_has (h : c.Has l) :
    (Change.withListener l).run c = (.refused twice, none) := by
  rw [Change.run, addListener_of_has h]

theorem run_withListener_of_not_has (h : ¬c.Has l) :
    (Change.withListener l).run c = (.done, some (c.listenTo l)) := by
  rw [Change.run, addListener_of_not_has h]

theorem run_remove (c : Configuration ω κ α) (l : ListenerConfiguration ω κ α) :
    (Change.remove l).run c = (.removed (c.hasListener l), some (c.without l)) := by
  rw [Change.run, removeListener_eq]

namespace Change

def addition? : Change ω κ α → Option (ListenerConfiguration ω κ α)
  | .add l => some l
  | .withListener l => some l
  | _ => none

def setting? : Change ω κ α → Option (Setting ω κ α)
  | .set v => some v
  | _ => none

def adds (x : Change ω κ α) (l : ListenerConfiguration ω κ α) : Bool := x.addition?.any (·.same l)

def removes : Change ω κ α → ListenerConfiguration ω κ α → Bool
  | .remove d, l => d.same l
  | _, _ => false

theorem setting?_of_addition {x : Change ω κ α} {l : ListenerConfiguration ω κ α}
    (hx : x.addition? = some l) : x.setting? = none := by
  cases x with
  | set v => cases hx
  | _ => rfl

def leaves (l : ListenerConfiguration ω κ α) : List (Change ω κ α) → Bool
  | [] => false
  | x :: later => (x.adds l && !later.any (·.removes l)) || leaves l later

/-- The listeners of changes that follow on earlier ones: those of the additions that stand. -/
def standing (earlier : List (Change ω κ α)) :
    List (Change ω κ α) → List (ListenerConfiguration ω κ α)
  | [] => []
  | x :: later =>
    x.addition?.toList.filter (fun l => !leaves l earlier && !later.any (·.removes l)) ++
      standing (earlier ++ [x]) later

def lastSet (get : Setting ω κ α → Option β) (xs : List (Change ω κ α)) : Option β :=
  xs.reverse.findSome? fun x => x.setting?.bind get

variable {x : Change ω κ α}

theorem leaves_snoc (l : ListenerConfiguration ω κ α) (xs : List (Change ω κ α))
    (x : Change ω κ α) : leaves l (xs ++ [x]) = (x.adds l || (leaves l xs && !x.removes l)) := by
  induction xs with
  | nil => simp [leaves]
  | cons y xs ih =>
    simp only [List.cons_append, leaves, ih, List.any_append, List.any_cons, List.any_nil]
    grind

theorem standing_snoc (earlier xs : List (Change ω κ α)) (x : Change ω κ α) :
    standing earlier (xs ++ [x]) = (standing earlier xs).filter (fun d => !x.removes d) ++
      x.addition?.toList.filter fun l => !leaves l (earlier ++ xs) := by
  induction xs generalizing earlier with
  | nil => simp [standing]
  | cons y xs ih =>
    simp only [List.cons_append, standing, ih, List.append_assoc, List.filter_append,
      List.filter_filter,
      List.any_append, List.any_cons, List.any_nil, List.nil_append]
    simp [Bool.and_comm, Bool.and_left_comm]

theorem standing_addition (hx : x.addition? = some l) (xs : List (Change ω κ α)) :
    standing [] (xs ++ [x]) = standing [] xs ++ if leaves l xs then [] else [l] := by
  have hremoves : ∀ d, x.removes d = false := by
    cases x with
    | remove d => cases hx
    | _ => exact fun _ => rfl
  rw [standing_snoc, hx]
  cases hl : leaves l xs <;> simp [hremoves, hl]

theorem standing_remove (l : ListenerConfiguration ω κ α) (xs : List (Change ω κ α)) :
    standing [] (xs ++ [.remove l]) = (standing [] xs).filter fun d => !l.same d := by
  simp [standing_snoc, addition?, removes]

theorem standing_set (v : Setting ω κ α) (xs : List (Change ω κ α)) :
    standing [] (xs ++ [.set v]) = standing [] xs := by
  rw [standing_snoc]
  exact (List.append_nil _).trans (List.filter_eq_self.2 fun _ _ => rfl)

theorem lastSet_snoc (get : Setting ω κ α → Option β) (xs : List (Change ω κ α))
    (x : Change ω κ α) : lastSet get (xs ++ [x]) = (x.setting?.bind get).or (lastSet get xs) := by
  rw [lastSet, List.reverse_append, List.reverse_singleton, List.singleton_append,
    List.findSome?_cons, lastSet]
  cases x.setting?.bind get <;> rfl

theorem any_standing (l : ListenerConfiguration ω κ α) (xs : List (Change ω κ α)) :
    (standing [] xs).any (·.same l) = leaves l xs := by
  induction xs using List.reverseRecOn generalizing l with
  | nil => rfl
  | append_singleton xs x ih =>
    rw [standing_snoc, leaves_snoc, List.nil_append]
    simp only [← ih]
    cases x with
    | add d => simpa [addition?, adds, removes] using any_same_concat (standing [] xs) d l
    | withListener d => simpa [addition?, adds, removes] using any_same_concat (standing [] xs) d l
    | remove d => simpa [addition?, adds, removes] using any_same_filter (standing [] xs) d l
    | set v => simp [addition?, adds, removes]

theorem distinct_standing (xs : List (Change ω κ α)) : Distinct (standing [] xs) := by
  induction xs using List.reverseRecOn with
  | nil => exact .nil
  | append_singleton xs x ih =>
    have hkept : Distinct ((standing [] xs).filter fun d => !x.removes d) :=
      List.Pairwise.filter _ ih
    rw [standing_snoc, List.nil_append]
    cases x.addition? with
    | none => simpa using hkept
    | some l =>
      cases hl : leaves l xs with
      | true => simpa [hl] using hkept
      | false =>
        have hnew : ∀ d ∈ standing [] xs, d.same l = false := by
          simpa [← any_standing] using hl
        simpa [hl, distinct_concat, hkept] using fun d hd _ => hnew d hd

end Change

/-- What a line of changes makes of a new configuration whose policy has the factory with the number
`id`. -/
structure Follows (id : Nat) (xs : List (Change ω κ α)) (c : Configuration ω κ α) : Prop where
  listeners : c.listeners = Change.standing [] xs
  flags : ∀ f : Flag, f.get c.flags = (Change.lastSet (Setting.flag? f) xs).getD (f.get default)
  loader : c.loader = Change.lastSet Setting.loader? xs
  writer : c.writer = Change.lastSet Setting.writer? xs
  expiry : c.expiry = (Change.lastSet Setting.expiry? xs).getD (.singleton id .eternal)

namespace Follows

open Change

variable {id : Nat} {xs : List (Change ω κ α)} {x : Change ω κ α} {c' : Configuration ω κ α}
  {a : Answer}

theorem new (id : Nat) : Follows id [] (new id : Configuration ω κ α) :=
  ⟨rfl, fun _ => rfl, rfl, rfl, rfl⟩

theorem has_iff (h : Follows id xs c) (l : ListenerConfiguration ω κ α) :
    c.Has l ↔ leaves l xs = true := by
  rw [← hasListener_iff, hasListener, h.listeners, any_standing]

theorem of_listeners (h : Follows id xs c) (hx : x.setting? = none)
    (ls : List (ListenerConfiguration ω κ α))
    (hls : ls = standing [] (xs ++ [x])) : Follows id (xs ++ [x]) { c with listeners := ls } := by
  have hlast : ∀ {β : Type} (get : Setting ω κ α → Option β), lastSet get (xs ++ [x]) =
      lastSet get xs := by
    intro β get
    rw [lastSet_snoc, hx]
    rfl
  constructor
  · exact hls
  · intro f
    rw [hlast]
    exact h.flags f
  · rw [hlast]
    exact h.loader
  · rw [hlast]
    exact h.writer
  · rw [hlast]
    exact h.expiry

theorem setting (h : Follows id xs c) (v : Setting ω κ α) :
    Follows id (xs ++ [.set v]) (v.apply c) := by
  have hlast : ∀ {β : Type} (get : Setting ω κ α → Option β),
      lastSet get (xs ++ [.set v]) = (get v).or (lastSet get xs) :=
        fun get => lastSet_snoc get xs (.set v)
  constructor
  · rw [v.listeners_apply, h.listeners, standing_set]
  · intro f
    rw [v.get_flags_apply, h.flags, hlast, Option.getD_or]
  · rw [v.loader_apply, h.loader, hlast]
  · rw [v.writer_apply, h.writer, hlast]
  · rw [v.expiry_apply, h.expiry, hlast, Option.getD_or]

theorem addition (h : Follows id xs c) (hx : x.addition? = some l) (hhas : ¬c.Has l) :
    Follows id (xs ++ [x]) (c.listenTo l) := by
  apply h.of_listeners (setting?_of_addition hx)
  rw [standing_addition hx, h.listeners, if_neg fun hl => hhas ((h.has_iff l).2 hl)]

theorem refusal (h : Follows id xs c) (hx : x.addition? = some l) (hhas : c.Has l) :
    Follows id (xs ++ [x]) c := by
  apply h.of_listeners (setting?_of_addition hx) c.listeners
  rw [standing_addition hx, h.listeners, if_pos ((h.has_iff l).1 hhas), List.append_nil]

theorem removal (h : Follows id xs c) (l : ListenerConfiguration ω κ α) :
    Follows id (xs ++ [.remove l]) (c.without l) := by
  apply h.of_listeners rfl
  rw [standing_remove, h.listeners]
  simp only [l.same_comm]

theorem change (h : Follows id xs c) (hrun : x.run c = (a, some c')) :
    Follows id (xs ++ [x]) c' := by
  cases x with
  | add l =>
    by_cases hhas : c.Has l
    · rw [run_add_of_has hhas] at hrun
      cases hrun
      exact h.refusal rfl hhas
    · rw [run_add_of_not_has hhas] at hrun
      cases hrun
      exact h.addition rfl hhas
  | withListener l =>
    by_cases hhas : c.Has l
    · rw [run_withListener_of_has hhas] at hrun
      cases hrun
    · rw [run_withListener_of_not_has hhas] at hrun
      cases hrun
      exact h.addition rfl hhas
  | remove l =>
    rw [run_remove] at hrun
    cases hrun
    exact h.removal l
  | set v =>
    cases hrun
    exact h.setting v

end Follows

end EntryCache.Configuration
