import EntryCache.Proofs.Registry.Instances
import Mathlib.Data.List.Induction

namespace EntryCache.Registry

variable {ι π ω : Type} {k : Workshop ι π ω} {made : ω → π → Prop} {closed : ω → List π}
  {s t : Registry ι π × ω}
  {scope a b : ScopeId} {name : String} {p : π} {q : String × π} {op : Operation ι}
    {ops : List (Operation ι)}

namespace Operation

def Answers (k : Workshop ι π ω) (op : Operation ι) (s : Registry ι π × ω) (p : π) : Prop :=
  ∃ reply, ((op.run k).run s).1 = .ok reply ∧ p ∈ reply.instances

def Finds (k : Workshop ι π ω) (op : Operation ι) (s : Registry ι π × ω) (scope : ScopeId)
    (p : π) : Prop :=
  op.asked = some scope ∧ op.Answers k s p

def FindsAs (k : Workshop ι π ω) (op : Operation ι) (s : Registry ι π × ω) (scope : ScopeId)
    (name : String) (p : π) : Prop :=
  op.Finds k s scope p ∧ (name, p) ∈ ((op.run k).run s).2.1.held scope

def BuiltFor (k : Workshop ι π ω) (made : ω → π → Prop) (ops : List (Operation ι))
    (s : Registry ι π × ω) (scope : ScopeId) (p : π) : Prop :=
  ∃ before op later, ops = before ++ op :: later ∧ op.asked = some scope ∧
    ¬ made (runAll k before s).2.2 p ∧ made (runAll k (before ++ [op]) s).2.2 p

theorem Effect.existing (h : op.Effect made closed s t) (hp : made s.2 p) : made t.2 p := by
  cases h with
  | grows _ hgrows => exact hgrows.world.made p hp
  | builds _ hbuilt => exact hbuilt.made p hp
  | withdraws hw _ => exact hw.existing p hp
  | rescopes hw _ _ _ => exact hw ▸ hp

theorem Effect.keepsClosed (h : op.Effect made closed s t) (hp : p ∈ closed s.2) :
    p ∈ closed t.2 := by
  cases h with
  | grows _ hgrows => exact hgrows.world.closed ▸ hp
  | builds _ hbuilt => exact hbuilt.closed ▸ hp
  | withdraws hw _ => exact hw.closed ▸ List.mem_append_left _ hp
  | rescopes hw _ _ _ => exact hw ▸ hp

theorem Effect.held (h : op.Effect made closed s t) (hq : q ∈ t.1.held a) :
    q ∈ s.1.held a ∨ op.asked = some a ∧ ¬ made s.2 q.2 ∧ made t.2 q.2 := by
  cases h with
  | grows asked hgrows =>
    rcases hgrows.cases hq with hq | ⟨rfl, hq⟩
    · exact .inl (mem_of_mem_forget hq)
    · exact .inr ⟨asked, hgrows.fresh q hq⟩
  | builds hr _ => exact .inl (hr ▸ hq)
  | withdraws hw _ => exact .inl ((hw.held a).subset hq)
  | rescopes _ hheld _ _ => exact .inl (hheld ▸ hq)

theorem Effect.alive (h : op.Effect made closed s t) (hlt : a < s.1.scopes.made.length)
    (ha : t.1.scopes.isAlive a = true) : s.1.scopes.isAlive a = true := by
  cases h with
  | grows _ hgrows => exact hgrows.scopes ▸ ha
  | builds hr _ => exact hr ▸ ha
  | withdraws hw _ => exact hw.scopes ▸ ha
  | rescopes _ _ _ halive => exact halive a ha hlt

theorem Effect.length_made (h : op.Effect made closed s t) :
    s.1.scopes.made.length ≤ t.1.scopes.made.length := by
  cases h with
  | grows _ hgrows => exact Nat.le_of_eq (congrArg (·.made.length) hgrows.scopes.symm)
  | builds hr _ => exact Nat.le_of_eq (congrArg (·.scopes.made.length) hr.symm)
  | withdraws hw _ => exact Nat.le_of_eq (congrArg (·.made.length) hw.scopes.symm)
  | rescopes _ _ hmade _ => exact hmade

theorem Effect.stays (h : op.Effect made closed s t) (ha : s.1.scopes.isAlive a = true)
    (hq : q ∈ s.1.held a) (hop : ¬ op.Closes q.1 a) : q ∈ t.1.held a := by
  have hforget : q ∈ s.1.forget.held a := by rwa [held_forget, if_pos ha]
  cases h with
  | grows _ hgrows => exact hgrows.mem hforget
  | builds hr _ => exact hr ▸ hq
  | withdraws _ hstays => exact (hstays hforget).resolve_right hop
  | rescopes _ hheld _ _ => exact hheld ▸ hq

theorem made_runAll (h : k.Ledger made closed) (hs : Sound made closed s) (ops : List (Operation ι))
    (hp : made s.2 p) : made (runAll k ops s).2.2 p := by
  induction ops generalizing s with
  | nil => exact hp
  | cons op ops ih =>
    have he := op.effect h hs
    exact ih (hs.effect he) (he.existing hp)

theorem alive_of_runAll (h : k.Ledger made closed) (hs : Sound made closed s)
    (ops : List (Operation ι))
    (hlt : a < s.1.scopes.made.length) (ha : (runAll k ops s).2.1.scopes.isAlive a = true) :
    s.1.scopes.isAlive a = true := by
  induction ops generalizing s with
  | nil => exact ha
  | cons op ops ih =>
    have he := op.effect h hs
    exact he.alive hlt (ih (hs.effect he) (Nat.lt_of_lt_of_le hlt he.length_made) ha)

theorem stays_runAll (h : k.Ledger made closed) (hs : Sound made closed s)
    (ops : List (Operation ι)) (hq : q ∈ s.1.held a) (hops : ∀ op ∈ ops, ¬ op.Closes q.1 a)
    (ha : (runAll k ops s).2.1.scopes.isAlive a = true) : q ∈ (runAll k ops s).2.1.held a := by
  induction ops generalizing s with
  | nil => exact hq
  | cons op ops ih =>
    have he := op.effect h hs
    have halive := alive_of_runAll h hs (op :: ops) (hs.known hq) ha
    apply ih (hs.effect he) _ (fun o ho => hops o (List.mem_cons_of_mem _ ho)) ha
    exact he.stays halive hq (hops op List.mem_cons_self)

theorem BuiltFor.append (h : BuiltFor k made ops s a p) (more : List (Operation ι)) :
    BuiltFor k made (ops ++ more) s a p := by
  obtain ⟨before, op, later, rfl, hop⟩ := h
  exact ⟨before, op, later ++ more, by rw [List.append_assoc, List.cons_append], hop⟩

theorem builtFor_of_held (h : k.Ledger made closed) (hs : Sound made closed s)
    (hnone : ∀ a, s.1.held a = [])
    (ops : List (Operation ι)) (hq : q ∈ (runAll k ops s).2.1.held a) :
    BuiltFor k made ops s a q.2 := by
  induction ops using List.reverseRecOn with
  | nil =>
    change q ∈ s.1.held a at hq
    rw [hnone] at hq
    cases hq
  | append_singleton ops op ih =>
    have he := op.effect h (hs.runAll h ops)
    rw [runAll_snoc] at hq
    rcases he.held hq with hq | ⟨hasked, hnew⟩
    · exact (ih hq).append [op]
    · refine ⟨ops, op, [], rfl, hasked, ?_⟩
      rwa [runAll_snoc]

theorem BuiltFor.unique (h : k.Ledger made closed) (hs : Sound made closed s)
    (ha : BuiltFor k made ops s a p) (hb : BuiltFor k made ops s b p) : a = b := by
  obtain ⟨before, op, later, rfl, hop, hnew, hmade⟩ := ha
  obtain ⟨before', op', later', heq, hop', hnew', hmade'⟩ := hb
  -- What was made before the second of two different steps had been made in the first.
  have hlast : ∀ {u v : List (Operation ι)} {o : Operation ι}, made (runAll k (u ++ [o]) s).2.2 p →
      made (runAll k (u ++ o :: v) s).2.2 p := fun {u v o} hu => by
    rw [show u ++ o :: v = (u ++ [o]) ++ v by simp, runAll_append]
    exact made_runAll h (hs.runAll h _) v hu
  rcases List.append_eq_append_iff.1 heq with ⟨rest, rfl, hrest⟩ | ⟨rest, rfl, hrest⟩
  · cases rest with
    | nil =>
      obtain ⟨rfl, -⟩ := List.cons.inj hrest
      exact Option.some.inj (hop.symm.trans hop')
    | cons o rest =>
      obtain ⟨rfl, -⟩ := List.cons.inj hrest
      exact absurd (hlast hmade) hnew'
  · cases rest with
    | nil =>
      obtain ⟨rfl, -⟩ := List.cons.inj hrest
      exact Option.some.inj (hop.symm.trans hop')
    | cons o rest =>
      obtain ⟨rfl, -⟩ := List.cons.inj hrest
      exact absurd (hlast hmade') hnew

theorem Answers.asks (hp : op.Answers k s p) :
    (∃ scope, op.asked = some scope) ∨ ∃ name scope, op = .load name scope := by
  obtain ⟨reply, hreply, hp⟩ := hp
  cases op with
  | providers scope => exact .inl ⟨scope, rfl⟩
  | provider scope => exact .inl ⟨scope, rfl⟩
  | providerNamed name scope => exact .inl ⟨scope, rfl⟩
  | load name scope => exact .inr ⟨name, scope, rfl⟩
  | register scope name service =>
    obtain rfl : .done = reply := Except.ok.inj hreply
    cases hp
  | _ =>
    obtain ⟨x, -, rfl⟩ := Action.exists_of_run_map hreply
    cases hp

theorem not_made_of_load (h : k.Ledger made closed) {scope : ScopeId}
    (hp : (load name scope).Answers k s p) : ¬ made s.2 p := by
  obtain ⟨reply, hreply, hp⟩ := hp
  obtain ⟨p', hrun, rfl⟩ := Action.exists_of_run_map hreply
  obtain rfl := List.mem_singleton.1 hp
  exact ((load_built h name scope s).2 p hrun).2.1

theorem Finds.held (h : k.Ledger made closed) (hp : op.Finds k s scope p) :
    ∃ name, (name, p) ∈ ((op.run k).run s).2.1.held scope ∧ ∀ n, op = .providerNamed n scope →
      n = name := by
  obtain ⟨hasked, reply, hreply, hp⟩ := hp
  obtain ⟨new, -, hheld⟩ := grows_of_asked h hasked s
  exact hheld reply p hreply hp

theorem Answers.not_closed (h : k.Ledger made closed) (hs : Sound made closed s)
    (hp : op.Answers k s p) : p ∉ closed s.2 := by
  intro hclosed
  rcases hp.asks with ⟨scope, hasked⟩ | ⟨name, scope, rfl⟩
  · have he := op.effect h hs
    obtain ⟨name, hheld, -⟩ := Finds.held h ⟨hasked, hp⟩
    exact (hs.effect he).closedGone hheld (he.keepsClosed hclosed)
  · exact not_made_of_load h hp (hs.closedMade p hclosed)

end Operation

open Operation

/-- After every run of operations: the names that are held for a scope are distinct, an instance is
closed once and not answered again, what a lookup finds for a scope was built for it, nothing that
is found for one scope is found for another, and what is found under a name in a scope is found
again, until it is closed or the scope is dropped. -/
theorem lookups_memoized (h : k.Ledger made closed) (c : Scopes ι)
    (override : Option String) {w : ω} (hw : closed w = []) (ops : List (Operation ι)) :
    let start := (Registry.new c override, w)
    let s := (runAll k ops start).2
    (∀ scope, ((s.1.held scope).map Prod.fst).Nodup) ∧
      (closed s.2).Nodup ∧
      (∀ (op : Operation ι) p, op.Answers k s p → p ∉ closed s.2) ∧
      (∀ (op : Operation ι) scope p, op.Finds k s scope p →
        BuiltFor k made (ops ++ [op]) start scope p ∧
        ∃ name, op.FindsAs k s scope name p ∧ ∀ n, op = .providerNamed n scope → n = name) ∧
      ∀ (first second : Operation ι) (later : List (Operation ι)),
        let t := (runAll k (ops ++ first :: later) start).2
        (∀ a b p, first.Finds k s a p → second.Finds k t b p → a = b) ∧
          ∀ scope name p q, first.FindsAs k s scope name p → second.FindsAs k t scope name q →
            (∀ op ∈ later, ¬ op.Closes name scope) → t.1.scopes.isAlive scope = true → p = q := by
  intro start s
  have hstart : Sound made closed start := sound_new c override hw
  have hs : Sound made closed s := hstart.runAll h ops
  have hbuilt : ∀ {ops op scope p}, op.Finds k (runAll k ops start).2 scope p →
      BuiltFor k made (ops ++ [op]) start scope p := fun hp => by
    obtain ⟨name, hheld, -⟩ := hp.held h
    rw [← runAll_snoc] at hheld
    exact builtFor_of_held h hstart (fun _ => rfl) _ hheld
  refine ⟨hs.names, hs.closedOnce, fun op p hp => hp.not_closed h hs,
    fun op scope p hp => ⟨hbuilt hp, ?_⟩, ?_⟩
  · obtain ⟨name, hheld, hname⟩ := hp.held h
    exact ⟨name, ⟨hp, hheld⟩, hname⟩
  · intro first second later t
    have ht : Sound made closed t := hstart.runAll h _
    constructor
    · intro a b p hfirst hsecond
      have ha := (hbuilt hfirst).append (later ++ [second])
      rw [List.append_assoc, ← List.append_assoc [first], List.singleton_append,
        ← List.append_assoc] at ha
      exact ha.unique h hstart (hbuilt hsecond)
    · intro scope name p q hfirst hsecond hlater halive
      have hfound : Sound made closed ((first.run k).run s).2 := hs.effect (first.effect h hs)
      have hmid : t = (runAll k later ((first.run k).run s).2).2 :=
        runAll_append k ops (first :: later) start
      have hstays : (name, p) ∈ t.1.held scope := by
        rw [hmid] at halive ⊢
        exact stays_runAll h hfound later hfirst.2 hlater halive
      obtain ⟨new, hgrows, -⟩ := grows_of_asked h hsecond.1.1 t
      have hp : (name, p) ∈ ((second.run k).run t).2.1.held scope :=
        hgrows.mem (by rwa [held_forget, if_pos halive])
      have hend : Sound made closed ((second.run k).run t).2 := ht.effect (second.effect h ht)
      exact congrArg Prod.snd (List.inj_on_of_nodup_map (hend.names scope) hp hsecond.2 rfl)

structure Numbering (ω π : Type) : Type where
  world : ω
  next : Nat
  closed : List (Nat × π)

def Workshop.numbered (k : Workshop ι π ω) : Workshop ι (Nat × π) (Numbering ω π) where
  make i n := ((k.make i n.world).1.map (n.next, ·),
    { n with world := (k.make i n.world).2, next := n.next + 1 })
  close p := fun n => ((k.close p.2 n.world).1, { n with world := (k.close p.2 n.world).2, closed :=
    n.closed ++ [p] })
  name p := k.name p.2

theorem Workshop.numbered_ledger (k : Workshop ι π ω) :
    k.numbered.Ledger (fun n p => p.1 < n.next) Numbering.closed where
  makes {i n p} h := by
    rcases hmake : (k.make i n.world).1 with e | q
    · simp only [numbered, hmake] at h
      cases h
    · simp only [numbered, hmake] at h
      cases h
      exact ⟨Nat.lt_irrefl _, Nat.lt_succ_self _⟩
  makeKeeps h := Nat.lt_succ_of_lt h
  makeCloses _ _ := rfl
  closeKeeps h := h
  closes _ _ := rfl

theorem lookups_memoized_named :
    let plain : Workshop String String Unit :=
      ⟨fun service w => (.ok service, w), fun _ w => (.ok (), w), id⟩
    let k := plain.numbered
    let start : Registry String (Nat × String) × Numbering Unit String :=
      (Registry.new .new none, ⟨(), 0, []⟩)
    let ops : List (Operation String) := [.makeScope "s" none, .register 1 "p" "x"]
    let all : Operation String := .providers 1
    let named : Operation String := .providerNamed "p" 1
    let t := (runAll k (ops ++ all :: [.count]) start).2
    start.2.closed = [] ∧ named.FindsAs k t 1 "p" (0, "x") ∧ ∀ q, named.FindsAs k t 1 "p" q →
      (0, "x") = q := by
  intro plain k start ops all named t
  have hmemo := lookups_memoized plain.numbered_ledger Scopes.new none
    (rfl : start.2.closed = []) ops
  have hall : all.FindsAs k (runAll k ops start).2 1 "p" (0, "x") :=
    ⟨⟨rfl, .providers [(0, "x")], rfl, List.mem_singleton.2 rfl⟩, List.mem_singleton.2 rfl⟩
  have hnamed : named.FindsAs k t 1 "p" (0, "x") :=
    ⟨⟨rfl, .provider (0, "x"), rfl, List.mem_singleton.2 rfl⟩, List.mem_singleton.2 rfl⟩
  refine ⟨rfl, hnamed, fun q hq => (hmemo.2.2.2.2 all named [.count]).2 1 "p" _ q hall hq ?_ rfl⟩
  intro op hop
  obtain rfl := List.mem_singleton.1 hop
  exact id

end EntryCache.Registry
