import Mathlib.Data.List.Induction
import EntryCache.Proofs.Provider.Steps

namespace EntryCache.Provider

variable {ω β : Type} {p : Provider ω} {id other : ManagerId} {m n : Manager ω}

noncomputable def reached (w : ω) (ops : List (Operation ω β)) : Provider ω × ω :=
  (Operation.runAll ops (Provider.new true, w)).2

theorem tidy_reached (w : ω) (ops : List (Operation ω β)) : (reached w ops).1.Tidy :=
  (Operation.reaches_runAll ops (tidy_new true)).tidy

theorem reached_append (w : ω) (before later : List (Operation ω β)) :
    reached w (before ++ later) = (Operation.runAll later (reached w before)).2 :=
  Operation.runAll_append before later _

theorem reached_request (w : ω) (ops : List (Operation ω β)) (q : Request) :
    (reached w (ops ++ [q.operation])).1 = (q.run.run (reached w ops).1).2 := by
  rw [reached_append]
  exact congrArg Prod.fst (q.run_operation (reached w ops))

def IsOpen (p : Provider ω) (id : ManagerId) :
    Prop := ∃ m, p.managerAt? id = some m ∧ m.closed = false

theorem Tidy.exists_answer (h : p.Tidy) (hshared : p.shared = true) (q : Request) :
    ∃ id m, (q.run.run p).1 = .ok id ∧ (q.run.run p).2.managerAt? id = some m ∧ m.closed = false ∧
      (m.scope, m.uri) = q.key ∧
      ∀ other n, p.managerAt? other = some n → (n.scope, n.uri) = q.key → n.closed = false →
        other = id := by
  cases hfound : p.openManager? q.key with
  | some id =>
    obtain ⟨m, hm, hkey, hopen⟩ := h.openManager?_eq_some_iff.1 hfound
    rw [Request.run_of_open hfound]
    refine ⟨id, m, rfl, hm, hopen, hkey, fun other n hn hnkey hnopen => ?_⟩
    have hother := h.openManager?_eq_some_iff.2 ⟨n, hn, hnkey, hnopen⟩
    exact Option.some.inj (hother.symm.trans hfound)
  | none =>
    rw [Request.run_of_none hfound, if_pos hshared]
    refine ⟨_, q.manager, rfl, managerAt?_making_new p _, rfl, rfl,
      fun other n hn hnkey hnopen => ?_⟩
    rw [h.openManager?_eq_some_iff.2 ⟨n, hn, hnkey, hnopen⟩] at hfound
    cases hfound

theorem exists_creator (w : ω) (ops : List (Operation ω β))
    (hm : (reached w ops).1.managerAt? id = some m) :
    ∃ before after, ∃ q : Request, ops = before ++ q.operation :: after ∧
      (reached w before).1.managerAt? id = none ∧
      (q.run.run (reached w before).1).1 = .ok id ∧ m.properties = q.settings := by
  induction ops using List.reverseRecOn generalizing m with
  | nil => cases hm
  | append_singleton ops op ih =>
    have h := tidy_reached w ops
    rw [reached_append] at hm
    have hbecomes := op.becomes (reached w ops).1 (reached w ops).2
    cases hbefore : (reached w ops).1.managerAt? id with
    | some n =>
      obtain ⟨m', hm', hfate⟩ := hbecomes.fate h hbefore
      obtain rfl := Option.some.inj (hm.symm.trans hm')
      obtain ⟨before, after, q, rfl, hnone, hanswer, hsettings⟩ := ih hbefore
      exact ⟨before, after ++ [op], q, List.append_assoc .., hnone, hanswer,
        hfate.properties.trans hsettings⟩
    | none =>
      obtain ⟨q, rfl, hanswer, rfl⟩ := hbecomes.exists_request h hbefore hm
      exact ⟨ops, [], q, rfl, hbefore, hanswer, rfl⟩

theorem isOpen_since (w : ω) (before between : List (Operation ω β)) {q : Request}
    (hid : (q.run.run (reached w before).1).1 = .ok id) :
    ∃ m, (reached w (before ++ q.operation :: between)).1.managerAt? id = some m ∧
      (m.scope, m.uri) = q.key ∧
      (m.closed = false ↔ ∀ op ∈ between, ¬op.Closes q.key id) := by
  have hshared : (reached w before).1.shared = true := Operation.shared_runAll before _
  obtain ⟨i, m, hi, hm, hopen, hkey, -⟩ := (tidy_reached w before).exists_answer hshared q
  obtain rfl := Except.ok.inj (hid.symm.trans hi)
  rw [← reached_request] at hm
  obtain ⟨m', hm', hfate⟩ := Operation.fate_runAll between
    (tidy_reached w (before ++ [q.operation])) hm
  rw [← reached_append, List.append_assoc, List.singleton_append] at hm'
  refine ⟨m', hm', hfate.key.trans hkey, ?_⟩
  rw [← Bool.not_eq_true, hfate.closed, hopen, hkey]
  simp

/-- Whatever was done with a provider before, a call for a manager is answered with one that is
open, for the uri in the scope that are asked for, with the properties of the call that made it. It
is the one that an earlier call was answered with if, and only if, they ask for the same and nothing
closed the manager between them. -/
theorem request_runAll (w : ω) (ops : List (Operation ω β)) (q : Request) :
    ∃ id m, (q.run.run (reached w ops).1).1 = .ok id ∧
      (reached w (ops ++ [q.operation])).1.managerAt? id = some m ∧ m.closed = false ∧
      (m.scope, m.uri) = q.key ∧
      (∃ before after, ∃ creator : Request, ops ++ [q.operation] = before ++
        creator.operation :: after ∧
        (reached w before).1.managerAt? id = none ∧
        (creator.run.run (reached w before).1).1 = .ok id ∧
        m.properties = creator.settings) ∧
      ∀ before between, ∀ earlier : Request, ∀ other, ops = before ++ earlier.operation :: between →
        (earlier.run.run (reached w before).1).1 = .ok other →
        ((reached w ops).1.IsOpen other ↔ ∀ op ∈ between, ¬op.Closes earlier.key other) ∧
          (id = other ↔ earlier.key = q.key ∧ ∀ op ∈ between, ¬op.Closes earlier.key other) := by
  have h := tidy_reached w ops
  obtain ⟨id, m, hid, hm, hopen, hkey, honly⟩ := h.exists_answer (Operation.shared_runAll ops _) q
  rw [← reached_request] at hm
  refine ⟨id, m, hid, hm, hopen, hkey, exists_creator w _ hm, ?_⟩
  rintro before between earlier other rfl hother
  obtain ⟨n, hn, hnkey, hnopen⟩ := isOpen_since w before between hother
  constructor
  · rw [← hnopen]
    constructor
    · rintro ⟨n', hn', hclosed⟩
      obtain rfl := Option.some.inj (hn.symm.trans hn')
      exact hclosed
    · exact fun hclosed => ⟨n, hn, hclosed⟩
  · rw [← hnopen]
    constructor
    · rintro rfl
      -- The call is one more operation since the earlier one, so what is open after it was not
      -- closed by any.
      obtain ⟨m', hm', hmkey, hmopen⟩ := isOpen_since w before (between ++ [q.operation]) hother
      rw [← List.cons_append, ← List.append_assoc, hm] at hm'
      obtain rfl := Option.some.inj hm'
      exact ⟨hmkey.symm.trans hkey, hnopen.2 fun op hop => hmopen.1 hopen op
        (List.mem_append_left _ hop)⟩
    · rintro ⟨hsame, hclosed⟩
      exact (honly other n hn (hnkey.trans hsame) hclosed).symm

theorem request_runAll_default :
    let plain : Request := ⟨0, none, none, some [("k", "v")]⟩
    let named : Request := ⟨1, some defaultUri, some 0, none⟩
    let asks : Operation Unit Unit := plain.operation
    let shuts : Operation Unit Unit := .onManager 0 .close
    (named.run.run (reached () [asks]).1).1 = .ok 0 ∧
      ∃ id, (named.run.run (reached () [asks, shuts]).1).1 = .ok id ∧ id ≠ 0 := by
  intro plain named asks shuts
  constructor
  · obtain ⟨id, m, hid, -, -, -, -, hearlier⟩ := request_runAll () [asks] named
    obtain rfl : id = 0 := (hearlier [] [] plain 0 rfl rfl).2.2 ⟨rfl, List.forall_mem_nil _⟩
    exact hid
  · obtain ⟨id, m, hid, -, -, -, -, hearlier⟩ := request_runAll () [asks, shuts] named
    refine ⟨id, hid, fun hsame => ?_⟩
    exact ((hearlier [] [shuts] plain 0 rfl rfl).2.1 hsame).2 shuts List.mem_cons_self
      ⟨rfl, trivial⟩

end EntryCache.Provider
