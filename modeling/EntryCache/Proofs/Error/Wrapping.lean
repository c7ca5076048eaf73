import EntryCache.Error
import Mathlib.Data.List.Chain

namespace EntryCache

namespace Error

variable {e : Error} {w : Component}

/-- The chain of a failure is what asking for the cause over and over comes to: it ends, and it ends
in the first failure. -/
structure Traced (e : Error) : Prop where
  head : e.chain.head? = some e
  linked : e.chain.IsChain fun outer inner => outer.cause = some inner
  last : e.chain.getLast? = some e.rootCause
  root : e.rootCause.cause = none

@[simp] theorem head?_chain (e : Error) : e.chain.head? = some e := by
  rw [chain_eq_cons]
  rfl

theorem isChain_cons_chain {outer inner : Error} (h : outer.cause = some inner)
    (hinner : inner.chain.IsChain fun outer inner => outer.cause = some inner) :
    (outer :: inner.chain).IsChain fun outer inner => outer.cause = some inner := by
  apply hinner.cons
  intro next hnext
  rw [head?_chain, Option.mem_some] at hnext
  rw [h, hnext]

theorem isChain_chain : (e : Error) → e.chain.IsChain fun outer inner => outer.cause = some inner
  | .wrapped _ _ e => isChain_cons_chain rfl (isChain_chain e)
  | .execution e => isChain_cons_chain rfl (isChain_chain e)
  | .plain _ _ => .singleton _
  | .raised _ _ => .singleton _
  | .shutdown _ => .singleton _
  | .typeMismatch _ _ => .singleton _

theorem cause_rootCause : (e : Error) → e.rootCause.cause = none
  | .wrapped _ _ e => cause_rootCause e
  | .execution e => cause_rootCause e
  | .plain _ _ => rfl
  | .raised _ _ => rfl
  | .shutdown _ => rfl
  | .typeMismatch _ _ => rfl

theorem traced (e : Error) : e.Traced where
  head := e.head?_chain
  linked := e.isChain_chain
  last := e.getLast?_chain
  root := e.cause_rootCause

theorem chain_attributeTo_of_ne (h : e.kind ≠ .component w) :
    (e.attributeTo w).chain = e.attributeTo w :: e.chain := by
  rw [attributeTo_of_ne h]
  rfl

theorem message_attributeTo_of_ne (h : e.kind ≠ .component w) :
    (e.attributeTo w).message = w.label ++ e.message := by
  rw [attributeTo_of_ne h]
  rfl

end Error

/-- What is put around a failure: a component that it is reported to come out of, or an execution
that fails with it. -/
inductive Wrapper : Type
  | component : Component → Wrapper
  | execution
  deriving DecidableEq

namespace Wrapper

def wrap : Wrapper → Error → Error
  | .component w, e => e.attributeTo w
  | .execution, e => .execution e

def wrapAll (vs : List Wrapper) (e : Error) : Error := vs.foldl (fun e v => v.wrap e) e

def kind : Wrapper → Kind
  | .component w => .component w
  | .execution => .execution

def label : Wrapper → String
  | .component w => w.label
  | .execution => "Execution failed: "

def Adds : Wrapper → Kind → Prop
  | .component w, k => k ≠ .component w
  | .execution, _ => True

instance : (v : Wrapper) → (k : Kind) → Decidable (v.Adds k)
  | .component w, k => inferInstanceAs (Decidable (k ≠ .component w))
  | .execution, _ => isTrue trivial

/-- Of wrappers put one after the other around a failure of a kind, those that add themselves,
outermost first. -/
def added : Kind → List Wrapper → List Wrapper
  | _, [] => []
  | k, v :: vs => added v.kind vs ++ if v.Adds k then [v] else []

/-- What a failure with wrappers around it keeps of the failure inside. -/
structure Keeps (vs : List Wrapper) (e : Error) (e' : Error) : Prop where
  root : e'.rootCause = e.rootCause
  chain : ∃ outer, e'.chain = outer ++ e.chain ∧ outer.map Error.kind = (added e.kind vs).map kind
  message : e'.message = String.join ((added e.kind vs).map label) ++ e.message

variable {v : Wrapper} {vs : List Wrapper} {e : Error}

@[simp] theorem kind_wrap (v : Wrapper) (e : Error) : (v.wrap e).kind = v.kind := by
  cases v with
  | component w => exact e.kind_attributeTo w
  | execution => rfl

@[simp] theorem rootCause_wrap (v : Wrapper) (e : Error) : (v.wrap e).rootCause = e.rootCause := by
  cases v with
  | component w => exact e.rootCause_attributeTo w
  | execution => rfl

theorem wrap_of_not_adds (h : ¬v.Adds e.kind) : v.wrap e = e := by
  cases v with
  | component w => exact Error.attributeTo_of_kind (Decidable.not_not.1 h)
  | execution => exact absurd trivial h

theorem chain_wrap (h : v.Adds e.kind) : (v.wrap e).chain = v.wrap e :: e.chain := by
  cases v with
  | component w => exact Error.chain_attributeTo_of_ne h
  | execution => rfl

theorem message_wrap (h : v.Adds e.kind) : (v.wrap e).message = v.label ++ e.message := by
  cases v with
  | component w => exact Error.message_attributeTo_of_ne h
  | execution => rfl

theorem added_of_adds {k : Kind} (h : v.Adds k) (vs : List Wrapper) :
    added k (v :: vs) = added v.kind vs ++ [v] := by
  rw [added, if_pos h]

theorem added_of_not_adds {k : Kind} (h : ¬v.Adds k) (vs : List Wrapper) :
    added k (v :: vs) = added v.kind vs := by
  rw [added, if_neg h, List.append_nil]

theorem Keeps.cons {e' : Error} (h : Keeps vs (v.wrap e) e') : Keeps (v :: vs) e e' := by
  obtain ⟨hroot, ⟨outer, hchain, hkinds⟩, hmessage⟩ := h
  rw [rootCause_wrap] at hroot
  rw [kind_wrap] at hkinds hmessage
  by_cases hadds : v.Adds e.kind
  · rw [chain_wrap hadds] at hchain
    rw [message_wrap hadds] at hmessage
    refine ⟨hroot, ⟨outer ++ [v.wrap e], ?_, ?_⟩, ?_⟩
    · simp [hchain]
    · simp [added_of_adds hadds, hkinds]
    · simp [added_of_adds hadds, hmessage, String.append_assoc]
  · rw [wrap_of_not_adds hadds] at hchain hmessage
    rw [← added_of_not_adds hadds] at hkinds hmessage
    exact ⟨hroot, ⟨outer, hchain, hkinds⟩, hmessage⟩

theorem keeps_wrapAll (vs : List Wrapper) (e : Error) : Keeps vs e (wrapAll vs e) := by
  induction vs generalizing e with
  | nil => exact ⟨rfl, ⟨[], rfl, rfl⟩, String.empty_append.symm⟩
  | cons v vs ih => exact (ih (v.wrap e)).cons

/-- Whatever is put around a failure keeps its causes and its text. A component adds itself to
failures of other kinds, an execution to all, and each stands once in the chain and once in the
text. -/
theorem wrapping_keeps (e : Error) :
    e.Traced ∧
    (∀ vs, Keeps vs e (wrapAll vs e)) ∧
    (∀ w, e.kind = .component w → e.attributeTo w = e) ∧
    (∀ w, e.kind ≠ .component w → (e.attributeTo w).chain = e.attributeTo w :: e.chain) ∧
    (Error.execution e).chain = .execution e :: e.chain :=
  ⟨e.traced, fun vs => keeps_wrapAll vs e, fun _ => Error.attributeTo_of_kind,
    fun _ => Error.chain_attributeTo_of_ne, rfl⟩

theorem wrapping_keeps_refused :
    let e := Error.raised .loader "connection refused"
    let vs : List Wrapper := [.component .loader, .execution, .execution, .component .loader,
      .component .loader,
      .component .writer]
    e.kind = .component .loader ∧ e.attributeTo .loader = e ∧
      e.kind ≠ .component .writer ∧ (e.attributeTo .writer).chain = [e.attributeTo .writer, e] ∧
      added e.kind vs = [.component .writer, .component .loader, .execution, .execution] ∧
      (wrapAll vs e).message =
        "Cache writer error: Cache loader error: Execution failed: Execution failed: " ++
        "Cache loader error: connection refused" := by
  intro e vs
  have hloader : e.kind = .component .loader := rfl
  have hwriter : e.kind ≠ .component .writer := by decide
  obtain ⟨-, hkeeps, hsame, hnew, -⟩ := wrapping_keeps e
  exact ⟨hloader, hsame .loader hloader, hwriter,
    hnew .writer hwriter, by decide, (hkeeps vs).message.trans (by decide)⟩

end Wrapper

end EntryCache
