import Mathlib.Data.List.Nodup
import Mathlib.Data.List.ReduceOption
import ThrSocket.Clist
import ThrSocket.System

/-!
`fired_queue`: the list of the events that `cevents_poll` has fired and no worker
has popped. An event is cloned when it is pushed on the left, and copied and
released when it is popped on the right. The lock makes each of the two one step.
-/

namespace ThrSocket

structure FiredQueue where
  list : Clist Nat
  events : BlockHeap Fired

inductive QueueOp
  | push (fired : Fired)
  | pop
deriving DecidableEq

namespace FiredQueue
open Clist

/-- `fired_queue` as `cevents_create` leaves it. -/
def create : FiredQueue := ⟨.create, .empty⟩

def cloneCeventFired (q : FiredQueue) (fired : Fired) : FiredQueue × Nat :=
  ({ q with events := (q.events.alloc fired).1 }, (q.events.alloc fired).2)

def ceventsPushFired (q : FiredQueue) (fevt : Nat) : Option FiredQueue := do
  let list ← q.list.lpush (some fevt)
  some { q with list := list }

/-- Where the return value is 0 there is no event. -/
def ceventsPopFired (q : FiredQueue) : Option (FiredQueue × Option Fired) := do
  let (list, fevt) ← q.list.rpop
  match fevt with
  | none => some ({ q with list := list }, none)
  | some fevt =>
      let fired ← q.events.get fevt
      some (⟨list, q.events.free fevt⟩, some fired)

def step (q : FiredQueue) : QueueOp → Option (FiredQueue × Option Fired)
  | .push fired =>
      let (q, fevt) := q.cloneCeventFired fired
      (q.ceventsPushFired fevt).map (·, none)
  | .pop => q.ceventsPopFired

def pushedBy : List QueueOp → List Fired
  | [] => []
  | .push fired :: ops => fired :: pushedBy ops
  | .pop :: ops => pushedBy ops

inductive FifoStep : List Fired → QueueOp → Option Fired → List Fired → Prop
  | push (pending : List Fired) (fired : Fired) :
      FifoStep pending (.push fired) none (pending ++ [fired])
  | pop_empty : FifoStep [] .pop none []
  | pop (fired : Fired) (pending : List Fired) :
      FifoStep (fired :: pending) .pop (some fired) pending

/-- What is delivered and what is left are what was pushed, in order and each once. -/
theorem fifo_delivers {pending rest : List Fired} {ops : List QueueOp} {os : List (Option Fired)}
    (h : Machine.SpecRun FifoStep pending ops os rest) :
    pending ++ pushedBy ops = os.reduceOption ++ rest := by
  induction h with
  | nil => simp [pushedBy]
  | cons first _ ih =>
      cases first with
      | push pending fired =>
          rw [pushedBy, List.reduceOption_cons_of_none, ← ih]
          simp
      | pop_empty =>
          rw [pushedBy, List.reduceOption_cons_of_none, ← ih]
      | pop fired pending =>
          rw [pushedBy, List.reduceOption_cons_of_some, List.cons_append, List.cons_append, ← ih]

/-- The items of the list point at the pending events, the newest first, and no other event is
allocated. -/
structure Holds (q : FiredQueue) (fevts : List Nat) (pending : List Fired) : Prop where
  list : ∃ l, q.list.Holds l ∧ l.map Prod.snd = fevts.map some
  nodup : fevts.Nodup
  events : fevts.map q.events.get = pending.reverse.map some
  live : ∀ p, q.events.get p ≠ none → p ∈ fevts

theorem create_holds : Holds create [] [] where
  list := ⟨[], Clist.create_holds, rfl⟩
  nodup := List.nodup_nil
  events := rfl
  live _ hp := absurd rfl hp

variable {q : FiredQueue} {fevts : List Nat} {fired : Fired} {pending : List Fired}

theorem Holds.live_of_mem (hq : Holds q fevts pending) {p : Nat} (hp : p ∈ fevts) :
    ∃ fired, q.events.get p = some fired := by
  have hmem : q.events.get p ∈ pending.reverse.map some := by
    rw [← hq.events]
    exact List.mem_map_of_mem hp
  obtain ⟨fired, -, hfired⟩ := List.mem_map.mp hmem
  exact ⟨fired, hfired.symm⟩

theorem push_holds (hq : Holds q fevts pending) (fired : Fired) :
    ∃ q' fevt, step q (.push fired) = some (q', none) ∧
      Holds q' (fevt :: fevts) (pending ++ [fired]) := by
  obtain ⟨l, hl, hdata⟩ := hq.list
  obtain ⟨list, x, hpush, -, hl'⟩ := Clist.lpush_holds hl (some (q.events.alloc fired).2)
  have hold : ∀ p ∈ fevts, (q.events.alloc fired).1.get p = q.events.get p := by
    intro p hp
    obtain ⟨f, hf⟩ := hq.live_of_mem hp
    rw [hf]
    exact BlockHeap.alloc_get_of_some hf
  have hfresh : (q.events.alloc fired).2 ∉ fevts := by
    intro hmem
    obtain ⟨f, hf⟩ := hq.live_of_mem hmem
    exact absurd (BlockHeap.lt_next hf) (Nat.lt_irrefl _)
  refine ⟨⟨list, (q.events.alloc fired).1⟩, (q.events.alloc fired).2, ?_, ⟨_, hl', ?_⟩, ?_, ?_, ?_⟩
  · simp [step, cloneCeventFired, ceventsPushFired, hpush]
  · rw [List.map_cons, List.map_cons, hdata]
  · exact List.nodup_cons.mpr ⟨hfresh, hq.nodup⟩
  · rw [List.map_cons, BlockHeap.alloc_get_self, List.map_congr_left hold, hq.events]
    simp
  · intro p hp
    by_cases hpx : p = (q.events.alloc fired).2
    · exact hpx ▸ List.mem_cons_self
    · refine List.mem_cons_of_mem _ (hq.live p fun hnone => hp ?_)
      exact (Function.update_of_ne hpx ..).trans hnone

theorem pop_holds (hq : Holds q fevts (fired :: pending)) :
    ∃ q' fevts', step q .pop = some (q', some fired) ∧ Holds q' fevts' pending := by
  obtain ⟨l, hl, hdata⟩ := hq.list
  have hevents := hq.events
  rw [List.reverse_cons, List.map_append, List.map_singleton] at hevents
  obtain ⟨fevts', tl, rfl, hfevts, htl⟩ := List.map_eq_append_iff.mp hevents
  obtain ⟨fevt, rfl, hget⟩ := List.map_eq_singleton_iff.mp htl
  rw [List.map_append, List.map_singleton] at hdata
  obtain ⟨l', tl, rfl, hl₁, htl⟩ := List.map_eq_append_iff.mp hdata
  obtain ⟨⟨x, d⟩, rfl, rfl⟩ := List.map_eq_singleton_iff.mp htl
  obtain ⟨list, hpop, hl'⟩ := Clist.rpop_holds hl
  have hnodup := (List.perm_append_singleton fevt fevts').nodup_iff.mp hq.nodup
  obtain ⟨hfresh, hnodup'⟩ := List.nodup_cons.mp hnodup
  have hother : ∀ p, p ≠ fevt → (q.events.free fevt).get p = q.events.get p := fun p hp =>
    Function.update_of_ne hp ..
  refine ⟨⟨list, q.events.free fevt⟩, fevts', ?_, ⟨l', hl', hl₁⟩, hnodup', ?_, ?_⟩
  · simp [step, ceventsPopFired, hpop, hget]
  · rw [List.map_congr_left fun p hp => hother p (ne_of_mem_of_not_mem hp hfresh), hfevts]
  · intro p hp
    have hne : p ≠ fevt := by
      rintro rfl
      exact hp (Function.update_self ..)
    have hmem := hq.live p (hother p hne ▸ hp)
    simpa [hne] using hmem

theorem step_refines (op : QueueOp) (hq : Holds q fevts pending) :
    ∃ q' o pending', step q op = some (q', o) ∧ FifoStep pending op o pending' ∧
      ∃ fevts', Holds q' fevts' pending' := by
  cases op with
  | push fired =>
      obtain ⟨q', fevt, hstep, hq'⟩ := push_holds hq fired
      exact ⟨q', none, _, hstep, .push pending fired, _, hq'⟩
  | pop =>
      cases pending with
      | nil =>
          obtain ⟨l, hl, hdata⟩ := hq.list
          have hfevts : fevts = [] := List.map_eq_nil_iff.mp hq.events
          subst hfevts
          obtain rfl := List.map_eq_nil_iff.mp hdata
          refine ⟨q, none, [], ?_, .pop_empty, [], hq⟩
          simp [step, ceventsPopFired, rpop, hl.count]
      | cons fired pending =>
          obtain ⟨q', fevts', hstep, hq'⟩ := pop_holds hq
          exact ⟨q', some fired, pending, hstep, .pop fired pending, fevts', hq'⟩

theorem run_refines (ops : List QueueOp) :
    ∃ q os rest, Machine.run step create ops = some (q, os) ∧
      Machine.SpecRun FifoStep [] ops os rest ∧ ∃ fevts, Holds q fevts rest :=
  Machine.run_total_refines FifoStep (R := fun q pending => ∃ fevts, Holds q fevts pending)
    (G := fun _ _ => True) (fun ⟨_, hq⟩ _ => step_refines _ hq) ⟨[], create_holds⟩
    (Machine.along_of_forall (L := fun _ => True) (fun _ _ _ => trivial) fun _ _ => trivial)

end FiredQueue

/-- What a clist is after any operations, and what its use for `fired_queue` comes to. -/
theorem clist_deque :
    (∀ (α : Type) (ops : List (ClistOp α)), ∃ cl os l,
      Machine.run Clist.step .create ops = some (cl, os) ∧
        Machine.SpecRun Clist.DequeStep [] ops os l ∧ cl.Holds l ∧
        (cl.head = none ↔ cl.count = 0) ∧
        (∀ x ∈ l.map Prod.fst,
          (∃ y ∈ l.map Prod.fst, cl.items.nextOf x = some y ∧ cl.items.prevOf y = some x) ∧
          ∃ y ∈ l.map Prod.fst, cl.items.prevOf x = some y ∧ cl.items.nextOf y = some x) ∧
        ((∀ op ∈ ops, op.pushesNull = false) →
          Machine.Along Clist.step Clist.NullOnEmpty .create ops)) ∧
      ∀ ops : List QueueOp, ∃ q os rest,
        Machine.run FiredQueue.step .create ops = some (q, os) ∧
          Machine.SpecRun FiredQueue.FifoStep [] ops os rest ∧
          FiredQueue.pushedBy ops = os.reduceOption ++ rest := by
  constructor
  · intro α ops
    obtain ⟨cl, os, l, hrun, hspec, hcl⟩ := Clist.run_refines ops Clist.create_holds
    refine ⟨cl, os, l, hrun, hspec, hcl, ?_, fun x hx => hcl.ring.inverse hx,
      Clist.nullOnEmpty_along⟩
    rw [hcl.head, hcl.count, List.head?_eq_none_iff, List.map_eq_nil_iff, List.length_eq_zero_iff]
  · intro ops
    obtain ⟨q, os, rest, hrun, hspec, -⟩ := FiredQueue.run_refines ops
    exact ⟨q, os, rest, hrun, hspec, FiredQueue.fifo_delivers hspec⟩

end ThrSocket
