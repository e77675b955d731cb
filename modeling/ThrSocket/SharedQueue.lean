import ThrSocket.ClistAccess
import ThrSocket.FiredQueue
import ThrSocket.SpinLock

/-!
`fired_queue` between threads: `cevents_push_fired` of a clone and `cevents_pop_fired`, one
access to memory at a time. Only the list is under `qlock`; an event is written before it
is pushed and read after it is popped without the lock.
-/

namespace ThrSocket

open Critical

inductive ListOp
  | push (fevt : Nat)
  | pop
deriving DecidableEq

namespace ListOp

variable (junk : Nat → ClistItem Nat)

def body : ListOp → Prog (Clist Nat) (Option Nat)
  | .push fevt => do
      ClistAccess.clistLpush junk (some fevt)
      return none
  | .pop => ClistAccess.clistRpop

def Points (cl : Clist Nat) (fevts : List Nat) : Prop :=
  ∃ l, cl.Holds l ∧ l.map Prod.snd = fevts.map some

def Spec (fevts : List Nat) : ListOp → Option Nat → List Nat → Prop
  | .push fevt, r, fevts' => r = none ∧ fevts' = fevt :: fevts
  | .pop, r, fevts' => r = fevts.getLast? ∧ fevts' = fevts.dropLast

theorem meets : Meets (body junk) Points Spec := by
  rintro cl fevts op ⟨l, hl, hdata⟩
  cases op with
  | push fevt =>
      obtain ⟨cl', x, hpush, -, hl'⟩ := Clist.lpush_holds hl (some fevt)
      refine ⟨none, cl', fevt :: fevts, ?_, ⟨rfl, rfl⟩, _, hl', ?_⟩
      · simp [body, ClistAccess.exec_clistLpush, hpush]
      · simp [hdata]
  | pop =>
      rw [body, ClistAccess.exec_clistRpop]
      obtain rfl | ⟨fevts', fevt, rfl⟩ := List.eq_nil_or_concat' fevts
      · obtain rfl := List.map_eq_nil_iff.mp hdata
        refine ⟨none, cl, [], ?_, ⟨rfl, rfl⟩, [], hl, rfl⟩
        simp [Clist.rpop, hl.count]
      · rw [List.map_append, List.map_singleton] at hdata
        obtain ⟨l', tl, rfl, hl', htl⟩ := List.map_eq_append_iff.mp hdata
        obtain ⟨⟨x, d⟩, rfl, rfl⟩ := List.map_eq_singleton_iff.mp htl
        obtain ⟨cl', hpop, hcl'⟩ := Clist.rpop_holds hl
        refine ⟨some fevt, cl', fevts', ?_, ⟨?_, ?_⟩, l', hcl', hl'⟩
        · simp [hpop]
        · simp
        · simp

end ListOp

/-- Where a thread is in the code around the lock. -/
inductive QueuePhase
  | idle
  /-- about to allocate the clone -/
  | cloning (fired : Fired)
  /-- about to write the clone -/
  | filling (fevt : Nat) (fired : Fired)
  /-- from LOCK to UNLOCK -/
  | pushing (fevt : Nat) (fired : Fired)
  | popping
  /-- about to test and read what was popped -/
  | copying (fevt : Option Nat)
  /-- about to release it -/
  | freeing (fevt : Nat) (fired : Fired)
deriving DecidableEq

/-- An UNLOCK that ends a push or a pop, with what the popped block holds then, and the return of
`cevents_pop_fired` with what it has copied. -/
inductive QueueObs (ι : Type)
  | quiet
  | unlocked (i : ι) (op : QueueOp) (r : Option Fired)
  | returned (i : ι) (r : Option Fired)
deriving DecidableEq

inductive QueueLabel (ι : Type)
  | push (i : ι) (fired : Fired)
  | pop (i : ι)
  | tick (i : ι)

structure SharedQueue (L : LockProc) (ι : Type) : Type 1 where
  list : State L ι (Clist Nat) ListOp (Option Nat)
  events : BlockHeap Fired
  phase : ι → QueuePhase

namespace QueuePhase

def op : QueuePhase → Option ListOp
  | .pushing fevt _ => some (.push fevt)
  | .popping => some .pop
  | _ => none

def owns : QueuePhase → Option Nat
  | .filling fevt _ | .pushing fevt _ | .copying (some fevt) | .freeing fevt _ => some fevt
  | _ => none

def knows : QueuePhase → Option Fired
  | .pushing _ fired | .freeing _ fired => some fired
  | _ => none

end QueuePhase

/-- Each allocated event belongs to the list or to one thread. -/
structure Owns {ι : Type} (events : BlockHeap Fired) (phase : ι → QueuePhase) (fevts : List Nat)
    (pending : List Fired) : Prop where
  pending : fevts.map events.get = pending.reverse.map some
  nodup : fevts.Nodup
  holds : ∀ i fevt, (phase i).owns = some fevt →
    ∃ fired, events.get fevt = some fired ∧ ∀ f, (phase i).knows = some f → f = fired
  apart : ∀ i fevt, (phase i).owns = some fevt → fevt ∉ fevts
  alone : ∀ i j fevt, (phase i).owns = some fevt → (phase j).owns = some fevt → i = j
  live : ∀ fevt, events.get fevt ≠ none → fevt ∈ fevts ∨ ∃ i, (phase i).owns = some fevt

namespace Owns

variable {ι : Type} [DecidableEq ι] {events : BlockHeap Fired} {phase : ι → QueuePhase}
  {fevts : List Nat} {pending : List Fired} {i : ι} {fevt : Nat} {fired : Fired}

omit [DecidableEq ι] in
theorem start : Owns (ι := ι) .empty (fun _ => .idle) [] [] where
  pending := rfl
  nodup := List.nodup_nil
  holds i fevt h := by cases h
  apart i fevt h := by cases h
  alone i j fevt h := by cases h
  live fevt h := absurd rfl h

omit [DecidableEq ι] in
theorem live_of_mem (h : Owns events phase fevts pending) (hmem : fevt ∈ fevts) :
    ∃ fired, events.get fevt = some fired := by
  have hmap : events.get fevt ∈ pending.reverse.map some := by
    rw [← h.pending]
    exact List.mem_map_of_mem hmem
  obtain ⟨fired, -, hfired⟩ := List.mem_map.mp hmap
  exact ⟨fired, hfired.symm⟩

/-- The thread goes on with the event that it has, or with a new one, or with none. -/
theorem change (h : Owns events phase fevts pending) {events' : BlockHeap Fired} {p : QueuePhase}
    (hother : ∀ q, (phase i).owns ≠ some q → p.owns ≠ some q → events'.get q = events.get q)
    (hnew : ∀ q, p.owns = some q → (phase i).owns = some q ∨ events.get q = none)
    (hold : ∀ q, (phase i).owns = some q → p.owns ≠ some q → events'.get q = none)
    (hholds : ∀ q, p.owns = some q →
      ∃ fired, events'.get q = some fired ∧ ∀ f, p.knows = some f → f = fired) :
    Owns events' (Function.update phase i p) fevts pending := by
  have hapart : ∀ q, p.owns = some q → q ∉ fevts := by
    intro q hq hmem
    cases hnew q hq with
    | inl ho => exact h.apart i q ho hmem
    | inr hnone =>
        obtain ⟨f, hf⟩ := h.live_of_mem hmem
        rw [hnone] at hf
        cases hf
  have halone : ∀ j q, j ≠ i → (phase j).owns = some q → (phase i).owns ≠ some q ∧
      p.owns ≠ some q := by
    intro j q hj hq
    refine ⟨fun ho => hj (h.alone j i q hq ho), fun ho => ?_⟩
    cases hnew q ho with
    | inl ho => exact hj (h.alone j i q hq ho)
    | inr hnone =>
        obtain ⟨f, hf, -⟩ := h.holds j q hq
        rw [hnone] at hf
        cases hf
  refine ⟨?_, h.nodup, ?_, ?_, ?_, ?_⟩
  · rw [← h.pending]
    refine List.map_congr_left fun q hq => hother q (fun ho => h.apart i q ho hq) fun ho => ?_
    exact hapart q ho hq
  · intro j q hq
    by_cases hj : j = i
    · subst hj
      rw [Function.update_self] at hq ⊢
      exact hholds q hq
    · rw [Function.update_of_ne hj] at hq ⊢
      obtain ⟨ho, hp⟩ := halone j q hj hq
      rw [hother q ho hp]
      exact h.holds j q hq
  · intro j q hq
    by_cases hj : j = i
    · subst hj
      rw [Function.update_self] at hq
      exact hapart q hq
    · rw [Function.update_of_ne hj] at hq
      exact h.apart j q hq
  · intro j k q hq hk
    by_cases hj : j = i <;> by_cases hk' : k = i
    · exact hj.trans hk'.symm
    · subst hj
      rw [Function.update_self] at hq
      rw [Function.update_of_ne hk'] at hk
      exact absurd hq (halone k q hk' hk).2
    · subst hk'
      rw [Function.update_self] at hk
      rw [Function.update_of_ne hj] at hq
      exact absurd hk (halone j q hj hq).2
    · rw [Function.update_of_ne hj] at hq
      rw [Function.update_of_ne hk'] at hk
      exact h.alone j k q hq hk
  · intro q hq
    by_cases hp : p.owns = some q
    · exact .inr ⟨i, by rw [Function.update_self]; exact hp⟩
    · have ho : (phase i).owns ≠ some q := fun ho => hq (hold q ho hp)
      rw [hother q ho hp] at hq
      cases h.live q hq with
      | inl hmem => exact .inl hmem
      | inr hex =>
          obtain ⟨j, hj⟩ := hex
          have hne : j ≠ i := by
            rintro rfl
            exact ho hj
          exact .inr ⟨j, by rw [Function.update_of_ne hne]; exact hj⟩

/-- Between phases without an event. -/
theorem skip (h : Owns events phase fevts pending) {p : QueuePhase} (hi : (phase i).owns = none)
    (hp : p.owns = none) : Owns events (Function.update phase i p) fevts pending := by
  refine h.change (fun _ _ _ => rfl) ?_ ?_ ?_
  · intro q hq
    rw [hp] at hq
    cases hq
  · intro q hq
    rw [hi] at hq
    cases hq
  · intro q hq
    rw [hp] at hq
    cases hq

theorem alloc (h : Owns events phase fevts pending) (b : Fired) (hi : (phase i).owns = none) :
    Owns (events.alloc b).1 (Function.update phase i (.filling (events.alloc b).2 fired)) fevts
      pending := by
  refine h.change ?_ ?_ ?_ ?_
  · intro q _ hq
    have hne : q ≠ events.next := by
      rintro rfl
      exact hq rfl
    exact Function.update_of_ne hne ..
  · rintro q hq
    cases hq
    exact .inr (events.fresh _ (Nat.le_refl _))
  · intro q hq
    rw [hi] at hq
    cases hq
  · rintro q hq
    cases hq
    refine ⟨b, BlockHeap.alloc_get_self .., fun f hf => ?_⟩
    cases hf

theorem fill (h : Owns events phase fevts pending) (hi : phase i = .filling fevt fired) :
    ∃ events', events.set fevt fired = some events' ∧
      Owns events' (Function.update phase i (.pushing fevt fired)) fevts pending := by
  have ho : (phase i).owns = some fevt := by
    rw [hi]
    rfl
  obtain ⟨b, hb, -⟩ := h.holds i fevt ho
  obtain ⟨events', hset, hget⟩ := BlockHeap.set_of_some (b := fired) hb
  refine ⟨events', hset, h.change ?_ ?_ ?_ ?_⟩
  · intro q _ hq
    have hne : q ≠ fevt := by
      rintro rfl
      exact hq rfl
    rw [hget, Function.update_of_ne hne]
  · rintro q hq
    cases hq
    exact .inl ho
  · intro q hq hne
    rw [ho] at hq
    exact absurd hq hne
  · rintro q hq
    cases hq
    refine ⟨fired, by rw [hget, Function.update_self], fun f hf => ?_⟩
    exact (Option.some.inj hf).symm

theorem copy (h : Owns events phase fevts pending) (hi : phase i = .copying (some fevt)) :
    ∃ fired, events.get fevt = some fired ∧
      Owns events (Function.update phase i (.freeing fevt fired)) fevts pending := by
  have ho : (phase i).owns = some fevt := by
    rw [hi]
    rfl
  obtain ⟨fired, hget, -⟩ := h.holds i fevt ho
  refine ⟨fired, hget, h.change (fun _ _ _ => rfl) ?_ ?_ ?_⟩
  · rintro q hq
    cases hq
    exact .inl ho
  · intro q hq hne
    rw [ho] at hq
    exact absurd hq hne
  · rintro q hq
    cases hq
    exact ⟨fired, hget, fun f hf => (Option.some.inj hf).symm⟩

theorem release (h : Owns events phase fevts pending) (hi : phase i = .freeing fevt fired) :
    events.get fevt = some fired ∧
      Owns (events.free fevt) (Function.update phase i .idle) fevts pending := by
  have ho : (phase i).owns = some fevt := by
    rw [hi]
    rfl
  obtain ⟨f, hget, hknows⟩ := h.holds i fevt ho
  obtain rfl := hknows fired (by rw [hi]; rfl)
  refine ⟨hget, h.change ?_ ?_ ?_ ?_⟩
  · intro q hq _
    have hne : q ≠ fevt := by
      rintro rfl
      exact hq ho
    exact Function.update_of_ne hne ..
  · intro q hq
    cases hq
  · intro q hq _
    rw [ho] at hq
    cases hq
    exact Function.update_self ..
  · intro q hq
    cases hq

/-- The event goes from the thread to the list. -/
theorem pushed (h : Owns events phase fevts pending) (hi : phase i = .pushing fevt fired) :
    Owns events (Function.update phase i .idle) (fevt :: fevts) (pending ++ [fired]) := by
  have ho : (phase i).owns = some fevt := by
    rw [hi]
    rfl
  obtain ⟨f, hget, hknows⟩ := h.holds i fevt ho
  obtain rfl := hknows fired (by rw [hi]; rfl)
  have hphase : ∀ j q, (Function.update phase i QueuePhase.idle j).owns = some q →
      j ≠ i ∧ (phase j).owns = some q := by
    intro j q hq
    by_cases hj : j = i
    · subst hj
      rw [Function.update_self] at hq
      cases hq
    · rw [Function.update_of_ne hj] at hq
      exact ⟨hj, hq⟩
  refine ⟨?_, List.nodup_cons.mpr ⟨h.apart i fevt ho, h.nodup⟩, ?_, ?_, ?_, ?_⟩
  · simp [hget, h.pending]
  · intro j q hq
    obtain ⟨hj, hq⟩ := hphase j q hq
    rw [Function.update_of_ne hj]
    exact h.holds j q hq
  · intro j q hq hmem
    obtain ⟨hj, hq⟩ := hphase j q hq
    cases List.mem_cons.mp hmem with
    | inl heq =>
        subst heq
        exact hj (h.alone j i q hq ho)
    | inr hmem => exact h.apart j q hq hmem
  · intro j k q hq hk
    exact h.alone j k q (hphase j q hq).2 (hphase k q hk).2
  · intro q hq
    cases h.live q hq with
    | inl hmem => exact .inl (List.mem_cons_of_mem _ hmem)
    | inr hex =>
        obtain ⟨j, hj⟩ := hex
        by_cases hji : j = i
        · subst hji
          rw [ho] at hj
          cases hj
          exact .inl List.mem_cons_self
        · exact .inr ⟨j, by rw [Function.update_of_ne hji]; exact hj⟩

/-- The oldest event goes from the list to the thread. -/
theorem popped (h : Owns events phase (fevts ++ [fevt]) pending) (hi : (phase i).owns = none) :
    ∃ fired rest, pending = fired :: rest ∧ events.get fevt = some fired ∧
      Owns events (Function.update phase i (.copying (some fevt))) fevts rest := by
  have hpending := h.pending
  rw [List.map_append, List.map_singleton] at hpending
  obtain ⟨pre, last, hrev, hpre, hlast⟩ := List.map_eq_append_iff.mp hpending.symm
  obtain ⟨fired, rfl, hget⟩ := List.map_eq_singleton_iff.mp hlast
  have hpop : pending = fired :: pre.reverse := by
    rw [← List.reverse_reverse pending, hrev]
    simp
  have hnodup := (List.perm_append_singleton fevt fevts).nodup_iff.mp h.nodup
  obtain ⟨hfresh, hnodup⟩ := List.nodup_cons.mp hnodup
  have hmem : fevt ∈ fevts ++ [fevt] := List.mem_append_right _ List.mem_cons_self
  have hphase : ∀ j q, (Function.update phase i (.copying (some fevt)) j).owns = some q →
      (j = i ∧ q = fevt) ∨ (j ≠ i ∧ q ≠ fevt ∧ (phase j).owns = some q) := by
    intro j q hq
    by_cases hj : j = i
    · subst hj
      rw [Function.update_self] at hq
      exact .inl ⟨rfl, (Option.some.inj hq).symm⟩
    · rw [Function.update_of_ne hj] at hq
      refine .inr ⟨hj, ?_, hq⟩
      rintro rfl
      exact h.apart j q hq hmem
  refine ⟨fired, pre.reverse, hpop, hget.symm, ?_, hnodup, ?_, ?_, ?_, ?_⟩
  · rw [List.reverse_reverse]
    exact hpre.symm
  · intro j q hq
    obtain ⟨rfl, rfl⟩ | ⟨hj, -, hq⟩ := hphase j q hq
    · refine ⟨fired, hget.symm, fun f hf => ?_⟩
      rw [Function.update_self] at hf
      cases hf
    · rw [Function.update_of_ne hj]
      exact h.holds j q hq
  · intro j q hq hin
    obtain ⟨rfl, rfl⟩ | ⟨-, -, hq⟩ := hphase j q hq
    · exact hfresh hin
    · exact h.apart j q hq (List.mem_append_left _ hin)
  · intro j k q hq hk
    obtain ⟨rfl, rfl⟩ | ⟨hj, hne, hq⟩ := hphase j q hq
    · obtain ⟨rfl, -⟩ | ⟨-, hne, -⟩ := hphase k _ hk
      · rfl
      · exact absurd rfl hne
    · obtain ⟨-, rfl⟩ | ⟨-, -, hk⟩ := hphase k _ hk
      · exact absurd rfl hne
      · exact h.alone j k q hq hk
  · intro q hq
    cases h.live q hq with
    | inl hin =>
        cases List.mem_append.mp hin with
        | inl hin => exact .inl hin
        | inr hin =>
            obtain rfl := List.mem_singleton.mp hin
            exact .inr ⟨i, by rw [Function.update_self]; rfl⟩
    | inr hex =>
        obtain ⟨j, hj⟩ := hex
        have hji : j ≠ i := by
          rintro rfl
          rw [hi] at hj
          cases hj
        exact .inr ⟨j, by rw [Function.update_of_ne hji]; exact hj⟩

end Owns

namespace SharedQueue

variable {L : LockProc} {ι : Type} [DecidableEq ι]

def start : SharedQueue L ι := ⟨.start .create, .empty, fun _ => .idle⟩

def setPhase (s : SharedQueue L ι) (i : ι) (p : QueuePhase) : SharedQueue L ι :=
  { s with phase := Function.update s.phase i p }

variable (junk : Nat → ClistItem Nat) (garbage : Nat → Fired)

def lock (s : SharedQueue L ι) (i : ι) (op : ListOp) (p : QueuePhase) :
    Option (SharedQueue L ι × QueueObs ι) :=
  (Critical.step (ListOp.body junk) s.list (.call i op)).map fun x =>
    ({ s with list := x.1 }.setPhase i p, .quiet)

def step (s : SharedQueue L ι) : QueueLabel ι → Option (SharedQueue L ι × QueueObs ι)
  | .push i fired =>
      match s.phase i with
      | .idle => some (s.setPhase i (.cloning fired), .quiet)
      | _ => some (s, .quiet)
  | .pop i =>
      match s.phase i with
      | .idle => s.lock junk i .pop .popping
      | _ => some (s, .quiet)
  | .tick i =>
      match s.phase i with
      | .idle => some (s, .quiet)
      | .cloning fired =>
          let (events, fevt) := s.events.alloc (garbage s.events.next)
          some ({ s with events := events }.setPhase i (.filling fevt fired), .quiet)
      | .filling fevt fired =>
          (s.events.set fevt fired).bind fun events =>
            { s with events := events }.lock junk i (.push fevt) (.pushing fevt fired)
      | .pushing _ fired =>
          (Critical.step (ListOp.body junk) s.list (.tick i)).map fun x =>
            match x.2 with
            | none => ({ s with list := x.1 }, .quiet)
            | some _ =>
                ({ s with list := x.1 }.setPhase i .idle, .unlocked i (.push fired) none)
      | .popping =>
          (Critical.step (ListOp.body junk) s.list (.tick i)).map fun x =>
            match x.2 with
            | none => ({ s with list := x.1 }, .quiet)
            | some (_, _, fevt) =>
                ({ s with list := x.1 }.setPhase i (.copying fevt),
                  .unlocked i .pop (fevt.bind s.events.get))
      | .copying none => some (s.setPhase i .idle, .returned i none)
      | .copying (some fevt) =>
          (s.events.get fevt).map fun fired => (s.setPhase i (.freeing fevt fired), .quiet)
      | .freeing fevt fired =>
          (s.events.get fevt).map fun _ =>
            ({ s with events := s.events.free fevt }.setPhase i .idle, .returned i (some fired))

structure Inv (s : SharedQueue L ι) (fevts : List Nat) (pending : List Fired)
    (holder : Option ι) : Prop where
  linear : Linear (ListOp.body junk) ListOp.Points s.list fevts holder
  calls : ∀ i, (s.list.threads i).op = (s.phase i).op
  owns : Owns s.events s.phase fevts pending

/-- What `cevents_pop_fired` still has to return after its UNLOCK. -/
def owed (s : SharedQueue L ι) (i : ι) : List (Option Fired) :=
  match s.phase i with
  | .copying none => [none]
  | .copying (some fevt) => [s.events.get fevt]
  | .freeing _ fired => [some fired]
  | _ => []

end SharedQueue

namespace QueueObs

variable {ι : Type} [DecidableEq ι]

def op : QueueObs ι → Option QueueOp
  | .unlocked _ op _ => some op
  | _ => none

def result : QueueObs ι → Option (Option Fired)
  | .unlocked _ _ r => some r
  | _ => none

def found (i : ι) : QueueObs ι → Option (Option Fired)
  | .unlocked j .pop r => if j = i then some r else none
  | _ => none

def answer (i : ι) : QueueObs ι → Option (Option Fired)
  | .returned j r => if j = i then some r else none
  | _ => none

end QueueObs

namespace SharedQueue

variable {L : LockProc} {ι : Type} [DecidableEq ι] {junk : Nat → ClistItem Nat}
  {garbage : Nat → Fired} {s s' : SharedQueue L ι} {fevts : List Nat} {pending : List Fired}
  {holder : Option ι}

omit [DecidableEq ι] in
theorem start_inv : Inv junk (start : SharedQueue L ι) [] [] none where
  linear := start_linear ⟨[], Clist.create_holds, rfl⟩
  calls _ := rfl
  owns := .start

def Effect (pending : List Fired) : QueueObs ι → List Fired → Prop
  | .unlocked _ op r, pending' => FiredQueue.FifoStep pending op r pending'
  | _, pending' => pending' = pending

/-- Of the observations of one step, what they mean for what is owed to each thread. -/
def Settles (s s' : SharedQueue L ι) (o : QueueObs ι) : Prop :=
  ∀ i, s.owed i ++ (o.found i).toList = (o.answer i).toList ++ s'.owed i

theorem settles_of {o : QueueObs ι} (i : ι)
    (hself : s.owed i ++ (o.found i).toList = (o.answer i).toList ++ s'.owed i)
    (hobs : ∀ j ≠ i, o.found j = none ∧ o.answer j = none)
    (hphase : ∀ j ≠ i, s'.phase j = s.phase j)
    (hevents : ∀ j ≠ i, ∀ q, (s.phase j).owns = some q → s'.events.get q = s.events.get q) :
    Settles s s' o := by
  intro j
  by_cases hj : j = i
  · subst hj
    exact hself
  · have howed : s'.owed j = s.owed j := by
      rw [owed, owed, hphase j hj]
      split
      · rfl
      · rename_i fevt hcopy
        rw [hevents j hj fevt (by rw [hcopy]; rfl)]
      · rfl
      · rfl
    rw [(hobs j hj).1, (hobs j hj).2, howed]
    simp

theorem settles_quiet (i : ι) (hself : s'.owed i = s.owed i)
    (hphase : ∀ j ≠ i, s'.phase j = s.phase j)
    (hevents : ∀ j ≠ i, ∀ q, (s.phase j).owns = some q → s'.events.get q = s.events.get q) :
    Settles s s' .quiet :=
  settles_of i (by simp [QueueObs.found, QueueObs.answer, hself]) (fun _ _ => ⟨rfl, rfl⟩) hphase
    hevents

/-- A step of a thread outside the lock. -/
theorem Inv.outside (h : Inv junk s fevts pending holder) {i : ι} {events : BlockHeap Fired}
    {p : QueuePhase} (hop : p.op = (s.phase i).op)
    (howns : Owns events (Function.update s.phase i p) fevts pending) :
    Inv junk ({ s with events := events }.setPhase i p) fevts pending holder where
  linear := h.linear
  calls j := by
    by_cases hj : j = i
    · subst hj
      simp [setPhase, hop, h.calls]
    · simp [setPhase, hj, h.calls]
  owns := howns

theorem Inv.lock (h : Inv junk s fevts pending holder) {i : ι} {events : BlockHeap Fired}
    {p : QueuePhase} {op : ListOp} (hi : (s.phase i).op = none) (hp : p.op = some op)
    (howns : Owns events (Function.update s.phase i p) fevts pending) :
    ∃ s' holder', SharedQueue.lock junk { s with events := events } i op p = some (s', .quiet) ∧
      s'.events = events ∧ s'.phase = Function.update s.phase i p ∧
      Inv junk s' fevts pending holder' := by
  obtain ⟨list, hcall, hself, hother⟩ := Critical.step_call (ListOp.body junk) op
    ((h.calls i).trans hi)
  obtain ⟨fevts', holder', rfl, hlinear⟩ := linear_step (ListOp.meets junk) h.linear hcall
  refine ⟨_, holder', by rw [SharedQueue.lock, hcall]; rfl, rfl, rfl, hlinear, ?_, howns⟩
  intro j
  by_cases hj : j = i
  · subst hj
    simp [setPhase, hself, hp]
  · simp [setPhase, hj, hother, h.calls]

/-- A step under the lock, and the step that gives the lock back. -/
theorem Inv.tick (h : Inv junk s fevts pending holder) {i : ι} (op : ListOp)
    (hi : (s.phase i).op = some op) :
    ∃ list o, Critical.step (ListOp.body junk) s.list (.tick i) = some (list, o) ∧
      ((o = none ∧ ∃ holder', Linear (ListOp.body junk) ListOp.Points list fevts holder' ∧
          ∀ j, (list.threads j).op = (s.phase j).op) ∨
        ∃ r fevts' holder', o = some (i, op, r) ∧ ListOp.Spec fevts op r fevts' ∧
          Linear (ListOp.body junk) ListOp.Points list fevts' holder' ∧
          (list.threads i).op = none ∧ ∀ j ≠ i, (list.threads j).op = (s.phase j).op) := by
  obtain ⟨list, o, hstep⟩ := linear_defined (ListOp.meets junk) h.linear (.tick i)
  obtain ⟨fevts', holder', hcommit, hlinear⟩ := linear_step (ListOp.meets junk) h.linear hstep
  refine ⟨list, o, hstep, ?_⟩
  obtain ⟨rfl, hops⟩ | ⟨k, op', r, rfl, hk, hop', hself, hother⟩ :=
    Critical.step_op hstep (fun _ _ => by simp)
  · obtain rfl : fevts' = fevts := hcommit
    exact .inl ⟨rfl, holder', hlinear, fun j => (hops j).trans (h.calls j)⟩
  · cases hk
    obtain rfl : op' = op := Option.some.inj ((hop'.symm.trans (h.calls i)).trans hi)
    exact .inr ⟨r, fevts', holder', rfl, hcommit, hlinear, hself,
      fun j hj => (hother j hj).trans (h.calls j)⟩

def Steps (junk : Nat → ClistItem Nat) (garbage : Nat → Fired) (s : SharedQueue L ι)
    (pending : List Fired) (l : QueueLabel ι) : Prop :=
  ∃ s' o fevts pending' holder, step junk garbage s l = some (s', o) ∧ Effect pending o pending' ∧
    Settles s s' o ∧ Inv junk s' fevts pending' holder

theorem steps_same (h : Inv junk s fevts pending holder) {l : QueueLabel ι}
    (hstep : step junk garbage s l = some (s, .quiet)) : Steps junk garbage s pending l :=
  ⟨s, .quiet, fevts, pending, holder, hstep, rfl, fun i => by
    simp [QueueObs.found, QueueObs.answer], h⟩

/-- A thread goes on outside the lock. -/
theorem steps_outside (h : Inv junk s fevts pending holder) {l : QueueLabel ι} {i : ι}
    (events : BlockHeap Fired) {p : QueuePhase} {o : QueueObs ι}
    (hstep : step junk garbage s l = some ({ s with events := events }.setPhase i p, o))
    (hop : p.op = (s.phase i).op) (hobs : ∀ j ≠ i, o.found j = none ∧ o.answer j = none)
    (heffect : Effect pending o pending)
    (hself : s.owed i ++ (o.found i).toList =
      (o.answer i).toList ++ ({ s with events := events }.setPhase i p).owed i)
    (hevents : ∀ j ≠ i, ∀ q, (s.phase j).owns = some q → events.get q = s.events.get q)
    (howns : Owns events (Function.update s.phase i p) fevts pending) :
    Steps junk garbage s pending l := by
  refine ⟨_, o, fevts, pending, holder, hstep, heffect,
    settles_of i hself hobs (fun j hj => ?_) hevents, h.outside hop howns⟩
  simp [setPhase, hj]

/-- A thread waits for the lock. -/
theorem steps_lock (h : Inv junk s fevts pending holder) {l : QueueLabel ι} {i : ι}
    (events : BlockHeap Fired) (op : ListOp) {p : QueuePhase}
    (hstep : step junk garbage s l = SharedQueue.lock junk { s with events := events } i op p)
    (hi : (s.phase i).op = none) (hp : p.op = some op)
    (hold : s.owed i = []) (hnew : ({ s with events := events }.setPhase i p).owed i = [])
    (hevents : ∀ j ≠ i, ∀ q, (s.phase j).owns = some q → events.get q = s.events.get q)
    (howns : Owns events (Function.update s.phase i p) fevts pending) :
    Steps junk garbage s pending l := by
  obtain ⟨s', holder', hlock, he, hphase, h'⟩ := h.lock hi hp howns
  refine ⟨s', .quiet, fevts, pending, holder', hstep.trans hlock, rfl,
    settles_quiet i ?_ (fun j hj => ?_) (fun j hj q hq => ?_), h'⟩
  · rw [hold, ← hnew, owed, owed, hphase, he]
    rfl
  · rw [hphase, Function.update_of_ne hj]
  · rw [he]
    exact hevents j hj q hq

theorem steps_pushing (h : Inv junk s fevts pending holder) {i : ι} {fevt : Nat} {fired : Fired}
    (hi : s.phase i = .pushing fevt fired) : Steps junk garbage s pending (.tick i) := by
  obtain ⟨list, o, hlist, ⟨rfl, holder', hlinear, hcalls⟩ |
    ⟨r, fevts', holder', rfl, hspec, hlinear, hself, hother⟩⟩ := h.tick (.push fevt)
      (by rw [hi]; rfl)
  · refine ⟨{ s with list := list }, .quiet, fevts, pending, holder', ?_, rfl,
      settles_quiet i rfl (fun _ _ => rfl) fun _ _ _ _ => rfl, hlinear, hcalls, h.owns⟩
    rw [step, hi]
    simp [hlist]
  · obtain ⟨-, rfl⟩ := hspec
    refine ⟨{ s with list := list }.setPhase i .idle, .unlocked i (.push fired) none,
      fevt :: fevts, pending ++ [fired], holder', ?_, .push pending fired,
      settles_of i ?_ (fun _ _ => ⟨rfl, rfl⟩) (fun j hj => ?_) (fun _ _ _ _ => rfl), hlinear,
      fun j => ?_, h.owns.pushed hi⟩
    · rw [step, hi]
      simp [hlist]
    · simp [owed, hi, setPhase, QueueObs.found, QueueObs.answer]
    · simp [setPhase, hj]
    · by_cases hj : j = i
      · subst hj
        simp [setPhase, hself, QueuePhase.op]
      · simp [setPhase, hj, hother]

theorem steps_popping (h : Inv junk s fevts pending holder) {i : ι} (hi : s.phase i = .popping) :
    Steps junk garbage s pending (.tick i) := by
  obtain ⟨list, o, hlist, ⟨rfl, holder', hlinear, hcalls⟩ |
    ⟨r, fevts', holder', rfl, hspec, hlinear, hself, hother⟩⟩ := h.tick .pop
      (by rw [hi]; rfl)
  · refine ⟨{ s with list := list }, .quiet, fevts, pending, holder', ?_, rfl,
      settles_quiet i rfl (fun _ _ => rfl) fun _ _ _ _ => rfl, hlinear, hcalls, h.owns⟩
    rw [step, hi]
    simp [hlist]
  · obtain ⟨rfl, rfl⟩ := hspec
    have hcalls : ∀ p : QueuePhase, p.op = none → ∀ j,
        (list.threads j).op = (Function.update s.phase i p j).op := by
      intro p hp j
      by_cases hj : j = i
      · subst hj
        simp [hself, hp]
      · simp [hj, hother]
    have hpop : ∃ pending', FiredQueue.FifoStep pending .pop
        (fevts.getLast?.bind s.events.get) pending' ∧
        Owns s.events (Function.update s.phase i (.copying fevts.getLast?)) fevts.dropLast
          pending' := by
      have howns : (s.phase i).owns = none := by
        rw [hi]
        rfl
      obtain rfl | ⟨fevts', fevt, rfl⟩ := List.eq_nil_or_concat' fevts
      · obtain rfl : pending = [] := by simpa using h.owns.pending.symm
        exact ⟨[], .pop_empty, h.owns.skip howns rfl⟩
      · obtain ⟨fired, rest, rfl, hget, hpopped⟩ := h.owns.popped howns
        refine ⟨rest, ?_, by simpa using hpopped⟩
        simpa [hget] using FiredQueue.FifoStep.pop fired rest
    obtain ⟨pending', hfifo, howns⟩ := hpop
    refine ⟨{ s with list := list }.setPhase i (.copying fevts.getLast?),
      .unlocked i .pop (fevts.getLast?.bind s.events.get), fevts.dropLast, pending', holder', ?_,
      hfifo, settles_of i ?_ (fun j hj => ?_) (fun j hj => ?_) (fun _ _ _ _ => rfl), hlinear,
      hcalls _ rfl, howns⟩
    · rw [step, hi]
      simp [hlist]
    · cases fevts.getLast? <;> simp [owed, hi, setPhase, QueueObs.found, QueueObs.answer]
    · simp [QueueObs.found, QueueObs.answer, Ne.symm hj]
    · simp [setPhase, hj]

omit [DecidableEq ι] in
/-- Only the thread itself can change what it owns. -/
theorem Inv.other (h : Inv junk s fevts pending holder) {i : ι} {fevt : Nat}
    (hi : (s.phase i).owns = some fevt) {j : ι} (hj : j ≠ i) {q : Nat}
    (hq : (s.phase j).owns = some q) : q ≠ fevt := by
  rintro rfl
  exact hj (h.owns.alone j i q hq hi)

theorem steps_push (h : Inv junk s fevts pending holder) (i : ι) (fired : Fired) :
    Steps junk garbage s pending (.push i fired) := by
  by_cases hi : s.phase i = .idle
  · refine steps_outside h s.events (o := .quiet) (p := .cloning fired)
      (by rw [step, hi]) (by rw [hi]; rfl) (fun _ _ => ⟨rfl, rfl⟩) rfl ?_
      (fun _ _ _ _ => rfl) (h.owns.skip (by rw [hi]; rfl) rfl)
    simp [owed, hi, setPhase, QueueObs.found, QueueObs.answer]
  · refine steps_same h ?_
    rw [step]
    split
    · contradiction
    · rfl

theorem steps_pop (h : Inv junk s fevts pending holder) (i : ι) :
    Steps junk garbage s pending (.pop i) := by
  by_cases hi : s.phase i = .idle
  · refine steps_lock h s.events .pop (p := .popping) (by rw [step, hi])
      (by rw [hi]; rfl) rfl ?_ ?_ (fun _ _ _ _ => rfl) (h.owns.skip (by rw [hi]; rfl) rfl)
    · simp [owed, hi]
    · simp [owed, setPhase]
  · refine steps_same h ?_
    rw [step]
    split
    · contradiction
    · rfl

theorem steps_tick (h : Inv junk s fevts pending holder) (i : ι) :
    Steps junk garbage s pending (.tick i) := by
  cases hi : s.phase i with
  | idle => exact steps_same h (by rw [step, hi])
  | cloning fired =>
      refine steps_outside h _ (o := .quiet) (i := i) (by rw [step, hi]) (by rw [hi]; rfl)
        (fun _ _ => ⟨rfl, rfl⟩) rfl ?_ (fun j _ q hq => ?_)
        (h.owns.alloc (garbage s.events.next) (by rw [hi]; rfl))
      · simp [owed, hi, setPhase, QueueObs.found, QueueObs.answer]
      · obtain ⟨f, hf, -⟩ := h.owns.holds j q hq
        rw [hf]
        exact BlockHeap.alloc_get_of_some hf
  | filling fevt fired =>
      obtain ⟨events, hset, howns⟩ := h.owns.fill hi
      refine steps_lock h events (.push fevt) (i := i) ?_ (by rw [hi]; rfl) rfl
        ?_ ?_ (fun j hj q hq => ?_) howns
      · rw [step, hi]
        simp [hset]
      · simp [owed, hi]
      · simp [owed, setPhase]
      · have hne := h.other (by rw [hi]; rfl) hj hq
        obtain ⟨f, hf, -⟩ := h.owns.holds i fevt (by rw [hi]; rfl)
        obtain ⟨events', hset', hget⟩ := BlockHeap.set_of_some (b := fired) hf
        cases hset.symm.trans hset'
        rw [hget, Function.update_of_ne hne]
  | pushing fevt fired => exact steps_pushing h hi
  | popping => exact steps_popping h hi
  | copying fevt =>
      cases fevt with
      | none =>
          refine steps_outside h s.events (o := .returned i none) (p := .idle) (i := i)
            (by rw [step, hi]) (by rw [hi]; rfl) (fun j hj => ?_) rfl ?_ (fun _ _ _ _ => rfl)
            (h.owns.skip (by rw [hi]; rfl) rfl)
          · simp [QueueObs.found, QueueObs.answer, Ne.symm hj]
          · simp [owed, hi, setPhase, QueueObs.found, QueueObs.answer]
      | some fevt =>
          obtain ⟨fired, hget, howns⟩ := h.owns.copy hi
          refine steps_outside h s.events (o := .quiet) (i := i) ?_ (by rw [hi]; rfl)
            (fun _ _ => ⟨rfl, rfl⟩) rfl ?_ (fun _ _ _ _ => rfl) howns
          · rw [step, hi]
            simp [hget]
          · simp [owed, hi, hget, setPhase, QueueObs.found, QueueObs.answer]
  | freeing fevt fired =>
      obtain ⟨hget, howns⟩ := h.owns.release hi
      refine steps_outside h _ (o := .returned i (some fired)) (i := i) ?_ (by rw [hi]; rfl)
        (fun j hj => ?_) rfl ?_ (fun j hj q hq => ?_) howns
      · rw [step, hi]
        simp [hget]
      · simp [QueueObs.found, QueueObs.answer, Ne.symm hj]
      · simp [owed, hi, setPhase, QueueObs.found, QueueObs.answer]
      · exact Function.update_of_ne (h.other (by rw [hi]; rfl) hj hq) ..

theorem steps_of_inv (h : Inv junk s fevts pending holder) (l : QueueLabel ι) :
    Steps junk garbage s pending l := by
  cases l with
  | push i fired => exact steps_push h i fired
  | pop i => exact steps_pop h i
  | tick i => exact steps_tick h i

theorem run_inv (h : Inv junk s fevts pending holder) (ls : List (QueueLabel ι)) :
    ∃ t os fevts' pending' holder', Machine.run (step junk garbage) s ls = some (t, os) ∧
      Machine.SpecRun FiredQueue.FifoStep pending (os.filterMap QueueObs.op)
        (os.filterMap QueueObs.result) pending' ∧
      (∀ i, s.owed i ++ os.filterMap (QueueObs.found i) =
        os.filterMap (QueueObs.answer i) ++ t.owed i) ∧
      Inv junk t fevts' pending' holder' := by
  induction ls generalizing s fevts pending holder with
  | nil => exact ⟨s, [], fevts, pending, holder, rfl, .nil _, fun _ => by simp, h⟩
  | cons l ls ih =>
      obtain ⟨s', o, fevts', pending', holder', hstep, heffect, hsettles, h'⟩ := steps_of_inv h l
      obtain ⟨t, os, fevts'', pending'', holder'', hrun, hfifo, howed, ht⟩ := ih h'
      refine ⟨t, o :: os, fevts'', pending'', holder'', Machine.run_cons hstep hrun,
        ?_, fun i => ?_, ht⟩
      · cases o with
        | quiet =>
            obtain rfl : pending' = pending := heffect
            exact hfifo
        | returned i r =>
            obtain rfl : pending' = pending := heffect
            exact hfifo
        | unlocked i op r => exact .cons heffect hfifo
      · have hfilter : ∀ f : QueueObs ι → Option (Option Fired),
            (o :: os).filterMap f = (f o).toList ++ os.filterMap f := by
          intro f
          cases hf : f o <;> simp [hf]
        rw [hfilter, hfilter, ← List.append_assoc, hsettles i, List.append_assoc, howed i,
          List.append_assoc]

end SharedQueue

/-- Whatever the order of the accesses and whatever builds LOCK_T: no access is undefined; in the
order of the UNLOCKs the pushes and pops are those of one queue, which delivers each event once,
each pop returns what it found there, and when no call is open exactly the pending events are
allocated. -/
theorem shared_queue_linearizes (build : LockBuild) (junk : Nat → ClistItem Nat)
    (garbage : Nat → Fired) {ι : Type} [DecidableEq ι] (ls : List (QueueLabel ι)) :
    ∃ (s : SharedQueue build.LOCK_T ι) (os : _) (pending : _),
      Machine.run (SharedQueue.step junk garbage) .start ls = some (s, os) ∧
      Machine.SpecRun FiredQueue.FifoStep [] (os.filterMap QueueObs.op)
        (os.filterMap QueueObs.result) pending ∧
      FiredQueue.pushedBy (os.filterMap QueueObs.op) =
        (os.filterMap QueueObs.result).reduceOption ++ pending ∧
      (∀ i, os.filterMap (QueueObs.found i) = os.filterMap (QueueObs.answer i) ++ s.owed i) ∧
      ((∀ i, s.phase i = .idle) →
        ∃ fevts, FiredQueue.Holds ⟨s.list.mem, s.events⟩ fevts pending) := by
  obtain ⟨s, os, fevts, pending, holder, hrun, hfifo, howed, h⟩ :=
    SharedQueue.run_inv (SharedQueue.start_inv : SharedQueue.Inv junk .start [] [] none) ls
  refine ⟨s, os, pending, hrun, hfifo, FiredQueue.fifo_delivers hfifo, howed,
    fun hidle => ⟨fevts, ?_⟩⟩
  have hfree : holder = none := by
    cases holder with
    | none => rfl
    | some i =>
        obtain ⟨op, rest, m, hi, -, -⟩ := h.linear.holds
        have hcall := h.calls i
        rw [hi, hidle i] at hcall
        cases hcall
  subst hfree
  refine ⟨h.linear.holds, h.owns.nodup, h.owns.pending, fun p hp => ?_⟩
  cases h.owns.live p hp with
  | inl hmem => exact hmem
  | inr hex =>
      obtain ⟨i, hi⟩ := hex
      rw [hidle i] at hi
      cases hi

/-- No thread is left waiting in a deadlock: a call under `qlock` can be ended by steps of its own
thread and of the thread inside. -/
theorem qlock_calls_end (build : LockBuild) (junk : Nat → ClistItem Nat) {ι : Type}
    [DecidableEq ι] {ls : List (Critical.Label ι ListOp)}
    {s : State build.LOCK_T ι (Clist Nat) ListOp _} {os : _}
    (hrun : Machine.run (Critical.step (ListOp.body junk)) (.start .create) ls = some (s, os))
    (i : ι) :
    Machine.Leads (Critical.step (ListOp.body junk))
      (fun l => ∃ j, l = .tick j ∧ (j = i ∨ (s.threads j).Inside))
      (fun t => t.threads i = .idle) s := by
  obtain ⟨t, os', b, holder, hrun', -, ht⟩ := run_linear (L := build.LOCK_T) (ListOp.meets junk)
    (start_linear (b := []) ⟨[], Clist.create_holds, rfl⟩) ls
  rw [hrun] at hrun'
  cases hrun'
  refine Machine.leads_lift id (fun u l u' o hl hstep => ⟨l, o, ?_, hstep⟩) (fun _ hu => hu)
    (leads_idle (ListOp.meets junk) ht i)
  obtain ⟨j, rfl, hj⟩ := hl
  refine ⟨j, rfl, hj.imp_right fun hj => ?_⟩
  exact (ht.exclusion.inside_iff j).mpr hj

/-- A thread has the lock and another one waits for it. -/
theorem qlock_calls_end_contended :
    ∃ (s : State (LockBuild.spin 2).LOCK_T Bool (Clist Nat) ListOp (Option Nat)) (os : _),
      Machine.run (Critical.step (ListOp.body fun _ => ⟨none, none, none⟩)) (.start .create)
        [.call false .pop, .call true (.push 0), .tick false, .tick false] = some (s, os) ∧
      Machine.Leads (Critical.step (ListOp.body fun _ => ⟨none, none, none⟩))
        (fun l => ∃ j, l = .tick j ∧ (j = true ∨ (s.threads j).Inside))
        (fun t => t.threads true = .idle) s := by
  have hrun : ∃ (s : State (LockBuild.spin 2).LOCK_T Bool (Clist Nat) ListOp (Option Nat)) (os : _),
      Machine.run (Critical.step (ListOp.body fun _ => ⟨none, none, none⟩)) (.start .create)
        [.call false .pop, .call true (.push 0), .tick false, .tick false] = some (s, os) :=
    ⟨_, _, rfl⟩
  obtain ⟨s, os, hrun⟩ := hrun
  exact ⟨s, os, hrun, qlock_calls_end (.spin 2) _ hrun true⟩

end ThrSocket
