import ThrSocket.EventPoll

/-!
The three builds of cevent.c behind one interface: the data a build starts with,
its part of an addition and of a deletion, and what its poll stores in
`cevts->fired` for an answer of the kernel. epoll and kqueue report what the
kernel holds, at most as many entries as they ask for; select reports slots.
-/

namespace ThrSocket
open Cevents

inductive KqFilter
  | read
  | write
deriving DecidableEq, Repr

inductive KqAction
  | add
  | delete
deriving DecidableEq, Repr

abbrev KqueueSet := Nat → KqFilter → Bool

/-- `kevent` with one change: a filter can be added again, and deleted where there is one. -/
def kevent (set : KqueueSet) (fd : Nat) (filter : KqFilter) (action : KqAction) :
    KqueueSet × Int :=
  match action, set fd filter with
  | .add, _ => (Function.update set fd (Function.update (set fd) filter true), 0)
  | .delete, true => (Function.update set fd (Function.update (set fd) filter false), 0)
  | .delete, false => (set, -1)

namespace Kqueue

def keventIf (c : Bool) (set : KqueueSet) (fd : Nat) (filter : KqFilter) (action : KqAction) :
    KqueueSet × Int :=
  if c then kevent set fd filter action else (set, 0)

def addEventImpl (s : Cevents KqueueSet) (fd : Nat) (mask : EventMask) :
    Option (KqueueSet × Int) :=
  let (set, rs) := keventIf (mask.has .read) s.privData fd .read .add
  if rs = -1 then some (set, -1)
  else
    let (set, rs) := keventIf (mask.has .write) set fd .write .add
    if rs = -1 then some (set, -1) else some (set, 0)

/-- What `kevent` returns is not looked at, nor is the mask that is read. -/
def delEventImpl (s : Cevents KqueueSet) (fd : Nat) (delmask : EventMask) :
    Option (KqueueSet × Int) := do
  let _ ← s.slot fd
  let (set, _) := keventIf (delmask.has .read) s.privData fd .read .delete
  let (set, _) := keventIf (delmask.has .write) set fd .write .delete
  some (set, 0)

def impl : Cevents.Impl KqueueSet := ⟨addEventImpl, delEventImpl⟩

def firedOf (kevt : Nat × KqFilter) : CeventFired :=
  let mask : EventMask := .none
  let mask := if kevt.2 = .read then mask ||| .read else mask
  let mask := if kevt.2 = .write then mask ||| .write else mask
  ⟨kevt.1, mask⟩

def pollImpl (kevts : List (Nat × KqFilter)) : List CeventFired := kevts.map firedOf

end Kqueue

/-- A build of cevent.c, with the answers `A` of the kernel to its poll. -/
structure EventBackend (B A : Type) where
  /-- `cevents_create_priv_impl` -/
  createPriv : B
  impl : Cevents.Impl B
  /-- `cevents_poll_impl` -/
  pollImpl : Cevents B → A → Option (List CeventFired)
  /-- What the kernel may answer. -/
  Answers : B → A → Prop
  /-- The kernel may report the descriptor. -/
  Holds : B → Nat → Prop

/-- `epoll_wait` and `kevent` are asked for MAX_EVENTS entries. -/
def AnswersWith {E : Type} (held : Nat × E → Prop) (evs : List (Nat × E)) : Prop :=
  evs.length ≤ maxEvents ∧ ∀ ev ∈ evs, held ev

def Epoll.backend : EventBackend EpollSet (List (Nat × EpollEvent)) where
  createPriv := fun _ => none
  impl := Epoll.impl
  pollImpl := fun _ evs => some (Epoll.pollImpl evs)
  Answers := fun set => AnswersWith fun ev => (set ev.1).isSome
  Holds := fun set fd => (set fd).isSome

def Kqueue.backend : EventBackend KqueueSet (List (Nat × KqFilter)) where
  createPriv := fun _ _ => false
  impl := Kqueue.impl
  pollImpl := fun _ kevts => some (Kqueue.pollImpl kevts)
  Answers := fun set => AnswersWith fun kevt => set kevt.1 kevt.2 = true
  Holds := fun set fd => ∃ filter, set fd filter = true

/-- What select leaves in the sets is looked at for slots with a mask alone. -/
def Select.backend : EventBackend RwfdSet Ready where
  createPriv := ⟨.zero, .zero⟩
  impl := Select.impl
  pollImpl := Select.pollImpl
  Answers := fun _ _ => True
  Holds := fun _ _ => False

namespace EventBackend

variable {B A : Type}

/-- The poll may report the descriptor: the kernel holds it, or it is in the table with a mask. -/
def MayReport (be : EventBackend B A) (s : Cevents B) (fd : Nat) : Prop :=
  be.Holds s.privData fd ∨ fd < maxEvents ∧ (s.events fd).mask ≠ .none

/-- What every build keeps to. -/
structure Lawful (be : EventBackend B A) : Prop where
  created : ∀ fd, ¬ be.Holds be.createPriv fd
  added : ∀ {s fd mask b rs i}, be.impl.addEvent s fd mask = some (b, rs) → be.Holds b i →
    be.Holds s.privData i ∨ i = fd
  deleted : ∀ {s fd mask b rs i}, be.impl.delEvent s fd mask = some (b, rs) → be.Holds b i →
    be.Holds s.privData i
  reports : ∀ {s a fired}, be.Answers s.privData a → be.pollImpl s a = some fired →
    fired.length ≤ maxEvents ∧ ∀ f ∈ fired, be.MayReport s f.fd

end EventBackend

theorem epollCtl_holds {set : EpollSet} {operation : EpollCtl} {fd i : Nat} {event : EpollEvent}
    (h : ((epollCtl set operation fd event).1 i).isSome) :
    (set i).isSome ∨ operation = .add ∧ i = fd := by
  by_cases hi : i = fd
  · subst hi
    cases operation with
    | add => exact .inr ⟨rfl, rfl⟩
    | mod | del =>
        -- only what is held is changed or deleted
        cases hset : set i <;> simp_all [epollCtl]
  · cases operation <;> cases hset : set fd <;> simp_all [epollCtl]

theorem Epoll.addEventImpl_holds {s : Cevents EpollSet} {fd i : Nat} {mask : EventMask}
    {set : EpollSet} {rs : Int} (h : Epoll.addEventImpl s fd mask = some (set, rs))
    (hi : (set i).isSome) : (s.privData i).isSome ∨ i = fd := by
  obtain ⟨evt, -, h⟩ := Option.bind_eq_some_iff.mp h
  obtain rfl := congrArg Prod.fst (Option.some.inj h)
  exact (epollCtl_holds hi).imp id And.right

theorem Epoll.delEventImpl_holds {s : Cevents EpollSet} {fd i : Nat} {mask : EventMask}
    {set : EpollSet} {rs : Int} (h : Epoll.delEventImpl s fd mask = some (set, rs))
    (hi : (set i).isSome) : (s.privData i).isSome := by
  obtain ⟨evt, -, h⟩ := Option.bind_eq_some_iff.mp h
  obtain rfl := congrArg Prod.fst (Option.some.inj h)
  refine (epollCtl_holds hi).elim id fun hadd => ?_
  split_ifs at hadd <;> cases hadd.1

theorem AnswersWith.reports {E : Type} {held : Nat × E → Prop} {evs : List (Nat × E)}
    {firedOf : Nat × E → CeventFired} {Reportable : Nat → Prop} (h : AnswersWith held evs)
    (hfd : ∀ ev, held ev → Reportable (firedOf ev).fd) :
    (evs.map firedOf).length ≤ maxEvents ∧ ∀ f ∈ evs.map firedOf, Reportable f.fd := by
  constructor
  · rw [List.length_map]
    exact h.1
  · intro f hf
    obtain ⟨ev, hev, rfl⟩ := List.mem_map.mp hf
    exact hfd ev (h.2 ev hev)

theorem Epoll.lawful : Epoll.backend.Lawful where
  created _ h := by cases h
  added := Epoll.addEventImpl_holds
  deleted := Epoll.delEventImpl_holds
  reports ha h := by
    cases h
    exact AnswersWith.reports ha fun _ hev => .inl hev

theorem keventIf_holds {set : KqueueSet} {c : Bool} {fd i : Nat} {filter filter' : KqFilter}
    {action : KqAction} (h : (Kqueue.keventIf c set fd filter action).1 i filter' = true) :
    set i filter' = true ∨ action = .add ∧ i = fd := by
  cases c with
  | false => exact .inl h
  | true =>
      by_cases hi : i = fd
      · subst hi
        cases action with
        | add => exact .inr ⟨rfl, rfl⟩
        | delete =>
            by_cases hf : filter' = filter
            · subst hf
              cases hset : set i filter' <;> simp_all [Kqueue.keventIf, kevent]
            · cases hset : set i filter <;> simp_all [Kqueue.keventIf, kevent]
      · cases action <;> cases hset : set fd filter <;> simp_all [Kqueue.keventIf, kevent]

theorem Kqueue.addEventImpl_holds {s : Cevents KqueueSet} {fd i : Nat} {mask : EventMask}
    {set : KqueueSet} {rs : Int} (h : Kqueue.addEventImpl s fd mask = some (set, rs))
    (hi : ∃ filter, set i filter = true) : (∃ filter, s.privData i filter = true) ∨ i = fd := by
  obtain ⟨filter, hi⟩ := hi
  let first := Kqueue.keventIf (mask.has .read) s.privData fd .read .add
  have hset : set = first.1 ∨
      set = (Kqueue.keventIf (mask.has .write) first.1 fd .write .add).1 := by
    rw [Kqueue.addEventImpl] at h
    dsimp only at h
    split_ifs at h
    · exact .inl (Prod.mk.inj (Option.some.inj h)).1.symm
    · exact .inr (Prod.mk.inj (Option.some.inj h)).1.symm
    · exact .inr (Prod.mk.inj (Option.some.inj h)).1.symm
  have hfirst : first.1 i filter = true →
      (∃ filter, s.privData i filter = true) ∨ i = fd := fun hread =>
    (keventIf_holds hread).imp (fun hold => ⟨filter, hold⟩) And.right
  rcases hset with rfl | rfl
  · exact hfirst hi
  · exact (keventIf_holds hi).elim hfirst fun hadd => .inr hadd.2

theorem Kqueue.delEventImpl_holds {s : Cevents KqueueSet} {fd i : Nat} {mask : EventMask}
    {set : KqueueSet} {rs : Int} (h : Kqueue.delEventImpl s fd mask = some (set, rs))
    (hi : ∃ filter, set i filter = true) : ∃ filter, s.privData i filter = true := by
  obtain ⟨filter, hi⟩ := hi
  obtain ⟨-, -, h⟩ := Option.bind_eq_some_iff.mp h
  cases h
  have hdelete : ¬ KqAction.delete = .add := by decide
  have hread := (keventIf_holds hi).resolve_right fun hadd => hdelete hadd.1
  exact ⟨filter, (keventIf_holds hread).resolve_right fun hadd => hdelete hadd.1⟩

theorem Kqueue.lawful : Kqueue.backend.Lawful where
  created _ h := by
    obtain ⟨filter, h⟩ := h
    cases h
  added := Kqueue.addEventImpl_holds
  deleted := Kqueue.delEventImpl_holds
  reports ha h := by
    cases h
    exact AnswersWith.reports ha fun kevt hev => .inl ⟨kevt.2, hev⟩

/-- A scan that is defined stays in the table, and makes entries for slots with a mask. -/
theorem Select.scan_spec {s : Cevents RwfdSet} {rfds wfds : FdSet} {is : List Nat}
    {fired : List CeventFired} (h : Select.scan s rfds wfds is = some fired) :
    (∀ i ∈ is, i < maxEvents) ∧ fired.length ≤ is.length ∧
      ∀ f ∈ fired, f.fd < maxEvents ∧ (s.events f.fd).mask ≠ .none := by
  induction is generalizing fired with
  | nil =>
      cases h
      exact ⟨by simp, Nat.le_refl _, by simp⟩
  | cons i is ih =>
      rw [Select.scan] at h
      obtain ⟨evt, hslot, h⟩ := Option.bind_eq_some_iff.mp h
      obtain ⟨hi, rfl⟩ : i < maxEvents ∧ s.events i = evt := by
        rwa [Cevents.slot, Option.ite_none_right_eq_some, Option.some.injEq] at hslot
      split_ifs at h with hnone
      · obtain ⟨his, hlen, hfired⟩ := ih h
        exact ⟨List.forall_mem_cons.mpr ⟨hi, his⟩, Nat.le_succ_of_le hlen, hfired⟩
      · obtain ⟨mask, -, h⟩ := Option.bind_eq_some_iff.mp h
        obtain ⟨mask', -, h⟩ := Option.bind_eq_some_iff.mp h
        obtain ⟨rest, hrest, h⟩ := Option.bind_eq_some_iff.mp h
        cases h
        obtain ⟨his, hlen, hfired⟩ := ih hrest
        exact ⟨List.forall_mem_cons.mpr ⟨hi, his⟩, Nat.succ_le_succ hlen,
          List.forall_mem_cons.mpr ⟨⟨hi, hnone⟩, hfired⟩⟩

theorem Select.pollImpl_reports {s : Cevents RwfdSet} {ready : Ready} {fired : List CeventFired}
    (h : Select.pollImpl s ready = some fired) :
    fired.length ≤ maxEvents ∧ ∀ f ∈ fired, Select.backend.MayReport s f.fd := by
  obtain ⟨⟨rs, rfds, wfds⟩, -, h⟩ := Option.bind_eq_some_iff.mp h
  dsimp only at h
  split_ifs at h
  · obtain ⟨his, hlen, hfired⟩ := Select.scan_spec h
    rw [List.length_range] at hlen
    refine ⟨Nat.le_trans hlen ?_, fun f hf => .inr (hfired f hf)⟩
    by_contra hlong
    exact Nat.lt_irrefl _ (his maxEvents (List.mem_range.mpr (Nat.lt_of_not_le hlong)))
  · cases h
    exact ⟨Nat.zero_le _, by simp⟩

theorem Select.lawful : Select.backend.Lawful where
  created _ h := h
  added _ h := h.elim
  deleted _ h := h
  reports _ := Select.pollImpl_reports

inductive EventBuild
  | epoll
  | kqueue
  | select
deriving DecidableEq, Repr

namespace EventBuild

abbrev Priv : EventBuild → Type
  | .epoll => EpollSet
  | .kqueue => KqueueSet
  | .select => RwfdSet

abbrev Answer : EventBuild → Type
  | .epoll => List (Nat × EpollEvent)
  | .kqueue => List (Nat × KqFilter)
  | .select => Ready

def backend : (build : EventBuild) → EventBackend build.Priv build.Answer
  | .epoll => Epoll.backend
  | .kqueue => Kqueue.backend
  | .select => Select.backend

theorem lawful (build : EventBuild) : build.backend.Lawful := by
  cases build with
  | epoll => exact Epoll.lawful
  | kqueue => exact Kqueue.lawful
  | select => exact Select.lawful

end EventBuild

end ThrSocket
