import Mathlib.Data.List.Nodup
import Mathlib.Data.List.Perm.Basic
import ThrSocket.Registration

/-!
One poll of the event table. epoll is told by the kernel which descriptors are
ready, in an order of the kernel's; select scans the table and reports each slot
with a mask, ready or not. `cevents_poll` then goes through what was reported.
What an event procedure does is a list of calls and a return value.
-/

namespace ThrSocket
open Cevents

structure CeventFired where
  fd : Nat
  mask : EventMask
deriving DecidableEq, Repr

structure Ready where
  readable : Nat → Bool
  writable : Nat → Bool

namespace Epoll

def readyEvent (ready : Ready) (fd : Nat) (event : EpollEvent) : EpollEvent :=
  ⟨event.epollin && ready.readable fd, event.epollout && ready.writable fd⟩

/-- What `epoll_wait` may return: the registered descriptors with something ready, each once. -/
def Waits (set : EpollSet) (ready : Ready) (evs : List (Nat × EpollEvent)) : Prop :=
  (evs.map Prod.fst).Nodup ∧ ∀ fd ev, (fd, ev) ∈ evs ↔
    ∃ event, set fd = some event ∧ ev = readyEvent ready fd event ∧
      (ev.epollin || ev.epollout) = true

def firedOf (ev : Nat × EpollEvent) : CeventFired :=
  let mask : EventMask := .none
  let mask := if ev.2.epollin then mask ||| .read else mask
  let mask := if ev.2.epollout then mask ||| .write else mask
  ⟨ev.1, mask⟩

def pollImpl (evs : List (Nat × EpollEvent)) : List CeventFired := evs.map firedOf

end Epoll

namespace FdSet

def filter (set : FdSet) (p : Nat → Bool) : FdSet :=
  ⟨fun fd => set.has fd && p fd, fun fd hfd => by rw [set.bounded fd hfd, Bool.false_and]⟩

end FdSet

namespace Select

/-- `select`: the descriptors below `nfds` that are ready stay in the sets. With more descriptors
than an `fd_set` holds it reads and writes behind the sets. -/
def select (nfds : Int) (rfds wfds : FdSet) (ready : Ready) : Option (Int × FdSet × FdSet) :=
  if nfds < 0 then some (-1, rfds, wfds)
  else if nfds > fdSetSize then none
  else
    let rfds := rfds.filter fun fd => fd < nfds && ready.readable fd
    let wfds := wfds.filter fun fd => fd < nfds && ready.writable fd
    let fds := List.range nfds.toNat
    some (fds.countP rfds.has + fds.countP wfds.has, rfds, wfds)

/-- `mask |= bit` if the slot has the bit and the descriptor is in the set. -/
def addIfSet (set : FdSet) (fd : Nat) (evtMask bit mask : EventMask) : Option EventMask :=
  if evtMask.has bit then (set.isset fd).map fun b => if b then mask ||| bit else mask
  else some mask

def scan (s : Cevents RwfdSet) (rfds wfds : FdSet) : List Nat → Option (List CeventFired)
  | [] => some []
  | i :: is => do
      let evt ← s.slot i
      if evt.mask = .none then scan s rfds wfds is
      else
        let mask ← addIfSet wfds i evt.mask .write .none
        let mask ← addIfSet rfds i evt.mask .read mask
        let fired ← scan s rfds wfds is
        some (⟨i, mask⟩ :: fired)

def pollImpl (s : Cevents RwfdSet) (ready : Ready) : Option (List CeventFired) := do
  let (rs, rfds, wfds) ← select (s.maxfd + 1) s.privData.rfds s.privData.wfds ready
  if rs > 0 then scan s rfds wfds (List.range (s.maxfd + 1).toNat) else some []

end Select

inductive Dispatch
  | readProc (fd : Nat) (proc priv : Option Nat) (mask : EventMask)
  | writeProc (fd : Nat) (proc priv : Option Nat) (mask : EventMask)
  | pushed (fd : Nat) (mask : EventMask)
deriving DecidableEq, Repr

def Dispatch.isPushed : Dispatch → Bool
  | .readProc .. | .writeProc .. => false
  | .pushed .. => true

structure ProcResult where
  ops : List EventOp
  rs : Int

/-- The event procedures of a poll, by descriptor; the write procedure for `true`. -/
abbrev Procs := Nat → Bool → ProcResult

namespace Cevents

variable {B : Type}

def runOps (impl : Impl B) (s : Cevents B) (ops : List EventOp) : Option (Cevents B) :=
  (Machine.run (step impl) s ops).map Prod.fst

def pollRead (impl : Impl B) (procs : Procs) (s : Cevents B) (fd : Nat) (mask : EventMask) :
    Option (Cevents B × List Dispatch) := do
  let evt ← s.slot fd
  if evt.mask ≠ .none ∧ mask.has .read then
    let s ← runOps impl s (procs fd false).ops
    if (procs fd false).rs = 0 then
      let (s, _) ← step impl s (.del fd .read)
      some (s, [.readProc fd evt.readProc evt.priv mask, .pushed fd mask])
    else some (s, [.readProc fd evt.readProc evt.priv mask])
  else some (s, [])

def pollWrite (impl : Impl B) (procs : Procs) (s : Cevents B) (fd : Nat) (mask : EventMask) :
    Option (Cevents B × List Dispatch) := do
  let evt ← s.slot fd
  if evt.mask ≠ .none ∧ mask.has .write then
    let s ← runOps impl s (procs fd true).ops
    some (s, [.writeProc fd evt.writeProc evt.priv mask])
  else some (s, [])

def pollEntry (impl : Impl B) (procs : Procs) (s : Cevents B) (fired : CeventFired) :
    Option (Cevents B × List Dispatch) := do
  let evt ← s.slot fired.fd
  if evt.mask = .none then some (s, [])
  else if evt.mask.has .persist then
    let (s, reads) ← pollRead impl procs s fired.fd (fired.mask ||| .persist)
    let (s, writes) ← pollWrite impl procs s fired.fd (fired.mask ||| .persist)
    some (s, reads ++ writes)
  else
    let (s, _) ← step impl s (.del fired.fd fired.mask)
    some (s, [.pushed fired.fd fired.mask])

def pollLoop (impl : Impl B) (procs : Procs) (s : Cevents B) :
    List CeventFired → Option (Cevents B × List Dispatch)
  | [] => some (s, [])
  | fired :: rest => do
      let (s, ds) ← pollEntry impl procs s fired
      let (s, ds') ← pollLoop impl procs s rest
      some (s, ds ++ ds')

/-- `cevents_poll` behind the back end. Its count goes up with each event that is pushed. -/
def poll (impl : Impl B) (procs : Procs) (s : Cevents B) (fired : List CeventFired) :
    Option (List Dispatch × Nat) :=
  (pollLoop impl procs s fired).map fun r => (r.2, r.2.countP Dispatch.isPushed)

end Cevents

def EventMask.ofBits (r w : Bool) : EventMask :=
  (if r then .read else .none) ||| if w then .write else .none

structure Registration where
  maxfd : Int
  events : Nat → CeventSlot
  epoll : EpollSet
  rwfds : RwfdSet
  inTable : ∀ fd, (events fd).mask ≠ .none → fd < maxEvents
  covers : Covers events maxfd
  epollAgrees : EpollAgrees events epoll
  selectAgrees : SelectAgrees events rwfds

namespace Registration

def epollBuild (r : Registration) : Cevents EpollSet := ⟨r.maxfd, r.events, r.epoll⟩

def selectBuild (r : Registration) : Cevents RwfdSet := ⟨r.maxfd, r.events, r.rwfds⟩

def Registered (r : Registration) (fd : Nat) : Prop := (r.events fd).mask ≠ .none

def IsReady (r : Registration) (ready : Ready) (fd : Nat) : Prop :=
  ((r.events fd).mask.has .read && ready.readable fd) = true ∨
    ((r.events fd).mask.has .write && ready.writable fd) = true

def readyMask (r : Registration) (ready : Ready) (fd : Nat) : EventMask :=
  .ofBits ((r.events fd).mask.has .read && ready.readable fd)
    ((r.events fd).mask.has .write && ready.writable fd)

/-- One entry with the ready part of the mask for each descriptor that has a registered event
ready, and no other. -/
structure Reports (r : Registration) (ready : Ready) (fired : List CeventFired) : Prop where
  nodup : fired.Nodup
  exact : ∀ f, f ∈ fired ↔ r.IsReady ready f.fd ∧ f.mask = r.readyMask ready f.fd

variable {r : Registration} {ready : Ready}

theorem registered_of_isReady {fd : Nat} (h : r.IsReady ready fd) : r.Registered fd := by
  intro hnone
  rw [IsReady, hnone] at h
  simp at h

theorem Reports.perm {fired fired' : List CeventFired} (h : Reports r ready fired)
    (h' : Reports r ready fired') : fired.Perm fired' :=
  (List.perm_ext_iff_of_nodup h.nodup h'.nodup).mpr fun f => (h.exact f).trans (h'.exact f).symm

theorem Reports.fd_nodup {fired : List CeventFired} (h : Reports r ready fired) :
    (fired.map CeventFired.fd).Nodup := by
  refine List.Nodup.map_on (fun f hf g hg hfg => ?_) h.nodup
  obtain ⟨fd, mask⟩ := f
  obtain ⟨fd', mask'⟩ := g
  obtain ⟨-, hm⟩ := (h.exact _).mp hf
  obtain ⟨-, hm'⟩ := (h.exact _).mp hg
  dsimp only at hfg hm hm'
  subst hfg
  rw [hm, hm']

theorem firedOf_readyEvent (fd : Nat) :
    Epoll.firedOf (fd, Epoll.readyEvent ready fd (Epoll.events (r.events fd).mask)) =
      ⟨fd, r.readyMask ready fd⟩ := by
  have hbits : ∀ i o : Bool, Epoll.firedOf (fd, ⟨i, o⟩) = ⟨fd, .ofBits i o⟩ := by
    intro i o
    cases i <;> cases o <;> rfl
  exact hbits _ _

/-- The entries that the kernel returns are those of the descriptors that are ready. -/
theorem waits_mem {evs : List (Nat × EpollEvent)} (h : Epoll.Waits r.epoll ready evs) {fd : Nat}
    {ev : EpollEvent} :
    (fd, ev) ∈ evs ↔
      r.IsReady ready fd ∧ ev = Epoll.readyEvent ready fd (Epoll.events (r.events fd).mask) := by
  rw [h.2, r.epollAgrees fd, Epoll.view]
  constructor
  · rintro ⟨event, hevent, rfl, hready⟩
    split_ifs at hevent
    cases hevent
    refine ⟨?_, rfl⟩
    simpa [IsReady, Epoll.readyEvent, Epoll.events] using hready
  · rintro ⟨hready, rfl⟩
    refine ⟨_, if_neg (registered_of_isReady hready), rfl, ?_⟩
    simpa [IsReady, Epoll.readyEvent, Epoll.events] using hready

theorem epoll_reports {evs : List (Nat × EpollEvent)} (h : Epoll.Waits r.epoll ready evs) :
    Reports r ready (Epoll.pollImpl evs) where
  nodup := by
    refine List.Nodup.map_on (fun e he e' he' heq => ?_) h.1.of_map
    obtain ⟨fd, ev⟩ := e
    obtain ⟨fd', ev'⟩ := e'
    have hfd : fd = fd' := congrArg CeventFired.fd heq
    subst hfd
    rw [((waits_mem h).mp he).2, ((waits_mem h).mp he').2]
  exact f := by
    obtain ⟨fd, mask⟩ := f
    rw [Epoll.pollImpl, List.mem_map]
    constructor
    · rintro ⟨⟨fd', ev⟩, hev, heq⟩
      obtain ⟨hready, rfl⟩ := (waits_mem h).mp hev
      rw [firedOf_readyEvent] at heq
      cases heq
      exact ⟨hready, rfl⟩
    · rintro ⟨hready, hmask⟩
      refine ⟨(fd, _), (waits_mem h).mpr ⟨hready, rfl⟩, ?_⟩
      rw [firedOf_readyEvent]
      exact congrArg (CeventFired.mk fd) hmask.symm

instance (r : Registration) (ready : Ready) : DecidablePred (r.IsReady ready) :=
  fun _ => inferInstanceAs (Decidable (_ ∨ _))

/-- The kernel can return something. -/
theorem exists_waits (r : Registration) (ready : Ready) :
    ∃ evs, Epoll.Waits r.epoll ready evs := by
  obtain ⟨fds, hnodup, hfds⟩ :
      ∃ fds : List Nat, fds.Nodup ∧ ∀ fd, fd ∈ fds ↔ r.IsReady ready fd := by
    refine ⟨(List.range maxEvents).filter fun fd => r.IsReady ready fd,
      List.nodup_range.filter _, fun fd => ?_⟩
    rw [List.mem_filter, List.mem_range, decide_eq_true_eq]
    exact and_iff_right_of_imp fun h => r.inTable fd (registered_of_isReady h)
  let entry := fun fd => (fd, Epoll.readyEvent ready fd (Epoll.events (r.events fd).mask))
  refine ⟨fds.map entry, ?_, fun fd ev => ?_⟩
  · have hid : (fds.map entry).map Prod.fst = fds := by simp [entry, Function.comp_def]
    rw [hid]
    exact hnodup
  · rw [r.epollAgrees fd, Epoll.view, List.mem_map]
    constructor
    · rintro ⟨fd', hfd', heq⟩
      cases heq
      have hready := (hfds fd).mp hfd'
      refine ⟨_, if_neg (registered_of_isReady hready), rfl, ?_⟩
      simpa [IsReady, Epoll.readyEvent, Epoll.events] using hready
    · rintro ⟨event, hevent, rfl, hready⟩
      split_ifs at hevent
      cases hevent
      refine ⟨fd, (hfds fd).mpr ?_, rfl⟩
      simpa [IsReady, Epoll.readyEvent, Epoll.events] using hready

theorem addIfSet_eq {set : FdSet} {i : Nat} {evtMask bit mask : EventMask} {b : Bool}
    (hi : i < fdSetSize) (hset : set.has i = (evtMask.has bit && b)) :
    Select.addIfSet set i evtMask bit mask =
      some (if evtMask.has bit && b then mask ||| bit else mask) := by
  rw [Select.addIfSet, FdSet.isset, if_pos hi, hset]
  cases evtMask.has bit <;> cases b <;> rfl

def entryOf (r : Registration) (ready : Ready) (i : Nat) : Option CeventFired :=
  if (r.events i).mask = .none then none else some ⟨i, r.readyMask ready i⟩

theorem entryOf_eq_some {r : Registration} {ready : Ready} {i : Nat} {f : CeventFired} :
    r.entryOf ready i = some f ↔ r.Registered i ∧ f = ⟨i, r.readyMask ready i⟩ := by
  rw [entryOf]
  split_ifs with hnone
  · exact iff_of_false (fun h => by cases h) fun h => h.1 hnone
  · rw [Option.some.injEq, eq_comm]
    exact (and_iff_right hnone).symm

/-- The scan comes to every slot with a mask, and to each once. -/
theorem mem_entries {r : Registration} {ready : Ready} {f : CeventFired} :
    f ∈ (List.range (r.maxfd + 1).toNat).filterMap (r.entryOf ready) ↔
      r.Registered f.fd ∧ f.mask = r.readyMask ready f.fd := by
  rw [List.mem_filterMap]
  constructor
  · rintro ⟨i, -, hi⟩
    obtain ⟨hreg, rfl⟩ := entryOf_eq_some.mp hi
    exact ⟨hreg, rfl⟩
  · rintro ⟨hreg, hmask⟩
    have := r.covers f.fd hreg
    refine ⟨f.fd, List.mem_range.mpr (by omega), entryOf_eq_some.mpr ⟨hreg, ?_⟩⟩
    rw [← hmask]

theorem nodup_entries (r : Registration) (ready : Ready) :
    ((List.range (r.maxfd + 1).toNat).filterMap (r.entryOf ready)).Nodup := by
  refine List.Nodup.filterMap (fun i j f hi hj => ?_) List.nodup_range
  obtain ⟨-, hfi⟩ := entryOf_eq_some.mp hi
  obtain ⟨-, hfj⟩ := entryOf_eq_some.mp hj
  exact congrArg CeventFired.fd (hfi.symm.trans hfj)

theorem scan_eq {r : Registration} {ready : Ready} {rfds wfds : FdSet} {is : List Nat}
    (his : ∀ i ∈ is, i < fdSetSize)
    (hr : ∀ i, rfds.has i = ((r.events i).mask.has .read && ready.readable i))
    (hw : ∀ i, wfds.has i = ((r.events i).mask.has .write && ready.writable i)) :
    Select.scan r.selectBuild rfds wfds is = some (is.filterMap (r.entryOf ready)) := by
  induction is with
  | nil => rfl
  | cons i is ih =>
      have hi := his i List.mem_cons_self
      have hlt : i < maxEvents := by
        rw [maxEvents]
        rw [fdSetSize] at hi
        omega
      have hslot : r.selectBuild.slot i = some (r.events i) := slot_of_lt hlt
      have hbits : ∀ a b : Bool,
          (if a then (if b then EventMask.none ||| .write else .none) ||| .read
            else if b then EventMask.none ||| .write else .none) = EventMask.ofBits a b := by
        intro a b
        cases a <;> cases b <;> rfl
      have hrest := ih fun j hj => his j (List.mem_cons_of_mem _ hj)
      by_cases hnone : (r.events i).mask = .none
      · simp [entryOf, Select.scan, hslot, hrest, hnone]
      · simp only [List.filterMap_cons, entryOf, Select.scan, hslot, hrest, if_neg hnone,
          addIfSet_eq hi (hw i), addIfSet_eq hi (hr i), Option.bind_eq_bind, Option.bind_some,
          hbits, readyMask]

theorem lt_maxfd {fd : Nat} (h : r.Registered fd) : (fd : Int) < r.maxfd + 1 := by
  have := r.covers fd h
  omega

/-- What select leaves in a set that agrees with the table: all that is ready of it. -/
theorem filter_has {set : FdSet} {bit : EventMask}
    (hset : ∀ i, set.has i = (r.events i).mask.has bit) (isReady : Nat → Bool) (i : Nat) :
    (set.filter fun fd => fd < r.maxfd + 1 && isReady fd).has i =
      ((r.events i).mask.has bit && isReady i) := by
  simp only [FdSet.filter, hset i]
  cases h : (r.events i).mask.has bit with
  | false => rfl
  | true =>
      have hreg : r.Registered i := fun hnone => by simp [hnone] at h
      simp [lt_maxfd hreg]

/-- The count that select returns. -/
theorem count_pos_iff {rfds wfds : FdSet}
    (hr : ∀ i, rfds.has i = ((r.events i).mask.has .read && ready.readable i))
    (hw : ∀ i, wfds.has i = ((r.events i).mask.has .write && ready.writable i)) :
    0 < (List.range (r.maxfd + 1).toNat).countP rfds.has ∨
        0 < (List.range (r.maxfd + 1).toNat).countP wfds.has ↔
      ∃ fd, r.IsReady ready fd := by
  rw [List.countP_pos_iff, List.countP_pos_iff]
  constructor
  · rintro (⟨fd, -, hfd⟩ | ⟨fd, -, hfd⟩)
    · exact ⟨fd, .inl ((hr fd).symm.trans hfd)⟩
    · exact ⟨fd, .inr ((hw fd).symm.trans hfd)⟩
  · rintro ⟨fd, hfd⟩
    have hmem : fd ∈ List.range (r.maxfd + 1).toNat := by
      have := lt_maxfd (registered_of_isReady hfd)
      exact List.mem_range.mpr (by omega)
    rcases hfd with hfd | hfd
    · exact .inl ⟨fd, hmem, (hr fd).trans hfd⟩
    · exact .inr ⟨fd, hmem, (hw fd).trans hfd⟩

/-- What select reports: nothing where nothing is ready, and else every slot with a mask. -/
theorem select_pollImpl (ready : Ready) (hmax : r.maxfd < fdSetSize) :
    ∃ fired, Select.pollImpl r.selectBuild ready = some fired ∧
      ((∀ fd, ¬ r.IsReady ready fd) ∧ fired = [] ∨
        (∃ fd, r.IsReady ready fd) ∧
          fired = (List.range (r.maxfd + 1).toNat).filterMap (r.entryOf ready)) := by
  by_cases hneg : r.maxfd + 1 < 0
  · refine ⟨[], by simp [Select.pollImpl, Select.select, selectBuild, hneg],
      .inl ⟨fun fd h => ?_, rfl⟩⟩
    have := r.covers fd (registered_of_isReady h)
    omega
  · have hle : ¬ r.maxfd + 1 > fdSetSize := by omega
    let rfds := r.rwfds.rfds.filter fun fd => fd < r.maxfd + 1 && ready.readable fd
    let wfds := r.rwfds.wfds.filter fun fd => fd < r.maxfd + 1 && ready.writable fd
    let fds := List.range (r.maxfd + 1).toNat
    have hselect : Select.select (r.maxfd + 1) r.rwfds.rfds r.rwfds.wfds ready =
        some (((fds.countP rfds.has : Nat) : Int) + ((fds.countP wfds.has : Nat) : Int), rfds,
          wfds) := by
      rw [Select.select, if_neg hneg, if_neg hle]
    have hr := filter_has (fun i => (r.selectAgrees i).1) ready.readable
    have hw := filter_has (fun i => (r.selectAgrees i).2) ready.writable
    have hscan : Select.scan r.selectBuild rfds wfds fds = some (fds.filterMap (r.entryOf ready)) :=
      scan_eq (fun i hi => by have := List.mem_range.mp hi; omega) hr hw
    have hcount : ((fds.countP rfds.has : Nat) : Int) + ((fds.countP wfds.has : Nat) : Int) > 0 ↔
        ∃ fd, r.IsReady ready fd := by
      rw [← count_pos_iff hr hw]
      change _ ↔ 0 < fds.countP rfds.has ∨ 0 < fds.countP wfds.has
      omega
    by_cases hready : ∃ fd, r.IsReady ready fd
    · refine ⟨_, ?_, .inr ⟨hready, rfl⟩⟩
      rw [Select.pollImpl]
      simp only [selectBuild, hselect, Option.bind_eq_bind, Option.bind_some,
        if_pos (hcount.mpr hready)]
      exact hscan
    · refine ⟨[], ?_, .inl ⟨fun fd h => hready ⟨fd, h⟩, rfl⟩⟩
      rw [Select.pollImpl]
      simp only [selectBuild, hselect, Option.bind_eq_bind, Option.bind_some,
        if_neg fun h => hready (hcount.mp h)]

theorem select_pollImpl_undefined (hmax : ¬ r.maxfd < fdSetSize) :
    Select.pollImpl r.selectBuild ready = none := by
  have hneg : ¬ r.maxfd + 1 < 0 := by omega
  have hgt : r.maxfd + 1 > fdSetSize := by omega
  simp [Select.pollImpl, Select.select, selectBuild, hneg, hgt]

/-- Nothing is ready, or every slot with a mask has a registered event ready. -/
def NoneIdle (r : Registration) (ready : Ready) : Prop :=
  (∀ fd, ¬ r.IsReady ready fd) ∨ ∀ fd, r.Registered fd → r.IsReady ready fd

theorem select_reports_iff :
    (∃ fired, Select.pollImpl r.selectBuild ready = some fired ∧ Reports r ready fired) ↔
      r.maxfd < fdSetSize ∧ r.NoneIdle ready := by
  by_cases hmax : r.maxfd < fdSetSize
  · obtain ⟨fired, hpoll, hfired⟩ := select_pollImpl ready hmax
    rw [hpoll, and_iff_right hmax]
    simp only [Option.some.injEq, exists_eq_left']
    rcases hfired with ⟨hnone, rfl⟩ | ⟨⟨fd₀, hfd₀⟩, rfl⟩
    · refine iff_of_true ⟨List.nodup_nil, fun f => ?_⟩ (.inl hnone)
      exact iff_of_false (by simp) fun h => hnone _ h.1
    · rw [NoneIdle, or_iff_right fun h => h fd₀ hfd₀]
      constructor
      · intro h fd hreg
        exact ((h.exact ⟨fd, r.readyMask ready fd⟩).mp (mem_entries.mpr ⟨hreg, rfl⟩)).1
      · intro h
        exact ⟨nodup_entries r ready, fun f =>
          mem_entries.trans (and_congr_left' ⟨h f.fd, registered_of_isReady⟩)⟩
  · rw [select_pollImpl_undefined hmax]
    exact iff_of_false (fun ⟨_, h, _⟩ => by cases h) fun h => hmax h.1

end Registration

end ThrSocket
