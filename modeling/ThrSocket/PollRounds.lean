import Mathlib.Data.List.Flatten
import ThrSocket.EventBackends
import ThrSocket.System

/-!
The polls of the three builds and the rounds of the server. A round of the server
starts with a list of armed events in which no direction of a descriptor comes
twice. In every build the kernel's answer to a poll is turned into such a list,
if the table holds the masks of the connections and the build what the table says.
-/

namespace ThrSocket
open Cevents

def KqFilter.bit : KqFilter → EventMask
  | .read => .read
  | .write => .write

def KqueueAgrees (events : Nat → CeventSlot) (set : KqueueSet) : Prop :=
  ∀ fd filter, set fd filter = (events fd).mask.has filter.bit

theorem keventIf_apply (c : Bool) (set : KqueueSet) (fd : Nat) (filter : KqFilter)
    (action : KqAction) (i : Nat) (f : KqFilter) :
    (Kqueue.keventIf c set fd filter action).1 i f =
      if c = true ∧ i = fd ∧ f = filter then decide (action = .add) else set i f := by
  cases c with
  | false => simp [Kqueue.keventIf]
  | true =>
      by_cases hif : i = fd ∧ f = filter
      · obtain ⟨rfl, rfl⟩ := hif
        cases action with
        | add => simp [Kqueue.keventIf, kevent]
        | delete => cases hset : set i f <;> simp [Kqueue.keventIf, kevent, hset]
      · rw [if_neg fun h => hif h.2]
        have hupdate : ∀ b, Function.update set fd (Function.update (set fd) filter b) i f =
            set i f := by
          intro b
          by_cases hi : i = fd
          · subst hi
            rw [Function.update_self, Function.update_of_ne fun hf => hif ⟨rfl, hf⟩]
          · rw [Function.update_of_ne hi]
        cases action with
        | add => exact hupdate true
        | delete =>
            cases hset : set fd filter with
            | true =>
                simp only [Kqueue.keventIf, kevent, hset, if_true]
                exact hupdate false
            | false => simp [Kqueue.keventIf, kevent, hset]

theorem keventIf_accepts (c : Bool) (set : KqueueSet) (fd : Nat) (filter : KqFilter) :
    (Kqueue.keventIf c set fd filter .add).2 = 0 := by
  cases c <;> rfl

/-- Both changes of a call: the filters that the mask names. -/
theorem kevent_both (mask : EventMask) (set : KqueueSet) (fd : Nat) (action : KqAction) (i : Nat)
    (f : KqFilter) :
    (Kqueue.keventIf (mask.has .write) (Kqueue.keventIf (mask.has .read) set fd .read action).1 fd
      .write action).1 i f =
        if mask.has f.bit = true ∧ i = fd then decide (action = .add) else set i f := by
  rw [keventIf_apply, keventIf_apply]
  cases f with
  | read =>
      simp only [reduceCtorEq, and_false, if_false, and_true]
      rfl
  | write =>
      simp only [reduceCtorEq, and_false, if_false, and_true]
      rfl

theorem after_has_bit (evt : CeventSlot) (op : EventOp) (filter : KqFilter) :
    (evt.after op).mask.has filter.bit =
      if op.mask.has filter.bit then op.sets else evt.mask.has filter.bit := by
  cases filter with
  | read => exact after_has_read evt op
  | write => exact after_has_write evt op

/-- Two changes, one for each filter that the mask names. -/
theorem kqueueAgrees_step {events : Nat → CeventSlot} {set set' : KqueueSet} {op : EventOp}
    (h : KqueueAgrees events set) (hset : ∀ i f,
      set' i f = if op.mask.has f.bit = true ∧ i = op.fd then op.sets else set i f) :
    KqueueAgrees (tableStep events op) set' := by
  intro i f
  rw [hset]
  by_cases hi : i = op.fd
  · subst hi
    rw [tableStep_self, after_has_bit, h]
    simp
  · rw [tableStep_of_ne op hi, h]
    simp [hi]

theorem kqueue_call {s : Cevents KqueueSet} {op : EventOp} (hv : op.Valid)
    (hag : KqueueAgrees s.events s.privData) :
    ∃ b, Kqueue.impl.call s op = some (b, 0) ∧ KqueueAgrees (tableStep s.events op) b := by
  cases op with
  | add fd mask proc priv =>
      refine ⟨_, ?_, kqueueAgrees_step hag (kevent_both mask s.privData fd .add)⟩
      simp [Impl.call, Kqueue.impl, Kqueue.addEventImpl, keventIf_accepts]
  | del fd mask =>
      refine ⟨_, ?_, kqueueAgrees_step hag (kevent_both mask s.privData fd .delete)⟩
      simp [Impl.call, Kqueue.impl, Kqueue.delEventImpl, slot_of_lt (show fd < maxEvents from hv)]

namespace EventBuild

/-- What a build holds is what the masks say. -/
def Agrees : (build : EventBuild) → (Nat → CeventSlot) → build.Priv → Prop
  | .epoll => EpollAgrees
  | .kqueue => KqueueAgrees
  | .select => SelectAgrees

def Answers : (build : EventBuild) → build.Priv → build.Answer → Prop
  | .epoll => fun set evs =>
      (evs.map Prod.fst).Nodup ∧ ∀ ev ∈ evs, ∃ event, set ev.1 = some event ∧
        (ev.2.epollin = true → event.epollin = true) ∧
        (ev.2.epollout = true → event.epollout = true)
  | .kqueue => fun set kevts => kevts.Nodup ∧ ∀ kevt ∈ kevts, set kevt.1 kevt.2 = true
  | .select => fun _ _ => True

theorem agrees_start (build : EventBuild) {slots : Nat → CeventSlot}
    (hslots : ∀ fd, (slots fd).mask = .none) : build.Agrees slots build.backend.createPriv := by
  cases build with
  | epoll => exact fun fd => by simp [backend, Epoll.backend, Epoll.view, hslots]
  | kqueue => exact fun fd filter => by simp [backend, Kqueue.backend, hslots]
  | select => exact fun fd => by simp [backend, Select.backend, FdSet.zero, hslots]

end EventBuild

def EvMask.ofBits (mask : EventMask) : EvMask :=
  ⟨mask.has .read, mask.has .write, mask.has .persist⟩

def CeventFired.toFired (f : CeventFired) : Fired := ⟨f.fd, .ofBits f.mask⟩

/-- The table holds the masks of the connections. The listening socket is none of them. -/
def Sys.InTable (s : Sys) (inFd : Nat) (events : Nat → CeventSlot) : Prop :=
  ∀ fd, fd ≠ inFd →
    match s.conns fd with
    | none => (events fd).mask = .none
    | some c => EvMask.ofBits (events fd).mask = c.evt.mask

def firedConns (inFd : Nat) (fired : List CeventFired) : List Fired :=
  (fired.filter fun f => f.fd ≠ inFd).map CeventFired.toFired

def CeventFired.keys (f : CeventFired) : List (Nat × Bool) := f.toFired.tasks.map Task.key

theorem mem_keys {f : CeventFired} {key : Nat × Bool} :
    key ∈ f.keys ↔
      key.1 = f.fd ∧ (if key.2 then f.mask.has .write else f.mask.has .read) = true := by
  obtain ⟨fd, write⟩ := key
  cases write with
  | false =>
      cases hr : f.mask.has .read <;> cases hw : f.mask.has .write <;>
        simp [CeventFired.keys, CeventFired.toFired, Fired.tasks, Task.key, EvMask.ofBits, hr, hw]
  | true =>
      cases hr : f.mask.has .read <;> cases hw : f.mask.has .write <;>
        simp [CeventFired.keys, CeventFired.toFired, Fired.tasks, Task.key, EvMask.ofBits, hr, hw]

theorem nodup_keys (f : CeventFired) : f.keys.Nodup := by
  cases hr : f.mask.has .read <;> cases hw : f.mask.has .write <;>
    simp [CeventFired.keys, CeventFired.toFired, Fired.tasks, Task.key, EvMask.ofBits, hr, hw]

/-- What makes a list of entries one that a round can start with. -/
structure RoundOf (events : Nat → CeventSlot) (fired : List CeventFired) : Prop where
  registered : ∀ f ∈ fired, (events f.fd).mask ≠ .none
  read : ∀ f ∈ fired, f.mask.has .read = true → (events f.fd).mask.has .read = true
  write : ∀ f ∈ fired, f.mask.has .write = true → (events f.fd).mask.has .write = true
  once : (fired.flatMap CeventFired.keys).Nodup

theorem RoundOf.pollable {s : Sys} {inFd : Nat} {events : Nat → CeventSlot}
    {fired : List CeventFired} (h : RoundOf events fired) (hsys : s.InTable inFd events) :
    s.pollable (firedConns inFd fired) = true := by
  simp only [Sys.pollable, Bool.and_eq_true, List.all_eq_true, decide_eq_true_eq]
  constructor
  · intro g hg
    obtain ⟨f, hf, rfl⟩ := List.mem_map.mp hg
    obtain ⟨hmem, hfd⟩ := List.mem_filter.mp hf
    have hslot := hsys f.fd (of_decide_eq_true hfd)
    change (match s.conns f.fd with | none => false | some c => _) = true
    cases hc : s.conns f.fd with
    | none =>
        rw [hc] at hslot
        exact absurd hslot (h.registered f hmem)
    | some c =>
        rw [hc] at hslot
        simp only [CeventFired.toFired, ← hslot, EvMask.ofBits]
        have hread := h.read f hmem
        have hwrite := h.write f hmem
        cases hr : f.mask.has .read <;> cases hw : f.mask.has .write <;> simp_all
  · have hkeys : ((firedConns inFd fired).flatMap Fired.tasks).map Task.key =
        (fired.filter fun f => f.fd ≠ inFd).flatMap CeventFired.keys := by
      rw [firedConns, List.flatMap_map, List.map_flatMap]
      rfl
    rw [hkeys]
    exact h.once.sublist (List.filter_sublist.flatMap _)

/-- Entries of different descriptors share no direction. -/
theorem nodup_flatMap_keys {fired : List CeventFired} (h : (fired.map CeventFired.fd).Nodup) :
    (fired.flatMap CeventFired.keys).Nodup := by
  rw [List.nodup_flatMap]
  refine ⟨fun f _ => nodup_keys f, ?_⟩
  rw [List.Nodup, List.pairwise_map] at h
  apply h.imp
  intro f g hne key hf hg
  exact hne ((mem_keys.mp hf).1.symm.trans (mem_keys.mp hg).1)

theorem ofBits_has (r w : Bool) :
    (EventMask.ofBits r w).has .read = r ∧ (EventMask.ofBits r w).has .write = w := by
  cases r <;> cases w <;> decide

theorem epoll_firedOf_has (ev : Nat × EpollEvent) :
    (Epoll.firedOf ev).mask.has .read = ev.2.epollin ∧
      (Epoll.firedOf ev).mask.has .write = ev.2.epollout := by
  obtain ⟨fd, epollin, epollout⟩ := ev
  have hmask : (Epoll.firedOf (fd, ⟨epollin, epollout⟩)).mask = .ofBits epollin epollout := by
    cases epollin <;> cases epollout <;> rfl
  rw [hmask]
  exact ofBits_has epollin epollout

theorem epoll_round {events : Nat → CeventSlot} {set : EpollSet} {evs : List (Nat × EpollEvent)}
    (hag : EpollAgrees events set) (h : EventBuild.epoll.Answers set evs) :
    RoundOf events (Epoll.pollImpl evs) := by
  obtain ⟨hnodup, hevs⟩ := h
  have hheld : ∀ f ∈ Epoll.pollImpl evs, (events f.fd).mask ≠ .none ∧
      (f.mask.has .read = true → (events f.fd).mask.has .read = true) ∧
      (f.mask.has .write = true → (events f.fd).mask.has .write = true) := by
    intro f hf
    obtain ⟨ev, hev, rfl⟩ := List.mem_map.mp hf
    obtain ⟨event, hset, hin, hout⟩ := hevs ev hev
    have hview := (hag ev.1).symm.trans hset
    rw [Epoll.view] at hview
    split at hview
    · cases hview
    · rename_i hmask
      obtain rfl := Option.some.inj hview
      rw [(epoll_firedOf_has ev).1, (epoll_firedOf_has ev).2]
      exact ⟨hmask, hin, hout⟩
  refine ⟨fun f hf => (hheld f hf).1, fun f hf => (hheld f hf).2.1,
    fun f hf => (hheld f hf).2.2, nodup_flatMap_keys ?_⟩
  have hfds : (Epoll.pollImpl evs).map CeventFired.fd = evs.map Prod.fst := by
    rw [Epoll.pollImpl, List.map_map]
    rfl
  rw [hfds]
  exact hnodup

def KqFilter.isWrite : KqFilter → Bool
  | .read => false
  | .write => true

theorem kqueue_firedOf (fd : Nat) (filter : KqFilter) :
    Kqueue.firedOf (fd, filter) = ⟨fd, filter.bit⟩ := by
  cases filter <;> simp [Kqueue.firedOf, KqFilter.bit, EventMask.none]

theorem bit_has (filter : KqFilter) :
    filter.bit.has .read = !filter.isWrite ∧ filter.bit.has .write = filter.isWrite := by
  cases filter <;> decide

theorem kqueue_keys (kevt : Nat × KqFilter) :
    (Kqueue.firedOf kevt).keys = [(kevt.1, kevt.2.isWrite)] := by
  obtain ⟨fd, filter⟩ := kevt
  rw [kqueue_firedOf]
  obtain ⟨hread, hwrite⟩ := bit_has filter
  cases filter <;>
    simp [CeventFired.keys, CeventFired.toFired, Fired.tasks, Task.key, EvMask.ofBits, hread,
      hwrite, KqFilter.isWrite]

/-- A descriptor that is ready in both directions has two entries. -/
theorem kqueue_round {events : Nat → CeventSlot} {set : KqueueSet}
    {kevts : List (Nat × KqFilter)} (hag : KqueueAgrees events set)
    (h : EventBuild.kqueue.Answers set kevts) : RoundOf events (Kqueue.pollImpl kevts) := by
  obtain ⟨hnodup, hkevts⟩ := h
  have hheld : ∀ f ∈ Kqueue.pollImpl kevts, ∃ filter : KqFilter,
      (events f.fd).mask.has filter.bit = true ∧ f.mask = filter.bit := by
    intro f hf
    obtain ⟨⟨fd, filter⟩, hkevt, rfl⟩ := List.mem_map.mp hf
    rw [kqueue_firedOf]
    exact ⟨filter, (hag fd filter).symm.trans (hkevts _ hkevt), rfl⟩
  refine ⟨?_, ?_, ?_, ?_⟩
  · intro f hf hnone
    obtain ⟨filter, hbit, _⟩ := hheld f hf
    rw [hnone, EventMask.has_none] at hbit
    cases hbit
  · intro f hf hread
    obtain ⟨filter, hbit, hmask⟩ := hheld f hf
    cases filter with
    | read => exact hbit
    | write =>
        rw [hmask, (bit_has .write).1] at hread
        cases hread
  · intro f hf hwrite
    obtain ⟨filter, hbit, hmask⟩ := hheld f hf
    cases filter with
    | write => exact hbit
    | read =>
        rw [hmask, (bit_has .read).2] at hwrite
        cases hwrite
  · have hkeys : (Kqueue.pollImpl kevts).flatMap CeventFired.keys =
        kevts.map fun kevt => (kevt.1, kevt.2.isWrite) := by
      rw [Kqueue.pollImpl, List.flatMap_map]
      simp only [kqueue_keys]
      exact List.flatMap_pure_eq_map ..
    rw [hkeys]
    apply hnodup.map
    intro kevt kevt' heq
    obtain ⟨fd, filter⟩ := kevt
    obtain ⟨fd', filter'⟩ := kevt'
    cases filter <;> cases filter' <;> simp_all [KqFilter.isWrite]

theorem addIfSet_cases {set : FdSet} {fd : Nat} {evtMask bit mask mask' : EventMask}
    (h : Select.addIfSet set fd evtMask bit mask = some mask') :
    mask' = mask ∨ evtMask.has bit = true ∧ mask' = mask ||| bit := by
  rw [Select.addIfSet] at h
  split at h
  · rename_i hbit
    obtain ⟨b, _, rfl⟩ := Option.map_eq_some_iff.mp h
    cases b with
    | false => exact .inl rfl
    | true => exact .inr ⟨hbit, rfl⟩
  · exact .inl (Option.some.inj h).symm

/-- The two additions of the scan set only bits of the slot. -/
theorem addIfSet_armed {wfds rfds : FdSet} {fd : Nat} {evtMask mask mask' : EventMask}
    (hwrite : Select.addIfSet wfds fd evtMask .write .none = some mask)
    (hread : Select.addIfSet rfds fd evtMask .read mask = some mask') :
    (mask'.has .read = true → evtMask.has .read = true) ∧
      (mask'.has .write = true → evtMask.has .write = true) := by
  have hwr : EventMask.write.has .read = false := by decide
  have hrw : EventMask.read.has .write = false := by decide
  have hmask : mask.has .read = false ∧ (mask.has .write = true → evtMask.has .write = true) := by
    cases addIfSet_cases hwrite with
    | inl hsame => simp [hsame]
    | inr hbit => simp [hbit.1, hbit.2, hwr]
  cases addIfSet_cases hread with
  | inl hsame => simpa [hsame, hmask.1] using hmask.2
  | inr hbit => simpa [hbit.1, hbit.2, hrw] using hmask.2

theorem scan_round {s : Cevents RwfdSet} {rfds wfds : FdSet} {is : List Nat}
    {fired : List CeventFired} (h : Select.scan s rfds wfds is = some fired) :
    (fired.map CeventFired.fd).Sublist is ∧ ∀ f ∈ fired, (s.events f.fd).mask ≠ .none ∧
      (f.mask.has .read = true → (s.events f.fd).mask.has .read = true) ∧
      (f.mask.has .write = true → (s.events f.fd).mask.has .write = true) := by
  induction is generalizing fired with
  | nil =>
      cases h
      exact ⟨.slnil, by simp⟩
  | cons i is ih =>
      rw [Select.scan] at h
      obtain ⟨evt, hslot, h⟩ := Option.bind_eq_some_iff.mp h
      obtain rfl : s.events i = evt := by
        rw [Cevents.slot, Option.ite_none_right_eq_some, Option.some.injEq] at hslot
        exact hslot.2
      split at h
      · obtain ⟨hsub, hfired⟩ := ih h
        exact ⟨hsub.cons i, hfired⟩
      · rename_i hnone
        obtain ⟨mask, hwrite, h⟩ := Option.bind_eq_some_iff.mp h
        obtain ⟨mask', hread, h⟩ := Option.bind_eq_some_iff.mp h
        obtain ⟨rest, hrest, h⟩ := Option.bind_eq_some_iff.mp h
        cases h
        obtain ⟨hsub, hfired⟩ := ih hrest
        refine ⟨hsub.cons_cons i, List.forall_mem_cons.mpr ⟨⟨hnone, ?_, ?_⟩, hfired⟩⟩
        · exact (addIfSet_armed hwrite hread).1
        · exact (addIfSet_armed hwrite hread).2

/-- Whatever is ready. -/
theorem select_round {s : Cevents RwfdSet} {ready : Ready} {fired : List CeventFired}
    (h : Select.pollImpl s ready = some fired) : RoundOf s.events fired := by
  obtain ⟨⟨rs, rfds, wfds⟩, _, h⟩ := Option.bind_eq_some_iff.mp h
  dsimp only at h
  split at h
  · obtain ⟨hsub, hfired⟩ := scan_round h
    exact ⟨fun f hf => (hfired f hf).1, fun f hf => (hfired f hf).2.1,
      fun f hf => (hfired f hf).2.2, nodup_flatMap_keys (List.nodup_range.sublist hsub)⟩
  · cases h
    exact ⟨by simp, by simp, by simp, List.nodup_nil⟩

/-- What `cevents_poll_impl` stores. -/
theorem poll_round {build : EventBuild} {tab : Cevents build.Priv} {a : build.Answer}
    {fired : List CeventFired} (hag : build.Agrees tab.events tab.privData)
    (ha : build.Answers tab.privData a) (h : build.backend.pollImpl tab a = some fired) :
    RoundOf tab.events fired := by
  cases build with
  | epoll =>
      cases h
      exact epoll_round hag ha
  | kqueue =>
      cases h
      exact kqueue_round hag ha
  | select => exact select_round h

end ThrSocket
