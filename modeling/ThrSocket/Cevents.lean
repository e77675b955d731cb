import Mathlib.Logic.Function.Basic
import ThrSocket.Lib.Machine

/-!
The event table of cevent.c over its back ends. A back end keeps a view of its
own of what is registered: the kernel's interest list of epoll, or the two sets
of select, which hold FD_SETSIZE descriptors; FD_SET and its kin are undefined on
others, and so is a look behind the end of the event table.
-/

namespace ThrSocket

abbrev EventMask := BitVec 32

namespace EventMask

def none : EventMask := 0x0
def read : EventMask := 0x1
def write : EventMask := 0x1 <<< 1
def persist : EventMask := 0x1 <<< 2

def has (m bit : EventMask) : Bool := m &&& bit != 0

theorem has_bit (m : EventMask) (k : Nat) (hk : k < 32) :
    has m (BitVec.twoPow 32 k) = m.getLsbD k := by
  rw [has, BitVec.and_twoPow]
  have hne : ¬ BitVec.twoPow 32 k = 0#32 := by
    intro h
    have := congrArg (BitVec.getLsbD · k) h
    simp [hk] at this
  cases m.getLsbD k <;> simp [hne]

theorem has_read (m : EventMask) : has m read = m.getLsbD 0 := has_bit m 0 (by decide)

theorem has_write (m : EventMask) : has m write = m.getLsbD 1 := has_bit m 1 (by decide)

@[simp] theorem has_none (bit : EventMask) : has none bit = false := by simp [has, none]

@[simp] theorem or_has_read (m n : EventMask) :
    has (m ||| n) read = (has m read || has n read) := by
  simp only [has_read, BitVec.getLsbD_or]

@[simp] theorem or_has_write (m n : EventMask) :
    has (m ||| n) write = (has m write || has n write) := by
  simp only [has_write, BitVec.getLsbD_or]

@[simp] theorem without_has_read (m n : EventMask) :
    has (m &&& ~~~n) read = (has m read && !has n read) := by
  simp [has_read]

@[simp] theorem without_has_write (m n : EventMask) :
    has (m &&& ~~~n) write = (has m write && !has n write) := by
  simp [has_write]

theorem or_ne_none {m n : EventMask} (hn : n ≠ none) : m ||| n ≠ none := by
  intro h
  exact hn (BitVec.or_eq_zero_iff.mp h).2

end EventMask

/-- A slot of `cevts->events`. Procedures and private data are addresses. -/
structure CeventSlot where
  mask : EventMask
  readProc : Option Nat
  writeProc : Option Nat
  priv : Option Nat
deriving DecidableEq, Repr

structure Cevents (B : Type) where
  maxfd : Int
  events : Nat → CeventSlot
  privData : B

def maxEvents : Nat := 10240 * 20

namespace Cevents

variable {B : Type}

def slot (s : Cevents B) (fd : Nat) : Option CeventSlot :=
  if fd < maxEvents then some (s.events fd) else none

structure Impl (B : Type) where
  addEvent : Cevents B → Nat → EventMask → Option (B × Int)
  delEvent : Cevents B → Nat → EventMask → Option (B × Int)

structure Ret where
  rs : Int
  impl : Option Int
deriving DecidableEq, Repr

def addEventInner (impl : Impl B) (s : Cevents B) (fd : Nat) (mask : EventMask)
    (proc priv : Option Nat) : Option (Cevents B × Ret) :=
  if fd > maxEvents then some (s, ⟨-1, none⟩)
  else do
    let evt ← s.slot fd
    let (privData, rs) ← impl.addEvent s fd mask
    if rs < 0 then some ({ s with privData := privData }, ⟨rs, some rs⟩)
    else
      let evt : CeventSlot :=
        { mask := evt.mask ||| mask
          readProc := if mask.has .read then proc else evt.readProc
          writeProc := if mask.has .write then proc else evt.writeProc
          priv := priv }
      some (⟨if (fd : Int) > s.maxfd ∧ evt.mask ≠ .none then fd else s.maxfd,
        Function.update s.events fd evt, privData⟩, ⟨0, some rs⟩)

def lastRegistered (events : Nat → CeventSlot) : Nat → Option Nat
  | 0 => none
  | n + 1 => if (events n).mask ≠ .none then some n else lastRegistered events n

/-- Where no other descriptor is registered, `maxfd` stays. -/
def delEventInner (impl : Impl B) (s : Cevents B) (fd : Nat) (mask : EventMask) :
    Option (Cevents B × Ret) :=
  if fd > maxEvents then some (s, ⟨-1, none⟩)
  else do
    let evt ← s.slot fd
    if evt.mask = .none then some (s, ⟨0, none⟩)
    else
      let (privData, rs) ← impl.delEvent s fd mask
      let evt := { evt with mask := evt.mask &&& ~~~mask }
      let events := Function.update s.events fd evt
      let maxfd :=
        if s.maxfd = fd ∧ evt.mask = .none then
          (lastRegistered events fd).elim s.maxfd fun j => (j : Int)
        else s.maxfd
      some (⟨maxfd, events, privData⟩, ⟨0, some rs⟩)

end Cevents

inductive EventOp
  | add (fd : Nat) (mask : EventMask) (proc priv : Option Nat)
  | del (fd : Nat) (mask : EventMask)
deriving DecidableEq, Repr

namespace EventOp

def fd : EventOp → Nat
  | .add fd _ _ _ => fd
  | .del fd _ => fd

def mask : EventOp → EventMask
  | .add _ mask _ _ => mask
  | .del _ mask => mask

def Valid : EventOp → Prop
  | .add fd mask _ _ => fd < maxEvents ∧ mask ≠ .none
  | .del fd _ => fd < maxEvents

instance : DecidablePred Valid
  | .add fd mask _ _ => inferInstanceAs (Decidable (fd < maxEvents ∧ mask ≠ .none))
  | .del fd _ => inferInstanceAs (Decidable (fd < maxEvents))

end EventOp

namespace Cevents

variable {B : Type}

def step (impl : Impl B) (s : Cevents B) : EventOp → Option (Cevents B × Ret)
  | .add fd mask proc priv => addEventInner impl s fd mask proc priv
  | .del fd mask => delEventInner impl s fd mask

end Cevents

structure EpollEvent where
  epollin : Bool
  epollout : Bool
deriving DecidableEq, Repr

abbrev EpollSet := Nat → Option EpollEvent

inductive EpollCtl
  | add
  | mod
  | del
deriving DecidableEq, Repr

/-- `epoll_ctl`: a descriptor can be added once, and changed or deleted after that. -/
def epollCtl (set : EpollSet) (operation : EpollCtl) (fd : Nat) (event : EpollEvent) :
    EpollSet × Int :=
  match operation, set fd with
  | .add, none => (Function.update set fd (some event), 0)
  | .mod, some _ => (Function.update set fd (some event), 0)
  | .del, some _ => (Function.update set fd none, 0)
  | _, _ => (set, -1)

namespace Epoll

def events (mask : EventMask) : EpollEvent := ⟨mask.has .read, mask.has .write⟩

def addEventImpl (s : Cevents EpollSet) (fd : Nat) (mask : EventMask) :
    Option (EpollSet × Int) := do
  let evt ← s.slot fd
  let operation : EpollCtl := if evt.mask ≠ .none then .mod else .add
  some (epollCtl s.privData operation fd (events (mask ||| evt.mask)))

def delEventImpl (s : Cevents EpollSet) (fd : Nat) (mask : EventMask) :
    Option (EpollSet × Int) := do
  let evt ← s.slot fd
  let oldMask := evt.mask &&& ~~~mask
  let operation : EpollCtl := if oldMask ≠ .none then .mod else .del
  some (epollCtl s.privData operation fd (events oldMask))

def impl : Cevents.Impl EpollSet := ⟨addEventImpl, delEventImpl⟩

end Epoll

def fdSetSize : Nat := 1024

structure FdSet where
  has : Nat → Bool
  bounded : ∀ fd, fdSetSize ≤ fd → has fd = false

namespace FdSet

def zero : FdSet := ⟨fun _ => false, fun _ _ => rfl⟩

/-- `FD_SET` for `b`, `FD_CLR` for its negation -/
def assign (set : FdSet) (fd : Nat) (b : Bool) : Option FdSet :=
  if h : fd < fdSetSize then
    some ⟨Function.update set.has fd b, fun i hi => by
      rw [Function.update_of_ne (by omega)]
      exact set.bounded i hi⟩
  else none

def assignIf (set : FdSet) (c : Bool) (fd : Nat) (b : Bool) : Option FdSet :=
  if c then set.assign fd b else some set

def isset (set : FdSet) (fd : Nat) : Option Bool :=
  if fd < fdSetSize then some (set.has fd) else none

end FdSet

structure RwfdSet where
  wfds : FdSet
  rfds : FdSet

namespace Select

def assign (rwfds : RwfdSet) (fd : Nat) (mask : EventMask) (b : Bool) : Option RwfdSet := do
  let rfds ← rwfds.rfds.assignIf (mask.has .read) fd b
  let wfds ← rwfds.wfds.assignIf (mask.has .write) fd b
  some ⟨wfds, rfds⟩

def addEventImpl (s : Cevents RwfdSet) (fd : Nat) (mask : EventMask) : Option (RwfdSet × Int) :=
  (assign s.privData fd mask true).map (·, 0)

def delEventImpl (s : Cevents RwfdSet) (fd : Nat) (mask : EventMask) : Option (RwfdSet × Int) :=
  (assign s.privData fd mask false).map (·, 0)

def impl : Cevents.Impl RwfdSet := ⟨addEventImpl, delEventImpl⟩

end Select

def CeventSlot.after (evt : CeventSlot) : EventOp → CeventSlot
  | .add _ mask proc priv =>
      { mask := evt.mask ||| mask
        readProc := if mask.has .read then proc else evt.readProc
        writeProc := if mask.has .write then proc else evt.writeProc
        priv := priv }
  | .del _ mask => { evt with mask := evt.mask &&& ~~~mask }

def tableStep (events : Nat → CeventSlot) (op : EventOp) : Nat → CeventSlot :=
  Function.update events op.fd ((events op.fd).after op)

namespace Cevents

variable {B : Type} {impl : Impl B} {s : Cevents B} {op : EventOp}

/-- The back end is asked: a deletion on a slot without events returns at once. -/
def Asks (s : Cevents B) : EventOp → Prop
  | .add .. => True
  | .del fd _ => (s.events fd).mask ≠ .none

def Impl.call (impl : Impl B) (s : Cevents B) : EventOp → Option (B × Int)
  | .add fd mask _ _ => impl.addEvent s fd mask
  | .del fd mask => impl.delEvent s fd mask

def Covers (events : Nat → CeventSlot) (maxfd : Int) : Prop :=
  ∀ fd : Nat, (events fd).mask ≠ .none → (fd : Int) ≤ maxfd

theorem slot_of_lt {fd : Nat} (h : fd < maxEvents) : s.slot fd = some (s.events fd) := if_pos h

theorem lastRegistered_covers {events : Nat → CeventSlot} {n fd : Nat} (hlt : fd < n)
    (hfd : (events fd).mask ≠ .none) : ∃ j, lastRegistered events n = some j ∧ fd ≤ j := by
  induction n with
  | zero => omega
  | succ n ih =>
      rw [lastRegistered]
      by_cases hn : (events n).mask ≠ .none
      · exact ⟨n, if_pos hn, by omega⟩
      · have hne : fd ≠ n := by
          rintro rfl
          exact hn hfd
        rw [if_neg hn]
        exact ih (by omega)

theorem covers_add {fd : Nat} {evt : CeventSlot} (hcov : Covers s.events s.maxfd) :
    Covers (Function.update s.events fd evt)
      (if (fd : Int) > s.maxfd ∧ evt.mask ≠ .none then fd else s.maxfd) := by
  intro i hi
  by_cases hif : i = fd
  · subst hif
    rw [Function.update_self] at hi
    split_ifs with hc
    · exact Int.le_refl _
    · exact Int.not_lt.mp fun hlt => hc ⟨hlt, hi⟩
  · rw [Function.update_of_ne hif] at hi
    have := hcov i hi
    split_ifs <;> omega

theorem covers_del {fd : Nat} {evt : CeventSlot}
    (hevt : evt.mask ≠ .none → (s.events fd).mask ≠ .none)
    (hcov : Covers s.events s.maxfd) :
    Covers (Function.update s.events fd evt)
      (if s.maxfd = fd ∧ evt.mask = .none then
        (lastRegistered (Function.update s.events fd evt) fd).elim s.maxfd fun j => (j : Int)
      else s.maxfd) := by
  intro i hi
  have hle : (i : Int) ≤ s.maxfd := by
    by_cases hif : i = fd
    · subst hif
      rw [Function.update_self] at hi
      exact hcov i (hevt hi)
    · rw [Function.update_of_ne hif] at hi
      exact hcov i hi
  split_ifs with hc
  · -- the scan stops at the largest registered descriptor below `fd`
    have hne : i ≠ fd := by
      rintro rfl
      rw [Function.update_self] at hi
      exact hi hc.2
    obtain ⟨j, hj, hij⟩ := lastRegistered_covers (n := fd) (by omega) hi
    rw [hj, Option.elim_some]
    omega
  · exact hle

theorem step_asked {b : B} {rs : Int} (hv : op.Valid) (hask : Asks s op)
    (hcall : impl.call s op = some (b, rs)) (hrs : 0 ≤ rs) :
    ∃ maxfd, step impl s op = some (⟨maxfd, tableStep s.events op, b⟩, ⟨0, some rs⟩) ∧
      (Covers s.events s.maxfd → Covers (tableStep s.events op) maxfd) := by
  cases op with
  | add fd mask proc priv =>
      refine ⟨_, ?_, covers_add⟩
      simp [step, addEventInner, Nat.not_lt.mpr (Nat.le_of_lt hv.1), slot_of_lt hv.1,
        show impl.addEvent s fd mask = some (b, rs) from hcall, Int.not_lt.mpr hrs, tableStep,
        CeventSlot.after, EventOp.fd]
  | del fd mask =>
      refine ⟨_, ?_, covers_del (fun h h' => h ?_)⟩
      · simp [step, delEventInner, Nat.not_lt.mpr (Nat.le_of_lt hv),
          slot_of_lt (show fd < maxEvents from hv), show ¬ (s.events fd).mask = .none from hask,
          show impl.delEvent s fd mask = some (b, rs) from hcall, tableStep, CeventSlot.after,
          EventOp.fd]
        congr
      · simp [CeventSlot.after, h', EventMask.none]

theorem step_idle (impl : Impl B) (hv : op.Valid) (hask : ¬ Asks s op) :
    step impl s op = some (s, ⟨0, none⟩) ∧ tableStep s.events op = s.events := by
  cases op with
  | add => exact absurd trivial hask
  | del fd mask =>
      have hnone : (s.events fd).mask = .none := not_not.mp hask
      constructor
      · simp [step, delEventInner, Nat.not_lt.mpr (Nat.le_of_lt hv),
          slot_of_lt (show fd < maxEvents from hv), hnone]
      · refine Function.update_eq_self_iff.mpr ?_
        have hsame : (s.events fd).mask &&& ~~~mask = (s.events fd).mask := by
          simp [hnone, EventMask.none]
        simp only [CeventSlot.after, EventOp.fd, hsame]

theorem step_undefined (hv : op.Valid) (hask : Asks s op) (hcall : impl.call s op = none) :
    step impl s op = none := by
  cases op with
  | add fd mask proc priv =>
      simp [step, addEventInner, Nat.not_lt.mpr (Nat.le_of_lt hv.1), slot_of_lt hv.1,
        show impl.addEvent s fd mask = none from hcall]
  | del fd mask =>
      simp [step, delEventInner, Nat.not_lt.mpr (Nat.le_of_lt hv),
        slot_of_lt (show fd < maxEvents from hv), show ¬ (s.events fd).mask = .none from hask,
        show impl.delEvent s fd mask = none from hcall]

end Cevents

end ThrSocket
