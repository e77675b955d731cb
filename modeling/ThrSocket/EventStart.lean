import ThrSocket.EventLoop

/-!
What is known of an event table after `cevents_create`. Its `memset` clears no
byte, and the table of events is not cleared at all: masks and `maxfd` are what
jmalloc hands out. Descriptors that have never been added are left alone from
the first call on where these are clear to begin with, and nowhere else.
-/

namespace ThrSocket
open Cevents TrackedEvents

/-- The call that the back end makes for an addition is `epoll_ctl` with EPOLL_CTL_ADD. -/
def Epoll.UsesAdd (s : Cevents EpollSet) (fd : Nat) (mask : EventMask) : Prop :=
  Epoll.addEventImpl s fd mask = some (epollCtl s.privData .add fd (Epoll.events mask))

/-- The kernel does not do the same for another operation. -/
theorem epollCtl_eq_add {set : EpollSet} {operation : EpollCtl} {fd : Nat} {event : EpollEvent}
    (h : epollCtl set operation fd event = epollCtl set .add fd event) : operation = .add := by
  have hrs := congrArg Prod.snd h
  cases operation with
  | add => rfl
  | mod | del => cases hset : set fd <;> simp [epollCtl, hset] at hrs

/-- epoll alone tells an addition from a change. -/
def EventBuild.UsesAdd : (build : EventBuild) → Cevents build.Priv → Nat → EventMask → Prop
  | .epoll => Epoll.UsesAdd
  | .kqueue => fun _ _ _ => True
  | .select => fun _ _ _ => True

def maxAdded (added : List Nat) : Nat := added.foldr max 0

section

variable {B A : Type}

/-- What is known of a state: all about the descriptors that have not been added, and a bound on
`maxfd`. The descriptor MAX_EVENTS has no slot that a deletion could look at. -/
structure KnownState (impl : Impl B) (t : TrackedEvents B) : Prop where
  untouched : ∀ fd < maxEvents, fd ∉ t.added → (t.table.events fd).mask = .none
  deletion : ∀ fd ≠ maxEvents, fd ∉ t.added → ∀ mask,
    ∃ o, step impl t.table (.del fd mask) = some (t.table, o)
  maxfd : t.table.maxfd ≤ maxAdded t.added

def KnownStep (impl : Impl B) (UsesAdd : Cevents B → Nat → EventMask → Prop) (t : TrackedEvents B)
    (op : EventOp) : Prop :=
  (∀ fd mask proc priv, op = .add fd mask proc priv → fd < maxEvents → fd ∉ t.added →
      UsesAdd t.table fd mask) ∧
    ∀ t' o, t.opStep impl op = some (t', o) → KnownState impl t'

def DispatchesAdded (impl : Impl B) (t : TrackedEvents B) (procs : Procs)
    (fired : List CeventFired) : Prop :=
  (∀ f ∈ fired, f.fd ∈ t.added) ∧
    ∀ s ds, pollLoop impl procs t.table fired = some (s, ds) → ∀ d ∈ ds, d.fd ∈ t.added

/-- In every state and at every call of the run. -/
def StaysKnown (be : EventBackend B A) (UsesAdd : Cevents B → Nat → EventMask → Prop)
    (t : TrackedEvents B) (calls : List (EventCall A)) : Prop :=
  KnownState be.impl t ∧
    Machine.Along (callStep be)
      (CallMeets be (KnownStep be.impl UsesAdd) (DispatchesAdded be.impl)) t calls

def CeventsMem.Blank (mem : CeventsMem) : Prop :=
  (∀ fd < maxEvents, (mem.events fd).mask = .none) ∧ mem.maxfd ≤ 0

variable {t t' : TrackedEvents B} {op : EventOp}

/-- What is not added has no mask and is not held by the kernel. -/
structure StartInv (be : EventBackend B A) (t : TrackedEvents B) : Prop where
  untouched : ∀ fd < maxEvents, fd ∉ t.added → (t.table.events fd).mask = .none
  maxfd : t.table.maxfd ≤ maxAdded t.added
  holds : ∀ fd, be.Holds t.table.privData fd → fd ∈ t.added

theorem StartInv.known {be : EventBackend B A} (ht : StartInv be t) : KnownState be.impl t where
  untouched := ht.untouched
  deletion fd hne hfd mask := by
    by_cases hlt : fd < maxEvents
    · have hidle : ¬ Asks t.table (.del fd mask) := not_not.mpr (ht.untouched fd hlt hfd)
      exact ⟨_, (step_idle be.impl (show (EventOp.del fd mask).Valid from hlt) hidle).1⟩
    · have hlimit : maxEvents < (EventOp.del fd mask).fd :=
        Nat.lt_of_le_of_ne (Nat.le_of_not_lt hlt) hne.symm
      exact ⟨_, step_rejects be.impl t.table hlimit⟩
  maxfd := ht.maxfd

theorem maxAdded_le (adds added : List Nat) : maxAdded added ≤ maxAdded (adds ++ added) := by
  induction adds with
  | nil => exact Nat.le_refl _
  | cons fd adds ih => exact Nat.le_trans ih (Nat.le_max_right _ _)

theorem maxfd_le_of_moves {s : Cevents B} {maxfd : Int} {added : List Nat}
    (h : MovesMaxfd s op maxfd) (hs : s.maxfd ≤ maxAdded added) :
    maxfd ≤ maxAdded (op.adds ++ added) := by
  rcases h with ⟨hadds, rfl⟩ | ⟨hle, -⟩
  · rw [hadds]
    exact Int.ofNat_le.mpr (Nat.le_max_left _ _)
  · have := maxAdded_le op.adds added
    omega

/-- A slot that is changed is one that has been added. -/
theorem tableStep_untouched {s : Cevents B} {added : List Nat} (hask : Asks s op)
    (hs : ∀ fd < maxEvents, fd ∉ added → (s.events fd).mask = .none) :
    ∀ fd < maxEvents, fd ∉ op.adds ++ added → (tableStep s.events op fd).mask = .none := by
  intro fd hlt hfd
  have hold : fd ∉ added := fun h => hfd (List.mem_append_right _ h)
  have hne : fd ≠ op.fd := by
    rintro rfl
    cases op with
    | add fd mask proc priv => exact hfd List.mem_cons_self
    | del fd mask => exact hask (hs fd hlt hold)
  rw [tableStep_of_ne op hne]
  exact hs fd hlt hold

theorem StartInv.opStep {be : EventBackend B A} (hbe : be.Lawful) {o : Ret} (ht : StartInv be t)
    (h : t.opStep be.impl op = some (t', o)) : StartInv be t' := by
  obtain ⟨s', hstep, rfl⟩ := opStep_eq_some.mp h
  have untouched : ∀ fd < maxEvents, fd ∉ op.adds ++ t.added →
      (t.table.events fd).mask = .none := fun fd hlt hfd =>
    ht.untouched fd hlt fun hold => hfd (List.mem_append_right _ hold)
  have maxfd : t.table.maxfd ≤ maxAdded (op.adds ++ t.added) := by
    have := maxAdded_le op.adds t.added
    have := ht.maxfd
    omega
  have holds : ∀ {b rs}, be.impl.call t.table op = some (b, rs) →
      ∀ fd, be.Holds b fd → fd ∈ op.adds ++ t.added := fun hcall fd hfd =>
    List.mem_append.mpr ((hbe.call_holds hcall hfd).symm.imp id (ht.holds fd))
  cases step_effect hstep with
  | same => exact ⟨untouched, maxfd, fun fd hfd => List.mem_append_right _ (ht.holds fd hfd)⟩
  | refused hcall => exact ⟨untouched, maxfd, holds hcall⟩
  | changed _ hask hcall hmaxfd =>
      exact ⟨tableStep_untouched hask ht.untouched, maxfd_le_of_moves hmaxfd ht.maxfd, holds hcall⟩

theorem StartInv.dispatches {be : EventBackend B A} (hbe : be.Lawful) {answer : A} {procs : Procs}
    {fired : List CeventFired} (ht : StartInv be t)
    (hans : be.Answers t.table.privData answer)
    (h : be.pollImpl t.table answer = some fired) : DispatchesAdded be.impl t procs fired := by
  have hfired : ∀ f ∈ fired, f.fd ∈ t.added := by
    intro f hf
    rcases (hbe.reports hans h).2 f hf with hheld | ⟨hlt, hmask⟩
    · exact ht.holds f.fd hheld
    · exact by_contra fun hfd => hmask (ht.untouched f.fd hlt hfd)
  refine ⟨hfired, fun s ds hloop d hd => ?_⟩
  obtain ⟨f, hf, hfd⟩ := (pollLoop_spec hloop).2 d hd
  rw [hfd]
  exact hfired f hf

theorem EventBackend.Lawful.staysKnown {be : EventBackend B A} (hbe : be.Lawful)
    {UsesAdd : Cevents B → Nat → EventMask → Prop}
    (huses : ∀ s fd mask, fd < maxEvents → (s.events fd).mask = .none → UsesAdd s fd mask)
    {calls : List (EventCall A)} (ht : StartInv be t)
    (hans : Machine.Along (callStep be) (Answered be) t calls) :
    StaysKnown be UsesAdd t calls := by
  have htrivial : Machine.Along (callStep be)
      (CallMeets be (fun _ _ => True) fun _ _ _ => True) t calls :=
    Machine.along_mono (fun t call _ => callMeets_trivial t call) hans
  refine ⟨ht.known, along_calls (StartInv be) (fun ht _ h => ht.opStep hbe h)
    (fun {t op} ht _ => ⟨?_, fun _ _ h => (ht.opStep hbe h).known⟩)
    (fun ht hans h => ht.dispatches hbe hans h) ht hans htrivial⟩
  rintro fd mask proc priv rfl hlt hfd
  exact huses t.table fd mask hlt (ht.untouched fd hlt hfd)

end

theorem Epoll.usesAdd_of_none (s : Cevents EpollSet) (fd : Nat) (mask : EventMask)
    (hlt : fd < maxEvents) (h : (s.events fd).mask = .none) : Epoll.UsesAdd s fd mask := by
  have hor : mask ||| EventMask.none = mask := BitVec.or_zero
  rw [Epoll.UsesAdd, Epoll.addEventImpl, slot_of_lt hlt, Option.bind_eq_bind, Option.bind_some, h,
    hor]
  rfl

theorem EventBuild.usesAdd_of_none (build : EventBuild) (s : Cevents build.Priv) (fd : Nat)
    (mask : EventMask) (hlt : fd < maxEvents) (h : (s.events fd).mask = .none) :
    build.UsesAdd s fd mask := by
  cases build with
  | epoll => exact Epoll.usesAdd_of_none s fd mask hlt h
  | kqueue => trivial
  | select => trivial

/-- For every content of the memory of `cevents_create`, and every run after it. -/
theorem cevents_staysKnown_iff (build : EventBuild) (mem : CeventsMem)
    {calls : List (EventCall build.Answer)}
    (hans : Machine.Along (callStep build.backend) (Answered build.backend)
      (build.backend.start mem) calls) :
    StaysKnown build.backend build.UsesAdd (build.backend.start mem) calls ↔ mem.Blank := by
  constructor
  · rintro ⟨hknown, -⟩
    rw [EventBackend.start_eq] at hknown
    exact ⟨fun fd hlt => hknown.untouched fd hlt List.not_mem_nil, hknown.maxfd⟩
  · intro hblank
    refine build.lawful.staysKnown build.usesAdd_of_none ?_ hans
    rw [EventBackend.start_eq]
    exact ⟨fun fd hlt _ => hblank.1 fd hlt, hblank.2, fun fd hfd =>
      absurd hfd (build.lawful.created fd)⟩

/-- A first addition with a poll after it, from fresh memory of the system. -/
theorem cevents_staysKnown_seven :
    let calls : List (EventCall EventBuild.epoll.Answer) :=
      [.op (.add 7 .read none none), .poll [(7, ⟨true, false⟩)] fun _ _ => ⟨[], 0⟩]
    StaysKnown Epoll.backend Epoll.UsesAdd (Epoll.backend.start zeroMem) calls ↔
      zeroMem.Blank := by
  refine cevents_staysKnown_iff .epoll zeroMem ⟨trivial, fun t o h => ⟨?_, fun _ _ _ => trivial⟩⟩
  cases h
  refine ⟨by decide, fun ev hev => ?_⟩
  rw [List.mem_singleton.mp hev]
  rfl

def usedMem : CeventsMem :=
  ⟨fun _ => 0, fun fd => ⟨if fd = 5 then .read else .none, none, none, none⟩⟩

/-- The first addition of 5 is a change for the kernel, which refuses it. -/
theorem cevents_add_used_slot :
    let t := Epoll.backend.start usedMem
    (step Epoll.impl t.table (.add 5 .read none none)).map (·.2) = some ⟨-1, some (-1)⟩ ∧
      ¬ Epoll.UsesAdd t.table 5 .read ∧
      ¬ StaysKnown Epoll.backend Epoll.UsesAdd t [.op (.add 5 .read none none)] := by
  have hadd : ¬ Epoll.UsesAdd (Epoll.backend.start usedMem).table 5 .read := by
    intro h
    have hmod : EpollCtl.mod = .add := epollCtl_eq_add (Option.some.inj h)
    cases hmod
  refine ⟨by decide, hadd, fun h => hadd ?_⟩
  exact h.2.1.1 5 .read none none rfl (by decide) List.not_mem_nil

end ThrSocket
