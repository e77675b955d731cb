import ThrSocket.Cevents

/-!
The event table and what the back ends hold, over any sequence of additions and
deletions. epoll holds what the masks say. The sets of select do so as long as
no descriptor from FD_SETSIZE on is put into them or taken out of them.
-/

namespace ThrSocket
open Cevents

/-- What epoll is to hold for a mask. -/
def Epoll.view (mask : EventMask) : Option EpollEvent :=
  if mask = .none then none else some (Epoll.events mask)

def EpollAgrees (events : Nat → CeventSlot) (set : EpollSet) : Prop :=
  ∀ fd, set fd = Epoll.view (events fd).mask

def SelectAgrees (events : Nat → CeventSlot) (rwfds : RwfdSet) : Prop :=
  ∀ fd, rwfds.rfds.has fd = (events fd).mask.has .read ∧
    rwfds.wfds.has fd = (events fd).mask.has .write

/-- FD_SET or FD_CLR is called for the operation. -/
def Touches {B : Type} (s : Cevents B) (op : EventOp) : Prop :=
  Asks s op ∧ (op.mask.has .read = true ∨ op.mask.has .write = true)

/-- The operation touches no descriptor that an `fd_set` cannot hold. -/
def FitsFdSet {B : Type} (s : Cevents B) (op : EventOp) : Prop := Touches s op → op.fd < fdSetSize

/-- The call is defined, the back end accepts what it is asked, and afterwards it holds what the
masks say and `maxfd` covers them. -/
def Registers {B : Type} (impl : Impl B) (Agrees : (Nat → CeventSlot) → B → Prop) (s : Cevents B)
    (op : EventOp) : Prop :=
  ∃ s' o, step impl s op = some (s', o) ∧ o.rs = 0 ∧ (∀ rs ∈ o.impl, rs = 0) ∧
    Agrees s'.events s'.privData ∧ Covers s'.events s'.maxfd

section

variable {B : Type} {impl : Impl B} {Agrees : (Nat → CeventSlot) → B → Prop} {s : Cevents B}
  {op : EventOp}

theorem tableStep_self (events : Nat → CeventSlot) (op : EventOp) :
    tableStep events op op.fd = (events op.fd).after op :=
  Function.update_self ..

theorem tableStep_of_ne {events : Nat → CeventSlot} {fd : Nat} (op : EventOp) (h : fd ≠ op.fd) :
    tableStep events op fd = events fd :=
  Function.update_of_ne h ..

/-- A back end that accepts what it is asked registers. -/
theorem registers_of_call (hv : op.Valid) (hag : Agrees s.events s.privData)
    (hcov : Covers s.events s.maxfd)
    (hcall : Asks s op →
      ∃ b, impl.call s op = some (b, 0) ∧ Agrees (tableStep s.events op) b) :
    Registers impl Agrees s op := by
  by_cases hask : Asks s op
  · obtain ⟨b, hb, hag'⟩ := hcall hask
    obtain ⟨maxfd, hstep, hcov'⟩ := step_asked hv hask hb (Int.le_refl 0)
    exact ⟨_, _, hstep, rfl, by simp, hag', hcov' hcov⟩
  · obtain ⟨hstep, -⟩ := step_idle impl hv hask
    exact ⟨_, _, hstep, rfl, by simp, hag, hcov⟩

end

theorem epoll_view_or {m n : EventMask} (hn : n ≠ .none) :
    Epoll.view (m ||| n) = some (Epoll.events (n ||| m)) := by
  rw [Epoll.view, if_neg (EventMask.or_ne_none hn), BitVec.or_comm]

/-- The kernel accepts the call that is made. -/
theorem epoll_call {s : Cevents EpollSet} {op : EventOp} (hv : op.Valid) (hask : Asks s op)
    (hag : EpollAgrees s.events s.privData) :
    ∃ b, Epoll.impl.call s op = some (b, 0) ∧ EpollAgrees (tableStep s.events op) b := by
  have hfd := hag op.fd
  have agrees : ∀ view, view = Epoll.view ((s.events op.fd).after op).mask →
      EpollAgrees (tableStep s.events op) (Function.update s.privData op.fd view) := by
    intro view hview fd
    by_cases hne : fd = op.fd
    · subst hne
      rw [Function.update_self, tableStep_self, hview]
    · rw [Function.update_of_ne hne, tableStep_of_ne op hne]
      exact hag fd
  cases op with
  | add fd mask proc priv =>
      have hview : some (Epoll.events (mask ||| (s.events fd).mask)) =
          Epoll.view ((s.events fd).mask ||| mask) := (epoll_view_or hv.2).symm
      refine ⟨_, ?_, agrees _ hview⟩
      by_cases hold : (s.events fd).mask = .none
      · have hnone : s.privData fd = none := hfd.trans (if_pos hold)
        simp [Impl.call, Epoll.impl, Epoll.addEventImpl, slot_of_lt hv.1, hold, epollCtl, hnone,
          EventOp.fd]
      · have hsome : s.privData fd = some _ := hfd.trans (if_neg hold)
        simp [Impl.call, Epoll.impl, Epoll.addEventImpl, slot_of_lt hv.1, hold, epollCtl, hsome,
          EventOp.fd]
  | del fd mask =>
      have hfd' : s.privData fd = some (Epoll.events (s.events fd).mask) :=
        hfd.trans (if_neg hask)
      refine ⟨_, ?_, agrees (Epoll.view ((s.events fd).mask &&& ~~~mask)) rfl⟩
      by_cases hnew : (s.events fd).mask &&& ~~~mask = .none
      · simp [Impl.call, Epoll.impl, Epoll.delEventImpl,
          slot_of_lt (show fd < maxEvents from hv), hnew, epollCtl, hfd', EventOp.fd, Epoll.view]
      · simp [Impl.call, Epoll.impl, Epoll.delEventImpl,
          slot_of_lt (show fd < maxEvents from hv), hnew, epollCtl, hfd', EventOp.fd, Epoll.view]

theorem epoll_registers {s : Cevents EpollSet} {op : EventOp} (hv : op.Valid)
    (hag : EpollAgrees s.events s.privData) (hcov : Covers s.events s.maxfd) :
    Registers Epoll.impl EpollAgrees s op :=
  registers_of_call hv hag hcov fun hask => epoll_call hv hask hag

theorem fdSet_assignIf (set : FdSet) {fd : Nat} {c : Bool} (h : c = true → fd < fdSetSize)
    (b : Bool) :
    ∃ set', set.assignIf c fd b = some set' ∧
      ∀ i, set'.has i = if c = true ∧ i = fd then b else set.has i := by
  cases c with
  | false => exact ⟨set, rfl, fun i => by simp⟩
  | true =>
      refine ⟨_, dif_pos (h rfl), fun i => ?_⟩
      simp only [Function.update_apply, true_and]

theorem fdSet_assignIf_undefined {set : FdSet} {fd : Nat} {c : Bool} (hc : c = true)
    (h : ¬ fd < fdSetSize) (b : Bool) : set.assignIf c fd b = none := by
  rw [hc]
  exact dif_neg h

theorem select_assign (rwfds : RwfdSet) {fd : Nat} {mask : EventMask}
    (h : mask.has .read = true ∨ mask.has .write = true → fd < fdSetSize) (b : Bool) :
    ∃ rwfds', Select.assign rwfds fd mask b = some rwfds' ∧ ∀ i,
      rwfds'.rfds.has i = (if mask.has .read = true ∧ i = fd then b else rwfds.rfds.has i) ∧
        rwfds'.wfds.has i = if mask.has .write = true ∧ i = fd then b else rwfds.wfds.has i := by
  obtain ⟨rfds, hr, hrhas⟩ := fdSet_assignIf rwfds.rfds (fun hc => h (.inl hc)) b
  obtain ⟨wfds, hw, hwhas⟩ := fdSet_assignIf rwfds.wfds (fun hc => h (.inr hc)) b
  exact ⟨⟨wfds, rfds⟩, by simp [Select.assign, hr, hw], fun i => ⟨hrhas i, hwhas i⟩⟩

theorem select_assign_undefined {rwfds : RwfdSet} {fd : Nat} {mask : EventMask}
    (hmask : mask.has .read = true ∨ mask.has .write = true) (h : ¬ fd < fdSetSize) (b : Bool) :
    Select.assign rwfds fd mask b = none := by
  rcases hmask with hr | hw
  · simp [Select.assign, fdSet_assignIf_undefined hr h]
  · simp [Select.assign, fdSet_assignIf_undefined hw h]

/-- FD_SET for an addition, FD_CLR for a deletion. -/
def EventOp.sets : EventOp → Bool
  | .add .. => true
  | .del .. => false

theorem select_call_eq (s : Cevents RwfdSet) (op : EventOp) :
    Select.impl.call s op = (Select.assign s.privData op.fd op.mask op.sets).map (·, 0) := by
  cases op <;> rfl

theorem after_has_read (evt : CeventSlot) (op : EventOp) :
    (evt.after op).mask.has .read = if op.mask.has .read then op.sets else evt.mask.has .read := by
  cases op with
  | add fd mask proc priv =>
      cases h : mask.has .read <;> simp [CeventSlot.after, EventOp.mask, EventOp.sets, h]
  | del fd mask =>
      cases h : mask.has .read <;> simp [CeventSlot.after, EventOp.mask, EventOp.sets, h]

theorem after_has_write (evt : CeventSlot) (op : EventOp) :
    (evt.after op).mask.has .write =
      if op.mask.has .write then op.sets else evt.mask.has .write := by
  cases op with
  | add fd mask proc priv =>
      cases h : mask.has .write <;> simp [CeventSlot.after, EventOp.mask, EventOp.sets, h]
  | del fd mask =>
      cases h : mask.has .write <;> simp [CeventSlot.after, EventOp.mask, EventOp.sets, h]

theorem select_call {s : Cevents RwfdSet} {op : EventOp} (hask : Asks s op)
    (hfits : FitsFdSet s op) (hag : SelectAgrees s.events s.privData) :
    ∃ b, Select.impl.call s op = some (b, 0) ∧ SelectAgrees (tableStep s.events op) b := by
  obtain ⟨rwfds, he, hhas⟩ :=
    select_assign s.privData (fun h => hfits ⟨hask, h⟩) op.sets
  refine ⟨rwfds, by rw [select_call_eq, he]; rfl, fun i => ?_⟩
  rw [(hhas i).1, (hhas i).2, (hag i).1, (hag i).2]
  by_cases hi : i = op.fd
  · subst hi
    rw [tableStep_self, after_has_read, after_has_write]
    simp
  · rw [tableStep_of_ne op hi]
    simp [hi]

theorem select_registers_iff {s : Cevents RwfdSet} {op : EventOp} (hv : op.Valid)
    (hag : SelectAgrees s.events s.privData) (hcov : Covers s.events s.maxfd) :
    Registers Select.impl SelectAgrees s op ↔ FitsFdSet s op := by
  constructor
  · rintro ⟨s', o, hstep, -⟩ ⟨hask, hmask⟩
    by_contra hlt
    have hcall : Select.impl.call s op = none := by
      rw [select_call_eq, select_assign_undefined hmask hlt]
      rfl
    rw [step_undefined hv hask hcall] at hstep
    cases hstep
  · intro hfits
    exact registers_of_call hv hag hcov fun hask => select_call hask hfits hag

theorem Registers.keeps {B : Type} {impl : Impl B} {Agrees : (Nat → CeventSlot) → B → Prop}
    {s s' : Cevents B} {op : EventOp} {o : Ret} (h : Registers impl Agrees s op)
    (hstep : step impl s op = some (s', o)) :
    Agrees s'.events s'.privData ∧ Covers s'.events s'.maxfd := by
  obtain ⟨s'', o', hstep', -, -, hag, hcov⟩ := h
  cases hstep.symm.trans hstep'
  exact ⟨hag, hcov⟩

/-- The calls are defined, accepted and recorded, in the epoll and in the select build. -/
def RegistersInBoth (slots : Nat → CeventSlot) (maxfd : Int) (ops : List EventOp) : Prop :=
  Machine.Along (step Epoll.impl) (Registers Epoll.impl EpollAgrees) ⟨maxfd, slots, fun _ => none⟩
      ops ∧
    Machine.Along (step Select.impl) (Registers Select.impl SelectAgrees)
      ⟨maxfd, slots, ⟨.zero, .zero⟩⟩ ops

theorem epoll_registers_along {slots : Nat → CeventSlot} (hslots : ∀ fd, (slots fd).mask = .none)
    (maxfd : Int) {ops : List EventOp} (hops : ∀ op ∈ ops, op.Valid) :
    Machine.Along (step Epoll.impl) (Registers Epoll.impl EpollAgrees)
      ⟨maxfd, slots, fun _ => none⟩ ops := by
  refine Machine.along_of_invariant (G := fun _ op => op.Valid)
    (fun s => EpollAgrees s.events s.privData ∧ Covers s.events s.maxfd)
    (fun hs hv hstep => (epoll_registers hv hs.1 hs.2).keeps hstep)
    (fun hs hv => epoll_registers hv hs.1 hs.2) ⟨fun fd => ?_, fun fd h => absurd (hslots fd) h⟩
    (Machine.along_of_forall (fun _ _ h => h) hops)
  simp [Epoll.view, hslots]

/-- From an event table without events, over any additions and deletions. -/
theorem cevents_registration_iff {slots : Nat → CeventSlot}
    (hslots : ∀ fd, (slots fd).mask = .none) (maxfd : Int) {ops : List EventOp}
    (hops : ∀ op ∈ ops, op.Valid) :
    RegistersInBoth slots maxfd ops ↔
      Machine.Along (step Select.impl) FitsFdSet ⟨maxfd, slots, ⟨.zero, .zero⟩⟩ ops := by
  rw [RegistersInBoth, and_iff_right (epoll_registers_along hslots maxfd hops)]
  refine Machine.along_iff_of_invariant_on (L := EventOp.Valid)
    (fun s => SelectAgrees s.events s.privData ∧ Covers s.events s.maxfd) ?_ ?_
    ⟨fun fd => ?_, fun fd h => absurd (hslots fd) h⟩ hops
  · exact fun hs hv hfits hstep => ((select_registers_iff hv hs.1 hs.2).mpr hfits).keeps hstep
  · exact fun hs hv => select_registers_iff hv hs.1 hs.2
  · simp [FdSet.zero, hslots]

theorem cevents_registration_two :
    RegistersInBoth (fun _ => ⟨.none, none, none, none⟩) 0
        [.add 7 (.read ||| .persist) none none, .del 7 .read] ↔
      Machine.Along (step Select.impl) FitsFdSet
        ⟨0, fun _ => ⟨.none, none, none, none⟩, ⟨.zero, .zero⟩⟩
        [.add 7 (.read ||| .persist) none none, .del 7 .read] :=
  cevents_registration_iff (fun _ => rfl) 0 (by decide)

/-- The first descriptor that is too large for an `fd_set`. -/
theorem cevents_registration_fdSetSize :
    (∀ op ∈ [EventOp.add 1024 .read none none], op.Valid) ∧
      ¬ RegistersInBoth (fun _ => ⟨.none, none, none, none⟩) 0 [.add 1024 .read none none] := by
  refine ⟨by decide, ?_⟩
  rintro ⟨-, ⟨s', o, hstep, -⟩, -⟩
  have hnone : step Select.impl ⟨0, fun _ => ⟨.none, none, none, none⟩, ⟨.zero, .zero⟩⟩
      (.add 1024 .read none none) = none := rfl
  rw [hnone] at hstep
  cases hstep

end ThrSocket
