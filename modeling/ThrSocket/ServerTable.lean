import ThrSocket.PollRounds
import ThrSocket.Transcript

/-!
The event table under the server. The connections of the server are slots of
`cevts->events`, and their event masks change by calls of `cevents_add_event` and
`cevents_del_event` alone. The calls that a run makes are collected; made on a
table of any build they are all accepted, and lead to a table that holds the
masks and procedures of the connections. So every poll of the kernel, at any
point of any run, starts a round of the server.
-/

namespace ThrSocket
open CString Machine

def EvMask.toMask (m : EvMask) : EventMask :=
  (if m.read then .read else .none) ||| (if m.write then .write else .none) |||
    if m.persist then .persist else .none

theorem toMask_bits : ∀ a b c : Bool, EvMask.ofBits (EvMask.toMask ⟨a, b, c⟩) = ⟨a, b, c⟩ := by
  decide

theorem ofBits_toMask (m : EvMask) : EvMask.ofBits m.toMask = m :=
  toMask_bits m.read m.write m.persist

theorem or_bits : ∀ a b c a' b' c' : Bool,
    EvMask.toMask (EvMask.or ⟨a, b, c⟩ ⟨a', b', c'⟩) =
      EvMask.toMask ⟨a, b, c⟩ ||| EvMask.toMask ⟨a', b', c'⟩ := by
  decide

theorem toMask_or (m n : EvMask) : (m.or n).toMask = m.toMask ||| n.toMask :=
  or_bits m.read m.write m.persist n.read n.write n.persist

theorem without_bits : ∀ a b c a' b' c' : Bool,
    EvMask.toMask (EvMask.without ⟨a, b, c⟩ ⟨a', b', c'⟩) =
      EvMask.toMask ⟨a, b, c⟩ &&& ~~~ EvMask.toMask ⟨a', b', c'⟩ := by
  decide

theorem toMask_without (m n : EvMask) : (m.without n).toMask = m.toMask &&& ~~~ n.toMask :=
  without_bits m.read m.write m.persist n.read n.write n.persist

theorem has_bits : ∀ a b c : Bool, (EvMask.toMask ⟨a, b, c⟩).has .read = a ∧
    (EvMask.toMask ⟨a, b, c⟩).has .write = b ∧ (EvMask.toMask ⟨a, b, c⟩ = .none ↔
      EvMask.mk a b c = cevNone) := by
  decide

theorem toMask_has (m : EvMask) : m.toMask.has .read = m.read ∧ m.toMask.has .write = m.write :=
  ⟨(has_bits m.read m.write m.persist).1, (has_bits m.read m.write m.persist).2.1⟩

theorem toMask_eq_none {m : EvMask} : m.toMask = .none ↔ m = cevNone :=
  (has_bits m.read m.write m.persist).2.2

inductive SlotOp
  | add (mask : EvMask) (proc : EventProc)
  | del (mask : EvMask)

def SlotOp.apply (evt : Cevent) : SlotOp → Cevent
  | .add mask proc => evt.add mask proc
  | .del mask => evt.del mask

def SlotOp.Valid : SlotOp → Prop
  | .add mask _ => mask ≠ cevNone
  | .del _ => True

/-- Where the event procedures are in memory, and the cio that is passed for a descriptor. -/
structure Addresses where
  proc : EventProc → Nat
  cio : Nat → Option Nat

def SlotOp.toEventOp (adr : Addresses) (fd : Nat) : SlotOp → EventOp
  | .add mask proc => .add fd mask.toMask (some (adr.proc proc)) (adr.cio fd)
  | .del mask => .del fd mask.toMask

/-- The slot of a connection, with the procedures of the armed directions. What a slot that is
used again had before stays in it. -/
structure SlotOf (adr : Addresses) (evt : Cevent) (slot : CeventSlot) : Prop where
  mask : slot.mask = evt.mask.toMask
  readProc : evt.mask.read = true → slot.readProc = evt.readProc.map adr.proc
  writeProc : evt.mask.write = true → slot.writeProc = evt.writeProc.map adr.proc

variable {adr : Addresses}

theorem del_eq (evt : Cevent) (mask : EvMask) :
    evt.del mask = { evt with mask := evt.mask.without mask } := by
  rw [Cevent.del]
  split
  · rename_i hnone
    obtain ⟨m, readProc, writeProc⟩ := evt
    cases hnone
    rfl
  · rfl

theorem SlotOf.apply {evt : Cevent} {slot : CeventSlot} (h : SlotOf adr evt slot) (fd : Nat)
    (op : SlotOp) : SlotOf adr (op.apply evt) (slot.after (op.toEventOp adr fd)) := by
  cases op with
  | add mask proc =>
      obtain ⟨hread, hwrite⟩ := toMask_has mask
      refine ⟨?_, ?_, ?_⟩
      · simp only [SlotOp.apply, SlotOp.toEventOp, CeventSlot.after, Cevent.add, h.mask, toMask_or]
      · simp only [SlotOp.apply, SlotOp.toEventOp, CeventSlot.after, Cevent.add, EvMask.or, hread]
        intro hon
        cases hmask : mask.read with
        | true => rfl
        | false =>
            rw [hmask, Bool.or_false] at hon
            exact h.readProc hon
      · simp only [SlotOp.apply, SlotOp.toEventOp, CeventSlot.after, Cevent.add, EvMask.or, hwrite]
        intro hon
        cases hmask : mask.write with
        | true => rfl
        | false =>
            rw [hmask, Bool.or_false] at hon
            exact h.writeProc hon
  | del mask =>
      rw [SlotOp.apply, del_eq]
      refine ⟨?_, ?_, ?_⟩
      · simp only [SlotOp.toEventOp, CeventSlot.after, h.mask, toMask_without]
      · intro hon
        exact h.readProc (Bool.and_eq_true_iff.mp hon).1
      · intro hon
        exact h.writeProc (Bool.and_eq_true_iff.mp hon).1

def closeInstallOps : List SlotOp :=
  [.add (cevWrite.or cevPersist) .cioCloseDestroy, .del cevRead]

namespace Conn

/-- The calls of `read_event_proc` for an error or the end of the stream. -/
def deadOps (c : Conn) : List SlotOp := if c.io.closeAfterWrite then [] else closeInstallOps

def readOps (c : Conn) : ReadOutcome → List SlotOp
  | .eagain => []
  | .error => c.deadOps
  | .data bs =>
      if bs = [] then c.deadOps
      else
        match (parseCommand c.io.toReq (c.io.rbuf ++ bs)).1 with
        | .complete => [.del cevRead]
        | .protocolError _ => [.add cevWrite .writeEventProc]
        | _ => []

def responseOps (c : Conn) (w : Writes) : List SlotOp :=
  if (c.responseInner w).2 < 0 ∨ (c.responseInner w).1.io.closeAfterWrite = true then
    closeInstallOps
  else [.add (cevRead.or cevPersist) .readEventProc, .del cevWrite]

end Conn

namespace Sys

def slotOps (s : Sys) : Label → Option (Nat × List SlotOp)
  | .accept fd => some (fd, [.add (cevRead.or cevPersist) .readEventProc])
  | .poll _ => none
  | .half input _ w => do
      let t ← s.todo.head?
      let c ← s.conns t.fd
      if c.evt.mask = cevNone then none
      else if t.write then
        match c.evt.writeProc with
        | some .cioCloseDestroy => some (t.fd, [.del ((cevRead.or cevWrite).or cevPersist)])
        | _ => some (t.fd, (c.setMask t.mask).responseOps w)
      else some (t.fd, c.readOps input)
  | .pop => none
  | .process k _ _ => s.held[k]?.map fun f => (f.fd, [.add cevWrite .writeEventProc])

def eventOps (adr : Addresses) (s : Sys) (l : Label) : List EventOp :=
  match s.slotOps l with
  | none => []
  | some (fd, ops) => ops.map (SlotOp.toEventOp adr fd)

end Sys

theorem responseLoop_evt (w : Writes) (fuel k : Nat) (c : Conn) :
    (Conn.responseLoop w fuel k c).1.evt = c.evt := by
  induction fuel generalizing k c with
  | zero => rfl
  | succ fuel ih =>
      rw [Conn.responseLoop]
      split
      · split
        · rfl
        · rfl
        · exact ih _ _
      · rfl

theorem cioCloseDestroyInstall_evt (c : Conn) :
    c.cioCloseDestroyInstall.evt = closeInstallOps.foldl SlotOp.apply c.evt := rfl

theorem response_evt (c : Conn) (w : Writes) (hp : c.io.mask.persist = true) :
    (c.response w).1.evt = (c.responseOps w).foldl SlotOp.apply c.evt := by
  have hevt : (c.responseInner w).1.evt = c.evt := responseLoop_evt w _ 0 c
  rw [Conn.response, Conn.responseOps]
  simp only [hp, Bool.not_true, Bool.false_and, Bool.false_eq_true, if_false, if_true]
  by_cases hneg : (c.responseInner w).2 < 0
  · rw [if_pos hneg, if_pos (.inl hneg), cioCloseDestroyInstall_evt]
    exact congrArg (closeInstallOps.foldl SlotOp.apply) hevt
  · rw [if_neg hneg]
    by_cases hflag : (c.responseInner w).1.io.closeAfterWrite = true
    · rw [if_pos hflag, if_pos (.inr hflag), cioCloseDestroyInstall_evt]
      exact congrArg (closeInstallOps.foldl SlotOp.apply) hevt
    · rw [if_neg hflag, if_neg (not_or.mpr ⟨hneg, hflag⟩)]
      exact congrArg ([SlotOp.add (cevRead.or cevPersist) .readEventProc,
        .del cevWrite].foldl SlotOp.apply) hevt

/-- What the main loop leaves of the slot after a read half. -/
theorem readEventProc_evt {c : Conn} {mask : EvMask} {input : ReadOutcome} {db : Backend}
    {w : Writes} {r : Conn × Int} (hp : mask.persist = true)
    (h : c.readEventProc mask input db w = some r) :
    (if r.2 = 0 then (r.1.delEvent cevRead).evt else r.1.evt) =
      (c.readOps input).foldl SlotOp.apply c.evt := by
  have hdead : ∀ d : Conn, d = c.setMask mask → ∀ r,
      (if d.io.closeAfterWrite then some (d, (-1 : Int))
        else some (d.cioCloseDestroyInstall, -1)) = some r →
      (if r.2 = 0 then (r.1.delEvent cevRead).evt else r.1.evt) =
        c.deadOps.foldl SlotOp.apply c.evt := by
    intro d hd r hr
    subst hd
    rw [Conn.deadOps]
    by_cases hflag : c.io.closeAfterWrite = true
    · rw [if_pos hflag]
      rw [if_pos (show (c.setMask mask).io.closeAfterWrite = true from hflag)] at hr
      cases hr
      rfl
    · rw [if_neg hflag]
      rw [if_neg (show ¬ (c.setMask mask).io.closeAfterWrite = true from hflag)] at hr
      cases hr
      rfl
  obtain ⟨q, hq, hend⟩ := readEventProc_end c hp input db w
  obtain rfl : q = r := Option.some.inj (hq.symm.trans h)
  rw [Conn.readEventProc] at h
  simp only [hp, Bool.not_true, Bool.false_and, Bool.false_eq_true, if_false] at h
  cases input with
  | eagain =>
      cases h
      rfl
  | error => exact hdead _ rfl _ h
  | data bs =>
      by_cases hbs : bs = []
      · subst hbs
        exact hdead _ rfl _ h
      · rw [Conn.readOps, if_neg hbs]
        cases hend with
        | @parsed _ q some parse verdict =>
            rw [parse]
            cases verdict with
            | inl hv => rw [hv]; rfl
            | inr hv => rw [hv]; rfl
        | @refused _ msg buf r some parse =>
            rw [parse]
            rfl
        | ended nodata flag => exact absurd (nodata bs rfl) hbs
        | closing nodata => exact absurd (nodata bs rfl) hbs

/-- The table holds the slots of the connections. The listening socket is none of them. -/
def HoldsConns (adr : Addresses) (inFd : Nat) (s : Sys) (events : Nat → CeventSlot) : Prop :=
  ∀ fd, fd ≠ inFd →
    match s.conns fd with
    | none => (events fd).mask = .none
    | some c => SlotOf adr c.evt (events fd)

theorem HoldsConns.inTable {inFd : Nat} {s : Sys} {events : Nat → CeventSlot}
    (h : HoldsConns adr inFd s events) : s.InTable inFd events := by
  intro fd hfd
  have hslot := h fd hfd
  cases hc : s.conns fd with
  | none =>
      rw [hc] at hslot
      exact hslot
  | some c =>
      rw [hc] at hslot
      simp only [hslot.mask, ofBits_toMask]

/-- What calls for one slot make of a table. -/
theorem table_at (adr : Addresses) (fd : Nat) (ops : List SlotOp) (events : Nat → CeventSlot) :
    (ops.map (SlotOp.toEventOp adr fd)).foldl tableStep events fd =
        ops.foldl (fun slot op => slot.after (op.toEventOp adr fd)) (events fd) ∧
      ∀ g, g ≠ fd → (ops.map (SlotOp.toEventOp adr fd)).foldl tableStep events g = events g := by
  induction ops generalizing events with
  | nil => exact ⟨rfl, fun g _ => rfl⟩
  | cons op ops ih =>
      have hfd : (op.toEventOp adr fd).fd = fd := by cases op <;> rfl
      obtain ⟨hself, hother⟩ := ih (tableStep events (op.toEventOp adr fd))
      refine ⟨?_, fun g hg => ?_⟩
      · rw [List.map_cons, List.foldl_cons, hself, List.foldl_cons]
        have hstep := tableStep_self events (op.toEventOp adr fd)
        rw [hfd] at hstep
        rw [hstep]
      · rw [List.map_cons, List.foldl_cons, hother g hg, tableStep_of_ne _ (by rw [hfd]; exact hg)]

theorem SlotOf.foldl {evt : Cevent} {slot : CeventSlot} (h : SlotOf adr evt slot) (fd : Nat)
    (ops : List SlotOp) :
    SlotOf adr (ops.foldl SlotOp.apply evt)
      (ops.foldl (fun slot op => slot.after (op.toEventOp adr fd)) slot) := by
  induction ops generalizing evt slot with
  | nil => exact h
  | cons op ops ih => exact ih (h.apply fd op)

/-- The slot of the connection after the calls, and nothing else. -/
theorem HoldsConns.update {inFd fd : Nat} {s t : Sys} {events : Nat → CeventSlot}
    (h : HoldsConns adr inFd s events) (ops : List SlotOp)
    (hother : ∀ g, g ≠ fd → t.conns g = s.conns g)
    (hself : fd ≠ inFd →
      match t.conns fd with
      | none => (ops.foldl (fun slot op => slot.after (op.toEventOp adr fd)) (events fd)).mask =
          .none
      | some c =>
          SlotOf adr c.evt
            (ops.foldl (fun slot op => slot.after (op.toEventOp adr fd)) (events fd))) :
    HoldsConns adr inFd t ((ops.map (SlotOp.toEventOp adr fd)).foldl tableStep events) := by
  obtain ⟨hat, hframe⟩ := table_at adr fd ops events
  intro g hg
  by_cases hgf : g = fd
  · subst hgf
    rw [hat]
    exact hself hg
  · rw [hframe g hgf, hother g hgf]
    exact h g hg

/-- A half that is not passed over is of a slot with events. -/
theorem half_armed {s t : Sys} {task : Task} {todo : List Task} {c : Conn} {input : ReadOutcome}
    {db : Backend} {w : Writes} {fd : Nat} {write : Bool} (htodo : s.todo = task :: todo)
    (hc : s.conns task.fd = some c)
    (hs : s.half input db w = some (t, .handled fd write)) : c.evt.mask ≠ cevNone := by
  intro hnone
  rw [Sys.half, htodo] at hs
  simp only [hc, hnone, if_true] at hs
  cases hs

theorem half_holds {inFd : Nat} {s t : Sys} {o : Obs} {input : ReadOutcome} {db : Backend}
    {w : Writes} {events : Nat → CeventSlot} (hm : MaskInv s)
    (h : HoldsConns adr inFd s events) (hs : s.half input db w = some (t, o)) :
    HoldsConns adr inFd t
      ((s.eventOps adr (.half input db w)).foldl tableStep events) := by
  obtain ⟨task, todo, htodo, ⟨rfl, rfl, hdead⟩ | ⟨c, hc, rfl, hdir⟩⟩ := Sys.half_cases hs
  · have hnone : s.slotOps (.half input db w) = none := by
      simp only [Sys.slotOps, htodo, List.head?_cons, Option.bind_eq_bind, Option.bind_some]
      cases hc : s.conns task.fd with
      | none => rfl
      | some c => simp [hdead c hc]
    rw [Sys.eventOps, hnone]
    exact h
  · have harmed := half_armed htodo hc hs
    have hp : task.mask.persist = true := hm.todo task (by rw [htodo]; simp)
    have hslot : task.fd ≠ inFd → SlotOf adr c.evt (events task.fd) := by
      intro hfd
      have hslot := h task.fd hfd
      rw [hc] at hslot
      exact hslot
    cases hdir with
    | inl hread =>
        have hops : s.slotOps (.half input db w) = some (task.fd, c.readOps input) := by
          simp [Sys.slotOps, htodo, hc, harmed, hread.1]
        rw [Sys.eventOps, hops]
        refine h.update _ (fun g hg => (readHalf_frame hg hread.2).1) fun hfd => ?_
        obtain ⟨r, hr, hcase⟩ := Sys.readHalf_cases hread.2
        have hevt := readEventProc_evt hp hr
        have hslot := (hslot hfd).foldl task.fd (c.readOps input)
        rw [← hevt] at hslot
        cases hcase with
        | inl hzero =>
            rw [hzero.2, if_pos hzero.1] at *
            simp only [Sys.ceventsPushFired, Sys.setConn_self]
            exact hslot
        | inr hmore =>
            rw [if_neg hmore.1] at hslot
            rw [hmore.2, Sys.setConn_self]
            exact hslot
    | inr hwrite =>
        cases Sys.writeHalf_cases hwrite.2 with
        | inl hproc =>
            have hops : s.slotOps (.half input db w) =
                some (task.fd, (c.setMask task.mask).responseOps w) := by
              simp [Sys.slotOps, htodo, hc, harmed, hwrite.1, hproc.1]
            rw [Sys.eventOps, hops]
            refine h.update _ (fun g hg => (writeHalf_frame hg hwrite.2).1) fun hfd => ?_
            have hslot := (hslot hfd).foldl task.fd ((c.setMask task.mask).responseOps w)
            rw [hproc.2, Sys.setConn_self]
            rw [show c.evt = (c.setMask task.mask).evt from rfl,
              ← response_evt (c.setMask task.mask) w hp] at hslot
            exact hslot
        | inr hclose =>
            have hops : s.slotOps (.half input db w) =
                some (task.fd, [.del ((cevRead.or cevWrite).or cevPersist)]) := by
              simp [Sys.slotOps, htodo, hc, harmed, hwrite.1, hclose.1]
            rw [Sys.eventOps, hops]
            refine h.update _ (fun g hg => (writeHalf_frame hg hwrite.2).1) fun hfd => ?_
            have hslot := (hslot hfd).apply task.fd (.del ((cevRead.or cevWrite).or cevPersist))
            rw [hclose.2, Sys.setConn_self]
            exact hslot.mask.trans (by
              rw [SlotOp.apply, del_eq]
              simp [toMask_eq_none, EvMask.without, EvMask.or, cevRead, cevWrite, cevPersist,
                cevNone])

theorem step_holds {inFd : Nat} {s t : Sys} {o : Obs} {l : Label} {events : Nat → CeventSlot}
    (hm : MaskInv s) (h : HoldsConns adr inFd s events) (hs : s.step l = some (t, o)) :
    HoldsConns adr inFd t ((s.eventOps adr l).foldl tableStep events) := by
  cases l with
  | accept g =>
      obtain ⟨hnone, rfl, _⟩ := Sys.accept_cases hs
      refine h.update [.add (cevRead.or cevPersist) .readEventProc]
        (fun k hk => Sys.setConn_of_ne s hk _) fun hg => ?_
      have hslot := h g hg
      rw [hnone] at hslot
      have hstart : SlotOf adr {} (events g) := by
        refine ⟨hslot.trans (toMask_eq_none.mpr rfl).symm, ?_, ?_⟩
        · intro hon
          cases hon
        · intro hon
          cases hon
      rw [Sys.setConn_self]
      exact hstart.apply g (.add (cevRead.or cevPersist) .readEventProc)
  | poll fired =>
      obtain ⟨_, _, rfl, _⟩ := Sys.poll_cases hs
      exact h
  | half input db w => exact half_holds hm h hs
  | pop =>
      obtain ⟨q, f, _, rfl, _⟩ := Sys.pop_cases hs
      exact h
  | process k db w =>
      obtain ⟨f, c, r, hf, hc, hproc, rfl, _⟩ := Sys.process_cases hs
      have hmem : f ∈ s.queue ++ s.held := List.mem_append_right _ (List.mem_of_getElem? hf)
      have hops : s.slotOps (.process k db w) =
          some (f.fd, [.add cevWrite .writeEventProc]) := by
        simp [Sys.slotOps, hf]
      rw [Sys.eventOps, hops]
      refine h.update _ (fun g hg => Sys.setConn_of_ne _ hg _) fun hfd => ?_
      have hslot := h f.fd hfd
      rw [hc] at hslot
      rw [Sys.setConn_self]
      have hevt := (processCommond_answer (hm.fired f hmem) hproc).2.2.2
      simp only
      rw [hevt]
      exact hslot.apply f.fd (.add cevWrite .writeEventProc)

def EventBuild.limit : EventBuild → Nat
  | .epoll | .kqueue => maxEvents
  | .select => fdSetSize

theorem EventBuild.limit_le (build : EventBuild) : build.limit ≤ maxEvents := by
  cases build <;> decide

theorem call_accepted {build : EventBuild} {tab : Cevents build.Priv} {op : EventOp}
    (hv : op.Valid) (hlt : op.fd < build.limit) (hag : build.Agrees tab.events tab.privData)
    (hask : Cevents.Asks tab op) :
    ∃ b, build.backend.impl.call tab op = some (b, 0) ∧
      build.Agrees (tableStep tab.events op) b := by
  cases build with
  | epoll => exact epoll_call hv hask hag
  | kqueue => exact kqueue_call hv hag
  | select => exact select_call hask (fun _ => hlt) hag

/-- A table that holds what its masks say. -/
structure EventTableInv (build : EventBuild) (tab : Cevents build.Priv) : Prop where
  agrees : build.Agrees tab.events tab.privData
  covers : Cevents.Covers tab.events tab.maxfd

theorem table_step {build : EventBuild} {tab : Cevents build.Priv} {op : EventOp} (hv : op.Valid)
    (hlt : op.fd < build.limit) (h : EventTableInv build tab) :
    ∃ tab' o, Cevents.step build.backend.impl tab op = some (tab', o) ∧ o.rs = 0 ∧
      EventTableInv build tab' ∧ tab'.events = tableStep tab.events op := by
  by_cases hask : Cevents.Asks tab op
  · obtain ⟨b, hb, hag⟩ := call_accepted hv hlt h.agrees hask
    obtain ⟨maxfd, hstep, hcov⟩ := Cevents.step_asked hv hask hb (Int.le_refl 0)
    exact ⟨_, _, hstep, rfl, ⟨hag, hcov h.covers⟩, rfl⟩
  · obtain ⟨hstep, hsame⟩ := Cevents.step_idle build.backend.impl hv hask
    exact ⟨_, _, hstep, rfl, h, hsame.symm⟩

theorem table_run {build : EventBuild} {tab : Cevents build.Priv} {ops : List EventOp}
    (hops : ∀ op ∈ ops, op.Valid ∧ op.fd < build.limit) (h : EventTableInv build tab) :
    ∃ tab' os, run (Cevents.step build.backend.impl) tab ops = some (tab', os) ∧
      (∀ o ∈ os, o.rs = 0) ∧ EventTableInv build tab' ∧
      tab'.events = ops.foldl tableStep tab.events := by
  induction ops generalizing tab with
  | nil => exact ⟨tab, [], rfl, by simp, h, rfl⟩
  | cons op ops ih =>
      obtain ⟨hfirst, hrest⟩ := List.forall_mem_cons.mp hops
      obtain ⟨tab₁, o, hstep, ho, h₁, hevents₁⟩ := table_step hfirst.1 hfirst.2 h
      obtain ⟨tab', os, hrun, hos, h', hevents⟩ := ih hrest h₁
      refine ⟨tab', o :: os, run_cons hstep hrun, ?_, h', ?_⟩
      · exact List.forall_mem_cons.mpr ⟨ho, hos⟩
      · rw [hevents, hevents₁, List.foldl_cons]

theorem toEventOp_valid {fd : Nat} {op : SlotOp} (hop : op.Valid) (hfd : fd < maxEvents) :
    (op.toEventOp adr fd).Valid ∧ (op.toEventOp adr fd).fd = fd := by
  cases op with
  | add mask proc => exact ⟨⟨hfd, fun hnone => hop (toMask_eq_none.mp hnone)⟩, rfl⟩
  | del mask => exact ⟨hfd, rfl⟩

theorem closeInstallOps_valid : ∀ op ∈ closeInstallOps, op.Valid := by
  intro op hop
  simp only [closeInstallOps, List.mem_cons, List.not_mem_nil, or_false] at hop
  cases hop with
  | inl heq => subst heq; exact fun h => by cases h
  | inr heq => subst heq; trivial

theorem readOps_valid (c : Conn) (input : ReadOutcome) : ∀ op ∈ c.readOps input, op.Valid := by
  have hdead : ∀ op ∈ c.deadOps, op.Valid := by
    rw [Conn.deadOps]
    split
    · simp
    · exact closeInstallOps_valid
  cases input with
  | eagain => simp [Conn.readOps]
  | error => exact hdead
  | data bs =>
      rw [Conn.readOps]
      split
      · exact hdead
      · split
        · intro op hop
          rw [List.mem_singleton.mp hop]
          trivial
        · intro op hop
          rw [List.mem_singleton.mp hop]
          exact fun h => by cases h
        · simp

theorem responseOps_valid (c : Conn) (w : Writes) : ∀ op ∈ c.responseOps w, op.Valid := by
  rw [Conn.responseOps]
  split
  · exact closeInstallOps_valid
  · intro op hop
    simp only [List.mem_cons, List.not_mem_nil, or_false] at hop
    cases hop with
    | inl heq => subst heq; exact fun h => by cases h
    | inr heq => subst heq; trivial

theorem slotOps_valid {s t : Sys} {o : Obs} {l : Label} {fd : Nat} {ops : List SlotOp}
    (hs : s.step l = some (t, o)) (h : s.slotOps l = some (fd, ops)) :
    (∀ op ∈ ops, op.Valid) ∧ (l = .accept fd ∨ (s.conns fd).isSome = true) := by
  cases l with
  | accept g =>
      cases h
      exact ⟨by simp [SlotOp.Valid, EvMask.or, cevRead, cevPersist, cevNone], .inl rfl⟩
  | poll fired => cases h
  | pop => cases h
  | process k db w =>
      obtain ⟨f, c, _, hf, hc, _⟩ := Sys.process_cases hs
      rw [Sys.slotOps, hf, Option.map_some] at h
      cases h
      exact ⟨by simp [SlotOp.Valid, cevWrite, cevNone], .inr (by rw [hc]; rfl)⟩
  | half input db w =>
      obtain ⟨task, htask, h⟩ := Option.bind_eq_some_iff.mp h
      obtain ⟨c, hc, h⟩ := Option.bind_eq_some_iff.mp h
      have hlive : (s.conns task.fd).isSome = true := by rw [hc]; rfl
      split at h
      · cases h
      · split at h
        · split at h
          · cases h
            exact ⟨by simp [SlotOp.Valid], .inr hlive⟩
          · cases h
            exact ⟨responseOps_valid _ w, .inr hlive⟩
        · cases h
          exact ⟨readOps_valid c input, .inr hlive⟩

/-- A step opens no connection but by an accept. -/
theorem conns_step {s t : Sys} {o : Obs} {l : Label} (hs : s.step l = some (t, o)) {fd : Nat}
    (h : (t.conns fd).isSome = true) : l = .accept fd ∨ (s.conns fd).isSome = true := by
  have hset : ∀ (u : Sys) (g : Nat) (c : Option Conn), ((u.setConn g c).conns fd).isSome = true →
      (g = fd ∧ c.isSome = true) ∨ (u.conns fd).isSome = true := by
    intro u g c h
    by_cases hg : fd = g
    · subst hg
      rw [Sys.setConn_self] at h
      exact .inl ⟨rfl, h⟩
    · rw [Sys.setConn_of_ne u hg] at h
      exact .inr h
  cases l with
  | accept g =>
      obtain ⟨_, rfl, _⟩ := Sys.accept_cases hs
      exact (hset s g _ h).imp (fun hg : g = fd ∧ _ => hg.1 ▸ rfl) id
  | poll fired =>
      obtain ⟨_, _, rfl, _⟩ := Sys.poll_cases hs
      exact .inr h
  | pop =>
      obtain ⟨q, f, _, rfl, _⟩ := Sys.pop_cases hs
      exact .inr h
  | process k db w =>
      obtain ⟨f, c, r, _, hc, _, rfl, _⟩ := Sys.process_cases hs
      refine .inr ((hset _ f.fd _ h).elim (fun hf => ?_) id)
      rw [← hf.1, hc]
      rfl
  | half input db w =>
      obtain ⟨task, todo, htodo, ⟨rfl, _⟩ | ⟨c, hc, _, hdir⟩⟩ := Sys.half_cases hs
      · exact .inr h
      · have hlive : (s.conns task.fd).isSome = true := by rw [hc]; rfl
        have hcase : ∀ d : Option Conn,
            ((({ s with todo := todo } : Sys).setConn task.fd d).conns fd).isSome = true →
              (s.conns fd).isSome = true :=
          fun d hd => (hset _ task.fd d hd).elim (fun hf => hf.1 ▸ hlive) id
        refine .inr ?_
        cases hdir with
        | inl hread =>
            obtain ⟨r, _, hr⟩ := Sys.readHalf_cases hread.2
            cases hr with
            | inl hzero => rw [hzero.2] at h; exact hcase _ h
            | inr hmore => rw [hmore.2] at h; exact hcase _ h
        | inr hwrite =>
            cases Sys.writeHalf_cases hwrite.2 with
            | inl hproc => rw [hproc.2] at h; exact hcase _ h
            | inr hclose => rw [hclose.2] at h; exact hcase _ h

structure OnTable (adr : Addresses) (build : EventBuild) (inFd : Nat) (s : Sys)
    (tab : Cevents build.Priv) : Prop where
  masks : MaskInv s
  table : EventTableInv build tab
  holds : HoldsConns adr inFd s tab.events
  fits : ∀ fd, (s.conns fd).isSome = true → fd < build.limit

/-- An accepted descriptor is one that the build can hold. -/
def Accepts (build : EventBuild) : Label → Prop
  | .accept fd => fd < build.limit
  | _ => True

theorem onTable_step {build : EventBuild} {inFd : Nat} {s t : Sys} {o : Obs} {l : Label}
    {tab : Cevents build.Priv} (h : OnTable adr build inFd s tab) (hl : Accepts build l)
    (hs : s.step l = some (t, o)) :
    ∃ tab' os, run (Cevents.step build.backend.impl) tab (s.eventOps adr l) = some (tab', os) ∧
      (∀ o ∈ os, o.rs = 0) ∧ OnTable adr build inFd t tab' := by
  have haccept : ∀ fd, l = .accept fd → fd < build.limit := by
    intro fd heq
    subst heq
    exact hl
  have hops : ∀ op ∈ s.eventOps adr l, op.Valid ∧ op.fd < build.limit := by
    intro op hop
    rw [Sys.eventOps] at hop
    cases hslot : s.slotOps l with
    | none => simp [hslot] at hop
    | some fdOps =>
        obtain ⟨fd, ops⟩ := fdOps
        rw [hslot] at hop
        obtain ⟨slotOp, hmem, rfl⟩ := List.mem_map.mp hop
        obtain ⟨hvalid, hfd⟩ := slotOps_valid hs hslot
        have hlt : fd < build.limit := hfd.elim (haccept fd) (h.fits fd)
        obtain ⟨hv, heq⟩ := @toEventOp_valid adr fd slotOp (hvalid slotOp hmem)
          (Nat.lt_of_lt_of_le hlt build.limit_le)
        exact ⟨hv, by rw [heq]; exact hlt⟩
  obtain ⟨tab', os, hrun, hos, htable, hevents⟩ := table_run hops h.table
  refine ⟨tab', os, hrun, hos, maskInv_step h.masks hs, htable, ?_, ?_⟩
  · rw [hevents]
    exact step_holds h.masks h.holds hs
  · intro fd hfd
    exact (conns_step hs hfd).elim (haccept fd) (h.fits fd)

/-- In each build: the calls that the accepts, the event procedures, the main loop and the workers
make in a run of the server are all accepted by `cevents_add_event` and `cevents_del_event` on a
table without events; the table then holds the mask of every connection, and the procedures
of its armed directions; and whatever the kernel answers to the next poll, what is stored of it for
the connections starts a round of the server. -/
theorem polls_start_rounds (adr : Addresses) (build : EventBuild) (slots : Nat → CeventSlot)
    (hslots : ∀ fd, (slots fd).mask = .none) (maxfd : Int) (inFd : Nat) (hin : inFd < build.limit)
    (labels : List Label) (hlabels : ∀ l ∈ labels, Accepts build l) (t : Sys) (os : List Obs)
    (hrun : run Sys.step {} labels = some (t, os)) :
    ∃ tab rets,
      run (Cevents.step build.backend.impl) ⟨maxfd, slots, build.backend.createPriv⟩
          (SlotOp.toEventOp adr inFd (.add (cevRead.or cevPersist) .tcpAcceptEventProc) ::
            emitted Sys.step (Sys.eventOps adr) {} labels) = some (tab, rets) ∧
        (∀ o ∈ rets, o.rs = 0) ∧ HoldsConns adr inFd t tab.events ∧
        ∀ a fired, build.Answers tab.privData a → build.backend.pollImpl tab a = some fired →
          t.todo = [] → ∃ u, t.poll (firedConns inFd fired) = some (u, .quiet) ∧
            u.todo = (firedConns inFd fired).flatMap Fired.tasks := by
  have hblank : EventTableInv build ⟨maxfd, slots, build.backend.createPriv⟩ :=
    ⟨build.agrees_start hslots, fun fd h => absurd (hslots fd) h⟩
  have hop := @toEventOp_valid adr inFd (.add (cevRead.or cevPersist) .tcpAcceptEventProc)
    (by simp [SlotOp.Valid, EvMask.or, cevRead, cevPersist, cevNone])
    (Nat.lt_of_lt_of_le hin build.limit_le)
  obtain ⟨tab₁, o₁, hfirst, ho₁, htab₁, hevents₁⟩ :=
    table_step hop.1 (by rw [hop.2]; exact hin) hblank
  have hstart : OnTable adr build inFd {} tab₁ := by
    refine ⟨(inv_start inFd).1, htab₁, fun fd hfd => ?_, fun fd h => by cases h⟩
    rw [hevents₁, tableStep_of_ne _ (by rw [hop.2]; exact hfd)]
    exact hslots fd
  obtain ⟨tab, rets, htable, hrets, hend⟩ := run_emitted (Sys.eventOps adr)
    (R := OnTable adr build inFd) (G := fun _ l => Accepts build l)
    (P := fun o : Cevents.Ret => o.rs = 0) (fun h hl hs => onTable_step h hl hs) hstart
    (along_of_forall (fun _ _ h => h) hlabels) hrun
  refine ⟨tab, o₁ :: rets, run_cons hfirst htable, List.forall_mem_cons.mpr ⟨ho₁, hrets⟩,
    hend.holds, ?_⟩
  intro a fired ha hpoll hidle
  have hround := (poll_round hend.table.agrees ha hpoll).pollable hend.holds.inTable
  exact ⟨_, if_pos ⟨hidle, hround⟩, rfl⟩

/-- A connection of the kqueue build whose `PING` has been read. -/
theorem polls_start_rounds_ping :
    ∃ (t : Sys) (tab : Cevents KqueueSet) (rets : List Cevents.Ret),
      run (Cevents.step Kqueue.impl) ⟨0, fun _ => ⟨.none, none, none, none⟩, fun _ _ => false⟩
          [.add 3 5 (some 7) none, .add 6 5 (some 7) none, .del 6 1] = some (tab, rets) ∧
        HoldsConns ⟨fun _ => 7, fun _ => none⟩ 3 t tab.events := by
  obtain ⟨tab, rets, hrun, _, hholds, _⟩ := polls_start_rounds ⟨fun _ => 7, fun _ => none⟩ .kqueue
    (fun _ => ⟨.none, none, none, none⟩) (fun _ => rfl) 0 3 (by decide)
    [.accept 6, .poll [⟨6, cevRead⟩],
      .half (.data (encodeRequest [ascii "PING"])) noBackend fun _ => .eagain]
    (by simp [Accepts, EventBuild.limit, maxEvents]) _ _ rfl
  exact ⟨_, tab, rets, hrun, hholds⟩

end ThrSocket
