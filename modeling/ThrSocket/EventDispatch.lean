import ThrSocket.EventPoll

/-!
What `cevents_poll` dispatches in the two builds. Each build carries out on its
event table what a table without a back end goes through. There, event
procedures that leave the other reported descriptors alone make the order of
the entries irrelevant.
-/

namespace ThrSocket
open Cevents

def tableRun (events : Nat → CeventSlot) (ops : List EventOp) : Nat → CeventSlot :=
  ops.foldl tableStep events

def tableRead (procs : Procs) (events : Nat → CeventSlot) (fd : Nat) (mask : EventMask) :
    (Nat → CeventSlot) × List Dispatch :=
  let evt := events fd
  if evt.mask ≠ .none ∧ mask.has .read then
    let events := tableRun events (procs fd false).ops
    if (procs fd false).rs = 0 then
      (tableStep events (.del fd .read),
        [.readProc fd evt.readProc evt.priv mask, .pushed fd mask])
    else (events, [.readProc fd evt.readProc evt.priv mask])
  else (events, [])

def tableWrite (procs : Procs) (events : Nat → CeventSlot) (fd : Nat) (mask : EventMask) :
    (Nat → CeventSlot) × List Dispatch :=
  let evt := events fd
  if evt.mask ≠ .none ∧ mask.has .write then
    (tableRun events (procs fd true).ops, [.writeProc fd evt.writeProc evt.priv mask])
  else (events, [])

def tableEntry (procs : Procs) (events : Nat → CeventSlot) (fired : CeventFired) :
    (Nat → CeventSlot) × List Dispatch :=
  let evt := events fired.fd
  if evt.mask = .none then (events, [])
  else if evt.mask.has .persist then
    let reads := tableRead procs events fired.fd (fired.mask ||| .persist)
    let writes := tableWrite procs reads.1 fired.fd (fired.mask ||| .persist)
    (writes.1, reads.2 ++ writes.2)
  else (tableStep events (.del fired.fd fired.mask), [.pushed fired.fd fired.mask])

def tableLoop (procs : Procs) (events : Nat → CeventSlot) :
    List CeventFired → (Nat → CeventSlot) × List Dispatch
  | [] => (events, [])
  | fired :: rest =>
      let first := tableEntry procs events fired
      let later := tableLoop procs first.1 rest
      (later.1, first.2 ++ later.2)

section

variable {procs : Procs} {events events' : Nat → CeventSlot} {fd i : Nat} {mask : EventMask}
  {ops : List EventOp} {fired : CeventFired}

/-- Calls on other descriptors leave a slot alone. -/
theorem tableRun_of_ne (h : ∀ op ∈ ops, i ≠ op.fd) : tableRun events ops i = events i := by
  induction ops generalizing events with
  | nil => rfl
  | cons op ops ih =>
      rw [tableRun, List.foldl_cons]
      exact (ih fun op' hop => h op' (List.mem_cons_of_mem _ hop)).trans
        (tableStep_of_ne op (h op List.mem_cons_self))

/-- A slot depends on what was in it. -/
theorem tableStep_congr {op : EventOp} (h : events i = events' i) :
    tableStep events op i = tableStep events' op i := by
  by_cases hi : i = op.fd
  · subst hi
    rw [tableStep_self, tableStep_self, h]
  · rw [tableStep_of_ne op hi, tableStep_of_ne op hi, h]

theorem tableRun_congr (ops : List EventOp) (h : events i = events' i) :
    tableRun events ops i = tableRun events' ops i := by
  induction ops generalizing events events' with
  | nil => exact h
  | cons op ops ih => exact ih (tableStep_congr h)

theorem tableRead_congr (procs : Procs) (mask : EventMask) (h : events fd = events' fd) :
    (tableRead procs events fd mask).2 = (tableRead procs events' fd mask).2 ∧
      (tableRead procs events fd mask).1 fd = (tableRead procs events' fd mask).1 fd := by
  have hrun := tableRun_congr (procs fd false).ops h
  simp only [tableRead, h]
  split_ifs
  · exact ⟨rfl, tableStep_congr hrun⟩
  · exact ⟨rfl, hrun⟩
  · exact ⟨rfl, h⟩

theorem tableWrite_congr (h : events fd = events' fd) :
    (tableWrite procs events fd mask).2 = (tableWrite procs events' fd mask).2 := by
  simp only [tableWrite, h]
  split_ifs <;> rfl

/-- What is dispatched for an entry depends on its slot. -/
theorem tableEntry_congr (h : events fired.fd = events' fired.fd) :
    (tableEntry procs events fired).2 = (tableEntry procs events' fired).2 := by
  obtain ⟨hds, hslot⟩ := tableRead_congr procs (fired.mask ||| .persist) h
  simp only [tableEntry, h]
  split_ifs
  · rfl
  · rw [hds, tableWrite_congr hslot]
  · rfl

theorem tableRead_of_ne (hi : i ≠ fd) (h : ∀ op ∈ (procs fd false).ops, i ≠ op.fd) :
    (tableRead procs events fd mask).1 i = events i := by
  simp only [tableRead]
  split_ifs
  · exact (tableStep_of_ne (.del fd .read) hi).trans (tableRun_of_ne h)
  · exact tableRun_of_ne h
  · rfl

theorem tableWrite_of_ne (h : ∀ op ∈ (procs fd true).ops, i ≠ op.fd) :
    (tableWrite procs events fd mask).1 i = events i := by
  simp only [tableWrite]
  split_ifs
  · exact tableRun_of_ne h
  · rfl

theorem tableEntry_of_ne (hi : i ≠ fired.fd)
    (h : ∀ w, ∀ op ∈ (procs fired.fd w).ops, i ≠ op.fd) :
    (tableEntry procs events fired).1 i = events i := by
  simp only [tableEntry]
  split_ifs
  · rfl
  · rw [tableWrite_of_ne (h true), tableRead_of_ne hi (h false)]
  · exact tableStep_of_ne (.del fired.fd fired.mask) hi

end

/-- The event procedures of these descriptors act on their own descriptor and on others that are
none of these, and give calls that both back ends can carry out. -/
structure KeepApart (procs : Procs) (fds : List Nat) : Prop where
  own : ∀ fd ∈ fds, ∀ w, ∀ op ∈ (procs fd w).ops, op.fd = fd ∨ op.fd ∉ fds
  valid : ∀ fd ∈ fds, ∀ w, ∀ op ∈ (procs fd w).ops, op.Valid ∧ op.fd < fdSetSize

/-- Each entry is dispatched as if it were alone. -/
theorem tableLoop_eq {procs : Procs} {fds : List Nat} {events : Nat → CeventSlot}
    {fired : List CeventFired} (hprocs : KeepApart procs fds)
    (hmem : ∀ f ∈ fired, f.fd ∈ fds) (hnodup : (fired.map CeventFired.fd).Nodup) :
    (tableLoop procs events fired).2 = fired.flatMap fun f => (tableEntry procs events f).2 := by
  induction fired generalizing events with
  | nil => rfl
  | cons f fired ih =>
      rw [List.map_cons, List.nodup_cons] at hnodup
      have hf := hmem f List.mem_cons_self
      have hrest : ∀ g ∈ fired, g.fd ∈ fds := fun g hg => hmem g (List.mem_cons_of_mem _ hg)
      simp only [tableLoop, List.flatMap_cons, ih hrest hnodup.2]
      refine congrArg _ (List.flatMap_congr fun g hg => tableEntry_congr (tableEntry_of_ne ?_ ?_))
      · exact fun h => hnodup.1 (h ▸ List.mem_map_of_mem hg)
      · intro w op hop heq
        rcases hprocs.own f.fd hf w op hop with hown | hother
        · exact hnodup.1 (hown ▸ heq ▸ List.mem_map_of_mem hg)
        · exact hother (heq ▸ hrest g hg)

theorem tableLoop_perm {procs : Procs} {events : Nat → CeventSlot} {fired fired' : List CeventFired}
    (hprocs : KeepApart procs (fired.map CeventFired.fd))
    (hnodup : (fired.map CeventFired.fd).Nodup) (hperm : fired.Perm fired') :
    (tableLoop procs events fired).2.Perm (tableLoop procs events fired').2 := by
  have hfds := hperm.map CeventFired.fd
  rw [tableLoop_eq hprocs (fun f hf => List.mem_map_of_mem hf) hnodup,
    tableLoop_eq hprocs (fun f hf => hfds.mem_iff.mpr (List.mem_map_of_mem hf))
      (hfds.nodup_iff.mp hnodup)]
  exact hperm.flatMap_right _

structure Carries {B : Type} (impl : Impl B) (Ok : Cevents B → Prop) (L : EventOp → Prop) :
    Prop where
  call : ∀ {s op}, Ok s → L op →
    ∃ s' o, step impl s op = some (s', o) ∧ s'.events = tableStep s.events op ∧ Ok s'

section

variable {B : Type} {impl : Impl B} {Ok : Cevents B → Prop} {L : EventOp → Prop} {procs : Procs}
  {s : Cevents B} {fd : Nat} {mask : EventMask}

theorem Carries.runOps (hc : Carries impl Ok L) {ops : List EventOp} (hok : Ok s)
    (hops : ∀ op ∈ ops, L op) :
    ∃ s', Cevents.runOps impl s ops = some s' ∧ s'.events = tableRun s.events ops ∧ Ok s' := by
  induction ops generalizing s with
  | nil => exact ⟨s, rfl, rfl, hok⟩
  | cons op ops ih =>
      obtain ⟨s₁, o, hstep, hev, hok₁⟩ := hc.call hok (hops op List.mem_cons_self)
      obtain ⟨s₂, hrun, hev₂, hok₂⟩ := ih hok₁ fun op' h => hops op' (List.mem_cons_of_mem _ h)
      obtain ⟨⟨_, os⟩, hrun', rfl⟩ := Option.map_eq_some_iff.mp hrun
      refine ⟨_, ?_, hev₂.trans (by rw [hev]; rfl), hok₂⟩
      rw [Cevents.runOps, Machine.run_cons_eq_some.mpr ⟨s₁, o, os, hstep, hrun', rfl⟩]
      rfl

theorem Carries.pollRead (hc : Carries impl Ok L) (mask : EventMask) (hok : Ok s)
    (hfd : fd < maxEvents) (hops : ∀ op ∈ (procs fd false).ops, L op)
    (hdel : L (.del fd .read)) :
    ∃ s', Cevents.pollRead impl procs s fd mask =
        some (s', (tableRead procs s.events fd mask).2) ∧
      s'.events = (tableRead procs s.events fd mask).1 ∧ Ok s' := by
  simp only [Cevents.pollRead, slot_of_lt hfd, Option.bind_eq_bind, Option.bind_some, tableRead]
  by_cases hread : (s.events fd).mask ≠ .none ∧ mask.has .read = true
  · obtain ⟨s₁, hrun, hev, hok₁⟩ := hc.runOps hok hops
    obtain ⟨s₂, o, hstep, hev₂, hok₂⟩ := hc.call hok₁ hdel
    simp only [if_pos hread, hrun, Option.bind_some]
    split_ifs
    · simp only [hstep, Option.bind_some]
      exact ⟨s₂, rfl, hev ▸ hev₂, hok₂⟩
    · exact ⟨s₁, rfl, hev, hok₁⟩
  · simp only [if_neg hread]
    exact ⟨s, rfl, rfl, hok⟩

theorem Carries.pollWrite (hc : Carries impl Ok L) (mask : EventMask) (hok : Ok s)
    (hfd : fd < maxEvents) (hops : ∀ op ∈ (procs fd true).ops, L op) :
    ∃ s', Cevents.pollWrite impl procs s fd mask =
        some (s', (tableWrite procs s.events fd mask).2) ∧
      s'.events = (tableWrite procs s.events fd mask).1 ∧ Ok s' := by
  simp only [Cevents.pollWrite, slot_of_lt hfd, Option.bind_eq_bind, Option.bind_some, tableWrite]
  by_cases hwrite : (s.events fd).mask ≠ .none ∧ mask.has .write = true
  · obtain ⟨s₁, hrun, hev, hok₁⟩ := hc.runOps hok hops
    simp only [if_pos hwrite, hrun, Option.bind_some]
    exact ⟨s₁, rfl, hev, hok₁⟩
  · simp only [if_neg hwrite]
    exact ⟨s, rfl, rfl, hok⟩

theorem Carries.pollEntry (hc : Carries impl Ok L) {f : CeventFired} (hok : Ok s)
    (hfd : f.fd < maxEvents) (hops : ∀ w, ∀ op ∈ (procs f.fd w).ops, L op)
    (hdel : ∀ mask, L (.del f.fd mask)) :
    ∃ s', Cevents.pollEntry impl procs s f = some (s', (tableEntry procs s.events f).2) ∧
      s'.events = (tableEntry procs s.events f).1 ∧ Ok s' := by
  simp only [Cevents.pollEntry, slot_of_lt hfd, Option.bind_eq_bind, Option.bind_some, tableEntry]
  by_cases hnone : (s.events f.fd).mask = .none
  · simp only [if_pos hnone]
    exact ⟨s, rfl, rfl, hok⟩
  by_cases hpersist : (s.events f.fd).mask.has .persist = true
  · obtain ⟨s₁, hread, hev, hok₁⟩ :=
      hc.pollRead (f.mask ||| .persist) hok hfd (hops false) (hdel .read)
    obtain ⟨s₂, hwrite, hev₂, hok₂⟩ :=
      hc.pollWrite (f.mask ||| .persist) hok₁ hfd (hops true)
    simp only [if_neg hnone, if_pos hpersist, hread, Option.bind_some, hwrite, ← hev]
    exact ⟨s₂, rfl, hev₂, hok₂⟩
  · obtain ⟨s₁, o, hstep, hev, hok₁⟩ := hc.call hok (hdel f.mask)
    simp only [if_neg hnone, if_neg hpersist, hstep, Option.bind_some]
    exact ⟨s₁, rfl, hev, hok₁⟩

theorem Carries.pollLoop (hc : Carries impl Ok L) (s : Cevents B) (fired : List CeventFired)
    (hok : Ok s)
    (hfd : ∀ f ∈ fired, f.fd < maxEvents) (hops : ∀ f ∈ fired, ∀ w, ∀ op ∈ (procs f.fd w).ops, L op)
    (hdel : ∀ f ∈ fired, ∀ mask, L (.del f.fd mask)) :
    ∃ s', Cevents.pollLoop impl procs s fired = some (s', (tableLoop procs s.events fired).2) := by
  induction fired generalizing s with
  | nil => exact ⟨s, rfl⟩
  | cons f fired ih =>
      obtain ⟨s₁, hentry, hev, hok₁⟩ := hc.pollEntry hok (hfd f List.mem_cons_self)
        (hops f List.mem_cons_self) (hdel f List.mem_cons_self)
      obtain ⟨s₂, hloop⟩ := ih s₁ hok₁ (fun g hg => hfd g (List.mem_cons_of_mem _ hg))
        (fun g hg => hops g (List.mem_cons_of_mem _ hg))
        fun g hg => hdel g (List.mem_cons_of_mem _ hg)
      refine ⟨s₂, ?_⟩
      simp only [Cevents.pollLoop, hentry, Option.bind_eq_bind, Option.bind_some, hloop, hev,
        tableLoop]

theorem carries_of_call {Agrees : (Nat → CeventSlot) → B → Prop} (hv : ∀ {op}, L op → op.Valid)
    (hcall : ∀ {s : Cevents B} {op}, Agrees s.events s.privData → L op → Asks s op →
      ∃ b, impl.call s op = some (b, 0) ∧ Agrees (tableStep s.events op) b) :
    Carries impl (fun s => Agrees s.events s.privData ∧ Covers s.events s.maxfd) L where
  call := by
    intro s op hok hop
    by_cases hask : Asks s op
    · obtain ⟨b, hb, hag⟩ := hcall hok.1 hop hask
      obtain ⟨maxfd, hstep, hcov⟩ := step_asked (hv hop) hask hb (Int.le_refl 0)
      exact ⟨_, _, hstep, rfl, hag, hcov hok.2⟩
    · obtain ⟨hstep, hsame⟩ := step_idle impl (hv hop) hask
      exact ⟨s, _, hstep, hsame.symm, hok⟩

end

def InBoth (op : EventOp) : Prop := op.Valid ∧ op.fd < fdSetSize

theorem epoll_carries :
    Carries Epoll.impl (fun s => EpollAgrees s.events s.privData ∧ Covers s.events s.maxfd)
      InBoth :=
  carries_of_call (fun h => h.1) fun hag hop hask => epoll_call hop.1 hask hag

theorem select_carries :
    Carries Select.impl (fun s => SelectAgrees s.events s.privData ∧ Covers s.events s.maxfd)
      InBoth :=
  carries_of_call (fun h => h.1) fun hag hop hask => select_call hask (fun _ => hop.2) hag

/-- The two builds report the same events, each as it should be, and dispatch and count the same,
whatever the event procedures are, as long as they keep apart. -/
def Interchangeable (r : Registration) (ready : Ready) : Prop :=
  ∀ evs, Epoll.Waits r.epoll ready evs →
    ∃ fired, Select.pollImpl r.selectBuild ready = some fired ∧
      r.Reports ready (Epoll.pollImpl evs) ∧ r.Reports ready fired ∧
      ∀ procs, KeepApart procs (fired.map CeventFired.fd) → ∃ ds ds' n,
        poll Epoll.impl procs r.epollBuild (Epoll.pollImpl evs) = some (ds, n) ∧
          poll Select.impl procs r.selectBuild fired = some (ds', n) ∧ ds.Perm ds'

theorem poll_same {r : Registration} {ready : Ready} {fired fired' : List CeventFired}
    {procs : Procs} (hmax : r.maxfd < fdSetSize) (h : r.Reports ready fired)
    (h' : r.Reports ready fired') (hprocs : KeepApart procs (fired'.map CeventFired.fd)) :
    ∃ ds ds' n, poll Epoll.impl procs r.epollBuild fired = some (ds, n) ∧
      poll Select.impl procs r.selectBuild fired' = some (ds', n) ∧ ds.Perm ds' := by
  have hlt : ∀ f ∈ fired', f.fd < fdSetSize := by
    intro f hf
    have := r.covers f.fd (Registration.registered_of_isReady ((h'.exact f).mp hf).1)
    omega
  have hperm := h.perm h'
  have hin : ∀ f ∈ fired', f.fd < maxEvents := fun f hf =>
    r.inTable f.fd (Registration.registered_of_isReady ((h'.exact f).mp hf).1)
  have hops : ∀ f ∈ fired', ∀ w, ∀ op ∈ (procs f.fd w).ops, InBoth op := fun f hf =>
    hprocs.valid f.fd (List.mem_map_of_mem hf)
  have hdel : ∀ f ∈ fired', ∀ mask, InBoth (.del f.fd mask) := fun f hf _ => ⟨hin f hf, hlt f hf⟩
  obtain ⟨s, hloop⟩ := epoll_carries.pollLoop r.epollBuild fired
    ⟨r.epollAgrees, r.covers⟩ (fun f hf => hin f (hperm.mem_iff.mp hf))
    (fun f hf => hops f (hperm.mem_iff.mp hf)) fun f hf => hdel f (hperm.mem_iff.mp hf)
  obtain ⟨s', hloop'⟩ := select_carries.pollLoop r.selectBuild fired'
    ⟨r.selectAgrees, r.covers⟩ hin hops hdel
  have hds : (tableLoop procs r.events fired').2.Perm (tableLoop procs r.events fired).2 :=
    tableLoop_perm hprocs h'.fd_nodup hperm.symm
  refine ⟨_, _, (tableLoop procs r.events fired).2.countP Dispatch.isPushed, ?_, ?_, hds.symm⟩
  · rw [poll, hloop]
    rfl
  · rw [poll, hloop', Option.map_some]
    exact congrArg (fun n => some (_, n)) (hds.countP_eq _)

/-- For every table that both back ends agree with, and every readiness. -/
theorem pollImpl_interchangeable_iff (r : Registration) (ready : Ready) :
    Interchangeable r ready ↔ r.maxfd < fdSetSize ∧ r.NoneIdle ready := by
  constructor
  · intro h
    obtain ⟨evs, hevs⟩ := Registration.exists_waits r ready
    obtain ⟨fired, hpoll, -, hreports, -⟩ := h evs hevs
    exact Registration.select_reports_iff.mp ⟨fired, hpoll, hreports⟩
  · intro hcond evs hevs
    obtain ⟨fired, hpoll, hreports⟩ := Registration.select_reports_iff.mpr hcond
    exact ⟨fired, hpoll, Registration.epoll_reports hevs, hreports, fun procs hprocs =>
      poll_same hcond.1 (Registration.epoll_reports hevs) hreports hprocs⟩

def twoReaders : Registration where
  maxfd := 4
  events fd := ⟨if fd = 3 ∨ fd = 4 then .read ||| .persist else .none, none, none, none⟩
  epoll fd := if fd = 3 ∨ fd = 4 then some ⟨true, false⟩ else none
  rwfds := ⟨.zero, ⟨fun fd => fd = 3 ∨ fd = 4, fun fd hfd => by
    have : 1024 ≤ fd := hfd
    simp only [decide_eq_false_iff_not]
    omega⟩⟩
  inTable fd h := by
    by_cases hfd : fd = 3 ∨ fd = 4
    · have : fd < 5 := by omega
      exact Nat.lt_trans this (by decide)
    · rw [if_neg hfd] at h
      exact absurd rfl h
  covers fd h := by
    by_cases hfd : fd = 3 ∨ fd = 4
    · omega
    · simp only [if_neg hfd] at h
      exact absurd rfl h
  epollAgrees fd := by
    by_cases hfd : fd = 3 ∨ fd = 4
    · simp only [if_pos hfd]
      decide
    · simp only [if_neg hfd]
      decide
  selectAgrees fd := by
    by_cases hfd : fd = 3 ∨ fd = 4
    · simp only [if_pos hfd, decide_eq_true hfd, show FdSet.zero.has fd = false from rfl]
      decide
    · simp only [if_neg hfd, decide_eq_false hfd, show FdSet.zero.has fd = false from rfl]
      decide

/-- The first is ready. select reports the second one as well, with an empty mask. -/
theorem pollImpl_reports_idle :
    let ready : Ready := ⟨fun fd => fd = 3, fun _ => false⟩
    Select.pollImpl twoReaders.selectBuild ready = some [⟨3, .read⟩, ⟨4, .none⟩] ∧
      ¬ Interchangeable twoReaders ready := by
  have hpoll : Select.pollImpl twoReaders.selectBuild ⟨fun fd => fd = 3, fun _ => false⟩ =
      some [⟨3, .read⟩, ⟨4, .none⟩] := by decide
  refine ⟨hpoll, fun h => ?_⟩
  obtain ⟨evs, hevs⟩ := Registration.exists_waits twoReaders ⟨fun fd => fd = 3, fun _ => false⟩
  obtain ⟨fired, hfired, -, hreports, -⟩ := h evs hevs
  cases hpoll.symm.trans hfired
  have hidle := ((hreports.exact ⟨4, .none⟩).mp (by decide)).1
  revert hidle
  decide

end ThrSocket
