import ThrSocket.EventBackends

/-!
The life of an event table: `cevents_create` on whatever memory jmalloc hands
out, and then additions, deletions and polls. Beside the table stands which
descriptors have been passed to `cevents_add_event`. A poll acts on the table by
additions and deletions alone, those of its loop and those of the event procedures.
-/

namespace ThrSocket
open Cevents

/-- What jmalloc hands out for `struct cevents`, byte by byte, and for the event table. -/
structure CeventsMem where
  evts : Nat → UInt8
  events : Nat → CeventSlot

def memset (mem : Nat → UInt8) (c n : Nat) : Nat → UInt8 :=
  fun i => if i < n then UInt8.ofNat c else mem i

def readInt (mem : Nat → UInt8) (i : Nat) : Int :=
  ((mem (i + 3)).toBitVec ++ (mem (i + 2)).toBitVec ++ (mem (i + 1)).toBitVec ++
    (mem i).toBitVec).toInt

/-- `sizeof(cevents)` with pointers of 64 bits and spinlocks. -/
def sizeofCevents : Nat := 128

def CeventsMem.maxfd (mem : CeventsMem) : Int := readInt mem.evts 0

/-- The second argument of `memset` is the byte and the third the number of bytes. -/
def EventBackend.ceventsCreate {B A : Type} (be : EventBackend B A) (mem : CeventsMem) :
    Cevents B :=
  let len := sizeofCevents
  let evts := memset mem.evts len 0
  { maxfd := readInt evts 0
    events := mem.events
    privData := be.createPriv }

def zeroMem : CeventsMem := ⟨fun _ => 0, fun _ => ⟨.none, none, none, none⟩⟩

theorem memset_zero (mem : Nat → UInt8) (c : Nat) : memset mem c 0 = mem := by
  funext i
  rw [memset, if_neg (Nat.not_lt_zero i)]

theorem ceventsCreate_eq {B A : Type} (be : EventBackend B A) (mem : CeventsMem) :
    be.ceventsCreate mem = ⟨mem.maxfd, mem.events, be.createPriv⟩ := by
  rw [EventBackend.ceventsCreate, memset_zero]
  rfl

def EventOp.adds : EventOp → List Nat
  | .add fd _ _ _ => [fd]
  | .del _ _ => []

section

variable {B : Type} {impl : Impl B} {s s' : Cevents B} {op : EventOp} {o : Ret}

theorem slot_eq_some {fd : Nat} {evt : CeventSlot} :
    s.slot fd = some evt ↔ fd < maxEvents ∧ s.events fd = evt := by
  rw [Cevents.slot, Option.ite_none_right_eq_some, Option.some.injEq]

/-- `maxfd` is moved up to an added descriptor, or down to another one. -/
def MovesMaxfd (s : Cevents B) (op : EventOp) (maxfd : Int) : Prop :=
  op.adds = [op.fd] ∧ maxfd = op.fd ∨ maxfd ≤ s.maxfd ∧ (maxfd = s.maxfd ∨ 0 ≤ maxfd)

inductive StepEffect (impl : Impl B) (s : Cevents B) (op : EventOp) : Cevents B → Prop
  | same : StepEffect impl s op s
  | refused {b : B} {rs : Int} (hcall : impl.call s op = some (b, rs)) :
      StepEffect impl s op { s with privData := b }
  | changed {b : B} {rs maxfd : Int} (hlt : op.fd < maxEvents) (hask : Asks s op)
      (hcall : impl.call s op = some (b, rs)) (hmaxfd : MovesMaxfd s op maxfd) :
      StepEffect impl s op ⟨maxfd, tableStep s.events op, b⟩

theorem lastRegistered_lt {events : Nat → CeventSlot} {n j : Nat}
    (h : lastRegistered events n = some j) : j < n := by
  induction n with
  | zero => cases h
  | succ n ih =>
      rw [lastRegistered] at h
      split_ifs at h
      · cases h
        exact Nat.lt_succ_self _
      · exact Nat.lt_succ_of_lt (ih h)

theorem movesMaxfd_del {fd : Nat} {mask m : EventMask} (events : Nat → CeventSlot) :
    MovesMaxfd s (.del fd mask)
      (if s.maxfd = fd ∧ m = .none then
        (lastRegistered events fd).elim s.maxfd fun j => (j : Int)
      else s.maxfd) := by
  refine .inr ?_
  split_ifs with hmax
  · cases hlast : lastRegistered events fd with
    | none => exact ⟨Int.le_refl _, .inl rfl⟩
    | some j =>
        have := lastRegistered_lt hlast
        dsimp only [Option.elim_some]
        omega
  · exact ⟨Int.le_refl _, .inl rfl⟩

theorem step_effect (h : step impl s op = some (s', o)) : StepEffect impl s op s' := by
  cases op with
  | add fd mask proc priv =>
      rw [step, addEventInner] at h
      by_cases hfd : fd > maxEvents
      · rw [if_pos hfd] at h
        cases h
        exact .same
      rw [if_neg hfd] at h
      obtain ⟨evt, hslot, h⟩ := Option.bind_eq_some_iff.mp h
      obtain ⟨hlt, rfl⟩ := slot_eq_some.mp hslot
      obtain ⟨⟨b, rs⟩, hcall, h⟩ := Option.bind_eq_some_iff.mp h
      have hadd : impl.call s (.add fd mask proc priv) = some (b, rs) := hcall
      dsimp only at h
      by_cases hrs : rs < 0
      · rw [if_pos hrs] at h
        cases h
        exact .refused hadd
      · rw [if_neg hrs] at h
        cases h
        refine .changed hlt trivial hadd ?_
        split_ifs
        · exact .inl ⟨rfl, rfl⟩
        · exact .inr ⟨Int.le_refl _, .inl rfl⟩
  | del fd mask =>
      rw [step, delEventInner] at h
      by_cases hfd : fd > maxEvents
      · rw [if_pos hfd] at h
        cases h
        exact .same
      rw [if_neg hfd] at h
      obtain ⟨evt, hslot, h⟩ := Option.bind_eq_some_iff.mp h
      obtain ⟨hlt, rfl⟩ := slot_eq_some.mp hslot
      by_cases hnone : (s.events fd).mask = .none
      · rw [if_pos hnone] at h
        cases h
        exact .same
      rw [if_neg hnone] at h
      obtain ⟨⟨b, rs⟩, hcall, h⟩ := Option.bind_eq_some_iff.mp h
      have hdel : impl.call s (.del fd mask) = some (b, rs) := hcall
      cases h
      exact .changed hlt hnone hdel (movesMaxfd_del _)

theorem step_rejects (impl : Impl B) (s : Cevents B) (h : maxEvents < op.fd) :
    step impl s op = some (s, ⟨-1, none⟩) := by
  cases op <;> exact if_pos h

/-- The guards compare with `>`: behind them the slot is looked at. -/
theorem step_limit (impl : Impl B) (s : Cevents B) (h : op.fd = maxEvents) :
    step impl s op = none := by
  have hslot : s.slot maxEvents = none := if_neg (Nat.lt_irrefl _)
  cases op with
  | add fd mask proc priv =>
      obtain rfl : fd = maxEvents := h
      rw [step, addEventInner, if_neg (Nat.lt_irrefl _), hslot]
      rfl
  | del fd mask =>
      obtain rfl : fd = maxEvents := h
      rw [step, delEventInner, if_neg (Nat.lt_irrefl _), hslot]
      rfl

/-- The kernel holds what it held, and what is added. -/
theorem EventBackend.Lawful.call_holds {A : Type} {be : EventBackend B A} (hbe : be.Lawful) {b : B}
    {rs : Int} {i : Nat} (h : be.impl.call s op = some (b, rs)) (hi : be.Holds b i) :
    be.Holds s.privData i ∨ i ∈ op.adds := by
  cases op with
  | add fd mask proc priv => exact (hbe.added h hi).imp id fun hfd => List.mem_singleton.mpr hfd
  | del fd mask => exact .inl (hbe.deleted h hi)

end

section

variable {B : Type}

def readOps (procs : Procs) (s : Cevents B) (fd : Nat) (mask : EventMask) : List EventOp :=
  if (s.events fd).mask ≠ .none ∧ mask.has .read then
    (procs fd false).ops ++ if (procs fd false).rs = 0 then [.del fd .read] else []
  else []

def writeOps (procs : Procs) (s : Cevents B) (fd : Nat) (mask : EventMask) : List EventOp :=
  if (s.events fd).mask ≠ .none ∧ mask.has .write then (procs fd true).ops else []

def thenOps (impl : Impl B) (s : Cevents B) (ops : List EventOp)
    (next : Cevents B → List EventOp) : List EventOp :=
  ops ++ (runOps impl s ops).elim [] next

def entryOps (impl : Impl B) (procs : Procs) (s : Cevents B) (fired : CeventFired) :
    List EventOp :=
  if (s.events fired.fd).mask = .none then []
  else if (s.events fired.fd).mask.has .persist then
    thenOps impl s (readOps procs s fired.fd (fired.mask ||| .persist)) fun s =>
      writeOps procs s fired.fd (fired.mask ||| .persist)
  else [.del fired.fd fired.mask]

/-- The additions and deletions that the loop of `cevents_poll` makes, event procedures included. -/
def pollOps (impl : Impl B) (procs : Procs) : Cevents B → List CeventFired → List EventOp
  | _, [] => []
  | s, fired :: rest =>
      thenOps impl s (entryOps impl procs s fired) fun s => pollOps impl procs s rest

variable {impl : Impl B} {procs : Procs} {s s' s'' : Cevents B} {ops : List EventOp}

theorem runOps_eq_some :
    runOps impl s ops = some s' ↔ ∃ os, Machine.run (step impl) s ops = some (s', os) := by
  rw [runOps, Option.map_eq_some_iff]
  constructor
  · rintro ⟨⟨t, os⟩, hrun, rfl⟩
    exact ⟨os, hrun⟩
  · rintro ⟨os, hrun⟩
    exact ⟨_, hrun, rfl⟩

theorem runOps_single {op : EventOp} {o : Ret} (h : step impl s op = some (s', o)) :
    runOps impl s [op] = some s' :=
  runOps_eq_some.mpr ⟨[o], Machine.run_cons_eq_some.mpr ⟨s', o, [], h, rfl, rfl⟩⟩

theorem runOps_append {ops' : List EventOp} (h : runOps impl s ops = some s')
    (h' : runOps impl s' ops' = some s'') : runOps impl s (ops ++ ops') = some s'' := by
  obtain ⟨os, hrun⟩ := runOps_eq_some.mp h
  obtain ⟨os', hrun'⟩ := runOps_eq_some.mp h'
  exact runOps_eq_some.mpr ⟨_, Machine.run_append_eq_some hrun hrun'⟩

theorem runOps_then {next : Cevents B → List EventOp} (h : runOps impl s ops = some s')
    (h' : runOps impl s' (next s') = some s'') :
    runOps impl s (thenOps impl s ops next) = some s'' := by
  rw [thenOps, h]
  exact runOps_append h h'

def Dispatch.fd : Dispatch → Nat
  | .readProc fd .. => fd
  | .writeProc fd .. => fd
  | .pushed fd _ => fd

variable {fd : Nat} {mask : EventMask} {ds : List Dispatch}

theorem pollRead_spec (h : pollRead impl procs s fd mask = some (s', ds)) :
    runOps impl s (readOps procs s fd mask) = some s' ∧ ∀ d ∈ ds, d.fd = fd := by
  obtain ⟨evt, hslot, h⟩ := Option.bind_eq_some_iff.mp h
  obtain ⟨-, rfl⟩ := slot_eq_some.mp hslot
  rw [readOps]
  by_cases hreads : (s.events fd).mask ≠ .none ∧ mask.has .read
  · rw [if_pos hreads] at h ⊢
    obtain ⟨s₁, hrun, h⟩ := Option.bind_eq_some_iff.mp h
    by_cases hrs : (procs fd false).rs = 0
    · rw [if_pos hrs] at h ⊢
      obtain ⟨⟨s₂, o⟩, hstep, h⟩ := Option.bind_eq_some_iff.mp h
      cases h
      exact ⟨runOps_append hrun (runOps_single hstep), by simp [Dispatch.fd]⟩
    · rw [if_neg hrs] at h ⊢
      cases h
      rw [List.append_nil]
      exact ⟨hrun, by simp [Dispatch.fd]⟩
  · rw [if_neg hreads] at h ⊢
    cases h
    exact ⟨rfl, by simp⟩

theorem pollWrite_spec (h : pollWrite impl procs s fd mask = some (s', ds)) :
    runOps impl s (writeOps procs s fd mask) = some s' ∧ ∀ d ∈ ds, d.fd = fd := by
  obtain ⟨evt, hslot, h⟩ := Option.bind_eq_some_iff.mp h
  obtain ⟨-, rfl⟩ := slot_eq_some.mp hslot
  rw [writeOps]
  split_ifs at h ⊢
  · obtain ⟨s₁, hrun, h⟩ := Option.bind_eq_some_iff.mp h
    cases h
    exact ⟨hrun, by simp [Dispatch.fd]⟩
  · cases h
    exact ⟨rfl, by simp⟩

theorem pollEntry_spec {fired : CeventFired}
    (h : pollEntry impl procs s fired = some (s', ds)) :
    runOps impl s (entryOps impl procs s fired) = some s' ∧ ∀ d ∈ ds, d.fd = fired.fd := by
  obtain ⟨evt, hslot, h⟩ := Option.bind_eq_some_iff.mp h
  obtain ⟨-, rfl⟩ := slot_eq_some.mp hslot
  rw [entryOps]
  split_ifs at h ⊢ with hnone hpersist
  · cases h
    exact ⟨rfl, by simp⟩
  · obtain ⟨⟨s₁, reads⟩, hread, h⟩ := Option.bind_eq_some_iff.mp h
    obtain ⟨⟨s₂, writes⟩, hwrite, h⟩ := Option.bind_eq_some_iff.mp h
    cases h
    obtain ⟨hrun, hreads⟩ := pollRead_spec hread
    obtain ⟨hrun', hwrites⟩ := pollWrite_spec hwrite
    refine ⟨runOps_then hrun hrun', fun d hd => ?_⟩
    exact (List.mem_append.mp hd).elim (hreads d) (hwrites d)
  · obtain ⟨⟨s₁, o⟩, hstep, h⟩ := Option.bind_eq_some_iff.mp h
    cases h
    exact ⟨runOps_single hstep, by simp [Dispatch.fd]⟩

/-- The loop does its calls, and dispatches reported descriptors. -/
theorem pollLoop_spec {fired : List CeventFired}
    (h : pollLoop impl procs s fired = some (s', ds)) :
    runOps impl s (pollOps impl procs s fired) = some s' ∧
      ∀ d ∈ ds, ∃ f ∈ fired, d.fd = f.fd := by
  induction fired generalizing s ds with
  | nil =>
      cases h
      exact ⟨rfl, by simp⟩
  | cons f rest ih =>
      obtain ⟨⟨s₁, first⟩, hentry, h⟩ := Option.bind_eq_some_iff.mp h
      obtain ⟨⟨s₂, later⟩, hloop, h⟩ := Option.bind_eq_some_iff.mp h
      cases h
      obtain ⟨hrun, hfirst⟩ := pollEntry_spec hentry
      obtain ⟨hrun', hlater⟩ := ih hloop
      refine ⟨runOps_then hrun hrun', fun d hd => ?_⟩
      rcases List.mem_append.mp hd with hd | hd
      · exact ⟨f, List.mem_cons_self, hfirst d hd⟩
      · obtain ⟨g, hg, hfd⟩ := hlater d hd
        exact ⟨g, List.mem_cons_of_mem _ hg, hfd⟩

end

/-- An event table, and the descriptors that have been passed to `cevents_add_event`. -/
structure TrackedEvents (B : Type) where
  table : Cevents B
  added : List Nat

def EventBackend.start {B A : Type} (be : EventBackend B A) (mem : CeventsMem) : TrackedEvents B :=
  ⟨be.ceventsCreate mem, []⟩

theorem EventBackend.start_eq {B A : Type} (be : EventBackend B A) (mem : CeventsMem) :
    be.start mem = ⟨⟨mem.maxfd, mem.events, be.createPriv⟩, []⟩ :=
  congrArg (TrackedEvents.mk · []) (ceventsCreate_eq be mem)

inductive EventCall (A : Type)
  | op (op : EventOp)
  | poll (answer : A) (procs : Procs)

inductive EventRet
  | op (ret : Ret)
  | poll (dispatched : List Dispatch) (count : Nat)

def addedAfter (added : List Nat) (ops : List EventOp) : List Nat :=
  ops.foldl (fun added op => op.adds ++ added) added

namespace TrackedEvents

variable {B A : Type}

def opStep (impl : Impl B) (t : TrackedEvents B) (op : EventOp) : Option (TrackedEvents B × Ret) :=
  (step impl t.table op).map fun r => (⟨r.1, op.adds ++ t.added⟩, r.2)

def callStep (be : EventBackend B A) (t : TrackedEvents B) :
    EventCall A → Option (TrackedEvents B × EventRet)
  | .op op => (t.opStep be.impl op).map fun r => (r.1, .op r.2)
  | .poll answer procs => do
      let fired ← be.pollImpl t.table answer
      let (table, ds) ← pollLoop be.impl procs t.table fired
      some (⟨table, addedAfter t.added (pollOps be.impl procs t.table fired)⟩,
        .poll ds (ds.countP Dispatch.isPushed))

/-- The kernel answers a poll with what it may answer. -/
def Answered (be : EventBackend B A) (t : TrackedEvents B) : EventCall A → Prop
  | .op _ => True
  | .poll answer _ => be.Answers t.table.privData answer

/-- `P` for each addition and deletion, those that a poll makes included, and `R` for what the
poll stores in `cevts->fired`. -/
def CallMeets (be : EventBackend B A) (P : TrackedEvents B → EventOp → Prop)
    (R : TrackedEvents B → Procs → List CeventFired → Prop) (t : TrackedEvents B) :
    EventCall A → Prop
  | .op op => P t op
  | .poll answer procs => ∀ fired, be.pollImpl t.table answer = some fired →
      R t procs fired ∧
        Machine.Along (opStep be.impl) P t (pollOps be.impl procs t.table fired)

variable {be : EventBackend B A} {impl : Impl B} {t t' : TrackedEvents B}

theorem opStep_eq_some {op : EventOp} {o : Ret} :
    t.opStep impl op = some (t', o) ↔
      ∃ s', step impl t.table op = some (s', o) ∧ t' = ⟨s', op.adds ++ t.added⟩ := by
  rw [opStep, Option.map_eq_some_iff]
  constructor
  · rintro ⟨⟨s', o'⟩, hstep, heq⟩
    cases heq
    exact ⟨s', hstep, rfl⟩
  · rintro ⟨s', hstep, rfl⟩
    exact ⟨(s', o), hstep, rfl⟩

theorem run_opStep {s s' : Cevents B} {ops : List EventOp} (added : List Nat)
    (h : runOps impl s ops = some s') :
    ∃ os, Machine.run (opStep impl) ⟨s, added⟩ ops = some (⟨s', addedAfter added ops⟩, os) := by
  obtain ⟨os, hrun⟩ := runOps_eq_some.mp h
  clear h
  induction ops generalizing s added os with
  | nil =>
      cases hrun
      exact ⟨[], rfl⟩
  | cons op ops ih =>
      obtain ⟨s₁, o, os', hstep, htail, rfl⟩ := Machine.run_cons_eq_some.mp hrun
      obtain ⟨os₁, hrest⟩ := ih (op.adds ++ added) os' htail
      exact ⟨o :: os₁, Machine.run_cons_eq_some.mpr
        ⟨_, o, os₁, opStep_eq_some.mpr ⟨s₁, hstep, rfl⟩, hrest, rfl⟩⟩

/-- A poll is what the back end reports, and then additions and deletions. -/
theorem callStep_poll {answer : A} {procs : Procs} {o : EventRet}
    (h : t.callStep be (.poll answer procs) = some (t', o)) :
    ∃ fired os, be.pollImpl t.table answer = some fired ∧
      Machine.run (opStep be.impl) t (pollOps be.impl procs t.table fired) = some (t', os) := by
  obtain ⟨fired, hfired, h⟩ := Option.bind_eq_some_iff.mp h
  obtain ⟨⟨table, ds⟩, hloop, h⟩ := Option.bind_eq_some_iff.mp h
  cases h
  obtain ⟨os, hrun⟩ := run_opStep t.added (pollLoop_spec hloop).1
  exact ⟨fired, os, hfired, hrun⟩

/-- An invariant of additions and deletions is one of the three calls. -/
theorem callStep_keeps {Inv : TrackedEvents B → Prop} {G : TrackedEvents B → EventOp → Prop}
    {R : TrackedEvents B → Procs → List CeventFired → Prop}
    (keeps : ∀ {t op t' o}, Inv t → G t op → opStep be.impl t op = some (t', o) → Inv t')
    {call : EventCall A} {o : EventRet} (ht : Inv t) (hG : CallMeets be G R t call)
    (h : t.callStep be call = some (t', o)) : Inv t' := by
  cases call with
  | op op =>
      obtain ⟨⟨t'', o'⟩, hstep, heq⟩ := Option.map_eq_some_iff.mp h
      cases heq
      exact keeps ht hG hstep
  | poll answer procs =>
      obtain ⟨fired, os, hfired, hrun⟩ := callStep_poll h
      exact Machine.invariant_run Inv keeps ht (hG fired hfired).2 hrun

/-- The rule for properties of every call of a run. -/
theorem along_calls (Inv : TrackedEvents B → Prop) {G P : TrackedEvents B → EventOp → Prop}
    {R : TrackedEvents B → Procs → List CeventFired → Prop}
    (keeps : ∀ {t op t' o}, Inv t → G t op → opStep be.impl t op = some (t', o) → Inv t')
    (shows : ∀ {t op}, Inv t → G t op → P t op)
    (reports : ∀ {t answer procs fired}, Inv t → be.Answers t.table.privData answer →
      be.pollImpl t.table answer = some fired → R t procs fired)
    {calls : List (EventCall A)} (ht : Inv t)
    (hans : Machine.Along (callStep be) (Answered be) t calls)
    (hG : Machine.Along (callStep be) (CallMeets be G fun _ _ _ => True) t calls) :
    Machine.Along (callStep be) (CallMeets be P R) t calls := by
  refine Machine.along_of_invariant Inv (fun ht hguard => callStep_keeps keeps ht hguard.2)
    (fun {t call} ht hguard => ?_) ht (Machine.along_and hans hG)
  cases call with
  | op op => exact shows ht hguard.2
  | poll answer procs =>
      intro fired hfired
      exact ⟨reports ht hguard.1 hfired,
        Machine.along_of_invariant Inv keeps shows ht (hguard.2 fired hfired).2⟩

theorem callMeets_trivial (t : TrackedEvents B) (call : EventCall A) :
    CallMeets be (fun _ _ => True) (fun _ _ _ => True) t call := by
  cases call with
  | op op => trivial
  | poll answer procs =>
      exact fun fired _ => ⟨trivial, Machine.along_of_forall (L := fun _ => True)
        (fun _ _ h => h) fun _ _ => trivial⟩

theorem CallMeets.mono {P Q : TrackedEvents B → EventOp → Prop}
    {R R' : TrackedEvents B → Procs → List CeventFired → Prop} (hPQ : ∀ t op, P t op → Q t op)
    (hR : ∀ t procs fired, R t procs fired → R' t procs fired) {call : EventCall A}
    (h : CallMeets be P R t call) : CallMeets be Q R' t call := by
  cases call with
  | op op => exact hPQ t op h
  | poll answer procs =>
      intro fired hfired
      exact ⟨hR _ _ _ (h fired hfired).1, Machine.along_mono hPQ (h fired hfired).2⟩

end TrackedEvents

end ThrSocket
