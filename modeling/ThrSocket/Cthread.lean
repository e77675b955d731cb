import ThrSocket.Lib.Components
import ThrSocket.Lib.Machine

/-!
The thread pool of cthread.c: `thread_loop`, `cthr_pool_run_task` and
`cthr_pool_destroy`. What is done under `pool->mutex` is one step, and so is
every other access to a field that another thread writes. A signal reaches a
thread only while it is blocked in `pthread_cond_wait`, which may also return
by itself. `pthread_cond_wait` and the other calls of the library do not fail.
-/

namespace ThrSocket

inductive ThrState
  | init
  | idle
  | busy
  | exit
deriving DecidableEq, Repr

/-- The field `proc`. A pointer that is not NULL and that no call has stored is
what `jmalloc` left there. -/
inductive ThrProc (P : Type)
  | null
  | stray
  | task (proc : P)
deriving DecidableEq, Repr

/-- What `jmalloc` left in a `cthread`. -/
structure ThrMem (D : Type) where
  state : ThrState
  /-- `proc` is not NULL -/
  stray : Bool
  procData : Option D

/-- Where a thread is in `thread_loop`, by what it does next. -/
inductive ThreadPc (D : Type)
  /-- `pool->thr_init_cb` -/
  | initCb
  | lock
  | wait (signalled : Bool)
  /-- the test of `pool->state` -/
  | testExit
  | setBusy
  | loadData
  /-- `if(thr->proc)`, with `p.second` -/
  | testProc (second : Option D)
  | callProc (second : Option D)
  | inProc
  /-- in the call of a stray pointer -/
  | inStray
  | clearProc
  | clearData
  | setExit
  | done
deriving DecidableEq, Repr

def ThreadPc.signal {D : Type} : ThreadPc D → ThreadPc D
  | .wait _ => .wait true
  | pc => pc

structure Cthread (P D : Type) where
  state : ThrState
  proc : ThrProc P
  procData : Option D
  pc : ThreadPc D := .initCb
deriving DecidableEq

structure CthrPool (P D : Type) where
  thrs : List (Cthread P D)
  /-- `pool->state` is THRP_EXIT -/
  exit : Bool := false
  /-- `pool->mutex` is held from one step to the next -/
  mutex : Bool := false
deriving DecidableEq

inductive PoolObs (P D : Type)
  | quiet
  /-- `cthr_pool_run_task` returned `rs` for this `proc` and `proc_data` -/
  | returned (rs : Int) (proc : P) (procData : Option D)
  /-- `thread_loop` called `proc` -/
  | executed (proc : P) (procData : Option D)
deriving DecidableEq

variable {P D : Type}

def ThrMem.proc (m : ThrMem D) : ThrProc P := if m.stray then .stray else .null

def ThrProc.task? : ThrProc P → Option P
  | .task proc => some proc
  | _ => none

@[simp] theorem ThrProc.task?_null : (.null : ThrProc P).task? = none := rfl

@[simp] theorem ThrProc.task?_stray : (.stray : ThrProc P).task? = none := rfl

@[simp] theorem ThrProc.task?_task (proc : P) : (ThrProc.task proc).task? = some proc := rfl

@[simp] theorem ThrMem.proc_task? (m : ThrMem D) : (m.proc : ThrProc P).task? = none := by
  rw [ThrMem.proc]
  cases m.stray <;> rfl

namespace Cthread

/-- One step of `thread_loop`, none where it is blocked. A call of `proc` ends
by the step of `inProc`. That of a stray pointer, which C leaves undefined, is
taken to come back as well, having done nothing to the pool. -/
def step (exit mutex : Bool) (t : Cthread P D) : Option (Cthread P D × PoolObs P D) :=
  match t.pc with
  | .initCb => some ({ t with pc := .lock }, .quiet)
  | .lock => if mutex then none else some ({ t with state := .idle, pc := .wait false }, .quiet)
  | .wait false => none
  | .wait true => if mutex then none else some ({ t with pc := .testExit }, .quiet)
  | .testExit => some ({ t with pc := if exit then .setExit else .setBusy }, .quiet)
  | .setBusy => some ({ t with state := .busy, pc := .loadData }, .quiet)
  | .loadData => some ({ t with pc := .testProc t.procData }, .quiet)
  | .testProc second =>
      match t.proc with
      | .null => some ({ t with pc := .clearProc }, .quiet)
      | _ => some ({ t with pc := .callProc second }, .quiet)
  | .callProc second =>
      match t.proc with
      | .null => none
      | .stray => some ({ t with pc := .inStray }, .quiet)
      | .task proc => some ({ t with pc := .inProc }, .executed proc second)
  | .inProc | .inStray => some ({ t with pc := .clearProc }, .quiet)
  | .clearProc => some ({ t with proc := .null, pc := .clearData }, .quiet)
  | .clearData => some ({ t with procData := none, pc := .lock }, .quiet)
  | .setExit => some ({ t with state := .exit, pc := .done }, .quiet)
  | .done => none

def condSignal (t : Cthread P D) : Cthread P D := { t with pc := t.pc.signal }

def store (t : Cthread P D) (proc : P) (procData : Option D) : Cthread P D :=
  condSignal { t with proc := .task proc, procData := procData }

def pending (t : Cthread P D) : List (P × Option D) :=
  match t.pc with
  | .inProc | .inStray | .clearProc => []
  | _ => (t.proc.task?.map fun proc => (proc, t.procData)).toList

end Cthread

/-- The loop of `cthr_pool_run_task` over the threads from the i-th on. It stops
at an idle thread; without one `thr` is left at the last thread. -/
def searchLoop : List (Cthread P D) → Nat → Option Nat → Option Nat
  | [], _, thr => thr
  | t :: ts, i, _ => if t.state = .idle then some i else searchLoop ts (i + 1) (some i)

namespace CthrPool

/-- `cthr_pool_create` sets neither `state` nor `proc` nor `proc_data`. -/
def cthrPoolCreate (mem : List (ThrMem D)) : CthrPool P D where
  thrs := mem.map fun m => { state := m.state, proc := m.proc, procData := m.procData }

def chosen (pool : CthrPool P D) : Option Nat := searchLoop pool.thrs 0 none

/-- `cthr_pool_run_task`; it returns -1 only for a pool without threads, and
then it keeps the mutex. -/
def cthrPoolRunTask (pool : CthrPool P D) (proc : P) (procData : Option D) :
    Option (CthrPool P D × PoolObs P D) :=
  if pool.mutex then none
  else
    match pool.chosen with
    | none => some ({ pool with mutex := true }, .returned (-1) proc procData)
    | some i =>
        some ({ pool with thrs := pool.thrs.modify i fun t => t.store proc procData },
          .returned 0 proc procData)

def stepThread (pool : CthrPool P D) (i : Nat) : Option (CthrPool P D × PoolObs P D) :=
  match pool.thrs[i]? with
  | none => none
  | some t =>
      (t.step pool.exit pool.mutex).map fun r => ({ pool with thrs := pool.thrs.set i r.1 }, r.2)

/-- `pthread_cond_wait` of the i-th thread returns without a signal. -/
def spuriousWakeup (pool : CthrPool P D) (i : Nat) : Option (CthrPool P D × PoolObs P D) :=
  match pool.thrs[i]? with
  | none => none
  | some t =>
      match t.pc with
      | .wait _ => some ({ pool with thrs := pool.thrs.set i { t with pc := .wait true } }, .quiet)
      | _ => none

end CthrPool

inductive PoolLabel (P D : Type)
  | runTask (proc : P) (procData : Option D)
  | thread (i : Nat)
  | spurious (i : Nat)
deriving DecidableEq

def CthrPool.step (pool : CthrPool P D) : PoolLabel P D → Option (CthrPool P D × PoolObs P D)
  | .runTask proc procData => pool.cthrPoolRunTask proc procData
  | .thread i => pool.stepThread i
  | .spurious i => pool.spuriousWakeup i

inductive Cthread.Stepped (exit : Bool) :
    Cthread P D → Cthread P D → PoolObs P D → Prop
  | initCb {s p d} : Stepped exit ⟨s, p, d, .initCb⟩ ⟨s, p, d, .lock⟩ .quiet
  | lock {s p d} : Stepped exit ⟨s, p, d, .lock⟩ ⟨.idle, p, d, .wait false⟩ .quiet
  | wakeUp {s p d} : Stepped exit ⟨s, p, d, .wait true⟩ ⟨s, p, d, .testExit⟩ .quiet
  | leave {s p d} (h : exit = true) :
      Stepped exit ⟨s, p, d, .testExit⟩ ⟨s, p, d, .setExit⟩ .quiet
  | goOn {s p d} (h : exit = false) :
      Stepped exit ⟨s, p, d, .testExit⟩ ⟨s, p, d, .setBusy⟩ .quiet
  | setBusy {s p d} : Stepped exit ⟨s, p, d, .setBusy⟩ ⟨.busy, p, d, .loadData⟩ .quiet
  | loadData {s p d} : Stepped exit ⟨s, p, d, .loadData⟩ ⟨s, p, d, .testProc d⟩ .quiet
  | noProc {s d second} :
      Stepped exit ⟨s, .null, d, .testProc second⟩ ⟨s, .null, d, .clearProc⟩ .quiet
  | hasProc {s p d second} (h : p ≠ .null) :
      Stepped exit ⟨s, p, d, .testProc second⟩ ⟨s, p, d, .callProc second⟩ .quiet
  | callStray {s d second} :
      Stepped exit ⟨s, .stray, d, .callProc second⟩ ⟨s, .stray, d, .inStray⟩ .quiet
  | callProc {s proc d second} :
      Stepped exit ⟨s, .task proc, d, .callProc second⟩ ⟨s, .task proc, d, .inProc⟩
        (.executed proc second)
  | inProc {s p d} : Stepped exit ⟨s, p, d, .inProc⟩ ⟨s, p, d, .clearProc⟩ .quiet
  | inStray {s p d} : Stepped exit ⟨s, p, d, .inStray⟩ ⟨s, p, d, .clearProc⟩ .quiet
  | clearProc {s p d} : Stepped exit ⟨s, p, d, .clearProc⟩ ⟨s, .null, d, .clearData⟩ .quiet
  | clearData {s p d} : Stepped exit ⟨s, p, d, .clearData⟩ ⟨s, p, none, .lock⟩ .quiet
  | setExit {s p d} : Stepped exit ⟨s, p, d, .setExit⟩ ⟨.exit, p, d, .done⟩ .quiet

theorem Cthread.stepped_of_step {exit mutex : Bool} {t t' : Cthread P D} {o : PoolObs P D}
    (hstep : t.step exit mutex = some (t', o)) : Stepped exit t t' o := by
  obtain ⟨s, p, d, pc⟩ := t
  cases pc with
  | lock =>
      simp only [step, Option.ite_none_left_eq_some, Option.some.injEq, Prod.mk.injEq] at hstep
      obtain ⟨-, rfl, rfl⟩ := hstep
      exact .lock
  | wait signalled =>
      cases signalled with
      | false => cases hstep
      | true =>
          simp only [step, Option.ite_none_left_eq_some, Option.some.injEq, Prod.mk.injEq] at hstep
          obtain ⟨-, rfl, rfl⟩ := hstep
          exact .wakeUp
  | testExit =>
      cases hstep
      cases exit with
      | true => exact .leave rfl
      | false => exact .goOn rfl
  | testProc second =>
      cases p with
      | null =>
          cases hstep
          exact .noProc
      | stray | task _ =>
          cases hstep
          exact .hasProc (by simp)
  | callProc second =>
      cases p with
      | null => cases hstep
      | stray =>
          cases hstep
          exact .callStray
      | task proc =>
          cases hstep
          exact .callProc
  | done => cases hstep
  | _ =>
      cases hstep
      constructor

/-- Only `lock` and the way out of the wait need the mutex. -/
theorem Cthread.step_of_stepped {exit : Bool} {t t' : Cthread P D} {o : PoolObs P D}
    (h : Stepped exit t t' o) : t.step exit false = some (t', o) := by
  cases h with
  | leave h | goOn h =>
      subst h
      rfl
  | @hasProc _ p _ _ h =>
      cases p with
      | null => exact absurd rfl h
      | stray | task _ => rfl
  | _ => rfl

namespace Cthread

def Callable (t : Cthread P D) : Prop := ∀ second, t.pc = .callProc second → t.proc ≠ .null

theorem step_callable {exit mutex : Bool} {t t' : Cthread P D} {o : PoolObs P D}
    (hstep : t.step exit mutex = some (t', o)) : t'.Callable := by
  intro second hpc
  cases stepped_of_step hstep with
  | hasProc h => exact h
  | _ => cases hpc

theorem callable_store (t : Cthread P D) (proc : P) (procData : Option D) :
    (t.store proc procData).Callable := by
  intro second _
  simp [store, condSignal]

def solo (exit : Bool) (t : Cthread P D) (inside : Bool) : Option (Cthread P D × PoolObs P D) :=
  if (t.pc matches .inProc) = inside then t.step exit false else none

def ComesToWait (exit : Bool) (L : Bool → Prop) (t : Cthread P D) : Prop :=
  Machine.Leads (solo exit) L (fun t => t.pc = .wait false) t

section

variable {exit : Bool} {L : Bool → Prop} {s : ThrState} {p : ThrProc P} {d : Option D}

theorem comesToWait_of_stepped {t t' : Cthread P D} {o : PoolObs P D}
    (hL : L (t.pc matches .inProc)) (hstep : Stepped exit t t' o) (h : t'.ComesToWait exit L) :
    t.ComesToWait exit L :=
  Machine.leads_step hL (by rw [solo, if_pos rfl, step_of_stepped hstep]) h

theorem comesToWait_lock (hL : L false) : ComesToWait exit L ⟨s, p, d, .lock⟩ :=
  comesToWait_of_stepped hL .lock (Machine.leads_here rfl)

theorem comesToWait_initCb (hL : L false) : ComesToWait exit L ⟨s, p, d, .initCb⟩ :=
  comesToWait_of_stepped hL .initCb (comesToWait_lock hL)

theorem comesToWait_clearData (hL : L false) : ComesToWait exit L ⟨s, p, d, .clearData⟩ :=
  comesToWait_of_stepped hL .clearData (comesToWait_lock hL)

theorem comesToWait_clearProc (hL : L false) : ComesToWait exit L ⟨s, p, d, .clearProc⟩ :=
  comesToWait_of_stepped hL .clearProc (comesToWait_clearData hL)

theorem comesToWait_inStray (hL : L false) : ComesToWait exit L ⟨s, p, d, .inStray⟩ :=
  comesToWait_of_stepped hL .inStray (comesToWait_clearProc hL)

theorem comesToWait_callStray (hL : L false) {second : Option D} :
    ComesToWait exit L (⟨s, .stray, d, .callProc second⟩ : Cthread P D) :=
  comesToWait_of_stepped hL .callStray (comesToWait_inStray hL)

/-- Without a task the thread comes to its wait with no `proc` of the pool called. -/
theorem comesToWait_noTask (hL : L false) (hp : p.task? = none) {second : Option D} :
    ComesToWait exit L (⟨s, p, d, .testProc second⟩ : Cthread P D) := by
  cases p with
  | null => exact comesToWait_of_stepped hL .noProc (comesToWait_clearProc hL)
  | stray => exact comesToWait_of_stepped hL (.hasProc (by simp)) (comesToWait_callStray hL)
  | task proc => cases hp

/-- A call of `proc` ends. -/
theorem comesToWait_inProc (hL : ∀ inside, L inside) : ComesToWait exit L ⟨s, p, d, .inProc⟩ :=
  comesToWait_of_stepped (hL true) .inProc (comesToWait_clearProc (hL false))

theorem comesToWait_callProc (hL : ∀ inside, L inside) (hp : p ≠ .null) {second : Option D} :
    ComesToWait exit L ⟨s, p, d, .callProc second⟩ := by
  cases p with
  | null => exact absurd rfl hp
  | stray => exact comesToWait_callStray (hL false)
  | task proc => exact comesToWait_of_stepped (hL false) .callProc (comesToWait_inProc hL)

theorem comesToWait_testProc (hL : ∀ inside, L inside) {second : Option D} :
    ComesToWait exit L ⟨s, p, d, .testProc second⟩ := by
  by_cases hp : p = .null
  · subst hp
    exact comesToWait_noTask (hL false) rfl
  · exact comesToWait_of_stepped (hL false) (.hasProc hp) (comesToWait_callProc hL hp)

theorem comesToWait_loadData (hL : ∀ inside, L inside) :
    ComesToWait exit L ⟨s, p, d, .loadData⟩ :=
  comesToWait_of_stepped (hL false) .loadData (comesToWait_testProc hL)

theorem comesToWait_setBusy_noTask (hL : L false) (hp : p.task? = none) :
    ComesToWait exit L (⟨s, p, d, .setBusy⟩ : Cthread P D) :=
  comesToWait_of_stepped hL .setBusy
    (comesToWait_of_stepped hL .loadData (comesToWait_noTask hL hp))

end

end Cthread

theorem searchLoop_of_idle {ts : List (Cthread P D)} {i : Nat} {thr : Option Nat} {t : Cthread P D}
    (h : ts.find? (fun t => t.state = .idle) = some t) :
    ∃ k, searchLoop ts i thr = some (i + k) ∧ ts[k]? = some t ∧ t.state = .idle := by
  induction ts generalizing i thr with
  | nil => cases h
  | cons u us ih =>
      rw [searchLoop]
      rw [List.find?_cons] at h
      by_cases hidle : u.state = .idle
      · simp only [hidle, decide_true] at h
        cases h
        exact ⟨0, by rw [if_pos hidle]; rfl, rfl, hidle⟩
      · simp only [hidle, decide_false] at h
        obtain ⟨k, hk, hget, ht⟩ := ih h
        refine ⟨k + 1, ?_, hget, ht⟩
        rw [if_neg hidle, hk]
        congr 1
        omega

/-- Without an idle thread the search leaves the last thread it has looked at. -/
theorem searchLoop_of_no_idle {ts : List (Cthread P D)} {i : Nat} {thr : Option Nat}
    (h : ∀ t ∈ ts, t.state ≠ .idle) :
    searchLoop ts i thr = if ts = [] then thr else some (i + (ts.length - 1)) := by
  induction ts generalizing i thr with
  | nil => rfl
  | cons u us ih =>
      rw [searchLoop, if_neg (h u List.mem_cons_self),
        ih fun t ht => h t (List.mem_cons_of_mem _ ht)]
      cases us with
      | nil => rfl
      | cons v vs =>
          rw [if_neg (by simp), if_neg (by simp)]
          simp only [List.length_cons]
          congr 1
          omega

namespace CthrPool

theorem chosen_of_idle {pool : CthrPool P D} {t : Cthread P D}
    (h : pool.thrs.find? (fun t => t.state = .idle) = some t) :
    ∃ i, pool.chosen = some i ∧ pool.thrs[i]? = some t ∧ t.state = .idle := by
  obtain ⟨k, hk, hget, hidle⟩ := searchLoop_of_idle h
  exact ⟨k, by rw [chosen, hk, Nat.zero_add], hget, hidle⟩

theorem exists_chosen {pool : CthrPool P D} (h : pool.thrs ≠ []) :
    ∃ i t, pool.chosen = some i ∧ pool.thrs[i]? = some t := by
  cases hfind : pool.thrs.find? (fun t => t.state = .idle) with
  | some t =>
      obtain ⟨i, hi, ht, -⟩ := chosen_of_idle hfind
      exact ⟨i, t, hi, ht⟩
  | none =>
      have hnone : ∀ t ∈ pool.thrs, t.state ≠ .idle := by simpa using hfind
      have hlt : pool.thrs.length - 1 < pool.thrs.length :=
        Nat.sub_one_lt fun hlen => h (List.length_eq_zero_iff.mp hlen)
      refine ⟨_, _, ?_, List.getElem?_eq_getElem hlt⟩
      rw [chosen, searchLoop_of_no_idle hnone, if_neg h, Nat.zero_add]

theorem cthrPoolRunTask_of_chosen {pool : CthrPool P D} {i : Nat} {t : Cthread P D}
    (hmutex : pool.mutex = false) (hi : pool.chosen = some i) (ht : pool.thrs[i]? = some t)
    (proc : P) (procData : Option D) :
    pool.cthrPoolRunTask proc procData =
      some ({ pool with thrs := pool.thrs.set i (t.store proc procData) },
        .returned 0 proc procData) := by
  rw [cthrPoolRunTask, hmutex, if_neg (by decide), hi]
  simp only
  rw [List.modify_eq_set_getElem?, ht]
  rfl

theorem stepThread_eq_some {pool pool' : CthrPool P D} {i : Nat} {o : PoolObs P D} :
    pool.stepThread i = some (pool', o) ↔
      ∃ t t', pool.thrs[i]? = some t ∧ t.step pool.exit pool.mutex = some (t', o) ∧
        pool' = { pool with thrs := pool.thrs.set i t' } := by
  rw [stepThread]
  cases ht : pool.thrs[i]? with
  | none => simp
  | some t =>
      simp only [Option.map_eq_some_iff, Prod.mk.injEq, Option.some.injEq]
      constructor
      · rintro ⟨⟨t', o'⟩, hstep, rfl, rfl⟩
        exact ⟨t, t', rfl, hstep, rfl⟩
      · rintro ⟨_, t', rfl, hstep, rfl⟩
        exact ⟨(t', o), hstep, rfl, rfl⟩

def setThread (pool : CthrPool P D) (i : Nat) (t : Cthread P D) : CthrPool P D :=
  { pool with thrs := pool.thrs.set i t }

/-- What a thread does on its own it does in a pool. -/
theorem stepThread_of_solo {pool : CthrPool P D} {i : Nat} {t t' : Cthread P D}
    {o : PoolObs P D} {inside : Bool} (hmutex : pool.mutex = false) (hi : i < pool.thrs.length)
    (hstep : t.solo pool.exit inside = some (t', o)) :
    (pool.setThread i t).stepThread i = some (pool.setThread i t', o) := by
  rw [Cthread.solo, Option.ite_none_right_eq_some] at hstep
  refine stepThread_eq_some.mpr ⟨t, t', List.getElem?_set_self hi, ?_, ?_⟩
  · rw [← hstep.2]
    simp [setThread, hmutex]
  · simp [setThread]

theorem spuriousWakeup_eq_some {pool pool' : CthrPool P D} {i : Nat} {o : PoolObs P D} :
    pool.spuriousWakeup i = some (pool', o) ↔
      ∃ t signalled, pool.thrs[i]? = some t ∧ t.pc = .wait signalled ∧ o = .quiet ∧
        pool' = { pool with thrs := pool.thrs.set i { t with pc := .wait true } } := by
  rw [spuriousWakeup]
  cases ht : pool.thrs[i]? with
  | none => simp
  | some t =>
      simp only [Option.some.injEq]
      constructor
      · intro h
        split at h
        · rename_i signalled hpc
          cases h
          exact ⟨t, signalled, rfl, hpc, rfl, rfl⟩
        · cases h
      · rintro ⟨_, signalled, rfl, hpc, rfl, rfl⟩
        rw [hpc]

end CthrPool

end ThrSocket
