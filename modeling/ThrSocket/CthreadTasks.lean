import ThrSocket.Cthread

/-!
The tasks that `cthr_pool_run_task` accepts. They are neither lost nor called
twice as long as every call finds an idle thread whose slot is free: the first
idle one, which need not be so.
-/

namespace ThrSocket

variable {P D : Type}

def PoolObs.acceptedTask : PoolObs P D → List (P × Option D)
  | .returned 0 proc procData => [(proc, procData)]
  | _ => []

def PoolObs.executedTask : PoolObs P D → List (P × Option D)
  | .executed proc procData => [(proc, procData)]
  | _ => []

def acceptedTasks (os : List (PoolObs P D)) : List (P × Option D) := os.flatMap PoolObs.acceptedTask

def executedTasks (os : List (PoolObs P D)) : List (P × Option D) := os.flatMap PoolObs.executedTask

namespace CthrPool

def pending (pool : CthrPool P D) : List (P × Option D) := pool.thrs.flatMap Cthread.pending

def CallSafe (pool : CthrPool P D) : PoolLabel P D → Prop
  | .runTask proc procData => ∀ pool' o, pool.cthrPoolRunTask proc procData = some (pool', o) →
      ((∀ t ∈ pool.thrs, t.state ≠ .idle) →
        o = .returned (-1) proc procData ∧ pool' = pool) ∧
      (o = .returned 0 proc procData → ∃ i t, pool.chosen = some i ∧ pool.thrs[i]? = some t ∧
        t.pending = [] ∧ pool'.thrs = pool.thrs.set i (t.store proc procData))
  | _ => True

/-- Every call of the run keeps its promise, and at every moment the tasks
accepted are those called and those pending. -/
def KeepsTasks (pool : CthrPool P D) (labels : List (PoolLabel P D)) : Prop :=
  Machine.Along step CallSafe pool labels ∧
    ∀ n pool' os, Machine.run step pool (labels.take n) = some (pool', os) →
      (acceptedTasks os).Perm (executedTasks os ++ pool'.pending)

/-- At a call some thread is idle, and the first idle one holds no task. -/
def FindsFree (pool : CthrPool P D) : PoolLabel P D → Prop
  | .runTask _ _ =>
      ∃ t, pool.thrs.find? (fun t => t.state = .idle) = some t ∧ t.proc.task? = none
  | _ => True

end CthrPool

namespace Cthread

def mayBeIdle : ThreadPc D → Bool
  | .initCb | .lock | .wait _ | .testExit | .setBusy | .setExit => true
  | _ => false

structure Sound (t : Cthread P D) : Prop where
  idle : t.state = .idle → mayBeIdle t.pc
  testing : ∀ second, t.pc = .testProc second → second = t.procData
  calling : ∀ second, t.pc = .callProc second → second = t.procData
  cleared : t.pc = .clearData → t.proc = .null

theorem pending_of_idle {t : Cthread P D} (hs : t.Sound) (hidle : t.state = .idle) :
    t.pending = (t.proc.task?.map fun proc => (proc, t.procData)).toList := by
  have hpc := hs.idle hidle
  rw [pending]
  cases hat : t.pc with
  | inProc | inStray | clearProc =>
      rw [hat] at hpc
      cases hpc
  | _ => rfl

theorem pending_eq_nil_iff {t : Cthread P D} (hs : t.Sound) (hidle : t.state = .idle) :
    t.pending = [] ↔ t.proc.task? = none := by
  rw [pending_of_idle hs hidle]
  cases t.proc.task? <;> simp

theorem mayBeIdle_signal (pc : ThreadPc D) : mayBeIdle pc.signal = mayBeIdle pc := by
  cases pc <;> rfl

theorem sound_of_mayBeIdle {t : Cthread P D} (h : mayBeIdle t.pc) : t.Sound where
  idle _ := h
  testing second hpc := by
    rw [hpc] at h
    cases h
  calling second hpc := by
    rw [hpc] at h
    cases h
  cleared hpc := by
    rw [hpc] at h
    cases h

theorem sound_store {t : Cthread P D} (hs : t.Sound) (hidle : t.state = .idle) (proc : P)
    (procData : Option D) : (t.store proc procData).Sound := by
  apply sound_of_mayBeIdle
  change mayBeIdle t.pc.signal
  rw [mayBeIdle_signal]
  exact hs.idle hidle

theorem pending_store {t : Cthread P D} (hs : t.Sound) (hidle : t.state = .idle) (proc : P)
    (procData : Option D) : (t.store proc procData).pending = [(proc, procData)] :=
  pending_of_idle (sound_store hs hidle proc procData) hidle

/-- A step of a thread keeps its task or calls it. -/
theorem step_pending {exit mutex : Bool} {t t' : Cthread P D} {o : PoolObs P D} (hs : t.Sound)
    (hstep : t.step exit mutex = some (t', o)) :
    t'.Sound ∧ t.pending = o.executedTask ++ t'.pending ∧ o.acceptedTask = [] := by
  have hpoints : mayBeIdle t.pc = false → t.state ≠ .idle := fun hpc hidle => by
    have := hs.idle hidle
    rw [hpc] at this
    cases this
  cases stepped_of_step hstep with
  | initCb | setBusy | setExit => exact ⟨by constructor <;> simp [mayBeIdle], rfl, rfl⟩
  | lock | wakeUp | leave _ | goOn _ => exact ⟨sound_of_mayBeIdle rfl, rfl, rfl⟩
  | loadData | noProc | callStray | inProc | inStray | clearProc =>
      exact ⟨by constructor <;> simp [hpoints rfl], rfl, rfl⟩
  | hasProc _ =>
      have hsecond := hs.testing _ rfl
      exact ⟨by constructor <;> simp [hpoints rfl, hsecond], rfl, rfl⟩
  | callProc =>
      refine ⟨by constructor <;> simp [hpoints rfl], ?_, rfl⟩
      rw [hs.calling _ rfl]
      rfl
  | clearData =>
      have hproc := hs.cleared rfl
      exact ⟨sound_of_mayBeIdle rfl, by simp only at hproc; subst hproc; rfl, rfl⟩

end Cthread

namespace CthrPool

structure Sound (pool : CthrPool P D) : Prop where
  mutex : pool.mutex = false
  thrs : ∀ t ∈ pool.thrs, t.Sound

theorem sound_cthrPoolCreate (mem : List (ThrMem D)) :
    (cthrPoolCreate mem : CthrPool P D).Sound where
  mutex := rfl
  thrs t ht := by
    obtain ⟨m, -, rfl⟩ := List.mem_map.mp ht
    exact Cthread.sound_of_mayBeIdle rfl

/-- What `jmalloc` left is no task. -/
theorem pending_cthrPoolCreate (mem : List (ThrMem D)) :
    (cthrPoolCreate mem : CthrPool P D).pending = [] := by
  rw [pending, cthrPoolCreate, List.flatMap_eq_nil_iff]
  intro t ht
  obtain ⟨m, -, rfl⟩ := List.mem_map.mp ht
  simp [Cthread.pending]

/-- A guarded step keeps the pool sound, and the account of its tasks. -/
theorem step_pending {pool pool' : CthrPool P D} {label : PoolLabel P D} {o : PoolObs P D}
    (hs : pool.Sound) (hfree : pool.FindsFree label) (hstep : pool.step label = some (pool', o)) :
    pool'.Sound ∧ (o.acceptedTask ++ pool.pending).Perm (o.executedTask ++ pool'.pending) := by
  cases label with
  | runTask proc procData =>
      obtain ⟨t, hfind, hproc⟩ := hfree
      obtain ⟨i, hi, ht, hidle⟩ := chosen_of_idle hfind
      have hsound := hs.thrs t (List.mem_of_getElem? ht)
      rw [step, cthrPoolRunTask_of_chosen hs.mutex hi ht] at hstep
      cases hstep
      refine ⟨⟨hs.mutex, Components.forall_set hs.thrs (Cthread.sound_store hsound hidle _ _)⟩, ?_⟩
      refine (Components.flatMap_set_takes Cthread.pending [(proc, procData)] ht ?_).symm
      rw [Cthread.pending_store hsound hidle, (Cthread.pending_eq_nil_iff hsound hidle).mpr hproc]
      rfl
  | thread i =>
      obtain ⟨t, t', ht, htstep, rfl⟩ := stepThread_eq_some.mp hstep
      obtain ⟨hsound, hpending, haccepted⟩ :=
        Cthread.step_pending (hs.thrs t (List.mem_of_getElem? ht)) htstep
      refine ⟨⟨hs.mutex, Components.forall_set hs.thrs hsound⟩, ?_⟩
      rw [haccepted]
      exact Components.flatMap_set_gives Cthread.pending _ ht hpending
  | spurious i =>
      obtain ⟨t, signalled, ht, hpc, rfl, rfl⟩ := spuriousWakeup_eq_some.mp hstep
      refine ⟨⟨hs.mutex, Components.forall_set hs.thrs (Cthread.sound_of_mayBeIdle rfl)⟩, ?_⟩
      refine Components.flatMap_set_gives Cthread.pending [] ht ?_
      rw [Cthread.pending, hpc]
      rfl

theorem callSafe_of_findsFree {pool : CthrPool P D} {label : PoolLabel P D} (hs : pool.Sound)
    (hfree : pool.FindsFree label) : pool.CallSafe label := by
  cases label with
  | runTask proc procData =>
      intro pool' o hrun
      obtain ⟨t, hfind, hproc⟩ := hfree
      obtain ⟨i, hi, ht, hidle⟩ := chosen_of_idle hfind
      have hmem := List.mem_of_getElem? ht
      rw [cthrPoolRunTask_of_chosen hs.mutex hi ht] at hrun
      cases hrun
      refine ⟨fun hnone => absurd hidle (hnone t hmem), fun _ => ⟨i, t, hi, ht, ?_, rfl⟩⟩
      exact (Cthread.pending_eq_nil_iff (hs.thrs t hmem) hidle).mpr hproc
  | thread i | spurious i => trivial

/-- Without an idle thread the call does not do what is promised: it returns 0
and overwrites the last slot, or the pool is empty and the mutex stays held. -/
theorem not_callSafe_of_no_idle {pool : CthrPool P D} (hs : pool.Sound)
    (hnone : ∀ t ∈ pool.thrs, t.state ≠ .idle) (proc : P) (procData : Option D) :
    ¬ pool.CallSafe (.runTask proc procData) := by
  intro hsafe
  have hchosen := @searchLoop_of_no_idle P D pool.thrs 0 none hnone
  by_cases hthrs : pool.thrs = []
  · rw [if_pos hthrs] at hchosen
    have hrun : pool.cthrPoolRunTask proc procData =
        some ({ pool with mutex := true }, .returned (-1) proc procData) := by
      rw [cthrPoolRunTask, hs.mutex, if_neg (by decide), chosen, hchosen]
    have heq := ((hsafe _ _ hrun).1 hnone).2
    have : true = pool.mutex := congrArg CthrPool.mutex heq
    rw [hs.mutex] at this
    cases this
  · rw [if_neg hthrs, Nat.zero_add] at hchosen
    have hlt : pool.thrs.length - 1 < pool.thrs.length :=
      Nat.sub_one_lt fun h => hthrs (List.length_eq_zero_iff.mp h)
    have hrun := cthrPoolRunTask_of_chosen hs.mutex hchosen (List.getElem?_eq_getElem hlt)
      proc procData
    cases ((hsafe _ _ hrun).1 hnone).1

theorem findsFree_of_callSafe {pool : CthrPool P D} {label : PoolLabel P D} (hs : pool.Sound)
    (hsafe : pool.CallSafe label) : pool.FindsFree label := by
  cases label with
  | runTask proc procData =>
      cases hfind : pool.thrs.find? (fun t => t.state = .idle) with
      | none =>
          have hnone : ∀ t ∈ pool.thrs, t.state ≠ .idle := by simpa using hfind
          exact absurd hsafe (not_callSafe_of_no_idle hs hnone proc procData)
      | some t =>
          obtain ⟨i, hi, ht, hidle⟩ := chosen_of_idle hfind
          obtain ⟨-, hzero⟩ := hsafe _ _ (cthrPoolRunTask_of_chosen hs.mutex hi ht proc procData)
          obtain ⟨j, u, hj, hu, hpending, -⟩ := hzero rfl
          rw [hi] at hj
          cases hj
          rw [ht] at hu
          cases hu
          have hsound := hs.thrs t (List.mem_of_getElem? ht)
          exact ⟨t, hfind, (Cthread.pending_eq_nil_iff hsound hidle).mp hpending⟩
  | thread i | spurious i => trivial

open scoped List in
theorem run_pending {pool pool' : CthrPool P D} {labels : List (PoolLabel P D)}
    {os : List (PoolObs P D)} (hs : pool.Sound) (hfree : Machine.Along step FindsFree pool labels)
    (hrun : Machine.run step pool labels = some (pool', os)) :
    (acceptedTasks os ++ pool.pending).Perm (executedTasks os ++ pool'.pending) := by
  induction labels generalizing pool os with
  | nil =>
      cases hrun
      exact .refl _
  | cons label labels ih =>
      obtain ⟨pool₁, o, os', hstep, htail, rfl⟩ := Machine.run_cons_eq_some.mp hrun
      obtain ⟨hs₁, hone⟩ := step_pending hs hfree.1 hstep
      have hrest := ih hs₁ (hfree.2 pool₁ o hstep) htail
      rw [acceptedTasks, executedTasks, List.flatMap_cons, List.flatMap_cons, List.append_assoc,
        List.append_assoc]
      calc
        o.acceptedTask ++ (acceptedTasks os' ++ pool.pending)
            ~ acceptedTasks os' ++ (o.acceptedTask ++ pool.pending) :=
          List.perm_append_comm_assoc _ _ _
        _ ~ acceptedTasks os' ++ (o.executedTask ++ pool₁.pending) := hone.append_left _
        _ ~ o.executedTask ++ (acceptedTasks os' ++ pool₁.pending) :=
          List.perm_append_comm_assoc _ _ _
        _ ~ o.executedTask ++ (executedTasks os' ++ pool'.pending) := hrest.append_left _

/-- For every pool, every sequence of calls and every order of steps. -/
theorem cthrPoolRunTask_keepsTasks_iff (mem : List (ThrMem D))
    (labels : List (PoolLabel P D)) :
    (cthrPoolCreate mem).KeepsTasks labels ↔
      Machine.Along step FindsFree (cthrPoolCreate mem) labels := by
  have hcreate : (cthrPoolCreate mem : CthrPool P D).Sound := sound_cthrPoolCreate mem
  constructor
  · rintro ⟨hsafe, -⟩
    exact Machine.along_of_invariant Sound
      (fun hs hg hstep => (step_pending hs (findsFree_of_callSafe hs hg) hstep).1)
      (fun hs hg => findsFree_of_callSafe hs hg) hcreate hsafe
  · intro hfree
    refine ⟨Machine.along_of_invariant Sound (fun hs hg hstep => (step_pending hs hg hstep).1)
      (fun hs hg => callSafe_of_findsFree hs hg) hcreate hfree, ?_⟩
    intro n pool' os hrun
    have h := run_pending hcreate (Machine.along_take hfree n) hrun
    rwa [pending_cthrPoolCreate, List.append_nil] at h

/-- One thread, waiting: the second call comes before the thread has woken up. -/
theorem cthrPoolRunTask_loses :
    ¬ (cthrPoolCreate [⟨.init, false, none⟩] : CthrPool Nat Nat).KeepsTasks
      [.thread 0, .thread 0, .runTask 1 (some 10), .runTask 2 (some 20)] := by
  intro h
  have hperm := h.2 4 _ _ rfl
  exact absurd hperm (by decide)

end CthrPool

end ThrSocket
