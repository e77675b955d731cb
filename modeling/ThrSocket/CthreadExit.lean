import ThrSocket.CthreadTasks

/-!
`cthr_pool_destroy` while the workers run. It sets `pool->state` once and sends
each thread one signal; a thread looks at `pool->state` only behind its wait. So
it has to be at its wait, or between that and the test, when its signal is sent.
-/

namespace ThrSocket

inductive DestroyPc
  | notCalled
  | signal (i : Nat)
  | join (i : Nat)
  | done
deriving DecidableEq, Repr

structure PoolExit (P D : Type) where
  pool : CthrPool P D
  destroy : DestroyPc := .notCalled
deriving DecidableEq

inductive ExitLabel (P D : Type)
  | pool (label : PoolLabel P D)
  | destroy
deriving DecidableEq

variable {P D : Type}

namespace PoolExit

def signalNext (s : PoolExit P D) (i : Nat) : DestroyPc :=
  if i < s.pool.thrs.length then .signal i else .done

def destroyStep (s : PoolExit P D) : Option (PoolExit P D) :=
  match s.destroy with
  | .notCalled => some ⟨{ s.pool with exit := true }, s.signalNext 0⟩
  | .signal i =>
      if s.pool.mutex then none
      else some ⟨{ s.pool with thrs := s.pool.thrs.modify i Cthread.condSignal }, .join i⟩
  | .join i =>
      match s.pool.thrs[i]? with
      | none => none
      | some t =>
          if t.pc matches .done then some { s with destroy := s.signalNext (i + 1) } else none
  | .done => none

def step (s : PoolExit P D) : ExitLabel P D → Option (PoolExit P D × PoolObs P D)
  | .pool label => (s.pool.step label).map fun r => ({ s with pool := r.1 }, r.2)
  | .destroy => s.destroyStep.map fun s' => (s', .quiet)

def create (mem : List (ThrMem D)) : PoolExit P D where
  pool := .cthrPoolCreate mem

/-- The destroying thread joins a thread that waits without a signal. -/
structure Deadlocked (s : PoolExit P D) : Prop where
  exit : s.pool.exit = true
  joins : ∃ i t, s.destroy = .join i ∧ s.pool.thrs[i]? = some t ∧ t.pc = .wait false

end PoolExit

/-- At the wait, or behind it on the way to the test of `pool->state` and out. -/
def ThreadPc.atWait : ThreadPc D → Bool
  | .wait _ | .testExit | .setExit | .done => true
  | _ => false

def PoolExit.SignalHeard (s : PoolExit P D) : ExitLabel P D → Prop
  | .destroy => ∀ i t, s.destroy = .signal i → s.pool.thrs[i]? = some t → t.pc.atWait
  | _ => True

def ExitLabel.IsThread : ExitLabel P D → Prop
  | .pool (.thread _) => True
  | _ => False

namespace Cthread

/-- The thread has its signal and will not wait again once `pool->state` is set. -/
def Leaving (t : Cthread P D) : Prop := t.pc.atWait ∧ t.pc ≠ .wait false

theorem step_leaving {mutex : Bool} {t t' : Cthread P D} {o : PoolObs P D} (h : t.Leaving)
    (hstep : t.step true mutex = some (t', o)) : t'.Leaving := by
  cases stepped_of_step hstep with
  | goOn hexit => cases hexit
  | wakeUp | leave _ | setExit => exact ⟨rfl, by simp⟩
  | _ => cases h.1

theorem leaving_condSignal {t : Cthread P D} (h : t.pc.atWait) : t.condSignal.Leaving := by
  obtain ⟨s, p, d, pc⟩ := t
  cases pc <;> first | exact ⟨rfl, by simp [condSignal, ThreadPc.signal]⟩ | cases h

theorem leaving_store {t : Cthread P D} (h : t.Leaving) (proc : P) (procData : Option D) :
    (t.store proc procData).Leaving :=
  leaving_condSignal (t := { t with proc := .task proc, procData := procData }) h.1

/-- A thread that is not at its wait comes there on its own, when its task ends. -/
theorem comesToWait_of_not_atWait {t : Cthread P D} (hcall : t.Callable) (h : ¬ t.pc.atWait) :
    t.ComesToWait true fun _ => True := by
  obtain ⟨s, p, d, pc⟩ := t
  have hL : ∀ inside : Bool, (fun _ => True) inside := fun _ => trivial
  cases pc with
  | initCb => exact comesToWait_initCb trivial
  | lock => exact comesToWait_lock trivial
  | setBusy => exact comesToWait_of_stepped trivial .setBusy (comesToWait_loadData hL)
  | loadData => exact comesToWait_loadData hL
  | testProc second => exact comesToWait_testProc hL
  | callProc second => exact comesToWait_callProc hL (hcall second rfl)
  | inProc => exact comesToWait_inProc hL
  | inStray => exact comesToWait_inStray trivial
  | clearProc => exact comesToWait_clearProc trivial
  | clearData => exact comesToWait_clearData trivial
  | wait _ | testExit | setExit | done => exact absurd rfl h

end Cthread

namespace PoolExit

structure Sound (s : PoolExit P D) : Prop where
  exit : s.destroy ≠ .notCalled → s.pool.exit = true
  mutex : s.pool.mutex = true → s.pool.thrs = []
  callable : ∀ t ∈ s.pool.thrs, t.Callable
  index : ∀ i, s.destroy = .signal i ∨ s.destroy = .join i → i < s.pool.thrs.length
  joining : ∀ i t, s.destroy = .join i → s.pool.thrs[i]? = some t → t.Leaving

theorem sound_create (mem : List (ThrMem D)) : (create mem : PoolExit P D).Sound where
  exit h := absurd rfl h
  mutex h := by cases h
  callable t ht := by
    obtain ⟨m, -, rfl⟩ := List.mem_map.mp ht
    intro second hpc
    cases hpc
  index i h := by rcases h with h | h <;> cases h
  joining i t h := by cases h

/-- A thread takes a step that keeps it callable, and leaving if it was. -/
theorem sound_set {s : PoolExit P D} {i : Nat} {t t' : Cthread P D} (hs : s.Sound)
    (ht : s.pool.thrs[i]? = some t) (hcall : t'.Callable)
    (hleave : s.destroy ≠ .notCalled → t.Leaving → t'.Leaving) :
    ({ s with pool := { s.pool with thrs := s.pool.thrs.set i t' } } : PoolExit P D).Sound where
  exit := hs.exit
  mutex h := by rw [hs.mutex h, List.set_nil]
  callable := Components.forall_set hs.callable hcall
  index j h := by
    rw [List.length_set]
    exact hs.index j h
  joining j u hj hu := by
    have hcalled : s.destroy ≠ .notCalled := fun h => by
      rw [h] at hj
      cases hj
    by_cases hij : i = j
    · subst hij
      rw [List.getElem?_set_self (List.getElem?_eq_some_iff.mp ht).1] at hu
      cases hu
      exact hleave hcalled (hs.joining i t hj ht)
    · rw [List.getElem?_set_ne hij] at hu
      exact hs.joining j u hj hu

theorem sound_pool_step {s : PoolExit P D} {pool : CthrPool P D} {label : PoolLabel P D}
    {o : PoolObs P D} (hs : s.Sound) (hstep : s.pool.step label = some (pool, o)) :
    ({ s with pool := pool } : PoolExit P D).Sound := by
  cases label with
  | runTask proc procData =>
      by_cases hthrs : s.pool.thrs = []
      · have hnone : pool.thrs = [] ∧ pool.exit = s.pool.exit := by
          simp only [CthrPool.step, CthrPool.cthrPoolRunTask] at hstep
          split at hstep
          · cases hstep
          · split at hstep <;> cases hstep <;> simp [hthrs]
        refine ⟨fun h => by rw [hnone.2]; exact hs.exit h, fun _ => hnone.1, ?_, ?_, ?_⟩
        · simp [hnone.1]
        · intro j h
          have := hs.index j h
          rw [hthrs] at this
          cases this
        · intro j t _ ht
          rw [hnone.1] at ht
          cases ht
      · have hmutex : s.pool.mutex = false := by
          cases h : s.pool.mutex with
          | false => rfl
          | true => exact absurd (hs.mutex h) hthrs
        obtain ⟨i, t, hi, ht⟩ := CthrPool.exists_chosen hthrs
        rw [CthrPool.step, CthrPool.cthrPoolRunTask_of_chosen hmutex hi ht] at hstep
        cases hstep
        exact sound_set hs ht (Cthread.callable_store t proc procData)
          fun _ h => Cthread.leaving_store h proc procData
  | thread i =>
      obtain ⟨t, t', ht, htstep, rfl⟩ := CthrPool.stepThread_eq_some.mp hstep
      refine sound_set hs ht (Cthread.step_callable htstep) fun hcalled hleave => ?_
      rw [hs.exit hcalled] at htstep
      exact Cthread.step_leaving hleave htstep
  | spurious i =>
      obtain ⟨t, signalled, ht, hpc, rfl, rfl⟩ := CthrPool.spuriousWakeup_eq_some.mp hstep
      exact sound_set hs ht (fun second h => by cases h) fun _ _ => ⟨rfl, by simp⟩

theorem lt_of_signalNext {s : PoolExit P D} {i j : Nat}
    (h : s.signalNext i = .signal j ∨ s.signalNext i = .join j) : j < s.pool.thrs.length := by
  rw [signalNext] at h
  split at h
  · rename_i hi
    rcases h with h | h <;> cases h
    exact hi
  · rcases h with h | h <;> cases h

theorem signalNext_ne_join {s : PoolExit P D} {i j : Nat} : s.signalNext i ≠ .join j := by
  rw [signalNext]
  split <;> simp

/-- The signal leaves behind it a thread that is leaving, if it was heard. -/
theorem destroyStep_signal {s : PoolExit P D} {i : Nat} (hs : s.Sound)
    (hi : s.destroy = .signal i) : ∃ t, s.pool.thrs[i]? = some t ∧
      s.destroyStep =
        some ⟨{ s.pool with thrs := s.pool.thrs.set i t.condSignal }, .join i⟩ := by
  have hlt := hs.index i (.inl hi)
  have hmutex : ¬ s.pool.mutex = true := fun h => by
    rw [hs.mutex h] at hlt
    cases hlt
  refine ⟨s.pool.thrs[i], List.getElem?_eq_getElem hlt, ?_⟩
  rw [destroyStep, hi]
  simp only
  rw [if_neg hmutex, List.modify_eq_set_getElem?, List.getElem?_eq_getElem hlt]
  rfl

theorem sound_destroyStep {s s' : PoolExit P D} (hs : s.Sound) (hheard : s.SignalHeard .destroy)
    (hstep : s.destroyStep = some s') : s'.Sound := by
  cases hd : s.destroy with
  | notCalled =>
      rw [destroyStep, hd] at hstep
      cases hstep
      exact ⟨fun _ => rfl, hs.mutex, hs.callable, fun j h => lt_of_signalNext h,
        fun j t hj _ => absurd hj signalNext_ne_join⟩
  | signal i =>
      obtain ⟨t, ht, hrun⟩ := destroyStep_signal hs hd
      rw [hrun] at hstep
      cases hstep
      have hlt := hs.index i (.inl hd)
      refine ⟨fun _ => hs.exit (by simp [hd]), fun h => by rw [hs.mutex h, List.set_nil],
        Components.forall_set hs.callable ?_, fun j h => ?_, fun j u hj hu => ?_⟩
      · intro second hpc
        refine hs.callable t (List.mem_of_getElem? ht) second ?_
        cases hpc' : t.pc <;> simp_all [Cthread.condSignal, ThreadPc.signal]
      · rcases h with h | h <;> cases h
        rwa [List.length_set]
      · cases hj
        rw [List.getElem?_set_self hlt] at hu
        cases hu
        exact Cthread.leaving_condSignal (hheard i t hd ht)
  | join i =>
      rw [destroyStep, hd] at hstep
      simp only at hstep
      split at hstep
      · cases hstep
      · rw [Option.ite_none_right_eq_some] at hstep
        obtain ⟨-, hstep⟩ := hstep
        cases hstep
        exact ⟨fun _ => hs.exit (by simp [hd]), hs.mutex, hs.callable,
          fun j h => lt_of_signalNext h, fun j t hj _ => absurd hj signalNext_ne_join⟩
  | done =>
      rw [destroyStep, hd] at hstep
      cases hstep

theorem sound_step {s s' : PoolExit P D} {label : ExitLabel P D} {o : PoolObs P D} (hs : s.Sound)
    (hheard : s.SignalHeard label) (hstep : s.step label = some (s', o)) : s'.Sound := by
  cases label with
  | pool label =>
      obtain ⟨⟨pool, o'⟩, hpool, hs'⟩ := Option.map_eq_some_iff.mp hstep
      cases hs'
      exact sound_pool_step hs hpool
  | destroy =>
      obtain ⟨s₁, hdestroy, hs'⟩ := Option.map_eq_some_iff.mp hstep
      cases hs'
      exact sound_destroyStep hs hheard hdestroy

theorem not_deadlocked {s : PoolExit P D} (hs : s.Sound) : ¬ s.Deadlocked := by
  rintro ⟨-, i, t, hi, ht, hpc⟩
  exact (hs.joining i t hi ht).2 hpc

theorem signalHeard_of_isThread {s : PoolExit P D} {label : ExitLabel P D} (h : label.IsThread) :
    s.SignalHeard label := by
  cases label with
  | pool label => trivial
  | destroy => cases h

theorem not_leads_deadlocked {s : PoolExit P D} (hs : s.Sound) :
    ¬ Machine.Leads step ExitLabel.IsThread Deadlocked s := by
  rintro ⟨is, t, os, his, hrun, hdead⟩
  refine not_deadlocked (Machine.invariant_run Sound sound_step hs ?_ hrun) hdead
  exact Machine.along_of_forall (L := ExitLabel.IsThread)
    (fun _ _ h => signalHeard_of_isThread h) his

theorem leads_deadlocked_of_not_signalHeard {s : PoolExit P D} {label : ExitLabel P D}
    (hs : s.Sound) (h : ¬ s.SignalHeard label) :
    ∃ s' o, s.step label = some (s', o) ∧
      Machine.Leads step ExitLabel.IsThread Deadlocked s' := by
  cases label with
  | pool label => exact absurd trivial h
  | destroy =>
      simp only [SignalHeard, Classical.not_forall] at h
      obtain ⟨i, t, hi, ht, hwait⟩ := h
      obtain ⟨u, hu, hrun⟩ := destroyStep_signal hs hi
      rw [ht] at hu
      cases hu
      -- the signal does nothing here
      have hsignal : t.condSignal = t := by
        obtain ⟨st, p, d, pc⟩ := t
        cases pc <;> first | rfl | exact absurd rfl hwait
      have hlt := hs.index i (.inl hi)
      have hexit : s.pool.exit = true := hs.exit (by simp [hi])
      have hmutex : s.pool.mutex = false := by
        cases hm : s.pool.mutex with
        | false => rfl
        | true =>
            rw [hs.mutex hm] at hlt
            cases hlt
      refine ⟨⟨s.pool.setThread i t, .join i⟩, .quiet, ?_, ?_⟩
      · rw [step, hrun, hsignal]
        rfl
      · refine Machine.leads_lift
          (fun t => (⟨s.pool.setThread i t, .join i⟩ : PoolExit P D)) ?_ ?_
          (Cthread.comesToWait_of_not_atWait (hs.callable t (List.mem_of_getElem? ht)) hwait)
        · intro t₁ inside t₂ o _ hstep
          rw [← hexit] at hstep
          refine ⟨.pool (.thread i), o, trivial, ?_⟩
          rw [step, CthrPool.step, CthrPool.stepThread_of_solo hmutex hlt hstep]
          rfl
        · intro t₁ hpc
          exact ⟨hexit, i, t₁, rfl, List.getElem?_set_self hlt, hpc⟩

/-- For every pool and every order of steps, no state of the run is deadlocked or can
come to a deadlock by the workers alone if and only if every signal is heard. -/
theorem cthrPoolDestroy_deadlocks_iff (mem : List (ThrMem D))
    (labels : List (ExitLabel P D)) :
    (∀ n s os, Machine.run step (create mem) (labels.take n) = some (s, os) →
        ¬ s.Deadlocked ∧ ¬ Machine.Leads step ExitLabel.IsThread Deadlocked s) ↔
      Machine.Along step SignalHeard (create mem) labels := by
  have hcreate : (create mem : PoolExit P D).Sound := sound_create mem
  constructor
  · intro h
    exact Machine.along_of_prefixes Sound (Machine.Leads step ExitLabel.IsThread Deadlocked)
      sound_step leads_deadlocked_of_not_signalHeard hcreate
      fun n s os hrun => (h n s os hrun).2
  · intro hheard n s os hrun
    have hs := Machine.invariant_run Sound sound_step hcreate (Machine.along_take hheard n) hrun
    exact ⟨not_deadlocked hs, not_leads_deadlocked hs⟩

/-- One worker, which has not come to its wait when the pool is destroyed. -/
theorem cthrPoolDestroy_deadlocks :
    ∃ (s : PoolExit Nat Nat) (os : List (PoolObs Nat Nat)),
      Machine.run step (create [⟨.init, false, none⟩])
        [.pool (.thread 0), .destroy, .destroy, .pool (.thread 0)] = some (s, os) ∧
      s.Deadlocked :=
  ⟨_, _, rfl, rfl, 0, _, rfl, rfl, rfl⟩

end PoolExit

end ThrSocket
