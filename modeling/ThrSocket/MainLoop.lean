import ThrSocket.Cthread
import ThrSocket.System

/-!
`mainLoop` over the thread pool: a poll pushes the fired events on the queue and
returns how many it has pushed, then there is one `cthr_pool_run_task` for each.
A worker in `process_event` pops until it finds the queue empty. What it does
with an event between two pops is left out, and so is the end of the loop.
-/

namespace ThrSocket

inductive SvrProc
  | processEvent
deriving DecidableEq, Repr

inductive MainPc
  /-- in `cevents_poll`, which has pushed `count` events -/
  | poll (count : Nat)
  /-- in the loop over the events, with `left` calls to make -/
  | calls (left : Nat)
deriving DecidableEq, Repr

structure ThrSocketSvr where
  pool : CthrPool SvrProc Unit
  firedQueue : List Fired := []
  main : MainPc := .poll 0
deriving DecidableEq

inductive SvrLabel
  | push (fired : Fired)
  | polled
  | runTask
  | worker (i : Nat)
  | spurious (i : Nat)
deriving DecidableEq

namespace ThrSocketSvr

def afterCall (left : Nat) : PoolObs SvrProc Unit → MainPc
  | .returned rs _ _ => if rs = -1 ∨ left = 0 then .poll 0 else .calls left
  | _ => .calls left

def stepWorker (s : ThrSocketSvr) (i : Nat) : Option (ThrSocketSvr × Option Fired) :=
  match s.pool.thrs[i]?.map Cthread.pc, s.firedQueue.getLast? with
  | some .inProc, some fired =>
      some ({ s with firedQueue := s.firedQueue.dropLast }, some fired)
  | _, _ => (s.pool.stepThread i).map fun r => ({ s with pool := r.1 }, none)

def step (s : ThrSocketSvr) : SvrLabel → Option (ThrSocketSvr × Option Fired)
  | .push fired =>
      match s.main with
      | .poll count =>
          some ({ s with firedQueue := fired :: s.firedQueue, main := .poll (count + 1) }, none)
      | .calls _ => none
  | .polled =>
      match s.main with
      | .poll count => some ({ s with main := if count > 0 then .calls count else .poll 0 }, none)
      | .calls _ => none
  | .runTask =>
      match s.main with
      | .calls (left + 1) =>
          (s.pool.cthrPoolRunTask .processEvent (some ())).map fun r =>
            ({ s with pool := r.1, main := afterCall left r.2 }, none)
      | _ => none
  | .worker i => s.stepWorker i
  | .spurious i => (s.pool.spuriousWakeup i).map fun r => ({ s with pool := r.1 }, none)

/-- `create_thr_server`: nothing fired, the threads at their start. -/
def createThrServer (mem : List (ThrMem Unit)) : ThrSocketSvr where
  pool := .cthrPoolCreate mem

/-- Events are left, the main loop has made its calls for them, and every worker
waits without a signal. -/
structure Stranded (s : ThrSocketSvr) : Prop where
  queue : s.firedQueue ≠ []
  main : s.main = .poll 0
  waiting : ∀ t ∈ s.pool.thrs, t.pc = .wait false

end ThrSocketSvr

def ThreadPc.testAhead {D : Type} : ThreadPc D → Bool
  | .wait signalled => signalled
  | .testExit | .setBusy | .loadData | .testProc _ | .callProc _ => true
  | _ => false

def Cthread.popAhead {P D : Type} (t : Cthread P D) : Bool :=
  t.pc matches .inProc || t.pc.testAhead && t.proc.task?.isSome

/-- At the last call of a round the queue is empty, or a worker has still to look
at it, or the thread that gets the task will. -/
def ThrSocketSvr.Heard (s : ThrSocketSvr) : SvrLabel → Prop
  | .runTask => s.main = .calls 1 → s.firedQueue = [] ∨ (∃ t ∈ s.pool.thrs, t.popAhead) ∨
      ∃ i t, s.pool.chosen = some i ∧ s.pool.thrs[i]? = some t ∧ t.pc.signal.testAhead
  | _ => True

def SvrLabel.IsWorker : SvrLabel → Prop
  | .worker _ => True
  | _ => False

namespace Cthread

variable {P D : Type}

/-- The thread has not left `thread_loop`, and what it is about to call is there. -/
structure Alive (t : Cthread P D) : Prop where
  stays : t.pc ≠ .setExit ∧ t.pc ≠ .done
  calling : t.Callable

theorem alive_store {t : Cthread P D} (h : t.Alive) (proc : P) (procData : Option D) :
    (t.store proc procData).Alive where
  stays := by
    obtain ⟨state, proc', data', pc⟩ := t
    have := h.stays
    cases pc <;> simp_all [store, condSignal, ThreadPc.signal]
  calling := callable_store t proc procData

theorem popAhead_iff {t : Cthread P D} :
    t.popAhead ↔ t.pc = .inProc ∨ t.pc.testAhead ∧ t.proc.task?.isSome := by
  rw [popAhead]
  cases t.pc <;> simp [ThreadPc.testAhead]

theorem popAhead_store {t : Cthread P D} (h : t.popAhead) (proc : P) (procData : Option D) :
    (t.store proc procData).popAhead := by
  obtain ⟨state, proc', data', pc⟩ := t
  cases pc <;> simp_all [popAhead, store, condSignal, ThreadPc.signal, ThreadPc.testAhead]

theorem popAhead_store_of_testAhead {t : Cthread P D} (h : t.pc.signal.testAhead) (proc : P)
    (procData : Option D) : (t.store proc procData).popAhead := by
  exact popAhead_iff.mpr (.inr ⟨h, rfl⟩)

/-- Outside `process_event` a thread keeps the pop that it has ahead. -/
theorem step_alive {mutex : Bool} {t t' : Cthread P D} {o : PoolObs P D} (h : t.Alive)
    (hstep : t.step false mutex = some (t', o)) :
    t'.Alive ∧ (t.pc ≠ .inProc → t.popAhead → t'.popAhead) := by
  have hcall := step_callable hstep
  cases stepped_of_step hstep with
  | leave hexit => cases hexit
  | setExit => exact absurd rfl h.stays.1
  | callProc => exact ⟨⟨by simp, hcall⟩, fun _ _ => rfl⟩
  | _ =>
      refine ⟨⟨by simp, hcall⟩, fun hpc hpop => ?_⟩
      simp_all [popAhead_iff, ThreadPc.testAhead]

end Cthread

namespace ThrSocketSvr

/-- Whatever is on the queue, a worker has still to look. -/
def Attended (s : ThrSocketSvr) : Prop := s.firedQueue = [] ∨ ∃ t ∈ s.pool.thrs, t.popAhead

structure Sound (s : ThrSocketSvr) : Prop where
  exit : s.pool.exit = false
  mutex : s.pool.mutex = false
  thrs : s.pool.thrs ≠ []
  alive : ∀ t ∈ s.pool.thrs, t.Alive
  attended : s.main = .poll 0 → s.Attended

theorem stepWorker_cases {s s' : ThrSocketSvr} {i : Nat} {o : Option Fired}
    (h : s.stepWorker i = some (s', o)) :
    (∃ t, s.pool.thrs[i]? = some t ∧ t.pc = .inProc ∧
      s' = { s with firedQueue := s.firedQueue.dropLast }) ∨
    ∃ t t' o', s.pool.thrs[i]? = some t ∧ (t.pc = .inProc → s.firedQueue = []) ∧
      t.step s.pool.exit s.pool.mutex = some (t', o') ∧
      s' = { s with pool := { s.pool with thrs := s.pool.thrs.set i t' } } := by
  rw [stepWorker] at h
  split at h
  · rename_i fired hpc hlast
    cases h
    obtain ⟨t, ht, hpc⟩ := Option.map_eq_some_iff.mp hpc
    exact .inl ⟨t, ht, hpc, rfl⟩
  · rename_i hne
    obtain ⟨⟨pool, o'⟩, hstep, hs'⟩ := Option.map_eq_some_iff.mp h
    cases hs'
    obtain ⟨t, t', ht, htstep, rfl⟩ := CthrPool.stepThread_eq_some.mp hstep
    refine .inr ⟨t, t', o', ht, fun hpc => ?_, htstep, rfl⟩
    cases hlast : s.firedQueue.getLast? with
    | none => exact List.getLast?_eq_none_iff.mp hlast
    | some fired => exact absurd hlast (hne fired (by rw [ht, ← hpc]; rfl))

theorem sound_createThrServer (m : ThrMem Unit) (ms : List (ThrMem Unit)) :
    (createThrServer (m :: ms)).Sound where
  exit := rfl
  mutex := rfl
  thrs := by simp [createThrServer, CthrPool.cthrPoolCreate]
  alive t ht := by
    obtain ⟨m', -, rfl⟩ := List.mem_map.mp ht
    exact ⟨by simp, fun _ h => by cases h⟩
  attended _ := .inl rfl

/-- A step of a worker leaves the queue attended. -/
theorem attended_stepWorker {s s' : ThrSocketSvr} {i : Nat} {o : Option Fired} (hs : s.Sound)
    (ha : s.Attended) (hstep : s.stepWorker i = some (s', o)) : s'.Attended := by
  rcases stepWorker_cases hstep with ⟨t, ht, hpc, rfl⟩ | ⟨t, t', o', ht, hempty, htstep, rfl⟩
  · refine .inr ⟨t, List.mem_of_getElem? ht, ?_⟩
    rw [Cthread.popAhead, hpc]
    rfl
  · rcases ha with ha | ha
    · exact .inl ha
    · by_cases hpc : t.pc = .inProc
      · exact .inl (hempty hpc)
      · rw [hs.exit] at htstep
        have halive := hs.alive t (List.mem_of_getElem? ht)
        exact .inr (Components.exists_set ht ha ((Cthread.step_alive halive htstep).2 hpc))

theorem sound_stepWorker {s s' : ThrSocketSvr} {i : Nat} {o : Option Fired} (hs : s.Sound)
    (hstep : s.stepWorker i = some (s', o)) : s'.Sound := by
  have hattended := fun ha => attended_stepWorker hs ha hstep
  rcases stepWorker_cases hstep with ⟨t, ht, hpc, rfl⟩ | ⟨t, t', o', ht, -, htstep, rfl⟩
  · exact ⟨hs.exit, hs.mutex, hs.thrs, hs.alive, fun h => hattended (hs.attended h)⟩
  · rw [hs.exit] at htstep
    have halive := (Cthread.step_alive (hs.alive t (List.mem_of_getElem? ht)) htstep).1
    exact ⟨hs.exit, hs.mutex, by simpa using hs.thrs, Components.forall_set hs.alive halive,
      fun h => hattended (hs.attended h)⟩

/-- What a call does in a pool with threads. -/
theorem runTask_eq {s : ThrSocketSvr} {left : Nat} (hs : s.Sound)
    (hmain : s.main = .calls (left + 1)) :
    ∃ i t, s.pool.chosen = some i ∧ s.pool.thrs[i]? = some t ∧
      s.step .runTask = some ({ s with
        pool := { s.pool with thrs := s.pool.thrs.set i (t.store .processEvent (some ())) }
        main := if left = 0 then .poll 0 else .calls left }, none) := by
  obtain ⟨i, t, hi, ht⟩ := CthrPool.exists_chosen hs.thrs
  refine ⟨i, t, hi, ht, ?_⟩
  simp [step, hmain, CthrPool.cthrPoolRunTask_of_chosen hs.mutex hi ht, afterCall]

theorem sound_step {s s' : ThrSocketSvr} {label : SvrLabel} {o : Option Fired} (hs : s.Sound)
    (hheard : s.Heard label) (hstep : s.step label = some (s', o)) : s'.Sound := by
  cases label with
  | push fired =>
      rw [step] at hstep
      split at hstep
      · cases hstep
        exact ⟨hs.exit, hs.mutex, hs.thrs, hs.alive, fun h => by cases h⟩
      · cases hstep
  | polled =>
      rw [step] at hstep
      split at hstep
      · rename_i count hmain
        cases hstep
        refine ⟨hs.exit, hs.mutex, hs.thrs, hs.alive, fun h => ?_⟩
        by_cases hcount : count > 0
        · rw [if_pos hcount] at h
          cases h
        · have hzero : count = 0 := by omega
          exact hs.attended (by rw [hmain, hzero])
      · cases hstep
  | runTask =>
      cases hmain : s.main with
      | poll count => simp [step, hmain] at hstep
      | calls n =>
          cases n with
          | zero => simp [step, hmain] at hstep
          | succ left =>
              obtain ⟨i, t, hi, ht, hrun⟩ := runTask_eq hs hmain
              rw [hrun] at hstep
              cases hstep
              have halive := Cthread.alive_store (hs.alive t (List.mem_of_getElem? ht))
                .processEvent (some ())
              refine ⟨hs.exit, hs.mutex, by simpa using hs.thrs,
                Components.forall_set hs.alive halive, fun h => ?_⟩
              have hleft : left = 0 := by
                by_contra hne
                rw [if_neg hne] at h
                cases h
              subst hleft
              rcases hheard hmain with hq | hpop | ⟨j, u, hj, hu, htest⟩
              · exact .inl hq
              · exact .inr (Components.exists_set ht hpop
                  fun hp => Cthread.popAhead_store hp _ _)
              · rw [hi] at hj
                cases hj
                rw [ht] at hu
                cases hu
                exact .inr ⟨_, Components.mem_of_getElem?_set ht,
                  Cthread.popAhead_store_of_testAhead htest _ _⟩
  | worker i => exact sound_stepWorker hs hstep
  | spurious i =>
      obtain ⟨⟨pool, o'⟩, hwake, hs'⟩ := Option.map_eq_some_iff.mp hstep
      cases hs'
      obtain ⟨t, signalled, ht, hpc, rfl, rfl⟩ := CthrPool.spuriousWakeup_eq_some.mp hwake
      refine ⟨hs.exit, hs.mutex, by simpa using hs.thrs, Components.forall_set hs.alive ?_,
        fun h => (hs.attended h).imp_right fun hpop => Components.exists_set ht hpop fun hp => ?_⟩
      · exact ⟨by simp, fun _ h => by cases h⟩
      · simp_all [Cthread.popAhead, ThreadPc.testAhead]

theorem not_stranded {s : ThrSocketSvr} (hs : s.Sound) : ¬ s.Stranded := by
  intro h
  rcases hs.attended h.main with hq | ⟨t, ht, hpop⟩
  · exact h.queue hq
  · rw [Cthread.popAhead, h.waiting t ht] at hpop
    cases hpop

theorem heard_of_isWorker {s : ThrSocketSvr} {label : SvrLabel} (h : label.IsWorker) :
    s.Heard label := by
  cases label with
  | worker i => trivial
  | _ => cases h

/-- No run that heeds the condition can be brought to a stranded state. -/
theorem not_leads_stranded {s : ThrSocketSvr} (hs : s.Sound) :
    ¬ Machine.Leads step SvrLabel.IsWorker Stranded s := by
  rintro ⟨is, t, os, his, hrun, hstranded⟩
  refine not_stranded (Machine.invariant_run Sound sound_step hs ?_ hrun) hstranded
  exact Machine.along_of_forall (L := SvrLabel.IsWorker) (fun _ _ h => heard_of_isWorker h) his

/-- Events are on the queue, no call is to come and no worker has a pop ahead. -/
structure Deaf (s : ThrSocketSvr) : Prop where
  exit : s.pool.exit = false
  mutex : s.pool.mutex = false
  alive : ∀ t ∈ s.pool.thrs, t.Alive
  queue : s.firedQueue ≠ []
  main : s.main = .poll 0
  deaf : ∀ t ∈ s.pool.thrs, ¬ t.popAhead

end ThrSocketSvr

theorem Cthread.comesToWait_of_deaf {P D : Type} {t : Cthread P D} (halive : t.Alive)
    (hdeaf : ¬ t.popAhead) : t.ComesToWait false (· = false) := by
  obtain ⟨s, p, d, pc⟩ := t
  have hnone : pc.testAhead → p.task? = none := fun hpc => by
    cases p with
    | null | stray => rfl
    | task proc => exact absurd (by simp [popAhead, hpc]) hdeaf
  cases pc with
  | initCb => exact comesToWait_initCb (by rfl)
  | lock => exact comesToWait_lock (by rfl)
  | clearProc => exact comesToWait_clearProc (by rfl)
  | clearData => exact comesToWait_clearData (by rfl)
  | wait signalled =>
      cases signalled with
      | false => exact Machine.leads_here rfl
      | true =>
          exact comesToWait_of_stepped rfl .wakeUp
            (comesToWait_of_stepped rfl (.goOn rfl)
              (comesToWait_setBusy_noTask (by rfl) (hnone rfl)))
  | testExit =>
      exact comesToWait_of_stepped rfl (.goOn rfl)
        (comesToWait_setBusy_noTask (by rfl) (hnone rfl))
  | setBusy => exact comesToWait_setBusy_noTask (by rfl) (hnone rfl)
  | loadData =>
      exact comesToWait_of_stepped rfl .loadData (comesToWait_noTask (by rfl) (hnone rfl))
  | testProc second => exact comesToWait_noTask (by rfl) (hnone rfl)
  | callProc second =>
      cases p with
      | null => exact absurd rfl (halive.calling second rfl)
      | stray => exact comesToWait_callStray (by rfl)
      | task proc => cases hnone rfl
  | inProc => exact absurd rfl hdeaf
  | inStray => exact comesToWait_inStray (by rfl)
  | setExit => exact absurd rfl halive.stays.1
  | done => exact absurd rfl halive.stays.2

namespace ThrSocketSvr

def setThread (s : ThrSocketSvr) (i : Nat) (t : Cthread SvrProc Unit) : ThrSocketSvr :=
  { s with pool := s.pool.setThread i t }

/-- Outside `process_event` the step of a thread on its own is its step here. -/
theorem step_of_solo {s : ThrSocketSvr} {i : Nat} {t t' : Cthread SvrProc Unit}
    {o : PoolObs SvrProc Unit} (hexit : s.pool.exit = false) (hmutex : s.pool.mutex = false)
    (hi : i < s.pool.thrs.length) (hstep : t.solo false false = some (t', o)) :
    (s.setThread i t).step (.worker i) = some (s.setThread i t', none) := by
  have ht : (s.setThread i t).pool.thrs[i]? = some t := List.getElem?_set_self hi
  have hpool : (s.setThread i t).pool.stepThread i = some ((s.setThread i t').pool, o) :=
    CthrPool.stepThread_of_solo hmutex hi (by rwa [hexit])
  rw [Cthread.solo, Option.ite_none_right_eq_some] at hstep
  rw [step, stepWorker, ht]
  split
  · rename_i hpc _
    simp only [Option.map_some, Option.some.injEq] at hpc
    rw [hpc] at hstep
    cases hstep.1
  · rw [hpool]
    rfl

/-- One worker after the other comes to its wait. -/
theorem deaf_leads {s : ThrSocketSvr} (hs : s.Deaf) (k : Nat) (hk : k ≤ s.pool.thrs.length) :
    Machine.Leads step SvrLabel.IsWorker
      (fun s' => s'.Deaf ∧ s'.pool.thrs.length = s.pool.thrs.length ∧
        ∀ i t, i < k → s'.pool.thrs[i]? = some t → t.pc = .wait false) s := by
  induction k with
  | zero => exact Machine.leads_here ⟨hs, rfl, fun i t hi => absurd hi (by omega)⟩
  | succ k ih =>
      refine Machine.leads_trans (ih (by omega)) ?_
      rintro s₁ ⟨hs₁, hlen, hwait⟩
      have hlt : k < s₁.pool.thrs.length := by omega
      have hmem := List.getElem_mem hlt
      have hself : s₁ = s₁.setThread k s₁.pool.thrs[k] := by
        simp [setThread, CthrPool.setThread]
      rw [hself]
      refine Machine.leads_lift (s₁.setThread k) ?_ ?_
        (Cthread.comesToWait_of_deaf (hs₁.alive _ hmem) (hs₁.deaf _ hmem))
      · rintro t inside t' o rfl hstep
        exact ⟨.worker k, none, trivial, step_of_solo hs₁.exit hs₁.mutex hlt hstep⟩
      · intro t ht
        refine ⟨⟨hs₁.exit, hs₁.mutex, Components.forall_set hs₁.alive ?_, hs₁.queue, hs₁.main,
          Components.forall_set hs₁.deaf ?_⟩, by simpa [setThread, CthrPool.setThread], ?_⟩
        · exact ⟨by simp [ht], fun second h => by rw [ht] at h; cases h⟩
        · simp [Cthread.popAhead_iff, ht, ThreadPc.testAhead]
        · intro i u hi hu
          by_cases hik : i = k
          · subst hik
            rw [setThread, CthrPool.setThread, List.getElem?_set_self hlt] at hu
            cases hu
            exact ht
          · rw [setThread, CthrPool.setThread, List.getElem?_set_ne (Ne.symm hik)] at hu
            exact hwait i u (by omega) hu

theorem deaf_leads_stranded {s : ThrSocketSvr} (hs : s.Deaf) :
    Machine.Leads step SvrLabel.IsWorker Stranded s := by
  refine Machine.leads_trans (deaf_leads hs s.pool.thrs.length (Nat.le_refl _)) ?_
  rintro s' ⟨hs', hlen, hwait⟩
  refine Machine.leads_here ⟨hs'.queue, hs'.main, fun t ht => ?_⟩
  obtain ⟨i, hi, rfl⟩ := List.mem_iff_getElem.mp ht
  exact hwait i _ (by omega) (List.getElem?_eq_getElem hi)

theorem deaf_of_not_heard {s : ThrSocketSvr} {label : SvrLabel} (hs : s.Sound)
    (h : ¬ s.Heard label) : ∃ s' o, s.step label = some (s', o) ∧ s'.Deaf := by
  cases label with
  | runTask =>
      simp only [Heard, Classical.not_imp, not_or, not_exists, not_and] at h
      obtain ⟨hmain, hqueue, hpop, htest⟩ := h
      obtain ⟨i, t, hi, ht, hrun⟩ := runTask_eq hs hmain
      have hmem := List.mem_of_getElem? ht
      refine ⟨_, _, hrun, hs.exit, hs.mutex,
        Components.forall_set hs.alive (Cthread.alive_store (hs.alive t hmem) _ _), hqueue, rfl,
        Components.forall_set (fun u hu => hpop u hu) ?_⟩
      intro hstored
      have hat : t.pc.signal = .inProc ∨ t.pc.signal.testAhead = true := by
        simpa [Cthread.popAhead_iff, Cthread.store, Cthread.condSignal] using hstored
      rcases hat with hat | hat
      · refine hpop t hmem ?_
        have : t.pc = .inProc := by
          cases hpc : t.pc <;> rw [hpc] at hat <;> first | rfl | cases hat
        rw [Cthread.popAhead, this]
        rfl
      · exact htest i t hi ht hat
  | _ => exact absurd trivial h

/-- The workers alone never come to a stranded state from a state of the run if and
only if every last call of a round is heard, for one worker and for any more. -/
theorem mainLoop_strands_iff (m : ThrMem Unit) (ms : List (ThrMem Unit))
    (labels : List SvrLabel) :
    (∀ n s os, Machine.run step (createThrServer (m :: ms)) (labels.take n) = some (s, os) →
        ¬ s.Stranded ∧ ¬ Machine.Leads step SvrLabel.IsWorker Stranded s) ↔
      Machine.Along step Heard (createThrServer (m :: ms)) labels := by
  have hcreate := sound_createThrServer m ms
  constructor
  · intro h
    refine Machine.along_of_prefixes Sound (Machine.Leads step SvrLabel.IsWorker Stranded)
      sound_step (fun hs hnot => ?_) hcreate (fun n s os hrun => (h n s os hrun).2)
    obtain ⟨s', o, hstep, hdeaf⟩ := deaf_of_not_heard hs hnot
    exact ⟨s', o, hstep, deaf_leads_stranded hdeaf⟩
  · intro hheard n s os hrun
    have hs := Machine.invariant_run Sound sound_step hcreate (Machine.along_take hheard n) hrun
    exact ⟨not_stranded hs, not_leads_stranded hs⟩

/-- One worker; the second event is pushed between its last look at the queue and
its wait. -/
theorem mainLoop_strands :
    ∃ s os, Machine.run step (createThrServer [⟨.init, false, none⟩])
      ([.worker 0, .worker 0, .push ⟨5, cevRead⟩, .polled, .runTask] ++
        List.replicate 8 (.worker 0) ++ [.push ⟨6, cevRead⟩, .polled, .runTask] ++
        List.replicate 3 (.worker 0)) = some (s, os) ∧ s.Stranded :=
  ⟨_, _, rfl, by decide, rfl, by decide⟩

end ThrSocketSvr

end ThrSocket
