import ThrSocket.Lib.Critical

/-!
spinlock.c, one access to the lock word at a time, and the two builds of LOCK_T in lock.h.
-/

namespace ThrSocket

open Critical

def SL_UNLOCK : UInt32 := 0
def SL_LOCKED : UInt32 := 1

def atomicCmpSetUint32 (p o n : UInt32) : Bool × UInt32 := if p = o then (true, n) else (false, p)

inductive SpinPc
  | test
  | cmpSet
  /-- the loop over `n` in round `i` -/
  | pause (i n : Nat)
  | testAgain (i : Nat)
  | cmpSetAgain (i : Nat)
  | yield
deriving DecidableEq, Repr

def spinRound (cpuNum i : Nat) : SpinPc := if i < cpuNum then .pause i 1 else .yield

def spinRounds (cpuNum : Nat) : SpinPc := if cpuNum > 1 then spinRound cpuNum 0 else .yield

def spinlockLock (cpuNum : Nat) : SpinPc → UInt32 → Option SpinPc × UInt32
  | .test, lock =>
      if lock = SL_UNLOCK then (some .cmpSet, lock) else (some (spinRounds cpuNum), lock)
  | .cmpSet, lock =>
      match atomicCmpSetUint32 lock SL_UNLOCK SL_LOCKED with
      | (true, lock) => (none, lock)
      | (false, lock) => (some (spinRounds cpuNum), lock)
  | .pause i n, lock =>
      if n < cpuNum then (some (.pause i (n + 1)), lock) else (some (.testAgain i), lock)
  | .testAgain i, lock =>
      if lock = SL_UNLOCK then (some (.cmpSetAgain i), lock)
      else (some (spinRound cpuNum (i + 1)), lock)
  | .cmpSetAgain i, lock =>
      match atomicCmpSetUint32 lock SL_UNLOCK SL_LOCKED with
      | (true, lock) => (none, lock)
      | (false, lock) => (some (spinRound cpuNum (i + 1)), lock)
  | .yield, lock => (some .test, lock)

def spinlockUnlock (_lock : UInt32) : UInt32 := SL_UNLOCK

/-- Steps to the next successful test and exchange where nobody has the lock. -/
def SpinPc.patience (cpuNum : Nat) : SpinPc → Nat
  | .cmpSet | .cmpSetAgain _ => 1
  | .test | .testAgain _ => 2
  | .yield => 3
  | .pause _ n => cpuNum - n + 3

theorem atomicCmpSetUint32_cases (p o n : UInt32) :
    (p = o ∧ atomicCmpSetUint32 p o n = (true, n)) ∨
      (p ≠ o ∧ atomicCmpSetUint32 p o n = (false, p)) := by
  rw [atomicCmpSetUint32]
  by_cases h : p = o
  · exact .inl ⟨h, if_pos h⟩
  · exact .inr ⟨h, if_neg h⟩

variable {cpuNum : Nat} {pc pc' : SpinPc} {lock lock' : UInt32}

theorem spinlockLock_taken (h : spinlockLock cpuNum pc lock = (none, lock')) :
    lock = SL_UNLOCK ∧ lock' = SL_LOCKED := by
  cases pc with
  | test | pause _ _ | testAgain _ =>
      rw [spinlockLock] at h
      split at h <;> cases h
  | yield => cases h
  | cmpSet | cmpSetAgain _ =>
      rw [spinlockLock] at h
      obtain ⟨hfree, hset⟩ | ⟨-, hset⟩ := atomicCmpSetUint32_cases lock SL_UNLOCK SL_LOCKED
      · rw [hset] at h
        cases h
        exact ⟨hfree, rfl⟩
      · rw [hset] at h
        cases h

theorem spinlockLock_waits (h : spinlockLock cpuNum pc lock = (some pc', lock')) :
    lock' = lock := by
  cases pc with
  | test | pause _ _ | testAgain _ =>
      rw [spinlockLock] at h
      split at h <;> cases h <;> rfl
  | yield =>
      cases h
      rfl
  | cmpSet | cmpSetAgain _ =>
      rw [spinlockLock] at h
      obtain ⟨-, hset⟩ | ⟨-, hset⟩ := atomicCmpSetUint32_cases lock SL_UNLOCK SL_LOCKED
      · rw [hset] at h
        cases h
      · rw [hset] at h
        cases h
        rfl

/-- A thread that finds the lock free each time only goes towards the exchange. -/
theorem spinlockLock_patient (h : spinlockLock cpuNum pc SL_UNLOCK = (some pc', lock')) :
    pc'.patience cpuNum < pc.patience cpuNum := by
  cases pc with
  | test | testAgain _ =>
      cases h
      simp [SpinPc.patience]
  | pause i n =>
      rw [spinlockLock] at h
      split at h
      · cases h
        simp only [SpinPc.patience]
        omega
      · cases h
        simp only [SpinPc.patience]
        omega
  | cmpSet | cmpSetAgain _ => cases h
  | yield =>
      cases h
      simp [SpinPc.patience]

def spinlock (cpuNum : Nat) : LockProc where
  Word := UInt32
  Pc := SpinPc
  free := SL_UNLOCK
  held := SL_LOCKED
  start := .test
  acquire := spinlockLock cpuNum
  release := spinlockUnlock
  patience := SpinPc.patience cpuNum
  held_ne := by decide
  taken := spinlockLock_taken
  waits := spinlockLock_waits
  freed _ := rfl
  patient := spinlockLock_patient
  tries {pc _} _ := by cases pc <;> simp [SpinPc.patience]

/-- A pthread_mutex_t: the word says whether a thread has it, and a thread that finds it taken
waits. -/
def cmutex : LockProc where
  Word := Bool
  Pc := Unit
  free := false
  held := true
  start := ()
  acquire _ held := if held then (some (), true) else (none, true)
  release _ := false
  patience _ := 1
  held_ne := by decide
  taken {_ w _} h := by
    cases w <;> cases h
    exact ⟨rfl, rfl⟩
  waits {_ _ w _} h := by
    cases w <;> cases h
    rfl
  freed _ := rfl
  patient h := by cases h
  tries _ := Nat.one_pos

inductive LockBuild
  | useMutex
  | spin (cpuNum : Nat)

def LockBuild.LOCK_T : LockBuild → LockProc
  | .useMutex => cmutex
  | .spin cpuNum => spinlock cpuNum

theorem SpinPc.patience_le (pc : SpinPc) : pc.patience cpuNum ≤ cpuNum + 3 := by
  cases pc <;> simp only [SpinPc.patience] <;> omega

/-- A spin lock excludes, its word says so, and who finds it free has it soon. -/
theorem spinlock_excludes {ι μ ω ρ : Type} [DecidableEq ι] {body : ω → Prog μ ρ} {m : μ}
    {is : List (Label ι ω)} {s : State (spinlock cpuNum) ι μ ω ρ}
    {os : List (Option (ι × ω × ρ))}
    (hrun : Machine.run (step body) (State.start m) is = some (s, os)) :
    (∀ i j, (s.threads i).Inside → (s.threads j).Inside → i = j) ∧
      (s.word = SL_LOCKED ↔ ∃ i, (s.threads i).Inside) ∧
      (s.word = SL_UNLOCK ↔ ∀ i, ¬ (s.threads i).Inside) ∧
      ∀ i op pc, s.threads i = .waiting op pc → s.word = SL_UNLOCK → ∃ n ≤ cpuNum + 3, ∃ t os',
        Machine.run (step body) s (List.replicate n (.tick i)) = some (t, os') ∧
          (t.threads i).Inside := by
  obtain ⟨holder, h⟩ := run_exclusion hrun
  refine ⟨?_, ?_, ?_, ?_⟩
  · intro i j hi hj
    rw [h.inside_iff] at hi hj
    exact Option.some.inj (hi.symm.trans hj)
  · refine ⟨fun hw => ?_, fun ⟨i, hi⟩ => ?_⟩
    · cases holder with
      | none => exact absurd (hw.symm.trans h.word) (spinlock cpuNum).held_ne
      | some i => exact ⟨i, (h.inside_iff i).mpr rfl⟩
    · obtain rfl := (h.inside_iff i).mp hi
      exact h.word
  · refine ⟨fun hw i hi => ?_, fun hnone => ?_⟩
    · rw [h.inside_iff, h.free_iff.mp hw] at hi
      cases hi
    · cases holder with
      | none => exact h.word
      | some i => exact absurd ((h.inside_iff i).mpr rfl) (hnone i)
  · intro i op pc hi hfree
    obtain rfl := h.free_iff.mp hfree
    obtain ⟨n, hn, hrun⟩ := enters body h hi
    exact ⟨n, Nat.le_trans hn pc.patience_le, hrun⟩

/-- Two threads call, and one of them has the lock. -/
theorem spinlock_excludes_taken :
    ∃ (s : State (spinlock 2) Bool Unit Unit Unit) (os : _),
      Machine.run (step fun _ => .ret ()) (State.start ())
        [.call false (), .call true (), .tick false, .tick true, .tick true] = some (s, os) ∧
      (s.word = SL_LOCKED ↔ ∃ i, (s.threads i).Inside) := by
  have hrun : ∃ (s : State (spinlock 2) Bool Unit Unit Unit) (os : _),
      Machine.run (step fun _ => .ret ()) (State.start ())
        [.call false (), .call true (), .tick false, .tick true, .tick true] = some (s, os) :=
    ⟨_, _, rfl⟩
  obtain ⟨s, os, hrun⟩ := hrun
  exact ⟨s, os, hrun, (spinlock_excludes hrun).2.1⟩

end ThrSocket
