import Mathlib.Data.List.ReduceOption
import ThrSocket.Lib.Machine

/-!
Programs of single accesses to a memory, and threads that run such programs between taking
and giving back one lock. Threads move one access at a time, in any order. The calls of such
threads are those of a sequential object, in the order in which they give back the lock.
-/

namespace Critical

/-- Accesses to a memory, one after the other. An access may be undefined. -/
inductive Prog (μ ρ : Type) : Type 1
  | ret (r : ρ)
  | access {α : Type} (f : μ → Option (α × μ)) (next : α → Prog μ ρ)

namespace Prog

variable {μ ρ τ α : Type}

def bind : Prog μ ρ → (ρ → Prog μ τ) → Prog μ τ
  | ret r, k => k r
  | access f next, k => access f fun a => (next a).bind k

instance : Monad (Prog μ) where
  pure := ret
  bind := bind

def read (f : μ → Option α) : Prog μ α := access (fun m => (f m).map (·, m)) ret

def write (f : μ → Option μ) : Prog μ Unit := access (fun m => (f m).map ((), ·)) ret

def exec : Prog μ ρ → μ → Option (ρ × μ)
  | ret r, m => some (r, m)
  | access f next, m => (f m).bind fun x => (next x.1).exec x.2

@[simp] theorem exec_pure (r : ρ) (m : μ) : (pure r : Prog μ ρ).exec m = some (r, m) := rfl

@[simp] theorem exec_access (f : μ → Option (α × μ)) (m : μ) : (access f ret).exec m = f m := by
  rw [exec]
  cases f m <;> rfl

@[simp] theorem exec_read (f : μ → Option α) (m : μ) : (read f).exec m = (f m).map (·, m) :=
  exec_access ..

@[simp] theorem exec_write (f : μ → Option μ) (m : μ) : (write f).exec m = (f m).map ((), ·) :=
  exec_access ..

@[simp] theorem exec_bind (p : Prog μ ρ) (k : ρ → Prog μ τ) (m : μ) :
    (p >>= k).exec m = (p.exec m).bind fun x => (k x.1).exec x.2 := by
  change (p.bind k).exec m = _
  induction p generalizing m with
  | ret r => rfl
  | access f next ih =>
      simp only [bind, exec, Option.bind_assoc]
      exact Option.bind_congr fun x _ => ih x.1 x.2

end Prog

/-- How threads take and give back a lock word. `acquire` is one step of a thread that tries,
from its program counter: `none` says that it has the lock now. -/
structure LockProc where
  Word : Type
  Pc : Type
  free : Word
  held : Word
  start : Pc
  acquire : Pc → Word → Option Pc × Word
  release : Word → Word
  /-- Steps that a thread alone needs at most to take a free lock. -/
  patience : Pc → Nat
  held_ne : held ≠ free
  taken : ∀ {pc w w'}, acquire pc w = (none, w') → w = free ∧ w' = held
  waits : ∀ {pc pc' w w'}, acquire pc w = (some pc', w') → w' = w
  freed : ∀ w, release w = free
  patient : ∀ {pc pc' w'}, acquire pc free = (some pc', w') → patience pc' < patience pc
  tries : ∀ {pc w'}, acquire pc free = (none, w') → 0 < patience pc

inductive Thread (L : LockProc) (μ ω ρ : Type) : Type 1
  | idle
  | waiting (op : ω) (pc : L.Pc)
  | inside (op : ω) (rest : Prog μ ρ)

structure State (L : LockProc) (ι μ ω ρ : Type) : Type 1 where
  word : L.Word
  mem : μ
  threads : ι → Thread L μ ω ρ

inductive Label (ι ω : Type)
  | call (i : ι) (op : ω)
  | tick (i : ι)

variable {L : LockProc} {ι μ ω ρ β : Type} [DecidableEq ι]

namespace Thread

def Inside : Thread L μ ω ρ → Prop
  | .inside _ _ => True
  | _ => False

def op : Thread L μ ω ρ → Option ω
  | .idle => none
  | .waiting op _ | .inside op _ => some op

end Thread

namespace State

def start (m : μ) : State L ι μ ω ρ := ⟨L.free, m, fun _ => .idle⟩

def move (s : State L ι μ ω ρ) (i : ι) (t : Thread L μ ω ρ) : State L ι μ ω ρ :=
  { s with threads := Function.update s.threads i t }

end State

/-- A thread that gives back the lock puts out its call with the result. -/
def step (body : ω → Prog μ ρ) (s : State L ι μ ω ρ) :
    Label ι ω → Option (State L ι μ ω ρ × Option (ι × ω × ρ))
  | .call i op =>
      match s.threads i with
      | .idle => some (s.move i (.waiting op L.start), none)
      | _ => some (s, none)
  | .tick i =>
      match s.threads i with
      | .idle => some (s, none)
      | .waiting op pc =>
          match L.acquire pc s.word with
          | (some pc, w) => some ({ s with word := w }.move i (.waiting op pc), none)
          | (none, w) => some ({ s with word := w }.move i (.inside op (body op)), none)
      | .inside op (.ret r) =>
          some ({ s with word := L.release s.word }.move i .idle, some (i, op, r))
      | .inside op (.access f next) =>
          (f s.mem).map fun x => ({ s with mem := x.2 }.move i (.inside op (next x.1)), none)

inductive Moves (body : ω → Prog μ ρ) (s : State L ι μ ω ρ) :
    State L ι μ ω ρ → Option (ι × ω × ρ) → Prop
  | quiet : Moves body s s none
  | call {i : ι} {op : ω} (hi : s.threads i = .idle) :
      Moves body s (s.move i (.waiting op L.start)) none
  | wait {i : ι} {op : ω} {pc pc' : L.Pc} (hi : s.threads i = .waiting op pc) :
      Moves body s (s.move i (.waiting op pc')) none
  | enter {i : ι} {op : ω} {pc : L.Pc} (hi : s.threads i = .waiting op pc)
      (hfree : s.word = L.free) :
      Moves body s ({ s with word := L.held }.move i (.inside op (body op))) none
  | access {i : ι} {op : ω} {α : Type} {f : μ → Option (α × μ)} {next : α → Prog μ ρ} {a : α}
      {m : μ} (hi : s.threads i = .inside op (.access f next)) (hf : f s.mem = some (a, m)) :
      Moves body s ({ s with mem := m }.move i (.inside op (next a))) none
  | leave {i : ι} {op : ω} {r : ρ} (hi : s.threads i = .inside op (.ret r)) :
      Moves body s ({ s with word := L.free }.move i .idle) (some (i, op, r))

section

variable {body : ω → Prog μ ρ} {s s' : State L ι μ ω ρ} {l : Label ι ω}
  {o : Option (ι × ω × ρ)}

theorem moves_of_step (h : step body s l = some (s', o)) : Moves body s s' o := by
  cases l with
  | call i op =>
      rw [step] at h
      split at h
      · cases h
        exact .call ‹_›
      · cases h
        exact .quiet
  | tick i =>
      rw [step] at h
      split at h
      · cases h
        exact .quiet
      · rename_i op pc hi
        split at h
        · rename_i pc' w hacquire
          cases h
          obtain rfl := L.waits hacquire
          exact .wait hi
        · rename_i w hacquire
          cases h
          obtain ⟨hfree, rfl⟩ := L.taken hacquire
          exact .enter hi hfree
      · cases h
        rw [L.freed]
        exact .leave ‹_›
      · obtain ⟨⟨a, m⟩, hf, heq⟩ := Option.map_eq_some_iff.mp h
        cases heq
        exact .access ‹_› hf

theorem op_move_self (s : State L ι μ ω ρ) (i : ι) (t : Thread L μ ω ρ) :
    ((s.move i t).threads i).op = t.op := by
  simp [State.move]

theorem op_move_of_ne (s : State L ι μ ω ρ) {i j : ι} (h : j ≠ i) (t : Thread L μ ω ρ) :
    ((s.move i t).threads j).op = (s.threads j).op := by
  simp [State.move, h]

theorem step_call (body : ω → Prog μ ρ) {i : ι} (op : ω) (hi : (s.threads i).op = none) :
    ∃ s', step body s (.call i op) = some (s', none) ∧ (s'.threads i).op = some op ∧
      ∀ j ≠ i, (s'.threads j).op = (s.threads j).op := by
  cases ht : s.threads i with
  | idle =>
      exact ⟨_, by rw [step, ht], op_move_self .., fun j hj => op_move_of_ne _ hj _⟩
  | waiting op' pc =>
      rw [ht] at hi
      cases hi
  | inside op' rest =>
      rw [ht] at hi
      cases hi

/-- A call ends with the step that puts it out. -/
theorem step_op (hstep : step body s l = some (s', o)) (hl : ∀ i op, l ≠ .call i op) :
    (o = none ∧ ∀ j, (s'.threads j).op = (s.threads j).op) ∨
      ∃ i op r, o = some (i, op, r) ∧ l = .tick i ∧ (s.threads i).op = some op ∧
        (s'.threads i).op = none ∧ ∀ j ≠ i, (s'.threads j).op = (s.threads j).op := by
  cases l with
  | call i op => exact absurd rfl (hl i op)
  | tick i =>
      have hmove : ∀ {u : State L ι μ ω ρ} {t : Thread L μ ω ρ}, u.threads = s.threads →
          t.op = (s.threads i).op → ∀ j, ((u.move i t).threads j).op = (s.threads j).op := by
        intro u t hu ht j
        by_cases hj : j = i
        · subst hj
          exact (op_move_self ..).trans ht
        · rw [op_move_of_ne _ hj, hu]
      rw [step] at hstep
      split at hstep
      · cases hstep
        exact .inl ⟨rfl, fun _ => rfl⟩
      · rename_i op pc hi
        split at hstep <;> cases hstep
        · exact .inl ⟨rfl, hmove rfl (by rw [hi]; rfl)⟩
        · exact .inl ⟨rfl, hmove rfl (by rw [hi]; rfl)⟩
      · rename_i op r hi
        cases hstep
        exact .inr ⟨i, op, r, rfl, rfl, by rw [hi]; rfl, op_move_self ..,
          fun j hj => op_move_of_ne _ hj _⟩
      · rename_i op α f next hi
        obtain ⟨x, -, heq⟩ := Option.map_eq_some_iff.mp hstep
        cases heq
        exact .inl ⟨rfl, hmove rfl (by rw [hi]; rfl)⟩

/-- What holds of the calls that are made holds of the calls that are put out. -/
theorem step_calls {P : ω → Prop} (h : ∀ i op, (s.threads i).op = some op → P op)
    (hl : ∀ i op, l = .call i op → P op) (hstep : step body s l = some (s', o)) :
    (∀ i op, (s'.threads i).op = some op → P op) ∧ ∀ c, o = some c → P c.2.1 := by
  cases l with
  | call i op =>
      cases ht : s.threads i with
      | idle =>
          obtain ⟨s₁, hcall, hself, hother⟩ := step_call body op (congrArg Thread.op ht)
          rw [hcall] at hstep
          cases hstep
          refine ⟨fun j op' hj => ?_, by simp⟩
          by_cases hji : j = i
          · subst hji
            rw [hself] at hj
            cases hj
            exact hl j op rfl
          · rw [hother j hji] at hj
            exact h j op' hj
      | waiting op' pc | inside op' rest =>
          rw [step, ht] at hstep
          cases hstep
          exact ⟨h, by simp⟩
  | tick i =>
      obtain ⟨rfl, hsame⟩ | ⟨j, op, r, rfl, -, hop, hself, hother⟩ :=
        step_op hstep fun _ _ => by simp
      · exact ⟨fun j op hj => h j op ((hsame j).symm.trans hj), by simp⟩
      · refine ⟨fun k op' hk => ?_, fun c hc => ?_⟩
        · by_cases hkj : k = j
          · subst hkj
            rw [hself] at hk
            cases hk
          · exact h k op' ((hother k hkj).symm.trans hk)
        · cases hc
          exact h j op hop

/-- The only step that can be undefined is an access inside the lock. -/
theorem step_defined (h : ∀ {i op α} {f : μ → Option (α × μ)} {next},
    s.threads i = .inside op (.access f next) → ∃ x, f s.mem = some x) (l : Label ι ω) :
    ∃ s' o, step body s l = some (s', o) := by
  cases l with
  | call i op =>
      rw [step]
      split <;> exact ⟨_, _, rfl⟩
  | tick i =>
      rw [step]
      split
      · exact ⟨_, _, rfl⟩
      · split <;> exact ⟨_, _, rfl⟩
      · exact ⟨_, _, rfl⟩
      · rename_i hi
        obtain ⟨x, hx⟩ := h hi
        rw [hx]
        exact ⟨_, _, rfl⟩

/-- The thread inside, where there is one, is the only one, and the word says whether. -/
structure Exclusion (s : State L ι μ ω ρ) (holder : Option ι) : Prop where
  inside_iff : ∀ i, (s.threads i).Inside ↔ holder = some i
  word : s.word = if holder = none then L.free else L.held

omit [DecidableEq ι] in
theorem start_exclusion (m : μ) : Exclusion (State.start m : State L ι μ ω ρ) none where
  inside_iff _ := ⟨False.elim, fun h => by cases h⟩
  word := rfl

variable {holder : Option ι}

omit [DecidableEq ι] in
theorem Exclusion.free_iff (h : Exclusion s holder) : s.word = L.free ↔ holder = none := by
  cases holder with
  | none => exact iff_of_true h.word rfl
  | some i => exact iff_of_false (fun hw => L.held_ne (h.word.symm.trans hw)) (by simp)

/-- A thread that stays on its side of the lock changes nothing. -/
theorem Exclusion.move_same (h : Exclusion s holder) {i : ι} {t : Thread L μ ω ρ} {m : μ}
    (ht : t.Inside ↔ (s.threads i).Inside) :
    Exclusion ({ s with mem := m }.move i t) holder where
  inside_iff j := by
    rw [← h.inside_iff]
    by_cases hj : j = i
    · subst hj
      simp [State.move, ht]
    · simp [State.move, hj]
  word := h.word

theorem Exclusion.enter (h : Exclusion s none) {i : ι} {op : ω} {p : Prog μ ρ} :
    Exclusion ({ s with word := L.held }.move i (.inside op p)) (some i) where
  inside_iff j := by
    have hj := h.inside_iff j
    by_cases hij : j = i
    · subst hij
      simp [State.move, Thread.Inside]
    · simp only [State.move, Function.update_of_ne hij, hj, Option.some.injEq]
      exact iff_of_false (by simp) (Ne.symm hij)
  word := rfl

theorem Exclusion.leave {i : ι} (h : Exclusion s (some i)) :
    Exclusion ({ s with word := L.free }.move i .idle) none where
  inside_iff j := by
    have hj := h.inside_iff j
    by_cases hij : j = i
    · subst hij
      simp [State.move, Thread.Inside]
    · simp only [State.move, Function.update_of_ne hij, hj]
      exact iff_of_false (by simpa using Ne.symm hij) (by simp)
  word := rfl

omit [DecidableEq ι] in
theorem Exclusion.holder_eq (h : Exclusion s holder) {i : ι} {op : ω} {p : Prog μ ρ}
    (hi : s.threads i = .inside op p) : holder = some i := by
  rw [← h.inside_iff, hi]
  trivial

theorem step_exclusion (h : Exclusion s holder) (hstep : step body s l = some (s', o)) :
    ∃ holder', Exclusion s' holder' := by
  cases moves_of_step hstep with
  | quiet => exact ⟨_, h⟩
  | call hi => exact ⟨_, h.move_same (by rw [hi]; exact Iff.rfl)⟩
  | wait hi => exact ⟨_, h.move_same (by rw [hi]; exact Iff.rfl)⟩
  | enter hi hfree =>
      obtain rfl := h.free_iff.mp hfree
      exact ⟨_, h.enter⟩
  | access hi hf => exact ⟨_, h.move_same (by rw [hi]; exact Iff.rfl)⟩
  | leave hi =>
      obtain rfl := h.holder_eq hi
      exact ⟨_, h.leave⟩

/-- A thread that tries alone takes a free lock in as many steps as its patience. -/
theorem enters (body : ω → Prog μ ρ) {i : ι} {op : ω} {pc : L.Pc} (h : Exclusion s none)
    (hi : s.threads i = .waiting op pc) :
    ∃ n ≤ L.patience pc, ∃ t os, Machine.run (step body) s (List.replicate n (.tick i)) =
      some (t, os) ∧ (t.threads i).Inside := by
  induction hn : L.patience pc using Nat.strongRecOn generalizing s pc with
  | ind n ih =>
      cases hacquire : L.acquire pc s.word with
      | mk pc' w =>
          have hstep : ∃ t, step body s (.tick i) = some (t, none) ∧ t.word = w ∧
              t.threads i = (match pc' with
                | some pc' => .waiting op pc'
                | none => .inside op (body op)) := by
            rw [step, hi]
            cases pc' <;> simp [hacquire, State.move]
          obtain ⟨t, hstep, hw, ht⟩ := hstep
          have hfree : s.word = L.free := h.word
          rw [hfree] at hacquire
          cases pc' with
          | none =>
              have hpos : 1 ≤ n := hn ▸ L.tries hacquire
              refine ⟨1, hpos, t, [none], Machine.run_cons hstep rfl, ?_⟩
              rw [ht]
              trivial
          | some pc' =>
              obtain ⟨holder, hnext⟩ := step_exclusion h hstep
              obtain rfl := hnext.free_iff.mp (hw.trans (L.waits hacquire))
              have hlt : L.patience pc' < n := hn ▸ L.patient hacquire
              obtain ⟨k, hk, u, os, hrun, hu⟩ := ih _ hlt hnext ht rfl
              exact ⟨k + 1, by omega, u, none :: os, Machine.run_cons hstep hrun, hu⟩

/-- In every state of every run at most one thread is inside. -/
theorem run_exclusion {m : μ} {is : List (Label ι ω)} {os : List (Option (ι × ω × ρ))}
    (hrun : Machine.run (step body) (State.start m : State L ι μ ω ρ) is = some (s, os)) :
    ∃ holder, Exclusion s holder :=
  Machine.invariant_run (fun s => ∃ holder, Exclusion s holder) (G := fun _ _ => True)
    (fun ⟨_, h⟩ _ hstep => step_exclusion h hstep) ⟨none, start_exclusion m⟩
    (Machine.along_of_forall (L := fun _ => True) (fun _ _ _ => trivial) fun _ _ => trivial) hrun

end

section

variable {body : ω → Prog μ ρ} {R : μ → β → Prop} {spec : β → ω → ρ → β → Prop}

/-- Each call, made alone, does what the specification says. -/
def Meets (body : ω → Prog μ ρ) (R : μ → β → Prop) (spec : β → ω → ρ → β → Prop) : Prop :=
  ∀ m b (op : ω), R m b → ∃ r m' b', (body op).exec m = some (r, m') ∧ spec b op r b' ∧ R m' b'

/-- With the lock free the memory represents `b`. A thread inside will end as its call would
have ended, made alone on a memory that represents `b`. -/
def Holds (body : ω → Prog μ ρ) (R : μ → β → Prop) (s : State L ι μ ω ρ) (b : β) :
    Option ι → Prop
  | none => R s.mem b
  | some i => ∃ op rest m, s.threads i = .inside op rest ∧ R m b ∧
      rest.exec s.mem = (body op).exec m

structure Linear (body : ω → Prog μ ρ) (R : μ → β → Prop) (s : State L ι μ ω ρ) (b : β)
    (holder : Option ι) : Prop where
  exclusion : Exclusion s holder
  holds : Holds body R s b holder

def Commits (spec : β → ω → ρ → β → Prop) (b : β) : Option (ι × ω × ρ) → β → Prop
  | none, b' => b' = b
  | some (_, op, r), b' => spec b op r b'

variable {s s' : State L ι μ ω ρ} {b : β} {holder : Option ι} {l : Label ι ω}
  {o : Option (ι × ω × ρ)}

theorem Linear.outside (h : Linear body R s b holder) {i : ι} {t : Thread L μ ω ρ}
    (hi : ¬ (s.threads i).Inside) (ht : ¬ t.Inside) : Linear body R (s.move i t) b holder := by
  refine ⟨h.exclusion.move_same (iff_of_false ht hi), ?_⟩
  cases holder with
  | none => exact h.holds
  | some j =>
      obtain ⟨op, rest, m, hj, hm, hexec⟩ := h.holds
      have hne : j ≠ i := by
        rintro rfl
        rw [hj] at hi
        exact hi trivial
      exact ⟨op, rest, m, (Function.update_of_ne hne ..).trans hj, hm, hexec⟩

theorem linear_step (hmeets : Meets body R spec) (h : Linear body R s b holder)
    (hstep : step body s l = some (s', o)) :
    ∃ b' holder', Commits spec b o b' ∧ Linear body R s' b' holder' := by
  cases moves_of_step hstep with
  | quiet => exact ⟨b, holder, rfl, h⟩
  | call hi => exact ⟨b, holder, rfl, h.outside (by rw [hi]; exact id) id⟩
  | wait hi => exact ⟨b, holder, rfl, h.outside (by rw [hi]; exact id) id⟩
  | enter hi hfree =>
      obtain rfl := h.exclusion.free_iff.mp hfree
      exact ⟨b, _, rfl, h.exclusion.enter, _, _, s.mem, Function.update_self .., h.holds, rfl⟩
  | access hi hf =>
      obtain rfl := h.exclusion.holder_eq hi
      obtain ⟨op, rest, m, hrest, hm, hexec⟩ := h.holds
      cases hi.symm.trans hrest
      rw [Prog.exec, hf] at hexec
      exact ⟨b, _, rfl, h.exclusion.move_same (by rw [hi]; exact Iff.rfl), _, _, m,
        Function.update_self .., hm, hexec⟩
  | leave hi =>
      obtain rfl := h.exclusion.holder_eq hi
      obtain ⟨op, rest, m, hrest, hm, hexec⟩ := h.holds
      cases hi.symm.trans hrest
      obtain ⟨r, m', b', hbody, hspec, hm'⟩ := hmeets _ _ _ hm
      rw [hbody] at hexec
      cases hexec
      exact ⟨b', none, hspec, h.exclusion.leave, hm'⟩

theorem linear_defined (hmeets : Meets body R spec) (h : Linear body R s b holder)
    (l : Label ι ω) : ∃ s' o, step body s l = some (s', o) := by
  refine step_defined ?_ l
  intro i _ α f next hi
  obtain rfl := h.exclusion.holder_eq hi
  obtain ⟨op, rest, m, hrest, hm, hexec⟩ := h.holds
  cases hi.symm.trans hrest
  obtain ⟨r, m', b', hbody, -, -⟩ := hmeets _ _ _ hm
  rw [hbody, Prog.exec] at hexec
  obtain ⟨x, hx, -⟩ := Option.bind_eq_some_iff.mp hexec
  exact ⟨x, hx⟩

def calls (os : List (Option (ι × ω × ρ))) : List ω := os.reduceOption.map fun c => c.2.1

def results (os : List (Option (ι × ω × ρ))) : List ρ := os.reduceOption.map fun c => c.2.2

/-- Whatever the order of the accesses, every access is defined and the calls are those of
the sequential object. -/
theorem run_linear (hmeets : Meets body R spec) (h : Linear body R s b holder)
    (is : List (Label ι ω)) :
    ∃ t os b' holder', Machine.run (step body) s is = some (t, os) ∧
      Machine.SpecRun spec b (calls os) (results os) b' ∧ Linear body R t b' holder' := by
  induction is generalizing s b holder with
  | nil => exact ⟨s, [], b, holder, rfl, .nil b, h⟩
  | cons l is ih =>
      obtain ⟨s', o, hstep⟩ := linear_defined hmeets h l
      obtain ⟨b', holder', hcommit, h'⟩ := linear_step hmeets h hstep
      obtain ⟨t, os, b'', holder'', hrun, hspec, ht⟩ := ih h'
      refine ⟨t, o :: os, b'', holder'', Machine.run_cons hstep hrun, ?_, ht⟩
      cases o with
      | none =>
          obtain rfl : b' = b := hcommit
          exact hspec
      | some c => exact .cons hcommit hspec

theorem run_calls {P : ω → Prop} {is : List (Label ι ω)} (hl : ∀ i op, .call i op ∈ is → P op)
    (h : ∀ i op, (s.threads i).op = some op → P op) {t : State L ι μ ω ρ}
    {os : List (Option (ι × ω × ρ))} (hrun : Machine.run (step body) s is = some (t, os)) :
    ∀ op ∈ calls os, P op := by
  induction is generalizing s os with
  | nil =>
      cases hrun
      simp [calls]
  | cons l is ih =>
      obtain ⟨s', o, os', hstep, htail, rfl⟩ := Machine.run_cons_inv hrun
      obtain ⟨h', ho⟩ := step_calls h (fun i op heq => hl i op (heq ▸ List.mem_cons_self)) hstep
      have hrest := ih (fun i op hmem => hl i op (List.mem_cons_of_mem _ hmem)) h' htail
      cases o with
      | none => exact hrest
      | some c =>
          intro op hop
          exact (List.mem_cons.mp hop).elim (fun heq => heq ▸ ho c rfl) (hrest op)

omit [DecidableEq ι] in
theorem start_linear {m : μ} (hm : R m b) :
    Linear body R (State.start m : State L ι μ ω ρ) b none :=
  ⟨start_exclusion m, hm⟩

/-- The thread inside can go on until it gives back the lock. -/
theorem leads_leave (hmeets : Meets body R spec) {i : ι} (h : Linear body R s b (some i)) :
    Machine.Leads (step body) (· = .tick i)
      (fun t => t.threads i = .idle ∧ (∀ j ≠ i, t.threads j = s.threads j) ∧
        ∃ b', Linear body R t b' none) s := by
  obtain ⟨op, rest, m, hi, hm, hexec⟩ := h.holds
  obtain ⟨r, m', b', hbody, hspec, hm'⟩ := hmeets _ _ op hm
  rw [hbody] at hexec
  clear hm hbody
  induction rest generalizing s with
  | ret r' =>
      cases hexec
      have hstep : step body s (.tick i) =
          some ({ s with word := L.free }.move i .idle, some (i, op, r)) := by
        rw [step, hi]
        simp [L.freed]
      refine Machine.leads_step rfl hstep
        (Machine.leads_here ⟨Function.update_self .., ?_, b', h.exclusion.leave, hm'⟩)
      intro j hj
      exact Function.update_of_ne hj ..
  | access f next ih =>
      rw [Prog.exec] at hexec
      obtain ⟨⟨a, m₁⟩, hf, hexec⟩ := Option.bind_eq_some_iff.mp hexec
      have hstep : step body s (.tick i) =
          some ({ s with mem := m₁ }.move i (.inside op (next a)), none) := by
        rw [step, hi]
        simp [hf]
      obtain ⟨b₁, holder₁, rfl, h₁⟩ := linear_step hmeets h hstep
      obtain rfl := h₁.exclusion.holder_eq (Function.update_self ..)
      refine Machine.leads_step rfl hstep (Machine.leads_trans
        (ih a h₁ (Function.update_self ..) hexec) ?_)
      rintro t ⟨hidle, hother, ht⟩
      refine Machine.leads_here ⟨hidle, fun j hj => (hother j hj).trans ?_, ht⟩
      exact Function.update_of_ne hj ..

/-- No deadlock: a call that has not ended can be ended by steps of its own thread and of
the thread inside. -/
theorem leads_idle (hmeets : Meets body R spec) (h : Linear body R s b holder) (i : ι) :
    Machine.Leads (step body) (fun l => ∃ j, l = .tick j ∧ (j = i ∨ holder = some j))
      (fun t => t.threads i = .idle) s := by
  have hweaken : ∀ {Q : State L ι μ ω ρ → Prop} {j : ι} {u : State L ι μ ω ρ},
      (j = i ∨ holder = some j) → Machine.Leads (step body) (· = .tick j) Q u →
      Machine.Leads (step body) (fun l => ∃ j, l = .tick j ∧ (j = i ∨ holder = some j)) Q u :=
    fun hj hQ => Machine.leads_lift id
      (fun u l u' o hl hstep => ⟨l, o, ⟨_, hl, hj⟩, hstep⟩) (fun _ hu => hu) hQ
  have hfree : ∀ {u : State L ι μ ω ρ} {b : β}, Linear body R u b none →
      Machine.Leads (step body) (fun l => ∃ j, l = .tick j ∧ (j = i ∨ holder = some j))
        (fun t => t.threads i = .idle) u := by
    intro u b hu
    cases hi : u.threads i with
    | idle => exact Machine.leads_here hi
    | waiting op pc =>
        obtain ⟨n, -, v, os, hrun, hinside⟩ := enters body hu.exclusion hi
        obtain ⟨v', os', b', j, hrun', -, hv⟩ := run_linear hmeets hu (List.replicate n (.tick i))
        rw [hrun] at hrun'
        cases hrun'
        obtain rfl := (hv.exclusion.inside_iff i).mp hinside
        have henter : Machine.Leads (step body) (· = .tick i) (· = v) u :=
          ⟨_, v, os, fun _ => List.eq_of_mem_replicate, hrun, rfl⟩
        refine Machine.leads_trans (hweaken (.inl rfl) henter) ?_
        rintro v rfl
        exact Machine.leads_trans (hweaken (.inl rfl) (leads_leave hmeets hv))
          fun t ht => Machine.leads_here ht.1
    | inside op rest =>
        cases hu.exclusion.holder_eq hi
  cases holder with
  | none => exact hfree h
  | some j =>
      refine Machine.leads_trans (hweaken (.inr rfl) (leads_leave hmeets h)) ?_
      rintro t ⟨-, -, b', ht⟩
      exact hfree ht

end

end Critical
