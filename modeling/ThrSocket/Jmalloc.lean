import Mathlib.Algebra.Ring.Nat
import Mathlib.Data.UInt
import ThrSocket.Lib.Machine

/-!
The allocator of jmalloc.c, built without USE_JEMALLOC. A block is named by the
pointer that its caller holds; the four bytes in front of it are its header.
Which pointers `malloc` and `realloc` return is up to the label, and neither
fails. Beside the memory stands what has been asked for, block by block.
-/

namespace ThrSocket

/-- A size below 2^32 - 4. -/
structure ReqSize where
  s : UInt64
  small : s.toNat < 2 ^ 32 - 4

structure Jmem where
  headers : List (Nat × UInt32) := []
  /-- `_used_mem` -/
  usedMem : UInt64 := 0
deriving DecidableEq

inductive JmLabel
  | jmalloc (s : ReqSize) (ptr : Nat)
  | jrealloc (ptr : Option Nat) (s : ReqSize) (newPtr : Nat)
  | jfree (ptr : Nat)

def memPrefixSize : UInt64 := 4

namespace Jmem

def updateUsedMem (m : Jmem) (size : UInt64) : Jmem := { m with usedMem := m.usedMem + size }

def writeHeader (m : Jmem) (ptr : Nat) (s : UInt64) : Jmem :=
  { m with headers := (ptr, s.toUInt32) :: m.headers }

def release (m : Jmem) (ptr : Nat) : Jmem :=
  { m with headers := m.headers.eraseP (·.1 = ptr) }

def jmalloc (m : Jmem) (s : UInt64) (ptr : Nat) : Jmem :=
  (m.writeHeader ptr s).updateUsedMem (s + memPrefixSize)

/-- `size` is a `uint32_t`, for a growing and for a shrinking block. -/
def jrealloc (m : Jmem) (ptr : Option Nat) (s : UInt64) (newPtr : Nat) : Option Jmem :=
  match ptr with
  | none =>
      let size : UInt32 := (s + memPrefixSize).toUInt32
      some ((m.writeHeader newPtr s).updateUsedMem size.toUInt64)
  | some p =>
      match m.headers.lookup p with
      | none => none
      | some oldSize =>
          let size : UInt32 := (s - oldSize.toUInt64).toUInt32
          some (((m.release p).writeHeader newPtr s).updateUsedMem size.toUInt64)

def jfree (m : Jmem) (ptr : Nat) : Option Jmem :=
  match m.headers.lookup ptr with
  | none => none
  | some size => some ((m.release ptr).updateUsedMem (-(size.toUInt64 + memPrefixSize)))

def step (m : Jmem) : JmLabel → Option Jmem
  | .jmalloc s ptr => some (m.jmalloc s.s ptr)
  | .jrealloc ptr s newPtr => m.jrealloc ptr s.s newPtr
  | .jfree ptr => m.jfree ptr

end Jmem

abbrev Requests := List (Nat × ReqSize)

def Requests.update (live : Requests) : JmLabel → Requests
  | .jmalloc s ptr => (ptr, s) :: live
  | .jrealloc none s newPtr => (newPtr, s) :: live
  | .jrealloc (some p) s newPtr => (newPtr, s) :: live.eraseP (·.1 = p)
  | .jfree ptr => live.eraseP (·.1 = ptr)

def Requests.account (live : Requests) : Nat := (live.map fun e => e.2.s.toNat + 4).sum

structure Audit where
  mem : Jmem := {}
  live : Requests := []

namespace Audit

def step (a : Audit) (label : JmLabel) : Option (Audit × Unit) :=
  (a.mem.step label).map fun mem => (⟨mem, a.live.update label⟩, ())

/-- `used_mem()` is what the live blocks take, and nothing without any. -/
def Exact (a : Audit) : Prop :=
  a.mem.usedMem = .ofNat a.live.account ∧ (a.live = [] → a.mem.usedMem = 0)

/-- No block is asked to become smaller. -/
def NoShrink (a : Audit) : JmLabel → Prop
  | .jrealloc (some p) s _ => ∀ size, a.live.lookup p = some size → size.s ≤ s.s
  | _ => True

def Sound (a : Audit) : Prop := a.mem.headers = a.live.map fun e => (e.1, e.2.s.toUInt32)

theorem lookup_headers (live : Requests) (p : Nat) :
    (live.map fun e => (e.1, e.2.s.toUInt32)).lookup p = (live.lookup p).map (·.s.toUInt32) := by
  induction live with
  | nil => rfl
  | cons e live ih =>
      rw [List.map_cons, List.lookup_cons, List.lookup_cons, ih]
      cases p == e.1 <;> rfl

theorem eraseP_headers (live : Requests) (p : Nat) :
    (live.map fun e => (e.1, e.2.s.toUInt32)).eraseP (·.1 = p) =
      (live.eraseP (·.1 = p)).map fun e => (e.1, e.2.s.toUInt32) := by
  rw [List.eraseP_map]
  rfl

theorem account_cons (e : Nat × ReqSize) (live : Requests) :
    Requests.account (e :: live) = e.2.s.toNat + 4 + Requests.account live := by
  rw [Requests.account, List.map_cons, List.sum_cons]
  rfl

/-- The account of all blocks, with one of them set apart. -/
theorem account_eraseP {live : Requests} {p : Nat} {size : ReqSize}
    (h : live.lookup p = some size) :
    live.account = size.s.toNat + 4 + Requests.account (live.eraseP (·.1 = p)) := by
  induction live with
  | nil => cases h
  | cons e live ih =>
      rw [List.lookup_cons] at h
      by_cases hp : p = e.1
      · rw [List.eraseP_cons_of_pos (by simp [hp]), account_cons]
        simp only [hp, beq_self_eq_true] at h
        cases h
        rfl
      · rw [List.eraseP_cons_of_neg (by simp [Ne.symm hp]), account_cons, account_cons]
        have hb : (p == e.1) = false := by simpa using hp
        simp only [hb] at h
        rw [ih h]
        omega

theorem lookup_of_sound {a : Audit} (hs : a.Sound) (p : Nat) :
    a.mem.headers.lookup p = (a.live.lookup p).map (·.s.toUInt32) := by
  rw [hs, lookup_headers]

def growth (old new : ReqSize) : UInt64 := (new.s - old.s.toUInt32.toUInt64).toUInt32.toUInt64

theorem jrealloc_eq {a : Audit} {p : Nat} {old s : ReqSize} (newPtr : Nat)
    (hs : a.Sound) (h : a.live.lookup p = some old) :
    a.step (.jrealloc (some p) s newPtr) =
      some (⟨((a.mem.release p).writeHeader newPtr s.s).updateUsedMem (growth old s),
        a.live.update (.jrealloc (some p) s newPtr)⟩, ()) := by
  rw [step, Jmem.step, Jmem.jrealloc, lookup_of_sound hs, h]
  rfl

theorem jfree_eq {a : Audit} {p : Nat} {old : ReqSize} (hs : a.Sound)
    (h : a.live.lookup p = some old) :
    a.step (.jfree p) =
      some (⟨(a.mem.release p).updateUsedMem (-(old.s.toUInt32.toUInt64 + memPrefixSize)),
        a.live.update (.jfree p)⟩, ()) := by
  rw [step, Jmem.step, Jmem.jfree, lookup_of_sound hs, h]
  rfl

theorem undefined_of_dead {a : Audit} {p : Nat} (hs : a.Sound) (h : a.live.lookup p = none) :
    a.step (.jfree p) = none ∧ ∀ s newPtr, a.step (.jrealloc (some p) s newPtr) = none := by
  refine ⟨?_, fun s newPtr => ?_⟩
  · rw [step, Jmem.step, Jmem.jfree, lookup_of_sound hs, h]
    rfl
  · rw [step, Jmem.step, Jmem.jrealloc, lookup_of_sound hs, h]
    rfl

theorem sound_step {a a' : Audit} {label : JmLabel} {o : Unit} (hs : a.Sound)
    (hstep : a.step label = some (a', o)) : a'.Sound := by
  have hrelease (p : Nat) : (a.mem.release p).headers =
      (a.live.eraseP (·.1 = p)).map fun e => (e.1, e.2.s.toUInt32) := by
    rw [Jmem.release, ← eraseP_headers, hs]
  cases label with
  | jmalloc s ptr =>
      cases hstep
      exact congrArg _ hs
  | jrealloc ptr s newPtr =>
      cases ptr with
      | none =>
          cases hstep
          exact congrArg _ hs
      | some p =>
          cases hp : a.live.lookup p with
          | none =>
              rw [(undefined_of_dead hs hp).2] at hstep
              cases hstep
          | some old =>
              rw [jrealloc_eq _ hs hp] at hstep
              cases hstep
              exact congrArg _ (hrelease p)
  | jfree p =>
      cases hp : a.live.lookup p with
      | none =>
          rw [(undefined_of_dead hs hp).1] at hstep
          cases hstep
      | some old =>
          rw [jfree_eq hs hp] at hstep
          cases hstep
          exact hrelease p

theorem exact_iff {a : Audit} : a.Exact ↔ a.mem.usedMem.toNat = a.live.account % 2 ^ 64 := by
  have hiff : a.mem.usedMem = .ofNat a.live.account ↔
      a.mem.usedMem.toNat = a.live.account % 2 ^ 64 := by
    rw [← UInt64.toNat_inj, UInt64.toNat_ofNat']
  rw [← hiff]
  refine ⟨And.left, fun h => ⟨h, fun hlive => ?_⟩⟩
  rw [h, hlive]
  rfl

theorem toNat_header (size : ReqSize) : size.s.toUInt32.toUInt64.toNat = size.s.toNat := by
  have := size.small
  simp only [UInt32.toNat_toUInt64, UInt64.toNat_toUInt32]
  omega

/-- A shrinking block adds 2^32 too much. -/
theorem toNat_growth (old new : ReqSize) :
    (growth old new).toNat = if old.s ≤ new.s then new.s.toNat - old.s.toNat
      else 2 ^ 32 + new.s.toNat - old.s.toNat := by
  have := old.small
  have := new.small
  rw [growth, UInt32.toNat_toUInt64, UInt64.toNat_toUInt32, UInt64.toNat_sub, toNat_header]
  split
  · rename_i h
    rw [UInt64.le_iff_toNat_le] at h
    omega
  · rename_i h
    rw [UInt64.le_iff_toNat_le] at h
    omega

theorem toNat_updateUsedMem (m : Jmem) (size : UInt64) :
    (m.updateUsedMem size).usedMem.toNat = (m.usedMem.toNat + size.toNat) % 2 ^ 64 :=
  UInt64.toNat_add ..

/-- `jrealloc` of a live block keeps the counter exact if and only if it grows. -/
theorem exact_jrealloc {a a' : Audit} {p newPtr : Nat} {old s : ReqSize} {o : Unit} (hs : a.Sound)
    (ha : a.Exact) (hp : a.live.lookup p = some old)
    (hstep : a.step (.jrealloc (some p) s newPtr) = some (a', o)) :
    a'.Exact ↔ old.s ≤ s.s := by
  rw [jrealloc_eq _ hs hp] at hstep
  cases hstep
  have := old.small
  have := s.small
  have hold := account_eraseP hp
  rw [exact_iff] at ha ⊢
  rw [toNat_updateUsedMem, toNat_growth, Requests.update, account_cons]
  simp only [Jmem.writeHeader, Jmem.release]
  rw [ha, hold]
  split
  · rename_i h
    rw [UInt64.le_iff_toNat_le] at h
    simp only [UInt64.le_iff_toNat_le, h, iff_true]
    omega
  · rename_i h
    simp only [h, iff_false]
    rw [UInt64.le_iff_toNat_le] at h
    omega

theorem exact_step {a a' : Audit} {label : JmLabel} {o : Unit} (hs : a.Sound) (ha : a.Exact)
    (hgrow : a.NoShrink label) (hstep : a.step label = some (a', o)) : a'.Exact := by
  cases label with
  | jmalloc s ptr =>
      cases hstep
      have := s.small
      rw [exact_iff] at ha ⊢
      simp only [Jmem.jmalloc]
      rw [toNat_updateUsedMem, UInt64.toNat_add, Requests.update, account_cons,
        Jmem.writeHeader, ha, memPrefixSize]
      simp only [UInt64.reduceToNat]
      omega
  | jrealloc ptr s newPtr =>
      cases ptr with
      | none =>
          cases hstep
          have := s.small
          rw [exact_iff] at ha ⊢
          simp only
          rw [toNat_updateUsedMem, UInt32.toNat_toUInt64, UInt64.toNat_toUInt32, UInt64.toNat_add,
            Requests.update, account_cons, Jmem.writeHeader, ha, memPrefixSize]
          simp only [UInt64.reduceToNat]
          omega
      | some p =>
          cases hp : a.live.lookup p with
          | none =>
              rw [(undefined_of_dead hs hp).2] at hstep
              cases hstep
          | some old => exact (exact_jrealloc hs ha hp hstep).mpr (hgrow old hp)
  | jfree p =>
      cases hp : a.live.lookup p with
      | none =>
          rw [(undefined_of_dead hs hp).1] at hstep
          cases hstep
      | some old =>
          rw [jfree_eq hs hp] at hstep
          cases hstep
          have := old.small
          have hold := account_eraseP hp
          rw [exact_iff] at ha ⊢
          simp only
          rw [toNat_updateUsedMem, UInt64.toNat_neg, UInt64.toNat_add, toNat_header,
            Requests.update, Jmem.release, ha, hold, memPrefixSize]
          simp only [UInt64.reduceToNat, UInt64.size]
          omega

/-- For every sequence of operations, the counter is exact at every moment if and
only if no block is ever made smaller. -/
theorem usedMem_exact_iff (labels : List JmLabel) :
    (∀ n a os, Machine.run step {} (labels.take n) = some (a, os) → a.Exact) ↔
      Machine.Along step NoShrink {} labels := by
  have hinit : Sound {} ∧ Exact {} := ⟨rfl, rfl, fun _ => rfl⟩
  constructor
  · intro h
    refine Machine.along_of_prefixes (fun a => a.Sound ∧ a.Exact) (fun a => ¬ a.Exact)
      (fun hs hg hstep => ⟨sound_step hs.1 hstep, exact_step hs.1 hs.2 hg hstep⟩) ?_ hinit
      (fun n a os hrun hnot => hnot (h n a os hrun))
    intro a label hs hnot
    cases label with
    | jrealloc ptr s newPtr =>
        cases ptr with
        | none => exact absurd trivial hnot
        | some p =>
            simp only [NoShrink, Classical.not_forall] at hnot
            obtain ⟨old, hp, hshrink⟩ := hnot
            have hstep := jrealloc_eq newPtr hs.1 hp (s := s)
            exact ⟨_, (), hstep, fun h => hshrink ((exact_jrealloc hs.1 hs.2 hp hstep).mp h)⟩
    | _ => exact absurd trivial hnot
  · intro hgrow n a os hrun
    exact (Machine.invariant_run (fun a => a.Sound ∧ a.Exact)
      (fun hs hg hstep => ⟨sound_step hs.1 hstep, exact_step hs.1 hs.2 hg hstep⟩) hinit
      (Machine.along_take hgrow n) hrun).2

/-- A block of 16 bytes made 8 bytes long, then released. -/
theorem usedMem_not_exact :
    ∃ a os, Machine.run step {} [.jmalloc ⟨16, by decide⟩ 1000,
      .jrealloc (some 1000) ⟨8, by decide⟩ 1000, .jfree 1000] = some (a, os) ∧
      a.live = [] ∧ a.mem.usedMem = 2 ^ 32 :=
  ⟨_, _, rfl, rfl, rfl⟩

end Audit

end ThrSocket
