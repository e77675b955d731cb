import Mathlib.Algebra.Order.Group.Unbundled.Int
import ThrSocket.Cstr

/-!
What the two functions that cut a string give back. `cstr_range` leaves out the last
byte of the content where its end lies behind it; `cstr_split` at one byte loses
nothing.
-/

namespace ThrSocket

/-- The position that an end of a range stands for: a negative one counts from the end of the
content, and not below its start. -/
def rangePos (used : Nat) (b : Int) : Nat := (if 0 ≤ b then b else max 0 (b + used)).toNat

def slice (s : Bytes) (b e : Nat) : Bytes := (s.drop b).take (min e s.length - b)

def TakesSlice (s : Bytes) (b e : Int) : Prop :=
  cstrRange s b e = slice s (rangePos s.length b) (rangePos s.length e) ∧
  ∀ e', rangePos s.length e' ≤ rangePos s.length e →
    (cstrRange s b e').length ≤ (cstrRange s b e).length

/-- The new length of `cstr_range`, in positions of the content. -/
theorem cstrRange_eq (s : Bytes) (b e : Int) :
    cstrRange s b e = (s.drop (rangePos s.length b)).take
      (if s.length < rangePos s.length e then s.length - 1 - rangePos s.length b
        else rangePos s.length e - rangePos s.length b) := by
  have hb : (rangePos s.length b : Int) =
      if b < 0 then (if b + s.length < 0 then 0 else b + s.length) else b := by
    rw [rangePos]
    split_ifs <;> omega
  have he : (rangePos s.length e : Int) =
      if e < 0 then (if e + s.length < 0 then 0 else e + s.length) else e := by
    rw [rangePos]
    split_ifs <;> omega
  simp only [cstrRange, ← hb, ← he, Int.toNat_natCast]
  congr 1
  split_ifs <;> omega

theorem length_cstrRange (s : Bytes) (b e : Int) :
    (cstrRange s b e).length =
      if s.length < rangePos s.length e then s.length - 1 - rangePos s.length b
      else rangePos s.length e - rangePos s.length b := by
  rw [cstrRange_eq, List.length_take, List.length_drop]
  split_ifs <;> omega

theorem length_slice (s : Bytes) (b e : Nat) : (slice s b e).length = min e s.length - b := by
  rw [slice, List.length_take, List.length_drop]
  omega

theorem rangePos_of_lt {used : Nat} {e : Int} : used < rangePos used e ↔ (used : Int) < e := by
  rw [rangePos]
  split_ifs <;> omega

/-- A range is a slice unless it starts inside the content and ends behind it. -/
theorem cstrRange_slice_iff (s : Bytes) (b e : Int) :
    TakesSlice s b e ↔ e ≤ s.length ∨ s.length ≤ rangePos s.length b := by
  constructor
  · rintro ⟨hexact, -⟩
    by_contra hcond
    obtain ⟨he, hb⟩ := not_or.mp hcond
    have hend := rangePos_of_lt.mpr (Int.not_le.mp he)
    -- the slice reaches the last byte, the range stops before it
    have hlen := congrArg List.length hexact
    rw [length_cstrRange, if_pos hend, length_slice] at hlen
    omega
  · intro hcond
    have hlens : s.length < rangePos s.length e → s.length ≤ rangePos s.length b := by
      intro hend
      rcases hcond with he | hb
      · exact absurd (rangePos_of_lt.mp hend) (Int.not_lt.mpr he)
      · exact hb
    refine ⟨?_, fun e' he' => ?_⟩
    · rw [cstrRange_eq, slice]
      congr 1
      split_ifs with hend
      · have := hlens hend
        omega
      · omega
    · rw [length_cstrRange, length_cstrRange]
      split_ifs with h₁ h₂ h₂
      · exact Nat.le_refl _
      · omega
      · have := hlens h₂
        omega
      · omega

/-- An end one behind the content loses the last byte, which the end of the content keeps. -/
theorem cstrRange_behind : ¬ TakesSlice (ascii "ab") 0 3 := by
  rintro ⟨hexact, -⟩
  revert hexact
  decide

theorem length_splitOn (s : Bytes) (c : UInt8) : (s.splitOn c).length = s.count c + 1 := by
  induction s with
  | nil => rfl
  | cons x s ih =>
      rw [List.splitOn_cons_eq_if_modifyHead, List.count_cons]
      split_ifs
      · rw [List.length_cons, ih]
      · rw [List.length_modifyHead, ih, Nat.add_zero]

theorem notMem_of_mem_splitOn {s : Bytes} {c : UInt8} {p : Bytes} (h : p ∈ s.splitOn c) :
    c ∉ p := by
  induction s generalizing p with
  | nil =>
      rw [List.splitOn_nil, List.mem_singleton] at h
      rw [h]
      exact List.not_mem_nil
  | cons x s ih =>
      rw [List.splitOn_cons_eq_if_modifyHead] at h
      split_ifs at h with hx
      · rcases List.mem_cons.mp h with rfl | h
        · exact List.not_mem_nil
        · exact ih h
      · cases hsplit : s.splitOn c with
        | nil => exact absurd hsplit (List.splitOn_ne_nil c s)
        | cons q qs =>
            rw [hsplit, List.modifyHead_cons] at h
            rcases List.mem_cons.mp h with rfl | h
            · have hq : c ∉ q := ih (by simp [hsplit])
              simp only [List.mem_cons, not_or]
              exact ⟨fun heq => hx (by simp [heq]), hq⟩
            · exact ih (by simp [hsplit, h])

/-- Splitting at one byte: a piece for each separator and one more, none with a separator in
it, and together they are the string. -/
theorem cstrSplit_join (s : Bytes) (c : UInt8) :
    (cstrSplit s [c]).length = s.count c + 1 ∧ (∀ p ∈ cstrSplit s [c], c ∉ p) ∧
    [c].intercalate (cstrSplit s [c]) = s := by
  rw [cstrSplit_singleton]
  exact ⟨length_splitOn s c, fun p hp => notMem_of_mem_splitOn hp, List.intercalate_splitOn c⟩

end ThrSocket
