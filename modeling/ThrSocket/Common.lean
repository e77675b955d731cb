import Mathlib.Tactic.Ring
import ThrSocket.Lib.Decimal

/-!
The number conversions of common.c. Machine integers are numbers with the
wrap-around written out: `str2ll` accumulates in an unsigned 64-bit variable
whose multiplication is not guarded.
-/

namespace ThrSocket
open Decimal

def ullongMax : Nat := 2 ^ 64 - 1

def llongMax : Nat := 2 ^ 63 - 1

/-- The digit loop: `v *= 10` wraps around, only `v += i` is tested. -/
def str2llLoop (v : Nat) : Bytes → Option Nat
  | [] => some v
  | c :: ptr =>
      if isDigit c = false then none
      else
        let v10 := v * 10 % 2 ^ 64
        let i := digitVal c
        if v10 > ullongMax - i then none
        else str2llLoop (v10 + i) ptr

/-- `none` is the return value -1. With a sign and `len = 0` the C loop starts
behind its end and stops, with -1, at the first byte that is no digit. -/
def str2ll (p : Bytes) (len : Nat) : Option Int :=
  if p.head? = some 45 then
    if len = 0 then none
    else
      match str2llLoop 0 ((p.drop 1).take (len - 1)) with
      | none => none
      | some v => if v > 2 ^ 63 then none else some (-(v : Int))
  else
    match str2llLoop 0 (p.take len) with
    | none => none
    | some v => if v > llongMax then none else some (v : Int)

/-- Digits are produced from the last one, in front of those already there. -/
def lltostrLoop : Nat → Nat → Bytes → Bytes
  | 0, _, ptr => ptr
  | fuel + 1, ll, ptr =>
      if ll / 10 = 0 then digitByte (ll % 10) :: ptr
      else lltostrLoop fuel (ll / 10) (digitByte (ll % 10) :: ptr)

/-- What is returned, and the bytes written at `p`. The local buffer has 64 bytes. -/
def lltostr (l : Int) (size : Nat) : Int × Bytes :=
  let ptr := lltostrLoop 64 l.natAbs []
  let offset := ptr.length
  if l < 0 then
    -- for a `size` of 0 the bound is SIZE_MAX
    if 0 < size ∧ offset > size - 1 then (-1, []) else (offset + 1, 45 :: ptr)
  else if offset > size then (-1, [])
  else (offset, ptr)

/-- Wherever the loop returns, it returns the value of the digits modulo 2^64. -/
theorem str2llLoop_eq_some {v u : Nat} {ds : Bytes} (hv : v < 2 ^ 64)
    (h : str2llLoop v ds = some u) :
    AllDigits ds ∧ u = valueFrom v ds % 2 ^ 64 := by
  induction ds generalizing v with
  | nil =>
      cases h
      exact ⟨by simp [AllDigits], (Nat.mod_eq_of_lt hv).symm⟩
  | cons c ptr ih =>
      simp only [str2llLoop] at h
      split at h
      · cases h
      · rename_i hc
        have hc : isDigit c = true := by simpa using hc
        have hd := digitVal_lt hc
        split at h
        · cases h
        · rename_i hle
          have hlt : v * 10 % 2 ^ 64 + digitVal c < 2 ^ 64 := by
            rw [ullongMax] at hle
            omega
          obtain ⟨hds, hu⟩ := ih hlt h
          refine ⟨allDigits_cons.mpr ⟨hc, hds⟩, ?_⟩
          rw [hu, valueFrom_cons, valueFrom_mod, valueFrom_mod (v * 10 + digitVal c)]
          congr 2
          omega

/-- Without wrap-around the loop returns the value of the digits. -/
theorem str2llLoop_of_lt {v : Nat} {ds : Bytes} (hds : AllDigits ds)
    (h : valueFrom v ds < 2 ^ 64) : str2llLoop v ds = some (valueFrom v ds) := by
  induction ds generalizing v with
  | nil => rfl
  | cons c ptr ih =>
      obtain ⟨hc, hptr⟩ := allDigits_cons.mp hds
      rw [valueFrom_cons] at h
      have hle := le_valueFrom (v * 10 + digitVal c) ptr
      have hmod : v * 10 % 2 ^ 64 = v * 10 := Nat.mod_eq_of_lt (by omega)
      have hguard : ¬ v * 10 > ullongMax - digitVal c := by
        rw [ullongMax]
        omega
      simp only [str2llLoop, hc, Bool.true_eq_false, if_false, hmod, hguard]
      exact ih hptr h

theorem str2llLoop_append (v : Nat) (xs ys : Bytes) :
    str2llLoop v (xs ++ ys) = (str2llLoop v xs).bind (str2llLoop · ys) := by
  induction xs generalizing v with
  | nil => rfl
  | cons c xs ih =>
      simp only [List.cons_append, str2llLoop]
      split
      · rfl
      · split
        · rfl
        · exact ih _

/-- Appended zeros multiply; they are never what the loop stops at. -/
theorem str2llLoop_zeros {v : Nat} (hv : v < 2 ^ 64) (k : Nat) :
    str2llLoop v (List.replicate k 48) = some (v * 10 ^ k % 2 ^ 64) := by
  induction k generalizing v with
  | zero => simpa [str2llLoop] using (Nat.mod_eq_of_lt hv).symm
  | succ k ih =>
      have hguard : ¬ v * 10 % 2 ^ 64 > ullongMax - digitVal 48 := by
        have : digitVal 48 = 0 := by decide
        have := Nat.mod_lt (v * 10) (y := 2 ^ 64) (by decide)
        rw [ullongMax]
        omega
      have hdigit : isDigit 48 = true := by decide
      have hval : digitVal 48 = 0 := by decide
      simp only [List.replicate_succ, str2llLoop, hdigit, Bool.true_eq_false, if_false, hguard]
      rw [hval, Nat.add_zero, ih (Nat.mod_lt _ (by decide)), Nat.mod_mul_mod, Nat.pow_succ]
      congr 2
      ring

/-- A positive number comes from a non-empty digit string. -/
theorem str2llLoop_pos {ds : Bytes} {n : Nat} (h : str2llLoop 0 ds = some n) (hn : 1 ≤ n) :
    AllDigits ds ∧ ds ≠ [] ∧ n = value ds % 2 ^ 64 := by
  obtain ⟨hds, hv⟩ := str2llLoop_eq_some (by omega) h
  refine ⟨hds, ?_, hv⟩
  rintro rfl
  simp at hv
  omega

/-- A positive result is what the digit loop returns. -/
theorem str2ll_pos {p : Bytes} {len : Nat} {l : Int} (h : str2ll p len = some l) (hl : 0 < l) :
    str2llLoop 0 (p.take len) = some l.toNat := by
  rw [str2ll] at h
  split at h
  · exfalso
    split at h
    · cases h
    · split at h
      · cases h
      · split at h
        · cases h
        · cases h
          omega
  · split at h
    · cases h
    · rename_i v hv
      split at h
      · cases h
      · cases h
        rw [hv]
        rfl

theorem str2ll_of_loop {ds : Bytes} {n : Nat} (h : str2llLoop 0 ds = some n) (h1 : 1 ≤ n)
    (h2 : n ≤ llongMax) (t : Bytes) : str2ll (ds ++ t) ds.length = some (n : Int) := by
  obtain ⟨hds, hne, _⟩ := str2llLoop_pos h h1
  have hhead : (ds ++ t).head? ≠ some 45 := by
    intro hc
    obtain ⟨c, cs, rfl⟩ := List.exists_cons_of_ne_nil hne
    have hc45 : c = 45 := by simpa using hc
    have := (allDigits_cons.mp hds).1
    rw [hc45] at this
    exact absurd this (by decide)
  simp only [str2ll, hhead, if_false, List.take_left, h]
  rw [if_neg (by omega)]

/-- The parse of a canonical numeral in front of any bytes gives the number back. -/
theorem str2ll_numeral {n : Nat} (h1 : 1 ≤ n) (hn : n < 2 ^ 63) (t : Bytes) :
    str2ll (numeral n ++ t) (numeral n).length = some (n : Int) := by
  have hval : valueFrom 0 (numeral n) = n := value_numeral n
  have hloop : str2llLoop 0 (numeral n) = some n := by
    rw [str2llLoop_of_lt (allDigits_numeral n) (by omega), hval]
  exact str2ll_of_loop hloop h1 (by rw [llongMax]; omega) t

end ThrSocket
