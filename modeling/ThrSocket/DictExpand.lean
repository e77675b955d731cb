import ThrSocket.DictShape

/-!
Where `dict_expand` ends. `_pow_size` doubles an `unsigned int` until it is large
enough; its test for large sizes is on that number and not on the size. Behind
2^31 the next doubling is 0, and so are all later ones.
-/

namespace ThrSocket

def double (s : Nat) : Nat := u32 (s * 2)

def DoublingStops (size : Nat) : Prop := ∃ k, size ≤ double^[k] dictInitSize

theorem iterate_double (k s : Nat) : double^[k] (u32 s) = u32 (s * 2 ^ k) := by
  induction k generalizing s with
  | zero => rw [Function.iterate_zero_apply, Nat.pow_zero, Nat.mul_one]
  | succ k ih =>
      have hdouble : double (u32 s) = u32 (s * 2) := Nat.mod_mul_mod s 2 (2 ^ 32)
      rw [Function.iterate_succ_apply, hdouble, ih, Nat.mul_assoc, ← Nat.pow_succ']

theorem iterate_double_le (k : Nat) : double^[k] dictInitSize ≤ 2 ^ 31 := by
  have h := iterate_double k dictInitSize
  rw [show u32 dictInitSize = dictInitSize from rfl] at h
  rw [h, show dictInitSize = 2 ^ 3 from rfl, ← Nat.pow_add]
  by_cases hk : 3 + k ≤ 31
  · exact Nat.le_trans (Nat.mod_le _ _) (Nat.pow_le_pow_right (by decide) hk)
  · -- from here on 2^32 divides the number
    have hdvd : 2 ^ 32 ∣ 2 ^ (3 + k) := Nat.pow_dvd_pow 2 (by omega)
    rw [u32, Nat.mod_eq_zero_of_dvd hdvd]
    exact Nat.zero_le _

theorem doublingStops_iff {size : Nat} : DoublingStops size ↔ size ≤ 2 ^ 31 := by
  constructor
  · rintro ⟨k, hk⟩
    exact Nat.le_trans hk (iterate_double_le k)
  · intro hsize
    exact ⟨28, Nat.le_trans hsize (by decide)⟩

/-- A bound on the rounds shows in the number of doublings alone. -/
theorem powSizeLoop_isSome {size fuel s : Nat} :
    (powSizeLoop size fuel s).isSome ↔ ∃ k < fuel, size ≤ double^[k] s := by
  induction fuel generalizing s with
  | zero => simp [powSizeLoop]
  | succ fuel ih =>
      rw [powSizeLoop]
      split_ifs with hlt
      · rw [show u32 (s * 2) = double s from rfl, ih]
        constructor
        · rintro ⟨k, hk, hsize⟩
          exact ⟨k + 1, Nat.succ_lt_succ hk, hsize⟩
        · rintro ⟨k, hk, hsize⟩
          cases k with
          | zero => exact absurd hlt (Nat.not_lt.mpr hsize)
          | succ k => exact ⟨k, Nat.lt_of_succ_lt_succ hk, hsize⟩
      · exact iff_of_true rfl ⟨0, Nat.zero_lt_succ _, Nat.not_lt.mp hlt⟩

/-- `_pow_size` returns where the doublings come to an end. -/
theorem powSize_isSome_iff {size : Nat} : (powSize size).isSome ↔ size ≤ 2 ^ 31 := by
  have hguard : powSize size = powSizeLoop size 33 dictInitSize := rfl
  rw [hguard, powSizeLoop_isSome]
  constructor
  · rintro ⟨k, -, hk⟩
    exact doublingStops_iff.mp ⟨k, hk⟩
  · intro hsize
    exact ⟨28, by decide, Nat.le_trans hsize (by decide)⟩

variable {K V : Type}

structure NewTable (size : Nat) (t : DictTable K V) : Prop where
  empty : t.entries = List.replicate t.size []
  used : t.used = 0
  pow : ∃ j, t.size = 2 ^ j
  le : size ≤ t.size
  init : dictInitSize ≤ t.size

/-- What `dict_expand` is to do: nothing, or install a first or a second table. -/
inductive Installs (d : Dict K V) (size : Nat) : Dict K V → Int → Prop
  | refused : Installs d size d (-1)
  | first {t : DictTable K V} (none : d.dt0.entries = []) (new : NewTable size t) :
      Installs d size { d with dt0 := t } 0
  | second {t : DictTable K V} (some : d.dt0.entries ≠ []) (new : NewTable size t) :
      Installs d size { d with dt1 := t, rehashidx := .some 0 } 0

def ExpandEnds (d : Dict K V) (size : Nat) : Prop :=
  ∃ d' rs, dictExpand d size = some (d', rs) ∧ Installs d size d' rs

theorem newTable_fresh {size n : Nat} (h : powSize size = some n) :
    NewTable size (freshTable n : DictTable K V) := by
  obtain ⟨j, h3, -, rfl, hle⟩ := powSize_cases h
  have hinit : 2 ^ 3 ≤ 2 ^ j := Nat.pow_le_pow_right (by decide) h3
  exact ⟨rfl, rfl, ⟨j, rfl⟩, hle, hinit⟩

theorem Expanded.installs {d d' : Dict K V} {size : Nat} {rs : Int}
    (h : Expanded d size d' rs) : Installs d size d' rs := by
  cases h with
  | refused _ => exact .refused
  | first _ empty pow => exact .first empty (newTable_fresh pow)
  | second _ nonempty _ pow => exact .second nonempty (newTable_fresh pow)

/-- It returns at once, or if the loop ends. -/
theorem dictExpand_isSome_iff {d : Dict K V} {size : Nat} :
    (dictExpand d size).isSome ↔
      d.rehashing = true ∨ size < d.dt0.size ∨ size ≤ 2 ^ 31 := by
  rw [dictExpand, ← powSize_isSome_iff, ← or_assoc]
  by_cases hno : d.rehashing || d.dt0.size > size
  · rw [if_pos hno]
    exact iff_of_true rfl (.inl (by simpa using hno))
  · rw [if_neg hno]
    have hbusy : ¬ (d.rehashing = true ∨ size < d.dt0.size) := by simpa using hno
    rw [or_iff_right hbusy]
    cases hpow : powSize size with
    | none => rfl
    | some n =>
        simp only [Option.bind_eq_bind, Option.bind_some]
        split_ifs <;> exact iff_of_true rfl rfl

/-- For every dict, and every size. -/
theorem dictExpand_ends_iff (d : Dict K V) (size : Nat) :
    (ExpandEnds d size ↔ d.rehashing = true ∨ size < d.dt0.size ∨ size ≤ 2 ^ 31) ∧
      (DoublingStops size ↔ size ≤ 2 ^ 31) := by
  refine ⟨?_, doublingStops_iff⟩
  rw [← dictExpand_isSome_iff]
  constructor
  · rintro ⟨d', rs, h, -⟩
    rw [h]
    rfl
  · intro h
    obtain ⟨⟨d', rs⟩, hexp⟩ := Option.isSome_iff_exists.mp h
    exact ⟨d', rs, hexp, (dictExpand_cases hexp).installs⟩

/-- A fresh dict, and a size that an `unsigned int` holds. -/
theorem dictExpand_endless :
    2 ^ 31 + 1 < 2 ^ 32 ∧ ¬ DoublingStops (2 ^ 31 + 1) ∧
      ¬ ExpandEnds (dictCreate : Dict Nat Nat) (2 ^ 31 + 1) := by
  have hlarge : ¬ 2 ^ 31 + 1 ≤ 2 ^ 31 := by decide
  refine ⟨by decide, fun h => hlarge (doublingStops_iff.mp h), ?_⟩
  rintro ⟨d', rs, hexp, -⟩
  have hends := dictExpand_isSome_iff.mp (Option.isSome_iff_exists.mpr ⟨_, hexp⟩)
  rcases hends with hbusy | hlt | hle
  · cases hbusy
  · cases hlt
  · exact hlarge hle

end ThrSocket
