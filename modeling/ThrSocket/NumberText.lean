import Mathlib.Data.BitVec
import ThrSocket.Network

/-!
Numbers as text. `str2ll` tests the addition of a digit but not the multiplication
before it, so a number that wraps around at a multiplication may come back into
range; `lltostr` writes canonical numerals, on which nothing wraps around.
-/

namespace ThrSocket
open CString Decimal

/-- The largest magnitude that the test at the end of `str2ll` lets through. -/
def str2llBound (p : Bytes) : Nat := if p.head? = some 45 then 2 ^ 63 else llongMax

/-- What `str2ll` says of `p`, in front of any bytes, is what `p` stands for. -/
def ParsesExactly (p t : Bytes) : Prop :=
  (∀ n, denoted p = some n → str2ll (p ++ t) p.length =
    if -2 ^ 63 ≤ n ∧ n ≤ (llongMax : Int) then some n else none) ∧
  (¬ AllDigits (unsigned p) → str2ll (p ++ t) p.length = none)

/-- At some digit the sum runs over ULLONG_MAX, whatever the product has lost before. -/
def SumRunsOver (v : Nat) (ds : Bytes) : Prop :=
  ∃ xs c ys, ds = xs ++ c :: ys ∧ ullongMax < valueFrom v xs * 10 % 2 ^ 64 + digitVal c

def WrapNoticed (p : Bytes) : Prop :=
  (denoted p).isSome → str2llBound p < value (unsigned p) →
    str2llBound p < value (unsigned p) % 2 ^ 64 ∨ SumRunsOver 0 (unsigned p)

theorem sumRunsOver_nil (v : Nat) : ¬ SumRunsOver v [] := by
  rintro ⟨xs, c, ys, h, -⟩
  simp at h

theorem sumRunsOver_mod (v : Nat) (ds : Bytes) :
    SumRunsOver (v % 2 ^ 64) ds ↔ SumRunsOver v ds := by
  have hmod : ∀ xs, valueFrom (v % 2 ^ 64) xs * 10 % 2 ^ 64 = valueFrom v xs * 10 % 2 ^ 64 := by
    intro xs
    rw [Nat.mul_mod, ← valueFrom_mod, ← Nat.mul_mod]
  simp only [SumRunsOver, hmod]

theorem sumRunsOver_cons (v : Nat) (c : UInt8) (ds : Bytes) :
    SumRunsOver v (c :: ds) ↔
      ullongMax < v * 10 % 2 ^ 64 + digitVal c ∨ SumRunsOver (v * 10 + digitVal c) ds := by
  constructor
  · rintro ⟨xs, c', ys, heq, hover⟩
    cases xs with
    | nil =>
        cases heq
        exact .inl hover
    | cons x xs =>
        cases heq
        rw [valueFrom_cons] at hover
        exact .inr ⟨xs, c', ys, rfl, hover⟩
  · rintro (hover | ⟨xs, c', ys, rfl, hover⟩)
    · exact ⟨[], c, ds, rfl, hover⟩
    · exact ⟨c :: xs, c', ys, rfl, by rwa [valueFrom_cons]⟩

/-- On digits the loop stops early where a sum runs over, and only there. -/
theorem str2llLoop_eq_none {v : Nat} {ds : Bytes} (hds : AllDigits ds) :
    str2llLoop v ds = none ↔ SumRunsOver v ds := by
  induction ds generalizing v with
  | nil => exact iff_of_false (fun h => by cases h) (sumRunsOver_nil v)
  | cons c ds ih =>
      obtain ⟨hc, hds⟩ := allDigits_cons.mp hds
      have hd := digitVal_lt hc
      have hguard : v * 10 % 2 ^ 64 > ullongMax - digitVal c ↔
          ullongMax < v * 10 % 2 ^ 64 + digitVal c := by
        rw [ullongMax]
        omega
      have hnext : SumRunsOver (v * 10 % 2 ^ 64 + digitVal c) ds ↔
          SumRunsOver (v * 10 + digitVal c) ds := by
        rw [← sumRunsOver_mod, Nat.mod_add_mod, sumRunsOver_mod]
      simp only [str2llLoop, hc, Bool.true_eq_false, if_false, hguard]
      rw [sumRunsOver_cons, ← hnext]
      by_cases hover : ullongMax < v * 10 % 2 ^ 64 + digitVal c
      · rw [if_pos hover]
        exact iff_of_true rfl (.inl hover)
      · rw [if_neg hover, ih hds, or_iff_right hover]

def signedAs (p : Bytes) (v : Nat) : Int := if p.head? = some 45 then -(v : Int) else v

/-- `str2ll` on its two kinds of strings: the loop over the digits, then the test. -/
theorem str2ll_eq {p : Bytes} (hp : p ≠ []) (t : Bytes) :
    str2ll (p ++ t) p.length = (str2llLoop 0 (unsigned p)).bind fun v =>
      if str2llBound p < v then none else some (signedAs p v) := by
  obtain ⟨c, p, rfl⟩ := List.exists_cons_of_ne_nil hp
  by_cases hc : c = 45
  · subst hc
    have hdigits : unsigned (45 :: p) = p := rfl
    simp only [str2ll, List.cons_append, List.head?_cons, if_true, List.length_cons,
      Nat.succ_ne_zero, if_false, List.drop_succ_cons, List.drop_zero, Nat.add_sub_cancel,
      List.take_left, hdigits, str2llBound, signedAs]
    cases str2llLoop 0 p with
    | none => rfl
    | some v => rfl
  · have hhead : (c :: p).head? ≠ some 45 := by simpa using hc
    have hdigits : unsigned (c :: p) = c :: p := if_neg hhead
    simp only [str2ll, List.cons_append, List.head?_cons, Option.some.injEq, hc, if_false,
      hdigits, str2llBound, signedAs]
    rw [← List.cons_append, List.take_left]
    cases str2llLoop 0 (c :: p) with
    | none => rfl
    | some v => rfl

theorem denoted_eq_some {p : Bytes} {n : Int} :
    denoted p = some n ↔ unsigned p ≠ [] ∧ AllDigits (unsigned p) ∧
      n = signedAs p (value (unsigned p)) := by
  rw [denoted, Option.ite_none_right_eq_some, Option.some.injEq, and_assoc, signedAs]
  exact and_congr_right fun _ => and_congr_right fun _ => eq_comm

theorem ne_nil_of_unsigned {p : Bytes} (h : unsigned p ≠ []) : p ≠ [] := by
  rintro rfl
  exact h rfl

/-- The two ends of the range are the bounds of the two signs. -/
theorem signedAs_inRange (p : Bytes) (v : Nat) :
    (-2 ^ 63 ≤ signedAs p v ∧ signedAs p v ≤ (llongMax : Int)) ↔ v ≤ str2llBound p := by
  rw [signedAs, str2llBound, llongMax]
  split_ifs
  · omega
  · omega

theorem str2llBound_lt (p : Bytes) : str2llBound p < 2 ^ 64 := by
  rw [str2llBound, llongMax]
  split_ifs
  · omega
  · omega

/-- A number in range is parsed. -/
theorem str2ll_of_denoted {p : Bytes} {n : Int} (h : denoted p = some n)
    (hn : -2 ^ 63 ≤ n ∧ n ≤ (llongMax : Int)) (t : Bytes) : str2ll (p ++ t) p.length = some n := by
  obtain ⟨hne, hds, rfl⟩ := denoted_eq_some.mp h
  have hle := (signedAs_inRange p _).mp hn
  have hlt := str2llBound_lt p
  have hloop : str2llLoop 0 (unsigned p) = some (value (unsigned p)) :=
    str2llLoop_of_lt hds (Nat.lt_of_le_of_lt hle hlt)
  rw [str2ll_eq (ne_nil_of_unsigned hne), hloop, Option.bind_some, if_neg (Nat.not_lt.mpr hle)]

/-- A byte that is no digit is refused. -/
theorem str2ll_of_not_digits {p : Bytes} (h : ¬ AllDigits (unsigned p)) (t : Bytes) :
    str2ll (p ++ t) p.length = none := by
  have hne : unsigned p ≠ [] := fun hnil => h (hnil ▸ fun c hc => by cases hc)
  rw [str2ll_eq (ne_nil_of_unsigned hne)]
  cases hloop : str2llLoop 0 (unsigned p) with
  | none => rfl
  | some v => exact absurd (str2llLoop_eq_some (by omega) hloop).1 h

/-- `str2ll` is exact on `p`, whatever is behind, if and only if no number out of range wraps
around into it unnoticed. -/
theorem str2ll_exact_iff (p t : Bytes) : ParsesExactly p t ↔ WrapNoticed p := by
  constructor
  · rintro ⟨hexact, -⟩ hsome hlarge
    obtain ⟨n, hn⟩ := Option.isSome_iff_exists.mp hsome
    obtain ⟨hne, hds, rfl⟩ := denoted_eq_some.mp hn
    have hout := hexact _ hn
    rw [if_neg (mt (signedAs_inRange p _).mp (Nat.not_le.mpr hlarge)),
      str2ll_eq (ne_nil_of_unsigned hne)] at hout
    cases hloop : str2llLoop 0 (unsigned p) with
    | none => exact .inr ((str2llLoop_eq_none hds).mp hloop)
    | some v =>
        obtain ⟨-, rfl⟩ := str2llLoop_eq_some (by omega) hloop
        rw [hloop, Option.bind_some] at hout
        refine .inl (Nat.not_le.mp fun hle => ?_)
        have hsmall : ¬ str2llBound p < valueFrom 0 (unsigned p) % 2 ^ 64 := Nat.not_lt.mpr hle
        rw [if_neg hsmall] at hout
        cases hout
  · intro hwrap
    refine ⟨fun n hn => ?_, fun hds => str2ll_of_not_digits hds t⟩
    split_ifs with hrange
    · exact str2ll_of_denoted hn hrange t
    · have hsome := Option.isSome_iff_exists.mpr ⟨n, hn⟩
      obtain ⟨hne, hds, rfl⟩ := denoted_eq_some.mp hn
      have hlarge := Nat.not_le.mp (mt (signedAs_inRange p _).mpr hrange)
      rw [str2ll_eq (ne_nil_of_unsigned hne)]
      rcases hwrap hsome hlarge with hlarge' | hover
      · cases hloop : str2llLoop 0 (unsigned p) with
        | none => rfl
        | some v =>
            obtain ⟨-, rfl⟩ := str2llLoop_eq_some (by omega) hloop
            exact if_pos hlarge'
      · rw [(str2llLoop_eq_none hds).mpr hover]
        rfl

/-- 2^64 + 4: the last multiplication leaves 4, to which nothing is added. -/
theorem str2ll_wraps : ¬ ParsesExactly (ascii "18446744073709551620") [] := by
  rintro ⟨hexact, -⟩
  have hdenoted : denoted (ascii "18446744073709551620") = some 18446744073709551620 := by
    decide +kernel
  have := hexact 18446744073709551620 hdenoted
  revert this
  decide

/-- The loop writes the digits of a number that the buffer has room for. -/
theorem lltostrLoop_eq {fuel ll : Nat} (h : ll < 10 ^ fuel) (hfuel : 0 < fuel) (ptr : Bytes) :
    lltostrLoop fuel ll ptr = numeral ll ++ ptr := by
  induction fuel generalizing ll ptr with
  | zero => exact absurd hfuel (Nat.lt_irrefl 0)
  | succ fuel ih =>
      rw [lltostrLoop, numeral_eq]
      by_cases hsmall : ll < 10
      · rw [if_pos (Nat.div_eq_of_lt hsmall), if_pos hsmall, Nat.mod_eq_of_lt hsmall]
        rfl
      · have hnext : ll / 10 < 10 ^ fuel := Nat.div_lt_of_lt_mul (by rwa [Nat.mul_comm, ← pow_succ])
        have hfuel' : 0 < fuel := by
          refine Nat.pos_of_ne_zero ?_
          rintro rfl
          omega
        rw [if_neg (by omega), if_neg hsmall, ih hnext hfuel', List.append_assoc]
        rfl

/-- Two's complement: the 64 bits of a number below zero stand for it plus 2^64. -/
theorem int64_toInt_eq (l : Int64) :
    l.toInt = if l < 0 then (l.toUInt64.toNat : Int) - 2 ^ 64 else (l.toUInt64.toNat : Int) := by
  have hneg : l < 0 ↔ l.toInt < 0 := by
    rw [Int64.lt_iff_toInt_lt, Int64.toInt_zero]
  have hlt := l.toUInt64.toNat_lt
  have hcond := BitVec.toInt_eq_toNat_cond l.toBitVec
  rw [Int64.toInt_toBitVec, Int64.toNat_toBitVec] at hcond
  simp only [hneg]
  split_ifs at hcond ⊢
  · omega
  · omega
  · omega
  · omega

/-- `ll = l < 0 ? -l : l`, where -l wraps around at LLONG_MIN. -/
def lltostrAbs (l : Int64) : UInt64 := (if l < 0 then -l else l).toUInt64

/-- The wrap-around of -LLONG_MIN is the magnitude of LLONG_MIN. -/
theorem lltostrAbs_toNat (l : Int64) : (lltostrAbs l).toNat = l.toInt.natAbs := by
  have hcast := int64_toInt_eq l
  have hle := l.le_toInt
  have hlt := l.toUInt64.toNat_lt
  rw [lltostrAbs]
  split_ifs with h
  · rw [if_pos h] at hcast
    have hsub : (-l).toUInt64.toNat = (2 ^ 64 - l.toUInt64.toNat) % 2 ^ 64 := by
      rw [Int64.toUInt64_neg]
      rfl
    omega
  · rw [if_neg h] at hcast
    omega

def lltostr64 (l : Int64) (size : Nat) : Int × Bytes :=
  let ptr := lltostrLoop 64 (lltostrAbs l).toNat []
  let offset := ptr.length
  if l < 0 then
    if 0 < size ∧ offset > size - 1 then (-1, []) else (offset + 1, 45 :: ptr)
  else if offset > size then (-1, [])
  else (offset, ptr)

theorem lltostr64_eq (l : Int64) (size : Nat) : lltostr64 l size = lltostr l.toInt size := by
  have hneg : l < 0 ↔ l.toInt < 0 := by
    rw [Int64.lt_iff_toInt_lt, Int64.toInt_zero]
  simp only [lltostr64, lltostr, lltostrAbs_toNat, hneg]

/-- The local buffer has room for the digits of every 64-bit number. -/
theorem lltostr_eq {l : Int} (hl : l.natAbs < 2 ^ 64) {size : Nat} (hsize : 1 ≤ size) :
    lltostr l size =
      if (intNumeral l).length ≤ size then (((intNumeral l).length : Int), intNumeral l)
      else (-1, []) := by
  have hloop : lltostrLoop 64 l.natAbs [] = numeral l.natAbs := by
    rw [lltostrLoop_eq (by omega) (by decide), List.append_nil]
  simp only [lltostr, hloop, intNumeral]
  by_cases hneg : l < 0
  · have hroom : (0 < size ∧ (numeral l.natAbs).length > size - 1) ↔
        ¬ (45 :: numeral l.natAbs).length ≤ size := by
      rw [List.length_cons]
      omega
    simp only [if_pos hneg, hroom, ite_not, List.length_cons, Nat.cast_add, Nat.cast_one]
  · have hroom : (numeral l.natAbs).length > size ↔ ¬ (numeral l.natAbs).length ≤ size := by
      omega
    simp only [if_neg hneg, hroom, ite_not]

theorem int64_inRange (l : Int64) : -2 ^ 63 ≤ l.toInt ∧ l.toInt ≤ (llongMax : Int) := by
  have hle := l.le_toInt
  have hlt := l.toInt_lt
  rw [llongMax]
  omega

/-- A numeral is no longer than that of LLONG_MIN, which has 20 bytes. -/
theorem intNumeral_length_le (l : Int64) : (intNumeral l.toInt).length ≤ 20 := by
  obtain ⟨hle, hlt⟩ := int64_inRange l
  rw [llongMax] at hlt
  have hlen := (numeral_length_le_iff (n := l.toInt.natAbs) (k := 19) (by decide)).mpr (by omega)
  rw [intNumeral]
  split_ifs
  · rw [List.length_cons]
    omega
  · omega

theorem nul_notMem_intNumeral (l : Int) : 0 ∉ intNumeral l := by
  have hdigits := (allDigits_numeral l.natAbs).not_mem (c := 0) (by decide)
  rw [intNumeral]
  split_ifs
  · rw [List.mem_cons, not_or]
    exact ⟨by decide, hdigits⟩
  · exact hdigits

/-- The number between the prefix and the line end of a reply. -/
theorem replyPrefixLen_eq (c : UInt8) (l : Int64) :
    replyPrefixLen c l.toInt = c :: (intNumeral l.toInt ++ crlf) := by
  obtain ⟨hle, hlt⟩ := int64_inRange l
  have hlen := intNumeral_length_le l
  rw [llongMax] at hlt
  have htext : (lltostr l.toInt 63).2 = intNumeral l.toInt := by
    rw [lltostr_eq (by omega) (by decide), if_pos (by omega)]
  rw [replyPrefixLen, htext, view_eq_self (nul_notMem_intNumeral _)]

end ThrSocket
