import Mathlib.Data.List.Basic
import Mathlib.Tactic.Common
import Mathlib.Tactic.Ring
import ThrSocket.Lib.CString

/-!
Decimal numerals over bytes: the value of a digit string, the canonical
numeral of a number, and that the canonical numeral is a shortest one.
-/

namespace Decimal

def isDigit (c : UInt8) : Bool := 48 ≤ c && c ≤ 57

def digitVal (c : UInt8) : Nat := c.toNat - 48

def digitByte (d : Nat) : UInt8 := UInt8.ofNat (48 + d)

/-- The value of a digit string that continues a number of value `acc`. -/
def valueFrom (acc : Nat) (ds : Bytes) : Nat :=
  ds.foldl (fun v c => v * 10 + digitVal c) acc

def value (ds : Bytes) : Nat := valueFrom 0 ds

def AllDigits (ds : Bytes) : Prop := ∀ c ∈ ds, isDigit c = true

/-- The canonical numeral, without leading zeros. -/
def numeral (n : Nat) : Bytes := (Nat.toDigits 10 n).map fun c => UInt8.ofNat c.toNat

theorem isDigit_iff {c : UInt8} : isDigit c = true ↔ 48 ≤ c.toNat ∧ c.toNat ≤ 57 := by
  simp [isDigit, UInt8.le_iff_toNat_le]

theorem digitVal_lt {c : UInt8} (h : isDigit c = true) : digitVal c < 10 := by
  have := (isDigit_iff.mp h).2
  rw [digitVal]
  omega

theorem digitByte_toNat {d : Nat} (h : d < 10) : (digitByte d).toNat = 48 + d := by
  simp only [digitByte, UInt8.toNat_ofNat']
  omega

theorem isDigit_digitByte {d : Nat} (h : d < 10) : isDigit (digitByte d) = true := by
  rw [isDigit_iff, digitByte_toNat h]
  omega

theorem digitVal_digitByte {d : Nat} (h : d < 10) : digitVal (digitByte d) = d := by
  simp [digitVal, digitByte_toNat h]

@[simp] theorem valueFrom_nil (acc : Nat) : valueFrom acc [] = acc := rfl

@[simp] theorem valueFrom_cons (acc : Nat) (c : UInt8) (cs : Bytes) :
    valueFrom acc (c :: cs) = valueFrom (acc * 10 + digitVal c) cs := by
  unfold valueFrom
  rw [List.foldl_cons]

theorem valueFrom_append (acc : Nat) (xs ys : Bytes) :
    valueFrom acc (xs ++ ys) = valueFrom (valueFrom acc xs) ys := by
  simp [valueFrom, List.foldl_append]

theorem allDigits_append {xs ys : Bytes} :
    AllDigits (xs ++ ys) ↔ AllDigits xs ∧ AllDigits ys := by
  simp only [AllDigits, List.mem_append]
  constructor
  · intro h
    exact ⟨fun c hc => h c (.inl hc), fun c hc => h c (.inr hc)⟩
  · rintro ⟨hx, hy⟩ c (hc | hc)
    · exact hx c hc
    · exact hy c hc

theorem allDigits_cons {c : UInt8} {cs : Bytes} :
    AllDigits (c :: cs) ↔ isDigit c = true ∧ AllDigits cs := by
  simp [AllDigits]

/-- A byte that is no digit occurs in no digit string. -/
theorem AllDigits.not_mem {ds : Bytes} (h : AllDigits ds) {c : UInt8} (hc : isDigit c = false) :
    c ∉ ds := by
  intro hm
  rw [h c hm] at hc
  cases hc

theorem valueFrom_lt {ds : Bytes} (h : AllDigits ds) (acc : Nat) :
    valueFrom acc ds < (acc + 1) * 10 ^ ds.length := by
  induction ds generalizing acc with
  | nil => simp
  | cons c cs ih =>
      obtain ⟨hc, hcs⟩ := allDigits_cons.mp h
      have hd := digitVal_lt hc
      calc valueFrom acc (c :: cs)
          < (acc * 10 + digitVal c + 1) * 10 ^ cs.length := ih hcs _
        _ ≤ (acc * 10 + 10) * 10 ^ cs.length := Nat.mul_le_mul_right _ (by omega)
        _ = (acc + 1) * 10 ^ (c :: cs).length := by
            rw [List.length_cons, pow_succ]
            ring

/-- Only the accumulator's residue matters for the residue of the value. -/
theorem valueFrom_mod (acc m : Nat) (ds : Bytes) :
    valueFrom acc ds % m = valueFrom (acc % m) ds % m := by
  induction ds generalizing acc with
  | nil => simp
  | cons c cs ih =>
      rw [valueFrom_cons, valueFrom_cons, ih, ih (acc % m * 10 + digitVal c)]
      congr 2
      simp [Nat.add_mod, Nat.mul_mod]

theorem le_valueFrom (acc : Nat) (ds : Bytes) : acc ≤ valueFrom acc ds := by
  induction ds generalizing acc with
  | nil => simp
  | cons c cs ih =>
      have h := ih (acc * 10 + digitVal c)
      rw [valueFrom_cons]
      omega

theorem value_lt {ds : Bytes} (h : AllDigits ds) : value ds < 10 ^ ds.length := by
  simpa [value] using valueFrom_lt h 0

private theorem digitChar_byte {d : Nat} (h : d < 10) :
    UInt8.ofNat d.digitChar.toNat = digitByte d := by
  revert h
  revert d
  decide

theorem numeral_eq (n : Nat) :
    numeral n = if n < 10 then [digitByte n] else numeral (n / 10) ++ [digitByte (n % 10)] := by
  unfold numeral
  rw [Nat.toDigits_eq_if (by omega)]
  split
  · rename_i h
    simp [digitChar_byte h]
  · simp [digitChar_byte (Nat.mod_lt n (by omega : 10 > 0))]

theorem allDigits_numeral (n : Nat) : AllDigits (numeral n) := by
  induction n using Nat.strong_induction_on with
  | _ n ih =>
      rw [numeral_eq]
      split
      · rename_i h
        simpa [AllDigits] using isDigit_digitByte h
      · refine allDigits_append.mpr ⟨ih (n / 10) (by omega), ?_⟩
        simpa [AllDigits] using isDigit_digitByte (Nat.mod_lt n (by omega : 10 > 0))

@[simp] theorem value_numeral (n : Nat) : value (numeral n) = n := by
  induction n using Nat.strong_induction_on with
  | _ n ih =>
      rw [numeral_eq]
      split
      · rename_i h
        simp [value, digitVal_digitByte, h]
      · have hq : valueFrom 0 (numeral (n / 10)) = n / 10 := ih (n / 10) (by omega)
        rw [value, valueFrom_append, hq]
        simp only [valueFrom_cons, valueFrom_nil,
          digitVal_digitByte (Nat.mod_lt n (by omega : 10 > 0))]
        omega

theorem numeral_length_le_iff {n k : Nat} (hk : 0 < k) :
    (numeral n).length ≤ k ↔ n < 10 ^ k := by
  simpa [numeral] using Nat.length_toDigits_le_iff (n := n) (by omega : 1 < 10) hk

theorem numeral_ne_nil (n : Nat) : numeral n ≠ [] := by
  rw [numeral_eq]
  split_ifs
  · exact List.cons_ne_nil _ _
  · exact List.append_ne_nil_of_right_ne_nil _ (List.cons_ne_nil _ _)

/-- No digit string for a number is shorter than its canonical numeral. -/
theorem numeral_length_le {n : Nat} {ds : Bytes} (hne : ds ≠ []) (h : n < 10 ^ ds.length) :
    (numeral n).length ≤ ds.length :=
  (numeral_length_le_iff (List.length_pos_iff.mpr hne)).mpr h

instance (ds : Bytes) : Decidable (AllDigits ds) :=
  inferInstanceAs (Decidable (∀ c ∈ ds, isDigit c = true))

def unsigned (p : Bytes) : Bytes := if p.head? = some 45 then p.drop 1 else p

/-- The integer that an optional minus sign and at least one digit stand for. -/
def denoted (p : Bytes) : Option Int :=
  if unsigned p ≠ [] ∧ AllDigits (unsigned p) then
    some (if p.head? = some 45 then -(value (unsigned p) : Int) else value (unsigned p))
  else none

def intNumeral (l : Int) : Bytes :=
  if l < 0 then 45 :: numeral l.natAbs else numeral l.natAbs

theorem head_numeral (n : Nat) : (numeral n).head? ≠ some 45 := by
  intro h
  have := allDigits_numeral n 45 (List.mem_of_mem_head? h)
  cases this

theorem denoted_intNumeral (l : Int) : denoted (intNumeral l) = some l := by
  rw [intNumeral]
  split_ifs with hl
  · have hdigits : unsigned (45 :: numeral l.natAbs) = numeral l.natAbs := rfl
    rw [denoted, hdigits, if_pos ⟨numeral_ne_nil _, allDigits_numeral _⟩,
      List.head?_cons, if_pos rfl, value_numeral]
    congr 1
    omega
  · have hdigits : unsigned (numeral l.natAbs) = numeral l.natAbs := if_neg (head_numeral _)
    rw [denoted, hdigits, if_pos ⟨numeral_ne_nil _, allDigits_numeral _⟩,
      if_neg (head_numeral _), value_numeral]
    congr 1
    omega

end Decimal
