import ThrSocket.Common

/-!
The string buffer operations of cstr.c on the bytes a buffer holds, which are
its first `len - free` bytes. Capacities and handles are added where they
matter, in the model of the connection buffers.
-/

namespace ThrSocket
open CString

def crlf : Bytes := [13, 10]

def ascii (s : String) : Bytes := s.toList.map fun c => UInt8.ofNat c.toNat

/-- The content after `cstr_range(s, b, e)`: both clamps of the source, and a
plain `end - begin` as the new length, so position `end` itself is left out. -/
def cstrRange (s : Bytes) (b e : Int) : Bytes :=
  let used : Int := s.length
  let end₁ := if e < 0 then (if e + used < 0 then 0 else e + used) else e
  let begin := if b < 0 then (if b + used < 0 then 0 else b + used) else b
  let nlen := if begin < end₁ then end₁ - begin else 0
  let nlen :=
    if nlen ≠ 0 then
      if begin > used then 0
      else if end₁ > used then
        (if begin < used - 1 then used - 1 - begin else 0)
      else nlen
    else nlen
  (s.drop begin.toNat).take nlen.toNat

/-- The loop of `cstr_split`: positions still to visit, `i`, `beg` and the pieces made. -/
def cstrSplitLoop (s b : Bytes) : Nat → Nat → Nat → List Bytes → List Bytes × Nat
  | 0, _, beg, array => (array, beg)
  | n + 1, i, beg, array =>
      if b.isPrefixOf (s.drop i) then
        cstrSplitLoop s b n (i + 1) (i + b.length) (array ++ [(s.drop beg).take (i - beg)])
      else cstrSplitLoop s b n (i + 1) beg array

def cstrSplit (s b : Bytes) : List Bytes :=
  let r := cstrSplitLoop s b (s.length - (b.length - 1)) 0 0 []
  r.1 ++ [(s.drop r.2).take (s.length - r.2)]

def tolower (c : UInt8) : UInt8 := if 65 ≤ c ∧ c ≤ 90 then c + 32 else c

def cstrTolower (s : Bytes) : Bytes := s.map tolower

/-- Trimming up to -1 drops the last byte as well as the first `b`. -/
theorem cstrRange_neg_one (s : Bytes) (b : Nat) :
    cstrRange s b (-1) = (s.take (s.length - 1)).drop b := by
  rw [List.drop_take]
  rw [cstrRange]
  have hb : ¬ (b : Int) < 0 := by omega
  have he : (-1 : Int) < 0 := by omega
  simp only [hb, he, if_false, if_true, Int.toNat_natCast]
  congr 1
  split_ifs <;> omega

theorem cstrSplitLoop_length_pos (s b : Bytes) : 0 < (cstrSplit s b).length := by
  simp [cstrSplit]

/-- The loop of `cstr_split` with one separator, from a position of the piece at `beg`. -/
theorem cstrSplitLoop_splitOn {s : Bytes} {c : UInt8} {n i beg : Nat} {array : List Bytes}
    (hi : i + n = s.length) (hbeg : beg ≤ i) (hpiece : c ∉ (s.drop beg).take (i - beg)) :
    (cstrSplitLoop s [c] n i beg array).1 ++ [s.drop (cstrSplitLoop s [c] n i beg array).2] =
      array ++ (s.drop beg).splitOn c := by
  induction n generalizing i beg array with
  | zero =>
      rw [cstrSplitLoop, List.splitOn_eq_singleton]
      rwa [List.take_of_length_le (by rw [List.length_drop]; omega)] at hpiece
  | succ n ih =>
      have hlt : i < s.length := by omega
      have hdrop : s.drop beg = (s.drop beg).take (i - beg) ++ s[i] :: s.drop (i + 1) := by
        rw [← List.drop_eq_getElem_cons hlt]
        conv_lhs => rw [← List.take_append_drop (i - beg) (s.drop beg)]
        rw [List.drop_drop, Nat.add_sub_cancel' hbeg]
      have hprefix : ([c].isPrefixOf (s.drop i)) = (c == s[i]) := by
        rw [List.drop_eq_getElem_cons hlt]
        simp [List.isPrefixOf]
      rw [cstrSplitLoop, hprefix]
      by_cases hc : c = s[i]
      · rw [if_pos (beq_iff_eq.mpr hc), List.length_singleton]
        refine (ih (by omega) (Nat.le_refl (i + 1)) (by simp)).trans ?_
        rw [List.append_assoc]
        conv_rhs => rw [hdrop, ← hc, List.splitOn_append_cons_self_of_not_mem hpiece]
        rfl
      · rw [if_neg (by simpa using hc)]
        refine ih (by omega) (by omega) ?_
        rw [show i + 1 - beg = i - beg + 1 by omega, List.take_add_one, List.getElem?_drop,
          Nat.add_sub_cancel' hbeg, List.getElem?_eq_getElem hlt]
        simp only [List.mem_append, Option.toList_some, List.mem_singleton, not_or]
        exact ⟨hpiece, hc⟩

theorem cstrSplit_singleton (s : Bytes) (c : UInt8) : cstrSplit s [c] = s.splitOn c := by
  have h := @cstrSplitLoop_splitOn s c s.length 0 0 [] (Nat.zero_add _) (Nat.le_refl _) (by simp)
  rw [List.drop_zero, List.nil_append] at h
  rw [← h]
  simp only [cstrSplit, List.length_singleton, Nat.sub_self, Nat.sub_zero]
  rw [List.take_of_length_le (by rw [List.length_drop])]

theorem cstrRange_neg_two (s : Bytes) : cstrRange s 0 (-2) = s.take (s.length - 2) := by
  rw [cstrRange]
  have he : (-2 : Int) < 0 := by omega
  simp only [he, if_true, Int.lt_irrefl, if_false, Int.toNat_zero, List.drop_zero]
  congr 1
  split_ifs <;> omega

end ThrSocket
