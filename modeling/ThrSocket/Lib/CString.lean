import Mathlib.Data.List.Basic
import Mathlib.Data.List.TakeWhile
import Mathlib.Tactic.Common

/-!
Byte strings that are also read through a NUL-terminated pointer, and the
search of a needle in such a string. A byte string stands for the memory from
the pointer up to the terminator that follows it, so a NUL inside it hides
whatever comes after.
-/

abbrev Bytes := List UInt8

namespace CString

def view (s : Bytes) : Bytes := s.takeWhile (· != 0)

/-- Position of the first occurrence of the needle that starts before any NUL. -/
def strstr (needle : Bytes) : Bytes → Option Nat
  | [] => if needle = [] then some 0 else none
  | c :: cs =>
      if needle.isPrefixOf (c :: cs) then some 0
      else if c = 0 then none
      else (strstr needle cs).map (· + 1)

theorem view_eq_self {s : Bytes} (h : 0 ∉ s) : view s = s := by
  refine List.takeWhile_eq_self_iff.mpr fun c hc => ?_
  simp only [bne_iff_ne, ne_eq]
  rintro rfl
  exact h hc

theorem zero_notMem_view (s : Bytes) : 0 ∉ view s := fun h => by
  simpa using List.mem_takeWhile_imp h

/-- A search succeeds at the first occurrence, and only when no NUL precedes it. -/
theorem strstr_eq_some_iff {needle s : Bytes} {k : Nat} :
    strstr needle s = some k ↔
      k ≤ s.length ∧ needle <+: s.drop k ∧ 0 ∉ s.take k ∧
        ∀ j < k, ¬ needle <+: s.drop j := by
  induction s generalizing k with
  | nil =>
      by_cases hn : needle = []
      · simp only [strstr, hn, if_true, Option.some.injEq, List.length_nil]
        constructor
        · rintro rfl
          simp
        · intro h
          omega
      · simp [strstr, hn]
  | cons c cs ih =>
      rw [strstr]
      by_cases hp : needle <+: c :: cs
      · rw [if_pos (List.isPrefixOf_iff_prefix.mpr hp), Option.some.injEq]
        constructor
        · rintro rfl
          simpa using hp
        · intro h
          by_contra hk
          exact h.2.2.2 0 (by omega) (by simpa using hp)
      · rw [if_neg (by simpa using hp)]
        cases k with
        | zero =>
            by_cases hc : c = 0 <;> simp [hc, hp]
            intro h
            exact absurd h (by simpa [hc] using hp)
        | succ k =>
            by_cases hc : c = 0
            · simp [hc]
            · have key : ((strstr needle cs).map (· + 1) = some (k + 1)) ↔
                  strstr needle cs = some k := by simp [Option.map_eq_some_iff]
              rw [if_neg hc, key, ih]
              simp only [List.length_cons, Nat.add_le_add_iff_right, List.drop_succ_cons,
                List.take_succ_cons, List.mem_cons, not_or, eq_comm (a := (0 : UInt8)), hc,
                not_false_eq_true, true_and]
              refine and_congr_right fun _ => and_congr_right fun _ => and_congr_right fun _ => ?_
              constructor
              · intro h j hj
                cases j with
                | zero => simpa using hp
                | succ j => simpa using h j (by omega)
              · intro h j hj
                simpa using h (j + 1) (by omega)

theorem strstr_split {needle s : Bytes} {k : Nat} (h : strstr needle s = some k) :
    ∃ rest, s = s.take k ++ (needle ++ rest) := by
  obtain ⟨_, ⟨rest, hr⟩, _⟩ := strstr_eq_some_iff.mp h
  exact ⟨rest, by rw [hr, List.take_append_drop]⟩

theorem strstr_le {needle s : Bytes} {k : Nat} (h : strstr needle s = some k) :
    k + needle.length ≤ s.length := by
  obtain ⟨hk, hp, _⟩ := strstr_eq_some_iff.mp h
  have hl := hp.length_le
  rw [List.length_drop] at hl
  omega

/-- An occurrence that fits in the front part is an occurrence of the front part. -/
theorem strstr_append_of_le {needle s t : Bytes} {k : Nat}
    (h : strstr needle (s ++ t) = some k) (hk : k + needle.length ≤ s.length) :
    strstr needle s = some k := by
  obtain ⟨_, hp, hz, hmin⟩ := strstr_eq_some_iff.mp h
  refine strstr_eq_some_iff.mpr ⟨by omega, ?_, ?_, ?_⟩
  · rw [List.drop_append_of_le_length (by omega)] at hp
    exact List.prefix_of_prefix_length_le hp (List.prefix_append _ _) (by simp; omega)
  · rwa [List.take_append_of_le_length (by omega)] at hz
  · intro j hj hpj
    apply hmin j hj
    rw [List.drop_append_of_le_length (by omega)]
    exact hpj.trans (List.prefix_append _ _)

/-- Bytes appended behind a found needle do not change the search. -/
theorem strstr_append {needle s : Bytes} {k : Nat} (h : strstr needle s = some k) (t : Bytes) :
    strstr needle (s ++ t) = some k := by
  have hle := strstr_le h
  obtain ⟨_, hp, hz, hmin⟩ := strstr_eq_some_iff.mp h
  refine strstr_eq_some_iff.mpr ⟨by simp; omega, ?_, ?_, ?_⟩
  · rw [List.drop_append_of_le_length (by omega)]
    exact hp.trans (List.prefix_append _ _)
  · rwa [List.take_append_of_le_length (by omega)]
  · intro j hj hpj
    apply hmin j hj
    rw [List.drop_append_of_le_length (by omega)] at hpj
    exact List.prefix_of_prefix_length_le hpj (List.prefix_append _ _) (by simp; omega)

/-- A search passes over bytes that hold neither a NUL nor the needle's first byte. -/
theorem strstr_skip {a : UInt8} (needle : Bytes) {s : Bytes} (hz : 0 ∉ s) (ha : a ∉ s) (t : Bytes) :
    strstr (a :: needle) (s ++ t) = (strstr (a :: needle) t).map (· + s.length) := by
  induction s with
  | nil => simp
  | cons c s ih =>
      simp only [List.mem_cons, not_or] at hz ha
      have hn : (a :: needle).isPrefixOf (c :: (s ++ t)) = false := by
        simp [List.isPrefixOf, ha.1]
      rw [List.cons_append, strstr, hn, if_neg (by simp), if_neg (Ne.symm hz.1), ih hz.2 ha.2]
      cases strstr (a :: needle) t <;> simp [Nat.add_assoc]

end CString
