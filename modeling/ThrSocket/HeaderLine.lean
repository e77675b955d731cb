import ThrSocket.RequestFormat

/-!
The two header lines of the format as one notion, and what bytes appended to a
buffer can still make of the line at its front: nothing once its CRLF shows,
and an accepted line as long as only digits have arrived.
-/

namespace ThrSocket
open CString Decimal

/-- `x` begins with an accepted header line, which ends at `pos`. -/
def Header (tag : UInt8) (limit : Nat) (x : Bytes) (n pos : Nat) : Prop :=
  ∃ ds rest, x = tag :: (ds ++ (crlf ++ rest)) ∧ str2llLoop 0 ds = some n ∧
    1 ≤ n ∧ n ≤ limit ∧ pos = ds.length + 3

/-- A header line without its CRLF that later bytes can still make acceptable. -/
def Extendable (tag : UInt8) (limit : Nat) (buf : Bytes) : Prop :=
  ∃ ds v, str2llLoop 0 ds = some v ∧
    (buf = tag :: ds ∨ buf = tag :: (ds ++ [13]) ∧ 1 ≤ v ∧ v ≤ limit)

theorem Header.strstr {tag : UInt8} (htag : tag = 42 ∨ tag = 36) {limit : Nat} {x : Bytes}
    {n pos : Nat} (h : Header tag limit x n pos) :
    CString.strstr crlf x = some (pos - 2) ∧ 3 ≤ pos ∧ pos ≤ x.length := by
  obtain ⟨ds, rest, rfl, hloop, h1, _, rfl⟩ := h
  refine ⟨?_, by omega, by simp only [List.length_cons, List.length_append, crlf_length]; omega⟩
  rw [strstr_line htag (str2llLoop_pos hloop h1).1 rest]
  rfl

theorem Header.head {tag : UInt8} {limit : Nat} {x : Bytes} {n pos : Nat}
    (h : Header tag limit x n pos) : x.getD 0 0 = tag := by
  obtain ⟨ds, rest, rfl, _⟩ := h
  rfl

theorem Header.append {tag : UInt8} {limit : Nat} {x : Bytes} {n pos : Nat}
    (h : Header tag limit x n pos) (z : Bytes) : Header tag limit (x ++ z) n pos := by
  obtain ⟨ds, rest, rfl, hrest⟩ := h
  exact ⟨ds, rest ++ z, by simp, hrest⟩

/-- The line of a buffer that shows its CRLF is settled. -/
theorem Header.of_append {tag : UInt8} (htag : tag = 42 ∨ tag = 36) {limit : Nat} {buf z : Bytes}
    {n pos ptr : Nat} (h : Header tag limit (buf ++ z) n pos)
    (hptr : CString.strstr crlf buf = some ptr) : Header tag limit buf n pos := by
  obtain ⟨hstr, hpos, _⟩ := h.strstr htag
  rw [strstr_append hptr z] at hstr
  have hle := strstr_le hptr
  simp only [crlf_length, Option.some.injEq] at hle hstr
  obtain ⟨ds, rest, hx, hloop, h1, h2, rfl⟩ := h
  refine ⟨ds, buf.drop (ds.length + 3), ?_, hloop, h1, h2, rfl⟩
  have htake := congrArg (List.take (ds.length + 3)) hx
  rw [List.take_append_of_le_length (by omega)] at htake
  have hline : (tag :: (ds ++ (crlf ++ rest))).take (ds.length + 3) = tag :: (ds ++ crlf) := by
    rw [show ds.length + 3 = (tag :: (ds ++ crlf)).length by simp,
      show tag :: (ds ++ (crlf ++ rest)) = tag :: (ds ++ crlf) ++ rest by simp, List.take_left]
  rw [hline] at htake
  conv_lhs => rw [← List.take_append_drop (ds.length + 3) buf, htake]
  simp

theorem extendable_of_header {tag : UInt8} (htag : tag = 42 ∨ tag = 36) {limit : Nat}
    {buf z : Bytes} {n pos : Nat} (hne : buf ≠ []) (hnone : CString.strstr crlf buf = none)
    (h : Header tag limit (buf ++ z) n pos) : Extendable tag limit buf := by
  obtain ⟨hstr, hpos, _⟩ := h.strstr htag
  have hshort : buf.length < pos := by
    by_contra hlong
    have := strstr_append_of_le hstr (by rw [crlf_length]; omega)
    rw [hnone] at this
    cases this
  obtain ⟨ds, rest, hx, hloop, h1, h2, rfl⟩ := h
  have hfront : buf <+: (tag :: ds) ++ [13] := by
    have hwhole : (tag :: ds) ++ [13] <+: buf ++ z := ⟨10 :: rest, by rw [hx]; simp [crlf]⟩
    exact List.prefix_of_prefix_length_le (List.prefix_append _ _) hwhole (by simp; omega)
  rcases List.prefix_concat_iff.mp hfront with heq | hin
  · exact ⟨ds, n, hloop, .inr ⟨heq, h1, h2⟩⟩
  · obtain ⟨c, cs, rfl⟩ := List.exists_cons_of_ne_nil hne
    obtain ⟨t, ht⟩ := hin
    obtain ⟨rfl, hds⟩ := List.cons.inj ht
    change cs ++ t = ds at hds
    rw [← hds, str2llLoop_append] at hloop
    obtain ⟨v, hv, _⟩ := Option.bind_eq_some_iff.mp hloop
    exact ⟨cs, v, hv, .inl rfl⟩

/-- Sixty-four zeros shift every digit out of the accumulator. -/
theorem header_of_extendable {tag : UInt8} {limit : Nat} (hlimit : 1 ≤ limit) {buf : Bytes}
    (h : Extendable tag limit buf) :
    ∃ z n, z ≠ [] ∧ Header tag limit (buf ++ z) n (buf ++ z).length := by
  obtain ⟨ds, v, hv, rfl | ⟨rfl, h1, h2⟩⟩ := h
  · have hlt : v < 2 ^ 64 := by
      obtain ⟨_, hmod⟩ := str2llLoop_eq_some (by omega) hv
      rw [hmod]
      exact Nat.mod_lt _ (by decide)
    have hzero : v * 10 ^ 64 % 2 ^ 64 = 0 := by
      rw [show (10 : Nat) ^ 64 = 5 ^ 64 * 2 ^ 64 from by norm_num, ← Nat.mul_assoc]
      exact Nat.mul_mod_left _ _
    refine ⟨List.replicate 64 48 ++ [49] ++ crlf, 1, by simp, ds ++ List.replicate 64 48 ++ [49],
      [], by simp, ?_, Nat.le_refl _, hlimit, by simp⟩
    rw [List.append_assoc, str2llLoop_append, hv, Option.bind_some, str2llLoop_append,
      str2llLoop_zeros hlt, hzero]
    decide
  · exact ⟨[10], v, by simp, ds, [], by simp [crlf], hv, h1, h2, by simp⟩

theorem bulkCountLine_header_iff {x : Bytes} {n pos : Nat} :
    bulkCountLine x = .ok (n, pos) ↔ Header 42 1024 x n pos := by
  constructor
  · intro h
    obtain ⟨ds, rest, hx, _, hpos, hloop, h1, h2⟩ := bulkCountLine_ok h
    exact ⟨ds, rest, hx, hloop, h1, h2, hpos⟩
  · rintro ⟨ds, rest, rfl, hloop, h1, h2, rfl⟩
    have hnum := str2ll_of_loop hloop h1 (by rw [llongMax]; omega) (crlf ++ rest)
    rw [bulkCountLine, strstr_line (.inl rfl) (str2llLoop_pos hloop h1).1 rest]
    simp only [List.getD_cons_zero, ne_eq, not_true_eq_false, if_false, List.drop_one,
      List.tail_cons, Nat.add_sub_cancel, hnum]
    rw [if_neg (by omega)]
    simp

theorem bulkLenLine_header_iff {x : Bytes} {n pos : Nat} :
    bulkLenLine x 0 = .ok (n, pos) ↔ Header 36 maxCommandLenLimit x n pos := by
  constructor
  · intro h
    obtain ⟨ds, rest, hx, _, hpos, hloop, h1, h2⟩ := bulkLenLine_ok h
    exact ⟨ds, rest, hx, hloop, h1, h2, by omega⟩
  · rintro ⟨ds, rest, rfl, hloop, h1, h2, rfl⟩
    have hmax : n ≤ llongMax := by
      rw [llongMax]
      rw [maxCommandLenLimit] at h2
      omega
    have hnum := str2ll_of_loop hloop h1 hmax (crlf ++ rest)
    rw [bulkLenLine, List.drop_zero, strstr_line (.inr rfl) (str2llLoop_pos hloop h1).1 rest]
    simp only [List.getD_cons_zero, ne_eq, not_true_eq_false, if_false, List.drop_one,
      List.tail_cons, Nat.zero_add, Nat.add_sub_cancel, hnum]
    rw [if_neg (by omega)]
    simp

end ThrSocket
