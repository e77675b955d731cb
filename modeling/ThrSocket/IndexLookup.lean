import Mathlib.Data.List.Nodup
import ThrSocket.HandlerTrace

/-!
What `thrs_open_index` returns. A number is given back as it is, cut to an `int`
and without a look at the keys of the table. For a name the keys are searched, as
far as the name goes, and the position that was found is forgotten: what is
returned is `idxnum`, which only the numeric branch sets.
-/

namespace ThrSocket
open CString Decimal

/-- The names in `key_info`: C strings, `table->s->keys` of them, which is a `uint`. -/
structure KeyInfo where
  names : List Bytes
  distinct : names.Nodup
  cstrs : ∀ name ∈ names, 0 ∉ name
  keys : names.length < 2 ^ 32

def startsWithDigit (idx : Bytes) : Bool := idx.head?.any fun c => 48 ≤ c ∧ c ≤ 57

def requested (idx : Bytes) : Bytes := if idx = [] then ascii "PRIMARY" else idx

def keyMatches (name idx : Bytes) : Bool :=
  strncmpEq name (if idx.headD 0 = 0 then ascii "PRIMARY" else idx) idx.length

/-- What a caller wants of `thrs_open_index`. -/
structure LooksUp (k : KeyInfo) (idx : Bytes) (r : Int) : Prop where
  range : r = -1 ∨ ∃ i < k.names.length, r = (i : Int)
  found : startsWithDigit idx = false → ∀ i : Nat, r = i ↔ k.names[i]? = some (requested idx)
  missing : startsWithDigit idx = false → (r = -1 ↔ requested idx ∉ k.names)
  number : idx ≠ [] → AllDigits idx → (r = value idx ↔ value idx < k.names.length)

/-- The number, as an `int`, is a position or -1. -/
def NumberFits (k : KeyInfo) (n : Int) : Prop :=
  n % 2 ^ 32 = 2 ^ 32 - 1 ∨ n % 2 ^ 32 < k.names.length ∧ n % 2 ^ 32 < 2 ^ 31

/-- Either no key matches, or `idxnum` happens to hold what it should have been set to. -/
def NameFits (k : KeyInfo) (idxnum₀ : Int) (idx : Bytes) : Prop :=
  (∀ name ∈ k.names, keyMatches name idx = false) ∨
    (∃ i : Nat, intOfLL idxnum₀ = i ∧ k.names[i]? = some (requested idx)) ∨
    requested idx ∉ k.names ∧ intOfLL idxnum₀ = -1

theorem str2ll_digit {idx : Bytes} (hd : startsWithDigit idx = true) :
    str2ll idx idx.length =
      (str2llLoop 0 idx).bind fun v => if v > llongMax then none else some (v : Int) := by
  have hhead : idx.head? ≠ some 45 := by
    intro h
    rw [startsWithDigit, h] at hd
    revert hd
    decide
  rw [str2ll, if_neg hhead, List.take_length]
  cases str2llLoop 0 idx <;> rfl

/-- The number that is returned before it is cut is the value of the digits, or the value is
no position anyway. -/
theorem str2ll_value {idx : Bytes} (hd : startsWithDigit idx = true) {n : Int}
    (h : str2ll idx idx.length = some n) : n = value idx ∨ 2 ^ 64 ≤ value idx := by
  rw [str2ll_digit hd] at h
  obtain ⟨v, hloop, hv⟩ := Option.bind_eq_some_iff.mp h
  split_ifs at hv
  cases hv
  obtain ⟨_, hval⟩ := str2llLoop_eq_some (by decide) hloop
  change v = value idx % 2 ^ 64 at hval
  omega

/-- A number that is not accepted is no position. -/
theorem value_of_refused {k : KeyInfo} {idx : Bytes} (hd : startsWithDigit idx = true)
    (hds : AllDigits idx) (h : str2ll idx idx.length = none) : k.names.length ≤ value idx := by
  by_contra hlt
  have hkeys := k.keys
  have hval : valueFrom 0 idx < 2 ^ 32 := Nat.lt_trans (Nat.not_le.mp hlt) hkeys
  rw [str2ll_digit hd, str2llLoop_of_lt hds (by omega), Option.bind_some,
    if_neg (by rw [llongMax]; omega)] at h
  cases h

theorem intOfLL_eq (n : Int) :
    intOfLL n = if n % 2 ^ 32 < 2 ^ 31 then n % 2 ^ 32 else n % 2 ^ 32 - 2 ^ 32 := by
  rfl

theorem numberFits_iff {k : KeyInfo} {n : Int} :
    NumberFits k n ↔ intOfLL n = -1 ∨ ∃ i < k.names.length, intOfLL n = (i : Int) := by
  have hkeys := k.keys
  have hnonneg := Int.emod_nonneg n (b := 2 ^ 32) (by decide)
  have hlt := Int.emod_lt_of_pos n (b := 2 ^ 32) (by decide)
  rw [intOfLL_eq, NumberFits]
  generalize n % 2 ^ 32 = m at *
  constructor
  · intro h
    rcases h with h | h
    · left
      split_ifs <;> omega
    · right
      refine ⟨m.toNat, by omega, ?_⟩
      rw [if_pos h.2]
      omega
  · intro h
    rcases h with h | ⟨i, hi, h⟩
    · split_ifs at h <;> omega
    · split_ifs at h <;> omega

/-- In the range, the number that is returned is the one that was asked for if that is a
position. -/
theorem intOfLL_value_iff {k : KeyInfo} {idx : Bytes} {n : Int}
    (hval : n = value idx ∨ 2 ^ 64 ≤ value idx)
    (h : intOfLL n = -1 ∨ ∃ i < k.names.length, intOfLL n = (i : Int)) :
    intOfLL n = value idx ↔ value idx < k.names.length := by
  have hkeys := k.keys
  rw [intOfLL_eq] at h ⊢
  rcases h with h | ⟨i, hi, h⟩
  · split_ifs at h ⊢ <;> omega
  · split_ifs at h ⊢ <;> omega

/-- The numeric branch. -/
theorem looksUp_number_iff {k : KeyInfo} {idx : Bytes} (idxnum₀ : Int)
    (hd : startsWithDigit idx = true) :
    LooksUp k idx (thrsOpenIndex k.names idxnum₀ idx) ↔
      ∀ n, str2ll idx idx.length = some n → NumberFits k n := by
  have hname : ¬ startsWithDigit idx = false := by
    rw [hd]
    decide
  have hkeys := k.keys
  have hbranch : thrsOpenIndex k.names idxnum₀ idx =
      (str2ll idx idx.length).elim (-1) intOfLL := by
    rw [thrsOpenIndex, if_pos (show (idx.head?.any fun c => 48 ≤ c ∧ c ≤ 57) = true from hd)]
    cases str2ll idx idx.length <;> rfl
  rw [hbranch]
  cases hn : str2ll idx idx.length with
  | none =>
      refine iff_of_true ⟨.inl rfl, fun h => absurd h hname, fun h => absurd h hname, ?_⟩
        fun n h => by cases h
      intro _ hds
      have hle := value_of_refused (k := k) hd hds hn
      rw [Option.elim_none]
      omega
  | some n =>
      simp only [Option.some.injEq, forall_eq']
      rw [numberFits_iff]
      constructor
      · exact fun h => h.range
      · intro h
        have hval := str2ll_value hd hn
        exact ⟨h, fun h' => absurd h' hname, fun h' => absurd h' hname,
          fun _ _ => intOfLL_value_iff hval h⟩

/-- The key that is asked for matches. -/
theorem keyMatches_requested {k : KeyInfo} {idx : Bytes} (h : requested idx ∈ k.names) :
    keyMatches (requested idx) idx = true := by
  have hz := k.cstrs _ h
  cases idx with
  | nil => rfl
  | cons c idx =>
      have hne : c ≠ 0 := by
        rintro rfl
        exact hz List.mem_cons_self
      have hreq : requested (c :: idx) = c :: idx := if_neg (List.cons_ne_nil c idx)
      have hptr : (if (c :: idx).headD 0 = 0 then ascii "PRIMARY" else c :: idx) = c :: idx :=
        if_neg hne
      rw [keyMatches, hptr, hreq]
      exact beq_self_eq_true _

theorem not_allDigits {idx : Bytes} (hd : startsWithDigit idx = false) (hne : idx ≠ []) :
    ¬ AllDigits idx := by
  intro hds
  obtain ⟨c, cs, rfl⟩ := List.exists_cons_of_ne_nil hne
  have hc := isDigit_iff.mp (allDigits_cons.mp hds).1
  simp [startsWithDigit, UInt8.le_iff_toNat_le, hc] at hd

theorem looksUp_position {k : KeyInfo} {idx : Bytes} {i : Nat}
    (hd : startsWithDigit idx = false) (hi : k.names[i]? = some (requested idx)) :
    LooksUp k idx i := by
  obtain ⟨hlt, hget⟩ := List.getElem?_eq_some_iff.mp hi
  have hmem : requested idx ∈ k.names := List.mem_of_getElem? hi
  refine ⟨.inr ⟨i, hlt, rfl⟩, fun _ j => ?_, fun _ => ?_,
    fun h hds => absurd hds (not_allDigits hd h)⟩
  · constructor
    · intro heq
      rw [← Int.natCast_inj.mp heq]
      exact hi
    · intro hj
      obtain ⟨hlt', hget'⟩ := List.getElem?_eq_some_iff.mp hj
      rw [k.distinct.getElem_inj_iff.mp (hget.trans hget'.symm)]
  · exact iff_of_false (by omega) (not_not_intro hmem)

theorem looksUp_missing {k : KeyInfo} {idx : Bytes} (hd : startsWithDigit idx = false)
    (hmissing : requested idx ∉ k.names) : LooksUp k idx (-1) := by
  refine ⟨.inl rfl, fun _ j => ?_, fun _ => iff_of_true rfl hmissing,
    fun h hds => absurd hds (not_allDigits hd h)⟩
  exact iff_of_false (by omega) fun hj => hmissing (List.mem_of_getElem? hj)

theorem looksUp_name_iff {k : KeyInfo} {idx : Bytes} (idxnum₀ : Int)
    (hd : startsWithDigit idx = false) :
    LooksUp k idx (thrsOpenIndex k.names idxnum₀ idx) ↔ NameFits k idxnum₀ idx := by
  have hno : ¬ (idx.head?.any fun c => 48 ≤ c ∧ c ≤ 57) = true := by
    rw [show (idx.head?.any fun c => 48 ≤ c ∧ c ≤ 57) = false from hd]
    decide
  have hbranch : thrsOpenIndex k.names idxnum₀ idx =
      if k.names.any (keyMatches · idx) then intOfLL idxnum₀ else -1 := by
    rw [thrsOpenIndex, if_neg hno]
    rfl
  rw [hbranch]
  by_cases hany : k.names.any (keyMatches · idx) = true
  · rw [if_pos hany]
    have hsome : ¬ ∀ name ∈ k.names, keyMatches name idx = false := by
      intro hall
      obtain ⟨name, hmem, hmatch⟩ := List.any_eq_true.mp hany
      rw [hall name hmem] at hmatch
      cases hmatch
    rw [NameFits, or_iff_right hsome]
    constructor
    · intro h
      rcases h.range with hr | ⟨i, _, hr⟩
      · exact .inr ⟨(h.missing hd).mp hr, hr⟩
      · exact .inl ⟨i, hr, (h.found hd i).mp hr⟩
    · intro h
      rcases h with ⟨i, hr, hi⟩ | ⟨hmissing, hr⟩
      · rw [hr]
        exact looksUp_position hd hi
      · rw [hr]
        exact looksUp_missing hd hmissing
  · rw [if_neg hany]
    have hnone : ∀ name ∈ k.names, keyMatches name idx = false := by
      intro name hmem
      by_contra hmatch
      exact hany (List.any_eq_true.mpr ⟨name, hmem, by simpa using hmatch⟩)
    have hmissing : requested idx ∉ k.names := by
      intro hmem
      have hmatch := keyMatches_requested hmem
      rw [hnone _ hmem] at hmatch
      cases hmatch
    exact iff_of_true (looksUp_missing hd hmissing) (.inl hnone)

/-- For every table, every index argument and every value that `idxnum` happens to hold. -/
theorem thrsOpenIndex_sound_iff (k : KeyInfo) (idxnum₀ : Int) (idx : Bytes) :
    LooksUp k idx (thrsOpenIndex k.names idxnum₀ idx) ↔
      if startsWithDigit idx then ∀ n, str2ll idx idx.length = some n → NumberFits k n
      else NameFits k idxnum₀ idx := by
  cases hd : startsWithDigit idx with
  | true => exact looksUp_number_iff idxnum₀ hd
  | false => exact looksUp_name_iff idxnum₀ hd

/-- The position of `b` is 1; what is returned is what `idxnum` holds. -/
theorem thrsOpenIndex_forgets :
    ∃ k : KeyInfo, k.names = [ascii "a", ascii "b"] ∧
      thrsOpenIndex k.names 7 (ascii "b") = 7 ∧
      ¬ LooksUp k (ascii "b") (thrsOpenIndex k.names 7 (ascii "b")) := by
  refine ⟨⟨[ascii "a", ascii "b"], by decide, by decide, by decide⟩, rfl, by decide, fun h => ?_⟩
  have hfound := (h.found (by decide) 1).mpr (by decide)
  revert hfound
  decide

end ThrSocket
