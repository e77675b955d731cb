import ThrSocket.Cstr
import ThrSocket.Lib.Traced

/-!
What `cstr_split` touches: the positions of the string that it reads, the slots of
its array that it writes, and the differences it takes. The array is grown in the
loop and written behind it, and after a match the start of the next piece runs
ahead of the position.
-/

namespace ThrSocket
open Traced

inductive SplitAccess
  /-- `s[i]` -/
  | byte (i : Nat)
  /-- `memcmp(s + i, b, slen)` -/
  | memcmp (i slen : Nat)
  /-- `cstr_new(s + beg, stop - beg)` -/
  | piece (beg stop : Nat)
  /-- `array[size]` in an array last requested for `cap` elements -/
  | store (size cap : Nat)
deriving DecidableEq, Repr

/-- Reads are below `len`, stores below the capacity, and no difference wraps around. -/
def SplitAccess.InBounds (len : Nat) : SplitAccess → Prop
  | .byte i => i < len
  | .memcmp i slen => i + slen ≤ len
  | .piece beg stop => beg ≤ stop ∧ stop ≤ len
  | .store size cap => size < cap

instance (len : Nat) : (a : SplitAccess) → Decidable (a.InBounds len)
  | .byte _ => inferInstanceAs (Decidable (_ < _))
  | .memcmp _ _ => inferInstanceAs (Decidable (_ ≤ _))
  | .piece _ _ => inferInstanceAs (Decidable (_ ∧ _))
  | .store _ _ => inferInstanceAs (Decidable (_ < _))

/-- A string whose length has wrapped around is not made. -/
def newPiece (s : Bytes) (beg stop : Nat) : Traced SplitAccess Bytes := do
  emit (.piece beg stop)
  if beg ≤ stop then pure ((s.drop beg).take (stop - beg)) else stuck

def storePiece (array : List Bytes) (cap : Nat) (p : Bytes) : Traced SplitAccess (List Bytes) := do
  emit (.store array.length cap)
  pure (array ++ [p])

/-- The capacity in a round of the loop: one slot is kept for the piece behind the loop. -/
def splitCap (size cap : Nat) : Nat := if size + 1 ≥ cap then cap + 5 else cap

/-- The loop of `cstr_split`: positions still to visit, `i`, `beg`, the pieces stored and `cap`. -/
def tracedSplitLoop (s b : Bytes) :
    Nat → Nat → Nat → List Bytes → Nat → Traced SplitAccess (List Bytes × Nat × Nat)
  | 0, _, beg, array, cap => pure (array, beg, cap)
  | n + 1, i, beg, array, cap => do
      let cap := splitCap array.length cap
      emit (.byte i)
      if s[i]? = b.head? then
        emit (.memcmp i b.length)
        if b.isPrefixOf (s.drop i) then
          let p ← newPiece s beg i
          let array ← storePiece array cap p
          tracedSplitLoop s b n (i + 1) (i + b.length) array cap
        else tracedSplitLoop s b n (i + 1) beg array cap
      else tracedSplitLoop s b n (i + 1) beg array cap

def tracedSplit (s b : Bytes) : Traced SplitAccess (List Bytes) := do
  let (array, beg, cap) ← tracedSplitLoop s b (s.length - (b.length - 1)) 0 0 [] 0
  let p ← newPiece s beg s.length
  storePiece array cap p

/-- Two occurrences of the separator have a byte in common. -/
def Overlapping (s b : Bytes) : Prop :=
  ∃ i j, i < j ∧ j < i + b.length ∧ b <+: s.drop i ∧ b <+: s.drop j

variable {s b : Bytes} {i beg cap n : Nat} {array : List Bytes}

/-- An occurrence that is still to come starts before `beg`, or two that are still to come
overlap. -/
def Clash (s b : Bytes) (i beg : Nat) : Prop :=
  (∃ j, i ≤ j ∧ j < beg ∧ b <+: s.drop j) ∨
    ∃ j k, i ≤ j ∧ j < k ∧ k < j + b.length ∧ b <+: s.drop j ∧ b <+: s.drop k

theorem prefix_length (hb : b <+: s.drop i) (hi : 1 ≤ b.length) : i + b.length ≤ s.length := by
  have hle := hb.length_le
  rw [List.length_drop] at hle
  omega

theorem clash_of_notMatch (h : ¬ b <+: s.drop i) : Clash s b i beg ↔ Clash s b (i + 1) beg := by
  have hnext : ∀ j, b <+: s.drop j → (i ≤ j ↔ i + 1 ≤ j) := by
    intro j hj
    have hne : j ≠ i := by
      rintro rfl
      exact h hj
    omega
  constructor
  · rintro (⟨j, hle, hlt, hj⟩ | ⟨j, k, hle, hjk, hk, hj, hk'⟩)
    · exact .inl ⟨j, (hnext j hj).mp hle, hlt, hj⟩
    · exact .inr ⟨j, k, (hnext j hj).mp hle, hjk, hk, hj, hk'⟩
  · rintro (⟨j, hle, hlt, hj⟩ | ⟨j, k, hle, hjk, hk, hj, hk'⟩)
    · exact .inl ⟨j, (hnext j hj).mpr hle, hlt, hj⟩
    · exact .inr ⟨j, k, (hnext j hj).mpr hle, hjk, hk, hj, hk'⟩

/-- At a match, what is to come clashes with the end of that match. -/
theorem clash_of_match (h : b <+: s.drop i) (hbeg : beg ≤ i) :
    Clash s b i beg ↔ Clash s b (i + 1) (i + b.length) := by
  constructor
  · rintro (⟨j, hle, hlt, -⟩ | ⟨j, k, hle, hjk, hk, hj, hk'⟩)
    · omega
    · rcases Nat.eq_or_lt_of_le hle with rfl | hlt
      · exact .inl ⟨k, hjk, hk, hk'⟩
      · exact .inr ⟨j, k, hlt, hjk, hk, hj, hk'⟩
  · rintro (⟨j, hle, hlt, hj⟩ | ⟨j, k, hle, hjk, hk, hj, hk'⟩)
    · exact .inr ⟨i, j, Nat.le_refl i, hle, hlt, h, hj⟩
    · exact .inr ⟨j, k, Nat.le_of_succ_le hle, hjk, hk, hj, hk'⟩

theorem clash_start : Clash s b 0 0 ↔ Overlapping s b := by
  constructor
  · rintro (⟨j, -, hlt, -⟩ | ⟨j, k, -, hjk, hk, hj, hk'⟩)
    · exact absurd hlt (Nat.not_lt_zero j)
    · exact ⟨j, k, hjk, hk, hj, hk'⟩
  · rintro ⟨j, k, hjk, hk, hj, hk'⟩
    exact .inr ⟨j, k, Nat.zero_le j, hjk, hk, hj, hk'⟩

/-- The first byte decides whether `memcmp` is called, not what the round does. -/
theorem getElem?_of_match (hb : 1 ≤ b.length) (h : b <+: s.drop i) : s[i]? = b.head? := by
  obtain ⟨c, b, rfl⟩ := List.exists_cons_of_length_pos hb
  obtain ⟨t, ht⟩ := h
  have := congrArg List.head? ht
  rw [List.head?_drop] at this
  exact this.symm

theorem lt_splitCap {size cap : Nat} (h : size ≤ cap) : size + 1 < splitCap size cap := by
  rw [splitCap]
  split_ifs
  · omega
  · omega

theorem newPiece_after {stop : Nat} (hbeg : beg ≤ stop) (hstop : stop ≤ s.length) :
    After (SplitAccess.InBounds s.length) (newPiece s beg stop)
      (pure ((s.drop beg).take (stop - beg))) := by
  have hpiece : SplitAccess.InBounds s.length (.piece beg stop) := ⟨hbeg, hstop⟩
  refine (after_emit hpiece _).trans ?_
  rw [if_pos hbeg]
  exact .refl _

theorem storePiece_after (hcap : array.length < cap) (p : Bytes) :
    After (SplitAccess.InBounds s.length) (storePiece array cap p) (pure (array ++ [p])) := by
  have hstore : SplitAccess.InBounds s.length (.store array.length cap) := hcap
  exact after_emit hstore _

/-- A position without a match is passed over. -/
theorem tracedSplitLoop_skip (n beg : Nat) (array : List Bytes) (cap : Nat) (hb : 1 ≤ b.length)
    (hi : i + b.length ≤ s.length) (h : ¬ b <+: s.drop i) :
    After (SplitAccess.InBounds s.length) (tracedSplitLoop s b (n + 1) i beg array cap)
      (tracedSplitLoop s b n (i + 1) beg array (splitCap array.length cap)) := by
  have hbyte : SplitAccess.InBounds s.length (.byte i) := Nat.lt_of_lt_of_le (by omega) hi
  refine (after_emit hbyte _).trans ?_
  split_ifs with hhead hmatch
  · exact absurd (List.isPrefixOf_iff_prefix.mp hmatch) h
  · have hmemcmp : SplitAccess.InBounds s.length (.memcmp i b.length) := hi
    exact after_emit hmemcmp _
  · exact .refl _

/-- A match behind the start of the piece stores that piece. -/
theorem tracedSplitLoop_match (hb : 1 ≤ b.length) (h : b <+: s.drop i) (hbeg : beg ≤ i)
    (hcap : array.length ≤ cap) :
    After (SplitAccess.InBounds s.length) (tracedSplitLoop s b (n + 1) i beg array cap)
      (tracedSplitLoop s b n (i + 1) (i + b.length)
        (array ++ [(s.drop beg).take (i - beg)]) (splitCap array.length cap)) := by
  have hi := prefix_length h hb
  have hbyte : SplitAccess.InBounds s.length (.byte i) := Nat.lt_of_lt_of_le (by omega) hi
  have hmemcmp : SplitAccess.InBounds s.length (.memcmp i b.length) := hi
  refine (after_emit hbyte _).trans ?_
  rw [if_pos (getElem?_of_match hb h)]
  refine (after_emit hmemcmp _).trans ?_
  rw [if_pos (List.isPrefixOf_iff_prefix.mpr h)]
  refine ((newPiece_after hbeg (by omega)).bind_pure _).trans ?_
  exact (storePiece_after (Nat.lt_of_succ_lt (lt_splitCap hcap)) _).bind_pure _

/-- A match in front of the start of the piece wraps around. -/
theorem tracedSplitLoop_wrap (n : Nat) (array : List Bytes) (cap : Nat) (hb : 1 ≤ b.length)
    (h : b <+: s.drop i) (hbeg : i < beg) :
    ¬ (tracedSplitLoop s b (n + 1) i beg array cap).All (SplitAccess.InBounds s.length) := by
  intro hall
  have hpiece : SplitAccess.piece beg i ∈ (tracedSplitLoop s b (n + 1) i beg array cap).events := by
    rw [tracedSplitLoop, if_pos (getElem?_of_match hb h), if_pos (List.isPrefixOf_iff_prefix.mpr h)]
    simp [mem_bind_events, newPiece]
  exact absurd (hall _ hpiece).1 (Nat.not_le.mpr hbeg)

/-- The loop stays in bounds unless an occurrence clashes, and then makes the pieces of
`cstrSplitLoop`; a slot is left behind them once a round was made. -/
theorem tracedSplitLoop_all_iff (hb : 1 ≤ b.length) (hn : i + n + b.length = s.length + 1)
    (hbeg : beg ≤ s.length) (hcap : array.length ≤ cap) :
    ((tracedSplitLoop s b n i beg array cap).All (SplitAccess.InBounds s.length) ↔
      ¬ Clash s b i beg) ∧
    (¬ Clash s b i beg → ∃ cap', (tracedSplitLoop s b n i beg array cap).result =
      some ((cstrSplitLoop s b n i beg array).1, (cstrSplitLoop s b n i beg array).2, cap') ∧
      (cstrSplitLoop s b n i beg array).2 ≤ s.length ∧
      (0 < n ∨ array.length < cap → (cstrSplitLoop s b n i beg array).1.length < cap')) := by
  induction n generalizing i beg array cap with
  | zero =>
      have hnone : ¬ Clash s b i beg := by
        rintro (⟨j, hle, -, hj⟩ | ⟨j, k, hle, -, -, hj, -⟩)
        · have := prefix_length hj hb
          omega
        · have := prefix_length hj hb
          omega
      refine ⟨iff_of_true (all_pure _) hnone, fun _ => ⟨cap, rfl, hbeg, fun h => ?_⟩⟩
      exact h.resolve_left (Nat.lt_irrefl 0)
  | succ n ih =>
      have hroom := lt_splitCap hcap
      by_cases hmatch : b <+: s.drop i
      · have hi := prefix_length hmatch hb
        rw [cstrSplitLoop, if_pos (List.isPrefixOf_iff_prefix.mpr hmatch)]
        by_cases hle : beg ≤ i
        · have hafter := tracedSplitLoop_match (n := n) hb hmatch hle hcap
          rw [hafter.all_iff, hafter.result_eq, clash_of_match hmatch hle]
          have hroom' : (array ++ [(s.drop beg).take (i - beg)]).length <
              splitCap array.length cap := by
            rwa [List.length_append, List.length_singleton]
          obtain ⟨hall, hresult⟩ := ih (show i + 1 + n + b.length = s.length + 1 by omega)
            (show i + b.length ≤ s.length by omega) (Nat.le_of_lt hroom')
          refine ⟨hall, fun hnone => ?_⟩
          obtain ⟨cap', hres, hbeg', hcap'⟩ := hresult hnone
          exact ⟨cap', hres, hbeg', fun _ => hcap' (.inr hroom')⟩
        · have hclash : Clash s b i beg := .inl ⟨i, Nat.le_refl i, Nat.not_le.mp hle, hmatch⟩
          have hwrap := tracedSplitLoop_wrap n array cap hb hmatch (Nat.not_le.mp hle)
          exact ⟨iff_of_false hwrap (not_not.mpr hclash), fun h => absurd hclash h⟩
      · have hafter := tracedSplitLoop_skip n beg array cap hb (by omega) hmatch
        rw [cstrSplitLoop, if_neg (mt List.isPrefixOf_iff_prefix.mp hmatch), hafter.all_iff,
          hafter.result_eq, clash_of_notMatch hmatch]
        obtain ⟨hall, hresult⟩ := ih (show i + 1 + n + b.length = s.length + 1 by omega) hbeg
          (show array.length ≤ splitCap array.length cap by omega)
        refine ⟨hall, fun hnone => ?_⟩
        obtain ⟨cap', hres, hbeg', hcap'⟩ := hresult hnone
        exact ⟨cap', hres, hbeg', fun _ => hcap' (.inr (by omega))⟩

/-- The piece of the empty string goes into an array for no pieces. -/
theorem tracedSplit_nil (b : Bytes) : ¬ (tracedSplit [] b).All (SplitAccess.InBounds 0) := by
  intro hall
  have hloop : tracedSplitLoop [] b (0 - (b.length - 1)) 0 0 [] 0 = pure ([], 0, 0) := by
    rw [Nat.zero_sub, tracedSplitLoop]
  have hstore : SplitAccess.store 0 0 ∈ (tracedSplit [] b).events := by
    rw [tracedSplit, List.length_nil, hloop]
    exact List.mem_cons_of_mem _ List.mem_cons_self
  exact Nat.lt_irrefl 0 (hall _ hstore)

/-- For a separator of a length that `cstr_split` can be called with. -/
theorem tracedSplit_spec (hb : 1 ≤ b.length) (hlen : b.length ≤ max 1 s.length) :
    ((tracedSplit s b).All (SplitAccess.InBounds s.length) ↔ s ≠ [] ∧ ¬ Overlapping s b) ∧
    (s ≠ [] ∧ ¬ Overlapping s b → (tracedSplit s b).result = some (cstrSplit s b)) := by
  have hrounds : 0 + (s.length - (b.length - 1)) + b.length = s.length + 1 := by omega
  have hcap : ([] : List Bytes).length ≤ 0 := Nat.le_refl _
  obtain ⟨hall, hresult⟩ := tracedSplitLoop_all_iff hb hrounds (Nat.zero_le _) hcap
  rw [clash_start] at hall hresult
  by_cases hs : s = []
  · subst hs
    exact ⟨iff_of_false (tracedSplit_nil b) (fun h => h.1 rfl), fun h => absurd rfl h.1⟩
  have hpos := List.length_pos_iff.mpr hs
  by_cases hover : Overlapping s b
  · refine ⟨iff_of_false (fun h => ?_) (fun h => h.2 hover), fun h => absurd hover h.2⟩
    exact hall.mp (fun e he => h e (mem_bind_events.mpr (.inl he))) hover
  · obtain ⟨cap, hres, hbeg, hcap⟩ := hresult hover
    have hafter : After (SplitAccess.InBounds s.length) (tracedSplit s b)
        (pure (cstrSplit s b)) := by
      refine (after_bind (hall.mpr hover) hres).trans ?_
      refine ((newPiece_after hbeg (Nat.le_refl _)).bind_pure _).trans ?_
      exact storePiece_after (hcap (.inl (by omega))) _
    exact ⟨iff_of_true (hafter.all_iff.mpr (all_pure _)) ⟨hs, hover⟩, fun _ => hafter.result_eq⟩

/-- `cstr_split` stays inside its arrays if and only if there is something to split and no two
occurrences of the separator overlap. -/
theorem cstrSplit_inBounds_iff {s b : Bytes} (hb : 1 ≤ b.length)
    (hlen : b.length ≤ max 1 s.length) :
    (tracedSplit s b).All (SplitAccess.InBounds s.length) ↔ s ≠ [] ∧ ¬ Overlapping s b :=
  (tracedSplit_spec hb hlen).1

/-- One byte overlaps with nothing. -/
theorem not_overlapping_singleton (s : Bytes) (c : UInt8) : ¬ Overlapping s [c] := by
  rintro ⟨i, j, hij, hj, -, -⟩
  rw [List.length_singleton] at hj
  omega

theorem cstrSplit_inBounds_fields :
    (tracedSplit (ascii "a,b,c,d,") (ascii ",")).All (SplitAccess.InBounds 8) :=
  (cstrSplit_inBounds_iff (by decide) (by decide)).mpr
    ⟨by decide, not_overlapping_singleton _ 44⟩

/-- An empty field. -/
theorem cstrSplit_store_behind :
    ¬ (tracedSplit [] (ascii ",")).All (SplitAccess.InBounds 0) := by
  intro hall
  have := hall (.store 0 0) (by decide)
  revert this
  decide

end ThrSocket
