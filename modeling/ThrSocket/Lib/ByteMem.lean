import ThrSocket.Lib.CString

/-!
Blocks of bytes with checked accesses. Reading or writing outside a block is an
error; what a new block holds, and what a block grows by, is unknown. A search in a
NUL-terminated string inside a block is the search in the string, whatever is behind
the terminator.
-/

namespace ByteMem
open CString

def read (mem : Bytes) (i n : Nat) : Option Bytes :=
  if i + n ≤ mem.length then some ((mem.drop i).take n) else none

def write (mem : Bytes) (i : Nat) (bs : Bytes) : Option Bytes :=
  if i + bs.length ≤ mem.length then some (mem.take i ++ (bs ++ mem.drop (i + bs.length)))
  else none

def alloc (fresh : Nat → UInt8) (n : Nat) : Bytes := (List.range n).map fresh

/-- The old bytes are kept as far as the new block reaches. -/
def grow (fresh : Nat → UInt8) (mem : Bytes) (n : Nat) : Bytes :=
  (mem ++ (List.range (n - mem.length)).map fresh).take n

/-- `f` applied in place to the `n` bytes from position `i`, one after the other. -/
def mapLoop (f : UInt8 → UInt8) : Nat → Nat → Bytes → Option Bytes
  | 0, _, mem => some mem
  | n + 1, i, mem => do
      let c ← mem[i]?
      let mem ← write mem i [f c]
      mapLoop f n (i + 1) mem

/-- The search in a C string; `none` is a search that runs out of the block. -/
def search (needle : Bytes) : Bytes → Option (Option Nat)
  | [] => none
  | c :: cs =>
      if needle.isPrefixOf (c :: cs) then some (some 0)
      else if c = 0 then some none
      else (search needle cs).map fun r => r.map (· + 1)

variable {xs ys zs bs : Bytes} {c : UInt8} {fresh : Nat → UInt8} {n : Nat}

@[simp] theorem length_alloc : (alloc fresh n).length = n := by
  simp [alloc]

@[simp] theorem length_grow (mem : Bytes) : (grow fresh mem n).length = n := by
  simp only [grow, List.length_take, List.length_append, List.length_map, List.length_range]
  omega

theorem prefix_grow (h : xs <+: ys) (hn : xs.length ≤ n) : xs <+: grow fresh ys n :=
  List.prefix_take_iff.mpr ⟨h.trans (List.prefix_append _ _), hn⟩

/-- The block in front of, at and behind what is read. -/
theorem read_middle (xs ys zs : Bytes) :
    read (xs ++ (ys ++ zs)) xs.length ys.length = some ys := by
  have hroom : xs.length + ys.length ≤ (xs ++ (ys ++ zs)).length := by
    simp only [List.length_append]
    omega
  rw [read, if_pos hroom, List.drop_left, List.take_left]

/-- The block in front of, at and behind what is written. -/
theorem write_middle (xs ys zs : Bytes) (h : bs.length = ys.length) :
    write (xs ++ (ys ++ zs)) xs.length bs = some (xs ++ (bs ++ zs)) := by
  have hroom : xs.length + bs.length ≤ (xs ++ (ys ++ zs)).length := by
    simp only [List.length_append]
    omega
  have hdrop : (xs ++ (ys ++ zs)).drop (xs.length + bs.length) = zs := by
    rw [List.drop_append, h, Nat.add_sub_cancel_left, List.drop_left,
      List.drop_eq_nil_of_le (Nat.le_add_right _ _), List.nil_append]
  rw [write, if_pos hroom, List.take_left, hdrop]

theorem write_room {mem mem' : Bytes} {i : Nat} (h : write mem i bs = some mem') :
    i + bs.length ≤ mem.length := (Option.ite_none_right_eq_some.mp h).1

theorem length_write {mem mem' : Bytes} {i : Nat} (h : write mem i bs = some mem') :
    mem'.length = mem.length := by
  obtain ⟨hroom, heq⟩ := Option.ite_none_right_eq_some.mp h
  cases heq
  simp only [List.length_append, List.length_take, List.length_drop]
  omega

theorem write_isSome (mem : Bytes) (i : Nat) (bs : Bytes) (h : i + bs.length ≤ mem.length) :
    ∃ mem', write mem i bs = some mem' := ⟨_, if_pos h⟩

/-- What is in front of the bytes written stays. -/
theorem write_front {mem mem' : Bytes} (xs : Bytes) (h : write mem xs.length bs = some mem')
    (hxs : xs <+: mem) : xs ++ bs <+: mem' := by
  obtain ⟨t, rfl⟩ := hxs
  obtain ⟨hroom, heq⟩ := Option.ite_none_right_eq_some.mp h
  cases heq
  rw [List.take_left, ← List.append_assoc]
  exact List.prefix_append _ _

theorem write_getElem? {mem mem' : Bytes} {i : Nat} (h : write mem i [c] = some mem') :
    mem'[i]? = some c := by
  obtain ⟨hroom, heq⟩ := Option.ite_none_right_eq_some.mp h
  cases heq
  rw [List.length_singleton] at hroom
  have hlen : (mem.take i).length = i := by
    rw [List.length_take]
    omega
  rw [List.getElem?_append_right (by omega), hlen, Nat.sub_self]
  rfl

theorem mapLoop_middle (f : UInt8 → UInt8) (xs ys zs : Bytes) :
    mapLoop f ys.length xs.length (xs ++ (ys ++ zs)) = some (xs ++ (ys.map f ++ zs)) := by
  induction ys generalizing xs with
  | nil => rfl
  | cons y ys ih =>
      have hget : (xs ++ (y :: ys ++ zs))[xs.length]? = some y := by
        rw [List.getElem?_append_right (Nat.le_refl _), Nat.sub_self]
        rfl
      have hwrite : write (xs ++ (y :: ys ++ zs)) xs.length [f y] =
          some (xs ++ [f y] ++ (ys ++ zs)) := by
        rw [List.append_assoc]
        exact write_middle xs [y] (ys ++ zs) rfl
      have htail := ih (xs ++ [f y])
      rw [List.length_append, List.length_singleton] at htail
      rw [List.length_cons, mapLoop, hget, Option.bind_eq_bind, Option.bind_some, hwrite,
        Option.bind_eq_bind, Option.bind_some, htail, List.append_assoc]
      rfl

/-- A search that meets the terminator is the search in the string in front of it. -/
theorem search_terminated {needle : Bytes} (hne : needle ≠ []) (hneedle : 0 ∉ needle)
    (s t : Bytes) : search needle (s ++ 0 :: t) = some (strstr needle s) := by
  have hfits : ∀ s : Bytes, needle.isPrefixOf (s ++ 0 :: t) = needle.isPrefixOf s := by
    intro s
    rw [Bool.eq_iff_iff, List.isPrefixOf_iff_prefix, List.isPrefixOf_iff_prefix]
    constructor
    · intro hpre
      refine List.prefix_of_prefix_length_le hpre (List.prefix_append _ _) ?_
      by_contra hlong
      -- the terminator would be inside the needle
      obtain ⟨u, hu⟩ := hpre
      have hget := congrArg (·[s.length]?) hu
      simp only [List.getElem?_append_right (Nat.le_refl s.length), Nat.sub_self,
        List.getElem?_append_left (Nat.lt_of_not_le hlong), List.getElem?_cons_zero] at hget
      exact hneedle (List.mem_of_getElem? hget)
    · exact fun hpre => hpre.trans (List.prefix_append _ _)
  induction s with
  | nil =>
      have hnil : needle.isPrefixOf (0 :: t) = false := by
        rw [← List.nil_append (0 :: t), hfits []]
        cases needle with
        | nil => exact absurd rfl hne
        | cons => rfl
      rw [List.nil_append, search, hnil, strstr, if_neg hne]
      rfl
  | cons c s ih =>
      rw [List.cons_append, search, strstr, ← List.cons_append, hfits (c :: s), ih]
      split_ifs <;> rfl

end ByteMem
