import Mathlib.Data.List.Forall2
import Mathlib.Data.UInt
import ThrSocket.Cstr
import ThrSocket.Lib.ByteMem
import ThrSocket.Lib.Machine

/-!
cstr.c on raw memory: a header of two 32-bit fields, and the bytes of the block
behind it. Accesses outside the block are undefined. What a buffer shows, its first
`len - free` bytes, is what the model on byte strings says, and a NUL stands behind it.
-/

namespace ThrSocket
open ByteMem

def hlen : Nat := 8

structure CstrMem where
  len : UInt32
  free : UInt32
  buf : Bytes
deriving DecidableEq

def toupper (c : UInt8) : UInt8 := if 97 ≤ c ∧ c ≤ 122 then c - 32 else c

def cstrToupper (s : Bytes) : Bytes := s.map toupper

namespace CstrMem

def size (c : CstrMem) : Nat := hlen + c.buf.length

def used (c : CstrMem) : Nat := (c.len - c.free).toNat

def cstrCreate (fresh : Nat → UInt8) (len : Nat) : Option CstrMem := do
  let buf ← write (alloc fresh (len + 1)) len [0]
  some ⟨.ofNat len, .ofNat len, buf⟩

def cstrNew (fresh : Nat → UInt8) (c : Bytes) : Option CstrMem := do
  let s ← cstrCreate fresh c.length
  let buf ← write s.buf 0 c
  let buf ← write buf c.length [0]
  some { s with free := 0, buf := buf }

/-- The header is written before the block is moved and moves with it. -/
def cstrExtend (fresh : Nat → UInt8) (s : CstrMem) (add : Nat) : CstrMem :=
  if s.free.toNat ≥ add then s
  else
    let len := UInt32.ofNat ((s.used + add) * 2)
    { len := len, free := len - UInt32.ofNat s.used, buf := grow fresh s.buf (len.toNat + 1) }

def cstrNcat (fresh : Nat → UInt8) (s : CstrMem) (b : Bytes) : Option CstrMem := do
  let s := cstrExtend fresh s b.length
  let buf ← write s.buf s.used b
  let s := { s with free := s.free - UInt32.ofNat b.length, buf := buf }
  let buf ← write s.buf s.used [0]
  some { s with buf := buf }

def cstrClear (s : CstrMem) : Option CstrMem := do
  let buf ← write s.buf 0 [0]
  some { s with free := s.len, buf := buf }

/-- `begin` and `nlen` of `cstr_range`. -/
def rangeBegin (used b : Int) : Int :=
  if b < 0 then (if b + used < 0 then 0 else b + used) else b

def rangeLen (used b e : Int) : Int :=
  let end₁ := if e < 0 then (if e + used < 0 then 0 else e + used) else e
  let begin := rangeBegin used b
  let nlen := if begin < end₁ then end₁ - begin else 0
  if nlen ≠ 0 then
    if begin > used then 0
    else if end₁ > used then
      (if begin < used - 1 then used - 1 - begin else 0)
    else nlen
  else nlen

def rangeMove (s : CstrMem) (begin nlen : Int) : Option Bytes :=
  if nlen ≠ 0 ∧ begin ≠ 0 then (read s.buf begin.toNat nlen.toNat).bind (write s.buf 0)
  else some s.buf

/-- A length that is no int is left undefined. -/
def cstrRange (s : CstrMem) (b e : Int32) : Option CstrMem := do
  if s.used < 2 ^ 31 then
    let used : Int := s.used
    let nlen := rangeLen used b.toInt e.toInt
    let buf ← rangeMove s (rangeBegin used b.toInt) nlen
    let buf ← write buf nlen.toNat [0]
    some { s with free := s.free + UInt32.ofInt (used - nlen), buf := buf }
  else none

def cstrTolower (s : CstrMem) : Option CstrMem := do
  let buf ← mapLoop tolower s.used 0 s.buf
  some { s with buf := buf }

def cstrToupper (s : CstrMem) : Option CstrMem := do
  let buf ← mapLoop toupper s.used 0 s.buf
  some { s with buf := buf }

/-- The pointer that `cstr_ncat` returns is dropped, so the new block must not move. -/
def cstrDup (fresh : Nat → UInt8) (s : CstrMem) : Option CstrMem := do
  let used := s.used
  let ns ← cstrCreate fresh used
  let b ← read s.buf 0 used
  if ns.free.toNat ≥ used then cstrNcat fresh ns b else none

/-- The header is consistent, the block has room for all of `len` and a NUL, and the content is
`s`. A buffer just created has no NUL at its start yet. -/
structure Shows (c : CstrMem) (s : Bytes) : Prop where
  free_le : c.free.toNat ≤ c.len.toNat
  used : c.used = s.length
  room : c.len.toNat + 1 ≤ c.buf.length
  content : s <+: c.buf

def Terminated (c : CstrMem) : Prop := c.buf[c.used]? = some 0

variable {c c' : CstrMem} {s bs : Bytes} {fresh : Nat → UInt8}

theorem used_eq (h : c.free.toNat ≤ c.len.toNat) : c.used = c.len.toNat - c.free.toNat :=
  UInt32.toNat_sub_of_le _ _ (UInt32.le_iff_toNat_le.mpr h)

theorem Shows.length_le (h : Shows c s) : s.length ≤ c.len.toNat := by
  have := used_eq h.free_le
  have := h.used
  omega

theorem Shows.terminated (h : Shows c s) (ht : Terminated c) : ∃ t, c.buf = s ++ 0 :: t := by
  obtain ⟨t, heq⟩ := h.content
  rw [Terminated, h.used, ← heq, List.getElem?_append_right (Nat.le_refl _), Nat.sub_self] at ht
  cases t with
  | nil => cases ht
  | cons z t =>
      cases ht
      exact ⟨t, heq.symm⟩

theorem cstrCreate_shows (fresh : Nat → UInt8) {len : Nat} (hlen : len < 2 ^ 32) :
    ∃ c, cstrCreate fresh len = some c ∧ Shows c [] ∧ c.len.toNat = len ∧
      c.free.toNat = len := by
  obtain ⟨buf, hbuf⟩ := write_isSome (alloc fresh (len + 1)) len [0] (by simp)
  have hlength := length_write hbuf
  rw [length_alloc] at hlength
  have hmod : (UInt32.ofNat len).toNat = len := by
    rw [UInt32.toNat_ofNat']
    omega
  refine ⟨⟨.ofNat len, .ofNat len, buf⟩, by rw [cstrCreate, hbuf]; rfl, ⟨?_, ?_, ?_, ?_⟩,
    hmod, hmod⟩
  · exact Nat.le_refl _
  · simp [used]
  · rw [hmod, hlength]
  · exact List.nil_prefix

/-- A NUL written behind the content, from a block whose fields say what the content is. -/
theorem shows_of_write {len free : UInt32} {buf buf' : Bytes} (hle : free.toNat ≤ len.toNat)
    (hused : (len - free).toNat = s.length) (hroom : len.toNat + 1 ≤ buf.length)
    (hcontent : s <+: buf) (hwrite : write buf s.length [0] = some buf') :
    Shows ⟨len, free, buf'⟩ s ∧ Terminated ⟨len, free, buf'⟩ := by
  refine ⟨⟨hle, hused, ?_, ?_⟩, ?_⟩
  · rwa [length_write hwrite]
  · exact (List.prefix_append s [0]).trans (write_front s hwrite hcontent)
  · exact (congrArg (buf'[·]?) hused).trans (write_getElem? hwrite)

theorem toNat_ofNat_mod (n : Nat) : (UInt32.ofNat n).toNat = n % 2 ^ 32 := UInt32.toNat_ofNat'

theorem toNat_sub_mod (a b : UInt32) :
    (a - b).toNat = (2 ^ 32 - b.toNat + a.toNat) % 2 ^ 32 := UInt32.toNat_sub ..

/-- Taking bytes from `free` adds them to the bytes in use. -/
theorem used_sub (len free : UInt32) (add : Nat) :
    (len - (free - UInt32.ofNat add)).toNat = ((len - free).toNat + add) % 2 ^ 32 := by
  have := len.toNat_lt
  have := free.toNat_lt
  rw [toNat_sub_mod, toNat_sub_mod, toNat_sub_mod, toNat_ofNat_mod]
  omega

/-- A buffer with the content `s` and room for `total` bytes. Its `free` says no more than that. -/
structure Extended (c : CstrMem) (s : Bytes) (total : Nat) : Prop where
  used : c.used = s.length
  total_le : total ≤ c.len.toNat
  room : c.len.toNat + 1 ≤ c.buf.length
  content : s <+: c.buf

/-- Room for `add` more bytes, or a block of twice the bytes to come, in 32 bits. -/
theorem cstrExtend_cases (fresh : Nat → UInt8) (h : Shows c s) (add : Nat) :
    (s.length + add ≤ c.len.toNat ∧ cstrExtend fresh c add = c) ∨
      ∃ len : UInt32, len.toNat = (s.length + add) * 2 % 2 ^ 32 ∧ cstrExtend fresh c add =
        ⟨len, len - UInt32.ofNat s.length, grow fresh c.buf (len.toNat + 1)⟩ := by
  have hused := (used_eq h.free_le).symm.trans h.used
  have hle := h.free_le
  by_cases hfree : c.free.toNat ≥ add
  · exact .inl ⟨by omega, if_pos hfree⟩
  · refine .inr ⟨UInt32.ofNat ((s.length + add) * 2), toNat_ofNat_mod _, ?_⟩
    rw [cstrExtend, if_neg hfree, h.used]

theorem cstrExtend_used (fresh : Nat → UInt8) (h : Shows c s) (add : Nat) :
    (cstrExtend fresh c add).used = s.length := by
  rcases cstrExtend_cases fresh h add with ⟨-, heq⟩ | ⟨len, -, heq⟩
  · rw [heq, h.used]
  · have hlen := h.length_le
    have := c.len.toNat_lt
    have := len.toNat_lt
    have hsub : (len - (len - UInt32.ofNat s.length)).toNat = s.length := by
      rw [toNat_sub_mod, toNat_sub_mod, toNat_ofNat_mod]
      omega
    rw [heq]
    exact hsub

/-- The doubled length has not wrapped around where both writes behind it are inside the block. -/
theorem cstrExtend_extended (h : Shows c s) {add : Nat}
    (hbytes : s.length + add ≤ (cstrExtend fresh c add).buf.length)
    (hnul : (s.length + add) % 2 ^ 32 + 1 ≤ (cstrExtend fresh c add).buf.length) :
    Extended (cstrExtend fresh c add) s (s.length + add) := by
  have hused := cstrExtend_used fresh h add
  rcases cstrExtend_cases fresh h add with ⟨hroom, heq⟩ | ⟨len, hlen, heq⟩
  · rw [heq] at hused ⊢
    exact ⟨hused, hroom, h.room, h.content⟩
  · rw [heq] at hused hbytes hnul ⊢
    rw [length_grow] at hbytes hnul
    have := len.toNat_lt
    have htotal : s.length + add ≤ len.toNat := by omega
    exact ⟨hused, htotal, (length_grow _).ge, prefix_grow h.content (by omega)⟩

theorem cstrExtend_of_lt (h : Shows c s) {add : Nat} (hsmall : s.length + add < 2 ^ 31) :
    Extended (cstrExtend fresh c add) s (s.length + add) := by
  have hroom : s.length + add + 1 ≤ (cstrExtend fresh c add).buf.length := by
    rcases cstrExtend_cases fresh h add with ⟨hroom, heq⟩ | ⟨len, hlen, heq⟩
    · rw [heq]
      exact Nat.le_trans (Nat.succ_le_succ hroom) h.room
    · rw [heq, length_grow]
      omega
  exact cstrExtend_extended h (by omega) (by omega)

/-- The bytes are copied behind the content and a NUL behind them. -/
theorem cstrNcat_of_extended
    (h : Extended (cstrExtend fresh c bs.length) s (s.length + bs.length)) :
    ∃ c', cstrNcat fresh c bs = some c' ∧ Shows c' (s ++ bs) ∧ Terminated c' := by
  generalize heq : cstrExtend fresh c bs.length = e at h
  obtain ⟨hused, htotal, hroom, hcontent⟩ := h
  have hlt := e.len.toNat_lt
  have hnew : (e.len - (e.free - UInt32.ofNat bs.length)).toNat = (s ++ bs).length := by
    have : (e.len - e.free).toNat = s.length := hused
    rw [used_sub, this, List.length_append]
    omega
  obtain ⟨buf₁, hwrite₁⟩ := write_isSome e.buf s.length bs (by omega)
  have hprefix := write_front s hwrite₁ hcontent
  obtain ⟨buf₂, hwrite₂⟩ := write_isSome buf₁ (s ++ bs).length [0] (by
    rw [length_write hwrite₁, List.length_append, List.length_singleton]
    omega)
  refine ⟨⟨e.len, e.free - UInt32.ofNat bs.length, buf₂⟩, ?_,
    shows_of_write ?_ hnew ?_ hprefix hwrite₂⟩
  · rw [cstrNcat, heq, hused, hwrite₁]
    simp only [Option.bind_eq_bind, Option.bind_some]
    rw [used, hnew, hwrite₂]
    rfl
  · have hfree := (e.free - UInt32.ofNat bs.length).toNat_lt
    rw [toNat_sub_mod, List.length_append] at hnew
    omega
  · rwa [length_write hwrite₁]

/-- Whatever the lengths, an append that stays in the block appends the bytes. -/
theorem cstrNcat_shows (h : Shows c s) (hncat : cstrNcat fresh c bs = some c') :
    Shows c' (s ++ bs) ∧ Terminated c' := by
  obtain ⟨buf₁, hwrite₁, hrest⟩ := Option.bind_eq_some_iff.mp hncat
  obtain ⟨buf₂, hwrite₂, -⟩ := Option.bind_eq_some_iff.mp hrest
  have hused := cstrExtend_used fresh h bs.length
  have hroom₁ := write_room hwrite₁
  rw [hused] at hroom₁
  have hnew := used_sub (cstrExtend fresh c bs.length).len (cstrExtend fresh c bs.length).free
    bs.length
  rw [← used, hused] at hnew
  have hroom₂ : (s.length + bs.length) % 2 ^ 32 + 1 ≤ buf₁.length := hnew ▸ write_room hwrite₂
  rw [length_write hwrite₁] at hroom₂
  obtain ⟨c'', hncat', hshows⟩ := cstrNcat_of_extended (cstrExtend_extended h hroom₁ hroom₂)
  cases hncat.symm.trans hncat'
  exact hshows

/-- An append below 2^31 bytes is defined. -/
theorem cstrNcat_defined (fresh : Nat → UInt8) (h : Shows c s) (bs : Bytes)
    (hsmall : s.length + bs.length < 2 ^ 31) :
    ∃ c', cstrNcat fresh c bs = some c' ∧ Shows c' (s ++ bs) ∧ Terminated c' :=
  cstrNcat_of_extended (cstrExtend_of_lt h hsmall)

theorem cstrNew_shows (fresh : Nat → UInt8) (hsmall : s.length < 2 ^ 32) :
    ∃ c, cstrNew fresh s = some c ∧ Shows c s ∧ Terminated c := by
  obtain ⟨c, hcreate, hshows, hlen, -⟩ := cstrCreate_shows fresh hsmall
  obtain ⟨buf₁, hwrite₁⟩ := write_isSome c.buf 0 s (by
    have := hshows.room
    omega)
  have hprefix : s <+: buf₁ := write_front [] hwrite₁ List.nil_prefix
  obtain ⟨buf₂, hwrite₂⟩ := write_isSome buf₁ s.length [0] (by
    rw [length_write hwrite₁, List.length_singleton, ← hlen]
    exact hshows.room)
  have hused : (c.len - 0).toNat = s.length := by rw [UInt32.sub_zero, hlen]
  refine ⟨⟨c.len, 0, buf₂⟩, ?_, shows_of_write (Nat.zero_le _) hused ?_ hprefix hwrite₂⟩
  · simp [cstrNew, hcreate, hwrite₁, hwrite₂]
  · rw [length_write hwrite₁]
    exact hshows.room

theorem cstrClear_shows (h : Shows c s) :
    ∃ c', cstrClear c = some c' ∧ Shows c' [] ∧ Terminated c' := by
  obtain ⟨buf, hwrite⟩ := write_isSome c.buf 0 [0]
    (Nat.le_trans (Nat.le_add_left 1 _) h.room)
  have hused : (c.len - c.len).toNat = ([] : Bytes).length := by
    rw [UInt32.sub_self]
    rfl
  refine ⟨⟨c.len, c.len, buf⟩, by rw [cstrClear, hwrite]; rfl, ?_⟩
  exact shows_of_write (Nat.le_refl _) hused h.room List.nil_prefix hwrite

/-- What a function from bytes to bytes makes of the content, in place. -/
theorem mapLoop_shows (f : UInt8 → UInt8) (h : Shows c s) (ht : Terminated c) :
    ∃ buf, mapLoop f c.used 0 c.buf = some buf ∧ Shows { c with buf := buf } (s.map f) ∧
      Terminated { c with buf := buf } := by
  obtain ⟨t, heq⟩ := h.terminated ht
  have hloop := mapLoop_middle f [] s (0 :: t)
  have hused : c.used = (s.map f).length := by rw [h.used, List.length_map]
  refine ⟨s.map f ++ 0 :: t, ?_, ⟨h.free_le, hused, ?_, List.prefix_append _ _⟩, ?_⟩
  · rw [h.used, heq]
    exact hloop
  · have := h.room
    rwa [heq, List.length_append, ← List.length_map f, ← List.length_append] at this
  · refine (congrArg ((s.map f ++ 0 :: t)[·]?) hused).trans ?_
    rw [List.getElem?_append_right (Nat.le_refl _), Nat.sub_self]
    rfl

theorem cstrTolower_shows (h : Shows c s) (ht : Terminated c) :
    ∃ c', cstrTolower c = some c' ∧ Shows c' (ThrSocket.cstrTolower s) ∧ Terminated c' := by
  obtain ⟨buf, hloop, hshows⟩ := mapLoop_shows tolower h ht
  exact ⟨_, by rw [cstrTolower, hloop]; rfl, hshows⟩

theorem cstrToupper_shows (h : Shows c s) (ht : Terminated c) :
    ∃ c', cstrToupper c = some c' ∧ Shows c' (ThrSocket.cstrToupper s) ∧ Terminated c' := by
  obtain ⟨buf, hloop, hshows⟩ := mapLoop_shows toupper h ht
  exact ⟨_, by rw [cstrToupper, hloop]; rfl, hshows⟩

/-- The copy is made in a buffer created with its length, so it does not grow. -/
theorem cstrDup_shows (fresh : Nat → UInt8) (h : Shows c s) :
    ∃ c', cstrDup fresh c = some c' ∧ Shows c' s ∧ Terminated c' := by
  obtain ⟨t, heq⟩ := h.content
  have hlen := h.length_le
  have := c.len.toNat_lt
  obtain ⟨ns, hcreate, hns, hnslen, hnsfree⟩ := cstrCreate_shows fresh
    (show s.length < 2 ^ 32 by omega)
  have hread : read c.buf 0 s.length = some s := by
    rw [← heq]
    exact read_middle [] s t
  have hfree : ns.free.toNat ≥ s.length := Nat.le_of_eq hnsfree.symm
  have hextend : cstrExtend fresh ns s.length = ns := if_pos hfree
  have hextended : Extended (cstrExtend fresh ns s.length) [] (([] : Bytes).length + s.length) := by
    rw [hextend, List.length_nil, Nat.zero_add]
    exact ⟨hns.used, Nat.le_of_eq hnslen.symm, hns.room, hns.content⟩
  obtain ⟨c', hncat, hshows⟩ := cstrNcat_of_extended hextended
  refine ⟨c', ?_, hshows⟩
  simp only [cstrDup, h.used, hcreate, hread, Option.bind_eq_bind, Option.bind_some, if_pos hfree,
    hncat]

theorem cstrRange_content (s : Bytes) (b e : Int) :
    ThrSocket.cstrRange s b e =
      (s.drop (rangeBegin s.length b).toNat).take (rangeLen s.length b e).toNat := rfl

theorem rangeLen_spec (used : Nat) (b e : Int) :
    0 ≤ rangeBegin used b ∧ 0 ≤ rangeLen used b e ∧ rangeLen used b e ≤ used ∧
      (rangeLen used b e ≠ 0 → rangeBegin used b + rangeLen used b e ≤ used) := by
  have hbegin : 0 ≤ rangeBegin used b := by
    rw [rangeBegin]
    split_ifs <;> omega
  refine ⟨hbegin, ?_⟩
  simp only [rangeLen]
  -- of the two ends only these matter from here
  generalize rangeBegin used b = begin at hbegin ⊢
  generalize (if e < 0 then (if e + (used : Int) < 0 then 0 else e + used) else e) = end₁
  by_cases hlt : begin < end₁
  · simp only [if_pos hlt]
    split_ifs <;> omega
  · rw [if_neg hlt, if_neg (not_not.mpr rfl)]
    exact ⟨Int.le_refl 0, Int.natCast_nonneg used, fun hne => absurd rfl hne⟩

theorem length_range (s : Bytes) (b e : Int) :
    (ThrSocket.cstrRange s b e).length = (rangeLen s.length b e).toNat := by
  obtain ⟨hbegin, hlen, -, hend⟩ := rangeLen_spec s.length b e
  rw [cstrRange_content, List.length_take, List.length_drop]
  omega

/-- The range is brought to the front, where it is not there already. -/
theorem rangeMove_spec (h : s <+: c.buf) (b e : Int) :
    ∃ buf, rangeMove c (rangeBegin s.length b) (rangeLen s.length b e) = some buf ∧
      ThrSocket.cstrRange s b e <+: buf ∧ buf.length = c.buf.length := by
  obtain ⟨hbegin, hlen, -, hend⟩ := rangeLen_spec s.length b e
  obtain ⟨t, heq⟩ := h
  rw [cstrRange_content]
  by_cases hmove : rangeLen s.length b e ≠ 0 ∧ rangeBegin s.length b ≠ 0
  · have hinside := hend hmove.1
    have hread : read c.buf (rangeBegin s.length b).toNat (rangeLen s.length b e).toNat =
        some ((s.drop (rangeBegin s.length b).toNat).take (rangeLen s.length b e).toNat) := by
      rw [ByteMem.read, if_pos (by rw [← heq, List.length_append]; omega), ← heq,
        List.drop_append_of_le_length (by omega), List.take_append_of_le_length (by
          rw [List.length_drop]; omega)]
    obtain ⟨buf, hwrite⟩ := write_isSome c.buf 0
      ((s.drop (rangeBegin s.length b).toNat).take (rangeLen s.length b e).toNat) (by
        rw [List.length_take, List.length_drop, ← heq, List.length_append]
        omega)
    refine ⟨buf, ?_, write_front [] hwrite List.nil_prefix, length_write hwrite⟩
    rw [rangeMove, if_pos hmove, hread, Option.bind_some, hwrite]
  · refine ⟨c.buf, if_neg hmove, ?_, rfl⟩
    have hfront : (s.drop (rangeBegin s.length b).toNat).take (rangeLen s.length b e).toNat =
        s.take (rangeLen s.length b e).toNat := by
      rcases not_and_or.mp hmove with hnone | hzero
      · rw [not_not.mp hnone]
        rfl
      · rw [not_not.mp hzero]
        rfl
    rw [hfront]
    exact (List.take_prefix _ _).trans ⟨t, heq⟩

theorem cstrRange_shows (h : Shows c s) (hsmall : s.length < 2 ^ 31) (b e : Int32) :
    ∃ c', cstrRange c b e = some c' ∧ Shows c' (ThrSocket.cstrRange s b.toInt e.toInt) ∧
      Terminated c' := by
  obtain ⟨-, hlen, hle, -⟩ := rangeLen_spec s.length b.toInt e.toInt
  have hlength := length_range s b.toInt e.toInt
  obtain ⟨buf₁, hmove, hprefix, hbuf₁⟩ := rangeMove_spec h.content b.toInt e.toInt
  obtain ⟨buf₂, hwrite⟩ := write_isSome buf₁ (rangeLen s.length b.toInt e.toInt).toNat [0] (by
    have := h.room
    have := h.length_le
    rw [hbuf₁, List.length_singleton]
    omega)
  have hfits := h.length_le
  have hlt := c.len.toNat_lt
  have hinuse := (used_eq h.free_le).symm.trans h.used
  have hle' := h.free_le
  have hgiven : (UInt32.ofInt (s.length - rangeLen s.length b.toInt e.toInt)).toNat =
      s.length - (rangeLen s.length b.toInt e.toInt).toNat := by
    rw [UInt32.ofInt, toNat_ofNat_mod]
    omega
  have hfree : (c.free + UInt32.ofInt (s.length - rangeLen s.length b.toInt e.toInt)).toNat =
      c.free.toNat + (s.length - (rangeLen s.length b.toInt e.toInt).toNat) := by
    rw [UInt32.toNat_add, hgiven]
    omega
  have hused : (c.len - (c.free + UInt32.ofInt (s.length -
      rangeLen s.length b.toInt e.toInt))).toNat =
      (ThrSocket.cstrRange s b.toInt e.toInt).length := by
    rw [toNat_sub_mod, hfree, hlength]
    omega
  refine ⟨⟨c.len, _, buf₂⟩, ?_, shows_of_write ?_ hused ?_ hprefix (by rw [hlength, hwrite])⟩
  · simp only [cstrRange, h.used, if_pos hsmall, hmove, hwrite, Option.bind_eq_bind,
      Option.bind_some]
  · omega
  · rw [hbuf₁]
    exact h.room

end CstrMem

inductive CstrOp
  | ncat (b : Bytes)
  | clear
  | range (b e : Int32)
  | tolower
  | toupper
  | dup

structure CstrCall where
  k : Nat
  op : CstrOp
  fresh : Nat → UInt8

namespace CstrMem

def step (cs : List CstrMem) (call : CstrCall) : Option (List CstrMem × Unit) := do
  let c ← cs[call.k]?
  match call.op with
  | .ncat b => (cstrNcat call.fresh c b).map fun c => (cs.set call.k c, ())
  | .clear => (cstrClear c).map fun c => (cs.set call.k c, ())
  | .range b e => (cstrRange c b e).map fun c => (cs.set call.k c, ())
  | .tolower => (cstrTolower c).map fun c => (cs.set call.k c, ())
  | .toupper => (cstrToupper c).map fun c => (cs.set call.k c, ())
  | .dup => (cstrDup call.fresh c).map fun c => (cs ++ [c], ())

inductive ContentStep (ss : List Bytes) : CstrCall → Unit → List Bytes → Prop
  | ncat {k : Nat} {s : Bytes} (b : Bytes) (fresh : Nat → UInt8) (at_k : ss[k]? = some s) :
      ContentStep ss ⟨k, .ncat b, fresh⟩ () (ss.set k (s ++ b))
  | clear {k : Nat} {s : Bytes} (fresh : Nat → UInt8) (at_k : ss[k]? = some s) :
      ContentStep ss ⟨k, .clear, fresh⟩ () (ss.set k [])
  | range {k : Nat} {s : Bytes} (b e : Int32) (fresh : Nat → UInt8) (at_k : ss[k]? = some s) :
      ContentStep ss ⟨k, .range b e, fresh⟩ () (ss.set k (ThrSocket.cstrRange s b.toInt e.toInt))
  | tolower {k : Nat} {s : Bytes} (fresh : Nat → UInt8) (at_k : ss[k]? = some s) :
      ContentStep ss ⟨k, .tolower, fresh⟩ () (ss.set k (ThrSocket.cstrTolower s))
  | toupper {k : Nat} {s : Bytes} (fresh : Nat → UInt8) (at_k : ss[k]? = some s) :
      ContentStep ss ⟨k, .toupper, fresh⟩ () (ss.set k (ThrSocket.cstrToupper s))
  | dup {k : Nat} {s : Bytes} (fresh : Nat → UInt8) (at_k : ss[k]? = some s) :
      ContentStep ss ⟨k, .dup, fresh⟩ () (ss ++ [s])

def Below (cs : List CstrMem) (call : CstrCall) : Prop :=
  ∃ c, cs[call.k]? = some c ∧ match call.op with
    | .ncat b => c.used + b.length < 2 ^ 30
    | _ => True

instance (cs : List CstrMem) (call : CstrCall) : Decidable (Below cs call) :=
  match h : cs[call.k]? with
  | none => isFalse fun ⟨_, hc, _⟩ => by
      rw [h] at hc
      cases hc
  | some c =>
      match hop : call.op with
      | .ncat b => decidable_of_iff (c.used + b.length < 2 ^ 30) (by simp [Below, h, hop])
      | .clear | .range _ _ | .tolower | .toupper | .dup => isTrue ⟨c, h, by simp [hop]⟩

/-- The buffer holds the string: `free <= len`, the bytes in use and a NUL behind them fit in the
block, and these bytes are the string. -/
structure HoldsString (c : CstrMem) (s : Bytes) : Prop where
  free_le : c.free ≤ c.len
  fits : hlen + c.used + 1 ≤ c.size
  nul : c.buf[c.used]? = some 0
  content : c.buf.take c.used = s

structure Sound (c : CstrMem) (s : Bytes) : Prop where
  shows : Shows c s
  terminated : Terminated c
  small : s.length < 2 ^ 30

theorem Sound.holdsString (h : Sound c s) : HoldsString c s where
  free_le := UInt32.le_iff_toNat_le.mpr h.shows.free_le
  fits := by
    have := h.shows.used
    have := h.shows.length_le
    have := h.shows.room
    rw [size]
    omega
  nul := h.terminated
  content := by
    obtain ⟨t, heq⟩ := h.shows.content
    rw [h.shows.used, ← heq, List.take_left]

theorem forall₂_getElem? {α β : Type} {R : α → β → Prop} {xs : List α} {ys : List β}
    (h : List.Forall₂ R xs ys) {k : Nat} {x : α} (hx : xs[k]? = some x) :
    ∃ y, ys[k]? = some y ∧ R x y := by
  induction h generalizing k with
  | nil => cases hx
  | cons hxy htail ih =>
      cases k with
      | zero =>
          cases hx
          exact ⟨_, rfl, hxy⟩
      | succ k => exact ih hx

theorem forall₂_set {α β : Type} {R : α → β → Prop} {xs : List α} {ys : List β}
    (h : List.Forall₂ R xs ys) (k : Nat) {x : α} {y : β} (hxy : R x y) :
    List.Forall₂ R (xs.set k x) (ys.set k y) := by
  induction h generalizing k with
  | nil => exact .nil
  | cons hhead htail ih =>
      cases k with
      | zero => exact .cons hxy htail
      | succ k => exact .cons hhead (ih k)

/-- A call that stays below 2^30 bytes is defined and does to the contents what it should. -/
theorem step_sound {cs : List CstrMem} {ss : List Bytes} {call : CstrCall}
    (h : List.Forall₂ Sound cs ss) (hbelow : Below cs call) :
    ∃ cs' o ss', step cs call = some (cs', o) ∧ ContentStep ss call o ss' ∧
      List.Forall₂ Sound cs' ss' := by
  obtain ⟨k, op, fresh⟩ := call
  obtain ⟨c, hc, hop⟩ := hbelow
  obtain ⟨s, hs, hsound⟩ := forall₂_getElem? h hc
  obtain ⟨hshows, hterm, hsmall⟩ := hsound
  simp only [step, hc, Option.bind_eq_bind, Option.bind_some]
  cases op with
  | ncat b =>
      have hlt : s.length + b.length < 2 ^ 30 := hshows.used ▸ hop
      obtain ⟨c', hncat, hshows', hterm'⟩ := cstrNcat_defined fresh hshows b (by omega)
      have hsound' : Sound c' (s ++ b) := ⟨hshows', hterm', by rwa [List.length_append]⟩
      exact ⟨_, (), _, by simp only [hncat, Option.map_some], .ncat b fresh hs,
        forall₂_set h k hsound'⟩
  | clear =>
      obtain ⟨c', hclear, hshows', hterm'⟩ := cstrClear_shows hshows
      have hsound' : Sound c' [] := ⟨hshows', hterm', Nat.two_pow_pos 30⟩
      exact ⟨_, (), _, by simp only [hclear, Option.map_some], .clear fresh hs,
        forall₂_set h k hsound'⟩
  | range b e =>
      obtain ⟨c', hrange, hshows', hterm'⟩ := cstrRange_shows hshows (by omega) b e
      obtain ⟨-, -, hle, -⟩ := rangeLen_spec s.length b.toInt e.toInt
      have hsound' : Sound c' (ThrSocket.cstrRange s b.toInt e.toInt) := by
        refine ⟨hshows', hterm', ?_⟩
        rw [length_range]
        omega
      exact ⟨_, (), _, by simp only [hrange, Option.map_some], .range b e fresh hs,
        forall₂_set h k hsound'⟩
  | tolower =>
      obtain ⟨c', hlower, hshows', hterm'⟩ := cstrTolower_shows hshows hterm
      have hsound' : Sound c' (ThrSocket.cstrTolower s) :=
        ⟨hshows', hterm', (List.length_map _).trans_lt hsmall⟩
      exact ⟨_, (), _, by simp only [hlower, Option.map_some], .tolower fresh hs,
        forall₂_set h k hsound'⟩
  | toupper =>
      obtain ⟨c', hupper, hshows', hterm'⟩ := cstrToupper_shows hshows hterm
      have hsound' : Sound c' (ThrSocket.cstrToupper s) :=
        ⟨hshows', hterm', (List.length_map _).trans_lt hsmall⟩
      exact ⟨_, (), _, by simp only [hupper, Option.map_some], .toupper fresh hs,
        forall₂_set h k hsound'⟩
  | dup =>
      obtain ⟨c', hdup, hshows', hterm'⟩ := cstrDup_shows fresh hshows
      have hsound' : Sound c' s := ⟨hshows', hterm', hsmall⟩
      exact ⟨_, (), _, by simp only [hdup, Option.map_some], .dup fresh hs,
        List.rel_append h (.cons hsound' .nil)⟩

/-- Every string that starts with `cstr_new` and goes through any calls is kept in its buffer. -/
theorem cstr_representation {s₀ : Bytes} (hsmall : s₀.length < 2 ^ 30) (fresh₀ : Nat → UInt8) :
    ∃ c₀, cstrNew fresh₀ s₀ = some c₀ ∧ ∀ calls, Machine.Along step Below [c₀] calls →
      ∃ cs os ss, Machine.run step [c₀] calls = some (cs, os) ∧
        Machine.SpecRun ContentStep [s₀] calls os ss ∧ List.Forall₂ HoldsString cs ss := by
  obtain ⟨c₀, hnew, hshows, hterm⟩ := cstrNew_shows fresh₀ (s := s₀) (by omega)
  refine ⟨c₀, hnew, fun calls hbelow => ?_⟩
  have hsound : List.Forall₂ Sound [c₀] [s₀] := .cons ⟨hshows, hterm, hsmall⟩ .nil
  obtain ⟨cs, os, ss, hrun, hspec, hsound'⟩ :=
    Machine.run_total_refines ContentStep (fun h hbelow => step_sound h hbelow) hsound hbelow
  exact ⟨cs, os, ss, hrun, hspec, hsound'.imp fun _ _ h => h.holdsString⟩

def growingCalls : List CstrCall :=
  [⟨0, .ncat (ascii "CDE"), fun _ => 7⟩, ⟨0, .dup, fun _ => 7⟩, ⟨0, .range 1 (-1), fun _ => 7⟩,
    ⟨1, .ncat (ascii "f"), fun _ => 7⟩, ⟨1, .tolower, fun _ => 7⟩, ⟨0, .clear, fun _ => 7⟩]

theorem cstr_representation_growing :
    ∃ c₀, cstrNew (fun _ => 7) (ascii "ab") = some c₀ ∧
      ∃ cs os ss, Machine.run step [c₀] growingCalls = some (cs, os) ∧
        Machine.SpecRun ContentStep [ascii "ab"] growingCalls os ss ∧
        List.Forall₂ HoldsString cs ss := by
  obtain ⟨c₀, hnew, hcalls⟩ := cstr_representation
    (show (ascii "ab").length < 2 ^ 30 by decide) fun _ => 7
  refine ⟨c₀, hnew, hcalls growingCalls ?_⟩
  have heq : cstrNew (fun _ => 7) (ascii "ab") = some ⟨2, 0, [97, 98, 0]⟩ := by decide
  cases hnew.symm.trans heq
  decide

end CstrMem

end ThrSocket
