import ThrSocket.Lib.ByteMem
import ThrSocket.Lib.Machine
import ThrSocket.RequestFormat

/-!
The request parser on the memory behind `io->rbuf`. Every byte is read from that
memory, differences of pointers and sizes must not wrap around, and the slots of
`io->argv` are written one by one: anything outside is undefined. On a memory that
begins with the buffer and a NUL it is the parser on byte strings.
-/

namespace ThrSocket
open ByteMem CString Decimal

structure ReqMem where
  nbulk : Nat := 0
  bulkLen : Nat := 0
  reqtype : ReqType := .normal
  argv : Option (List (Option Bytes)) := none
  argc : Nat := 0
deriving DecidableEq

def sizeSub (a b : Nat) : Option Nat := if b ≤ a then some (a - b) else none

/-- The digit loop of `str2ll` from position `i` to position `stop`, which `ptr != p + len`
reaches only from below. -/
def str2llScan (stop v i : Nat) : Bytes → Option (Option Nat)
  | [] => if i = stop then some (some v) else none
  | c :: ptr =>
      if i = stop then some (some v)
      else if isDigit c = false then some none
      else
        let v10 := v * 10 % 2 ^ 64
        let d := digitVal c
        if v10 > ullongMax - d then some none
        else str2llScan stop (v10 + d) (i + 1) ptr

def str2llMem (mem : Bytes) (p len : Nat) : Option (Option Int) := do
  let c ← mem[p]?
  if c = 45 then
    let v ← str2llScan (p + len) 0 (p + 1) (mem.drop (p + 1))
    some (v.bind fun v => if v > 2 ^ 63 then none else some (-(v : Int)))
  else
    let v ← str2llScan (p + len) 0 p (mem.drop p)
    some (v.bind fun v => if v > llongMax then none else some (v : Int))

def lineMissingMem (nread : Nat) : Verdict :=
  if nread > maxCommandLenLimit then .protocolError msgLimit else .needMore

def bulkCountLineMem (mem : Bytes) (nread : Nat) : Option (Except Verdict (Nat × Nat)) := do
  let c ← mem[0]?
  if c ≠ 42 then some (.error (.protocolError msgUnknownProtocol))
  else
    match ← search crlf mem with
    | none => some (.error (lineMissingMem nread))
    | some ptr =>
        let n ← sizeSub ptr 1
        match ← str2llMem mem 1 n with
        | none => some (.error (.protocolError msgNumberOfBulk))
        | some len =>
            if len > 1024 ∨ len ≤ 0 then some (.error (.protocolError msgNumberOfBulk))
            else some (.ok (len.toNat, ptr + 2))

def bulkLenLineMem (mem : Bytes) (nread pos : Nat) : Option (Except Verdict (Nat × Nat)) := do
  match ← search crlf (mem.drop pos) with
  | none => some (.error (lineMissingMem nread))
  | some ptr =>
      let c ← mem[pos]?
      if c ≠ 36 then some (.error (.protocolError msgUnknowProtocol))
      else
        let n ← sizeSub ptr 1
        match ← str2llMem mem (pos + 1) n with
        | none => some (.error (.protocolError msgBulkLength))
        | some len =>
            if len > maxCommandLenLimit ∨ len ≤ 0 then some (.error (.protocolError msgBulkLength))
            else some (.ok (len.toNat, pos + ptr + 2))

def ReqMem.pushArg (r : ReqMem) (s : Bytes) : Option ReqMem := do
  let slots ← r.argv
  if r.argc < slots.length then
    some { r with argv := some (slots.set r.argc (some s)), argc := r.argc + 1 }
  else none

/-- `while(io->nbulk)`, with the position in which it is left. -/
def bulkLoopMem (mem : Bytes) (nread : Nat) :
    Nat → ReqMem → Nat → Option (Verdict × ReqMem × Nat)
  | 0, r, pos => some (.complete, { r with nbulk := 0 }, pos)
  | nbulk + 1, r, pos => do
      let r := { r with nbulk := nbulk + 1 }
      match ← (if r.bulkLen = 0 then bulkLenLineMem mem nread pos
          else some (.ok (r.bulkLen, pos))) with
      | .error v => some (v, r, pos)
      | .ok (bulkLen, pos) =>
          let r := { r with bulkLen := bulkLen }
          let left ← sizeSub nread pos
          if left < bulkLen + 2 then some (.needMore, r, pos)
          else
            let s ← read mem pos bulkLen
            let r ← r.pushArg s
            bulkLoopMem mem nread nbulk { r with bulkLen := 0 } (pos + bulkLen + 2)

def loopTrim (x : Verdict × ReqMem × Nat) : Verdict × ReqMem × Option Nat :=
  (x.1, x.2.1, if x.1 = .needMore then some (x.2.2 + x.2.1.bulkLen) else none)

/-- `jmalloc` leaves the slots unset. -/
def ReqMem.allocArgv (r : ReqMem) (nbulk : Nat) : ReqMem :=
  { r with nbulk := nbulk, argc := 0, argv := some (List.replicate nbulk none) }

def parseMultiblukMem (mem : Bytes) (nread : Nat) (r : ReqMem) :
    Option (Verdict × ReqMem × Option Nat) := do
  if r.nbulk = 0 then
    match ← bulkCountLineMem mem nread with
    | .error v => some (v, r, none)
    | .ok (n, pos) => (bulkLoopMem mem nread n (r.allocArgv n) pos).map loopTrim
  else (bulkLoopMem mem nread r.nbulk r 0).map loopTrim

def parseInlineMem (mem : Bytes) (nread : Nat) (r : ReqMem) :
    Option (Verdict × ReqMem × Option Nat) := do
  if nread > maxCommandLenLimit then some (.protocolError msgLimit, r, none)
  else
    match ← search crlf mem with
    | none => some (.needMore, r, none)
    | some _ =>
        let s ← read mem 0 nread
        let argv := cstrSplit s (ascii " ")
        let last ← argv.getLast?
        let argv := argv.dropLast ++ [cstrRange last 0 (-2)]
        some (.complete, { r with argv := some (argv.map some), argc := argv.length }, none)

/-- `io->reqtype || io->rbuf[0] == '*'`: the byte is read if the type does not decide. -/
def parseCommandMem (mem : Bytes) (nread : Nat) (r : ReqMem) :
    Option (Verdict × ReqMem × Option Nat) :=
  if nread = 0 then some (.noInput, r, none)
  else if r.reqtype = .mbulk then parseMultiblukMem mem nread { r with reqtype := .mbulk }
  else do
    let c ← mem[0]?
    if c = 42 then parseMultiblukMem mem nread { r with reqtype := .mbulk }
    else parseInlineMem mem nread r

variable {s t : Bytes}

theorem getElem?_terminated {p : Nat} (hp : p ≤ s.length) :
    (s ++ 0 :: t)[p]? = some (s.getD p 0) := by
  rcases Nat.lt_or_eq_of_le hp with hlt | rfl
  · rw [List.getElem?_append_left hlt, List.getD_eq_getElem?_getD, List.getElem?_eq_getElem hlt]
    rfl
  · rw [List.getElem?_append_right (Nat.le_refl _), Nat.sub_self, List.getD_eq_getElem?_getD,
      List.getElem?_eq_none (Nat.le_refl _)]
    rfl

theorem drop_terminated {p : Nat} (hp : p ≤ s.length) :
    (s ++ 0 :: t).drop p = s.drop p ++ 0 :: t := List.drop_append_of_le_length hp

theorem search_crlf (s t : Bytes) : search crlf (s ++ 0 :: t) = some (strstr crlf s) :=
  search_terminated (by decide) (by decide) s t

/-- The loop over digits that end in front of `w`. -/
theorem str2llScan_eq {u : Bytes} {len : Nat} (hlen : len ≤ u.length) (v i : Nat) (w : Bytes) :
    str2llScan (i + len) v i (u ++ w) = some (str2llLoop v (u.take len)) := by
  induction u generalizing len v i with
  | nil =>
      obtain rfl : len = 0 := Nat.le_zero.mp hlen
      cases w with
      | nil => exact if_pos rfl
      | cons => exact if_pos rfl
  | cons c u ih =>
      cases len with
      | zero => exact if_pos rfl
      | succ len =>
          have hnext := ih (Nat.le_of_succ_le_succ hlen) (v * 10 % 2 ^ 64 + digitVal c) (i + 1)
          rw [Nat.add_assoc, Nat.add_comm 1 len] at hnext
          rw [List.cons_append, str2llScan, if_neg (by omega), List.take_succ_cons, str2llLoop]
          dsimp only
          rw [hnext]
          split_ifs <;> rfl

/-- A loop that starts behind its end stops at the terminator. -/
theorem str2llScan_past {stop i : Nat} (h : stop < i) (v : Nat) (u : Bytes) :
    str2llScan stop v i (u ++ 0 :: t) = some none := by
  induction u generalizing v i with
  | nil => exact (if_neg (by omega)).trans (if_pos (by decide))
  | cons c u ih =>
      rw [List.cons_append, str2llScan, if_neg (by omega)]
      dsimp only
      rw [ih (by omega)]
      split_ifs <;> rfl

theorem str2llMem_eq {p len : Nat} (h : p + len ≤ s.length) :
    str2llMem (s ++ 0 :: t) p len = some (str2ll (s.drop p) len) := by
  have hhead : (s.drop p).head? = some 45 ↔ s.getD p 0 = 45 := by
    rw [List.head?_drop, List.getD_eq_getElem?_getD]
    cases s[p]? with
    | none => decide
    | some c => simp
  rw [str2llMem, getElem?_terminated (by omega), Option.bind_eq_bind, Option.bind_some, str2ll]
  by_cases hsign : s.getD p 0 = 45
  · rw [if_pos hsign, if_pos (hhead.mpr hsign)]
    have hlt : p < s.length := by
      by_contra hge
      rw [List.getD_eq_getElem?_getD, List.getElem?_eq_none (by omega)] at hsign
      exact absurd hsign (by decide)
    rw [drop_terminated (by omega)]
    cases len with
    | zero =>
        rw [str2llScan_past (by omega), if_pos rfl]
        rfl
    | succ len =>
        rw [if_neg (Nat.succ_ne_zero len), Nat.add_comm len 1, ← Nat.add_assoc,
          str2llScan_eq (by rw [List.length_drop]; omega), Nat.add_sub_cancel_left, List.drop_drop]
        cases str2llLoop 0 ((s.drop (p + 1)).take len) <;> rfl
  · rw [if_neg hsign, if_neg (mt hhead.mp hsign), drop_terminated (by omega),
      str2llScan_eq (by rw [List.length_drop]; omega)]
    cases str2llLoop 0 ((s.drop p).take len) <;> rfl

theorem bulkCountLineMem_eq (s t : Bytes) :
    bulkCountLineMem (s ++ 0 :: t) s.length = some (bulkCountLine s) := by
  simp only [bulkCountLineMem, getElem?_terminated (t := t) (Nat.zero_le s.length), search_crlf,
    Option.bind_eq_bind, Option.bind_some, bulkCountLine]
  by_cases hstar : s.getD 0 0 ≠ 42
  · rw [if_pos hstar, if_pos hstar]
  · rw [if_neg hstar, if_neg hstar]
    cases hptr : strstr crlf s with
    | none => rfl
    | some ptr =>
        obtain ⟨hpos, -⟩ := strstr_line_split (by decide) (by decide) (not_not.mp hstar) hptr
        have hroom := strstr_le hptr
        rw [crlf_length] at hroom
        have hsize : sizeSub ptr 1 = some (ptr - 1) := if_pos (by omega)
        have hnum := str2llMem_eq (t := t) (show 1 + (ptr - 1) ≤ s.length by omega)
        simp only [hsize, hnum, Option.bind_some]
        cases str2ll (s.drop 1) (ptr - 1) with
        | none => rfl
        | some len =>
            dsimp only
            split_ifs <;> rfl

theorem bulkLenLineMem_eq {pos : Nat} (hpos : pos ≤ s.length) (t : Bytes) :
    bulkLenLineMem (s ++ 0 :: t) s.length pos = some (bulkLenLine s pos) := by
  simp only [bulkLenLineMem, getElem?_terminated (t := t) hpos, drop_terminated hpos, search_crlf,
    Option.bind_eq_bind, Option.bind_some, bulkLenLine]
  cases hptr : strstr crlf (s.drop pos) with
  | none => rfl
  | some ptr =>
      by_cases hdollar : s.getD pos 0 ≠ 36
      · simp only [if_pos hdollar]
      · have hfirst : (s.drop pos).getD 0 0 = 36 := by
          simpa [List.getD_eq_getElem?_getD] using hdollar
        obtain ⟨hline, -⟩ := strstr_line_split (by decide) (by decide) hfirst hptr
        have hroom := strstr_le hptr
        rw [crlf_length, List.length_drop] at hroom
        have hsize : sizeSub ptr 1 = some (ptr - 1) := if_pos (by omega)
        have hnum := str2llMem_eq (t := t) (show pos + 1 + (ptr - 1) ≤ s.length by omega)
        simp only [if_neg hdollar, hsize, hnum, Option.bind_some]
        cases str2ll (s.drop (pos + 1)) (ptr - 1) with
        | none => rfl
        | some len =>
            dsimp only
            split_ifs <;> rfl

theorem bulkCountLine_pos {n pos : Nat} (h : bulkCountLine s = .ok (n, pos)) :
    pos ≤ s.length := by
  obtain ⟨ds, rest, hs, -, hpos, -⟩ := bulkCountLine_ok h
  have hlen := congrArg List.length hs
  simp only [List.length_cons, List.length_append, crlf_length] at hlen
  omega

theorem bulkLenLine_pos {pos len pos' : Nat} (h : bulkLenLine s pos = .ok (len, pos')) :
    pos' ≤ s.length ∧ len ≤ maxCommandLenLimit := by
  obtain ⟨ds, rest, hs, -, hpos, -, -, hlimit⟩ := bulkLenLine_ok h
  have hlen := congrArg List.length hs
  simp only [List.length_drop, List.length_cons, List.length_append, crlf_length] at hlen
  exact ⟨by omega, hlimit⟩

theorem read_terminated {p n : Nat} (h : p + n ≤ s.length) :
    read (s ++ 0 :: t) p n = some ((s.drop p).take n) := by
  have hroom : p + n ≤ (s ++ 0 :: t).length := by
    rw [List.length_append]
    omega
  have hfits : n ≤ (s.drop p).length := by
    rw [List.length_drop]
    omega
  rw [ByteMem.read, if_pos hroom, drop_terminated (by omega), List.take_append_of_le_length hfits]

def Argv.slots (a : Argv) : List (Option Bytes) :=
  a.objs.map some ++ List.replicate (a.cap - a.objs.length) none

def Req.toMem (r : Req) : ReqMem :=
  { nbulk := r.nbulk
    bulkLen := r.bulkLen
    reqtype := r.reqtype
    argv := r.argv.map Argv.slots
    argc := r.argc }

/-- The array has a slot for every bulk still to come, and the bulk announced is not too long. -/
structure Req.Balanced (r : Req) : Prop where
  unallocated : r.argv = none → r.nbulk = 0
  slots : ∀ a, r.argv = some a → a.objs.length + r.nbulk = a.cap
  bulkLen : r.bulkLen ≤ maxCommandLenLimit
  normal : r.reqtype = .normal → r.nbulk = 0

theorem Argv.slots_push {a : Argv} (h : a.objs.length < a.cap) (p : Bytes) :
    (a.push p).slots = a.slots.set a.objs.length (some p) := by
  obtain ⟨k, hk⟩ : ∃ k, a.cap - a.objs.length = k + 1 := ⟨a.cap - a.objs.length - 1, by omega⟩
  have hleft : a.cap - (a.objs ++ [p]).length = k := by
    rw [List.length_append, List.length_singleton]
    omega
  simp only [Argv.push, Argv.slots]
  rw [hleft, hk, List.set_append_right _ _ (by simp), List.length_map, Nat.sub_self,
    List.replicate_succ, List.set_cons_zero, List.map_append, List.append_assoc]
  rfl

theorem Argv.length_slots {a : Argv} (h : a.objs.length ≤ a.cap) : a.slots.length = a.cap := by
  rw [Argv.slots, List.length_append, List.length_map, List.length_replicate]
  omega

theorem pushArg_toMem {r : Req} {a : Argv} (hargv : r.argv = some a)
    (h : a.objs.length < a.cap) (p : Bytes) :
    r.toMem.pushArg p = some { r with argv := some (a.push p) }.toMem := by
  have hargc : r.argc = a.objs.length := by
    rw [Req.argc, hargv]
  have hroom : a.objs.length < a.slots.length := by
    rwa [Argv.length_slots (Nat.le_of_lt h)]
  have hargc' : ({ r with argv := some (a.push p) } : Req).argc = a.objs.length + 1 :=
    List.length_append
  simp only [ReqMem.pushArg, Req.toMem, hargv, Option.map_some, Option.bind_eq_bind,
    Option.bind_some, hargc, if_pos hroom, hargc', Argv.slots_push h]

/-- The loop is left inside the buffer, with a slot for every bulk still to come. -/
structure LoopExit.Inside (s : Bytes) (x : LoopExit) : Prop where
  pos : x.pos ≤ s.length
  bulkLen : x.bulkLen ≤ maxCommandLenLimit
  slots : ∃ a, x.argv = some a ∧ a.objs.length + x.nbulk = a.cap

/-- The loop on memory does what the loop on the buffer does. -/
theorem bulkLoopMem_eq {n : Nat} {r : Req} {a : Argv} {pos : Nat} (hargv : r.argv = some a)
    (hslots : a.objs.length + n = a.cap) (hpos : pos ≤ s.length)
    (hbulk : r.bulkLen ≤ maxCommandLenLimit) :
    ∃ x, bulkLoop s n r.bulkLen pos r.argv = x ∧ x.Inside s ∧
      ∀ t, bulkLoopMem (s ++ 0 :: t) s.length n r.toMem pos =
        some (x.verdict,
          { r with nbulk := x.nbulk, bulkLen := x.bulkLen, argv := x.argv }.toMem, x.pos) := by
  induction n generalizing r a pos with
  | zero => exact ⟨_, rfl, ⟨hpos, hbulk, a, hargv, hslots⟩, fun _ => rfl⟩
  | succ n ih =>
      have hline : ∀ t, (if r.toMem.bulkLen = 0 then bulkLenLineMem (s ++ 0 :: t) s.length pos
          else some (.ok (r.toMem.bulkLen, pos))) =
          some (if r.bulkLen = 0 then bulkLenLine s pos else .ok (r.bulkLen, pos)) := by
        intro t
        rw [bulkLenLineMem_eq hpos]
        exact (apply_ite some _ _ _).symm
      have hinside : ∀ {len pos'}, (if r.bulkLen = 0 then bulkLenLine s pos
          else .ok (r.bulkLen, pos)) = .ok (len, pos') →
            pos' ≤ s.length ∧ len ≤ maxCommandLenLimit := by
        intro len pos' h
        split at h
        · exact bulkLenLine_pos h
        · cases h
          exact ⟨hpos, hbulk⟩
      rw [bulkLoop]
      simp only [bulkLoopMem, hline, Option.bind_eq_bind, Option.bind_some]
      generalize (if r.bulkLen = 0 then bulkLenLine s pos else .ok (r.bulkLen, pos)) = line
        at hinside
      cases line with
      | error v => exact ⟨_, rfl, ⟨hpos, hbulk, a, hargv, hslots⟩, fun _ => rfl⟩
      | ok found =>
          obtain ⟨len, pos'⟩ := found
          obtain ⟨hpos', hlen⟩ := hinside rfl
          have hleft : sizeSub s.length pos' = some (s.length - pos') := if_pos hpos'
          simp only [hleft, Option.bind_some]
          by_cases hshort : s.length - pos' < len + 2
          · simp only [if_pos hshort]
            exact ⟨_, rfl, ⟨hpos', hlen, a, hargv, hslots⟩, fun _ => rfl⟩
          · let p := (s.drop pos').take len
            have hpush := pushArg_toMem (r := { r with nbulk := n + 1, bulkLen := len }) hargv
              (by omega) p
            have hslots' : (a.push p).objs.length + n = (a.push p).cap := by
              simp only [Argv.push, List.length_append, List.length_singleton]
              omega
            obtain ⟨x, hx, hxinside, hrun⟩ := ih
              (r := { r with nbulk := n + 1, bulkLen := 0, argv := some (a.push p) })
              rfl hslots' (show pos' + len + 2 ≤ s.length by omega) (Nat.zero_le _)
            refine ⟨x, ?_, hxinside, fun t => ?_⟩
            · rw [if_neg hshort, hargv]
              exact hx
            · have hread := read_terminated (s := s) (t := t) (p := pos') (n := len) (by omega)
              rw [if_neg hshort, hread, Option.bind_some]
              refine (congrArg (fun m => Option.bind m _) hpush).trans ?_
              exact hrun t

/-- What is left of the buffer: all of it, or the range from a position of the parser. -/
def trimmed (s : Bytes) : Option Nat → Bytes
  | none => s
  | some n => cstrRange s n (-1)

/-- A call on the memory behind the buffer ends as the call on the buffer does, whatever is behind
the NUL. -/
structure ParsedMem (s : Bytes) (call : Bytes → Option (Verdict × ReqMem × Option Nat))
    (p : Verdict × Req × Bytes) (trim : Option Nat) : Prop where
  balanced : p.2.1.Balanced
  call_eq : ∀ t, call (s ++ 0 :: t) = some (p.1, p.2.1.toMem, trim)
  trim_le : ∀ n, trim = some n → n ≤ s.length + maxCommandLenLimit
  left : p.2.2 = trimmed s trim

/-- A call that leaves the buffer alone. -/
theorem ParsedMem.kept {call : Bytes → Option (Verdict × ReqMem × Option Nat)}
    {p : Verdict × Req × Bytes} (balanced : p.2.1.Balanced)
    (call_eq : ∀ t, call (s ++ 0 :: t) = some (p.1, p.2.1.toMem, none)) (left : p.2.2 = s) :
    ParsedMem s call p none where
  balanced := balanced
  call_eq := call_eq
  trim_le := by
    intro n hn
    cases hn
  left := left

variable {r : Req}

def Req.allocArgv (r : Req) (n : Nat) : Req := { r with nbulk := n, argv := some ⟨n, []⟩ }

/-- The exits of the loop, entered with a slot for every bulk. -/
theorem loop_parsed {n pos : Nat} {a : Argv} (hargv : r.argv = some a)
    (hslots : a.objs.length + n = a.cap) (hpos : pos ≤ s.length)
    (hbulk : r.bulkLen ≤ maxCommandLenLimit) (htype : r.reqtype = .mbulk) :
    ∃ trim, ParsedMem s
      (fun mem => (bulkLoopMem mem s.length n r.toMem pos).map loopTrim)
      ((bulkLoop s n r.bulkLen pos r.argv).finish r s) trim := by
  obtain ⟨x, hx, ⟨hxpos, hxbulk, a', hxargv, hxslots⟩, hrun⟩ :=
    bulkLoopMem_eq hargv hslots hpos hbulk
  rw [hx]
  refine ⟨if x.verdict = .needMore then some (x.pos + x.bulkLen) else none, ⟨?_, ?_, hxbulk, ?_⟩,
    fun t => ?_, ?_, ?_⟩
  · intro hnone
    cases hxargv.symm.trans hnone
  · intro a'' h
    cases hxargv.symm.trans h
    exact hxslots
  · intro hnormal
    cases htype.symm.trans hnormal
  · simp only [hrun t, Option.map_some]
    rfl
  · intro k hk
    split at hk
    · cases hk
      omega
    · cases hk
  · simp only [LoopExit.finish]
    split <;> rfl

theorem parseMultibluk_parsed (h : r.Balanced) (htype : r.reqtype = .mbulk) (s : Bytes) :
    ∃ trim, ParsedMem s (fun mem => parseMultiblukMem mem s.length r.toMem)
      (parseMultibluk r s) trim := by
  rw [parseMultibluk]
  by_cases hnew : r.nbulk = 0
  · have hcall : ∀ t, parseMultiblukMem (s ++ 0 :: t) s.length r.toMem =
        match bulkCountLine s with
        | .error v => some (v, r.toMem, none)
        | .ok (n, pos) => (bulkLoopMem (s ++ 0 :: t) s.length n (r.toMem.allocArgv n) pos).map
            loopTrim := by
      intro t
      rw [parseMultiblukMem, if_pos (show r.toMem.nbulk = 0 from hnew), bulkCountLineMem_eq]
      rfl
    rw [if_pos hnew]
    cases hline : bulkCountLine s with
    | error v => exact ⟨none, .kept h (fun t => by simp only [hcall t, hline]) rfl⟩
    | ok found =>
        obtain ⟨n, pos⟩ := found
        have hargv : (r.allocArgv n).argv = some ⟨n, []⟩ := rfl
        obtain ⟨trim, hparsed⟩ := loop_parsed hargv (Nat.zero_add n) (bulkCountLine_pos hline)
          h.bulkLen htype
        refine ⟨trim, hparsed.balanced, fun t => ?_, hparsed.trim_le, hparsed.left⟩
        simp only [hcall t, hline]
        exact hparsed.call_eq t
  · rw [if_neg hnew]
    cases hargv : r.argv with
    | none => exact absurd (h.unallocated hargv) hnew
    | some a =>
        obtain ⟨trim, hparsed⟩ := loop_parsed hargv (h.slots a hargv) (Nat.zero_le s.length)
          h.bulkLen htype
        rw [hargv] at hparsed
        refine ⟨trim, hparsed.balanced, fun t => ?_, hparsed.trim_le, hparsed.left⟩
        simp only [parseMultiblukMem, if_neg (show ¬ r.toMem.nbulk = 0 from hnew)]
        exact hparsed.call_eq t

theorem parseInline_parsed (h : r.Balanced) (htype : r.reqtype = .normal) (s : Bytes) :
    ∃ trim, ParsedMem s (fun mem => parseInlineMem mem s.length r.toMem)
      (parseInline r s) trim := by
  rw [parseInline]
  by_cases hlimit : s.length > maxCommandLenLimit
  · rw [if_pos hlimit]
    exact ⟨none, .kept h (fun t => if_pos hlimit) rfl⟩
  · rw [if_neg hlimit]
    cases hend : strstr crlf s with
    | none =>
        refine ⟨none, .kept h (fun t => ?_) rfl⟩
        simp only [parseInlineMem, if_neg hlimit, search_crlf, hend, Option.bind_eq_bind,
          Option.bind_some]
    | some ptr =>
        obtain ⟨last, hlast⟩ : ∃ last, (cstrSplit s (ascii " ")).getLast? = some last :=
          ⟨_, List.getLast?_concat⟩
        refine ⟨none, .kept ⟨fun hnone => ?_, fun a ha => ?_, h.bulkLen, fun _ => h.normal htype⟩
          (fun t => ?_) rfl⟩
        · cases hnone
        · cases ha
          simp only [h.normal htype, Nat.add_zero]
        · have hread := read_terminated (s := s) (t := t) (p := 0) (n := s.length) (by omega)
          simp only [parseInlineMem, if_neg hlimit, search_crlf, hend, hread, List.drop_zero,
            List.take_length, hlast, Option.bind_eq_bind, Option.bind_some]
          simp only [Req.toMem, Req.argc, Argv.slots, Option.map_some, Option.toList_some,
            Nat.sub_self, List.replicate_zero, List.append_nil]

/-- A call on the memory of a NUL-terminated buffer. -/
theorem parseCommand_parsed (h : r.Balanced) (s : Bytes) :
    ∃ trim, ParsedMem s (fun mem => parseCommandMem mem s.length r.toMem)
      (parseCommand r s) trim := by
  rw [parseCommand]
  by_cases hempty : s.length = 0
  · rw [if_pos hempty]
    exact ⟨none, .kept h (fun t => if_pos hempty) rfl⟩
  · have hcall : ∀ t, parseCommandMem (s ++ 0 :: t) s.length r.toMem =
        if r.reqtype = .mbulk ∨ s.getD 0 0 = 42 then
          parseMultiblukMem (s ++ 0 :: t) s.length { r with reqtype := .mbulk }.toMem
        else parseInlineMem (s ++ 0 :: t) s.length r.toMem := by
      intro t
      rw [parseCommandMem, if_neg hempty, getElem?_terminated (Nat.zero_le _), Option.bind_eq_bind,
        Option.bind_some]
      by_cases htype : r.reqtype = .mbulk
      · rw [if_pos (show r.toMem.reqtype = .mbulk from htype), if_pos (.inl htype)]
        rfl
      · rw [if_neg (show ¬ r.toMem.reqtype = .mbulk from htype)]
        simp only [htype, false_or]
        rfl
    rw [if_neg hempty]
    by_cases hmbulk : r.reqtype = .mbulk ∨ s.getD 0 0 = 42
    · have hbalanced : ({ r with reqtype := .mbulk } : Req).Balanced :=
        ⟨h.unallocated, h.slots, h.bulkLen, fun htype => by cases htype⟩
      obtain ⟨trim, hparsed⟩ := parseMultibluk_parsed hbalanced rfl s
      rw [if_pos hmbulk]
      refine ⟨trim, hparsed.balanced, fun t => ?_, hparsed.trim_le, hparsed.left⟩
      simp only [hcall t, if_pos hmbulk]
      exact hparsed.call_eq t
    · have htype : r.reqtype = .normal := by
        cases hr : r.reqtype with
        | normal => rfl
        | mbulk => exact absurd (.inl hr) hmbulk
      obtain ⟨trim, hparsed⟩ := parseInline_parsed h htype s
      rw [if_neg hmbulk]
      refine ⟨trim, hparsed.balanced, fun t => ?_, hparsed.trim_le, hparsed.left⟩
      simp only [hcall t, if_neg hmbulk]
      exact hparsed.call_eq t

structure ParserState where
  req : ReqMem := {}
  rbuf : Bytes := []

/-- Bytes that arrive, and whether the reply to an error, if there is one, ends in `cio_clear`. -/
structure ParserCall where
  chunk : Bytes
  cleared : Bool

/-- `cstr_range(io->rbuf, pos + io->bulk_len, -1)`: the position becomes an int. -/
def trimRbuf (rbuf : Bytes) : Option Nat → Bytes
  | none => rbuf
  | some n => cstrRange rbuf (Int32.ofNat n).toInt (-1)

/-- The memory of the parser is the buffer and its NUL, and nothing behind. -/
def ParserState.step (s : ParserState) (call : ParserCall) : Option (ParserState × Int) := do
  let rbuf := s.rbuf ++ call.chunk
  let (v, req, trim) ← parseCommandMem (rbuf ++ [0]) rbuf.length s.req
  match v with
  | .protocolError _ =>
      some (if call.cleared then {} else { req := req, rbuf := trimRbuf rbuf trim }, v.code)
  | .complete | .needMore | .noInput =>
      some ({ req := req, rbuf := trimRbuf rbuf trim }, v.code)

/-- The slots are those of the objects stored and of the bulks still to come, and no object below
`argc` is missing. -/
structure ReqMem.Sound (r : ReqMem) : Prop where
  unallocated : r.argv = none → r.argc = 0 ∧ r.nbulk = 0
  capacity : ∀ slots, r.argv = some slots → r.argc + r.nbulk = slots.length
  stored : ∀ slots, r.argv = some slots → ∀ i < r.argc, ∃ s, slots[i]? = some (some s)

theorem Req.Balanced.sound (h : r.Balanced) : r.toMem.Sound where
  unallocated := by
    intro hnone
    have hargv : r.argv = none := Option.map_eq_none_iff.mp hnone
    exact ⟨by simp only [Req.toMem, Req.argc, hargv], h.unallocated hargv⟩
  capacity := by
    intro slots hslots
    obtain ⟨a, hargv, rfl⟩ := Option.map_eq_some_iff.mp hslots
    have hcap := h.slots a hargv
    rw [Argv.length_slots (by omega), ← hcap]
    simp only [Req.toMem, Req.argc, hargv]
  stored := by
    intro slots hslots i hi
    obtain ⟨a, hargv, rfl⟩ := Option.map_eq_some_iff.mp hslots
    have hi : i < a.objs.length := by
      simpa only [Req.toMem, Req.argc, hargv] using hi
    refine ⟨a.objs[i], ?_⟩
    rw [Argv.slots, List.getElem?_append_left (by rwa [List.length_map]), List.getElem?_map,
      List.getElem?_eq_getElem hi]
    rfl

theorem Req.balanced_init : ({} : Req).Balanced where
  unallocated := fun _ => rfl
  slots := by
    intro a ha
    cases ha
  bulkLen := Nat.zero_le _
  normal := fun _ => rfl

def ParserState.Represents (s : ParserState) : Prop := ∃ r : Req, r.Balanced ∧ s.req = r.toMem

/-- A call is defined, and leaves a slot for every bulk. -/
theorem ParserState.step_represents {s : ParserState} (h : s.Represents) (call : ParserCall) :
    ∃ s' rs, s.step call = some (s', rs) ∧ s'.Represents := by
  obtain ⟨r, hbalanced, hreq⟩ := h
  obtain ⟨trim, hparsed⟩ := parseCommand_parsed hbalanced (s.rbuf ++ call.chunk)
  have hcall := hparsed.call_eq []
  have hafter := hparsed.balanced
  rw [← hreq] at hcall
  simp only [ParserState.step, hcall, Option.bind_eq_bind, Option.bind_some]
  cases (parseCommand r (s.rbuf ++ call.chunk)).1 with
  | protocolError msg =>
      refine ⟨_, _, rfl, ?_⟩
      cases call.cleared with
      | true => exact ⟨{}, Req.balanced_init, rfl⟩
      | false => exact ⟨_, hafter, rfl⟩
  | complete => exact ⟨_, _, rfl, _, hafter, rfl⟩
  | needMore => exact ⟨_, _, rfl, _, hafter, rfl⟩
  | noInput => exact ⟨_, _, rfl, _, hafter, rfl⟩

/-- Whatever arrives, the parser reads its buffer up to the NUL, subtracts no position from a
smaller one, and stores inside the array it has allocated. -/
theorem parseCommand_inBounds (calls : List ParserCall) :
    ∃ s rs, Machine.run ParserState.step {} calls = some (s, rs) ∧ s.req.Sound := by
  have hstart : ({} : ParserState).Represents := ⟨{}, Req.balanced_init, rfl⟩
  obtain ⟨s, rs, hrun, r, hbalanced, hreq⟩ := Machine.run_total_tracks (fun b _ => b)
    (R := fun s (_ : Unit) => ParserState.Represents s) (b := ()) (G := fun _ _ => True)
    (fun h _ => ParserState.step_represents h _) hstart
    (Machine.along_of_forall (L := fun _ => True) (fun _ _ _ => trivial) fun _ _ => trivial)
  exact ⟨s, rs, hrun, hreq ▸ hbalanced.sound⟩

end ThrSocket
