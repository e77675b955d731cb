import ThrSocket.CioMem
import ThrSocket.NumberText

/-!
The seven places of network.c that append a reply to `io->wbuf`, on a connection in
raw memory. Each counts the bytes in `io->wcount` and copies them in a call of its
own, from a C string, a cstr or an array on the stack.
-/

namespace ThrSocket
open ByteMem CString Decimal

def strlen (buf : Bytes) : Nat := (view buf).length

namespace ConnMem

def addWcount (c : ConnMem) (len : Nat) : Option ConnMem := do
  let wcount ← sizeToInt (c.io.wcount + len)
  some { c with io := { c.io with wcount := wcount } }

def ncatWbuf (fresh : Nat → UInt8) (c : ConnMem) (buf : Bytes) (len : Nat) : Option ConnMem := do
  let bs ← read buf 0 len
  let wbuf ← c.io.wbuf.cstrNcat fresh bs
  some { c with io := { c.io with wbuf := wbuf } }

def replyStrInner (fresh : Nat → UInt8) (c : ConnMem) (buf : Bytes) : Option ConnMem := do
  let len := strlen buf
  let c ← c.addWcount len
  c.ncatWbuf fresh buf len

/-- `_reply_obj`, which returns -1 without an append for an object that is no string. -/
def replyObjInner (fresh : Nat → UInt8) (c : ConnMem) : Obj → Option ConnMem
  | .str s => do
      let len := s.length
      let c ← c.addWcount len
      c.ncatWbuf fresh s len
  | .dict => some c

def replyPrefixLenInner (fresh : Nat → UInt8) (c : ConnMem) (pre : UInt8) (l : Int) :
    Option ConnMem := do
  let buf := List.replicate 64 0
  let buf ← write buf 0 [pre]
  let buf ← write buf 1 (lltostr l 63).2
  let len := strlen (buf.drop 1)
  let buf ← write buf (len + 1) (ascii "\r")
  let buf ← write buf (len + 2) (ascii "\n")
  let c ← c.ncatWbuf fresh buf (3 + len)
  c.addWcount (3 + len)

def replyCstrInner (fresh : Nat → UInt8) (c : ConnMem) (s : Bytes) : Option ConnMem := do
  let len := s.length
  let c ← c.addWcount len
  c.ncatWbuf fresh s len

/-- The append of `reply_err`: `snprintf` cuts the text to the array and its NUL. -/
def replyErrInner (fresh : Nat → UInt8) (c : ConnMem) (err : Bytes) : Option ConnMem := do
  let buf := List.replicate 1024 0
  let buf ← write buf 0 ((ascii "-ERR " ++ view err ++ ascii "\r\n").take 1023 ++ [0])
  let len := strlen buf
  let c ← c.addWcount len
  c.ncatWbuf fresh buf len

def replyAppends (fresh : Nat → Nat → UInt8) (c : ConnMem) : ReplyCall → Option ConnMem
  | .str buf => c.replyStrInner (fresh 0) buf
  | .obj o => c.replyObjInner (fresh 0) o
  | .len l => c.replyPrefixLenInner (fresh 0) 58 l
  | .cstr s => c.replyCstrInner (fresh 0) s
  | .bulk o => do
      let c ← c.replyPrefixLenInner (fresh 0) 36 (objUsed o)
      let c ← c.replyObjInner (fresh 1) o
      c.replyStrInner (fresh 2) (ascii "\r\n")
  | .err e => c.replyErrInner (fresh 0) e

end ConnMem

/-- `reply_len` takes a `long long`. -/
def ReplyCall.InRange : ReplyCall → Prop
  | .len l => -2 ^ 63 ≤ l ∧ l < 2 ^ 63
  | _ => True

instance : (r : ReplyCall) → Decidable r.InRange
  | .len l => inferInstanceAs (Decidable (-2 ^ 63 ≤ l ∧ l < 2 ^ 63))
  | .str _ | .obj _ | .cstr _ | .bulk _ | .err _ => isTrue trivial

theorem view_append_nul {s : Bytes} (h : 0 ∉ s) (t : Bytes) : view (s ++ 0 :: t) = s := by
  have hpos : ∀ c ∈ s, (c != 0) = true := by
    intro c hc
    rw [bne_iff_ne]
    rintro rfl
    exact h hc
  rw [view, List.takeWhile_append_of_pos hpos]
  simp

theorem read_left (xs ys : Bytes) : read (xs ++ ys) 0 xs.length = some xs :=
  read_middle [] xs ys

/-- The first `strlen` bytes are the string. -/
theorem read_strlen (buf : Bytes) : read buf 0 (strlen buf) = some (view buf) := by
  obtain ⟨t, ht⟩ : view buf <+: buf := List.takeWhile_prefix _
  conv_lhs => rw [strlen, ← ht]
  have hview : view (view buf ++ t) = view buf := congrArg view ht
  rw [hview]
  exact read_left (view buf) t

theorem strlen_append_nul {s : Bytes} (h : 0 ∉ s) (t : Bytes) :
    strlen (s ++ 0 :: t) = s.length :=
  congrArg List.length (view_append_nul h t)

/-- The zeros behind what has been written are there for the next write. -/
theorem write_replicate (xs bs : Bytes) {n k p : Nat} (hp : p = xs.length)
    (h : n = bs.length + k) :
    write (xs ++ List.replicate n 0) p bs =
      some ((xs ++ bs) ++ List.replicate k (0 : UInt8)) := by
  rw [hp, h, List.replicate_add, write_middle _ _ _ List.length_replicate.symm,
    List.append_assoc]

theorem lltostr_inRange {l : Int} (hl : -2 ^ 63 ≤ l ∧ l < 2 ^ 63) :
    (lltostr l 63).2 = intNumeral l ∧ (intNumeral l).length ≤ 20 := by
  have hlen : (intNumeral l).length ≤ 20 := by
    have heq : (Int64.ofInt l).toInt = l := Int64.toInt_ofInt_of_le hl.1 hl.2
    have := intNumeral_length_le (Int64.ofInt l)
    rwa [heq] at this
  refine ⟨?_, hlen⟩
  rw [lltostr_eq (by omega) (by decide), if_pos (by omega)]

namespace ConnMem

variable {bs buf : Bytes}

theorem addThenNcat_eq (c : ConnMem) (fresh : Nat → UInt8)
    (hread : read buf 0 bs.length = some bs) :
    ((c.addWcount bs.length).bind fun c => c.ncatWbuf fresh buf bs.length) =
      c.append fresh bs := by
  simp only [addWcount, ncatWbuf, append, hread, Option.bind_eq_bind, Option.bind_some]
  cases sizeToInt (c.io.wcount + bs.length) <;> cases hncat : c.io.wbuf.cstrNcat fresh bs <;>
    simp only [Option.bind_some, Option.bind_none, hncat]

theorem ncatThenAdd_eq (c : ConnMem) (fresh : Nat → UInt8)
    (hread : read buf 0 bs.length = some bs) :
    ((c.ncatWbuf fresh buf bs.length).bind fun c => c.addWcount bs.length) =
      c.append fresh bs := by
  simp only [addWcount, ncatWbuf, append, hread, Option.bind_eq_bind, Option.bind_some]
  cases c.io.wbuf.cstrNcat fresh bs <;> rfl

theorem replyStrInner_eq (c : ConnMem) (fresh : Nat → UInt8) (buf : Bytes) :
    c.replyStrInner fresh buf = c.append fresh (view buf) :=
  c.addThenNcat_eq fresh (read_strlen buf)

theorem replyCstrInner_eq (c : ConnMem) (fresh : Nat → UInt8) (s : Bytes) :
    c.replyCstrInner fresh s = c.append fresh s := by
  have hread := read_left s []
  rw [List.append_nil] at hread
  exact c.addThenNcat_eq fresh hread

theorem replyObjInner_str (c : ConnMem) (fresh : Nat → UInt8) (s : Bytes) :
    c.replyObjInner fresh (.str s) = c.append fresh s :=
  c.replyCstrInner_eq fresh s

/-- The array holds the prefix, the numeral and the line end, and the count is theirs. -/
theorem replyPrefixLenInner_eq (c : ConnMem) (fresh : Nat → UInt8) (pre : UInt8) {l : Int}
    (hl : -2 ^ 63 ≤ l ∧ l < 2 ^ 63) :
    c.replyPrefixLenInner fresh pre l = c.append fresh (replyPrefixLen pre l) := by
  obtain ⟨htext, hlen⟩ := lltostr_inRange hl
  have hnul := nul_notMem_intNumeral l
  have hframe : replyPrefixLen pre l = [pre] ++ intNumeral l ++ ascii "\r" ++ ascii "\n" := by
    rw [replyPrefixLen, htext, view_eq_self hnul]
    simp [crlf, ascii]
  obtain ⟨k, hk⟩ : ∃ k, 61 = (intNumeral l).length + k := ⟨61 - (intNumeral l).length, by omega⟩
  have hwrite₁ : write (List.replicate 64 0) 0 [pre] =
      some ([pre] ++ List.replicate 63 (0 : UInt8)) :=
    write_replicate [] [pre] rfl (k := 63) rfl
  have hwrite₂ : write ([pre] ++ List.replicate 63 0) 1 (intNumeral l) =
      some ([pre] ++ intNumeral l ++ List.replicate (k + 2) (0 : UInt8)) :=
    write_replicate [pre] (intNumeral l) rfl (by omega)
  have hstrlen : strlen (([pre] ++ intNumeral l ++ List.replicate (k + 2) (0 : UInt8)).drop 1) =
      (intNumeral l).length :=
    strlen_append_nul hnul (List.replicate (k + 1) 0)
  have hwrite₃ : write ([pre] ++ intNumeral l ++ List.replicate (k + 2) 0)
      ((intNumeral l).length + 1) (ascii "\r") =
      some ([pre] ++ intNumeral l ++ ascii "\r" ++ List.replicate (k + 1) (0 : UInt8)) :=
    write_replicate _ (ascii "\r") (by simp) (Nat.add_comm (k + 1) 1)
  have hwrite₄ : write ([pre] ++ intNumeral l ++ ascii "\r" ++ List.replicate (k + 1) 0)
      ((intNumeral l).length + 2) (ascii "\n") =
      some (replyPrefixLen pre l ++ List.replicate k (0 : UInt8)) := by
    rw [hframe]
    exact write_replicate _ (ascii "\n") (by simp [ascii]) (Nat.add_comm k 1)
  have hcount : 3 + (intNumeral l).length = (replyPrefixLen pre l).length := by
    rw [hframe]
    simp [ascii]
    omega
  rw [← c.ncatThenAdd_eq fresh (read_left (replyPrefixLen pre l) (List.replicate k 0))]
  simp only [replyPrefixLenInner, htext, hwrite₁, hwrite₂, hstrlen, hwrite₃,
    hwrite₄, hcount, Option.bind_eq_bind, Option.bind_some]

theorem nul_notMem_errText (err : Bytes) :
    0 ∉ (ascii "-ERR " ++ view err ++ crlf).take 1023 := by
  refine fun hmem => ?_
  rcases List.mem_append.mp (List.mem_of_mem_take hmem) with hmem | hmem
  · rcases List.mem_append.mp hmem with hmem | hmem
    · exact absurd hmem (by decide)
    · exact zero_notMem_view err hmem
  · exact absurd hmem (by decide)

/-- The text and its NUL fit in the array, and `strlen` finds the NUL. -/
theorem replyErrInner_eq (c : ConnMem) (fresh : Nat → UInt8) (err : Bytes) :
    c.replyErrInner fresh err =
      c.append fresh ((ascii "-ERR " ++ view err ++ crlf).take 1023) := by
  have hcrlf : ascii "\r\n" = crlf := rfl
  have hnul := nul_notMem_errText err
  have hlen : ((ascii "-ERR " ++ view err ++ crlf).take 1023).length ≤ 1023 :=
    List.length_take_le _ _
  generalize htext : (ascii "-ERR " ++ view err ++ crlf).take 1023 = text at hnul hlen ⊢
  have hwrite : write (List.replicate 1024 0) 0 (text ++ [0]) =
      some (text ++ 0 :: List.replicate (1023 - text.length) (0 : UInt8)) := by
    have hsize : 1024 = (text ++ [0]).length + (1023 - text.length) := by
      rw [List.length_append, List.length_singleton]
      omega
    rw [List.append_cons text 0 (List.replicate (1023 - text.length) 0)]
    exact write_replicate [] (text ++ [0]) rfl hsize
  rw [← c.addThenNcat_eq fresh (read_left text (0 :: List.replicate (1023 - text.length) 0))]
  simp only [replyErrInner, hcrlf, htext, hwrite, strlen_append_nul hnul, Option.bind_eq_bind,
    Option.bind_some]

theorem append_singleton (c : ConnMem) (fresh : Nat → Nat → UInt8) (bs : Bytes) :
    c.append (fresh 0) bs = appendAll fresh 0 [bs] c :=
  (Option.bind_fun_some _).symm

/-- Every reply function appends its strings, one after the other. -/
theorem replyAppends_eq (c : ConnMem) (fresh : Nat → Nat → UInt8) {r : ReplyCall}
    (hr : r.InRange) (hsmall : r.appends.flatten.length < 2 ^ 31) :
    ∃ fresh', c.replyAppends fresh r = appendAll fresh' 0 r.appends c := by
  cases r with
  | str buf => exact ⟨fresh, (c.replyStrInner_eq _ buf).trans (c.append_singleton fresh _)⟩
  | obj o =>
      cases o with
      | str s => exact ⟨fresh, (c.replyObjInner_str _ s).trans (c.append_singleton fresh s)⟩
      | dict => exact ⟨fresh, rfl⟩
  | len l =>
      exact ⟨fresh, (c.replyPrefixLenInner_eq _ 58 hr).trans (c.append_singleton fresh _)⟩
  | cstr s => exact ⟨fresh, (c.replyCstrInner_eq _ s).trans (c.append_singleton fresh s)⟩
  | bulk o =>
      have hused : (objUsed o : Int) ≤ (replyObjBytes o).flatten.length := by
        cases o <;> simp [objUsed, replyObjBytes]
      rw [ReplyCall.appends, List.flatten_cons, List.flatten_append, List.length_append,
        List.length_append] at hsmall
      have hprefix := c.replyPrefixLenInner_eq (fresh 0) 36 (l := objUsed o) (by omega)
      cases o with
      | str s =>
          refine ⟨fresh, ?_⟩
          rw [replyAppends, hprefix]
          refine Option.bind_congr fun c₁ _ => ?_
          rw [replyObjInner_str]
          refine Option.bind_congr fun c₂ _ => ?_
          exact (c₂.replyStrInner_eq _ crlf).trans (Option.bind_fun_some _).symm
      | dict =>
          -- no block is allocated for the object
          refine ⟨fun k => fresh (2 * k), ?_⟩
          rw [replyAppends, hprefix]
          refine Option.bind_congr fun c₁ _ => ?_
          exact (c₁.replyStrInner_eq _ crlf).trans (Option.bind_fun_some _).symm
  | err e => exact ⟨fresh, (c.replyErrInner_eq _ e).trans (c.append_singleton fresh _)⟩

/-- From `c` to `c'` the bytes `bs` were appended to `io->wbuf`, which showed `s`, and counted
in `io->wcount`; nothing else is changed. -/
structure Appended (c c' : ConnMem) (s bs : Bytes) : Prop where
  wbuf : c'.io.wbuf.Shows (s ++ bs)
  wcount : c'.io.wcount = c.io.wcount + bs.length
  frame : c' = { c with io := { c.io with wbuf := c'.io.wbuf, wcount := c'.io.wcount } }

theorem append_appended {c c' : ConnMem} {fresh : Nat → UInt8} {s : Bytes}
    (h : c.io.wbuf.Shows s) (happend : c.append fresh bs = some c') : c.Appended c' s bs := by
  obtain ⟨wbuf, hncat, hrest⟩ := Option.bind_eq_some_iff.mp happend
  obtain ⟨wcount, hwcount, hc⟩ := Option.bind_eq_some_iff.mp hrest
  rw [sizeToInt, Option.ite_none_right_eq_some] at hwcount
  cases hwcount.2
  cases hc
  exact ⟨(CstrMem.cstrNcat_shows h hncat).1, rfl, rfl⟩

/-- Below the largest int an append goes through. -/
theorem append_isSome {c : ConnMem} {s : Bytes} (h : c.io.wbuf.Shows s) (fresh : Nat → UInt8)
    (hs : s.length + bs.length < 2 ^ 31) (hw : c.io.wcount + bs.length < 2 ^ 31) :
    (c.append fresh bs).isSome = true := by
  obtain ⟨wbuf, hncat, -⟩ := CstrMem.cstrNcat_defined fresh h bs hs
  rw [append, hncat, Option.bind_eq_bind, Option.bind_some, sizeToInt, if_pos hw]
  rfl

end ConnMem

/-- `lltostr` writes the canonical numeral and returns its length where it has room for it,
and -1 without writing anything otherwise; `str2ll` reads the number back; and `reply_len`
appends the numeral to `io->wbuf`, whatever is there. -/
theorem lltostr_roundTrip (l : Int64) (size : Nat) (hsize : 1 ≤ size) :
    (lltostr64 l size =
      if (intNumeral l.toInt).length ≤ size then
        (((intNumeral l.toInt).length : Int), intNumeral l.toInt)
      else (-1, [])) ∧
    (∀ len bs, lltostr64 l size = (len, bs) → len ≠ -1 →
      ∀ t, str2ll (bs ++ t) bs.length = some l.toInt) ∧
    ∀ (c : ConnMem) (fresh : Nat → UInt8) (s : Bytes), c.io.wbuf.Shows s →
      (s.length + 23 < 2 ^ 31 → c.io.wcount + 23 < 2 ^ 31 →
        (c.replyPrefixLenInner fresh 58 l.toInt).isSome = true) ∧
      ∀ c', c.replyPrefixLenInner fresh 58 l.toInt = some c' →
        c.Appended c' s (58 :: (intNumeral l.toInt ++ crlf)) := by
  obtain ⟨hle, hlt⟩ := int64_inRange l
  have hlt' : l.toInt < 2 ^ 63 := by
    rw [llongMax] at hlt
    omega
  have htext : lltostr64 l size =
      if (intNumeral l.toInt).length ≤ size then
        (((intNumeral l.toInt).length : Int), intNumeral l.toInt)
      else (-1, []) := by
    rw [lltostr64_eq]
    exact lltostr_eq (by omega) hsize
  refine ⟨htext, fun len bs hbs hlen t => ?_, fun c fresh s hs => ?_⟩
  · rw [htext] at hbs
    split_ifs at hbs with h
    · cases hbs
      exact str2ll_of_denoted (denoted_intNumeral _) ⟨hle, hlt⟩ t
    · cases hbs
      exact absurd rfl hlen
  · rw [c.replyPrefixLenInner_eq fresh 58 ⟨hle, hlt'⟩, replyPrefixLen_eq]
    refine ⟨fun hused hwcount => ?_, fun c' happend => ConnMem.append_appended hs happend⟩
    have hlen : (58 :: (intNumeral l.toInt ++ crlf)).length ≤ 23 := by
      have := intNumeral_length_le l
      rw [List.length_cons, List.length_append]
      simp only [crlf, List.length_cons, List.length_nil]
      omega
    exact ConnMem.append_isSome hs fresh (by omega) (by omega)

/-- LLONG_MIN fills 20 bytes, and 23 of a buffer just created. -/
theorem lltostr_roundTrip_min :
    lltostr64 Int64.minValue 20 = (20, ascii "-9223372036854775808") ∧
      lltostr64 Int64.minValue 19 = (-1, []) ∧
      ∃ io c', CioMem.create (fun _ _ => 7) = some io ∧
        ConnMem.replyPrefixLenInner (fun _ => 7) ⟨io, {}, []⟩ 58 Int64.minValue.toInt = some c' ∧
        c'.io.wbuf.Shows (ascii ":-9223372036854775808\r\n") ∧ c'.io.wcount = 23 := by
  have htext := (lltostr_roundTrip Int64.minValue 20 (by decide)).1
  have hshort := (lltostr_roundTrip Int64.minValue 19 (by decide)).1
  have hreply := (lltostr_roundTrip Int64.minValue 20 (by decide)).2.2
  have hlen : 1024 < 2 ^ 32 := by decide
  obtain ⟨wbuf, hcreate, hshows, -⟩ := CstrMem.cstrCreate_shows (fun _ => 7) hlen
  have hio : CioMem.create (fun _ _ => 7) = some { rbuf := wbuf, wbuf := wbuf } := by
    rw [CioMem.create, hcreate]
    rfl
  obtain ⟨hsome, happended⟩ :=
    hreply ⟨{ rbuf := wbuf, wbuf := wbuf }, {}, []⟩ (fun _ => 7) [] hshows
  obtain ⟨c', hc'⟩ :=
    Option.isSome_iff_exists.mp (hsome (by decide) (show 0 + 23 < 2 ^ 31 by decide))
  have hbytes : [] ++ 58 :: (intNumeral Int64.minValue.toInt ++ crlf) =
      ascii ":-9223372036854775808\r\n" := by
    decide
  have happ := happended c' hc'
  refine ⟨?_, ?_, _, c', hio, hc', hbytes ▸ happ.wbuf, ?_⟩
  · rw [htext]
    decide
  · rw [hshort]
    decide
  · rw [happ.wcount]
    change 0 + (58 :: (intNumeral Int64.minValue.toInt ++ crlf)).length = 23
    decide

end ThrSocket
