import ThrSocket.Chunking
import ThrSocket.HeaderLine

/-!
What a protocol error leaves behind. The error returns keep the whole buffer,
so the next call reads a header line at its front again, with the bulk count
as far down as the failed call got. Whether that line can still be accepted
decides whether the error is final.
-/

namespace ThrSocket
open CString Decimal

/-- The next header line is refused whatever bytes come behind `buf`, the buffer
of the call that fails; `r` are the fields before that call. -/
def RefusedForGood (r : Req) (buf : Bytes) : Prop :=
  if r.reqtype = .normal ∧ buf.getD 0 0 ≠ 42 then True
  else if r.nbulk = 0 then
    -- refused as it stands, or accepted and then read again where a `$` is expected
    (strstr crlf buf).isSome ∨ ¬ Extendable 42 1024 buf
  else
    match strstr crlf buf with
    | some _ => ∀ len, bulkLenLine buf 0 ≠ .ok len
    | none => maxCommandLenLimit ≤ buf.length ∧ ¬ Extendable 36 maxCommandLenLimit buf

inductive Stuck (r : Req) (buf : Bytes) : Prop
  | inline (normal : r.reqtype = .normal) (head : buf.getD 0 0 ≠ 42)
      (long : maxCommandLenLimit < buf.length)
  | count (mbulk : r.reqtype = .mbulk) (none : r.nbulk = 0)
      (refused : ∀ z, ∃ msg, bulkCountLine (buf ++ z) = .error (.protocolError msg))
  | bulk (mbulk : r.reqtype = .mbulk) (some : r.nbulk ≠ 0) (idle : r.bulkLen = 0)
      (refused : ∀ z, z ≠ [] → ∃ msg, bulkLenLine (buf ++ z) 0 = .error (.protocolError msg))

inductive ErrorExit (r : Req) (buf : Bytes) : Req → Prop
  | inline (normal : r.reqtype = .normal) (head : buf.getD 0 0 ≠ 42)
      (long : maxCommandLenLimit < buf.length) : ErrorExit r buf r
  | count (mbulk : ¬ (r.reqtype = .normal ∧ buf.getD 0 0 ≠ 42)) (none : r.nbulk = 0)
      {msg : Bytes} (refused : bulkCountLine buf = .error (.protocolError msg)) :
      ErrorExit r buf { r with reqtype := .mbulk }
  | bulk (mbulk : ¬ (r.reqtype = .normal ∧ buf.getD 0 0 ≠ 42))
      (counted : r.nbulk = 0 → ∃ n pos, Header 42 1024 buf n pos) {r' : Req}
      (mbulk' : r'.reqtype = .mbulk) (some : r'.nbulk ≠ 0) (idle : r'.bulkLen = 0) :
      ErrorExit r buf r'

/-- An error leaves the loop between two groups, behind every group it passed. -/
theorem bulkLoop_error {rbuf : Bytes} {n bulkLen pos : Nat} {argv : Option Argv} {msg : Bytes}
    (h : (bulkLoop rbuf n bulkLen pos argv).verdict = .protocolError msg) :
    (bulkLoop rbuf n bulkLen pos argv).nbulk ≠ 0 ∧
      (bulkLoop rbuf n bulkLen pos argv).bulkLen = 0 ∧
      (bulkLoop rbuf n bulkLen pos argv).nbulk ≤ n ∧
      ((∃ len, bulkLenLine rbuf pos = .ok len) →
        (bulkLoop rbuf n bulkLen pos argv).nbulk < n) := by
  induction n generalizing bulkLen pos argv with
  | zero => cases h
  | succ n ih =>
      rw [bulkLoop] at h ⊢
      cases hline : (if bulkLen = 0 then bulkLenLine rbuf pos else .ok (bulkLen, pos)) with
      | error v =>
          have hidle : bulkLen = 0 := by
            by_contra hb
            rw [if_neg hb] at hline
            cases hline
          refine ⟨Nat.succ_ne_zero n, hidle, Nat.le_refl _, ?_⟩
          rintro ⟨len, hlen⟩
          rw [if_pos hidle, hlen] at hline
          cases hline
      | ok r =>
          obtain ⟨len, pos'⟩ := r
          simp only [hline] at h ⊢
          split at h
          · cases h
          · rename_i hroom
            rw [if_neg hroom]
            obtain ⟨h1, h2, h3, _⟩ := ih h
            exact ⟨h1, h2, by omega, fun _ => by omega⟩

theorem LoopExit.finish_error {x : LoopExit} {r : Req} {rbuf msg : Bytes} {q : Req × Bytes}
    (h : x.finish r rbuf = (.protocolError msg, q)) :
    x.verdict = .protocolError msg ∧
      q = ({ r with nbulk := x.nbulk, bulkLen := x.bulkLen, argv := x.argv }, rbuf) := by
  simp only [LoopExit.finish, Prod.mk.injEq] at h
  obtain ⟨hv, rfl⟩ := h
  refine ⟨hv, ?_⟩
  rw [hv, if_neg (by simp)]

/-- An error keeps the whole buffer. -/
theorem parseCommand_error {r r' : Req} {buf buf' msg : Bytes}
    (h : parseCommand r buf = (.protocolError msg, r', buf')) :
    buf' = buf ∧ ErrorExit r buf r' := by
  rw [parseCommand] at h
  split at h
  · cases h
  · split at h
    · rename_i hmb
      have hmbulk : ¬ (r.reqtype = .normal ∧ buf.getD 0 0 ≠ 42) := by
        rintro ⟨hn, hh⟩
        rcases hmb with hm | hm
        · rw [hn] at hm
          cases hm
        · exact hh hm
      rw [parseMultibluk] at h
      split at h
      · rename_i hnone
        cases hline : bulkCountLine buf with
        | error v =>
            simp only [hline, Prod.mk.injEq] at h
            obtain ⟨rfl, rfl, rfl⟩ := h
            exact ⟨rfl, .count hmbulk hnone hline⟩
        | ok r₁ =>
            obtain ⟨n, pos⟩ := r₁
            simp only [hline] at h
            obtain ⟨hv, hq⟩ := LoopExit.finish_error h
            obtain ⟨h1, h2, _, _⟩ := bulkLoop_error hv
            obtain ⟨rfl, rfl⟩ := Prod.mk.inj hq
            exact ⟨rfl, .bulk hmbulk (fun _ => ⟨n, pos, bulkCountLine_header_iff.mp hline⟩)
              rfl h1 h2⟩
      · rename_i hsome
        obtain ⟨hv, hq⟩ := LoopExit.finish_error h
        obtain ⟨h1, h2, _, _⟩ := bulkLoop_error hv
        obtain ⟨rfl, rfl⟩ := Prod.mk.inj hq
        exact ⟨rfl, .bulk hmbulk (fun hn => absurd hn hsome) rfl h1 h2⟩
    · rename_i hmb
      rw [parseInline] at h
      split at h
      · rename_i hlong
        simp only [Prod.mk.injEq] at h
        obtain ⟨_, rfl, rfl⟩ := h
        refine ⟨rfl, .inline ?_ (fun hh => hmb (.inr hh)) hlong⟩
        cases hr : r.reqtype with
        | normal => rfl
        | mbulk => exact absurd (.inl hr) hmb
      · split at h <;> cases h

theorem bulkCountLine_refused {x : Bytes} (h : ∀ n pos, ¬ Header 42 1024 x n pos)
    (hline : (∃ ptr, strstr crlf x = some ptr) ∨ x.getD 0 0 ≠ 42 ∨
      maxCommandLenLimit < x.length) :
    ∃ msg, bulkCountLine x = .error (.protocolError msg) := by
  cases hx : bulkCountLine x with
  | ok r => exact absurd (bulkCountLine_header_iff.mp hx) (h r.1 r.2)
  | error v =>
      rcases bulkCountLine_error hx with rfl | ⟨msg, -, rfl⟩
      · exfalso
        rw [bulkCountLine] at hx
        split at hx
        · cases hx
        · rename_i hhead
          split at hx
          · rename_i hnone
            rcases hline with ⟨ptr, hptr⟩ | hh | hlong
            · rw [hnone] at hptr
              cases hptr
            · exact hh (not_not.mp hhead)
            · rw [lineMissing, if_pos hlong] at hx
              cases hx
          · split at hx
            · cases hx
            · split at hx <;> cases hx
      · exact ⟨msg, rfl⟩

theorem bulkLenLine_refused {x : Bytes} (h : ∀ n pos, ¬ Header 36 maxCommandLenLimit x n pos)
    (hline : (∃ ptr, strstr crlf x = some ptr) ∨ maxCommandLenLimit < x.length) :
    ∃ msg, bulkLenLine x 0 = .error (.protocolError msg) := by
  cases hx : bulkLenLine x 0 with
  | ok r => exact absurd (bulkLenLine_header_iff.mp hx) (h r.1 r.2)
  | error v =>
      rcases bulkLenLine_error hx with rfl | ⟨msg, -, rfl⟩
      · exfalso
        rw [bulkLenLine, List.drop_zero] at hx
        split at hx
        · rename_i hnone
          rcases hline with ⟨ptr, hptr⟩ | hlong
          · rw [hnone] at hptr
            cases hptr
          · rw [lineMissing, if_pos hlong] at hx
            cases hx
        · split at hx
          · cases hx
          · split at hx
            · cases hx
            · split at hx <;> cases hx
      · exact ⟨msg, rfl⟩

/-- What the failed call knows about the count line holds behind any bytes. -/
theorem bulkCountLine_refused_append {buf msg : Bytes} (hne : buf ≠ [])
    (refused : bulkCountLine buf = .error (.protocolError msg))
    (h : (strstr crlf buf).isSome ∨ ¬ Extendable 42 1024 buf) (z : Bytes) :
    ∃ msg, bulkCountLine (buf ++ z) = .error (.protocolError msg) := by
  have hno : ∀ n pos, ¬ Header 42 1024 buf n pos := by
    intro n pos hh
    rw [bulkCountLine_header_iff.mpr hh] at refused
    cases refused
  cases hptr : strstr crlf buf with
  | some ptr =>
      refine bulkCountLine_refused ?_ (.inl ⟨ptr, strstr_append hptr z⟩)
      intro n pos hh
      exact hno n pos (hh.of_append (.inl rfl) hptr)
  | none =>
      have hext : ¬ Extendable 42 1024 buf := by simpa [hptr] using h
      refine bulkCountLine_refused ?_ ?_
      · intro n pos hh
        exact hext (extendable_of_header (.inl rfl) hne hptr hh)
      · -- without its line end the line was refused for its first byte or its length
        refine .inr ?_
        by_contra hboth
        obtain ⟨h42, hshort⟩ := not_or.mp hboth
        obtain ⟨c, cs, rfl⟩ := List.exists_cons_of_ne_nil hne
        have hhead : (c :: cs).getD 0 0 = 42 := by simpa using h42
        have hle : ¬ maxCommandLenLimit < (c :: cs).length := by
          rw [List.length_append] at hshort
          omega
        rw [bulkCountLine, if_neg (not_not.mpr hhead), hptr, lineMissing, if_neg hle] at refused
        cases refused

theorem bulkLenLine_refused_append {buf : Bytes} (hne : buf ≠ [])
    (h : match strstr crlf buf with
      | some _ => ∀ len, bulkLenLine buf 0 ≠ .ok len
      | none => maxCommandLenLimit ≤ buf.length ∧ ¬ Extendable 36 maxCommandLenLimit buf)
    {z : Bytes} (hz : z ≠ []) :
    ∃ msg, bulkLenLine (buf ++ z) 0 = .error (.protocolError msg) := by
  cases hptr : strstr crlf buf with
  | some ptr =>
      simp only [hptr] at h
      refine bulkLenLine_refused ?_ (.inl ⟨ptr, strstr_append hptr z⟩)
      intro n pos hh
      exact h (n, pos) (bulkLenLine_header_iff.mpr (hh.of_append (.inr rfl) hptr))
  | none =>
      simp only [hptr] at h
      refine bulkLenLine_refused ?_ (.inr ?_)
      · intro n pos hh
        exact h.2 (extendable_of_header (.inr rfl) hne hptr hh)
      · have := List.length_pos_iff.mpr hz
        rw [List.length_append]
        omega

theorem stuck_of_refused {r r' : Req} {buf : Bytes} (hne : buf ≠ []) (hexit : ErrorExit r buf r')
    (h : RefusedForGood r buf) : Stuck r' buf := by
  rw [RefusedForGood] at h
  cases hexit with
  | inline normal head long => exact .inline normal head long
  | count mbulk none refused =>
      rw [if_neg mbulk, if_pos none] at h
      exact .count rfl none (bulkCountLine_refused_append hne refused h)
  | bulk mbulk counted mbulk' some idle =>
      rw [if_neg mbulk] at h
      refine .bulk mbulk' some idle fun z hz => ?_
      by_cases hnone : r.nbulk = 0
      · -- the line is an accepted count line, read where a length line is expected
        obtain ⟨n, pos, hh⟩ := counted hnone
        obtain ⟨hstr, _, _⟩ := hh.strstr (.inl rfl)
        refine bulkLenLine_refused ?_ (.inl ⟨_, strstr_append hstr z⟩)
        intro n' pos' hh'
        have h42 := (hh.append z).head
        rw [hh'.head] at h42
        cases h42
      · rw [if_neg hnone] at h
        exact bulkLenLine_refused_append hne h hz

theorem getD_append_of_ne_nil {buf : Bytes} (hne : buf ≠ []) (z : Bytes) :
    (buf ++ z).getD 0 0 = buf.getD 0 0 := by
  obtain ⟨c, cs, rfl⟩ := List.exists_cons_of_ne_nil hne
  rfl

theorem Stuck.append {r : Req} {buf : Bytes} (hne : buf ≠ []) (h : Stuck r buf) (z : Bytes) :
    Stuck r (buf ++ z) := by
  cases h with
  | inline normal head long =>
      exact .inline normal (by rwa [getD_append_of_ne_nil hne])
        (by rw [List.length_append]; omega)
  | count mbulk none refused =>
      exact .count mbulk none fun t => by rw [List.append_assoc]; exact refused (z ++ t)
  | bulk mbulk some idle refused =>
      refine .bulk mbulk some idle fun t ht => ?_
      rw [List.append_assoc]
      exact refused (z ++ t) (by simp [ht])

theorem Stuck.parse {r : Req} {buf z : Bytes} (hne : buf ≠ []) (h : Stuck r buf) (hz : z ≠ []) :
    ∃ msg, parseCommand r (buf ++ z) = (.protocolError msg, r, buf ++ z) := by
  have hlen : ¬ (buf ++ z).length = 0 := by simp [hne]
  cases h with
  | inline normal head long =>
      refine ⟨msgLimit, ?_⟩
      have hinline : ¬ (r.reqtype = .mbulk ∨ (buf ++ z).getD 0 0 = 42) := by
        rw [getD_append_of_ne_nil hne]
        rintro (hm | hm)
        · rw [normal] at hm
          cases hm
        · exact head hm
      rw [parseCommand, if_neg hlen, if_neg hinline, parseInline,
        if_pos (by rw [List.length_append]; omega)]
  | count mbulk none refused =>
      obtain ⟨msg, hmsg⟩ := refused z
      refine ⟨msg, ?_⟩
      rw [parseCommand, if_neg hlen, if_pos (.inl mbulk), parseMultibluk, if_pos none, hmsg,
        ← mbulk]
  | bulk mbulk some idle refused =>
      obtain ⟨msg, hmsg⟩ := refused z hz
      refine ⟨msg, ?_⟩
      obtain ⟨n, hn⟩ := Nat.exists_eq_succ_of_ne_zero some
      have hexit : bulkLoop (buf ++ z) r.nbulk r.bulkLen 0 r.argv =
          ⟨.protocolError msg, r.nbulk, r.bulkLen, 0, r.argv⟩ := by
        rw [hn, bulkLoop, idle, if_pos rfl, hmsg]
      rw [parseCommand, if_neg hlen, if_pos (.inl mbulk), parseMultibluk, if_neg some, hexit,
        LoopExit.finish, ← mbulk]
      rfl

/-- Some later bytes make a call return something else than -1. -/
inductive Recovers : Req → Bytes → Prop
  | now {r : Req} {buf : Bytes} (z : Bytes) (some : z ≠ [])
      (accepted : (parseCommand r (buf ++ z)).1.code ≠ -1) : Recovers r buf
  | later {r r' : Req} {buf msg : Bytes} (z : Bytes) (some : z ≠ [])
      (refused : parseCommand r (buf ++ z) = (.protocolError msg, r', buf ++ z))
      (rest : Recovers r' (buf ++ z)) : Recovers r buf

theorem parseCommand_mbulk {r : Req} (h : r.reqtype = .mbulk) {buf : Bytes} (hne : buf ≠ []) :
    parseCommand r buf = parseMultibluk r buf := by
  rw [parseCommand, if_neg (fun hl => hne (List.length_eq_zero_iff.mp hl)), if_pos (.inl h), ← h]

/-- An accepted length line at the front: every call passes at least one group. -/
theorem recovers_of_header (m : Nat) : ∀ {r : Req} {buf : Bytes} {n pos : Nat}, r.nbulk = m →
    m ≠ 0 → r.bulkLen = 0 → r.reqtype = .mbulk → Header 36 maxCommandLenLimit buf n pos →
    Recovers r buf := by
  induction m using Nat.strongRecOn with
  | ind m ih =>
      intro r buf n pos hn hm hidle hmb hh
      have hparse := parseCommand_mbulk hmb (show buf ++ [0] ≠ [] by simp)
      have hline := bulkLenLine_header_iff.mpr (hh.append [0])
      rw [parseMultibluk, if_neg (by omega), hidle] at hparse
      rcases bulkLoop_verdict (buf ++ [0]) r.nbulk 0 0 r.argv with hv | hv | ⟨msg, -, hv⟩
      · refine .now [0] (by simp) (code_ne_of_verdict (.inl ?_))
        rw [hparse]
        exact hv
      · refine .now [0] (by simp) (code_ne_of_verdict (.inr ?_))
        rw [hparse]
        exact hv
      · obtain ⟨h1, h2, _, h4⟩ := bulkLoop_error hv
        have hlt := h4 ⟨_, hline⟩
        rw [LoopExit.finish, hv, if_neg (by simp)] at hparse
        exact .later [0] (by simp) hparse
          (ih _ (by rw [← hn]; exact hlt) rfl h1 h2 hmb (hh.append [0]))

theorem validRequest_replicate {n : Nat} (h1 : 1 ≤ n) (h2 : n ≤ 1024) :
    ValidRequest (List.replicate n [97]) where
  pos := by simpa using h1
  le := by simpa using h2
  payload p hp := by
    rw [(List.mem_replicate.mp hp).2]
    decide

/-- An unfinished count line is completed together with a whole request. -/
theorem recovers_of_count {r : Req} {buf : Bytes} (hmb : r.reqtype = .mbulk) (hn : r.nbulk = 0)
    (hidle : r.bulkLen = 0) (hext : Extendable 42 1024 buf) : Recovers r buf := by
  obtain ⟨z, n, hz, hh⟩ := header_of_extendable (by omega) hext
  have hrange : 1 ≤ n ∧ n ≤ 1024 := by
    obtain ⟨_, _, _, _, h1, h2, _⟩ := hh
    exact ⟨h1, h2⟩
  have hv := validRequest_replicate hrange.1 hrange.2
  have hbuf : buf ++ (z ++ encodeBulks (List.replicate n [97])) =
      (buf ++ z) ++ encodeBulks (List.replicate n [97]) := by simp
  have hline := bulkCountLine_header_iff.mpr (hh.append (encodeBulks (List.replicate n [97])))
  have hdrop : ((buf ++ z) ++ encodeBulks (List.replicate n [97])).drop (buf ++ z).length =
      encodeBulks (List.replicate n [97]) ++ [] := by simp
  have hloop := bulkLoop_groups (m := 0) hv.payload (some ⟨n, []⟩) hdrop
  rw [List.length_replicate, Nat.add_zero] at hloop
  refine .now (z ++ encodeBulks (List.replicate n [97])) (by simp [hz])
    (code_ne_of_verdict (.inl ?_))
  rw [hbuf, parseCommand_mbulk hmb (by simp [hz]), parseMultibluk, if_pos hn, hline, hidle]
  simp only [hloop]
  rfl

/-- An unfinished length line is completed and nothing behind it. -/
theorem recovers_of_length {r : Req} {buf : Bytes} (hmb : r.reqtype = .mbulk) (hn : r.nbulk ≠ 0)
    (hidle : r.bulkLen = 0) (hext : Extendable 36 maxCommandLenLimit buf) : Recovers r buf := by
  obtain ⟨z, n, hz, hh⟩ := header_of_extendable (by decide) hext
  obtain ⟨m, hm⟩ := Nat.exists_eq_succ_of_ne_zero hn
  refine .now z hz (code_ne_of_verdict (.inr ?_))
  rw [parseCommand_mbulk hmb (by simp [hz]), parseMultibluk, if_neg hn, hm, hidle, bulkLoop,
    if_pos rfl, bulkLenLine_header_iff.mpr hh]
  simp only [Nat.sub_self]
  rw [if_pos (by omega)]
  rfl

theorem strstr_append_nul {buf : Bytes} (h : strstr crlf buf = none) :
    strstr crlf (buf ++ [0]) = none := by
  cases hptr : strstr crlf (buf ++ [0]) with
  | none => rfl
  | some ptr =>
      exfalso
      have hle := strstr_le hptr
      obtain ⟨rest, hsplit⟩ := strstr_split hptr
      by_cases hin : ptr + crlf.length ≤ buf.length
      · rw [strstr_append_of_le hptr hin] at h
        cases h
      · -- the match would end with the NUL
        rw [List.length_append, List.length_singleton, crlf_length] at hle
        rw [crlf_length] at hin
        have hlen := congrArg List.length hsplit
        have hlast := congrArg List.getLast? hsplit
        simp only [List.length_append, List.length_take, crlf_length, List.length_singleton] at hlen
        have hrest : rest = [] := List.length_eq_zero_iff.mp (by omega)
        subst hrest
        simp [crlf] at hlast

/-- A call that has not seen a line end yet, with room for one more byte. -/
theorem recovers_of_short {r : Req} {buf : Bytes} (hmb : r.reqtype = .mbulk) (hn : r.nbulk ≠ 0)
    (hidle : r.bulkLen = 0) (hnone : strstr crlf buf = none)
    (hshort : buf.length < maxCommandLenLimit) : Recovers r buf := by
  obtain ⟨m, hm⟩ := Nat.exists_eq_succ_of_ne_zero hn
  refine .now [0] (by simp) (code_ne_of_verdict (.inr ?_))
  rw [parseCommand_mbulk hmb (by simp), parseMultibluk, if_neg hn, hm, hidle, bulkLoop,
    if_pos rfl, bulkLenLine, List.drop_zero, strstr_append_nul hnone,
    lineMissing_small (by rw [List.length_append, List.length_singleton]; omega)]
  rfl

theorem recovers_of_not_refused {r r' : Req} {buf : Bytes} (hidle : r.nbulk = 0 → r.bulkLen = 0)
    (hexit : ErrorExit r buf r') (h : ¬ RefusedForGood r buf) : Recovers r' buf := by
  rw [RefusedForGood] at h
  cases hexit with
  | inline normal head long => exact absurd trivial (by rwa [if_pos ⟨normal, head⟩] at h)
  | @count mbulk none msg refused =>
      rw [if_neg mbulk, if_pos none] at h
      obtain ⟨_, hext⟩ := not_or.mp h
      exact recovers_of_count rfl none (hidle none) (not_not.mp hext)
  | bulk mbulk counted mbulk' some idle =>
      rw [if_neg mbulk] at h
      by_cases hnone : r.nbulk = 0
      · obtain ⟨n, pos, hh⟩ := counted hnone
        rw [if_pos hnone, (hh.strstr (.inl rfl)).1] at h
        exact absurd (.inl rfl) h
      · rw [if_neg hnone] at h
        cases hptr : strstr crlf buf with
        | some ptr =>
            simp only [hptr, ne_eq, not_forall, not_not] at h
            obtain ⟨⟨n, pos⟩, hlen⟩ := h
            exact recovers_of_header r'.nbulk rfl some idle mbulk'
              (bulkLenLine_header_iff.mp hlen)
        | none =>
            simp only [hptr, not_and_or, not_not] at h
            rcases h with hshort | hext
            · exact recovers_of_short mbulk' some idle hptr (by omega)
            · exact recovers_of_length mbulk' some idle hext

structure Waiting (c : Conn) : Prop where
  fits : c.Fits
  pending : c.io.mask.persist = false → 0 < c.io.wcount
  noClear : .cioClear ∉ c.trace

theorem parseCommand_idle {r : Req} (h : r.nbulk = 0 → r.bulkLen = 0) (buf : Bytes) :
    (parseCommand r buf).2.1.nbulk = 0 → (parseCommand r buf).2.1.bulkLen = 0 := by
  have hloop : ∀ (n bulkLen pos : Nat) (argv : Option Argv), (n = 0 → bulkLen = 0) →
      (bulkLoop buf n bulkLen pos argv).nbulk = 0 →
        (bulkLoop buf n bulkLen pos argv).bulkLen = 0 := by
    intro n
    induction n with
    | zero => exact fun bulkLen pos argv hb _ => hb rfl
    | succ n ih =>
        intro bulkLen pos argv _
        rw [bulkLoop]
        cases (if bulkLen = 0 then bulkLenLine buf pos else .ok (bulkLen, pos)) with
        | error v => exact fun h0 => absurd h0 (Nat.succ_ne_zero n)
        | ok r =>
            simp only
            split
            · exact fun h0 => absurd h0 (Nat.succ_ne_zero n)
            · exact ih _ _ _ fun _ => rfl
  rw [parseCommand]
  split
  · exact h
  · split
    · rw [parseMultibluk]
      split
      · cases hline : bulkCountLine buf with
        | error v => exact h
        | ok r' =>
            obtain ⟨n, pos⟩ := r'
            obtain ⟨_, _, _, _, h1, _⟩ := bulkCountLine_header_iff.mp hline
            exact hloop _ _ _ _ fun h0 => by omega
      · rename_i hn
        exact hloop _ _ _ _ fun h0 => absurd h0 hn
    · rw [parseInline]
      split
      · exact h
      · split <;> exact h

/-- What holds of every connection fed with chunks, cleared or not. -/
structure FeedInv (c : Conn) : Prop where
  fits : c.Fits
  idle : c.io.nbulk = 0 → c.io.bulkLen = 0

theorem feedInv_created {c : Conn} (h : c.io = cioCreate) : FeedInv c where
  fits := by rw [Conn.Fits, h]; exact Nat.le_refl _
  idle _ := by rw [h]; rfl

/-- The invariant and the clears already made survive a call. -/
theorem readProcess_step {c : Conn} (h : FeedInv c) (w : Writes) (z : Bytes) :
    FeedInv (c.readProcess (.data z) w).1 ∧
      (.cioClear ∈ c.trace → .cioClear ∈ (c.readProcess (.data z) w).1.trace) := by
  by_cases hz : z = []
  · subst hz
    exact ⟨h, id⟩
  · have hidle := parseCommand_idle h.idle (c.io.rbuf ++ z)
    rcases readProcess_cases c w hz with ⟨q, hq, _, hres⟩ | ⟨msg, r', buf', hq, hres⟩
    · rw [hres]
      rw [hq] at hidle
      exact ⟨⟨h.fits, hidle⟩, id⟩
    · rw [hres]
      rw [hq] at hidle
      have hrep := replyInner_replied
        ((((c.receive z).setParsed r' buf').setProtocolError).append (view msg)) w
        (append_fits h.fits _)
      dsimp only
      cases hrep with
      | kept req rbuf mask fits pending clear =>
          refine ⟨⟨fits, ?_⟩, clear.mpr⟩
          rw [req]
          exact hidle
      | cleared io free clear => exact ⟨feedInv_created io, fun _ => clear⟩

/-- A failed call without a clear, seen from behind. -/
theorem readProcess_error {c : Conn} (h : FeedInv c) (w : Writes) {z : Bytes} (hz : z ≠ [])
    (herr : (c.readProcess (.data z) w).2 = -1)
    (hlive : .cioClear ∉ (c.readProcess (.data z) w).1.trace) :
    (∃ msg, parseCommand c.io.toReq (c.io.rbuf ++ z) =
        (.protocolError msg, (c.readProcess (.data z) w).1.io.toReq, c.io.rbuf ++ z)) ∧
      (c.readProcess (.data z) w).1.io.rbuf = c.io.rbuf ++ z ∧
      Waiting (c.readProcess (.data z) w).1 := by
  rcases readProcess_cases c w hz with ⟨q, _, hcode, hres⟩ | ⟨msg, r', buf', hq, hres⟩
  · rw [hres] at herr
    exact absurd herr hcode
  · obtain ⟨rfl, _⟩ := parseCommand_error hq
    have hrep := replyInner_replied
      ((((c.receive z).setParsed r' (c.io.rbuf ++ z)).setProtocolError).append (view msg)) w
      (append_fits h.fits _)
    rw [hres] at hlive ⊢
    dsimp only at hlive ⊢
    cases hrep with
    | kept req rbuf mask fits pending clear =>
        refine ⟨⟨msg, by rw [req]; exact hq⟩, by rw [rbuf]; rfl, fits, ?_, hlive⟩
        rw [mask]
        exact pending
    | cleared io free clear => exact absurd clear hlive

/-- While the socket takes nothing, a waiting connection goes on waiting. -/
theorem readProcess_waiting {c : Conn} (h : Waiting c) {z : Bytes} (hz : z ≠ []) {msg : Bytes}
    {r' : Req} {buf' : Bytes}
    (hparse : parseCommand c.io.toReq (c.io.rbuf ++ z) = (.protocolError msg, r', buf')) :
    (c.readProcess (.data z) fun _ => .eagain).1.io.toReq = r' ∧
      (c.readProcess (.data z) fun _ => .eagain).1.io.rbuf = buf' ∧
      Waiting (c.readProcess (.data z) fun _ => .eagain).1 := by
  have hrep := replyInner_replied
    ((((c.receive z).setParsed r' buf').setProtocolError).append (view msg)) (fun _ => .eagain)
    (append_fits h.fits _)
  rw [readProcess_failed c _ hz hparse]
  dsimp only
  cases hrep with
  | kept req rbuf mask fits pending clear =>
      refine ⟨by rw [req]; rfl, by rw [rbuf]; rfl, fits, ?_, fun hc => h.noClear (clear.mp hc)⟩
      rw [mask]
      exact pending
  | cleared io free clear =>
      have hcount : 0 < c.io.wcount + (view msg).length := by
        have := h.pending free.1
        omega
      exact absurd (blocks_of_eagain rfl hcount) free.2

theorem feed_inv {c : Conn} (h : FeedInv c) (w : Nat → Writes) (chunks : List Bytes) :
    FeedInv (feed w c chunks).1 ∧
      (.cioClear ∈ c.trace → .cioClear ∈ (feed w c chunks).1.trace) := by
  induction chunks generalizing w c with
  | nil => exact ⟨h, id⟩
  | cons chunk chunks ih =>
      obtain ⟨h1, h2⟩ := readProcess_step h (w 0) chunk
      obtain ⟨h3, h4⟩ := ih h1 (fun k => w (k + 1))
      exact ⟨h3, h4 ∘ h2⟩

theorem feedInv_freshConn (mask : EvMask) : FeedInv (freshConn mask) :=
  ⟨Nat.le_refl _, fun _ => rfl⟩

/-- A stuck parser fails on every chunk. -/
theorem feed_stuck {c : Conn} (h : FeedInv c) (hne : c.io.rbuf ≠ [])
    (hs : Stuck c.io.toReq c.io.rbuf) (w : Nat → Writes) (later : List Bytes)
    (hlive : .cioClear ∉ (feed w c later).1.trace) : ∀ code ∈ (feed w c later).2, code = -1 := by
  induction later generalizing w c with
  | nil => simp [feed]
  | cons z later ih =>
      obtain ⟨h1, _⟩ := readProcess_step h (w 0) z
      have hstep : .cioClear ∉ (c.readProcess (.data z) (w 0)).1.trace := fun hc =>
        hlive ((feed_inv h1 (fun k => w (k + 1)) later).2 hc)
      rw [feed]
      simp only [List.mem_cons, forall_eq_or_imp]
      by_cases hz : z = []
      · subst hz
        exact ⟨rfl, ih h hne hs (fun k => w (k + 1)) hlive⟩
      · obtain ⟨msg, hparse⟩ := hs.parse hne hz
        have hcode : (c.readProcess (.data z) (w 0)).2 = -1 := by
          rw [readProcess_failed c (w 0) hz hparse]
        obtain ⟨⟨msg', hparse'⟩, hbuf, _⟩ := readProcess_error h (w 0) hz hcode hstep
        have hreq : c.io.toReq = (c.readProcess (.data z) (w 0)).1.io.toReq :=
          congrArg (·.2.1) (hparse.symm.trans hparse')
        refine ⟨hcode, ih h1 ?_ ?_ (fun k => w (k + 1)) hlive⟩
        · rw [hbuf]
          simp [hne]
        · rw [hbuf, ← hreq]
          exact hs.append hne z

/-- A parser that can recover does so while the socket takes nothing. -/
theorem feed_recovers {r : Req} {buf : Bytes} (h : Recovers r buf) :
    ∀ {c : Conn}, c.io.toReq = r → c.io.rbuf = buf → Waiting c →
      ∃ later, .cioClear ∉ (feed (fun _ _ => .eagain) c later).1.trace ∧
        ∃ code ∈ (feed (fun _ _ => .eagain) c later).2, code ≠ -1 := by
  induction h with
  | now z some accepted =>
      rintro c rfl rfl hwait
      refine ⟨[z], ?_⟩
      rcases readProcess_cases c (fun _ => .eagain) some with
        ⟨q, hq, hcode, hres⟩ | ⟨msg, r', buf', hq, _⟩
      · simp only [feed, hres]
        exact ⟨hwait.noClear, q.1.code, by simp, hcode⟩
      · rw [hq] at accepted
        exact absurd rfl accepted
  | later z some refused rest ih =>
      rintro c rfl rfl hwait
      obtain ⟨hreq, hbuf, hwait'⟩ := readProcess_waiting hwait some refused
      obtain ⟨later, hlive, code, hmem, hcode⟩ := ih hreq hbuf hwait'
      exact ⟨z :: later, hlive, code, by simp [feed, hmem], hcode⟩

/-- Every further call fails, whatever bytes arrive, until the record is cleared. -/
def ErrorIsFinal (c : Conn) : Prop :=
  ∀ (w : Nat → Writes) (later : List Bytes), .cioClear ∉ (feed w c later).1.trace →
    ∀ code ∈ (feed w c later).2, code = -1

/-- In every run, a protocol error is final exactly when the header line that the
next call reads again is refused for good. -/
theorem protocolError_final_iff (mask : EvMask) (w : Nat → Writes) (before : List Bytes)
    (chunk : Bytes) (w' : Writes) (hne : chunk ≠ [])
    (herr : ((feed w (freshConn mask) before).1.readProcess (.data chunk) w').2 = -1)
    (hlive : .cioClear ∉
      ((feed w (freshConn mask) before).1.readProcess (.data chunk) w').1.trace) :
    ErrorIsFinal ((feed w (freshConn mask) before).1.readProcess (.data chunk) w').1 ↔
      RefusedForGood (feed w (freshConn mask) before).1.io.toReq
        ((feed w (freshConn mask) before).1.io.rbuf ++ chunk) := by
  obtain ⟨hinv, _⟩ := feed_inv (feedInv_freshConn mask) w before
  generalize (feed w (freshConn mask) before).1 = c at *
  obtain ⟨⟨msg, hparse⟩, hbuf, hwait⟩ := readProcess_error hinv w' hne herr hlive
  obtain ⟨_, hexit⟩ := parseCommand_error hparse
  obtain ⟨hinv', _⟩ := readProcess_step hinv w' chunk
  generalize (c.readProcess (.data chunk) w').1 = c' at *
  have hbuf' : c.io.rbuf ++ chunk ≠ [] := by simp [hne]
  constructor
  · intro hfinal
    by_contra hrefused
    have hrec := recovers_of_not_refused hinv.idle hexit hrefused
    obtain ⟨later, hlive', code, hmem, hcode⟩ := feed_recovers hrec rfl hbuf hwait
    exact hcode (hfinal _ later hlive' code hmem)
  · intro hrefused w later hlive'
    have hstuck := stuck_of_refused hbuf' hexit hrefused
    rw [← hbuf] at hstuck hbuf'
    exact feed_stuck hinv' hbuf' hstuck w later hlive'

/-- A bad first byte behind a whole count line is an error for good. -/
theorem protocolError_final_iff_bad_tag :
    ErrorIsFinal ((feed (fun _ _ => .eagain) (freshConn (cevRead.or cevPersist)) []).1.readProcess
        (.data (ascii "*1\r\nX\r\n")) fun _ => .eagain).1 ↔
      RefusedForGood (feed (fun _ _ => .eagain) (freshConn (cevRead.or cevPersist)) []).1.io.toReq
        ((feed (fun _ _ => .eagain) (freshConn (cevRead.or cevPersist)) []).1.io.rbuf ++
          ascii "*1\r\nX\r\n") :=
  protocolError_final_iff (cevRead.or cevPersist) (fun _ _ => .eagain) []
    (ascii "*1\r\nX\r\n") (fun _ => .eagain) (by decide) (by decide) (by decide)

/-- `*2 CRLF`, then `$1 CRLF a CRLF X CRLF`: the error reply is armed, the buffer
still begins with a good group, and the next byte completes the command. -/
theorem protocolError_recovers :
    let c := (feed (fun _ _ => .eagain) (freshConn (cevRead.or cevPersist))
      [ascii "*2\r\n", ascii "$1\r\na\r\nX\r\n"])
    c.2 = [1, -1] ∧ c.1.io.closeAfterWrite = true ∧ .cioClear ∉ c.1.trace ∧
      (feed (fun _ _ => .eagain) c.1 [ascii "!"]).2 = [0] ∧ ¬ ErrorIsFinal c.1 := by
  refine ⟨by decide, by decide, by decide, by decide, ?_⟩
  intro hfinal
  exact absurd (hfinal (fun _ _ => .eagain) [ascii "!"] (by decide) 0 (by decide)) (by decide)

end ThrSocket
