import ThrSocket.Calls
import ThrSocket.Multibulk

/-!
What the multi-bulk parser accepts: every encoded request, with any bytes
behind it, and nothing but requests framed by their own length lines. The two
bytes behind a payload are skipped unread, and a length line is only as good
as the conversion of its digits.
-/

namespace ThrSocket
open CString Decimal

theorem parseMultibluk_encodeRequest {ps : List Bytes} (hv : ValidRequest ps) {r : Req}
    (hn : r.nbulk = 0) (hb : r.bulkLen = 0) (rest : Bytes) :
    parseMultibluk r (encodeRequest ps ++ rest) =
      (.complete, { r with nbulk := 0, bulkLen := 0, argv := some ⟨ps.length, ps⟩ },
        encodeRequest ps ++ rest) := by
  have hbuf : encodeRequest ps ++ rest =
      countHeader ps.length ++ (encodeBulks ps ++ rest) := by
    simp [encodeRequest]
  have hdrop : (encodeRequest ps ++ rest).drop (countHeader ps.length).length =
      encodeBulks ps ++ rest := by
    rw [hbuf, List.drop_left]
  have hline : bulkCountLine (encodeRequest ps ++ rest) =
      .ok (ps.length, (countHeader ps.length).length) := by
    rw [hbuf]
    exact bulkCountLine_header hv.pos hv.le _
  have hloop := bulkLoop_groups (m := 0) hv.payload (some ⟨ps.length, []⟩) hdrop
  rw [parseMultibluk, if_pos hn, hline]
  simp only [hb]
  rw [Nat.add_zero] at hloop
  rw [hloop, bulkLoop]
  simp [LoopExit.finish, Argv.pushAll]

theorem encodeRequest_head (ps : List Bytes) (rest : Bytes) :
    (encodeRequest ps ++ rest).getD 0 0 = 42 := by
  simp [encodeRequest, countHeader]

theorem encodeRequest_length_pos (ps : List Bytes) : 0 < (encodeRequest ps).length := by
  simp only [encodeRequest, List.length_append, countHeader_length]
  omega

theorem parseCommand_encodeRequest {ps : List Bytes} (hv : ValidRequest ps) {r : Req}
    (hn : r.nbulk = 0) (hb : r.bulkLen = 0) (rest : Bytes) :
    parseCommand r (encodeRequest ps ++ rest) =
      (.complete,
        { nbulk := 0, bulkLen := 0, reqtype := .mbulk, argv := some ⟨ps.length, ps⟩ },
        encodeRequest ps ++ rest) := by
  have hpos := encodeRequest_length_pos ps
  rw [parseCommand, if_neg (by simp only [List.length_append]; omega),
    if_pos (.inr (encodeRequest_head ps rest)),
    parseMultibluk_encodeRequest (r := { r with reqtype := .mbulk }) hv hn hb]

/-- A whole request is accepted whatever follows it in the buffer. -/
theorem tryProcessCommand_encodeRequest (mask : EvMask) (w : Writes) (ps : List Bytes)
    (hv : ValidRequest ps) (rest : Bytes) :
    let res := ((freshConn mask).receive (encodeRequest ps ++ rest)).tryProcessCommand w
    res.2 = 0 ∧ res.1.io.argv = some ⟨ps.length, ps⟩ ∧
      res.1.io.nbulk = 0 ∧ res.1.io.bulkLen = 0 := by
  have hparse := parseCommand_encodeRequest (r := {}) hv rfl rfl rest
  have hbuf : ((freshConn mask).receive (encodeRequest ps ++ rest)).io.rbuf =
      encodeRequest ps ++ rest := List.nil_append _
  have hreq : ((freshConn mask).receive (encodeRequest ps ++ rest)).io.toReq = {} := rfl
  simp only [Conn.tryProcessCommand, hbuf, hreq, hparse, Conn.endParse]
  exact ⟨rfl, rfl, rfl, rfl⟩

/-- A payload with a NUL and a CRLF inside, and a partial request behind. -/
theorem tryProcessCommand_encodeRequest_binary :
    let res := ((freshConn cevRead).receive
      (encodeRequest [[97, 0, 13, 10, 98], [13]] ++ [42, 51])).tryProcessCommand
        fun _ => .eagain
    res.2 = 0 ∧ res.1.io.argv = some ⟨2, [[97, 0, 13, 10, 98], [13]]⟩ ∧
      res.1.io.nbulk = 0 ∧ res.1.io.bulkLen = 0 :=
  tryProcessCommand_encodeRequest cevRead (fun _ => .eagain) [[97, 0, 13, 10, 98], [13]]
    ⟨by decide, by decide, by decide⟩ [42, 51]

/-- A group as the parser takes it: the length line as written, the payload it
announces, and the two bytes behind the payload, whatever they are. -/
structure Bulk where
  digits : Bytes
  payload : Bytes
  term : Bytes
  allDigits : AllDigits digits
  announced : payload.length = value digits % 2 ^ 64
  valid : ValidPayload payload
  term_length : term.length = 2

def Bulk.bytes (g : Bulk) : Bytes := 36 :: (g.digits ++ (crlf ++ (g.payload ++ g.term)))

/-- Where a line with a visible first byte ends, and what stands in it. -/
theorem strstr_line_split {x : Bytes} {c : UInt8} {ptr : Nat} (hc : c ≠ 13) (hz : c ≠ 0)
    (hhead : x.getD 0 0 = c) (h : strstr crlf x = some ptr) :
    ptr = ((x.drop 1).take (ptr - 1)).length + 1 ∧
      x = c :: ((x.drop 1).take (ptr - 1) ++ (crlf ++ x.drop (ptr + 2))) := by
  obtain ⟨rest, hsplit⟩ := strstr_split h
  have hle := strstr_le h
  rw [crlf_length] at hle
  cases x with
  | nil => simp at hhead; exact absurd hhead.symm hz
  | cons a x =>
      have ha : a = c := by simpa using hhead
      subst ha
      cases ptr with
      | zero =>
          simp only [List.take_zero, List.nil_append, crlf, List.cons_append] at hsplit
          exact absurd (List.cons.inj hsplit).1 hc
      | succ ptr =>
          simp only [List.length_cons] at hle
          have hsplit' : x = x.take ptr ++ (crlf ++ rest) := by simpa using hsplit
          have hrest : x.drop (ptr + 2) = rest := by
            rw [← List.drop_drop]
            have := congrArg (List.drop ptr) hsplit'
            rw [List.drop_append_of_le_length (by simp; omega)] at this
            rw [this]
            simp [crlf]
          refine ⟨by simp; omega, ?_⟩
          simpa [hrest] using hsplit'

theorem bulkCountLine_ok {rbuf : Bytes} {n pos : Nat} (h : bulkCountLine rbuf = .ok (n, pos)) :
    ∃ ds rest, rbuf = 42 :: (ds ++ (crlf ++ rest)) ∧ rbuf.drop pos = rest ∧ pos = ds.length + 3 ∧
      str2llLoop 0 ds = some n ∧ 1 ≤ n ∧ n ≤ 1024 := by
  rw [bulkCountLine] at h
  split at h
  · cases h
  · rename_i hhead
    split at h
    · cases h
    · rename_i ptr hptr
      split at h
      · cases h
      · rename_i len hlen
        split at h
        · cases h
        · rename_i hrange
          simp only [Except.ok.injEq, Prod.mk.injEq] at h
          obtain ⟨rfl, rfl⟩ := h
          obtain ⟨hp, hx⟩ := strstr_line_split (by decide) (by decide) (not_not.mp hhead) hptr
          exact ⟨_, _, hx, rfl, by omega, str2ll_pos hlen (by omega), by omega, by omega⟩

theorem bulkLenLine_ok {rbuf : Bytes} {pos len pos' : Nat}
    (h : bulkLenLine rbuf pos = .ok (len, pos')) :
    ∃ ds rest, rbuf.drop pos = 36 :: (ds ++ (crlf ++ rest)) ∧ rbuf.drop pos' = rest ∧
      pos' = pos + ds.length + 3 ∧ str2llLoop 0 ds = some len ∧
      1 ≤ len ∧ len ≤ maxCommandLenLimit := by
  rw [bulkLenLine] at h
  split at h
  · cases h
  · rename_i ptr hptr
    split at h
    · cases h
    · rename_i hhead
      split at h
      · cases h
      · rename_i l hlen
        split at h
        · cases h
        · rename_i hrange
          simp only [Except.ok.injEq, Prod.mk.injEq] at h
          obtain ⟨rfl, rfl⟩ := h
          have hhead' : (rbuf.drop pos).getD 0 0 = 36 := by
            simpa [List.getD_eq_getElem?_getD] using hhead
          obtain ⟨hp, hx⟩ := strstr_line_split (by decide) (by decide) hhead' hptr
          rw [List.drop_drop] at hp hx
          refine ⟨_, _, hx, ?_, by omega, str2ll_pos hlen (by omega), by omega, by omega⟩
          rw [List.drop_drop, Nat.add_assoc]

/-- A loop that runs to its end has taken one group per round. -/
theorem bulkLoop_complete {rbuf : Bytes} {n pos : Nat} {argv : Option Argv}
    (h : (bulkLoop rbuf n 0 pos argv).verdict = .complete) :
    ∃ (gs : List Bulk) (rest : Bytes), gs.length = n ∧
      rbuf.drop pos = gs.flatMap Bulk.bytes ++ rest ∧
      (bulkLoop rbuf n 0 pos argv).argv = argv.map (·.pushAll (gs.map Bulk.payload)) := by
  induction n generalizing pos argv with
  | zero => exact ⟨[], rbuf.drop pos, rfl, by simp, by simp [bulkLoop]⟩
  | succ n ih =>
      rw [bulkLoop, if_pos rfl] at h ⊢
      cases hline : bulkLenLine rbuf pos with
      | error v =>
          simp only [hline] at h
          subst h
          rcases bulkLenLine_error hline with hv | ⟨_, -, hv⟩ <;> cases hv
      | ok r =>
          obtain ⟨len, pos'⟩ := r
          obtain ⟨ds, rest, hx, hrest, hpos', hloop, h1, h2⟩ := bulkLenLine_ok hline
          obtain ⟨hds, _, hval⟩ := str2llLoop_pos hloop h1
          simp only [hline] at h ⊢
          split at h
          · cases h
          · rename_i hroom
            rw [if_neg hroom]
            obtain ⟨gs, rest', hgs, hdrop, hargv⟩ := ih h
            have hlen : len + 2 ≤ rest.length := by
              rw [← hrest, List.length_drop]
              omega
            let g : Bulk :=
              { digits := ds, payload := rest.take len, term := (rest.drop len).take 2
                allDigits := hds
                announced := by rw [List.length_take, hval]; omega
                valid := by rw [ValidPayload]; rw [List.length_take]; omega
                term_length := by rw [List.length_take, List.length_drop]; omega }
            have hsplit : rest = g.payload ++ (g.term ++ (gs.flatMap Bulk.bytes ++ rest')) := by
              rw [← hdrop, Nat.add_assoc, ← List.drop_drop, hrest, ← List.drop_drop,
                List.take_append_drop, List.take_append_drop]
            refine ⟨g :: gs, rest', by simp [hgs], ?_, ?_⟩
            · rw [hx]
              conv_lhs => rw [hsplit]
              simp [Bulk.bytes, g]
            · rw [hargv, hrest, Option.map_map]
              simp [Function.comp_def, g]

theorem parseMultibluk_complete {r : Req} {rbuf : Bytes} (hn : r.nbulk = 0) (hb : r.bulkLen = 0)
    (h : (parseMultibluk r rbuf).1 = .complete) :
    ∃ (ds : Bytes) (gs : List Bulk) (rest : Bytes),
      rbuf = 42 :: (ds ++ (crlf ++ (gs.flatMap Bulk.bytes ++ rest))) ∧
      AllDigits ds ∧ gs.length = value ds % 2 ^ 64 ∧ 1 ≤ gs.length ∧ gs.length ≤ 1024 ∧
      (parseMultibluk r rbuf).2.1.argv = some ⟨gs.length, gs.map Bulk.payload⟩ := by
  rw [parseMultibluk, if_pos hn] at h ⊢
  cases hline : bulkCountLine rbuf with
  | error v =>
      simp only [hline] at h
      subst h
      rcases bulkCountLine_error hline with hv | ⟨_, -, hv⟩ <;> cases hv
  | ok r' =>
      obtain ⟨n, pos⟩ := r'
      obtain ⟨ds, rest, hx, hrest, _, hloop, h1, h2⟩ := bulkCountLine_ok hline
      obtain ⟨hds, _, hval⟩ := str2llLoop_pos hloop h1
      simp only [hline, hb] at h ⊢
      obtain ⟨gs, rest', hgs, hdrop, hargv⟩ := bulkLoop_complete h
      refine ⟨ds, gs, rest', ?_, hds, by omega, by omega, by omega, ?_⟩
      · rw [hx, ← hrest, hdrop]
      · simp only [LoopExit.finish, hargv, hgs]
        simp [Argv.pushAll]

/-- Whatever the multi-bulk parser accepts starts with a count line and that many
groups of the announced lengths, and the payloads are the arguments. A number is
the decimal value of its digits as long as that value fits 64 bits. -/
theorem tryProcessMultiblukCommand_sound (mask : EvMask) (w : Writes) (rbuf : Bytes)
    (h : (((freshConn mask).receive rbuf).tryProcessMultiblukCommand w).2 = 0) :
    ∃ (ds : Bytes) (gs : List Bulk) (rest : Bytes),
      rbuf = 42 :: (ds ++ (crlf ++ (gs.flatMap Bulk.bytes ++ rest))) ∧
      AllDigits ds ∧ (value ds < 2 ^ 64 → gs.length = value ds) ∧
      1 ≤ gs.length ∧ gs.length ≤ 1024 ∧
      (∀ g ∈ gs, value g.digits < 2 ^ 64 → g.payload.length = value g.digits) ∧
      (∀ g ∈ gs, ValidPayload g.payload) ∧
      (((freshConn mask).receive rbuf).tryProcessMultiblukCommand w).1.io.argv =
        some ⟨gs.length, gs.map Bulk.payload⟩ := by
  have hbuf : ((freshConn mask).receive rbuf).io.rbuf = rbuf := List.nil_append _
  have hreq : ((freshConn mask).receive rbuf).io.toReq = {} := rfl
  rw [Conn.tryProcessMultiblukCommand, hbuf, hreq] at h ⊢
  rw [Conn.endParse_snd, Verdict.code_eq_zero] at h
  obtain ⟨ds, gs, rest, hx, hds, hn, h1, h2, hargv⟩ := parseMultibluk_complete rfl rfl h
  refine ⟨ds, gs, rest, hx, hds, ?_, h1, h2, ?_, fun g _ => g.valid, ?_⟩
  · intro hlt
    rw [hn, Nat.mod_eq_of_lt hlt]
  · intro g _ hlt
    rw [g.announced, Nat.mod_eq_of_lt hlt]
  · rw [Conn.endParse, h]
    exact hargv

theorem tryProcessMultiblukCommand_sound_hi :
    ∃ (ds : Bytes) (gs : List Bulk) (rest : Bytes),
      ascii "*1\r\n$2\r\nhi\r\n" = 42 :: (ds ++ (crlf ++ (gs.flatMap Bulk.bytes ++ rest))) ∧
      AllDigits ds ∧ (value ds < 2 ^ 64 → gs.length = value ds) ∧
      1 ≤ gs.length ∧ gs.length ≤ 1024 ∧
      (∀ g ∈ gs, value g.digits < 2 ^ 64 → g.payload.length = value g.digits) ∧
      (∀ g ∈ gs, ValidPayload g.payload) ∧
      (((freshConn cevRead).receive (ascii "*1\r\n$2\r\nhi\r\n")).tryProcessMultiblukCommand
        fun _ => .eagain).1.io.argv = some ⟨gs.length, gs.map Bulk.payload⟩ :=
  tryProcessMultiblukCommand_sound cevRead (fun _ => .eagain)
    (ascii "*1\r\n$2\r\nhi\r\n") (by decide)

/-- The framing with every terminator checked and every number exact. -/
def StrictlyFramed (rbuf : Bytes) (objs : List Bytes) : Prop :=
  ∃ (ds : Bytes) (gs : List Bulk) (rest : Bytes),
    rbuf = 42 :: (ds ++ (crlf ++ (gs.flatMap Bulk.bytes ++ rest))) ∧
    AllDigits ds ∧ gs.length = value ds ∧ 1 ≤ gs.length ∧ gs.length ≤ 1024 ∧
    (∀ g ∈ gs, g.payload.length = value g.digits ∧ g.term = crlf) ∧
    objs = gs.map Bulk.payload

/-- `*1 CRLF $1 CRLF a X X` is accepted with the argument `a`. -/
theorem tryProcessMultiblukCommand_unchecked_terminator :
    let rbuf := ascii "*1\r\n$1\r\naXX"
    let res := ((freshConn cevRead).receive rbuf).tryProcessMultiblukCommand fun _ => .eagain
    res.2 = 0 ∧ res.1.io.argv = some ⟨1, [[97]]⟩ ∧ ¬ StrictlyFramed rbuf [[97]] := by
  refine ⟨by decide, by decide, ?_⟩
  rintro ⟨ds, gs, rest, heq, _, _, _, _, hterm, hobjs⟩
  obtain ⟨g, rfl⟩ : ∃ g, gs = [g] := by
    cases gs with
    | nil => simp at hobjs
    | cons g gs =>
        cases gs with
        | nil => exact ⟨g, rfl⟩
        | cons g' gs => simp at hobjs
  have hg := (hterm g (by simp)).2
  -- every CR of the strict form is counted; the input has only two
  have hcount := congrArg (List.count 13) heq
  simp only [List.flatMap_cons, List.flatMap_nil, Bulk.bytes, hg, crlf, List.count_append,
    List.count_cons, List.count_nil] at hcount
  revert hcount
  rw [show List.count 13 (ascii "*1\r\n$1\r\naXX") = 2 from by decide]
  simp only [beq_iff_eq, reduceIte]
  intro hcount
  have h42 : ¬ (42 : UInt8) = 13 := by decide
  have h36 : ¬ (36 : UInt8) = 13 := by decide
  have h10 : ¬ (10 : UInt8) = 13 := by decide
  simp only [h42, h36, h10, if_false] at hcount
  omega

end ThrSocket
