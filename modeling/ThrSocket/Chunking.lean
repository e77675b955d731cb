import ThrSocket.RequestFormat

/-!
Requests cut into chunks. After a cut at a line end the parser's fields and the
empty buffer describe exactly what was consumed. A cut anywhere else behind the
count line makes the trimming drop bytes of the request; from then on a count of
the bytes still known to the parser stays below what the request needs.
-/

namespace ThrSocket
open CString Decimal

/-- Chunks fed to `_read_process` in order, with the return value of each call;
`w k` are the write outcomes that call `k` meets. -/
def feed (w : Nat → Writes) (c : Conn) : List Bytes → Conn × List Int
  | [] => (c, [])
  | chunk :: chunks =>
      let r := c.readProcess (.data chunk) (w 0)
      let rs := feed (fun k => w (k + 1)) r.1 chunks
      (rs.1, r.2 :: rs.2)

def Reassembled (ps : List Bytes) (res : Conn × List Int) : Prop :=
  (∃ k, res.2 = List.replicate k 1 ++ [0]) ∧ res.1.io.argv = some ⟨ps.length, ps⟩

/-- A way of cutting an encoded request into what single reads deliver. -/
structure Chunking (ps : List Bytes) (chunks : List Bytes) : Prop where
  nonempty : ∀ b ∈ chunks, b ≠ []
  small : ∀ b ∈ chunks, b.length ≤ readBufSize
  joined : chunks.flatten = encodeRequest ps

/-- The bytes behind the count line end between groups or behind a length line. -/
def SafeTail : List Bytes → Bytes → Prop
  | [], y => y = []
  | p :: ps, y => y = [] ∨ y = bulkHeader p ∨ ∃ z, y = bulkGroup p ++ z ∧ SafeTail ps z

/-- A cut in the count line or at its end, before a `$`, or behind a length line. -/
def SafeCut (ps : List Bytes) (w : Bytes) : Prop :=
  w <+: countHeader ps.length ∨ ∃ y, w = countHeader ps.length ++ y ∧ SafeTail ps y

theorem safeTail_nil (ps : List Bytes) : SafeTail ps [] := by
  cases ps with
  | nil => rfl
  | cons p ps => exact .inl rfl

theorem safeTail_group {p : Bytes} {ps : List Bytes} {z : Bytes} :
    SafeTail (p :: ps) (bulkGroup p ++ z) ↔ SafeTail ps z := by
  constructor
  · rintro (h | h | ⟨y, h, hy⟩)
    · have := congrArg List.length h
      simp at this
    · have := congrArg List.length h
      simp at this
      omega
    · rwa [List.append_cancel_left h]
  · intro h
    exact .inr (.inr ⟨z, rfl, h⟩)

theorem safeTail_groups {qs ps : List Bytes} {z : Bytes} :
    SafeTail (qs ++ ps) (encodeBulks qs ++ z) ↔ SafeTail ps z := by
  induction qs with
  | nil => simp
  | cons q qs ih =>
      rw [List.cons_append, encodeBulks_cons, List.append_assoc, safeTail_group, ih]

/-- Inside a length line, or between it and the next group, nothing is safe. -/
theorem not_safeTail {p : Bytes} {ps : List Bytes} {y : Bytes} (hne : y ≠ [])
    (hh : y ≠ bulkHeader p) (hl : y.length < (bulkGroup p).length) : ¬ SafeTail (p :: ps) y := by
  rintro (h | h | ⟨z, h, _⟩)
  · exact hne h
  · exact hh h
  · have := congrArg List.length h
    rw [List.length_append] at this
    omega

/-- Behind the count line, a safe cut is a safe end of the bytes behind it. -/
theorem safeCut_append {ps : List Bytes} {y : Bytes} :
    SafeCut ps (countHeader ps.length ++ y) ↔ SafeTail ps y := by
  constructor
  · rintro (h | ⟨z, h, hz⟩)
    · have hy : y = [] := by
        have := h.length_le
        rw [List.length_append] at this
        exact List.length_eq_zero_iff.mp (by omega)
      rw [hy]
      exact safeTail_nil ps
    · rwa [List.append_cancel_left h]
  · intro h
    exact .inr ⟨y, rfl, h⟩

/-- How the loop leaves a front part `y` of the groups `qs` that starts at the
current position of the buffer. -/
inductive TailExit (rbuf : Bytes) (a : Argv) (qs : List Bytes) (y : Bytes) (x : LoopExit) : Prop
  | complete (whole : y = encodeBulks qs)
      (exit : x = ⟨.complete, 0, 0, rbuf.length, some (a.pushAll qs)⟩)
  | boundary (done : List Bytes) (p : Bytes) (ahead : List Bytes)
      (split : qs = done ++ p :: ahead) (here : y = encodeBulks done)
      (exit : x = ⟨.needMore, ahead.length + 1, 0, rbuf.length, some (a.pushAll done)⟩)
  | behindLine (done : List Bytes) (p : Bytes) (ahead : List Bytes)
      (split : qs = done ++ p :: ahead) (here : y = encodeBulks done ++ bulkHeader p)
      (exit : x = ⟨.needMore, ahead.length + 1, p.length, rbuf.length, some (a.pushAll done)⟩)
  | cut (unsafeEnd : ¬ SafeTail qs y) (more : x.verdict = .needMore) (lost : x.pos < rbuf.length)

/-- Groups in front change nothing but what has been stored. -/
theorem TailExit.cons {rbuf : Bytes} {a : Argv} {p : Bytes} {qs : List Bytes} {y : Bytes}
    {x : LoopExit} (h : TailExit rbuf (a.push p) qs y x) :
    TailExit rbuf a (p :: qs) (bulkGroup p ++ y) x := by
  cases h with
  | complete whole exit =>
      exact .complete (by rw [whole, encodeBulks_cons]) (by rw [exit, Argv.push_pushAll])
  | boundary done q ahead split here exit =>
      exact .boundary (p :: done) q ahead (by rw [split]; rfl) (by rw [here]; rfl)
        (by rw [exit, Argv.push_pushAll])
  | behindLine done q ahead split here exit =>
      exact .behindLine (p :: done) q ahead (by rw [split]; rfl) (by rw [here]; simp)
        (by rw [exit, Argv.push_pushAll])
  | cut unsafeEnd more lost => exact .cut (by rwa [safeTail_group]) more lost

theorem lineMissing_small {rbuf : Bytes} (h : rbuf.length ≤ maxCommandLenLimit) :
    lineMissing rbuf = .needMore := by
  rw [lineMissing, if_neg (by omega)]

/-- One group of which only a front part is there. -/
theorem bulkLoop_partial {rbuf p y : Bytes} {qs : List Bytes} {pos : Nat} {a : Argv}
    (hp : ValidPayload p) (hsmall : rbuf.length ≤ maxCommandLenLimit) (hpos : pos ≤ rbuf.length)
    (hdrop : rbuf.drop pos = y) (hy : y <+: bulkGroup p) (hlt : y.length < (bulkGroup p).length) :
    TailExit rbuf a (p :: qs) y (bulkLoop rbuf (qs.length + 1) 0 pos (some a)) := by
  have hlen : rbuf.length = pos + y.length := by
    rw [← hdrop, List.length_drop]
    omega
  by_cases hline : y.length < (bulkHeader p).length
  · -- the length line itself is cut
    have hin : y <+: bulkHeader p :=
      List.prefix_of_prefix_length_le hy (List.prefix_append _ _) (by omega)
    have hnone : strstr crlf (rbuf.drop pos) = none := by
      rw [hdrop]
      exact strstr_partial_line (.inr rfl) (allDigits_numeral _) hin (by simpa using hline)
    have hexit : bulkLoop rbuf (qs.length + 1) 0 pos (some a) =
        ⟨.needMore, qs.length + 1, 0, pos, some a⟩ := by
      rw [bulkLoop, if_pos rfl, bulkLenLine, hnone, lineMissing_small hsmall]
    rw [hexit]
    by_cases hnil : y = []
    · subst hnil
      exact .boundary [] p qs rfl rfl (by simp [hlen])
    · have := List.length_pos_iff.mpr hnil
      refine .cut (not_safeTail hnil ?_ hlt) rfl ?_
      · rintro rfl
        omega
      · change pos < rbuf.length
        omega
  · -- the length line is there, the payload and its terminator are not
    obtain ⟨z, hz⟩ : ∃ z, y = bulkHeader p ++ z := by
      have hhead : bulkHeader p <+: y :=
        List.prefix_of_prefix_length_le (List.prefix_append _ _) hy (by omega)
      obtain ⟨z, hz⟩ := hhead
      exact ⟨z, hz.symm⟩
    have hzl : y.length = (bulkHeader p).length + z.length := by rw [hz, List.length_append]
    rw [bulkGroup_length] at hlt
    have hexit : bulkLoop rbuf (qs.length + 1) 0 pos (some a) =
        ⟨.needMore, qs.length + 1, p.length, pos + (bulkHeader p).length, some a⟩ := by
      rw [bulkLoop, if_pos rfl, bulkLenLine_header hp (by rw [hdrop, hz])]
      simp only
      rw [if_pos (by omega)]
    rw [hexit]
    by_cases hnil : z = []
    · subst hnil
      exact .behindLine [] p qs rfl (by simpa using hz) (by simp [hlen, hz])
    · have := List.length_pos_iff.mpr hnil
      refine .cut (not_safeTail ?_ ?_ (by rw [bulkGroup_length]; omega)) rfl ?_
      · rintro rfl
        simp at hzl
        omega
      · intro h
        rw [h] at hzl
        omega
      · change pos + (bulkHeader p).length < rbuf.length
        omega

theorem bulkLoop_tail {rbuf : Bytes} {qs : List Bytes} (hq : ∀ p ∈ qs, ValidPayload p)
    (hsmall : rbuf.length ≤ maxCommandLenLimit) {y : Bytes} {pos : Nat} {a : Argv}
    (hpos : pos ≤ rbuf.length) (hdrop : rbuf.drop pos = y) (hy : y <+: encodeBulks qs) :
    TailExit rbuf a qs y (bulkLoop rbuf qs.length 0 pos (some a)) := by
  induction qs generalizing y pos a with
  | nil =>
      have hnil : y = [] := by simpa using hy
      have hlen := congrArg List.length hdrop
      simp only [hnil, List.length_drop, List.length_nil] at hlen
      exact .complete (by simpa using hnil) (by simp [bulkLoop]; omega)
  | cons p qs ih =>
      have hp := hq p (by simp)
      by_cases hlt : y.length < (bulkGroup p).length
      · exact bulkLoop_partial hp hsmall hpos hdrop
          (List.prefix_of_prefix_length_le hy (List.prefix_append _ _) (by omega)) hlt
      · obtain ⟨z, rfl⟩ : ∃ z, y = bulkGroup p ++ z := by
          obtain ⟨z, hz⟩ : bulkGroup p <+: y :=
            List.prefix_of_prefix_length_le (List.prefix_append _ _) hy (by omega)
          exact ⟨z, hz.symm⟩
        have hz : z <+: encodeBulks qs := by
          rw [encodeBulks_cons] at hy
          exact (List.prefix_append_right_inj _).mp hy
        have hrest : rbuf.drop (pos + (bulkGroup p).length) = z := by
          rw [← List.drop_drop, hdrop, List.drop_left]
        have hle : pos + (bulkGroup p).length ≤ rbuf.length := by
          have := congrArg List.length hdrop
          rw [List.length_drop, List.length_append] at this
          omega
        rw [List.length_cons, bulkLoop_group hp hdrop]
        exact (ih (fun q hm => hq q (by simp [hm])) hle hrest hz).cons

def lineWeight (bulkLen : Nat) : Nat := if bulkLen = 0 then 0 else (numeral bulkLen).length + 3

/-- What the stored groups, the announced length and the unread bytes amount to,
when every number is written as short as possible. -/
def weight (r : Req) (rbuf : Bytes) : Nat :=
  (encodeBulks ((r.argv.map Argv.objs).getD [])).length + lineWeight r.bulkLen + rbuf.length

theorem lineWeight_pos {n : Nat} (h : n ≠ 0) : lineWeight n = (numeral n).length + 3 := by
  rw [lineWeight, if_neg h]

/-- A length line weighs no more than its bytes. -/
theorem bulkLenLine_weight {rbuf : Bytes} {pos len pos' : Nat} (hpos : pos ≤ rbuf.length)
    (h : bulkLenLine rbuf pos = .ok (len, pos')) :
    len ≠ 0 ∧ pos' ≤ rbuf.length ∧
      lineWeight len + (rbuf.length - pos') ≤ rbuf.length - pos := by
  obtain ⟨ds, rest, hx, _, hpos', hloop, h1, h2⟩ := bulkLenLine_ok h
  obtain ⟨hds, hne, hval⟩ := str2llLoop_pos hloop h1
  have hlen := congrArg List.length hx
  simp only [List.length_drop, List.length_cons, List.length_append, crlf_length] at hlen
  have hnum : (numeral len).length ≤ ds.length := by
    refine numeral_length_le hne ?_
    have := value_lt hds
    have := Nat.mod_le (value ds) (2 ^ 64)
    omega
  rw [lineWeight_pos (by omega)]
  omega

theorem encodeBulks_push_length (xs : List Bytes) (p : Bytes) (hp : p.length ≠ 0) :
    (encodeBulks (xs ++ [p])).length =
      (encodeBulks xs).length + lineWeight p.length + p.length + 2 := by
  rw [lineWeight_pos hp]
  simp
  omega

/-- The loop adds no weight, whatever the bytes are. -/
theorem bulkLoop_weight {rbuf : Bytes} {n bulkLen pos : Nat} {a : Argv}
    (hpos : pos ≤ rbuf.length) :
    ∃ a', (bulkLoop rbuf n bulkLen pos (some a)).argv = some a' ∧
      (bulkLoop rbuf n bulkLen pos (some a)).pos ≤ rbuf.length ∧
      (encodeBulks a'.objs).length +
          lineWeight (bulkLoop rbuf n bulkLen pos (some a)).bulkLen +
          (rbuf.length - (bulkLoop rbuf n bulkLen pos (some a)).pos) ≤
        (encodeBulks a.objs).length + lineWeight bulkLen + (rbuf.length - pos) ∧
      ((bulkLoop rbuf n bulkLen pos (some a)).verdict = .needMore →
        (bulkLoop rbuf n bulkLen pos (some a)).nbulk ≠ 0) := by
  induction n generalizing bulkLen pos a with
  | zero => exact ⟨a, rfl, hpos, Nat.le_refl _, fun h => by cases h⟩
  | succ n ih =>
      rw [bulkLoop]
      cases hline : (if bulkLen = 0 then bulkLenLine rbuf pos else .ok (bulkLen, pos)) with
      | error v => exact ⟨a, rfl, hpos, Nat.le_refl _, fun _ => Nat.succ_ne_zero n⟩
      | ok r =>
          obtain ⟨len, pos'⟩ := r
          have hstart : len ≠ 0 ∧ pos' ≤ rbuf.length ∧
              lineWeight len + (rbuf.length - pos') ≤
                lineWeight bulkLen + (rbuf.length - pos) := by
            by_cases h0 : bulkLen = 0
            · rw [if_pos h0] at hline
              obtain ⟨h1, h2, h3⟩ := bulkLenLine_weight hpos hline
              exact ⟨h1, h2, by omega⟩
            · rw [if_neg h0] at hline
              cases hline
              exact ⟨h0, hpos, Nat.le_refl _⟩
          obtain ⟨hlen, hpos', hw⟩ := hstart
          simp only
          split
          · exact ⟨a, rfl, hpos', by simp only; omega, fun _ => Nat.succ_ne_zero n⟩
          · rename_i hroom
            have hstored : ((rbuf.drop pos').take len).length = len := by
              rw [List.length_take, List.length_drop]
              omega
            have hnext : pos' + len + 2 ≤ rbuf.length := by omega
            obtain ⟨a', h1, h2, h3, h4⟩ := ih (a := a.push ((rbuf.drop pos').take len)) hnext
            refine ⟨a', h1, h2, Nat.le_trans h3 ?_, h4⟩
            have hpush := encodeBulks_push_length a.objs ((rbuf.drop pos').take len)
              (by rw [hstored]; exact hlen)
            rw [hstored] at hpush
            change (encodeBulks (a.objs ++ _)).length + lineWeight 0 + _ ≤ _
            rw [hpush]
            simp only [lineWeight, if_true]
            unfold lineWeight at hw
            omega

/-- What a call in the middle of a request leaves weighs at most what it was given. -/
theorem parseMultibluk_weight {r : Req} (hn : r.nbulk ≠ 0) {a : Argv} (ha : r.argv = some a)
    (rbuf : Bytes) :
    ∃ a', (parseMultibluk r rbuf).2.1.argv = some a' ∧
      (encodeBulks a'.objs).length ≤ weight r rbuf ∧
      ((parseMultibluk r rbuf).1 = .needMore →
        (parseMultibluk r rbuf).2.1.nbulk ≠ 0 ∧
        weight (parseMultibluk r rbuf).2.1 (parseMultibluk r rbuf).2.2 ≤ weight r rbuf) := by
  obtain ⟨a', h1, h2, h3, h4⟩ :=
    bulkLoop_weight (n := r.nbulk) (a := a) (Nat.zero_le _)
  have hstart : weight r rbuf =
      (encodeBulks a.objs).length + lineWeight r.bulkLen + (rbuf.length - 0) := by
    simp [weight, ha]
  rw [parseMultibluk, if_neg hn, ha]
  refine ⟨a', h1, by omega, ?_⟩
  intro hmore
  refine ⟨h4 hmore, ?_⟩
  simp only [LoopExit.finish] at hmore ⊢
  rw [hmore, if_pos rfl, cstrRange_neg_one, hstart]
  simp only [weight, h1, Option.map_some, Option.getD_some, List.length_drop, List.length_take]
  omega

inductive SafeState (ps : List Bytes) : Bytes → Req → Bytes → Prop
  | line {w : Bytes} {r : Req} (front : w <+: countHeader ps.length)
      (short : w.length < (countHeader ps.length).length)
      (n : r.nbulk = 0) (b : r.bulkLen = 0) : SafeState ps w r w
  | boundary {done ahead : List Bytes} {p : Bytes} (split : ps = done ++ p :: ahead) :
      SafeState ps (countHeader ps.length ++ encodeBulks done)
        ⟨ahead.length + 1, 0, .mbulk, some ⟨ps.length, done⟩⟩ []
  | behindLine {done ahead : List Bytes} {p : Bytes} (split : ps = done ++ p :: ahead) :
      SafeState ps (countHeader ps.length ++ (encodeBulks done ++ bulkHeader p))
        ⟨ahead.length + 1, p.length, .mbulk, some ⟨ps.length, done⟩⟩ []

/-- In the middle of a request, and fewer bytes are known than were delivered. -/
structure Deficit (ps : List Bytes) (w : Bytes) (r : Req) (rbuf : Bytes) : Prop where
  middle : r.nbulk ≠ 0
  reqtype : r.reqtype = .mbulk
  argv : ∃ a, r.argv = some a
  lost : weight r rbuf + (countHeader ps.length).length < w.length

inductive CallResult (ps : List Bytes) (w : Bytes) (q : Verdict × Req × Bytes) : Prop
  | complete (whole : w = encodeRequest ps) (verdict : q.1 = .complete)
      (argv : q.2.1.argv = some ⟨ps.length, ps⟩)
  | safe (cut : SafeCut ps w) (verdict : q.1 = .needMore) (state : SafeState ps w q.2.1 q.2.2)
  | lost (cut : ¬ SafeCut ps w) (verdict : q.1 = .needMore) (state : Deficit ps w q.2.1 q.2.2)

theorem drop_trimmed_length (rbuf : Bytes) (n : Nat) (h : rbuf.length ≤ n + 1) :
    cstrRange rbuf (n : Nat) (-1) = [] := by
  rw [cstrRange_neg_one, List.drop_eq_nil_iff, List.length_take]
  omega

/-- The loop started behind whole groups, seen as a call. -/
theorem callResult_loop {ps done qs : List Bytes} (split : ps = done ++ qs)
    (hv : ∀ p ∈ ps, ValidPayload p) {rbuf y : Bytes} {pos : Nat} {r : Req}
    (hsmall : rbuf.length ≤ maxCommandLenLimit) (hpos : pos ≤ rbuf.length)
    (hdrop : rbuf.drop pos = y) (hy : y <+: encodeBulks qs) (hr : r.reqtype = .mbulk) :
    CallResult ps (countHeader ps.length ++ (encodeBulks done ++ y))
      ((bulkLoop rbuf qs.length 0 pos (some ⟨ps.length, done⟩)).finish r rbuf) := by
  have hq : ∀ p ∈ qs, ValidPayload p := fun p hp => hv p (by rw [split]; simp [hp])
  have hcut : SafeCut ps (countHeader ps.length ++ (encodeBulks done ++ y)) ↔ SafeTail qs y := by
    rw [safeCut_append]
    conv_lhs => rw [split]
    exact safeTail_groups
  have htail := bulkLoop_tail (a := ⟨ps.length, done⟩) hq hsmall hpos hdrop hy
  obtain ⟨a', hargv, hpos', hweight, hmid⟩ := bulkLoop_weight (n := qs.length)
    (a := ⟨ps.length, done⟩) hpos
  generalize bulkLoop rbuf qs.length 0 pos (some ⟨ps.length, done⟩) = x at *
  cases htail with
  | complete whole exit =>
      subst exit
      refine .complete ?_ rfl ?_
      · rw [whole, encodeRequest, ← encodeBulks_append, ← split]
      · simp [LoopExit.finish, Argv.pushAll, split]
  | boundary done' p ahead split' here exit =>
      subst exit
      have hps : ps = (done ++ done') ++ p :: ahead := by rw [split, split', List.append_assoc]
      refine .safe (hcut.mpr ?_) rfl ?_
      · rw [split', here]
        simpa using safeTail_groups (z := []) |>.mpr (safeTail_nil (p :: ahead))
      · have hstate := SafeState.boundary hps
        rw [here, ← encodeBulks_append]
        simpa [LoopExit.finish, Argv.pushAll, hr, drop_trimmed_length rbuf rbuf.length (by omega)]
          using hstate
  | behindLine done' p ahead split' here exit =>
      subst exit
      have hps : ps = (done ++ done') ++ p :: ahead := by rw [split, split', List.append_assoc]
      refine .safe (hcut.mpr ?_) rfl ?_
      · rw [split', here]
        exact safeTail_groups.mpr (.inr (.inl rfl))
      · have hstate := SafeState.behindLine hps
        have htrim := drop_trimmed_length rbuf (rbuf.length + p.length) (by omega)
        rw [Nat.cast_add] at htrim
        rw [here, ← List.append_assoc (encodeBulks done), ← encodeBulks_append]
        simpa [LoopExit.finish, Argv.pushAll, hr, htrim] using hstate
  | cut unsafeEnd more lost =>
      refine .lost (fun h => unsafeEnd (hcut.mp h)) more ⟨hmid more, hr, ⟨a', hargv⟩, ?_⟩
      have hy' := congrArg List.length hdrop
      rw [List.length_drop] at hy'
      simp only [LoopExit.finish, more, if_true, cstrRange_neg_one, weight, hargv,
        Option.map_some, Option.getD_some, List.length_drop, List.length_take,
        List.length_append]
      simp only [lineWeight, if_true] at hweight
      rw [lineWeight]
      omega

/-- What follows a common front part in a front part of the whole. -/
theorem tail_front {xs y zs : Bytes} (h : xs ++ y <+: xs ++ zs) : y <+: zs :=
  (List.prefix_append_right_inj xs).mp h

theorem callResult_line {ps : List Bytes} (hv : ValidRequest ps) {w chunk : Bytes} {r : Req}
    (short : w.length < (countHeader ps.length).length) (n : r.nbulk = 0) (b : r.bulkLen = 0)
    (hne : chunk ≠ []) (hsmall : chunk.length ≤ readBufSize)
    (hw : w ++ chunk <+: encodeRequest ps) :
    CallResult ps (w ++ chunk) (parseCommand r (w ++ chunk)) := by
  have hpos := List.length_pos_iff.mpr hne
  have hmax : (w ++ chunk).length ≤ maxCommandLenLimit := by
    have hle := hv.le
    have := numeral_length_small (n := ps.length) (by rw [maxCommandLenLimit]; omega)
    rw [countHeader_length] at short
    rw [List.length_append]
    rw [readBufSize] at hsmall
    rw [maxCommandLenLimit]
    omega
  have hhead : (w ++ chunk).getD 0 0 = 42 := by
    obtain ⟨t, ht⟩ := hw
    have hwhole := encodeRequest_head ps []
    rw [List.append_nil, ← ht] at hwhole
    cases hb : w ++ chunk with
    | nil => simp at hb; exact absurd hb.2 hne
    | cons c cs => simpa [hb] using hwhole
  rw [parseCommand, if_neg (by rw [List.length_append]; omega), if_pos (.inr hhead),
    parseMultibluk, if_pos n]
  by_cases hline : (w ++ chunk).length < (countHeader ps.length).length
  · -- still inside the count line
    have hin : w ++ chunk <+: countHeader ps.length :=
      List.prefix_of_prefix_length_le hw (List.prefix_append _ _) (by omega)
    have hnone : strstr crlf (w ++ chunk) = none :=
      strstr_partial_line (.inl rfl) (allDigits_numeral _) hin
        (by rw [countHeader_length] at hline; exact hline)
    have hmore : bulkCountLine (w ++ chunk) = .error .needMore := by
      rw [bulkCountLine, if_neg (not_not.mpr hhead), hnone, lineMissing_small hmax]
    rw [hmore]
    exact .safe (.inl hin) rfl (.line hin hline n b)
  · obtain ⟨y, hy⟩ : countHeader ps.length <+: w ++ chunk :=
      List.prefix_of_prefix_length_le (List.prefix_append _ _) hw (by omega)
    have hbulks : y <+: encodeBulks ps := by
      rw [← hy, encodeRequest] at hw
      exact tail_front hw
    have hdrop : (w ++ chunk).drop (countHeader ps.length).length = y := by
      rw [← hy, List.drop_left]
    have hres := callResult_loop (r := { r with reqtype := .mbulk }) (List.nil_append ps).symm
      hv.payload hmax (by omega) hdrop hbulks rfl
    rw [encodeBulks_nil, List.nil_append, hy] at hres
    rw [show bulkCountLine (w ++ chunk) = .ok (ps.length, (countHeader ps.length).length) by
      rw [← hy]; exact bulkCountLine_header hv.pos hv.le y]
    simpa only [b] using hres

theorem callResult_boundary {ps done ahead : List Bytes} {p : Bytes} (hv : ValidRequest ps)
    (split : ps = done ++ p :: ahead) {chunk : Bytes} (hne : chunk ≠ [])
    (hmax : chunk.length ≤ maxCommandLenLimit) (hy : chunk <+: encodeBulks (p :: ahead)) :
    CallResult ps (countHeader ps.length ++ (encodeBulks done ++ chunk))
      (parseCommand ⟨ahead.length + 1, 0, .mbulk, some ⟨ps.length, done⟩⟩ chunk) := by
  have hpos := List.length_pos_iff.mpr hne
  rw [parseCommand, if_neg (by omega), if_pos (.inl rfl), parseMultibluk,
    if_neg (Nat.succ_ne_zero _)]
  exact callResult_loop split hv.payload hmax (Nat.zero_le _) rfl hy rfl

theorem callResult_behindLine {ps done ahead : List Bytes} {p : Bytes} (hv : ValidRequest ps)
    (split : ps = done ++ p :: ahead) {chunk : Bytes} (hne : chunk ≠ [])
    (hmax : chunk.length ≤ maxCommandLenLimit)
    (hy : chunk <+: (p ++ crlf) ++ encodeBulks ahead) :
    CallResult ps (countHeader ps.length ++ (encodeBulks done ++ (bulkHeader p ++ chunk)))
      (parseCommand ⟨ahead.length + 1, p.length, .mbulk, some ⟨ps.length, done⟩⟩ chunk) := by
  have hpos := List.length_pos_iff.mpr hne
  have hp : ValidPayload p := hv.payload p (by rw [split]; simp)
  have hp0 : p.length ≠ 0 := by have := hp.1; omega
  rw [parseCommand, if_neg (by omega), if_pos (.inl rfl), parseMultibluk,
    if_neg (Nat.succ_ne_zero _)]
  by_cases hroom : chunk.length < p.length + 2
  · have hexit : bulkLoop chunk (ahead.length + 1) p.length 0 (some ⟨ps.length, done⟩) =
        ⟨.needMore, ahead.length + 1, p.length, 0, some ⟨ps.length, done⟩⟩ := by
      rw [bulkLoop, if_neg hp0]
      simp only
      rw [if_pos (by omega)]
    have htrim := drop_trimmed_length chunk p.length (by omega)
    rw [hexit]
    refine .lost ?_ rfl ⟨Nat.succ_ne_zero _, rfl, ⟨_, rfl⟩, ?_⟩
    · rw [safeCut_append, split, safeTail_groups]
      refine not_safeTail (by simp [bulkHeader]) ?_ ?_
      · intro h
        have := congrArg List.length h
        rw [List.length_append] at this
        omega
      · rw [List.length_append, bulkGroup_length]
        omega
    · simp only [LoopExit.finish, if_true, Nat.zero_add, htrim, weight, Option.map_some,
        Option.getD_some, List.length_append, List.length_nil, lineWeight_pos hp0,
        bulkHeader_length]
      omega
  · obtain ⟨z, rfl⟩ : ∃ z, chunk = (p ++ crlf) ++ z := by
      obtain ⟨z, hz⟩ : p ++ crlf <+: chunk :=
        List.prefix_of_prefix_length_le (List.prefix_append _ _) hy
          (by rw [List.length_append, crlf_length]; omega)
      exact ⟨z, hz.symm⟩
    have hdrop : ((p ++ crlf) ++ z).drop (p.length + 2) = z := by
      rw [show p.length + 2 = (p ++ crlf).length by simp, List.drop_left]
    have hps : ps = (done ++ [p]) ++ ahead := by rw [split]; simp
    have hres := callResult_loop (y := z)
      (r := ⟨ahead.length + 1, p.length, .mbulk, some ⟨ps.length, done⟩⟩) hps hv.payload
      hmax (by simp) hdrop (tail_front hy) rfl
    have hfront : ((p ++ crlf) ++ z).drop 0 = p ++ (crlf ++ z) := by simp
    have hpass := bulkLoop_payload (n := ahead.length) (some ⟨ps.length, done⟩) hp hfront
    rw [hpass]
    simpa [bulkGroup, Argv.push] using hres

/-- A call of the parser in a state reached by safe cuts. -/
theorem callResult_of_safeState {ps : List Bytes} (hv : ValidRequest ps) {w : Bytes} {r : Req}
    {rbuf chunk : Bytes} (hs : SafeState ps w r rbuf) (hne : chunk ≠ [])
    (hsmall : chunk.length ≤ readBufSize) (hw : w ++ chunk <+: encodeRequest ps) :
    CallResult ps (w ++ chunk) (parseCommand r (rbuf ++ chunk)) := by
  have hmax : chunk.length ≤ maxCommandLenLimit := by
    rw [readBufSize] at hsmall
    rw [maxCommandLenLimit]
    omega
  cases hs with
  | line front short n b => exact callResult_line hv short n b hne hsmall hw
  | @boundary done ahead p split =>
      have hy : encodeBulks done ++ chunk <+: encodeBulks done ++ encodeBulks (p :: ahead) := by
        rw [encodeRequest, List.append_assoc] at hw
        rw [← encodeBulks_append, ← split]
        exact tail_front hw
      rw [List.append_assoc]
      exact callResult_boundary hv split hne hmax (tail_front hy)
  | @behindLine done ahead p split =>
      have hy : encodeBulks done ++ (bulkHeader p ++ chunk) <+:
          encodeBulks done ++ (bulkHeader p ++ ((p ++ crlf) ++ encodeBulks ahead)) := by
        have htail : bulkHeader p ++ ((p ++ crlf) ++ encodeBulks ahead) =
            encodeBulks (p :: ahead) := by simp [bulkGroup]
        rw [htail, ← encodeBulks_append, ← split]
        rw [encodeRequest, List.append_assoc, List.append_assoc] at hw
        exact tail_front hw
      rw [List.append_assoc, List.append_assoc]
      exact callResult_behindLine hv split hne hmax (tail_front (tail_front hy))

theorem reassembled_cons {ps : List Bytes} {c : Conn} {r : Int} {rs : List Int} :
    Reassembled ps (c, r :: rs) ↔
      (r = 0 ∧ rs = [] ∧ c.io.argv = some ⟨ps.length, ps⟩) ∨
        (r = 1 ∧ Reassembled ps (c, rs)) := by
  constructor
  · rintro ⟨⟨k, hk⟩, hargv⟩
    cases k with
    | zero =>
        simp only [List.replicate_zero, List.nil_append, List.cons.injEq] at hk
        exact .inl ⟨hk.1, hk.2, hargv⟩
    | succ k =>
        simp only [List.replicate_succ, List.cons_append, List.cons.injEq] at hk
        exact .inr ⟨hk.1, ⟨k, hk.2⟩, hargv⟩
  · rintro (⟨rfl, rfl, hargv⟩ | ⟨rfl, ⟨k, hk⟩, hargv⟩)
    · exact ⟨⟨0, rfl⟩, hargv⟩
    · exact ⟨⟨k + 1, by rw [List.replicate_succ, List.cons_append, ← hk]⟩, hargv⟩

theorem not_reassembled_nil {ps : List Bytes} {c : Conn} : ¬ Reassembled ps (c, []) := by
  rintro ⟨⟨k, hk⟩, _⟩
  simp at hk

/-- A deficit is never made up: the rest of the request is not enough. -/
theorem not_reassembled_of_deficit {ps : List Bytes} (w : Nat → Writes) {seen : Bytes} {c : Conn}
    (hd : Deficit ps seen c.io.toReq c.io.rbuf) (chunks : List Bytes)
    (hne : ∀ b ∈ chunks, b ≠ []) (hall : seen ++ chunks.flatten = encodeRequest ps) :
    ¬ Reassembled ps (feed w c chunks) := by
  induction chunks generalizing w seen c with
  | nil => exact not_reassembled_nil
  | cons chunk chunks ih =>
      obtain ⟨a, ha⟩ := hd.argv
      have hparse : parseCommand c.io.toReq (c.io.rbuf ++ chunk) =
          parseMultibluk c.io.toReq (c.io.rbuf ++ chunk) := by
        have hpos := List.length_pos_iff.mpr (hne chunk (by simp))
        rw [parseCommand, if_neg (by rw [List.length_append]; omega), if_pos (.inl hd.reqtype),
          ← hd.reqtype]
      obtain ⟨a', hargv, hstored, hmore⟩ :=
        parseMultibluk_weight hd.middle ha (c.io.rbuf ++ chunk)
      have hlen := congrArg List.length hall
      simp only [encodeRequest, List.length_append, List.flatten_cons] at hlen
      have hlost := hd.lost
      have hweight : weight c.io.toReq (c.io.rbuf ++ chunk) =
          weight c.io.toReq c.io.rbuf + chunk.length := by
        simp only [weight, List.length_append]
        omega
      rw [feed, readProcess_data c (w 0) (hne chunk (by simp)), hparse]
      generalize hq : parseMultibluk c.io.toReq (c.io.rbuf ++ chunk) = q at *
      rw [reassembled_cons]
      rintro (⟨hcode, hlast, hfull⟩ | ⟨hcode, hrest⟩)
      · -- all arguments in place would weigh more than was delivered
        rw [Conn.endParse_snd, Verdict.code_eq_zero] at hcode
        have hnil : chunks = [] := by
          cases chunks with
          | nil => rfl
          | cons b bs => simp [feed] at hlast
        subst hnil
        rw [feed, endParse_of_code _ _ (.inl hcode)] at hfull
        have hobjs : some a' = some ⟨ps.length, ps⟩ := hargv.symm.trans hfull
        cases hobjs
        change (encodeBulks ps).length ≤ _ at hstored
        simp only [List.flatten_nil, List.length_nil] at hlen
        omega
      · rw [Conn.endParse_snd] at hcode
        have hverdict : q.1 = .needMore := by
          revert hcode
          cases q.1 <;> simp [Verdict.code]
        rw [endParse_of_code _ _ (.inr hverdict)] at hrest
        obtain ⟨hmid, hle⟩ := hmore hverdict
        have hall' : (seen ++ chunk) ++ chunks.flatten = encodeRequest ps := by simpa using hall
        refine ih _ ⟨hmid, ?_, ⟨a', hargv⟩, ?_⟩ (fun b hb => hne b (by simp [hb])) hall' hrest
        · change q.2.1.reqtype = .mbulk
          rw [← hq, parseMultibluk_reqtype]
          exact hd.reqtype
        · rw [List.length_append]
          change weight q.2.1 q.2.2 + _ < _
          omega

theorem safeCut_encodeRequest (ps : List Bytes) : SafeCut ps (encodeRequest ps) := by
  rw [encodeRequest, safeCut_append, ← List.append_nil (encodeBulks ps)]
  have h : SafeTail (ps ++ []) (encodeBulks ps ++ []) := safeTail_groups.mpr rfl
  rwa [List.append_nil] at h

theorem SafeState.incomplete {ps : List Bytes} {w : Bytes} {r : Req} {rbuf : Bytes}
    (h : SafeState ps w r rbuf) : w ≠ encodeRequest ps := by
  intro hw
  have hl := congrArg List.length hw
  rw [encodeRequest, List.length_append] at hl
  have hbulks {done ahead : List Bytes} {p : Bytes} (split : ps = done ++ p :: ahead) :
      (encodeBulks ps).length = (encodeBulks done).length +
        ((bulkHeader p).length + p.length + 2) + (encodeBulks ahead).length := by
    conv_lhs => rw [split]
    rw [encodeBulks_append, encodeBulks_cons, List.length_append, List.length_append,
      bulkGroup_length]
    omega
  cases h with
  | line front short => omega
  | boundary split =>
      rw [List.length_append, hbulks split] at hl
      omega
  | behindLine split =>
      rw [List.length_append, List.length_append, hbulks split] at hl
      omega

/-- From a state reached by safe cuts, the rest of the chunks completes the request
exactly when all further cuts are safe. -/
theorem feed_safeState {ps : List Bytes} (hv : ValidRequest ps) (w : Nat → Writes) {seen : Bytes}
    {c : Conn} (hs : SafeState ps seen c.io.toReq c.io.rbuf) (chunks : List Bytes)
    (hne : ∀ b ∈ chunks, b ≠ []) (hsmall : ∀ b ∈ chunks, b.length ≤ readBufSize)
    (hall : seen ++ chunks.flatten = encodeRequest ps) :
    Reassembled ps (feed w c chunks) ↔
      ∀ k, SafeCut ps (seen ++ (chunks.take (k + 1)).flatten) := by
  induction chunks generalizing w seen c with
  | nil => exact absurd (by simpa using hall) hs.incomplete
  | cons chunk chunks ih =>
      have hchunk := hne chunk (by simp)
      have hall' : (seen ++ chunk) ++ chunks.flatten = encodeRequest ps := by simpa using hall
      have hres := callResult_of_safeState hv hs hchunk (hsmall chunk (by simp)) ⟨_, hall'⟩
      have hcons : ∀ k, seen ++ ((chunk :: chunks).take (k + 1)).flatten =
          (seen ++ chunk) ++ (chunks.take k).flatten := by simp
      simp only [hcons]
      rw [feed, readProcess_data c (w 0) hchunk, reassembled_cons, Conn.endParse_snd]
      cases hres with
      | complete whole verdict argv =>
          rw [whole] at hall'
          have hnil : chunks = [] := by
            have hflat : chunks.flatten = [] := by simpa using hall'
            cases chunks with
            | nil => rfl
            | cons b bs =>
                rw [List.flatten_cons, List.append_eq_nil_iff] at hflat
                exact absurd hflat.1 (hne b (by simp))
          subst hnil
          rw [endParse_of_code _ _ (.inl verdict), verdict, whole]
          refine iff_of_true (.inl ⟨rfl, rfl, argv⟩) fun k => ?_
          simpa using safeCut_encodeRequest ps
      | safe cut verdict state =>
          rw [endParse_of_code _ _ (.inr verdict), verdict]
          have hstep := ih (fun k => w (k + 1)) (c := (c.receive chunk).setParsed _ _) state
            (fun b hb => hne b (by simp [hb])) (fun b hb => hsmall b (by simp [hb])) hall'
          constructor
          · rintro (⟨hcode, _⟩ | ⟨_, hrest⟩)
            · cases hcode
            · intro k
              cases k with
              | zero => simpa using cut
              | succ k => exact hstep.mp hrest k
          · intro hsafe
            exact .inr ⟨rfl, hstep.mpr fun k => hsafe (k + 1)⟩
      | lost cut verdict state =>
          rw [endParse_of_code _ _ (.inr verdict), verdict]
          refine iff_of_false ?_ fun hsafe => cut (by simpa using hsafe 0)
          rintro (⟨hcode, _⟩ | ⟨_, hrest⟩)
          · cases hcode
          · exact not_reassembled_of_deficit _ (c := (c.receive chunk).setParsed _ _) state chunks
              (fun b hb => hne b (by simp [hb])) hall' hrest

/-- A request fed in chunks is put together again exactly when no cut falls inside a
length line behind the first byte of a group, inside a payload or inside its terminator. -/
theorem feed_reassembled_iff (mask : EvMask) (w : Nat → Writes) (ps : List Bytes)
    (hv : ValidRequest ps) (chunks : List Bytes) (hc : Chunking ps chunks) :
    Reassembled ps (feed w (freshConn mask) chunks) ↔
      ∀ k, SafeCut ps (chunks.take k).flatten := by
  have hs : SafeState ps [] (freshConn mask).io.toReq (freshConn mask).io.rbuf :=
    .line (List.nil_prefix) (by simp) rfl rfl
  have hall : [] ++ chunks.flatten = encodeRequest ps := hc.joined
  rw [feed_safeState hv w hs chunks hc.nonempty hc.small hall]
  constructor
  · intro h k
    cases k with
    | zero => exact .inl List.nil_prefix
    | succ k => exact h k
  · intro h k
    exact h (k + 1)

theorem feed_reassembled_iff_two_chunks :
    Reassembled [ascii "hi"] (feed (fun _ _ => .eagain) (freshConn cevRead)
        [ascii "*1\r\n$2\r\n", ascii "hi\r\n"]) ↔
      ∀ k, SafeCut [ascii "hi"] ([ascii "*1\r\n$2\r\n", ascii "hi\r\n"].take k).flatten :=
  feed_reassembled_iff cevRead (fun _ _ => .eagain) [ascii "hi"]
    ⟨by decide, by decide, by decide⟩ [ascii "*1\r\n$2\r\n", ascii "hi\r\n"]
    ⟨by decide, by decide, by decide⟩

/-- `*1 CRLF $2 CRLF h` and `i CRLF`: the cut in the payload loses its first byte. -/
theorem feed_cut_in_payload :
    Chunking [ascii "hi"] [ascii "*1\r\n$2\r\nh", ascii "i\r\n"] ∧
      (feed (fun _ _ => .eagain) (freshConn cevRead)
        [ascii "*1\r\n$2\r\nh", ascii "i\r\n"]).2 = [1, 1] ∧
      ¬ Reassembled [ascii "hi"] (feed (fun _ _ => .eagain) (freshConn cevRead)
        [ascii "*1\r\n$2\r\nh", ascii "i\r\n"]) := by
  have hret : (feed (fun _ _ => .eagain) (freshConn cevRead)
      [ascii "*1\r\n$2\r\nh", ascii "i\r\n"]).2 = [1, 1] := by decide
  refine ⟨⟨by decide, by decide, by decide⟩, hret, ?_⟩
  rintro ⟨⟨k, hk⟩, _⟩
  rw [hret] at hk
  have := congrArg List.getLast? hk
  simp at this

end ThrSocket
