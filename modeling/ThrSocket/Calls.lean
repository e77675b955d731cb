import ThrSocket.Response

/-!
One call of `_read_process`: what the parser may answer, what the caller makes
of the answer, and what becomes of the reply to an error.
-/

namespace ThrSocket
open CString

theorem Verdict.code_eq_zero {v : Verdict} : v.code = 0 ↔ v = .complete := by
  cases v <;> simp [Verdict.code]

theorem code_ne_of_verdict {v : Verdict} (h : v = .complete ∨ v = .needMore) : v.code ≠ -1 := by
  rcases h with rfl | rfl <;> decide

/-- The loop never runs out of input altogether. -/
theorem bulkLoop_verdict (rbuf : Bytes) (n bulkLen pos : Nat) (argv : Option Argv) :
    (bulkLoop rbuf n bulkLen pos argv).verdict = .complete ∨
      (bulkLoop rbuf n bulkLen pos argv).verdict.Stopped := by
  induction n generalizing bulkLen pos argv with
  | zero => exact .inl rfl
  | succ n ih =>
      rw [bulkLoop]
      cases hline : (if bulkLen = 0 then bulkLenLine rbuf pos else .ok (bulkLen, pos)) with
      | error v =>
          by_cases hb : bulkLen = 0
          · rw [if_pos hb] at hline
            exact .inr (bulkLenLine_error hline)
          · rw [if_neg hb] at hline
            cases hline
      | ok r =>
          simp only
          split
          · exact .inr (.inl rfl)
          · exact ih _ _ _

theorem parseCommand_verdict (r : Req) {buf : Bytes} (hne : buf ≠ []) :
    (parseCommand r buf).1 = .complete ∨ (parseCommand r buf).1.Stopped := by
  rw [parseCommand, if_neg (fun hl => hne (List.length_eq_zero_iff.mp hl))]
  split
  · rw [parseMultibluk]
    split
    · cases hline : bulkCountLine buf with
      | error v => exact .inr (bulkCountLine_error hline)
      | ok r' => exact bulkLoop_verdict _ _ _ _ _
    · exact bulkLoop_verdict _ _ _ _ _
  · rw [parseInline]
    split
    · exact .inr (stopped_of_mem (by decide))
    · split
      · exact .inr (.inl rfl)
      · exact .inl rfl

theorem cstrRange_length_le (s : Bytes) (b e : Int) : (cstrRange s b e).length ≤ s.length := by
  rw [cstrRange]
  simp only [List.length_take, List.length_drop]
  omega

/-- The parser leaves the buffer alone or trims it. -/
theorem parseCommand_length_le (r : Req) (rbuf : Bytes) :
    (parseCommand r rbuf).2.2.length ≤ rbuf.length := by
  have hfin : ∀ (x : LoopExit) (r : Req), (x.finish r rbuf).2.2.length ≤ rbuf.length := by
    intro x r
    rw [LoopExit.finish]
    split
    · exact cstrRange_length_le ..
    · exact Nat.le_refl _
  rw [parseCommand]
  split_ifs
  · exact Nat.le_refl _
  · rw [parseMultibluk]
    split
    · split
      · exact Nat.le_refl _
      · exact hfin _ _
    · exact hfin _ _
  · rw [parseInline]
    split_ifs
    · exact Nat.le_refl _
    · split <;> exact Nat.le_refl _

theorem Conn.endParse_snd (c : Conn) (p : Verdict × Req × Bytes) (w : Writes) :
    (c.endParse p w).2 = p.1.code := by
  rw [Conn.endParse]
  split
  · rename_i hv
    rw [hv]
    rfl
  · rfl

theorem endParse_of_code (c : Conn) {q : Verdict × Req × Bytes} (w : Writes)
    (h : q.1 = .complete ∨ q.1 = .needMore) :
    c.endParse q w = (c.setParsed q.2.1 q.2.2, q.1.code) := by
  rw [Conn.endParse]
  rcases h with h | h <;> rw [h]

theorem readProcess_data (c : Conn) (w : Writes) {chunk : Bytes} (hne : chunk ≠ []) :
    c.readProcess (.data chunk) w =
      (c.receive chunk).endParse (parseCommand c.io.toReq (c.io.rbuf ++ chunk)) w := by
  have : ¬ chunk.length = 0 := fun h => hne (List.length_eq_zero_iff.mp h)
  rw [Conn.readProcess, if_neg this]
  rfl

/-- The reply of a failed call, seen from before the call. -/
theorem readProcess_failed (c : Conn) {z buf' msg : Bytes} {r' : Req} (w : Writes) (hz : z ≠ [])
    (hparse : parseCommand c.io.toReq (c.io.rbuf ++ z) = (.protocolError msg, r', buf')) :
    c.readProcess (.data z) w =
      ((((((c.receive z).setParsed r' buf').setProtocolError).append (view msg)).replyInner w).1,
        -1) := by
  rw [readProcess_data c w hz, hparse]
  rfl

/-- A call either passes its verdict on or replies to an error. -/
theorem readProcess_cases (c : Conn) (w : Writes) {z : Bytes} (hz : z ≠ []) :
    (∃ q, parseCommand c.io.toReq (c.io.rbuf ++ z) = q ∧ q.1.code ≠ -1 ∧
      c.readProcess (.data z) w = ((c.receive z).setParsed q.2.1 q.2.2, q.1.code)) ∨
    ∃ msg r' buf', parseCommand c.io.toReq (c.io.rbuf ++ z) = (.protocolError msg, r', buf') ∧
      c.readProcess (.data z) w =
        ((((((c.receive z).setParsed r' buf').setProtocolError).append (view msg)).replyInner w).1,
          -1) := by
  have hv := parseCommand_verdict c.io.toReq (show c.io.rbuf ++ z ≠ [] by simp [hz])
  generalize hq : parseCommand c.io.toReq (c.io.rbuf ++ z) = q at hv ⊢
  have hpass : q.1 = .complete ∨ q.1 = .needMore →
      c.readProcess (.data z) w = ((c.receive z).setParsed q.2.1 q.2.2, q.1.code) := by
    intro h
    rw [readProcess_data c w hz, hq, endParse_of_code _ w h]
  rcases hv with hv | hv | ⟨msg, -, hv⟩
  · exact .inl ⟨q, rfl, code_ne_of_verdict (.inl hv), hpass (.inl hv)⟩
  · exact .inl ⟨q, rfl, code_ne_of_verdict (.inr hv), hpass (.inr hv)⟩
  · obtain ⟨v, r', buf'⟩ := q
    subst hv
    exact .inr ⟨msg, r', buf', rfl, readProcess_failed c w hz hq⟩

def Conn.Fits (c : Conn) : Prop := c.io.wcount ≤ c.io.wbuf.length

theorem append_fits {c : Conn} (h : c.Fits) (bs : Bytes) : (c.append bs).Fits := by
  rw [Conn.Fits] at h ⊢
  simp only [Conn.append, List.length_append]
  omega

inductive Replied (c : Conn) (w : Writes) (c' : Conn) : Prop
  | kept (req : c'.io.toReq = c.io.toReq) (rbuf : c'.io.rbuf = c.io.rbuf)
      (mask : c'.io.mask = c.io.mask) (fits : c'.Fits)
      (pending : c.io.mask.persist = false → 0 < c'.io.wcount)
      (clear : .cioClear ∈ c'.trace ↔ .cioClear ∈ c.trace)
  | cleared (io : c'.io = cioCreate) (free : c.io.mask.persist = false ∧ ¬ Blocks w c.io.wcount)
      (clear : .cioClear ∈ c'.trace)

theorem replyInner_replied (c : Conn) (w : Writes) (hw : c.Fits) :
    Replied c w (c.replyInner w).1 := by
  rw [Conn.replyInner]
  cases hp : c.io.mask.persist with
  | true => exact .kept rfl rfl rfl hw (by simp [hp]) Iff.rfl
  | false =>
      have hend := response_end c w hw
      have hfits := hend.fits hw
      simp only [Bool.not_false, if_true]
      generalize (c.response w).1 = c' at hend hfits
      cases hend with
      | rebound bs left pos le sent transient io trace =>
          refine .kept (by rw [io]) (by rw [io]) (by rw [io]) hfits ?_ (by rw [trace]; simp)
          intro _
          rw [io]
          exact pos
      | cleared bs sent free io trace => exact .cleared io ⟨hp, free⟩ (by rw [trace]; simp)
      | clearedFull bs left pos le sent persist full io trace =>
          rw [hp] at persist
          cases persist
      | clearedError bs free io trace => exact .cleared io ⟨hp, free⟩ (by rw [trace]; simp)

end ThrSocket
