import Mathlib.Data.List.Induction
import ThrSocket.Network

/-!
The reply path under back-pressure. One call of `_response` is described by
the chunks it hands to the socket and the number of bytes it leaves behind;
the run of any number of calls of `response` follows from that description.
-/

namespace ThrSocket
open Conn

def sentBytes (tr : List Act) : Bytes :=
  tr.flatMap fun
    | .wrote bs => bs
    | _ => []

/-- Bytes accepted by the first `k` writes, all of them being short or full counts. -/
def accepted (w : Writes) : Nat → Nat
  | 0 => 0
  | k + 1 =>
      accepted w k + match w k with
        | .wrote n => n + 1
        | _ => 0

/-- The socket fills up, with EAGAIN, before it has taken `count` bytes. -/
def Blocks (w : Writes) (count : Nat) : Prop :=
  ∃ k, w k = .eagain ∧ accepted w k < count ∧ ∀ j < k, ∃ n, w j = .wrote n

def Conn.flushed (c : Conn) (bs : List Bytes) (left : Nat) : Conn :=
  { c with io := { c.io with wcount := left }, trace := c.trace ++ bs.map .wrote }

@[simp] theorem sentBytes_nil : sentBytes [] = [] := rfl

@[simp] theorem sentBytes_eagain : sentBytes [.eagain] = [] := rfl

@[simp] theorem sentBytes_writeError : sentBytes [.writeError] = [] := rfl

@[simp] theorem sentBytes_cioClear : sentBytes [.cioClear] = [] := rfl

@[simp] theorem sentBytes_append (xs ys : List Act) :
    sentBytes (xs ++ ys) = sentBytes xs ++ sentBytes ys := by
  simp [sentBytes]

@[simp] theorem sentBytes_wrote (bs : List Bytes) : sentBytes (bs.map .wrote) = bs.flatten := by
  induction bs with
  | nil => rfl
  | cons b bs ih => simpa [sentBytes] using ih

theorem accepted_succ_shift (w : Writes) (n : Nat) (h : w 0 = .wrote n) (k : Nat) :
    accepted w (k + 1) = n + 1 + accepted (fun j => w (j + 1)) k := by
  induction k with
  | zero => simp [accepted, h]
  | succ k ih =>
      rw [accepted, ih, accepted]
      omega

theorem not_blocks_zero (w : Writes) : ¬ Blocks w 0 := by
  rintro ⟨k, _, h, _⟩
  omega

theorem blocks_of_eagain {w : Writes} {count : Nat} (h : w 0 = .eagain) (hc : 0 < count) :
    Blocks w count := ⟨0, h, hc, fun j hj => by omega⟩

theorem not_blocks_of_error {w : Writes} {count : Nat} (h : w 0 = .error) : ¬ Blocks w count := by
  rintro ⟨k, hk, _, hw⟩
  cases k with
  | zero => simp [h] at hk
  | succ k =>
      obtain ⟨n, hn⟩ := hw 0 (by omega)
      simp [h] at hn

/-- A successful first write leaves the question to the remaining bytes. -/
theorem blocks_wrote_iff {w : Writes} {count n : Nat} (h : w 0 = .wrote n) :
    Blocks w count ↔ Blocks (fun j => w (j + 1)) (count - (n + 1)) := by
  constructor
  · rintro ⟨k, hk, ha, hw⟩
    cases k with
    | zero => simp [h] at hk
    | succ k =>
        rw [accepted_succ_shift w n h] at ha
        exact ⟨k, hk, by omega, fun j hj => hw (j + 1) (by omega)⟩
  · rintro ⟨k, hk, ha, hw⟩
    refine ⟨k + 1, hk, ?_, ?_⟩
    · rw [accepted_succ_shift w n h]
      omega
    · intro j hj
      cases j with
      | zero => exact ⟨n, h⟩
      | succ j => exact hw j (by omega)

inductive Responded (c : Conn) (w : Writes) : Conn × Int → Prop
  | drained (bs : List Bytes)
      (sent : bs.flatten = c.io.wbuf.drop (c.io.wbuf.length - c.io.wcount))
      (free : ¬ Blocks w c.io.wcount) : Responded c w (c.flushed bs 0, 0)
  | blocked (bs : List Bytes) (left : Nat) (pos : 0 < left) (le : left ≤ c.io.wcount)
      (sent : bs.flatten ++ c.io.wbuf.drop (c.io.wbuf.length - left) =
        c.io.wbuf.drop (c.io.wbuf.length - c.io.wcount))
      (full : Blocks w c.io.wcount) :
      Responded c w
        ({ c.flushed bs left with trace := (c.flushed bs left).trace ++ [.eagain] }, 1)
  | failed (bs : List Bytes) (left : Nat) (free : ¬ Blocks w c.io.wcount) :
      Responded c w
        ({ c.flushed bs left with trace := (c.flushed bs left).trace ++ [.writeError] }, -1)

theorem Conn.flushed_writeSome (c : Conn) (n : Nat) (bs : List Bytes) (left : Nat) :
    (c.writeSome n).flushed bs left =
      c.flushed ((c.io.wbuf.drop (c.io.wbuf.length - c.io.wcount)).take
        (min n c.io.wcount) :: bs) left := by
  simp [Conn.flushed, Conn.writeSome]

@[simp] theorem Conn.writeSome_wbuf (c : Conn) (n : Nat) :
    (c.writeSome n).io.wbuf = c.io.wbuf := rfl

theorem writeSome_sent (c : Conn) (n : Nat) (hw : c.io.wcount ≤ c.io.wbuf.length)
    (bs rest : Bytes)
    (h : bs ++ rest = (c.writeSome n).io.wbuf.drop
      ((c.writeSome n).io.wbuf.length - (c.writeSome n).io.wcount)) :
    (c.io.wbuf.drop (c.io.wbuf.length - c.io.wcount)).take (min n c.io.wcount) ++ bs ++ rest =
      c.io.wbuf.drop (c.io.wbuf.length - c.io.wcount) := by
  simp only [Conn.writeSome] at h
  rw [List.append_assoc, h]
  have hd : c.io.wbuf.length - (c.io.wcount - min n c.io.wcount) =
      min n c.io.wcount + (c.io.wbuf.length - c.io.wcount) := by omega
  rw [hd, Nat.add_comm, ← List.drop_drop, List.take_append_drop]

/-- A successful write in front of a description of the remaining writes. -/
theorem Responded.of_writeSome {c : Conn} {w : Writes} {n : Nat} {r : Conn × Int}
    (h0 : w 0 = .wrote n) (hw : c.io.wcount ≤ c.io.wbuf.length)
    (hr : Responded (c.writeSome (n + 1)) (fun j => w (j + 1)) r) : Responded c w r := by
  have hb : Blocks w c.io.wcount ↔
      Blocks (fun j => w (j + 1)) (c.writeSome (n + 1)).io.wcount := by
    rw [blocks_wrote_iff h0]
    have : c.io.wcount - (n + 1) = (c.writeSome (n + 1)).io.wcount := by
      simp only [Conn.writeSome]
      omega
    rw [this]
  cases hr with
  | drained bs sent free =>
      rw [flushed_writeSome]
      refine .drained _ ?_ (by rwa [hb])
      simpa using writeSome_sent c (n + 1) hw bs.flatten [] (by simpa using sent)
  | blocked bs left pos le sent full =>
      rw [flushed_writeSome]
      refine .blocked _ left pos (Nat.le_trans le (Nat.sub_le _ _)) ?_ (by rwa [hb])
      simpa using writeSome_sent c (n + 1) hw bs.flatten _ sent
  | failed bs left free =>
      rw [flushed_writeSome]
      exact .failed _ left (by rwa [hb])

theorem responseLoop_responded (w : Writes) (fuel k : Nat) (c : Conn)
    (hf : c.io.wcount ≤ fuel) (hw : c.io.wcount ≤ c.io.wbuf.length) :
    Responded c (fun j => w (k + j)) (responseLoop w fuel k c) := by
  induction fuel generalizing k c with
  | zero =>
      have h0 : c.io.wcount = 0 := by omega
      have := Responded.drained (c := c) (w := fun j => w (k + j)) []
        (by simp [h0]) (by rw [h0]; exact not_blocks_zero _)
      simpa [responseLoop, Conn.flushed, ← h0] using this
  | succ fuel ih =>
      rw [responseLoop]
      split
      · rename_i hpos
        split
        · rename_i hk
          have := Responded.blocked (c := c) (w := fun j => w (k + j)) [] c.io.wcount hpos
            (Nat.le_refl _) (by simp) (blocks_of_eagain (by simpa using hk) hpos)
          simpa [Conn.flushed] using this
        · rename_i hk
          have := Responded.failed (c := c) (w := fun j => w (k + j)) [] c.io.wcount
            (not_blocks_of_error (by simpa using hk))
          simpa [Conn.flushed] using this
        · rename_i n hk
          have hw' : (c.writeSome (n + 1)).io.wcount ≤ (c.writeSome (n + 1)).io.wbuf.length := by
            simp only [Conn.writeSome]
            omega
          have hf' : (c.writeSome (n + 1)).io.wcount ≤ fuel := by
            simp only [Conn.writeSome]
            omega
          refine Responded.of_writeSome (n := n) (by simpa using hk) hw ?_
          have h := ih (k + 1) (c.writeSome (n + 1)) hf' hw'
          simpa only [Nat.add_assoc, Nat.add_comm 1] using h
      · have h0 : c.io.wcount = 0 := by omega
        have := Responded.drained (c := c) (w := fun j => w (k + j)) []
          (by simp [h0]) (by rw [h0]; exact not_blocks_zero _)
        simpa [Conn.flushed, ← h0] using this

/-- `_response` on a record whose counter fits its buffer. -/
theorem responseInner_responded (c : Conn) (w : Writes) (hw : c.io.wcount ≤ c.io.wbuf.length) :
    Responded c w (c.responseInner w) := by
  have h := responseLoop_responded w c.io.wcount 0 c (Nat.le_refl _) hw
  rw [Conn.responseInner]
  simpa only [Nat.zero_add] using h

/-- The record and the trace after `response`: rebound for the rest of the
reply, or cleared behind one of the three endings of `_response`. -/
inductive ResponseEnd (c : Conn) (w : Writes) (c' : Conn) : Prop
  | rebound (bs : List Bytes) (left : Nat) (pos : 0 < left) (le : left ≤ c.io.wcount)
      (sent : bs.flatten ++ c.io.wbuf.drop (c.io.wbuf.length - left) =
        c.io.wbuf.drop (c.io.wbuf.length - c.io.wcount))
      (transient : c.io.mask.persist = false)
      (io : c'.io = { c.io with wcount := left })
      (trace : c'.trace = c.trace ++ bs.map .wrote ++ [.eagain])
  | cleared (bs : List Bytes)
      (sent : bs.flatten = c.io.wbuf.drop (c.io.wbuf.length - c.io.wcount))
      (free : ¬ Blocks w c.io.wcount)
      (io : c'.io = cioCreate)
      (trace : c'.trace = c.trace ++ bs.map .wrote ++ [.cioClear])
  | clearedFull (bs : List Bytes) (left : Nat) (pos : 0 < left) (le : left ≤ c.io.wcount)
      (sent : bs.flatten ++ c.io.wbuf.drop (c.io.wbuf.length - left) =
        c.io.wbuf.drop (c.io.wbuf.length - c.io.wcount))
      (persist : c.io.mask.persist = true) (full : Blocks w c.io.wcount)
      (io : c'.io = cioCreate)
      (trace : c'.trace = c.trace ++ bs.map .wrote ++ [.eagain] ++ [.cioClear])
  | clearedError (bs : List Bytes) (free : ¬ Blocks w c.io.wcount)
      (io : c'.io = cioCreate)
      (trace : c'.trace = c.trace ++ bs.map .wrote ++ [.writeError] ++ [.cioClear])

theorem response_end (c : Conn) (w : Writes) (hw : c.io.wcount ≤ c.io.wbuf.length) :
    ResponseEnd c w (c.response w).1 := by
  have hr := responseInner_responded c w hw
  rw [Conn.response]
  generalize c.responseInner w = r at hr
  cases hr with
  | drained bs sent free =>
      refine .cleared bs sent free ?_ ?_ <;> dsimp only <;> split_ifs <;>
        simp_all [Conn.flushed, Conn.cioClear, Conn.addEvent, Conn.delEvent,
          Conn.installReadEvent, Conn.cioCloseDestroyInstall]
  | blocked bs left pos le sent full =>
      cases hp : c.io.mask.persist with
      | false =>
          exact .rebound bs left pos le sent hp (by simp [Conn.flushed, Conn.addEvent])
            (by simp [Conn.flushed, Conn.addEvent])
      | true =>
          refine .clearedFull bs left pos le sent hp full ?_ ?_ <;> dsimp only <;> split_ifs <;>
            simp_all [Conn.flushed, Conn.cioClear, Conn.addEvent, Conn.delEvent,
              Conn.installReadEvent, Conn.cioCloseDestroyInstall]
  | failed bs left free =>
      refine .clearedError bs free ?_ ?_ <;>
        simp [Conn.flushed, Conn.cioClear, Conn.addEvent, Conn.delEvent,
          Conn.cioCloseDestroyInstall]

structure ResponseCall where
  mask : EvMask
  writes : Writes

def runResponses (c : Conn) (calls : List ResponseCall) : Conn :=
  calls.foldl (fun c k => (c.writeEventProc k.mask k.writes).1) c

/-- Every clear in the trace comes after all of `content` was accepted by the
socket, or after a write error. -/
def NothingTruncated (content : Bytes) (tr : List Act) : Prop :=
  ∀ pre post, tr = pre ++ .cioClear :: post → sentBytes pre = content ∨ .writeError ∈ pre

def Conn.pending (c : Conn) (content : Bytes) : Conn where
  io := { c.io with wbuf := content, wcount := content.length }
  evt := c.evt
  trace := []

/-- Between calls the reply is either still going out or settled by a clear. -/
inductive ReplyState (content : Bytes) (c : Conn) : Prop
  | sending
      (wbuf : c.io.wbuf = content) (fits : c.io.wcount ≤ content.length)
      (noClear : .cioClear ∉ c.trace) (noError : .writeError ∉ c.trace)
      (sent : sentBytes c.trace ++ content.drop (content.length - c.io.wcount) = content)
  | settled
      (empty : c.io.wbuf = []) (none : c.io.wcount = 0)
      (good : NothingTruncated content c.trace)
      (done : sentBytes c.trace = content ∨ .writeError ∈ c.trace)

theorem nothingTruncated_snoc {content : Bytes} {tr : List Act} {a : Act} :
    NothingTruncated content (tr ++ [a]) ↔
      NothingTruncated content tr ∧
        (a = .cioClear → sentBytes tr = content ∨ .writeError ∈ tr) := by
  constructor
  · intro h
    refine ⟨?_, ?_⟩
    · rintro pre post rfl
      exact h pre (post ++ [a]) (by simp)
    · rintro rfl
      exact h tr [] rfl
  · rintro ⟨h, ha⟩ pre post heq
    rcases List.eq_nil_or_concat post with rfl | ⟨post, b, rfl⟩
    · obtain ⟨rfl, hb⟩ := List.append_inj' heq rfl
      exact ha (by simpa using hb)
    · rw [List.concat_eq_append, ← List.cons_append, ← List.append_assoc] at heq
      exact h pre post (List.append_inj_left' heq rfl)

theorem nothingTruncated_wrote {content : Bytes} {tr : List Act} (bs : List Bytes) :
    NothingTruncated content (tr ++ bs.map .wrote) ↔ NothingTruncated content tr := by
  induction bs using List.reverseRecOn with
  | nil => simp
  | append_singleton bs b ih =>
      rw [List.map_append, List.map_singleton, ← List.append_assoc, nothingTruncated_snoc, ih]
      simp

theorem nothingTruncated_of_noClear {content : Bytes} {tr : List Act} (h : .cioClear ∉ tr) :
    NothingTruncated content tr := by
  rintro pre post rfl
  exact absurd (by simp) h

theorem ReplyState.fits {content : Bytes} {c : Conn} (h : ReplyState content c) :
    c.io.wcount ≤ c.io.wbuf.length := by
  cases h with
  | sending wbuf fits => rwa [wbuf]
  | settled empty none => simp [none]

theorem ReplyState.good {content : Bytes} {c : Conn} (h : ReplyState content c) :
    NothingTruncated content c.trace := by
  cases h with
  | sending wbuf fits noClear => exact nothingTruncated_of_noClear noClear
  | settled _ _ good => exact good

theorem replyState_pending (c : Conn) (content : Bytes) :
    ReplyState content (c.pending content) :=
  .sending rfl (Nat.le_refl _) (by simp [Conn.pending]) (by simp [Conn.pending])
    (by simp [Conn.pending])

/-- A call outside the blocked persistent case keeps the reply whole. -/
theorem replyState_step {content : Bytes} {c : Conn} (h : ReplyState content c)
    (k : ResponseCall) (hk : k.mask.persist = true → ¬ Blocks k.writes c.io.wcount) :
    ReplyState content (c.writeEventProc k.mask k.writes).1 := by
  have hend : ResponseEnd { c with io := { c.io with mask := k.mask } } k.writes
      (c.writeEventProc k.mask k.writes).1 := response_end _ k.writes h.fits
  generalize (c.writeEventProc k.mask k.writes).1 = c' at hend
  cases h with
  | sending wbuf fits noClear noError sent =>
      cases hend with
      | rebound bs left pos le hsent transient io trace =>
          simp only [wbuf] at hsent
          refine .sending (by rw [io]; exact wbuf) (by rw [io]; exact Nat.le_trans le fits)
            (by rw [trace]; simp [noClear]) (by rw [trace]; simp [noError]) ?_
          rw [trace, io]
          simpa [hsent] using sent
      | cleared bs hsent free io trace =>
          have hall : sentBytes (c.trace ++ bs.map .wrote) = content := by
            rw [sentBytes_append, sentBytes_wrote, hsent]
            simpa only [wbuf] using sent
          refine .settled (by rw [io]; rfl) (by rw [io]; rfl) ?_ (.inl ?_)
          · rw [trace, nothingTruncated_snoc, nothingTruncated_wrote]
            exact ⟨nothingTruncated_of_noClear noClear, fun _ => .inl hall⟩
          · rw [trace, sentBytes_append, hall, sentBytes_cioClear, List.append_nil]
      | clearedFull bs left pos le hsent persist full io trace => exact absurd full (hk persist)
      | clearedError bs free io trace =>
          refine .settled (by rw [io]; rfl) (by rw [io]; rfl) ?_ (.inr (by rw [trace]; simp))
          rw [trace, nothingTruncated_snoc, nothingTruncated_snoc, nothingTruncated_wrote]
          exact ⟨⟨nothingTruncated_of_noClear noClear, by simp⟩, fun _ => .inr (by simp)⟩
  | settled empty none good done =>
      cases hend with
      | rebound bs left pos le hsent transient io trace =>
          simp only [none] at le
          omega
      | cleared bs hsent free io trace =>
          have hsame : sentBytes (c.trace ++ bs.map .wrote) = sentBytes c.trace := by
            simp [hsent, empty]
          refine .settled (by rw [io]; rfl) (by rw [io]; rfl) ?_ ?_
          · rw [trace, nothingTruncated_snoc, nothingTruncated_wrote, hsame]
            exact ⟨good, fun _ => done.imp_right (by simp +contextual)⟩
          · rw [trace, sentBytes_append, hsame, sentBytes_cioClear, List.append_nil]
            exact done.imp_right (by simp +contextual)
      | clearedFull bs left pos le hsent persist full io trace => exact absurd full (hk persist)
      | clearedError bs free io trace =>
          refine .settled (by rw [io]; rfl) (by rw [io]; rfl) ?_ (.inr (by rw [trace]; simp))
          rw [trace, nothingTruncated_snoc, nothingTruncated_snoc, nothingTruncated_wrote]
          exact ⟨⟨good, by simp⟩, fun _ => .inr (by simp)⟩

/-- In the blocked persistent case the clear takes unsent bytes with it. -/
theorem truncated_of_blocks {content : Bytes} {c : Conn} (h : ReplyState content c)
    (k : ResponseCall) (hp : k.mask.persist = true) (hb : Blocks k.writes c.io.wcount) :
    ¬ NothingTruncated content (c.writeEventProc k.mask k.writes).1.trace := by
  have hend : ResponseEnd { c with io := { c.io with mask := k.mask } } k.writes
      (c.writeEventProc k.mask k.writes).1 := response_end _ k.writes h.fits
  generalize (c.writeEventProc k.mask k.writes).1 = c' at hend
  cases hend with
  | rebound bs left pos le hsent transient io trace => simp [hp] at transient
  | cleared bs hsent free io trace => exact absurd hb free
  | clearedError bs free io trace => exact absurd hb free
  | clearedFull bs left pos le hsent persist full io trace =>
      cases h with
      | settled empty none good done => exact absurd hb (by rw [none]; exact not_blocks_zero _)
      | sending wbuf fits noClear noError sent =>
          simp only [wbuf] at hsent le
          intro hgood
          rw [trace, nothingTruncated_snoc] at hgood
          rcases hgood.2 rfl with hall | herr
          · have hl := congrArg List.length sent
            have hl' := congrArg List.length hsent
            have hl'' := congrArg List.length hall
            simp only [sentBytes_append, sentBytes_wrote, sentBytes_eagain,
              List.length_append, List.length_drop, List.length_nil] at hl hl' hl''
            omega
          · simp [noError] at herr

theorem ResponseEnd.fits {c c' : Conn} {w : Writes} (h : ResponseEnd c w c')
    (hw : c.io.wcount ≤ c.io.wbuf.length) : c'.io.wcount ≤ c'.io.wbuf.length := by
  cases h with
  | rebound bs left pos le sent transient io => rw [io]; exact Nat.le_trans le hw
  | cleared bs sent free io => rw [io]; exact Nat.le_refl _
  | clearedFull bs left pos le sent persist full io => rw [io]; exact Nat.le_refl _
  | clearedError bs free io => rw [io]; exact Nat.le_refl _

theorem ResponseEnd.extends {c c' : Conn} {w : Writes} (h : ResponseEnd c w c') :
    ∃ d, c'.trace = c.trace ++ d := by
  cases h with
  | rebound bs left pos le sent transient io trace => exact ⟨_, by rw [trace, List.append_assoc]⟩
  | cleared bs sent free io trace => exact ⟨_, by rw [trace, List.append_assoc]⟩
  | clearedFull bs left pos le sent persist full io trace =>
      exact ⟨_, by rw [trace, List.append_assoc, List.append_assoc]⟩
  | clearedError bs free io trace =>
      exact ⟨_, by rw [trace, List.append_assoc, List.append_assoc]⟩

theorem runResponses_extends (c : Conn) (calls : List ResponseCall)
    (hw : c.io.wcount ≤ c.io.wbuf.length) : ∃ d, (runResponses c calls).trace = c.trace ++ d := by
  induction calls generalizing c with
  | nil => exact ⟨[], by simp [runResponses]⟩
  | cons k calls ih =>
      have hend : ResponseEnd { c with io := { c.io with mask := k.mask } } k.writes
          (c.writeEventProc k.mask k.writes).1 := response_end _ k.writes hw
      obtain ⟨d, hd⟩ := ih (c.writeEventProc k.mask k.writes).1 (hend.fits hw)
      obtain ⟨e, he⟩ := hend.extends
      exact ⟨e ++ d, by rw [runResponses, List.foldl_cons, ← runResponses, hd, he,
        List.append_assoc]⟩

theorem NothingTruncated.of_append {content : Bytes} {xs ys : List Act}
    (h : NothingTruncated content (xs ++ ys)) : NothingTruncated content xs := by
  rintro pre post rfl
  exact h pre (post ++ ys) (by simp)

/-- The run of `response` from any state in which the reply is under way. -/
theorem runResponses_whole_iff {content : Bytes} {c : Conn} (h : ReplyState content c)
    (calls : List ResponseCall) :
    NothingTruncated content (runResponses c calls).trace ↔
      ∀ pre k post, calls = pre ++ k :: post → k.mask.persist = true →
        ¬ Blocks k.writes (runResponses c pre).io.wcount := by
  induction calls generalizing c with
  | nil =>
      constructor
      · intro _ pre k post heq
        simp at heq
      · intro _
        exact h.good
  | cons k calls ih =>
      have hend : ResponseEnd { c with io := { c.io with mask := k.mask } } k.writes
          (c.writeEventProc k.mask k.writes).1 := response_end _ k.writes h.fits
      have hrun : runResponses c (k :: calls) =
          runResponses (c.writeEventProc k.mask k.writes).1 calls := rfl
      rw [hrun]
      constructor
      · intro hgood
        have hk : k.mask.persist = true → ¬ Blocks k.writes c.io.wcount := by
          intro hp hb
          obtain ⟨d, hd⟩ := runResponses_extends _ calls (hend.fits h.fits)
          rw [hd] at hgood
          exact truncated_of_blocks h k hp hb hgood.of_append
        intro pre k' post heq
        cases pre with
        | nil =>
            obtain ⟨rfl, _⟩ := List.cons.inj heq
            exact hk
        | cons j pre =>
            obtain ⟨rfl, htail⟩ := List.cons.inj heq
            exact (ih (replyState_step h k hk)).mp hgood pre k' post htail
      · intro hfree
        have hk := hfree [] k calls rfl
        refine (ih (replyState_step h k hk)).mpr ?_
        rintro pre k' post rfl
        exact hfree (k :: pre) k' post rfl

/-- Over any calls of `response`, a reply is cleared only when all of it was
accepted or a write failed, exactly when no call of a persistent connection
meets a socket that fills up. -/
theorem response_whole_reply_iff (c : Conn) (content : Bytes) (calls : List ResponseCall) :
    NothingTruncated content (runResponses (c.pending content) calls).trace ↔
      ∀ pre k post, calls = pre ++ k :: post → k.mask.persist = true →
        ¬ Blocks k.writes (runResponses (c.pending content) pre).io.wcount :=
  runResponses_whole_iff (replyState_pending c content) calls

/-- A socket that takes two of the seven bytes of `+PONG` and then fills up. -/
theorem response_truncates_blocked_reply :
    ¬ NothingTruncated (ascii "+PONG\r\n")
      (runResponses (({ io := cioCreate } : Conn).pending (ascii "+PONG\r\n"))
        [⟨cevWrite.or cevPersist, fun k => if k = 0 then .wrote 1 else .eagain⟩]).trace := by
  intro h
  rcases h [.wrote (ascii "+P"), .eagain] [] (by decide) with hsent | herr
  · revert hsent
    decide
  · revert herr
    decide

end ThrSocket
