import ThrSocket.ClearedCio
import ThrSocket.ReplyMem

/-!
The write cursor of a connection: `_response` finds the next byte from the length
of `io->wbuf` and the count of the bytes that are left. Replies may be appended at
any time between two calls that write a part.
-/

namespace ThrSocket
open ByteMem CString Decimal

/-- Bytes appended to `io->wbuf`, or a call of `_response`. -/
inductive WriteOp
  | append (r : ReplyCall) (fresh : Nat → Nat → UInt8)
  | respond (w : Writes)

namespace WriteOp

def frame : WriteOp → Bytes
  | .append r _ => r.appends.flatten
  | .respond _ => []

def Allowed : WriteOp → Prop
  | .append r _ => r.InRange
  | .respond w => ∀ k, w k ≠ .error

end WriteOp

def appended (ops : List WriteOp) : Bytes := ops.flatMap WriteOp.frame

namespace ConnMem

def writeStep (c : ConnMem) : WriteOp → Option (ConnMem × Option Int)
  | .append r fresh => (c.replyAppends fresh r).map fun c => (c, none)
  | .respond w => (c.responseInner w).map fun res => (res.1, some res.2)

/-- `_response` returns 0 if and only if nothing is left to write. -/
def TellsRest (c : ConnMem) : WriteOp → Prop
  | .append _ _ => True
  | .respond w => ∃ c' rs, c.responseInner w = some (c', rs) ∧ (rs = 0 ↔ c'.io.wcount = 0)

structure Cursor (c : ConnMem) (frames : Bytes) : Prop where
  wbuf : c.io.wbuf.Shows frames
  fits : c.io.wcount ≤ frames.length
  exact : sentBytes c.trace ++ frames.drop (frames.length - c.io.wcount) = frames

namespace Cursor

variable {c : ConnMem} {frames bs : Bytes}

/-- As many bytes more to write as there are more in the buffer. -/
theorem append (h : Cursor c frames) {wbuf : CstrMem} (hshows : wbuf.Shows (frames ++ bs)) :
    Cursor { c with io := { c.io with wbuf := wbuf, wcount := c.io.wcount + bs.length } }
      (frames ++ bs) := by
  have hfits := h.fits
  have hstart : (frames ++ bs).length - (c.io.wcount + bs.length) =
      frames.length - c.io.wcount := by
    rw [List.length_append]
    omega
  refine ⟨hshows, ?_, ?_⟩
  · rw [List.length_append]
    exact Nat.add_le_add_right hfits _
  · dsimp only
    rw [hstart, List.drop_append_of_le_length (Nat.sub_le _ _), ← List.append_assoc, h.exact]

theorem count (h : Cursor c frames) (bs : Bytes)
    (hsmall : frames.length + bs.length < 2 ^ 31) :
    sizeToInt (c.io.wcount + bs.length) = some (c.io.wcount + bs.length) := by
  have hfits := h.fits
  exact if_pos (by omega)

/-- Whatever the strings, the buffer and the count go up by them. -/
theorem appendAll (h : Cursor c frames) (fresh : Nat → Nat → UInt8) (k : Nat) (bss : List Bytes)
    (hsmall : frames.length + bss.flatten.length < 2 ^ 31) :
    ∃ c', ConnMem.appendAll fresh k bss c = some c' ∧ Cursor c' (frames ++ bss.flatten) := by
  induction bss generalizing c frames k with
  | nil => exact ⟨c, rfl, by rwa [List.flatten_nil, List.append_nil]⟩
  | cons bs bss ih =>
      rw [List.flatten_cons, List.length_append] at hsmall
      obtain ⟨wbuf, hncat, hshows, -⟩ :=
        CstrMem.cstrNcat_defined (fresh k) h.wbuf bs (by omega)
      have hcount := h.count bs (by omega)
      obtain ⟨c', hc', hcursor⟩ := ih (h.append hshows) (k + 1) (by
        rw [List.length_append]
        omega)
      refine ⟨c', ?_, ?_⟩
      · rw [ConnMem.appendAll, ConnMem.append, hncat, Option.bind_eq_bind, Option.bind_some,
          hcount, Option.bind_eq_bind, Option.bind_some, Option.bind_some]
        exact hc'
      · rwa [List.append_assoc] at hcursor

/-- What a write accepts is taken from the front of what is left. -/
theorem writeSome (h : Cursor c frames) (n : Nat) :
    ∃ c', c.writeSome n = some c' ∧ Cursor c' frames ∧
      c'.io.wcount = c.io.wcount - min n c.io.wcount := by
  have hfits := h.fits
  have hstart : frames.length - (c.io.wcount - min n c.io.wcount) =
      (frames.length - c.io.wcount) + min n c.io.wcount := by
    omega
  have hwrote : ∀ bs, sentBytes [Act.wrote bs] = bs := fun bs => List.append_nil bs
  have hwrite : c.writeSome n = some
      { c with
        io := { c.io with wcount := c.io.wcount - min n c.io.wcount }
        trace := c.trace ++ [.wrote ((frames.drop (frames.length - c.io.wcount)).take
          (min n c.io.wcount))] } := by
    simp only [ConnMem.writeSome, unsent_eq h.wbuf hfits, Option.bind_eq_bind, Option.bind_some]
  refine ⟨_, hwrite, ⟨h.wbuf, ?_, ?_⟩, rfl⟩
  · exact Nat.le_trans (Nat.sub_le _ _) hfits
  · dsimp only
    rw [hstart, ← List.drop_drop, sentBytes_append, hwrote, List.append_assoc,
      List.take_append_drop, h.exact]

theorem responseLoop {w : Writes} (hw : ∀ k, w k ≠ .error) (fuel k : Nat) (h : Cursor c frames)
    (hfuel : c.io.wcount ≤ fuel) :
    ∃ c' rs, ConnMem.responseLoop w fuel k c = some (c', rs) ∧ Cursor c' frames ∧
      (rs = 0 ↔ c'.io.wcount = 0) := by
  induction fuel generalizing k c with
  | zero => exact ⟨c, 0, rfl, h, iff_of_true rfl (Nat.le_zero.mp hfuel)⟩
  | succ fuel ih =>
      rw [ConnMem.responseLoop]
      by_cases hleft : c.io.wcount > 0
      · rw [if_pos hleft]
        cases hk : w k with
        | error => exact absurd hk (hw k)
        | eagain =>
            refine ⟨_, 1, rfl, ⟨h.wbuf, h.fits, ?_⟩, iff_of_false (by decide) hleft.ne'⟩
            rw [sentBytes_append, sentBytes_eagain, List.append_nil]
            exact h.exact
        | wrote n =>
            obtain ⟨c', hwrite, hcursor, hcount⟩ := h.writeSome (n + 1)
            obtain ⟨c'', rs, hloop, hrest⟩ := ih (k + 1) hcursor (by omega)
            refine ⟨c'', rs, ?_, hrest⟩
            dsimp only
            rw [hwrite]
            exact hloop
      · rw [if_neg hleft]
        exact ⟨c, 0, rfl, h, iff_of_true rfl (Nat.eq_zero_of_not_pos hleft)⟩

theorem step (h : Cursor c frames) {op : WriteOp} (hop : op.Allowed)
    (hsmall : frames.length + op.frame.length < 2 ^ 31) :
    ∃ c' rs, c.writeStep op = some (c', rs) ∧ Cursor c' (frames ++ op.frame) ∧
      c.TellsRest op := by
  cases op with
  | append r fresh =>
      obtain ⟨fresh', heq⟩ := c.replyAppends_eq fresh hop (Nat.lt_of_add_left_lt hsmall)
      obtain ⟨c', hc', hcursor⟩ := h.appendAll fresh' 0 r.appends hsmall
      exact ⟨c', none, by rw [writeStep, heq, hc']; rfl, hcursor, trivial⟩
  | respond w =>
      obtain ⟨c', rs, hloop, hcursor, hrest⟩ := responseLoop hop _ 0 h (Nat.le_refl _)
      refine ⟨c', some rs, by rw [writeStep, responseInner, hloop]; rfl, ?_, c', rs, hloop, hrest⟩
      rw [WriteOp.frame, List.append_nil]
      exact hcursor

theorem run {ops : List WriteOp} (h : Cursor c frames) (hops : ∀ op ∈ ops, op.Allowed)
    (hsmall : frames.length + (appended ops).length < 2 ^ 31) :
    (∃ c' rets, Machine.run writeStep c ops = some (c', rets) ∧
      Cursor c' (frames ++ appended ops)) ∧ Machine.Along writeStep TellsRest c ops := by
  induction ops generalizing c frames with
  | nil => exact ⟨⟨c, [], rfl, by rwa [appended, List.flatMap_nil, List.append_nil]⟩, trivial⟩
  | cons op ops ih =>
      have hsplit : appended (op :: ops) = op.frame ++ appended ops := List.flatMap_cons
      rw [hsplit, List.length_append] at hsmall
      obtain ⟨c₁, rs, hstep, hcursor, htells⟩ := h.step (hops op List.mem_cons_self) (by omega)
      obtain ⟨⟨c', rets, hrun, hlast⟩, halong⟩ := ih hcursor
        (fun op' hop' => hops op' (List.mem_cons_of_mem _ hop')) (by
          rw [List.length_append]
          omega)
      rw [hsplit, ← List.append_assoc]
      refine ⟨⟨c', rs :: rets, Machine.run_cons_eq_some.mpr ⟨c₁, rs, rets, hstep, hrun, rfl⟩,
        hlast⟩, htells, fun c₁' rs' hstep' => ?_⟩
      cases hstep.symm.trans hstep'
      exact halong

/-- A cleared record has nothing to write. -/
theorem cleared {m io : CioMem} {s : Bytes} (hs : m.wbuf.Shows s) (hclear : m.clear = some io)
    (evt : Cevent) : Cursor { io := io, evt := evt } [] := by
  obtain ⟨rbuf, -, hclear⟩ := Option.bind_eq_some_iff.mp hclear
  obtain ⟨wbuf, hwbuf, hclear⟩ := Option.bind_eq_some_iff.mp hclear
  obtain ⟨objs, -, hclear⟩ := Option.bind_eq_some_iff.mp hclear
  cases hclear
  obtain ⟨wbuf', hwbuf', hshows, -⟩ := CstrMem.cstrClear_shows hs
  cases hwbuf.symm.trans hwbuf'
  exact ⟨hshows, Nat.le_refl _, rfl⟩

end Cursor

/-- From a cleared record on, replies and partial writes in any order: what the socket has
accepted and the bytes left at the end of `wbuf` are all that was appended, and each
`_response` returns 0 if and only if it leaves none. -/
theorem response_cursor_exact {m io : CioMem} {s : Bytes} (hs : m.wbuf.Shows s)
    (hclear : m.clear = some io) (evt : Cevent) {ops : List WriteOp}
    (hops : ∀ op ∈ ops, op.Allowed) (htotal : (appended ops).length < 2 ^ 31) :
    (∃ c rets rest, Machine.run writeStep { io := io, evt := evt } ops = some (c, rets) ∧
      c.unsent = some rest ∧ sentBytes c.trace ++ rest = appended ops) ∧
    Machine.Along writeStep TellsRest { io := io, evt := evt } ops := by
  have hsmall : ([] : Bytes).length + (appended ops).length < 2 ^ 31 := by
    rwa [List.length_nil, Nat.zero_add]
  obtain ⟨⟨c, rets, hrun, hlast⟩, htells⟩ := (Cursor.cleared hs hclear evt).run hops hsmall
  exact ⟨⟨c, rets, _, hrun, unsent_eq hlast.wbuf hlast.fits, hlast.exact⟩, htells⟩

def resumedOps : List WriteOp :=
  [.append (.len 7) fun _ _ => 9, .respond fun k => if k = 0 then .wrote 2 else .eagain,
    .append (.bulk (.str (ascii "ab"))) fun _ _ => 9, .respond fun _ => .wrote 4]

theorem response_cursor_exact_resumed :
    ∃ m io c rets rest, CioMem.create (fun _ _ => 9) = some m ∧ m.clear = some io ∧
      Machine.run writeStep { io := io } resumedOps = some (c, rets) ∧
      c.unsent = some rest ∧ sentBytes c.trace ++ rest = ascii ":7\r\n$2\r\nab\r\n" := by
  obtain ⟨m, hcreate, hholds⟩ := CioMem.create_holds fun _ _ => 9
  obtain ⟨io, hclear, -⟩ := hholds.clear
  have hops : ∀ op ∈ resumedOps, op.Allowed := by
    simp only [resumedOps, List.forall_mem_cons]
    refine ⟨?_, fun k => ?_, trivial, fun k => nofun, List.forall_mem_nil _⟩
    · show ReplyCall.InRange (.len 7)
      decide
    · dsimp only
      split_ifs <;> exact nofun
  have htext : appended resumedOps = ascii ":7\r\n$2\r\nab\r\n" := by decide
  obtain ⟨⟨c, rets, rest, hrun, hunsent, hexact⟩, -⟩ :=
    response_cursor_exact hholds.wbuf hclear {} hops (by rw [htext]; decide)
  exact ⟨m, io, c, rets, rest, hcreate, hclear, hrun, hunsent, hexact.trans htext⟩

end ConnMem

end ThrSocket
