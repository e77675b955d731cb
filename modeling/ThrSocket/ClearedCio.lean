import ThrSocket.CioMem
import ThrSocket.Lib.Follows
import ThrSocket.Persistent

/-!
What the bytes behind the terminators can do to a connection: nothing. The connection in raw
memory follows the connection whose buffers are their contents, as long as these stay below
2^30 bytes. So a record that has been cleared goes on as a record just created does.
-/

namespace ThrSocket
open ByteMem CString Machine

/-- The record in memory holds the contents. A buffer just created has no NUL yet. -/
structure CioMem.Holds (m : CioMem) (io : Cio Bytes) : Prop where
  req : m.req = io.toReq.toMem
  balanced : io.toReq.Balanced
  mask : m.mask = io.mask
  rbuf : m.rbuf.Shows io.rbuf
  terminated : io.rbuf ≠ [] → m.rbuf.Terminated
  wbuf : m.wbuf.Shows io.wbuf
  wcount : m.wcount = io.wcount
  fits : io.wcount ≤ io.wbuf.length
  closeAfterWrite : m.closeAfterWrite = io.closeAfterWrite

structure ConnMem.Holds (m : ConnMem) (c : Conn) : Prop where
  io : m.io.Holds c.io
  evt : m.evt = c.evt
  trace : m.trace = c.trace

def maxErrorLen : Nat := 64

theorem view_errorMessage_length :
    ∀ {msg : Bytes}, msg ∈ errorMessages → (view msg).length ≤ maxErrorLen := by
  decide

theorem parseCommand_message {r : Req} {s msg : Bytes}
    (h : (parseCommand r s).1 = .protocolError msg) : msg ∈ errorMessages := by
  have hne : s ≠ [] := by
    rintro rfl
    cases h
  rcases parseCommand_verdict r hne with hv | hv | ⟨msg', hmem, hv⟩
  · cases h.symm.trans hv
  · cases h.symm.trans hv
  · cases h.symm.trans hv
    exact hmem

def Conn.size (c : Conn) : Nat := c.io.rbuf.length + c.io.wbuf.length

def ConnOp.bytes : ConnOp → Nat
  | .receive buf => buf.length
  | .tryProcessCommand _ => maxErrorLen
  | .reply r _ => r.appends.flatten.length
  | .writeEventProc _ _ | .setMask _ | .cioClear => 0

variable {m : ConnMem} {c : Conn}

theorem objs_toMem (r : Req) : r.toMem.objs = some ((r.argv.map Argv.objs).getD []) := by
  have hall : ∀ objs : List Bytes, (objs.map some).mapM id = some objs := by
    intro objs
    rw [List.mapM_map]
    exact List.mapM_pure.trans (congrArg some (List.map_id objs))
  cases hargv : r.argv with
  | none => simp [ReqMem.objs, Req.toMem, Req.argc, hargv]
  | some a =>
      have hlen : (a.objs.map some).length = a.objs.length := List.length_map some
      simp only [ReqMem.objs, Req.toMem, Req.argc, hargv, Option.map_some, Option.getD_some,
        Argv.slots]
      rw [← hlen, List.take_left, if_pos rfl, hall]

theorem CioMem.create_holds (fresh : Nat → Nat → UInt8) :
    ∃ m, CioMem.create fresh = some m ∧ m.Holds cioCreate := by
  obtain ⟨rbuf, hrbuf, hrshows, -⟩ := CstrMem.cstrCreate_shows (fresh 0)
    (show 1024 < 2 ^ 32 by omega)
  obtain ⟨wbuf, hwbuf, hwshows, -⟩ := CstrMem.cstrCreate_shows (fresh 1)
    (show 1024 < 2 ^ 32 by omega)
  refine ⟨{ rbuf := rbuf, wbuf := wbuf }, ?_, rfl, Req.balanced_init, rfl, hrshows, ?_, hwshows,
    rfl, Nat.le_refl _, rfl⟩
  · simp only [CioMem.create, hrbuf, hwbuf, Option.bind_eq_bind, Option.bind_some]
  · exact fun hne => absurd rfl hne

theorem CioMem.Holds.clear {m : CioMem} {io : Cio Bytes} (h : m.Holds io) :
    ∃ m', m.clear = some m' ∧ m'.Holds cioCreate := by
  obtain ⟨rbuf, hrbuf, hrshows, hrterm⟩ := CstrMem.cstrClear_shows h.rbuf
  obtain ⟨wbuf, hwbuf, hwshows, -⟩ := CstrMem.cstrClear_shows h.wbuf
  refine ⟨{ rbuf := rbuf, wbuf := wbuf }, ?_, rfl, Req.balanced_init, rfl, hrshows, fun _ => hrterm,
    hwshows, rfl, Nat.le_refl _, rfl⟩
  simp only [CioMem.clear, hrbuf, hwbuf, h.req, objs_toMem, Option.bind_eq_bind, Option.bind_some]

namespace ConnMem.Holds

variable {E : Prop}

theorem cioClear (h : m.Holds c) : Follows ConnMem.Holds E m.cioClear c.cioClear := by
  obtain ⟨io, hclear, hio⟩ := h.io.clear
  rw [ConnMem.cioClear, hclear]
  exact .holds ⟨hio, h.evt, congrArg (· ++ [.cioClear]) h.trace⟩

theorem addEvent (h : m.Holds c) (mask : EvMask) (proc : EventProc) :
    (m.addEvent mask proc).Holds (c.addEvent mask proc) :=
  ⟨h.io, congrArg (·.add mask proc) h.evt, h.trace⟩

theorem delEvent (h : m.Holds c) (mask : EvMask) : (m.delEvent mask).Holds (c.delEvent mask) :=
  ⟨h.io, congrArg (·.del mask) h.evt, h.trace⟩

theorem cioCloseDestroyInstall (h : m.Holds c) :
    m.cioCloseDestroyInstall.Holds c.cioCloseDestroyInstall := (h.addEvent _ _).delEvent _

theorem act (h : m.Holds c) (a : Act) :
    ConnMem.Holds { m with trace := m.trace ++ [a] } { c with trace := c.trace ++ [a] } :=
  ⟨h.io, h.evt, congrArg (· ++ [a]) h.trace⟩

theorem unsent (h : m.Holds c) :
    m.unsent = some (c.io.wbuf.drop (c.io.wbuf.length - c.io.wcount)) := by
  rw [← h.io.wcount]
  exact ConnMem.unsent_eq h.io.wbuf (h.io.wcount ▸ h.io.fits)

theorem writeSome (h : m.Holds c) (n : Nat) :
    Follows ConnMem.Holds E (m.writeSome n) (c.writeSome n) := by
  rw [ConnMem.writeSome, h.unsent, Option.bind_eq_bind, Option.bind_some]
  refine .holds ⟨{ h.io with wcount := ?_, fits := ?_ }, h.evt, ?_⟩
  · simp only [Conn.writeSome, h.io.wcount]
  · exact Nat.le_trans (Nat.sub_le _ _) h.io.fits
  · simp only [Conn.writeSome, h.io.wcount, h.trace]

theorem responseLoop (h : m.Holds c) (w : Writes) (fuel k : Nat) :
    Follows (SameOutput ConnMem.Holds) E (ConnMem.responseLoop w fuel k m)
      (Conn.responseLoop w fuel k c) := by
  induction fuel generalizing k m c with
  | zero => exact .holds ⟨h, rfl⟩
  | succ fuel ih =>
      rw [ConnMem.responseLoop, Conn.responseLoop, h.io.wcount]
      by_cases hleft : c.io.wcount > 0
      · rw [if_pos hleft, if_pos hleft]
        cases w k with
        | eagain => exact .holds ⟨h.act .eagain, rfl⟩
        | error => exact .holds ⟨h.act .writeError, rfl⟩
        | wrote n => exact (h.writeSome (n + 1)).bind id fun m' h' => ih h' (k + 1)
      · rw [if_neg hleft, if_neg hleft]
        exact .holds ⟨h, rfl⟩

theorem response (h : m.Holds c) (w : Writes) :
    Follows (SameOutput ConnMem.Holds) E (m.response w) (c.response w) := by
  have hinner : Follows (SameOutput ConnMem.Holds) E (m.responseInner w) (c.responseInner w) := by
    rw [ConnMem.responseInner, h.io.wcount]
    exact h.responseLoop w _ _
  rw [ConnMem.response, Conn.response, h.io.mask]
  refine hinner.bind id fun x hx => ?_
  obtain ⟨m', rs⟩ := x
  generalize c.responseInner w = y at hx ⊢
  obtain ⟨c', rs'⟩ := y
  obtain ⟨h', rfl⟩ := hx
  dsimp only
  rw [h'.io.closeAfterWrite]
  split_ifs with hagain herror hclose hpersist
  · exact .holds ⟨h'.addEvent _ _, rfl⟩
  · exact h'.cioClear.map fun _ h'' => ⟨h''.cioCloseDestroyInstall, rfl⟩
  · exact h'.cioClear.map fun _ h'' => ⟨h''.cioCloseDestroyInstall, rfl⟩
  · exact h'.cioClear.bind id fun _ h'' => .holds ⟨(h''.addEvent _ _).delEvent _, rfl⟩
  · exact h'.cioClear.bind id fun _ h'' => .holds ⟨h''.addEvent _ _, rfl⟩

theorem setMask (h : m.Holds c) (mask : EvMask) :
    ConnMem.Holds { m with io := { m.io with mask := mask } }
      { c with io := { c.io with mask := mask } } :=
  ⟨{ h.io with mask := rfl }, h.evt, h.trace⟩

theorem writeEventProc (h : m.Holds c) (mask : EvMask) (w : Writes) :
    Follows (SameOutput ConnMem.Holds) E (m.writeEventProc mask w) (c.writeEventProc mask w) :=
  (h.setMask mask).response w

theorem replyInner (h : m.Holds c) (w : Writes) :
    Follows (SameOutput ConnMem.Holds) E (m.replyInner w) (c.replyInner w) := by
  rw [ConnMem.replyInner, Conn.replyInner, h.io.mask]
  split_ifs with hpersist
  · exact h.response w
  · exact .holds ⟨h.addEvent _ _, rfl⟩

theorem append (h : m.Holds c) (fresh : Nat → UInt8) (bs : Bytes)
    (hE : 2 ^ 30 ≤ c.io.wbuf.length + bs.length → E) :
    Follows ConnMem.Holds E (m.append fresh bs) (c.append bs) := by
  rw [ConnMem.append]
  cases hncat : m.io.wbuf.cstrNcat fresh bs with
  | none =>
      refine .excused (hE ?_)
      by_contra hshort
      obtain ⟨wbuf, hdefined, -⟩ := CstrMem.cstrNcat_defined fresh h.io.wbuf bs (by omega)
      cases hncat.symm.trans hdefined
  | some wbuf =>
      obtain ⟨hshows, -⟩ := CstrMem.cstrNcat_shows h.io.wbuf hncat
      have hfits := h.io.fits
      have hwcount := h.io.wcount
      rw [Option.bind_eq_bind, Option.bind_some, sizeToInt]
      split_ifs with hint
      · refine .holds ⟨{ h.io with wbuf := hshows, wcount := ?_, fits := ?_ }, h.evt, h.trace⟩
        · exact congrArg (· + bs.length) hwcount
        · simp only [Conn.append, List.length_append]
          omega
      · exact .excused (hE (by omega))

theorem appendAll (h : m.Holds c) (fresh : Nat → Nat → UInt8) (k : Nat) (bss : List Bytes)
    (hE : 2 ^ 30 ≤ c.io.wbuf.length + bss.flatten.length → E) :
    Follows ConnMem.Holds E (ConnMem.appendAll fresh k bss m) (bss.foldl Conn.append c) := by
  induction bss generalizing k m c with
  | nil => exact .holds h
  | cons bs bss ih =>
      rw [List.flatten_cons, List.length_append] at hE
      have hhead := h.append (fresh k) bs fun hlong => hE (by omega)
      refine hhead.bind id fun m' h' => ih h' (k + 1) ?_
      intro hlong
      rw [Conn.append, List.length_append] at hlong
      exact hE (by omega)

theorem reply (h : m.Holds c) (fresh : Nat → Nat → UInt8) (r : ReplyCall) (w : Writes)
    (hE : 2 ^ 30 ≤ c.io.wbuf.length + r.appends.flatten.length → E) :
    Follows (SameOutput ConnMem.Holds) E (m.reply fresh r w) (c.reply r w) := by
  refine (h.appendAll fresh 0 r.appends hE).bind id fun m' h' => ?_
  refine (h'.replyInner w).bind id fun x hx => ?_
  cases r with
  | bulk => exact .holds ⟨hx.1, rfl⟩
  | str | obj | len | cstr | err => exact .holds hx

theorem receive (h : m.Holds c) (fresh : Nat → Nat → UInt8) (buf : Bytes)
    (hE : 2 ^ 30 ≤ c.io.rbuf.length + buf.length → E) :
    Follows ConnMem.Holds E (m.receive fresh buf) (c.receive buf) := by
  rw [ConnMem.receive]
  cases hncat : m.io.rbuf.cstrNcat (fresh 0) buf with
  | none =>
      refine .excused (hE ?_)
      by_contra hshort
      obtain ⟨rbuf, hdefined, -⟩ := CstrMem.cstrNcat_defined (fresh 0) h.io.rbuf buf (by omega)
      cases hncat.symm.trans hdefined
  | some rbuf =>
      obtain ⟨hshows, hterm⟩ := CstrMem.cstrNcat_shows h.io.rbuf hncat
      exact .holds ⟨{ h.io with rbuf := hshows, terminated := fun _ => hterm }, h.evt, h.trace⟩

/-- The parser sees the content only. A buffer without a NUL is empty, and is not read. -/
theorem parsed (h : m.Holds c) : ∃ trim,
    parseCommandMem m.io.rbuf.buf m.io.rbuf.used m.io.req =
        some ((parseCommand c.io.toReq c.io.rbuf).1,
          (parseCommand c.io.toReq c.io.rbuf).2.1.toMem, trim) ∧
      ParsedMem c.io.rbuf (fun mem => parseCommandMem mem c.io.rbuf.length c.io.toReq.toMem)
        (parseCommand c.io.toReq c.io.rbuf) trim := by
  obtain ⟨trim, hparsed⟩ := parseCommand_parsed h.io.balanced c.io.rbuf
  refine ⟨trim, ?_, hparsed⟩
  rw [h.io.rbuf.used, h.io.req]
  by_cases hempty : c.io.rbuf = []
  · have hzero : c.io.rbuf.length = 0 := List.length_eq_zero_iff.mpr hempty
    rw [← hparsed.call_eq []]
    exact (if_pos hzero).trans (if_pos hzero).symm
  · obtain ⟨t, heq⟩ := h.io.rbuf.terminated (h.io.terminated hempty)
    rw [heq]
    exact hparsed.call_eq t

theorem cutRbuf (h : m.Holds c) {trim : Option Nat}
    (htrim : ∀ n, trim = some n → n ≤ c.io.rbuf.length + maxCommandLenLimit)
    (hE : 2 ^ 30 ≤ c.io.rbuf.length → E) :
    Follows (fun rbuf s => rbuf.Shows s ∧ (s ≠ [] → rbuf.Terminated)) E
      (ConnMem.cutRbuf m.io.rbuf trim) (trimmed c.io.rbuf trim) := by
  cases trim with
  | none => exact .holds ⟨h.io.rbuf, h.io.terminated⟩
  | some n =>
      have hle := htrim n rfl
      rw [maxCommandLenLimit] at hle
      rw [ConnMem.cutRbuf, sizeToInt]
      split_ifs with hint
      · rw [Option.bind_eq_bind, Option.bind_some]
        by_cases hsmall : c.io.rbuf.length < 2 ^ 31
        · obtain ⟨rbuf, hrange, hshows, hterm⟩ := CstrMem.cstrRange_shows h.io.rbuf hsmall
            (Int32.ofNat n) (-1)
          rw [Int32.toInt_ofNat_of_lt hint] at hshows
          rw [hrange]
          exact .holds ⟨hshows, fun _ => hterm⟩
        · rw [CstrMem.cstrRange, h.io.rbuf.used, if_neg hsmall]
          exact .excused (hE (by omega))
      · exact .excused (hE (by omega))

theorem setParsed (h : m.Holds c) {rbuf : CstrMem} {r : Req} {s : Bytes} (hr : r.Balanced)
    (hshows : rbuf.Shows s) (hterm : s ≠ [] → rbuf.Terminated) :
    ConnMem.Holds { m with io := { m.io with req := r.toMem, rbuf := rbuf } } (c.setParsed r s) :=
  ⟨{ h.io with req := rfl, balanced := hr, rbuf := hshows, terminated := hterm }, h.evt, h.trace⟩

theorem setProtocolError (h : m.Holds c) : m.setProtocolError.Holds c.setProtocolError :=
  ⟨{ h.io with closeAfterWrite := rfl }, h.evt, h.trace⟩

theorem tryProcessCommand (h : m.Holds c) (fresh : Nat → Nat → UInt8) (w : Writes)
    (hE : 2 ^ 30 ≤ c.io.rbuf.length + c.io.wbuf.length + maxErrorLen → E) :
    Follows (SameOutput ConnMem.Holds) E (m.tryProcessCommand fresh w) (c.tryProcessCommand w) := by
  obtain ⟨trim, hcall, hparsed⟩ := h.parsed
  have hcut := h.cutRbuf (E := E) hparsed.trim_le fun hlong => hE (by omega)
  have hbalanced := hparsed.balanced
  rw [ConnMem.tryProcessCommand, hcall, Option.bind_eq_bind, Option.bind_some,
    Conn.tryProcessCommand, Conn.endParse, hparsed.left]
  refine hcut.bind id fun rbuf hrbuf => ?_
  have h' := h.setParsed hbalanced hrbuf.1 hrbuf.2
  cases hv : (parseCommand c.io.toReq c.io.rbuf).1 with
  | protocolError msg =>
      have hshort := view_errorMessage_length (parseCommand_message hv)
      refine (h'.setProtocolError.reply fresh (.str msg) w fun hlong => hE ?_).map
        fun _ hx => ⟨hx.1, rfl⟩
      have hwbuf : ((c.setParsed (parseCommand c.io.toReq c.io.rbuf).2.1
          (trimmed c.io.rbuf trim)).setProtocolError).io.wbuf = c.io.wbuf := rfl
      rw [hwbuf, ReplyCall.appends, List.flatten_singleton] at hlong
      omega
  | complete | needMore | noInput => exact .holds ⟨h', rfl⟩

theorem call (h : m.Holds c) (k : ConnCall) (hE : 2 ^ 30 ≤ c.size + k.op.bytes → E) :
    Follows (SameOutput ConnMem.Holds) E (m.call k) (c.call k.op) := by
  obtain ⟨op, fresh⟩ := k
  rw [Conn.size] at hE
  cases op with
  | receive buf =>
      exact (h.receive fresh buf fun hlong => hE (by rw [ConnOp.bytes]; omega)).map
        fun _ h' => ⟨h', rfl⟩
  | tryProcessCommand w => exact h.tryProcessCommand fresh w hE
  | reply r w => exact h.reply fresh r w fun hlong => hE (by rw [ConnOp.bytes]; omega)
  | writeEventProc mask w => exact h.writeEventProc mask w
  | setMask mask => exact .holds ⟨h.setMask mask, rfl⟩
  | cioClear => exact h.cioClear.map fun _ h' => ⟨h', rfl⟩

theorem seen (h : m.Holds c) (ret : Int) : m.seen ret = some (c.seen ret) := by
  rw [ConnMem.seen, h.io.req, objs_toMem, h.unsent, h.evt, h.trace]
  rfl

theorem step (h : m.Holds c) (k : ConnCall) :
    Follows (SameOutput ConnMem.Holds) (2 ^ 30 ≤ c.size + k.op.bytes) (m.step k)
      (c.step k.op) := by
  refine (h.call k id).bind id fun x hx => ?_
  simp only [hx.1.seen, Option.bind_eq_bind, Option.bind_some]
  exact .holds ⟨hx.1, congrArg (c.call k.op).1.seen hx.2⟩

end ConnMem.Holds

theorem response_size (c : Conn) (w : Writes) (h : c.Fits) : (c.response w).1.size ≤ c.size := by
  unfold Conn.size
  cases response_end c w h with
  | rebound _ _ _ _ _ _ io => rw [io]
  | cleared _ _ _ io | clearedFull _ _ _ _ _ _ _ io | clearedError _ _ io =>
      rw [io]
      exact Nat.zero_le _

theorem reply_size (c : Conn) (r : ReplyCall) (w : Writes) (h : c.Fits) :
    (c.reply r w).1.size ≤ c.size + r.appends.flatten.length := by
  have happended : (c.append r.appends.flatten).size = c.size + r.appends.flatten.length := by
    simp only [Conn.size, Conn.append, List.length_append]
    omega
  have hinner : ((c.append r.appends.flatten).replyInner w).1.size ≤
      c.size + r.appends.flatten.length := by
    rw [← happended, Conn.replyInner]
    split
    · exact response_size _ w (append_fits h _)
    · exact Nat.le_refl _
  rw [← foldl_append] at hinner
  unfold Conn.reply
  cases r <;> exact hinner

theorem tryProcessCommand_size (c : Conn) (w : Writes) (h : c.Fits) :
    (c.tryProcessCommand w).1.size ≤ c.size + maxErrorLen := by
  have hset : (c.setParsed (parseCommand c.io.toReq c.io.rbuf).2.1
      (parseCommand c.io.toReq c.io.rbuf).2.2).size ≤ c.size :=
    Nat.add_le_add_right (parseCommand_length_le _ _) _
  rw [Conn.tryProcessCommand, Conn.endParse]
  cases hv : (parseCommand c.io.toReq c.io.rbuf).1 with
  | protocolError msg =>
      have hshort := view_errorMessage_length (parseCommand_message hv)
      have hfits : ((c.setParsed (parseCommand c.io.toReq c.io.rbuf).2.1
          (parseCommand c.io.toReq c.io.rbuf).2.2).setProtocolError).Fits := h
      refine (reply_size _ (.str msg) w hfits).trans ?_
      rw [ReplyCall.appends, List.flatten_singleton]
      exact Nat.add_le_add hset hshort
  | complete | needMore | noInput => exact Nat.le_add_right_of_le hset

theorem step_size (c : Conn) (op : ConnOp) (h : c.Fits) :
    (c.step op).1.size ≤ c.size + op.bytes := by
  cases op with
  | receive buf =>
      change (c.receive buf).size ≤ _
      simp only [Conn.size, Conn.receive, List.length_append, ConnOp.bytes]
      omega
  | tryProcessCommand w => exact tryProcessCommand_size c w h
  | reply r w => exact reply_size c r w h
  | writeEventProc mask w => exact response_size _ w h
  | setMask mask => exact Nat.le_refl _
  | cioClear => exact Nat.zero_le _

/-- The memory follows the contents, and is undefined only past 2^30 bytes. -/
theorem ConnMem.Holds.run (h : m.Holds c) (calls : List ConnCall) :
    Follows (SameOutput ConnMem.Holds)
      (2 ^ 30 ≤ c.size + ((calls.map ConnCall.op).map ConnOp.bytes).sum)
      (Machine.run ConnMem.step m calls) (runAll Conn.step c (calls.map ConnCall.op)) :=
  run_follows (fun h => ConnMem.Holds.step h _) (fun op h => step_size _ op h.io.fits) h calls

/-- Whatever has happened to a connection, after `cio_clear` it shows the same in any calls as a
connection just created, where both are defined, and both are below 2^30 bytes. -/
theorem cioClear_asCreated {fresh₀ : Nat → Nat → UInt8} {io₀ : CioMem} {evt₀ : Cevent}
    {history : List ConnCall} {c : ConnMem} {seen₀ : List Seen}
    (hcreate : CioMem.create fresh₀ = some io₀)
    (hhistory : Machine.run ConnMem.step { io := io₀, evt := evt₀ } history = some (c, seen₀)) :
    ∃ cleared, c.io.clear = some cleared ∧
      ∀ fresh, ∃ created, CioMem.create fresh = some created ∧
        ∀ evt (calls calls' : List ConnCall), calls.map ConnCall.op = calls'.map ConnCall.op →
          (∀ x x', Machine.run ConnMem.step { io := cleared, evt := evt } calls = some x →
            Machine.run ConnMem.step { io := created, evt := evt } calls' = some x' →
            x.2 = x'.2) ∧
          (((calls.map ConnCall.op).map ConnOp.bytes).sum < 2 ^ 30 →
            (∃ x, Machine.run ConnMem.step { io := cleared, evt := evt } calls = some x) ∧
            ∃ x, Machine.run ConnMem.step { io := created, evt := evt } calls' = some x) := by
  obtain ⟨io, hio, hholds⟩ := CioMem.create_holds fresh₀
  cases hcreate.symm.trans hio
  have hstart : ConnMem.Holds { io := io₀, evt := evt₀ } { io := cioCreate, evt := evt₀ } :=
    ⟨hholds, rfl, rfl⟩
  have hreached := hstart.run history
  rw [hhistory] at hreached
  obtain ⟨cleared, hclear, hcleared⟩ := hreached.related.1.io.clear
  refine ⟨cleared, hclear, fun fresh => ?_⟩
  obtain ⟨created, hcreated, hfresh⟩ := CioMem.create_holds fresh
  refine ⟨created, hcreated, fun evt calls calls' hops => ?_⟩
  have hfirst : ConnMem.Holds { io := cleared, evt := evt } { io := cioCreate, evt := evt } :=
    ⟨hcleared, rfl, rfl⟩
  have hsecond : ConnMem.Holds { io := created, evt := evt } { io := cioCreate, evt := evt } :=
    ⟨hfresh, rfl, rfl⟩
  have hrun := hfirst.run calls
  have hrun' := hsecond.run calls'
  rw [← hops] at hrun'
  have hempty : Conn.size { io := cioCreate, evt := evt } = 0 := rfl
  refine ⟨fun x x' hx hx' => ?_, fun hbelow => ⟨hrun.defined ?_, hrun'.defined ?_⟩⟩
  · rw [hx] at hrun
    rw [hx'] at hrun'
    exact hrun.related.2.trans hrun'.related.2.symm
  · omega
  · omega

def staleHistory : List ConnCall :=
  [⟨.receive (ascii "*2\r\n$3\r\nGET\r\n$5\r\nab"), fun _ _ => 7⟩,
    ⟨.tryProcessCommand fun _ => .eagain, fun _ _ => 7⟩,
    ⟨.reply (.cstr (ascii "+stale\r\n")) fun k => if k = 0 then .wrote 2 else .eagain,
      fun _ _ => 7⟩]

def pingCalls (byte : UInt8) : List ConnCall :=
  [⟨.receive (ascii "*1\r\n$4\r\nPING\r\n"), fun _ _ => byte⟩,
    ⟨.tryProcessCommand fun _ => .eagain, fun _ _ => byte⟩,
    ⟨.reply (.cstr (ascii "+PONG\r\n")) fun _ => .eagain, fun _ _ => byte⟩]

theorem cioClear_asCreated_stale :
    ∃ io₀ c seen₀ cleared created x x',
      CioMem.create (fun _ _ => 7) = some io₀ ∧
      Machine.run ConnMem.step { io := io₀ } staleHistory = some (c, seen₀) ∧
      c.io.clear = some cleared ∧ CioMem.create (fun _ _ => 9) = some created ∧
      Machine.run ConnMem.step { io := cleared } (pingCalls 7) = some x ∧
      Machine.run ConnMem.step { io := created } (pingCalls 9) = some x' ∧ x.2 = x'.2 := by
  obtain ⟨io₀, hcreate, hholds⟩ := CioMem.create_holds fun _ _ => 7
  have hstart : ConnMem.Holds { io := io₀ } { io := cioCreate } := ⟨hholds, rfl, rfl⟩
  obtain ⟨⟨c, seen₀⟩, hhistory⟩ := (hstart.run staleHistory).defined (by decide)
  obtain ⟨cleared, hclear, hall⟩ := cioClear_asCreated hcreate hhistory
  obtain ⟨created, hcreated, hcalls⟩ := hall fun _ _ => 9
  obtain ⟨hsame, hdefined⟩ := hcalls {} (pingCalls 7) (pingCalls 9) rfl
  obtain ⟨⟨x, hx⟩, x', hx'⟩ := hdefined (by decide)
  exact ⟨io₀, c, seen₀, cleared, created, x, x', hcreate, hhistory, hclear, hcreated, hx, hx',
    hsame x x' hx hx'⟩

end ThrSocket
