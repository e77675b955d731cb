import ThrSocket.RequestFormat
import ThrSocket.Server

/-!
What the handlers do to a connection in CEV_PERSIST mode: the read handler, the
write handler with `response`, and `process_commond`. Each is described once by
its ends, and an invariant of the connection is kept by all of them.
-/

namespace ThrSocket
open CString

inductive ReadEnd (c : Conn) (mask : EvMask) : ReadOutcome → Conn × Int → Prop
  | waiting : ReadEnd c mask .eagain (c.setMask mask, 1)
  | parsed {bs : Bytes} {q : Verdict × Req × Bytes} (some : bs ≠ [])
      (parse : parseCommand c.io.toReq (c.io.rbuf ++ bs) = q)
      (verdict : q.1 = .complete ∨ q.1 = .needMore) :
      ReadEnd c mask (.data bs)
        (((c.setMask mask).receive bs).setParsed q.2.1 q.2.2, q.1.code)
  | refused {bs msg buf' : Bytes} {r' : Req} (some : bs ≠ [])
      (parse : parseCommand c.io.toReq (c.io.rbuf ++ bs) = (.protocolError msg, r', buf')) :
      ReadEnd c mask (.data bs)
        ((((((c.setMask mask).receive bs).setParsed r' buf').setProtocolError).append
          (view msg)).addEvent cevWrite .writeEventProc, -1)
  | ended {input : ReadOutcome} (nodata : ∀ bs, input = .data bs → bs = [])
      (flag : c.io.closeAfterWrite = true) : ReadEnd c mask input (c.setMask mask, -1)
  | closing {input : ReadOutcome} (nodata : ∀ bs, input = .data bs → bs = []) :
      ReadEnd c mask input ((c.setMask mask).cioCloseDestroyInstall, -1)

theorem readEventProc_end (c : Conn) {mask : EvMask} (hp : mask.persist = true)
    (input : ReadOutcome) (db : Backend) (w : Writes) :
    ∃ r, c.readEventProc mask input db w = some r ∧ ReadEnd c mask input r := by
  have hdead : (∀ bs, input = .data bs → bs = []) → ∀ c' : Conn, c' = c.setMask mask → ∃ r,
      (if c'.io.closeAfterWrite then some (c', (-1 : Int))
        else some (c'.cioCloseDestroyInstall, -1)) = some r ∧ ReadEnd c mask input r := by
    rintro hno c' rfl
    split
    · rename_i hflag
      exact ⟨_, rfl, .ended hno hflag⟩
    · exact ⟨_, rfl, .closing hno⟩
  rw [Conn.readEventProc]
  simp only [hp, Bool.not_true, Bool.false_and, Bool.false_eq_true, if_false]
  cases input with
  | eagain => exact ⟨_, rfl, .waiting⟩
  | error => exact hdead (fun bs h => by cases h) _ rfl
  | data bs =>
      by_cases hbs : bs = []
      · subst hbs
        exact hdead (fun bs h => by cases h; rfl) _ rfl
      · rcases readProcess_cases (c.setMask mask) w hbs with
          ⟨q, hq, hcode, hres⟩ | ⟨msg, r', buf', hq, hres⟩
        · rw [hres]
          have hne : (c.setMask mask).io.rbuf ++ bs ≠ [] := by simp [hbs]
          have hverdict : q.1 = .complete ∨ q.1 = .needMore := by
            have hv := parseCommand_verdict (c.setMask mask).io.toReq hne
            rw [hq] at hv
            rcases hv with hv | hv | ⟨msg, -, hv⟩
            · exact .inl hv
            · exact .inr hv
            · rw [hv] at hcode
              exact absurd rfl hcode
          have hpos : ¬ q.1.code < 0 := by
            rcases hverdict with hv | hv <;> rw [hv] <;> decide
          simp only [hpos, if_false]
          exact ⟨_, rfl, .parsed hbs hq hverdict⟩
        · rw [hres]
          refine ⟨_, ?_, .refused hbs hq⟩
          have hmask : (((((c.setMask mask).receive bs).setParsed r' buf').setProtocolError).append
              (view msg)).io.mask.persist = true := hp
          simp only [Conn.replyInner, hmask, Bool.not_true, Bool.false_eq_true, if_false]
          rfl

/-- A request under way has its argument array. -/
def Req.Stored (r : Req) : Prop := r.nbulk ≠ 0 → ∃ a, r.argv = some a

/-- Arguments that `process_commond` can read. -/
def Req.Dispatchable (r : Req) : Prop := ∃ a, r.argv = some a ∧ 1 ≤ a.objs.length

/-- Every group that the loop passes is stored. -/
theorem bulkLoop_stored {rbuf : Bytes} {n bulkLen pos : Nat} (a : Argv) :
    ∃ a', (bulkLoop rbuf n bulkLen pos (some a)).argv = some a' ∧
      a'.objs.length + (bulkLoop rbuf n bulkLen pos (some a)).nbulk = a.objs.length + n ∧
      ((bulkLoop rbuf n bulkLen pos (some a)).verdict = .complete →
        (bulkLoop rbuf n bulkLen pos (some a)).nbulk = 0) := by
  induction n generalizing bulkLen pos a with
  | zero => exact ⟨a, rfl, rfl, fun _ => rfl⟩
  | succ n ih =>
      rw [bulkLoop]
      cases hline : (if bulkLen = 0 then bulkLenLine rbuf pos else .ok (bulkLen, pos)) with
      | error v =>
          refine ⟨a, rfl, rfl, fun hv => ?_⟩
          by_cases hb : bulkLen = 0
          · rw [if_pos hb] at hline
            rcases bulkLenLine_error hline with rfl | ⟨msg, -, rfl⟩ <;> cases hv
          · rw [if_neg hb] at hline
            cases hline
      | ok r =>
          simp only
          split
          · exact ⟨a, rfl, rfl, fun hv => by cases hv⟩
          · obtain ⟨a', h1, h2, h3⟩ := ih
              (a.push ((rbuf.drop r.2).take r.1))
            refine ⟨a', h1, ?_, h3⟩
            rw [Option.map_some, h2]
            simp [Argv.push]
            omega

theorem parseCommand_stored {r : Req} (h : r.Stored) (buf : Bytes) :
    (parseCommand r buf).2.1.Stored ∧
      ((parseCommand r buf).1 = .complete → (parseCommand r buf).2.1.Dispatchable) := by
  have hloop : ∀ (n bulkLen pos : Nat) (a : Argv) (r : Req), 1 ≤ n →
      ((bulkLoop buf n bulkLen pos (some a)).finish r buf).2.1.Stored ∧
        (((bulkLoop buf n bulkLen pos (some a)).finish r buf).1 = .complete →
          ((bulkLoop buf n bulkLen pos (some a)).finish r buf).2.1.Dispatchable) := by
    intro n bulkLen pos a r hn
    obtain ⟨a', h1, h2, h3⟩ := bulkLoop_stored (n := n) a
    refine ⟨fun _ => ⟨a', h1⟩, fun hv => ⟨a', h1, ?_⟩⟩
    have := h3 hv
    omega
  rw [parseCommand]
  split
  · exact ⟨h, fun hv => by cases hv⟩
  · split
    · rw [parseMultibluk]
      split
      · rename_i hn
        cases hline : bulkCountLine buf with
        | error v =>
            refine ⟨fun hne => absurd hn hne, fun hv => ?_⟩
            simp only at hv
            subst hv
            rcases bulkCountLine_error hline with hv | ⟨msg, -, hv⟩ <;> cases hv
        | ok r' =>
            obtain ⟨_, _, _, _, _, _, h1, _⟩ := bulkCountLine_ok (n := r'.1) hline
            exact hloop _ _ _ _ _ h1
      · rename_i hn
        obtain ⟨a, ha⟩ := h hn
        simp only [ha]
        exact hloop _ _ _ _ _ (Nat.one_le_iff_ne_zero.mpr hn)
    · rw [parseInline]
      split
      · exact ⟨h, fun hv => by cases hv⟩
      · split
        · exact ⟨h, fun hv => by cases hv⟩
        · refine ⟨fun _ => ⟨_, rfl⟩, fun _ => ⟨_, rfl, ?_⟩⟩
          have hpos := cstrSplitLoop_length_pos buf (ascii " ")
          obtain ⟨x, hx⟩ : ∃ x, (cstrSplit buf (ascii " ")).getLast? = some x :=
            Option.isSome_iff_exists.mp
              (by rw [List.getLast?_isSome]; exact List.length_pos_iff.mp hpos)
          simp only [hx, Option.map_some, Option.toList_some, List.length_append,
            List.length_singleton]
          omega

/-- What holds of every persistent connection, whoever works on it. -/
structure ConnInv (c : Conn) : Prop where
  stored : c.io.toReq.Stored
  fits : c.Fits
  persist : c.evt.mask.persist = true
  readProc : c.evt.readProc = some .readEventProc
  writeProc : c.evt.mask.write = true →
    c.evt.writeProc = some .writeEventProc ∨ c.evt.writeProc = some .cioCloseDestroy

structure Conn.Ready (c : Conn) : Prop where
  mask : c.evt.mask = cevPersist
  args : c.io.toReq.Dispatchable

theorem connInv_freshConn (mask : EvMask) : ConnInv (freshConn mask) where
  stored h := absurd rfl h
  fits := Nat.le_refl _
  persist := rfl
  readProc := rfl
  writeProc h := by cases h

theorem delEvent_persist {c : Conn} (h : c.evt.mask.persist = true) (mask : EvMask) :
    c.delEvent mask = { c with evt := { c.evt with mask := c.evt.mask.without mask } } := by
  have hmask : ¬ c.evt.mask = cevNone := by
    intro hm
    rw [hm] at h
    cases h
  rw [Conn.delEvent, Cevent.del, if_neg hmask]

theorem cioCloseDestroyInstall_eq (c : Conn) :
    c.cioCloseDestroyInstall =
      { c with evt := ⟨⟨false, true, true⟩, c.evt.readProc, some .cioCloseDestroy⟩ } := by
  rw [Conn.cioCloseDestroyInstall,
    delEvent_persist (by simp [Conn.addEvent, Cevent.add, EvMask.or, cevPersist])]
  simp [Conn.addEvent, Cevent.add, EvMask.or, EvMask.without, cevWrite, cevPersist, cevRead]

theorem ConnInv.setMask {c : Conn} (h : ConnInv c) (mask : EvMask) : ConnInv (c.setMask mask) :=
  ⟨h.stored, h.fits, h.persist, h.readProc, h.writeProc⟩

theorem ConnInv.addWrite {c : Conn} (h : ConnInv c) :
    ConnInv (c.addEvent cevWrite .writeEventProc) where
  stored := h.stored
  fits := h.fits
  persist := by simp [Conn.addEvent, Cevent.add, EvMask.or, h.persist]
  readProc := h.readProc
  writeProc _ := .inl rfl

theorem ConnInv.closeInstall {c : Conn} (h : ConnInv c) : ConnInv c.cioCloseDestroyInstall := by
  rw [cioCloseDestroyInstall_eq]
  exact ⟨h.stored, h.fits, rfl, h.readProc, fun _ => .inr rfl⟩

theorem ConnInv.delRead {c : Conn} (h : ConnInv c) : ConnInv (c.delEvent cevRead) := by
  rw [delEvent_persist h.persist]
  refine ⟨h.stored, h.fits, by simp [EvMask.without, cevRead, h.persist], h.readProc, ?_⟩
  intro hw
  exact h.writeProc (by simpa [EvMask.without, cevRead] using hw)

/-- After the read handler; a request is completed only by bytes that complete it. -/
theorem ReadEnd.inv {c : Conn} {mask : EvMask} {input : ReadOutcome} {r : Conn × Int}
    (h : ReadEnd c mask input r) (hc : ConnInv c) :
    ConnInv r.1 ∧ (c.evt.mask.write = true → r.1.evt.mask.write = true) ∧
      (r.2 = 0 → r.1.evt = c.evt ∧ r.1.io.toReq.Dispatchable ∧
        ∃ bs, input = .data bs ∧ bs ≠ [] ∧
          (parseCommand c.io.toReq (c.io.rbuf ++ bs)).1 = .complete) := by
  cases h with
  | waiting => exact ⟨hc.setMask mask, id, fun h0 => by cases h0⟩
  | @parsed bs q some parse verdict =>
      have hstored := parseCommand_stored hc.stored (c.io.rbuf ++ bs)
      rw [parse] at hstored
      refine ⟨⟨hstored.1, hc.fits, hc.persist, hc.readProc, hc.writeProc⟩, id, fun h0 => ?_⟩
      have hv := Verdict.code_eq_zero.mp h0
      exact ⟨rfl, hstored.2 hv, bs, rfl, some, by rw [parse]; exact hv⟩
  | @refused bs msg buf' r' some parse =>
      have hstored := parseCommand_stored hc.stored (c.io.rbuf ++ bs)
      rw [parse] at hstored
      have hbase : ConnInv
          (((((c.setMask mask).receive bs).setParsed r' buf').setProtocolError).append
            (view msg)) :=
        ⟨hstored.1, append_fits hc.fits _, hc.persist, hc.readProc, hc.writeProc⟩
      refine ⟨hbase.addWrite, fun _ => ?_, fun h0 => by cases h0⟩
      simp [Conn.addEvent, Cevent.add, EvMask.or, cevWrite]
  | ended nodata flag => exact ⟨hc.setMask mask, id, fun h0 => by cases h0⟩
  | closing nodata =>
      refine ⟨(hc.setMask mask).closeInstall, fun _ => ?_, fun h0 => by cases h0⟩
      rw [cioCloseDestroyInstall_eq]

/-- On a persistent connection `response` always clears, and leaves either the
read event or the closing one armed. -/
theorem response_persist (c : Conn) (w : Writes) (hp : c.io.mask.persist = true) (hf : c.Fits) :
    (c.response w).1.io = cioCreate ∧
      ((c.response w).1.evt = (c.cioCloseDestroyInstall).evt ∨
        (c.response w).1.evt = (c.installReadEvent.delEvent cevWrite).evt) := by
  have hend := response_end c w hf
  have hio : (c.response w).1.io = cioCreate := by
    cases hend with
    | rebound bs left pos le sent transient => rw [hp] at transient; cases transient
    | cleared bs sent free io => exact io
    | clearedFull bs left pos le sent persist full io => exact io
    | clearedError bs free io => exact io
  refine ⟨hio, ?_⟩
  have hevt : (c.responseInner w).1.evt = c.evt := by
    have hr := responseInner_responded c w hf
    cases hr' : c.responseInner w with
    | mk c' rs =>
        rw [hr'] at hr
        cases hr <;> rfl
  rw [Conn.response]
  simp only [hp, Bool.not_true, Bool.false_and, Bool.false_eq_true, if_false, if_true]
  generalize c.responseInner w = r at hevt
  have hclose : r.1.cioClear.cioCloseDestroyInstall.evt = c.cioCloseDestroyInstall.evt := by
    simp only [cioCloseDestroyInstall_eq, Conn.cioClear, hevt]
  have hread : (r.1.cioClear.installReadEvent.delEvent cevWrite).evt =
      (c.installReadEvent.delEvent cevWrite).evt := by
    simp only [Conn.delEvent, Conn.installReadEvent, Conn.addEvent, Conn.cioClear, hevt]
  split
  · exact .inl hclose
  · split
    · exact .inl hclose
    · exact .inr hread

theorem ConnInv.response {c : Conn} (h : ConnInv c) (mask : EvMask) (hp : mask.persist = true)
    (w : Writes) : ConnInv (c.writeEventProc mask w).1 := by
  obtain ⟨hio, hevt⟩ := response_persist (c.setMask mask) w hp h.fits
  have hpart : ∀ c' : Conn, c'.io = cioCreate → c'.evt.mask.persist = true →
      c'.evt.readProc = some .readEventProc →
      (c'.evt.mask.write = true → c'.evt.writeProc = some .writeEventProc ∨
        c'.evt.writeProc = some .cioCloseDestroy) → ConnInv c' := by
    intro c' hio h1 h2 h3
    refine ⟨?_, ?_, h1, h2, h3⟩
    · intro hn
      rw [hio] at hn
      exact absurd rfl hn
    · rw [Conn.Fits, hio]
      exact Nat.le_refl _
  rcases hevt with hevt | hevt
  · refine hpart _ hio ?_ ?_ ?_ <;> rw [Conn.writeEventProc, ← Conn.setMask, hevt,
      cioCloseDestroyInstall_eq]
    · exact h.readProc
    · exact fun _ => .inr rfl
  · have hadd : ((c.setMask mask).installReadEvent).evt.mask.persist = true := by
      simp [Conn.installReadEvent, Conn.addEvent, Cevent.add, EvMask.or, cevPersist]
    refine hpart _ hio ?_ ?_ ?_ <;> rw [Conn.writeEventProc, ← Conn.setMask, hevt,
      delEvent_persist hadd]
    · simp [EvMask.without, cevWrite, hadd]
    · rfl
    · intro hw
      simp [EvMask.without, cevWrite] at hw

theorem append_nil (c : Conn) : c.append [] = c := by
  simp [Conn.append]

theorem foldl_append (bs : List Bytes) (c : Conn) :
    bs.foldl Conn.append c = c.append bs.flatten := by
  induction bs generalizing c with
  | nil => exact (append_nil c).symm
  | cons b bs ih =>
      rw [List.foldl_cons, ih]
      simp [Conn.append, Nat.add_assoc]

/-- A reply on a persistent connection is left to the main loop. -/
theorem reply_persist (c : Conn) (r : ReplyCall) (w : Writes) (hp : c.io.mask.persist = true) :
    (c.reply r w).1 = (c.append r.appends.flatten).addEvent cevWrite .writeEventProc := by
  have hinner : ((r.appends.foldl Conn.append c).replyInner w) =
      ((c.append r.appends.flatten).addEvent cevWrite .writeEventProc, 0) := by
    rw [foldl_append, Conn.replyInner]
    have : (c.append r.appends.flatten).io.mask.persist = true := hp
    simp only [this, Bool.not_true, Bool.false_eq_true, if_false]
  unfold Conn.reply
  cases r <;> simp only [hinner]

inductive ProcessEnd (c : Conn) : Conn → Prop
  | replied (flag : Bool) (a : Argv) (bs : Bytes) :
      ProcessEnd c (((({ c with io := { c.io with closeAfterWrite := flag } } : Conn).setArgv
        a).append bs).addEvent cevWrite .writeEventProc)

theorem processCommond_end {c : Conn} (hp : c.io.mask.persist = true)
    (hd : c.io.toReq.Dispatchable) (db : Backend) (w : Writes) :
    ∃ r, c.processCommond db w = some r ∧ ProcessEnd c r.1 := by
  obtain ⟨⟨cap, objs⟩, hargv, hpos⟩ := hd
  obtain ⟨name, args, rfl⟩ : ∃ name args, objs = name :: args :=
    List.exists_cons_of_length_pos hpos
  have hreply : ∀ (flag : Bool) (a : Argv) (r : ReplyCall), ProcessEnd c
      ((({ c with io := { c.io with closeAfterWrite := flag } } : Conn).setArgv a).reply
        r w).1 := by
    intro flag a r
    rw [reply_persist (({ c with io := { c.io with closeAfterWrite := flag } } : Conn).setArgv a)
      r w hp]
    exact .replied flag a r.appends.flatten
  have hlower := hreply c.io.closeAfterWrite ⟨cap, cstrTolower name :: args⟩
  rw [Conn.processCommond]
  simp only [hargv]
  split
  · have hquit := hreply true ⟨cap, name :: args⟩ (.obj (.str sharedOk))
    simp only [Conn.setArgv, ← hargv] at hquit
    exact ⟨_, rfl, hquit⟩
  · split
    · rename_i cmd _
      split
      · exact ⟨_, rfl, hlower (.str (wrongArguments (cstrTolower name)))⟩
      · exact ⟨_, rfl, hlower (cmd.call.reply db (cstrTolower name :: args))⟩
    · exact ⟨_, rfl, hlower (.str (unknownCommand (cstrTolower name)))⟩

theorem ProcessEnd.inv {c c' : Conn} (h : ProcessEnd c c') (hc : ConnInv c) :
    ConnInv c' ∧ c'.evt.mask.write = true := by
  cases h with
  | replied flag a bs =>
      refine ⟨ConnInv.addWrite
        ⟨fun _ => ⟨a, rfl⟩, append_fits hc.fits bs, hc.persist, hc.readProc, hc.writeProc⟩, ?_⟩
      simp [Conn.addEvent, Cevent.add, EvMask.or, cevWrite]

end ThrSocket
