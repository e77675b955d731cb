import ThrSocket.ServerHeap
import ThrSocket.Lib.Lockstep
import ThrSocket.Transcript

/-!
What a handler does to the heap. It leaves its two handles and all other blocks as
they are. With both handles live it does what it does on byte strings, as long as its
appends fit; with an allocator that moves blocks an append that does not fit leaves a
handle to a released block.
-/

namespace ThrSocket
open CString Machine

/-- What an operation on a connection leaves as it is: its handles, and every other block. -/
structure HConn.Keeps (c c' : HConn) : Prop where
  rbuf : c'.io.rbuf = c.io.rbuf
  wbuf : c'.io.wbuf = c.io.wbuf
  others : ∀ q b, q ≠ c.io.rbuf → q ≠ c.io.wbuf → c.heap.get q = some b → c'.heap.get q = some b

theorem cstrStore_others {heap heap' : CstrHeap} {s q : Nat} {data : Bytes}
    (hs : cstrStore heap s data = some heap') (hq : q ≠ s) : heap'.get q = heap.get q := by
  obtain ⟨b, -, hs⟩ := Option.bind_eq_some_iff.mp hs
  obtain ⟨b', -, hset⟩ := Option.bind_eq_some_iff.mp hs
  exact BlockHeap.set_of_ne hset hq

theorem cstrExtend_others {moves : Nat → Bool} {heap heap' : CstrHeap} {s s' add q : Nat}
    {b : CstrBlock} (hs : cstrExtend moves heap s add = some (heap', s'))
    (hb : heap.get q = some b) (hq : q ≠ s) : heap'.get q = some b ∧ q ≠ s' := by
  obtain ⟨b₀, -, hs⟩ := Option.bind_eq_some_iff.mp hs
  split at hs
  · cases hs
    exact ⟨hb, hq⟩
  · obtain ⟨b', -, hre⟩ := Option.bind_eq_some_iff.mp hs
    exact BlockHeap.realloc_of_ne hre hb hq

theorem cstrNcat_others {moves : Nat → Bool} {heap heap' : CstrHeap} {s s' q : Nat} {bs : Bytes}
    {b : CstrBlock} (hs : cstrNcat moves heap s bs = some (heap', s'))
    (hb : heap.get q = some b) (hq : q ≠ s) : heap'.get q = some b := by
  obtain ⟨⟨heap₁, s₁⟩, hext, hs⟩ := Option.bind_eq_some_iff.mp hs
  obtain ⟨hb₁, hq₁⟩ := cstrExtend_others hext hb hq
  obtain ⟨b₀, -, hs⟩ := Option.bind_eq_some_iff.mp hs
  obtain ⟨b', -, hs⟩ := Option.bind_eq_some_iff.mp hs
  obtain ⟨heap₂, hset, heq⟩ := Option.bind_eq_some_iff.mp hs
  cases heq
  exact (BlockHeap.set_of_ne hset hq₁).trans hb₁

namespace HConn

variable {moves : Nat → Bool} {c c' c'' : HConn}

theorem Keeps.of_same (hheap : c'.heap = c.heap) (hr : c'.io.rbuf = c.io.rbuf)
    (hw : c'.io.wbuf = c.io.wbuf) : c.Keeps c' :=
  ⟨hr, hw, fun _ _ _ _ hb => hheap ▸ hb⟩

theorem Keeps.refl (c : HConn) : c.Keeps c := .of_same rfl rfl rfl

theorem Keeps.trans (h : c.Keeps c') (h' : c'.Keeps c'') : c.Keeps c'' :=
  ⟨h'.rbuf.trans h.rbuf, h'.wbuf.trans h.wbuf, fun q b hr hw hb =>
    h'.others q b (h.rbuf ▸ hr) (h.wbuf ▸ hw) (h.others q b hr hw hb)⟩

/-- Stores to other fields of the record before it. -/
theorem Keeps.behind (h : c'.Keeps c'') (hheap : c'.heap = c.heap)
    (hr : c'.io.rbuf = c.io.rbuf) (hw : c'.io.wbuf = c.io.wbuf) : c.Keeps c'' :=
  (Keeps.of_same hheap hr hw).trans h

theorem cioClear_keeps (h : c.cioClear = some c') : c.Keeps c' := by
  obtain ⟨heap₁, hr, h⟩ := Option.bind_eq_some_iff.mp h
  obtain ⟨heap₂, hw, heq⟩ := Option.bind_eq_some_iff.mp h
  cases heq
  refine ⟨rfl, rfl, fun q b hqr hqw hb => ?_⟩
  exact (cstrStore_others hw hqw).trans ((cstrStore_others hr hqr).trans hb)

theorem response_keeps {w : Writes} {rs : Int} (h : c.response w = some (c', rs)) :
    c.Keeps c' := by
  obtain ⟨wbuf, -, h⟩ := Option.bind_eq_some_iff.mp h
  dsimp only at h
  split at h
  · cases h
    exact .of_same rfl rfl rfl
  · obtain ⟨c₁, hclear, h⟩ := Option.bind_eq_some_iff.mp h
    have hkeeps : c.Keeps c₁ := (cioClear_keeps hclear).behind rfl rfl rfl
    split_ifs at h
    · cases h
      exact hkeeps.trans (.of_same rfl rfl rfl)
    · cases h
      exact hkeeps.trans (.of_same rfl rfl rfl)
    · cases h
      exact hkeeps.trans (.of_same rfl rfl rfl)
    · cases h
      exact hkeeps.trans (.of_same rfl rfl rfl)

theorem writeEventProc_keeps {mask : EvMask} {w : Writes} {rs : Int}
    (h : c.writeEventProc mask w = some (c', rs)) : c.Keeps c' :=
  (response_keeps h).behind rfl rfl rfl

theorem replyInner_keeps {w : Writes} {rs : Int} (h : c.replyInner w = some (c', rs)) :
    c.Keeps c' := by
  rw [replyInner] at h
  split at h
  · exact response_keeps h
  · cases h
    exact .of_same rfl rfl rfl

theorem append_keeps {bs : Bytes} (h : c.append moves bs = some c') : c.Keeps c' := by
  obtain ⟨⟨heap, s⟩, hncat, heq⟩ := Option.bind_eq_some_iff.mp h
  cases heq
  exact ⟨rfl, rfl, fun q b _ hw hb => cstrNcat_others hncat hb hw⟩

theorem appends_keeps {bss : List Bytes} (h : bss.foldlM (append moves) c = some c') :
    c.Keeps c' := by
  induction bss generalizing c with
  | nil =>
      cases h
      exact .refl _
  | cons bs bss ih =>
      obtain ⟨c₁, happ, hrest⟩ := Option.bind_eq_some_iff.mp h
      exact (append_keeps happ).trans (ih hrest)

theorem reply_keeps {r : ReplyCall} {w : Writes} {rs : Int}
    (h : c.reply moves r w = some (c', rs)) : c.Keeps c' := by
  obtain ⟨c₁, happs, h⟩ := Option.bind_eq_some_iff.mp h
  obtain ⟨⟨c₂, rs₂⟩, hinner, heq⟩ := Option.bind_eq_some_iff.mp h
  have hlast : c' = c₂ := by
    cases r <;> cases heq <;> rfl
  rw [hlast]
  exact (appends_keeps happs).trans (replyInner_keeps hinner)

theorem receive_keeps {buf : Bytes} (h : c.receive moves buf = some c') : c.Keeps c' := by
  obtain ⟨⟨heap, s⟩, hncat, heq⟩ := Option.bind_eq_some_iff.mp h
  cases heq
  exact ⟨rfl, rfl, fun q b hr _ hb => cstrNcat_others hncat hb hr⟩

theorem tryProcessCommand_keeps {w : Writes} {rs : Int}
    (h : c.tryProcessCommand moves w = some (c', rs)) : c.Keeps c' := by
  obtain ⟨rbuf, -, h⟩ := Option.bind_eq_some_iff.mp h
  obtain ⟨heap, hstore, h⟩ := Option.bind_eq_some_iff.mp h
  generalize parseCommand c.io.toReq rbuf.data = p at hstore h
  have hkeeps : c.Keeps { c with heap := heap, io := { c.io with toReq := p.2.1 } } :=
    ⟨rfl, rfl, fun q b hr _ hb => (cstrStore_others hstore hr).trans hb⟩
  dsimp only at h
  split at h
  · obtain ⟨⟨c₁, rs₁⟩, hreply, heq⟩ := Option.bind_eq_some_iff.mp h
    cases heq
    exact hkeeps.trans ((reply_keeps hreply).behind rfl rfl rfl)
  · cases h
    exact hkeeps

theorem readProcess_keeps {input : ReadOutcome} {w : Writes} {rs : Int}
    (h : c.readProcess moves input w = some (c', rs)) : c.Keeps c' := by
  cases input with
  | eagain =>
      cases h
      exact .refl c
  | error =>
      cases h
      exact .refl c
  | data buf =>
      rw [readProcess] at h
      split at h
      · cases h
        exact .refl c
      · obtain ⟨c₁, hreceive, htry⟩ := Option.bind_eq_some_iff.mp h
        exact (receive_keeps hreceive).trans (tryProcessCommand_keeps htry)

theorem processCommond_keeps {db : Backend} {w : Writes} {rs : Int}
    (h : c.processCommond moves db w = some (c', rs)) : c.Keeps c' := by
  rw [processCommond] at h
  split at h
  · cases h
  · cases h
  · split at h
    · obtain ⟨⟨c₁, rs₁⟩, hreply, heq⟩ := Option.map_eq_some_iff.mp h
      cases heq
      exact (reply_keeps hreply).behind rfl rfl rfl
    · dsimp only at h
      split at h
      · split at h
        · exact (reply_keeps h).behind rfl rfl rfl
        · obtain ⟨⟨c₁, rs₁⟩, hreply, heq⟩ := Option.map_eq_some_iff.mp h
          cases heq
          exact (reply_keeps hreply).behind rfl rfl rfl
      · exact (reply_keeps h).behind rfl rfl rfl

theorem readEventProc_keeps {mask : EvMask} {input : ReadOutcome} {db : Backend} {w : Writes}
    {rs : Int} (h : c.readEventProc moves mask input db w = some (c', rs)) : c.Keeps c' := by
  obtain ⟨⟨c₁, rs₁⟩, hread, h⟩ := Option.bind_eq_some_iff.mp h
  have hkeeps : c.Keeps c₁ := (readProcess_keeps hread).behind rfl rfl rfl
  dsimp only at h
  split_ifs at h
  · cases h
    exact hkeeps.trans (.of_same rfl rfl rfl)
  · cases h
    exact hkeeps
  · cases h
    exact hkeeps.trans (.of_same rfl rfl rfl)
  · obtain ⟨⟨c₂, rs₂⟩, hproc, heq⟩ := Option.map_eq_some_iff.mp h
    cases heq
    exact hkeeps.trans ((processCommond_keeps hproc).behind rfl rfl rfl)
  · cases h
    exact hkeeps

end HConn

section

variable {h h' : HConn} {c : Conn}

theorem Tracked.evt (ht : Tracked h c) : h.evt = c.evt := by
  obtain ⟨_, _, _⟩ := ht
  rfl

theorem Tracked.closeAfterWrite (ht : Tracked h c) :
    h.io.closeAfterWrite = c.io.closeAfterWrite := by
  obtain ⟨_, _, _⟩ := ht
  rfl

theorem Tracked.setMask (ht : Tracked h c) (mask : EvMask) :
    Tracked (h.setMask mask) (c.setMask mask) := by
  obtain ⟨hrb, hwb, hd⟩ := ht
  exact .intro hrb hwb hd

theorem Tracked.setArgv (ht : Tracked h c) (argv : Argv) :
    Tracked (h.setArgv argv) (c.setArgv argv) := by
  obtain ⟨hrb, hwb, hd⟩ := ht
  exact .intro hrb hwb hd

/-- The handles in a heap in which their blocks are the same. -/
theorem Tracked.frame (ht : Tracked h c) {heap : CstrHeap}
    (hr : ∀ b, h.heap.get h.io.rbuf = some b → heap.get h.io.rbuf = some b)
    (hw : ∀ b, h.heap.get h.io.wbuf = some b → heap.get h.io.wbuf = some b) :
    Tracked { h with heap := heap } c := by
  obtain ⟨⟨r, hr₀, hrest⟩, ⟨w, hw₀, hwest⟩, hd⟩ := ht
  exact .intro ⟨r, hr r hr₀, hrest⟩ ⟨w, hw w hw₀, hwest⟩ hd

theorem HConn.Stale.congr (hs : h.Stale) (hheap : h'.heap = h.heap)
    (hr : h'.io.rbuf = h.io.rbuf) (hw : h'.io.wbuf = h.io.wbuf) : h'.Stale := by
  rw [HConn.Stale, HConn.load, hheap, hr, hw]
  rw [HConn.Stale, HConn.load] at hs
  cases hrb : h.heap.get h.io.rbuf with
  | none => rfl
  | some r =>
      cases hwb : h.heap.get h.io.wbuf with
      | none => rfl
      | some w =>
          rw [hrb, hwb] at hs
          cases hs

/-- `process_commond` comes to one reply, on both sides the same. -/
theorem Tracked.processCommond_reply (ht : Tracked h c) (db : Backend) (w : Writes) {cap : Nat}
    {name : Bytes} {args : List Bytes} (hargv : c.io.argv = some ⟨cap, name :: args⟩) :
    ∃ (h₁ : HConn) (c₁ : Conn) (r : ReplyCall) (f : Int → Int), Tracked h₁ c₁ ∧
      c₁.io.wbuf = c.io.wbuf ∧ r.appends.flatten = answer db (name :: args) ∧
      (∀ moves, h.processCommond moves db w =
        (h₁.reply moves r w).map fun p => (p.1, f p.2)) ∧
      c.processCommond db w = some ((c₁.reply r w).1, f (c₁.reply r w).2) := by
  have hsame : h.io.argv = c.io.argv := congrArg Req.argv ht.toReq
  have hset := ht.setArgv ⟨cap, cstrTolower name :: args⟩
  by_cases hquit : cstrTolower (view name) = ascii "quit"
  · refine ⟨_, _, .obj (.str sharedOk), fun _ => 0, ht.setProtocolError, rfl, ?_, ?_, ?_⟩
    · simp [ReplyCall.appends, replyObjBytes, answer, hquit]
    · intro moves
      simp only [HConn.processCommond, hsame, hargv, if_pos hquit]
      rfl
    · simp only [Conn.processCommond, hargv, if_pos hquit]
      rfl
  · cases hfind : commands.find? fun cmd => cmd.name = cstrTolower name with
    | none =>
        refine ⟨_, _, .str (unknownCommand (cstrTolower name)), id, hset, rfl, ?_, ?_, ?_⟩
        · simp [ReplyCall.appends, answer, hquit, hfind]
        · intro moves
          simp only [HConn.processCommond, hsame, hargv, if_neg hquit, hfind]
          simp
        · simp only [Conn.processCommond, hargv, if_neg hquit, hfind]
          rfl
    | some cmd =>
        by_cases herr : cmd.argsErr (args.length + 1)
        · refine ⟨_, _, .str (wrongArguments (cstrTolower name)), id, hset, rfl, ?_, ?_, ?_⟩
          · simp [ReplyCall.appends, answer, hquit, hfind, herr]
          · intro moves
            simp only [HConn.processCommond, hsame, hargv, if_neg hquit, hfind, if_pos herr]
            simp
          · simp only [Conn.processCommond, hargv, if_neg hquit, hfind, if_pos herr]
            rfl
        · refine ⟨_, _, cmd.call.reply db (cstrTolower name :: args), fun _ => 0, hset, rfl,
            ?_, ?_, ?_⟩
          · simp [answer, hquit, hfind, herr]
          · intro moves
            simp only [HConn.processCommond, hsame, hargv, if_neg hquit, hfind, if_neg herr]
          · simp only [Conn.processCommond, hargv, if_neg hquit, hfind, if_neg herr]

/-- The reply to the stored arguments does not take `io->wbuf` beyond its first length. -/
def Conn.AnswerFits (c : Conn) (db : Backend) : Prop :=
  c.io.wbuf.length + (answer db ((c.io.argv.map Argv.objs).getD [])).length ≤ bufCap

/-- Without arguments `process_commond` is undefined on both sides, and there is no reply that
could be too long. -/
theorem Tracked.processCommond_cases (ht : Tracked h c) (db : Backend) (w : Writes) :
    ((∀ moves, h.processCommond moves db w = none) ∧ c.processCommond db w = none ∧
        c.AnswerFits db) ∨
      ∃ (h₁ : HConn) (c₁ : Conn) (r : ReplyCall) (f : Int → Int), Tracked h₁ c₁ ∧
        (c.AnswerFits db ↔ c₁.io.wbuf.length + r.appends.flatten.length ≤ bufCap) ∧
        (∀ moves, h.processCommond moves db w =
          (h₁.reply moves r w).map fun p => (p.1, f p.2)) ∧
        c.processCommond db w = some ((c₁.reply r w).1, f (c₁.reply r w).2) := by
  have hsame : h.io.argv = c.io.argv := congrArg Req.argv ht.toReq
  have hlen : c.io.wbuf.length ≤ bufCap := by
    obtain ⟨-, hwb, -⟩ := ht
    exact hwb.length_le
  rw [Conn.AnswerFits]
  cases hargv : c.io.argv with
  | none =>
      refine .inl ⟨fun moves => ?_, ?_, hlen⟩
      · rw [HConn.processCommond, hsame, hargv]
      · rw [Conn.processCommond, hargv]
  | some argv =>
      obtain ⟨cap, objs⟩ := argv
      cases objs with
      | nil =>
          refine .inl ⟨fun moves => ?_, ?_, hlen⟩
          · rw [HConn.processCommond, hsame, hargv]
          · rw [Conn.processCommond, hargv]
      | cons name args =>
          obtain ⟨h₁, c₁, r, f, ht₁, hwbuf, hanswer, hboth⟩ := ht.processCommond_reply db w hargv
          refine .inr ⟨h₁, c₁, r, f, ht₁, ?_, hboth⟩
          rw [hwbuf, hanswer]
          rfl

theorem Tracked.processCommond (moves : Nat → Bool) (ht : Tracked h c) {db : Backend} (w : Writes)
    (hfit : c.AnswerFits db) :
    Option.Rel (SameOutput Tracked) (h.processCommond moves db w) (c.processCommond db w) := by
  cases ht.processCommond_cases db w with
  | inl hnone =>
      rw [hnone.1, hnone.2.1]
      exact .none
  | inr hreply =>
      obtain ⟨h₁, c₁, r, f, ht₁, hfits, hblocks, hbytes⟩ := hreply
      obtain ⟨h₂, hrun, ht₂⟩ := ht₁.reply moves r w (hfits.mp hfit)
      rw [hblocks, hbytes, hrun]
      exact .some ⟨ht₂, rfl⟩

theorem Tracked.processCommond_stale (ht : Tracked h c) {db : Backend} {w : Writes} {rs : Int}
    (hover : ¬ c.AnswerFits db)
    (hstep : h.processCommond alwaysMoves db w = some (h', rs)) : h'.Stale := by
  cases ht.processCommond_cases db w with
  | inl hnone => exact absurd hnone.2.2 hover
  | inr hreply =>
      obtain ⟨h₁, c₁, r, f, ht₁, hfits, hblocks, -⟩ := hreply
      rw [hblocks] at hstep
      obtain ⟨⟨h₂, rs₂⟩, hrun, heq⟩ := Option.map_eq_some_iff.mp hstep
      cases heq
      exact ht₁.reply_stale (Nat.not_le.mp fun hle => hover (hfits.mpr hle)) hrun

theorem Tracked.readEventProc (moves : Nat → Bool) (ht : Tracked h c) {mask : EvMask}
    (hp : mask.persist = true) (input : ReadOutcome) (db : Backend) (w : Writes)
    (hfit : c.OpFits (.readProcess input w)) :
    Option.Rel (SameOutput Tracked) (h.readEventProc moves mask input db w)
      (c.readEventProc mask input db w) := by
  obtain ⟨h₁, hread, ht₁⟩ := (ht.setMask mask).readProcess moves input w hfit
  simp only [HConn.readEventProc, Conn.readEventProc, hread, hp, Option.bind_eq_bind,
    Option.bind_some, Bool.not_true, Bool.false_and, Bool.false_eq_true, if_false,
    ht₁.closeAfterWrite]
  split_ifs
  · exact .some ⟨ht₁, rfl⟩
  · exact .some ⟨ht₁.mapEvt fun e =>
      (e.add (cevWrite.or cevPersist) .cioCloseDestroy).del cevRead, rfl⟩
  · exact .some ⟨ht₁, rfl⟩

theorem Tracked.readEventProc_stale (ht : Tracked h c) {mask : EvMask}
    (hp : mask.persist = true) {input : ReadOutcome} {db : Backend} {w : Writes} {rs : Int}
    (hover : ¬ c.OpFits (.readProcess input w))
    (hstep : h.readEventProc alwaysMoves mask input db w = some (h', rs)) : h'.Stale := by
  obtain ⟨⟨h₁, rs₁⟩, hread, hstep⟩ := Option.bind_eq_some_iff.mp hstep
  have hop : (h.setMask mask).bufStep alwaysMoves (.readProcess input w) = some h₁ := by
    rw [HConn.bufStep, hread]
    rfl
  have hstale : h₁.Stale := (ht.setMask mask).bufStep_stale hover hop
  simp only [hp, Bool.not_true, Bool.false_and, Bool.false_eq_true, if_false] at hstep
  split_ifs at hstep
  · cases hstep
    exact hstale
  · cases hstep
    exact hstale.congr rfl rfl rfl
  · cases hstep
    exact hstale

theorem Tracked.writeEventProc (ht : Tracked h c) (mask : EvMask) (w : Writes) :
    ∃ h', h.writeEventProc mask w = some (h', (c.writeEventProc mask w).2) ∧
      Tracked h' (c.writeEventProc mask w).1 :=
  (ht.setMask mask).response w

/-- Both blocks are there to be released, and no other one is touched. -/
theorem Tracked.cioDestroy (ht : Tracked h c) :
    ∃ heap, h.cioDestroy = some heap ∧
      ∀ q, q ≠ h.io.rbuf → q ≠ h.io.wbuf → heap.get q = h.heap.get q := by
  obtain ⟨⟨r, hr, -⟩, ⟨w, hw, -⟩, hd⟩ := ht
  have hw' : (h.heap.free h.io.rbuf).get h.io.wbuf = some w :=
    (BlockHeap.free_of_ne hd.symm).trans hw
  refine ⟨(h.heap.free h.io.rbuf).free h.io.wbuf, ?_, fun q hqr hqw => ?_⟩
  · simp only [HConn.cioDestroy, cstrDestroy, hr, hw', Option.map_some, Option.bind_eq_bind,
      Option.bind_some]
  · exact (BlockHeap.free_of_ne hqw).trans (BlockHeap.free_of_ne hqr)

end

end ThrSocket
