import ThrSocket.ConnHeap
import ThrSocket.Calls

/-!
When the connection buffers stay live. As long as every append fits the length
a buffer was created with, the handles are never moved and the heap follows
the model on byte strings; the first append that does not fit leaves a handle
to a released block behind, if the allocator moves the block.
-/

namespace ThrSocket
open CString

def Holds (heap : CstrHeap) (s : Nat) (data : Bytes) : Prop :=
  ∃ b, heap.get s = some b ∧ b.len = bufCap ∧ b.data = data

theorem Holds.length_le {heap : CstrHeap} {s : Nat} {data : Bytes} (h : Holds heap s data) :
    data.length ≤ bufCap := by
  obtain ⟨b, _, hlen, rfl⟩ := h
  exact hlen ▸ b.fits

theorem Holds.frame {heap heap' : CstrHeap} {s q : Nat} {data : Bytes} (h : Holds heap q data)
    (hframe : ∀ q ≠ s, heap'.get q = heap.get q) (hq : q ≠ s) : Holds heap' q data := by
  obtain ⟨b, hb, hrest⟩ := h
  exact ⟨b, (hframe q hq).trans hb, hrest⟩

theorem CstrBlock.store_fits (b : CstrBlock) {data : Bytes} (h : data.length ≤ b.len) :
    b.store data = some ⟨b.len, data, h⟩ := by
  rw [CstrBlock.store, dif_pos h]

theorem cstrStore_holds {heap : CstrHeap} {s : Nat} {old : Bytes} (data : Bytes)
    (h : Holds heap s old) (hfit : data.length ≤ bufCap) :
    ∃ heap', cstrStore heap s data = some heap' ∧ Holds heap' s data ∧
      ∀ q ≠ s, heap'.get q = heap.get q := by
  obtain ⟨b, hb, hlen, _⟩ := h
  have hfit' : data.length ≤ b.len := hlen ▸ hfit
  obtain ⟨heap', hset, hget⟩ := BlockHeap.set_of_some (b := ⟨b.len, data, hfit'⟩) hb
  refine ⟨heap', ?_, ⟨⟨b.len, data, hfit'⟩, ?_, hlen, rfl⟩, ?_⟩
  · simp only [cstrStore, hb, Option.bind_eq_bind, Option.bind_some, b.store_fits hfit', hset]
  · rw [hget, Function.update_self]
  · intro q hq
    rw [hget, Function.update_of_ne hq]

/-- An append that fits stays in place. -/
theorem cstrNcat_holds (moves : Nat → Bool) {heap : CstrHeap} {s : Nat} {data bs : Bytes}
    (h : Holds heap s data) (hfit : data.length + bs.length ≤ bufCap) :
    ∃ heap', cstrNcat moves heap s bs = some (heap', s) ∧ Holds heap' s (data ++ bs) ∧
      ∀ q ≠ s, heap'.get q = heap.get q := by
  obtain ⟨heap', hstore, hholds, hframe⟩ :=
    cstrStore_holds _ h (by rw [List.length_append]; exact hfit)
  refine ⟨heap', ?_, hholds, hframe⟩
  obtain ⟨b, hb, hlen, rfl⟩ := h
  have hfree : b.free ≥ bs.length := by
    rw [CstrBlock.free]
    omega
  simp only [cstrStore, hb, Option.bind_eq_bind, Option.bind_some] at hstore
  simp only [cstrNcat, cstrExtend, hb, Option.bind_eq_bind, Option.bind_some, if_pos hfree]
  cases hb' : b.store (b.data ++ bs) with
  | none =>
      rw [hb'] at hstore
      cases hstore
  | some b' =>
      rw [hb'] at hstore
      simp only [Option.bind_some] at hstore ⊢
      rw [hstore]
      rfl

/-- An append that does not fit leaves the caller's handle without a block,
if the allocator moves. -/
theorem cstrNcat_stale {heap heap' : CstrHeap} {s s' : Nat} {data bs : Bytes}
    (h : Holds heap s data) (hover : bufCap < data.length + bs.length)
    (hr : cstrNcat (fun _ => true) heap s bs = some (heap', s')) : heap'.get s = none := by
  obtain ⟨b, hb, hlen, rfl⟩ := h
  have hfree : ¬ b.free ≥ bs.length := by
    have := b.fits
    rw [CstrBlock.free]
    omega
  simp only [cstrNcat, cstrExtend, hb, Option.bind_eq_bind, Option.bind_some, if_neg hfree,
    Option.bind_eq_some_iff, Prod.exists, Option.some.injEq, Prod.mk.injEq] at hr
  obtain ⟨heap₁, s₁, ⟨b', _, hre⟩, b₁, hget, b₂, _, heap₂, hset, rfl, rfl⟩ := hr
  have hstale : heap₁.get s = none := BlockHeap.realloc_moved_stale rfl hre
  obtain ⟨heap₃, hset', hg⟩ := BlockHeap.set_of_some (b := b₂) hget
  obtain rfl := Option.some.inj (hset.symm.trans hset')
  have hne : s ≠ s₁ := by
    rintro rfl
    rw [hstale] at hget
    cases hget
  rw [hg, Function.update_of_ne hne, hstale]

theorem cstrNcat_of_none (moves : Nat → Bool) {heap : CstrHeap} {s : Nat} (bs : Bytes)
    (h : heap.get s = none) : cstrNcat moves heap s bs = none := by
  simp [cstrNcat, cstrExtend, h]

/-- Both handles are live, apart from each other and of the initial length, and
the connection on byte strings is what they hold. -/
inductive Tracked (h : HConn) : Conn → Prop
  | intro {r w : Bytes} (rbuf : Holds h.heap h.io.rbuf r) (wbuf : Holds h.heap h.io.wbuf w)
      (distinct : h.io.rbuf ≠ h.io.wbuf) : Tracked h (h.withBufs r w)

theorem Tracked.load {h : HConn} {c : Conn} (ht : Tracked h c) : h.load = some c := by
  obtain ⟨⟨r, hr, _, rfl⟩, ⟨w, hw, _, rfl⟩, _⟩ := ht
  simp only [HConn.load, hr, hw, Option.bind_eq_bind, Option.bind_some]

theorem freshHConn_tracked (mask : EvMask) : Tracked (freshHConn mask) (freshConn mask) := by
  refine .intro (r := []) (w := []) ⟨CstrBlock.create bufCap, ?_, rfl, rfl⟩
    ⟨CstrBlock.create bufCap, ?_, rfl, rfl⟩ Nat.zero_ne_one
  · exact BlockHeap.alloc_get_of_some (BlockHeap.alloc_get_self _ _)
  · exact BlockHeap.alloc_get_self _ _

/-- New values of the fields beside the buffers. -/
theorem Tracked.put {h : HConn} {c c' : Conn} (ht : Tracked h c) (hr : c'.io.rbuf = c.io.rbuf)
    (hw : c'.io.wbuf = c.io.wbuf) : Tracked (h.put c') c' := by
  obtain ⟨hrb, hwb, hd⟩ := ht
  have heq : (h.put c').withBufs c'.io.rbuf c'.io.wbuf = c' := rfl
  rw [← heq]
  exact .intro (hr ▸ hrb) (hw ▸ hwb) hd

theorem Tracked.cioClear {h : HConn} {c : Conn} (ht : Tracked h c) :
    ∃ h', h.cioClear = some h' ∧ Tracked h' c.cioClear := by
  obtain ⟨hrb, hwb, hd⟩ := ht
  obtain ⟨heap₁, hst₁, hh₁, hf₁⟩ := cstrStore_holds [] hrb (Nat.zero_le _)
  obtain ⟨heap₂, hst₂, hh₂, hf₂⟩ :=
    cstrStore_holds [] (hwb.frame hf₁ hd.symm) (Nat.zero_le _)
  refine ⟨{ h with heap := heap₂, io := { rbuf := h.io.rbuf, wbuf := h.io.wbuf },
                   trace := h.trace ++ [.cioClear] }, ?_, ?_⟩
  · simp only [HConn.cioClear, hst₁, hst₂, Option.bind_eq_bind, Option.bind_some]
  · exact .intro (hh₁.frame hf₂ hd) hh₂ hd

theorem Tracked.mapEvt {h : HConn} {c : Conn} (ht : Tracked h c) (f : Cevent → Cevent) :
    Tracked { h with evt := f h.evt } { c with evt := f c.evt } := by
  obtain ⟨hrb, hwb, hd⟩ := ht
  exact .intro hrb hwb hd

/-- `_response` does not look at the request buffer. -/
theorem responseLoop_rbuf (w : Writes) (fuel k : Nat) (c : Conn) (x : Bytes) :
    Conn.responseLoop w fuel k { c with io := { c.io with rbuf := x } } =
      ({ (Conn.responseLoop w fuel k c).1 with
          io := { (Conn.responseLoop w fuel k c).1.io with rbuf := x } },
        (Conn.responseLoop w fuel k c).2) := by
  induction fuel generalizing k c with
  | zero => rfl
  | succ fuel ih =>
      unfold Conn.responseLoop
      simp only
      split
      · split
        · rfl
        · rfl
        · exact ih (k + 1) (c.writeSome _)
      · rfl

theorem responseLoop_bufs (w : Writes) (fuel k : Nat) (c : Conn) :
    (Conn.responseLoop w fuel k c).1.io.rbuf = c.io.rbuf ∧
      (Conn.responseLoop w fuel k c).1.io.wbuf = c.io.wbuf := by
  induction fuel generalizing k c with
  | zero => exact ⟨rfl, rfl⟩
  | succ fuel ih =>
      rw [Conn.responseLoop]
      split
      · split
        · exact ⟨rfl, rfl⟩
        · exact ⟨rfl, rfl⟩
        · exact ih (k + 1) (c.writeSome _)
      · exact ⟨rfl, rfl⟩

theorem Tracked.responseInner {h : HConn} {c : Conn} (ht : Tracked h c) (w : Writes) :
    ((h.withBufs [] c.io.wbuf).responseInner w).2 = (c.responseInner w).2 ∧
      Tracked (h.put ((h.withBufs [] c.io.wbuf).responseInner w).1) (c.responseInner w).1 := by
  obtain ⟨hr, hw⟩ := responseLoop_bufs w c.io.wcount 0 c
  have hput := ht.put hr hw
  have hinner := responseLoop_rbuf w c.io.wcount 0 c []
  obtain ⟨hrb, hwb, hd⟩ := ht
  have hrs := congrArg Prod.snd hinner
  have hconn := congrArg (fun p => h.put p.1) hinner
  exact ⟨hrs, hconn ▸ hput⟩

theorem Tracked.response {h : HConn} {c : Conn} (ht : Tracked h c) (w : Writes) :
    ∃ h', h.response w = some (h', (c.response w).2) ∧ Tracked h' (c.response w).1 := by
  obtain ⟨hrs, hin⟩ := ht.responseInner w
  have hmask : h.io.mask = c.io.mask := by
    obtain ⟨_, _, _⟩ := ht
    rfl
  have hwb : ∃ b, h.heap.get h.io.wbuf = some b ∧ b.data = c.io.wbuf := by
    obtain ⟨_, ⟨b, hb, _, rfl⟩, _⟩ := ht
    exact ⟨b, hb, rfl⟩
  obtain ⟨b, hb, hbd⟩ := hwb
  simp only [HConn.response, hb, Option.bind_eq_bind, Option.bind_some, hbd, hmask, hrs,
    Conn.response]
  generalize h.put ((h.withBufs [] c.io.wbuf).responseInner w).1 = h₁ at hin ⊢
  generalize c.responseInner w = p at hin ⊢
  obtain ⟨c₁, rs⟩ := p
  simp only at hin ⊢
  have hclose : h₁.io.closeAfterWrite = c₁.io.closeAfterWrite := by
    obtain ⟨_, _, _⟩ := hin
    rfl
  obtain ⟨h₂, hclear, h₂c⟩ := hin.cioClear
  simp only [hclear, Option.bind_some, hclose]
  split_ifs
  · exact ⟨_, rfl, hin.mapEvt (·.add cevWrite .writeEventProc)⟩
  · exact ⟨_, rfl,
      h₂c.mapEvt fun e => (e.add (cevWrite.or cevPersist) .cioCloseDestroy).del cevRead⟩
  · exact ⟨_, rfl,
      h₂c.mapEvt fun e => (e.add (cevWrite.or cevPersist) .cioCloseDestroy).del cevRead⟩
  · exact ⟨_, rfl, h₂c.mapEvt fun e => (e.add (cevRead.or cevPersist) .readEventProc).del cevWrite⟩
  · exact ⟨_, rfl, h₂c.mapEvt (·.add (cevRead.or cevPersist) .readEventProc)⟩

theorem Tracked.mask {h : HConn} {c : Conn} (ht : Tracked h c) : h.io.mask = c.io.mask := by
  obtain ⟨_, _, _⟩ := ht
  rfl

theorem Tracked.toReq {h : HConn} {c : Conn} (ht : Tracked h c) : h.io.toReq = c.io.toReq := by
  obtain ⟨_, _, _⟩ := ht
  rfl

theorem Tracked.replyInner {h : HConn} {c : Conn} (ht : Tracked h c) (w : Writes) :
    ∃ h', h.replyInner w = some (h', (c.replyInner w).2) ∧ Tracked h' (c.replyInner w).1 := by
  rw [HConn.replyInner, Conn.replyInner, ht.mask]
  split_ifs
  · exact ht.response w
  · exact ⟨_, rfl, ht.mapEvt (·.add cevWrite .writeEventProc)⟩

theorem Tracked.append (moves : Nat → Bool) {h : HConn} {c : Conn} (ht : Tracked h c) {bs : Bytes}
    (hfit : c.io.wbuf.length + bs.length ≤ bufCap) :
    ∃ h', h.append moves bs = some h' ∧ Tracked h' (c.append bs) := by
  obtain ⟨hrb, hwb, hd⟩ := ht
  obtain ⟨heap', hncat, hh, hf⟩ := cstrNcat_holds moves hwb hfit
  refine ⟨{ h with heap := heap', io := { h.io with wcount := h.io.wcount + bs.length } }, ?_, ?_⟩
  · simp only [HConn.append, hncat, Option.bind_eq_bind, Option.bind_some]
  · exact .intro (hrb.frame hf hd) hh hd

theorem Tracked.appends (moves : Nat → Bool) {h : HConn} {c : Conn} (ht : Tracked h c)
    {bss : List Bytes} (hfit : c.io.wbuf.length + bss.flatten.length ≤ bufCap) :
    ∃ h', bss.foldlM (HConn.append moves) h = some h' ∧
      Tracked h' (bss.foldl Conn.append c) := by
  induction bss generalizing h c with
  | nil => exact ⟨h, rfl, ht⟩
  | cons bs bss ih =>
      rw [List.flatten_cons, List.length_append] at hfit
      have hfit₁ : c.io.wbuf.length + bs.length ≤ bufCap := by omega
      obtain ⟨h₁, happ, h₁c⟩ := ht.append moves hfit₁
      have hlen : (c.append bs).io.wbuf.length = c.io.wbuf.length + bs.length := by
        simp [Conn.append]
      obtain ⟨h₂, hfold, h₂c⟩ := ih h₁c (by omega)
      exact ⟨h₂, by rw [List.foldlM_cons, happ]; exact hfold, h₂c⟩

theorem Tracked.reply (moves : Nat → Bool) {h : HConn} {c : Conn} (ht : Tracked h c)
    (r : ReplyCall) (w : Writes)
    (hfit : c.io.wbuf.length + r.appends.flatten.length ≤ bufCap) :
    ∃ h', h.reply moves r w = some (h', (c.reply r w).2) ∧ Tracked h' (c.reply r w).1 := by
  obtain ⟨h₁, hfold, h₁c⟩ := ht.appends moves hfit
  obtain ⟨h₂, hrep, h₂c⟩ := h₁c.replyInner w
  refine ⟨h₂, ?_, ?_⟩
  · simp only [HConn.reply, hfold, hrep, Option.bind_eq_bind, Option.bind_some, Conn.reply]
    cases r <;> rfl
  · unfold Conn.reply
    cases r <;> exact h₂c

theorem Tracked.receive (moves : Nat → Bool) {h : HConn} {c : Conn} (ht : Tracked h c)
    {buf : Bytes} (hfit : c.io.rbuf.length + buf.length ≤ bufCap) :
    ∃ h', h.receive moves buf = some h' ∧ Tracked h' (c.receive buf) := by
  obtain ⟨hrb, hwb, hd⟩ := ht
  obtain ⟨heap', hncat, hh, hf⟩ := cstrNcat_holds moves hrb hfit
  refine ⟨{ h with heap := heap' }, ?_, ?_⟩
  · simp only [HConn.receive, hncat, Option.bind_eq_bind, Option.bind_some]
  · exact .intro hh (hwb.frame hf hd.symm) hd

/-- The parser's results stored in the record and the buffer trimmed in place. -/
theorem Tracked.setParsed {h : HConn} {c : Conn} (ht : Tracked h c) (r : Req) {rbuf : Bytes}
    (hle : rbuf.length ≤ c.io.rbuf.length) :
    ∃ heap', cstrStore h.heap h.io.rbuf rbuf = some heap' ∧
      Tracked { h with heap := heap', io := { h.io with toReq := r } } (c.setParsed r rbuf) := by
  obtain ⟨hrb, hwb, hd⟩ := ht
  obtain ⟨heap', hst, hh, hf⟩ := cstrStore_holds _ hrb (hle.trans hrb.length_le)
  exact ⟨heap', hst, .intro hh (hwb.frame hf hd.symm) hd⟩

theorem Tracked.setProtocolError {h : HConn} {c : Conn} (ht : Tracked h c) :
    Tracked { h with io := { h.io with closeAfterWrite := true } } c.setProtocolError := by
  obtain ⟨hrb, hwb, hd⟩ := ht
  exact .intro hrb hwb hd

/-- The reply of a failed parse fits the reply buffer. -/
def Conn.ParseFits (c : Conn) : Prop :=
  match (parseCommand c.io.toReq c.io.rbuf).1 with
  | .protocolError msg => c.io.wbuf.length + (view msg).length ≤ bufCap
  | _ => True

theorem Tracked.tryProcessCommand (moves : Nat → Bool) {h : HConn} {c : Conn} (ht : Tracked h c)
    (w : Writes) (hfit : c.ParseFits) :
    ∃ h', h.tryProcessCommand moves w = some (h', (c.tryProcessCommand w).2) ∧
      Tracked h' (c.tryProcessCommand w).1 := by
  have hreq := ht.toReq
  have hrb : ∃ b, h.heap.get h.io.rbuf = some b ∧ b.data = c.io.rbuf := by
    obtain ⟨⟨b, hb, _, rfl⟩, _, _⟩ := ht
    exact ⟨b, hb, rfl⟩
  obtain ⟨b, hb, hbd⟩ := hrb
  rw [Conn.ParseFits] at hfit
  have hle := parseCommand_length_le c.io.toReq c.io.rbuf
  simp only [HConn.tryProcessCommand, hb, Option.bind_eq_bind, Option.bind_some, hbd, hreq,
    Conn.tryProcessCommand, Conn.endParse]
  generalize parseCommand c.io.toReq c.io.rbuf = p at hfit hle ⊢
  obtain ⟨v, r, rbuf⟩ := p
  obtain ⟨heap', hst, hset⟩ := ht.setParsed r hle
  simp only [hst, Option.bind_some]
  cases v with
  | protocolError msg =>
      obtain ⟨h', hrep, hc'⟩ := hset.setProtocolError.reply moves (.str msg) w
        (by simpa [ReplyCall.appends, Conn.setProtocolError, Conn.setParsed] using hfit)
      exact ⟨h', by simp only [hrep, Option.bind_some], hc'⟩
  | complete => exact ⟨_, rfl, hset⟩
  | needMore => exact ⟨_, rfl, hset⟩
  | noInput => exact ⟨_, rfl, hset⟩

theorem Tracked.readProcess (moves : Nat → Bool) {h : HConn} {c : Conn} (ht : Tracked h c)
    (input : ReadOutcome) (w : Writes) (hfit : c.OpFits (.readProcess input w)) :
    ∃ h', h.readProcess moves input w = some (h', (c.readProcess input w).2) ∧
      Tracked h' (c.readProcess input w).1 := by
  cases input with
  | eagain => exact ⟨h, rfl, ht⟩
  | error => exact ⟨h, rfl, ht⟩
  | data buf =>
      rw [HConn.readProcess, Conn.readProcess]
      by_cases hnil : buf.length = 0
      · simp only [if_pos hnil]
        exact ⟨h, rfl, ht⟩
      · obtain hbuf | ⟨hlen, hparse⟩ := hfit
        · exact absurd (List.length_eq_zero_iff.mpr hbuf) hnil
        obtain ⟨h₁, hrec, h₁c⟩ := ht.receive moves hlen
        obtain ⟨h₂, htry, h₂c⟩ := h₁c.tryProcessCommand moves w hparse
        simp only [if_neg hnil]
        exact ⟨h₂, by rw [hrec]; exact htry, h₂c⟩

/-- One operation whose appends fit. -/
theorem Tracked.bufStep (moves : Nat → Bool) {h : HConn} {c : Conn} (ht : Tracked h c) (op : BufOp)
    (hfit : c.OpFits op) :
    ∃ h', h.bufStep moves op = some h' ∧ Tracked h' (c.bufStep op) := by
  cases op with
  | readProcess input w =>
      obtain ⟨h', hstep, hc'⟩ := ht.readProcess moves input w hfit
      exact ⟨h', by rw [HConn.bufStep, hstep]; rfl, hc'⟩
  | reply r w =>
      obtain ⟨h', hstep, hc'⟩ := ht.reply moves r w hfit
      exact ⟨h', by rw [HConn.bufStep, hstep]; rfl, hc'⟩
  | response w =>
      obtain ⟨h', hstep, hc'⟩ := ht.response w
      exact ⟨h', by rw [HConn.bufStep, hstep]; rfl, hc'⟩
  | setMask mask =>
      obtain ⟨hrb, hwb, hd⟩ := ht
      exact ⟨_, rfl, .intro hrb hwb hd⟩
  | setArgv argv =>
      obtain ⟨hrb, hwb, hd⟩ := ht
      exact ⟨_, rfl, .intro hrb hwb hd⟩
  | setCloseAfterWrite => exact ⟨_, rfl, ht.setProtocolError⟩

theorem writeEventProc_bufSteps (c : Conn) (mask : EvMask) (w : Writes) :
    (c.writeEventProc mask w).1 = [.setMask mask, .response w].foldl Conn.bufStep c := rfl

theorem processCommond_bufSteps {c c' : Conn} {db : Backend} {w : Writes} {rs : Int}
    (h : c.processCommond db w = some (c', rs)) :
    ∃ ops : List BufOp, c' = ops.foldl Conn.bufStep c := by
  rw [Conn.processCommond] at h
  split at h
  · cases h
  · cases h
  · rename_i cap name args _
    split at h
    · cases h
      exact ⟨[.setCloseAfterWrite, .reply (.obj (.str sharedOk)) w], rfl⟩
    · simp only at h
      split at h
      · rename_i cmd _
        split at h
        · exact ⟨[.setArgv ⟨cap, cstrTolower name :: args⟩,
            .reply (.str (wrongArguments (cstrTolower name))) w],
            (congrArg Prod.fst (Option.some.inj h)).symm⟩
        · cases h
          exact ⟨[.setArgv ⟨cap, cstrTolower name :: args⟩,
            .reply (cmd.call.reply db (cstrTolower name :: args)) w], rfl⟩
      · exact ⟨[.setArgv ⟨cap, cstrTolower name :: args⟩,
          .reply (.str (unknownCommand (cstrTolower name))) w],
          (congrArg Prod.fst (Option.some.inj h)).symm⟩

/-- A handler's changes of the record are operations on it; the slot of the event
table is none of the buffers' business. -/
theorem readEventProc_bufSteps {c c' : Conn} {mask : EvMask} {input : ReadOutcome} {db : Backend}
    {w : Writes} {rs : Int} (h : c.readEventProc mask input db w = some (c', rs)) :
    ∃ ops : List BufOp, c'.io = (ops.foldl Conn.bufStep c).io := by
  rw [Conn.readEventProc] at h
  simp only at h
  split_ifs at h
  · cases h
    exact ⟨[.setMask mask, .readProcess input w], rfl⟩
  · cases h
    exact ⟨[.setMask mask, .readProcess input w], rfl⟩
  · cases h
    exact ⟨[.setMask mask, .readProcess input w], rfl⟩
  · obtain ⟨⟨c₁, rs₁⟩, hproc, heq⟩ := Option.map_eq_some_iff.mp h
    cases heq
    obtain ⟨ops, hops⟩ := processCommond_bufSteps hproc
    exact ⟨.setMask mask :: .readProcess input w :: .setMask mask :: ops, congrArg Conn.io hops⟩
  · cases h
    exact ⟨[.setMask mask, .readProcess input w], rfl⟩

def alwaysMoves : Nat → Bool := fun _ => true

def HConn.Stale (h : HConn) : Prop := h.load = none

theorem stale_of_wbuf {h : HConn} (hw : h.heap.get h.io.wbuf = none) : h.Stale := by
  simp [HConn.Stale, HConn.load, hw]

theorem HConn.append_cases {moves : Nat → Bool} {h h' : HConn} {bs : Bytes}
    (hstep : h.append moves bs = some h') :
    ∃ heap' s', cstrNcat moves h.heap h.io.wbuf bs = some (heap', s') ∧ h'.heap = heap' ∧
      h'.io.wbuf = h.io.wbuf := by
  simp only [HConn.append, Option.bind_eq_bind, Option.bind_eq_some_iff, Prod.exists,
    Option.some.injEq] at hstep
  obtain ⟨heap', s', hncat, rfl⟩ := hstep
  exact ⟨heap', s', hncat, rfl, rfl⟩

theorem HConn.appends_stale {moves : Nat → Bool} {h h' : HConn} {bss : List Bytes}
    (hw : h.heap.get h.io.wbuf = none) (hfold : bss.foldlM (HConn.append moves) h = some h') :
    h'.heap.get h'.io.wbuf = none := by
  cases bss with
  | nil =>
      cases hfold
      exact hw
  | cons bs bss =>
      rw [List.foldlM_cons, HConn.append, cstrNcat_of_none moves bs hw] at hfold
      cases hfold

theorem Tracked.appends_stale {h h' : HConn} {c : Conn} (ht : Tracked h c) {bss : List Bytes}
    (hover : bufCap < c.io.wbuf.length + bss.flatten.length)
    (hfold : bss.foldlM (HConn.append alwaysMoves) h = some h') :
    h'.heap.get h'.io.wbuf = none := by
  induction bss generalizing h c with
  | nil =>
      obtain ⟨_, hwb, _⟩ := ht
      have := hwb.length_le
      simp only [List.flatten_nil, List.length_nil] at hover
      exact absurd this (Nat.not_le.mpr hover)
  | cons bs bss ih =>
      rw [List.foldlM_cons] at hfold
      obtain ⟨h₁, happ, hrest⟩ := Option.bind_eq_some_iff.mp hfold
      rw [List.flatten_cons, List.length_append] at hover
      by_cases hfit : c.io.wbuf.length + bs.length ≤ bufCap
      · obtain ⟨h₂, happ', h₂c⟩ := ht.append alwaysMoves hfit
        obtain rfl := Option.some.inj (happ.symm.trans happ')
        refine ih h₂c ?_ hrest
        simp only [Conn.append, List.length_append]
        omega
      · obtain ⟨heap', s', hncat, rfl, hio⟩ := HConn.append_cases happ
        obtain ⟨_, hwb, _⟩ := ht
        refine HConn.appends_stale ?_ hrest
        rw [hio]
        exact cstrNcat_stale hwb (Nat.not_le.mp hfit) hncat

theorem HConn.replyInner_stale {h h' : HConn} {w : Writes} {rs : Int}
    (hw : h.heap.get h.io.wbuf = none) (hstep : h.replyInner w = some (h', rs)) : h'.Stale := by
  rw [HConn.replyInner] at hstep
  split_ifs at hstep
  · simp only [HConn.response, hw, Option.bind_eq_bind, Option.bind_none] at hstep
    cases hstep
  · cases hstep
    exact stale_of_wbuf hw

theorem Tracked.reply_stale {h h' : HConn} {c : Conn} (ht : Tracked h c) {r : ReplyCall}
    {w : Writes} {rs : Int} (hover : bufCap < c.io.wbuf.length + r.appends.flatten.length)
    (hstep : h.reply alwaysMoves r w = some (h', rs)) : h'.Stale := by
  simp only [HConn.reply, Option.bind_eq_bind, Option.bind_eq_some_iff] at hstep
  obtain ⟨h₁, hfold, ⟨h₂, rs₂⟩, hrep, heq⟩ := hstep
  have hstale := HConn.replyInner_stale (ht.appends_stale hover hfold) hrep
  have : h' = h₂ := by
    cases r <;> cases heq <;> rfl
  exact this ▸ hstale

theorem Tracked.tryProcessCommand_stale {h h' : HConn} {c : Conn} (ht : Tracked h c) {w : Writes}
    {rs : Int} (hover : ¬ c.ParseFits)
    (hstep : h.tryProcessCommand alwaysMoves w = some (h', rs)) : h'.Stale := by
  have hreq := ht.toReq
  have hrb : ∃ b, h.heap.get h.io.rbuf = some b ∧ b.data = c.io.rbuf := by
    obtain ⟨⟨b, hb, _, rfl⟩, _, _⟩ := ht
    exact ⟨b, hb, rfl⟩
  obtain ⟨b, hb, hbd⟩ := hrb
  rw [Conn.ParseFits] at hover
  have hle := parseCommand_length_le c.io.toReq c.io.rbuf
  simp only [HConn.tryProcessCommand, hb, Option.bind_eq_bind, Option.bind_some, hbd, hreq] at hstep
  generalize parseCommand c.io.toReq c.io.rbuf = p at hover hle hstep
  obtain ⟨v, r, rbuf⟩ := p
  obtain ⟨heap', hst, hset⟩ := ht.setParsed r hle
  simp only [hst, Option.bind_some] at hstep
  cases v with
  | protocolError msg =>
      obtain ⟨⟨h₁, rs₁⟩, hrep, heq⟩ := Option.bind_eq_some_iff.mp hstep
      cases heq
      refine hset.setProtocolError.reply_stale ?_ hrep
      simpa [ReplyCall.appends, Conn.setProtocolError, Conn.setParsed] using hover
  | complete => exact absurd trivial hover
  | needMore => exact absurd trivial hover
  | noInput => exact absurd trivial hover

/-- One operation with an append that does not fit either touches a block that is
gone or leaves a stale handle behind. -/
theorem Tracked.bufStep_stale {h h' : HConn} {c : Conn} (ht : Tracked h c) {op : BufOp}
    (hover : ¬ c.OpFits op) (hstep : h.bufStep alwaysMoves op = some h') : h'.Stale := by
  cases op with
  | readProcess input w =>
      obtain ⟨⟨h₁, rs⟩, hread, rfl⟩ := Option.map_eq_some_iff.mp hstep
      cases input with
      | eagain => exact absurd trivial hover
      | error => exact absurd trivial hover
      | data buf =>
          obtain ⟨hne, hnot⟩ := not_or.mp hover
          simp only [HConn.readProcess, if_neg (mt List.length_eq_zero_iff.mp hne)] at hread
          obtain ⟨h₂, hrec, htry⟩ := Option.bind_eq_some_iff.mp hread
          by_cases hlen : c.io.rbuf.length + buf.length ≤ bufCap
          · obtain ⟨h₃, hrec', h₃c⟩ := ht.receive alwaysMoves hlen
            obtain rfl := Option.some.inj (hrec.symm.trans hrec')
            exact h₃c.tryProcessCommand_stale (fun hfit => hnot ⟨hlen, hfit⟩) htry
          · simp only [HConn.receive, Option.bind_eq_bind, Option.bind_eq_some_iff, Prod.exists,
              Option.some.injEq] at hrec
            obtain ⟨heap', s', hncat, rfl⟩ := hrec
            obtain ⟨hrb, _, _⟩ := ht
            have hgone := cstrNcat_stale hrb (Nat.not_le.mp hlen) hncat
            simp only [HConn.tryProcessCommand, hgone, Option.bind_eq_bind,
              Option.bind_none] at htry
            cases htry
  | reply r w =>
      obtain ⟨⟨h₁, rs⟩, hrep, rfl⟩ := Option.map_eq_some_iff.mp hstep
      exact ht.reply_stale (Nat.not_le.mp hover) hrep
  | response w => exact absurd trivial hover
  | setMask mask => exact absurd trivial hover
  | setArgv argv => exact absurd trivial hover
  | setCloseAfterWrite => exact absurd trivial hover

theorem Tracked.live {moves : Nat → Bool} {h : HConn} {c : Conn} {ops : List BufOp}
    (ht : Tracked h c) (hfit : AllFit c ops) : Live moves h c ops := by
  induction ops generalizing h c with
  | nil => exact ht.load
  | cons op ops ih =>
      obtain ⟨h', hstep, hc'⟩ := ht.bufStep moves op hfit.1
      exact ⟨ht.load, h', hstep, ih hc' hfit.2⟩

theorem Live.load {moves : Nat → Bool} {h : HConn} {c : Conn} {ops : List BufOp}
    (hl : Live moves h c ops) : h.load = some c := by
  cases ops with
  | nil => exact hl
  | cons op ops => exact hl.1

theorem Tracked.allFit {h : HConn} {c : Conn} {ops : List BufOp} (ht : Tracked h c)
    (hl : Live alwaysMoves h c ops) : AllFit c ops := by
  induction ops generalizing h c with
  | nil => trivial
  | cons op ops ih =>
      obtain ⟨_, h', hstep, hrest⟩ := hl
      have hfit : c.OpFits op := by
        by_contra hover
        have hstale := ht.bufStep_stale hover hstep
        rw [HConn.Stale, hrest.load] at hstale
        cases hstale
      obtain ⟨h'', hstep', hc'⟩ := ht.bufStep alwaysMoves op hfit
      obtain rfl := Option.some.inj (hstep.symm.trans hstep')
      exact ⟨hfit, ih hc' hrest⟩

/-- Over all allocators the buffers of a connection stay live exactly as long as
no append outgrows the length they were created with. -/
theorem live_iff_allFit (mask : EvMask) (ops : List BufOp) :
    (∀ moves, Live moves (freshHConn mask) (freshConn mask) ops) ↔
      AllFit (freshConn mask) ops :=
  ⟨fun hl => (freshHConn_tracked mask).allFit (hl alwaysMoves),
    fun hfit _ => (freshHConn_tracked mask).live hfit⟩

/-- One read of 1025 bytes. -/
theorem live_fails_long_read :
    ¬ ∀ moves, Live moves (freshHConn cevRead) (freshConn cevRead)
      [.readProcess (.data (List.replicate 1025 97)) fun _ => .eagain] := by
  intro hl
  obtain ⟨hbuf | ⟨hlen, _⟩, _⟩ := (freshHConn_tracked cevRead).allFit (hl alwaysMoves)
  · simp at hbuf
  · rw [List.length_replicate] at hlen
    exact absurd hlen (by decide)

end ThrSocket
