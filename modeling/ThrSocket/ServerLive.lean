import ThrSocket.HandlerBlocks

/-!
When the buffers of the server stay live. While no append takes a buffer beyond the
length it was created with, the server on one heap and the server on byte strings do
the same, as every handler leaves the blocks of the other connections alone; with an
allocator that moves blocks they do not from the first longer append on.
-/

namespace ThrSocket
open Machine

/-- No block of the one slot is one of the other. -/
def HSlot.Apart (x y : HSlot) : Prop :=
  ∀ q, q = x.io.rbuf ∨ q = x.io.wbuf → q ≠ y.io.rbuf ∧ q ≠ y.io.wbuf

theorem HSlot.Apart.symm {x y : HSlot} (h : x.Apart y) : y.Apart x := by
  intro q hq
  refine ⟨fun hr => ?_, fun hw => ?_⟩
  · exact hq.elim (h q (.inl hr)).1 (h q (.inl hr)).2
  · exact hq.elim (h q (.inr hw)).1 (h q (.inr hw)).2

/-- The connections are those of the server on byte strings, each with two blocks of its own. -/
structure InBlocks (h : HeapSys) (s : Sys) : Prop where
  conns : ∀ fd, Option.Rel (fun x c => Tracked (h.conn x) c) (h.slots fd) (s.conns fd)
  apart : ∀ fd g x y, fd ≠ g → h.slots fd = some x → h.slots g = some y → x.Apart y
  todo : h.todo = s.todo
  queue : h.queue = s.queue
  held : h.held = s.held

theorem inBlocks_start : InBlocks {} {} :=
  ⟨fun _ => .none, fun _ _ _ _ _ hx => (by cases hx), rfl, rfl, rfl⟩

section

variable {h : HeapSys} {s : Sys} {fd : Nat}

theorem InBlocks.slot (hb : InBlocks h s) (fd : Nat) :
    h.slots fd = none ∧ s.conns fd = none ∨
      ∃ x c, h.slots fd = some x ∧ s.conns fd = some c ∧ Tracked (h.conn x) c :=
  rel_cases (hb.conns fd)

theorem InBlocks.slot_of_conn (hb : InBlocks h s) {c : Conn} (hc : s.conns fd = some c) :
    ∃ x, h.slots fd = some x ∧ Tracked (h.conn x) c := by
  cases hb.slot fd with
  | inl hnone => cases hc.symm.trans hnone.2
  | inr hsome =>
      obtain ⟨x, c', hx, hc', ht⟩ := hsome
      cases hc.symm.trans hc'
      exact ⟨x, hx, ht⟩

/-- One slot is changed, and the heap as far as the others are not concerned. -/
theorem InBlocks.update (hb : InBlocks h s) {heap : CstrHeap} {x : Option HSlot} {v : Option Conn}
    (hself : Option.Rel (fun x c => Tracked ({ h with heap := heap }.conn x) c) x v)
    (hothers : ∀ g y, g ≠ fd → h.slots g = some y →
      (∀ q b, q = y.io.rbuf ∨ q = y.io.wbuf → h.heap.get q = some b → heap.get q = some b) ∧
        ∀ z, x = some z → z.Apart y) :
    InBlocks { h with heap := heap, slots := Function.update h.slots fd x } (s.setConn fd v) := by
  refine ⟨fun g => ?_, ?_, hb.todo, hb.queue, hb.held⟩
  · by_cases hg : g = fd
    · rw [hg, Sys.setConn]
      simp only [Function.update_self]
      exact hself
    · simp only [Sys.setConn, Function.update_of_ne hg]
      cases hb.slot g with
      | inl hnone =>
          rw [hnone.1, hnone.2]
          exact .none
      | inr hsome =>
          obtain ⟨y, c, hy, hc, ht⟩ := hsome
          obtain ⟨hsame, -⟩ := hothers g y hg hy
          rw [hy, hc]
          exact .some (ht.frame (fun b => hsame _ b (.inl rfl)) fun b => hsame _ b (.inr rfl))
  · intro f g y z hne (hy : Function.update h.slots fd x f = some y)
      (hz : Function.update h.slots fd x g = some z)
    by_cases hf : f = fd
    · have hg : g ≠ fd := fun heq => hne (hf.trans heq.symm)
      rw [hf, Function.update_self] at hy
      rw [Function.update_of_ne hg] at hz
      exact (hothers g z hg hz).2 y hy
    · rw [Function.update_of_ne hf] at hy
      by_cases hg : g = fd
      · rw [hg, Function.update_self] at hz
        exact ((hothers f y hf hy).2 z hz).symm
      · rw [Function.update_of_ne hg] at hz
        exact hb.apart f g y z hne hy hz

/-- An operation on one connection. -/
theorem InBlocks.setConn (hb : InBlocks h s) {x : HSlot} (hx : h.slots fd = some x) {c : HConn}
    {v : Conn} (hkeeps : (h.conn x).Keeps c) (ht : Tracked c v) :
    InBlocks (h.setConn fd c) (s.setConn fd (some v)) := by
  refine hb.update (.some ht) fun g y hg hy => ⟨fun q b hq hqb => ?_, fun z hz => ?_⟩
  · have hap := hb.apart g fd y x hg hy hx q hq
    exact hkeeps.others q b hap.1 hap.2 hqb
  · cases hz
    intro q hq
    refine hb.apart fd g x y (Ne.symm hg) hx hy q ?_
    exact hq.imp (fun h => h.trans hkeeps.rbuf) fun h => h.trans hkeeps.wbuf

/-- `cio_destroy` on the way out of the table. -/
theorem InBlocks.closeConn (hb : InBlocks h s) {x : HSlot} (hx : h.slots fd = some x)
    {heap : CstrHeap}
    (hothers : ∀ q, q ≠ x.io.rbuf → q ≠ x.io.wbuf → heap.get q = h.heap.get q) :
    InBlocks (h.closeConn fd heap) (s.setConn fd none) := by
  refine hb.update .none fun g y hg hy => ⟨fun q b hq hqb => ?_, fun z hz => nomatch hz⟩
  have hap := hb.apart g fd y x hg hy hx q hq
  exact (hothers q hap.1 hap.2).trans hqb

theorem cioCreate_tracked (heap : CstrHeap) :
    Tracked (HConn.cioCreate heap).installReadEvent (freshConn cevNone) := by
  have hr : Holds (HConn.cioCreate heap).heap (HConn.cioCreate heap).io.rbuf [] :=
    ⟨CstrBlock.create bufCap, BlockHeap.alloc_get_of_some (BlockHeap.alloc_get_self _ _), rfl, rfl⟩
  have hw : Holds (HConn.cioCreate heap).heap (HConn.cioCreate heap).io.wbuf [] :=
    ⟨CstrBlock.create bufCap, BlockHeap.alloc_get_self _ _, rfl, rfl⟩
  exact .intro hr hw (Nat.ne_of_lt (Nat.lt_succ_self _))

theorem Tracked.lt_next {h : HConn} {c : Conn} (ht : Tracked h c) :
    h.io.rbuf < h.heap.next ∧ h.io.wbuf < h.heap.next := by
  obtain ⟨⟨r, hr, -⟩, ⟨w, hw, -⟩, -⟩ := ht
  exact ⟨BlockHeap.lt_next hr, BlockHeap.lt_next hw⟩

/-- A new connection has two blocks that are no one's yet. -/
theorem InBlocks.accept (hb : InBlocks h s) (fd : Nat) :
    InBlocks (h.setConn fd (HConn.cioCreate h.heap).installReadEvent)
      (s.setConn fd (some (freshConn cevNone))) := by
  refine hb.update (.some (cioCreate_tracked h.heap)) fun g y hg hy =>
    ⟨fun q b _ hqb => ?_, fun z hz => ?_⟩
  · exact BlockHeap.alloc_get_of_some (BlockHeap.alloc_get_of_some hqb)
  · cases hz
    cases hb.slot g with
    | inl hnone => cases hy.symm.trans hnone.1
    | inr hsome =>
        obtain ⟨y', c, hy', -, ht⟩ := hsome
        cases hy.symm.trans hy'
        obtain ⟨hr, hw⟩ := ht.lt_next
        have hnew : ∀ q, q = h.heap.next ∨ q = h.heap.next + 1 → h.heap.next ≤ q := by
          omega
        intro q hq
        have hle := hnew q hq
        exact ⟨fun heq => absurd (heq ▸ hr) (Nat.not_lt.mpr hle),
          fun heq => absurd (heq ▸ hw) (Nat.not_lt.mpr hle)⟩

/-- What a step appends does not take a buffer beyond the length it was created with: the bytes
that a read half reads and the reply to a protocol error, and the reply of `process_commond`. -/
def Sys.Fits (s : Sys) : Label → Prop
  | .half input _ w => ∀ t ∈ s.todo.head?, ∀ c ∈ s.conns t.fd, t.write = false →
      c.evt.mask.persist = true → c.evt.readProc = some .readEventProc →
      c.OpFits (.readProcess input w)
  | .process k db _ => ∀ f ∈ s.held[k]?, ∀ c ∈ s.conns f.fd, f.mask.persist = true →
      c.AnswerFits db
  | _ => True

theorem InBlocks.ceventsPushFired (hb : InBlocks h s) (f : Fired) :
    InBlocks (h.ceventsPushFired f) (s.ceventsPushFired f) :=
  ⟨hb.conns, hb.apart, hb.todo, congrArg (f :: ·) hb.queue, hb.held⟩

theorem InBlocks.readHalf (moves : Nat → Bool) (hb : InBlocks h s) {t : Task} {x : HSlot}
    {c : Conn} (hx : h.slots t.fd = some x) (ht : Tracked (h.conn x) c)
    (hp : t.mask.persist = true) (input : ReadOutcome) (db : Backend) (w : Writes)
    (hfit : c.evt.readProc = some .readEventProc → c.OpFits (.readProcess input w)) :
    Option.Rel InBlocks (h.readHalf moves t x input db w) (s.readHalf t c input db w) := by
  have hevt : x.evt = c.evt := ht.evt
  rw [HeapSys.readHalf, Sys.readHalf, hevt]
  cases hproc : c.evt.readProc with
  | none => exact .none
  | some proc =>
      cases proc with
      | tcpAcceptEventProc | writeEventProc | cioCloseDestroy => exact .none
      | readEventProc =>
          cases rel_cases (ht.readEventProc moves hp input db w (hfit hproc)) with
          | inl hnone =>
              dsimp only
              rw [hnone.1, hnone.2]
              exact .none
          | inr hsome =>
              obtain ⟨⟨c', rs⟩, ⟨v, rs'⟩, hread, hconn, ht', heq⟩ := hsome
              cases heq
              have hkeeps := HConn.readEventProc_keeps hread
              dsimp only
              rw [hread, hconn]
              dsimp only
              split_ifs
              · have hdel : (h.conn x).Keeps (c'.delEvent cevRead) :=
                  hkeeps.trans (.of_same rfl rfl rfl)
                have hset := hb.setConn hx hdel (ht'.mapEvt (·.del cevRead))
                exact .some (hset.ceventsPushFired ⟨t.fd, t.mask⟩)
              · exact .some (hb.setConn hx hkeeps ht')

theorem InBlocks.writeHalf (hb : InBlocks h s) {t : Task} {x : HSlot} {c : Conn}
    (hx : h.slots t.fd = some x) (ht : Tracked (h.conn x) c) (w : Writes) :
    Option.Rel InBlocks (h.writeHalf t x w) (s.writeHalf t c w) := by
  have hevt : x.evt = c.evt := ht.evt
  rw [HeapSys.writeHalf, Sys.writeHalf, hevt]
  cases hproc : c.evt.writeProc with
  | none => exact .none
  | some proc =>
      cases proc with
      | tcpAcceptEventProc | readEventProc => exact .none
      | writeEventProc =>
          obtain ⟨c', hwrite, ht'⟩ := ht.writeEventProc t.mask w
          dsimp only
          rw [hwrite, Option.map_some]
          exact .some (hb.setConn hx (HConn.writeEventProc_keeps hwrite) ht')
      | cioCloseDestroy =>
          obtain ⟨heap, hdestroy, hothers⟩ := ht.cioDestroy
          dsimp only
          rw [hdestroy, Option.map_some]
          exact .some (hb.closeConn hx hothers)

/-- A half whose appends fit. -/
theorem InBlocks.half (moves : Nat → Bool) (hb : InBlocks h s) (hm : MaskInv s)
    {input : ReadOutcome} {db : Backend} {w : Writes} (hfit : s.Fits (.half input db w)) :
    Option.Rel (SameOutput InBlocks) (h.half moves input db w) (s.half input db w) := by
  rw [HeapSys.half, Sys.half, hb.todo]
  cases htodo : s.todo with
  | nil => exact .none
  | cons t todo =>
      have hb' : InBlocks { h with todo := todo } { s with todo := todo } :=
        ⟨hb.conns, hb.apart, rfl, hb.queue, hb.held⟩
      dsimp only
      cases hb.slot t.fd with
      | inl hnone =>
          rw [hnone.1, hnone.2]
          exact .some ⟨hb', rfl⟩
      | inr hsome =>
          obtain ⟨x, c, hx, hc, ht⟩ := hsome
          have hevt : x.evt = c.evt := ht.evt
          rw [hx, hc]
          dsimp only
          rw [hevt]
          split_ifs with hnone hpersist hwrite
          · exact .some ⟨hb', rfl⟩
          · exact rel_map (hb'.writeHalf hx ht w) fun _ _ hh => ⟨hh, rfl⟩
          · have hp : t.mask.persist = true :=
              hm.todo t (htodo ▸ List.mem_cons_self)
            have hfits : c.evt.readProc = some .readEventProc →
                c.OpFits (.readProcess input w) := fun hproc =>
              hfit t (by rw [htodo]; rfl) c hc (by simpa using hwrite) hpersist hproc
            exact rel_map (hb'.readHalf moves hx ht hp input db w hfits) fun _ _ hh => ⟨hh, rfl⟩
          · exact .none

/-- A `process_commond` whose reply fits. -/
theorem InBlocks.process (moves : Nat → Bool) (hb : InBlocks h s) {k : Nat} {db : Backend}
    {w : Writes} (hfit : s.Fits (.process k db w)) :
    Option.Rel (SameOutput InBlocks) (h.process moves k db w) (s.process k db w) := by
  rw [HeapSys.process, Sys.process, hb.held]
  cases hheld : s.held[k]? with
  | none => exact .none
  | some f =>
      have hb' : InBlocks { h with held := s.held.eraseIdx k }
          { s with held := s.held.eraseIdx k } := ⟨hb.conns, hb.apart, hb.todo, hb.queue, rfl⟩
      dsimp only
      cases hb.slot f.fd with
      | inl hnone =>
          rw [hnone.1, hnone.2]
          exact .none
      | inr hsome =>
          obtain ⟨x, c, hx, hc, ht⟩ := hsome
          have hargv : x.io.argv = c.io.argv := congrArg Req.argv ht.toReq
          rw [hx, hc]
          dsimp only
          split_ifs with hp
          · have hrel := (ht.setMask f.mask).processCommond moves w (hfit f hheld c hc hp)
            have hsame : ({ h with held := s.held.eraseIdx k } : HeapSys).conn x = h.conn x := rfl
            rw [hsame]
            cases rel_cases hrel with
            | inl hnone =>
                rw [hnone.1, hnone.2]
                exact .none
            | inr hsome =>
                obtain ⟨⟨c', rs⟩, ⟨v, rs'⟩, hproc, hconn, ht', -⟩ := hsome
                have hkeeps : (h.conn x).Keeps c' :=
                  (HConn.processCommond_keeps hproc).behind rfl rfl rfl
                rw [hproc, hconn, hargv]
                exact .some ⟨hb'.setConn hx hkeeps ht', rfl⟩
          · exact .none

theorem InBlocks.pollable (hb : InBlocks h s) (fired : List Fired) :
    h.pollable fired = s.pollable fired := by
  refine congrArg (· && _) (List.all_congr rfl fun f => ?_)
  cases hb.slot f.fd with
  | inl hnone => rw [hnone.1, hnone.2]
  | inr hsome =>
      obtain ⟨x, c, hx, hc, ht⟩ := hsome
      have hevt : x.evt = c.evt := ht.evt
      simp only [hx, hc, hevt]

/-- Every step whose appends fit. -/
theorem InBlocks.step (moves : Nat → Bool) (hb : InBlocks h s) (hm : MaskInv s) {l : Label}
    (hfit : s.Fits l) : Option.Rel (SameOutput InBlocks) (h.step moves l) (s.step l) := by
  cases l with
  | half input db w => exact hb.half moves hm hfit
  | process k db w => exact hb.process moves hfit
  | accept fd =>
      rw [HeapSys.step, Sys.step, HeapSys.accept, Sys.accept]
      cases hb.slot fd with
      | inl hnone =>
          rw [hnone.1, hnone.2]
          exact .some ⟨hb.accept fd, rfl⟩
      | inr hsome =>
          obtain ⟨x, c, hx, hc, -⟩ := hsome
          rw [hx, hc]
          exact .none
  | poll fired =>
      rw [HeapSys.step, Sys.step, HeapSys.poll, Sys.poll, hb.todo, hb.pollable]
      split_ifs
      · exact .some ⟨⟨hb.conns, hb.apart, rfl, hb.queue, hb.held⟩, rfl⟩
      · exact .none
  | pop =>
      rw [HeapSys.step, Sys.step, HeapSys.pop, Sys.pop, hb.queue, hb.held]
      cases s.queue.getLast? with
      | none => exact .none
      | some f => exact .some ⟨⟨hb.conns, hb.apart, hb.todo, rfl, rfl⟩, rfl⟩

/-- A slot whose handles are stale is none of the server on byte strings. -/
theorem InBlocks.not_stale (hb : InBlocks h s) {x : HSlot} (hx : h.slots fd = some x)
    {c : HConn} (hheap : h.heap = c.heap) (hr : x.io.rbuf = c.io.rbuf)
    (hw : x.io.wbuf = c.io.wbuf) : ¬ c.Stale := by
  intro hstale
  have hstale' : (h.conn x).Stale := hstale.congr hheap hr hw
  cases hb.slot fd with
  | inl hnone => cases hx.symm.trans hnone.1
  | inr hsome =>
      obtain ⟨y, v, hy, -, ht⟩ := hsome
      cases hx.symm.trans hy
      cases hstale'.symm.trans ht.load

theorem Conn.readEventProc_persist (c : Conn) {mask : EvMask} (hp : mask.persist = true)
    (input : ReadOutcome) (db : Backend) (w : Writes) :
    ∃ r, c.readEventProc mask input db w = some r := by
  simp only [Conn.readEventProc, hp, Bool.not_true, Bool.false_and, Bool.false_eq_true, if_false]
  split_ifs
  · exact ⟨_, rfl⟩
  · exact ⟨_, rfl⟩
  · exact ⟨_, rfl⟩

/-- Where the read handler has run, its slot is as the handler has left it. -/
theorem HeapSys.readHalf_slot {moves : Nat → Bool} {t : Task} {x : HSlot} {input : ReadOutcome}
    {db : Backend} {w : Writes} {h' : HeapSys} (hproc : x.evt.readProc = some .readEventProc)
    (hstep : h.readHalf moves t x input db w = some h') :
    ∃ c rs y, (h.conn x).readEventProc moves t.mask input db w = some (c, rs) ∧
      h'.slots t.fd = some y ∧ h'.heap = c.heap ∧ y.io = c.io := by
  rw [HeapSys.readHalf, hproc] at hstep
  dsimp only at hstep
  cases hread : (h.conn x).readEventProc moves t.mask input db w with
  | none =>
      rw [hread] at hstep
      cases hstep
  | some p =>
      obtain ⟨c, rs⟩ := p
      rw [hread] at hstep
      dsimp only at hstep
      split_ifs at hstep
      · cases hstep
        exact ⟨c, rs, _, rfl, Function.update_self .., rfl, rfl⟩
      · cases hstep
        exact ⟨c, rs, _, rfl, Function.update_self .., rfl, rfl⟩

/-- A half that keeps together with an allocator that moves blocks has appends that fit. -/
theorem InBlocks.fits_half (hb : InBlocks h s) (hm : MaskInv s) {input : ReadOutcome}
    {db : Backend} {w : Writes}
    (hrel : Option.Rel (SameOutput InBlocks) (h.half alwaysMoves input db w)
      (s.half input db w)) : s.Fits (.half input db w) := by
  intro t hhead c (hc : s.conns t.fd = some c) hread hpersist hproc
  by_contra hover
  obtain ⟨todo, htodo⟩ := List.head?_eq_some_iff.mp hhead
  have hp : t.mask.persist = true := hm.todo t (htodo ▸ List.mem_cons_self)
  have hmask : c.evt.mask ≠ cevNone := by
    intro heq
    rw [heq] at hpersist
    cases hpersist
  obtain ⟨x, hx, ht⟩ := hb.slot_of_conn hc
  have hevt : x.evt = c.evt := ht.evt
  obtain ⟨r, hr⟩ := c.readEventProc_persist hp input db w
  have hdefined : ∃ s' o, s.half input db w = some (s', o) := by
    rw [Sys.half, htodo]
    simp only [hc, if_neg hmask, if_pos hpersist, hread, Bool.false_eq_true, if_false,
      Sys.readHalf, hproc, hr]
    split_ifs
    · exact ⟨_, _, rfl⟩
    · exact ⟨_, _, rfl⟩
  obtain ⟨s', o, hs⟩ := hdefined
  rw [hs] at hrel
  cases rel_cases hrel with
  | inl hnone => cases hnone.2
  | inr hsome =>
      obtain ⟨⟨h', o'⟩, _, hh, heq, hb', -⟩ := hsome
      cases heq
      rw [HeapSys.half, hb.todo, htodo] at hh
      simp only [hx, hevt, if_neg hmask, if_pos hpersist, hread, Bool.false_eq_true,
        if_false] at hh
      obtain ⟨h₁, hhalf, heq⟩ := Option.map_eq_some_iff.mp hh
      cases heq
      obtain ⟨c', rs, y, hproc', hy, hheap, hio⟩ :=
        HeapSys.readHalf_slot (hevt ▸ hproc) hhalf
      exact hb'.not_stale hy hheap (congrArg Cio.rbuf hio) (congrArg Cio.wbuf hio)
        (ht.readEventProc_stale hp hover hproc')

/-- The same for `process_commond`. -/
theorem InBlocks.fits_process (hb : InBlocks h s) {k : Nat} {db : Backend} {w : Writes}
    (hrel : Option.Rel (SameOutput InBlocks) (h.process alwaysMoves k db w)
      (s.process k db w)) : s.Fits (.process k db w) := by
  intro f (hheld : s.held[k]? = some f) c (hc : s.conns f.fd = some c) hp
  by_contra hover
  obtain ⟨x, hx, ht⟩ := hb.slot_of_conn hc
  have hheld' : h.held[k]? = some f := hb.held ▸ hheld
  rw [HeapSys.process, Sys.process, hheld', hheld] at hrel
  simp only [hx, hc, if_pos hp] at hrel
  have ht' := ht.setMask f.mask
  have hsame : ({ h with held := h.held.eraseIdx k } : HeapSys).conn x = h.conn x := rfl
  rw [hsame] at hrel
  cases ht'.processCommond_cases db w with
  | inl hnone => exact hover hnone.2.2
  | inr hreply =>
      obtain ⟨_, _, _, _, -, -, -, hbytes⟩ := hreply
      rw [hbytes] at hrel
      cases hblocks : ((h.conn x).setMask f.mask).processCommond alwaysMoves db w with
      | none =>
          rw [hblocks] at hrel
          cases hrel
      | some p =>
          obtain ⟨c', rs⟩ := p
          have hstale : c'.Stale := ht'.processCommond_stale hover hblocks
          rw [hblocks] at hrel
          have hb' := (rel_some_iff.mp hrel).1
          exact hb'.not_stale (Function.update_self ..) rfl rfl rfl hstale

theorem InBlocks.fits (hb : InBlocks h s) (hm : MaskInv s) {l : Label}
    (hrel : Option.Rel (SameOutput InBlocks) (h.step alwaysMoves l) (s.step l)) : s.Fits l := by
  cases l with
  | half input db w => exact hb.fits_half hm hrel
  | process k db w => exact hb.fits_process hrel
  | accept | poll | pop => trivial

end

/-- The server on one heap does what the server on byte strings does, whatever the allocator
moves and up to every point of the run, exactly if no step takes a buffer beyond the length
it was created with. -/
theorem server_live_iff (labels : List Label) :
    (∀ moves n, Lockstep InBlocks (HeapSys.step moves) Sys.step {} {} (labels.take n)) ↔
      Along Sys.step Sys.Fits {} labels := by
  have hmasks : MaskInv {} := (inv_start 0).1
  constructor
  · intro h
    refine along_of_lockstep (R := fun h s => InBlocks h s ∧ MaskInv s) ?_
      ⟨inBlocks_start, hmasks⟩ fun n => (h alwaysMoves n).and_invariant MaskInv maskInv_step hmasks
    intro h s l hR hrel
    exact hR.1.fits hR.2 (rel_mono hrel fun _ _ _ hsame => ⟨hsame.1.1, hsame.2⟩)
  · intro hfit moves n
    have hlock : Lockstep (fun h s => InBlocks h s ∧ MaskInv s) (HeapSys.step moves) Sys.step
        {} {} (labels.take n) := by
      refine lockstep_run ?_ ⟨inBlocks_start, hmasks⟩ (along_take hfit n)
      intro h s l hR hl
      refine rel_mono (hR.1.step moves hR.2 hl) fun _ _ hs hsame => ?_
      exact ⟨⟨hsame.1, maskInv_step hR.2 hs⟩, hsame.2⟩
    exact hlock.mono fun _ _ hR => hR.1

end ThrSocket
