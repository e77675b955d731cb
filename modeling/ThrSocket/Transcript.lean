import Mathlib.Data.List.ReduceOption
import ThrSocket.Ownership

/-!
What a client receives. Workers append replies to `io->wbuf`, the main loop
appends those to protocol errors, writes the buffer out and clears it. Whatever
the order of these steps, the bytes on the wire are the replies in the order in
which they were made, cut off where a `write` failed or would have blocked. The
buffers grow in place, as they do up to 1024 bytes.
-/

namespace ThrSocket
open CString Machine

def answer (db : Backend) : List Bytes → Bytes
  | [] => []
  | name :: args =>
      if cstrTolower (view name) = ascii "quit" then sharedOk
      else
        let lower := cstrTolower name
        match commands.find? fun cmd => cmd.name = lower with
        | some cmd =>
            if cmd.argsErr (args.length + 1) then view (wrongArguments lower)
            else (cmd.call.reply db (lower :: args)).appends.flatten
        | none => view (unknownCommand lower)

def refusal (r : Req) (buf : Bytes) : Option Bytes :=
  match (parseCommand r buf).1 with
  | .protocolError msg => some (view msg)
  | _ => none

namespace Sys

def told (fd : Nat) (s : Sys) : Label → Obs → Option Bytes
  | .half (.data bs) _ _, .handled g false =>
      if g = fd ∧ bs ≠ [] then
        (s.conns fd).bind fun c => refusal c.io.toReq (c.io.rbuf ++ bs)
      else none
  | .process _ db _, .dispatched g argv => if g = fd then some (answer db argv) else none
  | _, _ => none

def tellStep (fd : Nat) (s : Sys) (l : Label) : Option (Sys × Option Bytes) :=
  (s.step l).map fun r => (r.1, s.told fd l r.2)

end Sys

def Writes.Takes (w : Writes) : Prop := ∀ k, ∃ n, w k = .wrote n

def Label.Takes : Label → Prop
  | .half _ _ w => w.Takes
  | _ => True

/-- The replies so far in groups: of each batch that `response` has handled the wire has a piece,
up to where it was cut off, and the rest of the replies is in the buffer. -/
def Wire (whole : Prop) (told : List Bytes) (c : Conn) : Prop :=
  c.io.wcount = c.io.wbuf.length ∧
    ∃ (pieces : List Bytes) (batches : List (List Bytes)) (rest : List Bytes),
      List.Forall₂ (fun piece batch => piece <+: batch.flatten) pieces batches ∧
      batches.flatten ++ rest = told ∧ sentBytes c.trace = pieces.flatten ∧
      c.io.wbuf = rest.flatten ∧ (whole → pieces = batches.map List.flatten)

/-- `_response` sends a prefix of what is left, all of it if every `write` takes some. -/
theorem responseLoop_sent (w : Writes) (fuel k : Nat) (c : Conn) (hfuel : c.io.wcount ≤ fuel)
    (hfits : c.io.wcount ≤ c.io.wbuf.length) :
    ∃ p, p <+: c.io.wbuf.drop (c.io.wbuf.length - c.io.wcount) ∧
      sentBytes (Conn.responseLoop w fuel k c).1.trace = sentBytes c.trace ++ p ∧
      (w.Takes → p = c.io.wbuf.drop (c.io.wbuf.length - c.io.wcount)) := by
  induction fuel generalizing k c with
  | zero =>
      have hnone : c.io.wcount = 0 := Nat.le_zero.mp hfuel
      exact ⟨[], List.nil_prefix, by simp [Conn.responseLoop], fun _ => by simp [hnone]⟩
  | succ fuel ih =>
      rw [Conn.responseLoop]
      split
      next hpos =>
        cases hk : w k with
        | eagain =>
            refine ⟨[], List.nil_prefix, by simp, fun hw => ?_⟩
            obtain ⟨n, hn⟩ := hw k
            cases hk.symm.trans hn
        | error =>
            refine ⟨[], List.nil_prefix, by simp, fun hw => ?_⟩
            obtain ⟨n, hn⟩ := hw k
            cases hk.symm.trans hn
        | wrote n =>
            simp only
            have hcount : (c.writeSome (n + 1)).io.wcount = c.io.wcount - min (n + 1) c.io.wcount :=
              rfl
            obtain ⟨p, hp, hsent, hall⟩ := ih (k + 1) (c.writeSome (n + 1)) (by omega)
              (by rw [Conn.writeSome_wbuf]; omega)
            have hrest : (c.writeSome (n + 1)).io.wbuf.drop
                ((c.writeSome (n + 1)).io.wbuf.length - (c.writeSome (n + 1)).io.wcount) =
                (c.io.wbuf.drop (c.io.wbuf.length - c.io.wcount)).drop
                  (min (n + 1) c.io.wcount) := by
              rw [Conn.writeSome_wbuf, hcount, List.drop_drop]
              congr 1
              omega
            rw [hrest] at hp hall
            refine ⟨(c.io.wbuf.drop (c.io.wbuf.length - c.io.wcount)).take
              (min (n + 1) c.io.wcount) ++ p, ?_, ?_, fun hw => ?_⟩
            · obtain ⟨rest, heq⟩ := hp
              exact ⟨rest, by rw [List.append_assoc, heq, List.take_append_drop]⟩
            · rw [hsent]
              simp [Conn.writeSome, sentBytes]
            · rw [hall hw, List.take_append_drop]
      next hzero =>
        have hnone : c.io.wcount = 0 := by omega
        exact ⟨[], List.nil_prefix, by simp, fun _ => by simp [hnone]⟩

/-- What `response` puts on the wire from a full buffer, on a persistent connection. -/
theorem response_sent (c : Conn) (w : Writes) (hp : c.io.mask.persist = true)
    (hfull : c.io.wcount = c.io.wbuf.length) :
    ∃ p, p <+: c.io.wbuf ∧ sentBytes (c.response w).1.trace = sentBytes c.trace ++ p ∧
      (w.Takes → p = c.io.wbuf) := by
  obtain ⟨p, hprefix, hsent, hall⟩ :=
    responseLoop_sent w c.io.wcount 0 c (Nat.le_refl _) (Nat.le_of_eq hfull)
  have hstart : c.io.wbuf.length - c.io.wcount = 0 := by omega
  rw [hstart, List.drop_zero] at hprefix hall
  refine ⟨p, hprefix, ?_, hall⟩
  have hclear : (c.response w).1.trace = (c.responseInner w).1.trace ++ [.cioClear] := by
    rw [Conn.response]
    simp only [hp, Bool.not_true, Bool.false_and, Bool.false_eq_true, if_false, if_true]
    split
    · rfl
    · split
      · rfl
      · rfl
  rw [hclear, sentBytes_append, sentBytes_cioClear, List.append_nil]
  exact hsent

theorem wire_freshConn (whole : Prop) (mask : EvMask) : Wire whole [] (freshConn mask) :=
  ⟨rfl, [], [], [], .nil, rfl, rfl, rfl, fun _ => rfl⟩

/-- What neither writes nor replies leaves the buffer and the socket as they are. -/
theorem Wire.congr {whole : Prop} {told : List Bytes} {c d : Conn} (h : Wire whole told c)
    (hbuf : d.io.wbuf = c.io.wbuf) (hcount : d.io.wcount = c.io.wcount)
    (htrace : d.trace = c.trace) : Wire whole told d := by
  obtain ⟨hfull, pieces, batches, rest, hcut, htold, hsent, hrest, hwhole⟩ := h
  exact ⟨by rw [hcount, hbuf]; exact hfull, pieces, batches, rest, hcut, htold,
    by rw [htrace]; exact hsent, by rw [hbuf]; exact hrest, hwhole⟩

theorem Wire.append {whole : Prop} {told : List Bytes} {c : Conn} (h : Wire whole told c)
    (bs : Bytes) : Wire whole (told ++ [bs]) (c.append bs) := by
  obtain ⟨hfull, pieces, batches, rest, hcut, htold, hsent, hrest, hwhole⟩ := h
  refine ⟨?_, pieces, batches, rest ++ [bs], hcut, ?_, hsent, ?_, hwhole⟩
  · simp [Conn.append, hfull]
  · rw [← List.append_assoc, htold]
  · simp [Conn.append, hrest]

/-- The write handler ends the batch. -/
theorem Wire.response {whole : Prop} {told : List Bytes} {c : Conn} (h : Wire whole told c)
    (w : Writes) (hp : c.io.mask.persist = true) (hw : whole → w.Takes) :
    Wire whole told (c.response w).1 := by
  obtain ⟨hfull, pieces, batches, rest, hcut, htold, hsent, hrest, hwhole⟩ := h
  obtain ⟨p, hprefix, hmore, hall⟩ := response_sent c w hp hfull
  have hio := (response_persist c w hp (Nat.le_of_eq hfull)).1
  rw [hrest] at hprefix hall
  refine ⟨by rw [hio]; rfl, pieces ++ [p], batches ++ [rest], [], ?_, ?_, ?_, ?_, ?_⟩
  · exact List.rel_append hcut (.cons hprefix .nil)
  · simpa using htold
  · simp [hmore, hsent]
  · rw [hio]
    rfl
  · intro hyes
    rw [hwhole hyes, hall (hw hyes), List.map_append, List.map_singleton]

/-- Where nothing was cut off, the wire and the buffer hold the replies. -/
theorem Wire.whole {told : List Bytes} {c : Conn} (h : Wire True told c) :
    sentBytes c.trace ++ c.io.wbuf = told.flatten := by
  obtain ⟨_, pieces, batches, rest, _, htold, hsent, hrest, hwhole⟩ := h
  rw [hsent, hwhole trivial, hrest, ← htold, List.flatten_append, List.flatten_flatten]

/-- `process_commond` replies once, whatever is in `argv`, and arms CEV_WRITE. -/
theorem processCommond_answer {c : Conn} {db : Backend} {w : Writes} {r : Conn × Int}
    (hp : c.io.mask.persist = true) (h : c.processCommond db w = some r) :
    r.1.io.wbuf = c.io.wbuf ++ answer db ((c.io.argv.map Argv.objs).getD []) ∧
      r.1.io.wcount = c.io.wcount + (answer db ((c.io.argv.map Argv.objs).getD [])).length ∧
      r.1.trace = c.trace ∧ r.1.evt = c.evt.add cevWrite .writeEventProc := by
  have hreply : ∀ (d : Conn) (call : ReplyCall) (bs : Bytes), d.io.mask.persist = true →
      d.io.wbuf = c.io.wbuf → d.io.wcount = c.io.wcount → d.trace = c.trace → d.evt = c.evt →
      call.appends.flatten = bs →
      (d.reply call w).1.io.wbuf = c.io.wbuf ++ bs ∧
        (d.reply call w).1.io.wcount = c.io.wcount + bs.length ∧
        (d.reply call w).1.trace = c.trace ∧
        (d.reply call w).1.evt = c.evt.add cevWrite .writeEventProc := by
    intro d call bs hd hbuf hcount htrace hevt hbs
    rw [reply_persist d call w hd, hbs]
    exact ⟨congrArg (· ++ bs) hbuf, congrArg (· + bs.length) hcount, htrace,
      congrArg (·.add cevWrite .writeEventProc) hevt⟩
  rw [Conn.processCommond] at h
  split at h
  · cases h
  · cases h
  · rename_i cap name args hargv
    simp only [hargv, Option.map_some, Option.getD_some, answer]
    split at h
    · rename_i hquit
      cases h
      rw [if_pos hquit]
      exact hreply _ (.obj (.str sharedOk)) _ hp rfl rfl rfl rfl (by simp [ReplyCall.appends,
        replyObjBytes])
    · rename_i hname
      rw [if_neg hname]
      simp only at h
      cases hfind : commands.find? fun cmd => cmd.name = cstrTolower name with
      | none =>
          simp only [hfind] at h ⊢
          cases h
          exact hreply _ (.str _) _ hp rfl rfl rfl rfl (by simp [ReplyCall.appends])
      | some cmd =>
          simp only [hfind] at h ⊢
          split at h
          next herr =>
            cases h
            rw [if_pos herr]
            exact hreply _ (.str _) _ hp rfl rfl rfl rfl (by simp [ReplyCall.appends])
          next hok =>
            cases h
            rw [if_neg hok]
            exact hreply _ _ _ hp rfl rfl rfl rfl rfl

/-- The read handler appends the reply to what it refuses, and no other. -/
theorem ReadEnd.wire {whole : Prop} {told : List Bytes} {c : Conn} {mask : EvMask}
    {input : ReadOutcome} {r : Conn × Int} (hend : ReadEnd c mask input r)
    (h : Wire whole told c) (s : Sys) {fd : Nat} (hc : s.conns fd = some c) (db : Backend)
    (w : Writes) :
    Wire whole (told ++ (s.told fd (.half input db w) (.handled fd false)).toList) r.1 := by
  have hquiet : (∀ bs, input = .data bs → bs = []) →
      s.told fd (.half input db w) (.handled fd false) = none := by
    intro hno
    cases input with
    | eagain => rfl
    | error => rfl
    | data bs => simp [Sys.told, hno bs rfl]
  cases hend with
  | waiting => exact (List.append_nil told).symm ▸ h.congr rfl rfl rfl
  | @parsed bs q some parse verdict =>
      have hnone : s.told fd (.half (.data bs) db w) (.handled fd false) = none := by
        cases verdict with
        | inl hv => simp [Sys.told, hc, refusal, parse, hv]
        | inr hv => simp [Sys.told, hc, refusal, parse, hv]
      rw [hnone, Option.toList_none, List.append_nil]
      exact h.congr rfl rfl rfl
  | @refused bs msg buf r some parse =>
      have htold : s.told fd (.half (.data bs) db w) (.handled fd false) =
          Option.some (view msg) := by
        simp [Sys.told, hc, refusal, parse, some]
      rw [htold, Option.toList_some]
      exact (h.append (view msg)).congr rfl rfl rfl
  | ended nodata flag =>
      rw [hquiet nodata, Option.toList_none, List.append_nil]
      exact h.congr rfl rfl rfl
  | closing nodata =>
      rw [hquiet nodata, Option.toList_none, List.append_nil]
      exact h.congr rfl rfl rfl

/-- The connection of `fd`, if it is open, has the replies on the wire or in its buffer. -/
structure Heard (fd : Nat) (whole : Prop) (s : Sys) (told : List Bytes) : Prop where
  masks : MaskInv s
  wire : ∀ c, s.conns fd = some c → Wire whole told c

/-- No second connection gets the descriptor, and the `write`s are as they should be. -/
def Kept (fd : Nat) (whole : Prop) (l : Label) : Prop :=
  (match l with
    | .accept g => g ≠ fd
    | _ => True) ∧ (whole → l.Takes)

theorem process_heard {fd k : Nat} {whole : Prop} {s t : Sys} {o : Obs} {told : List Bytes}
    {db : Backend} {w : Writes} (h : Heard fd whole s told)
    (hs : s.process k db w = some (t, o)) :
    ∀ c, t.conns fd = some c →
      Wire whole (told ++ (s.told fd (.process k db w) o).toList) c := by
  obtain ⟨f, c, r, hf, hc, hproc, rfl, rfl⟩ := Sys.process_cases hs
  intro d hd
  by_cases hfd : f.fd = fd
  · subst hfd
    rw [Sys.setConn_self] at hd
    cases hd
    have hmem : f ∈ s.queue ++ s.held := List.mem_append_right _ (List.mem_of_getElem? hf)
    obtain ⟨hbuf, hcount, htrace, _⟩ := processCommond_answer (h.masks.fired f hmem) hproc
    rw [Sys.told, if_pos rfl, Option.toList_some]
    exact ((h.wire c hc).append _).congr hbuf hcount htrace
  · rw [Sys.setConn_of_ne _ (Ne.symm hfd)] at hd
    rw [Sys.told, if_neg hfd, Option.toList_none, List.append_nil]
    exact h.wire d hd

theorem half_heard {fd : Nat} {whole : Prop} {s t : Sys} {o : Obs} {told : List Bytes}
    {input : ReadOutcome} {db : Backend} {w : Writes} (h : Heard fd whole s told)
    (hw : whole → w.Takes) (hs : s.half input db w = some (t, o)) :
    ∀ c, t.conns fd = some c →
      Wire whole (told ++ (s.told fd (.half input db w) o).toList) c := by
  obtain ⟨task, todo, htodo, ⟨rfl, rfl, _⟩ | ⟨c, hc, rfl, hdir⟩⟩ := Sys.half_cases hs
  · have hnone : s.told fd (.half input db w) .quiet = none := by cases input <;> rfl
    rw [hnone, Option.toList_none, List.append_nil]
    exact h.wire
  · have hp : task.mask.persist = true := h.masks.todo task (by rw [htodo]; simp)
    intro d hd
    cases hdir with
    | inl hread =>
        obtain ⟨hfalse, hs⟩ := hread
        rw [hfalse]
        by_cases hfd : task.fd = fd
        · subst hfd
          obtain ⟨r, hr, hcase⟩ := Sys.readHalf_cases hs
          obtain ⟨q, hq, hend⟩ := readEventProc_end c hp input db w
          obtain rfl : q = r := Option.some.inj (hq.symm.trans hr)
          have hwire := hend.wire (h.wire c hc) s hc db w
          cases hcase with
          | inl hzero =>
              rw [hzero.2] at hd
              obtain rfl : q.1.delEvent cevRead = d :=
                Option.some.inj ((Sys.setConn_self ..).symm.trans hd)
              exact hwire.congr rfl rfl rfl
          | inr hmore =>
              rw [hmore.2, Sys.setConn_self] at hd
              cases hd
              exact hwire
        · have hnone : s.told fd (.half input db w) (.handled task.fd false) = none := by
            cases input with
            | data bs => simp [Sys.told, hfd]
            | eagain => rfl
            | error => rfl
          rw [hnone, Option.toList_none, List.append_nil]
          rw [(readHalf_frame (Ne.symm hfd) hs).1] at hd
          exact h.wire d hd
    | inr hwrite =>
        obtain ⟨htrue, hs⟩ := hwrite
        have hnone : s.told fd (.half input db w) (.handled task.fd task.write) = none := by
          rw [htrue]
          cases input <;> rfl
        rw [hnone, Option.toList_none, List.append_nil]
        by_cases hfd : task.fd = fd
        · subst hfd
          cases Sys.writeHalf_cases hs with
          | inl hproc =>
              rw [hproc.2, Sys.setConn_self] at hd
              cases hd
              exact ((h.wire c hc).congr (d := c.setMask task.mask) rfl rfl rfl).response w hp hw
          | inr hclose =>
              rw [hclose.2, Sys.setConn_self] at hd
              cases hd
        · rw [(writeHalf_frame (Ne.symm hfd) hs).1] at hd
          exact h.wire d hd

theorem tellStep_heard {fd : Nat} {whole : Prop} {s t : Sys} {l : Label} {o : Option Bytes}
    {told : List Bytes} (h : Heard fd whole s told) (hl : Kept fd whole l)
    (hs : s.tellStep fd l = some (t, o)) : Heard fd whole t (told ++ o.toList) := by
  obtain ⟨r, hr, heq⟩ := Option.map_eq_some_iff.mp hs
  obtain ⟨u, obs⟩ := r
  cases heq
  refine ⟨maskInv_step h.masks hr, ?_⟩
  cases l with
  | accept g =>
      obtain ⟨_, rfl, _⟩ := Sys.accept_cases hr
      intro c hc
      rw [Sys.setConn_of_ne s (Ne.symm hl.1)] at hc
      rw [show s.told fd (.accept g) obs = none from rfl, Option.toList_none, List.append_nil]
      exact h.wire c hc
  | poll fired =>
      obtain ⟨_, _, rfl, _⟩ := Sys.poll_cases hr
      rw [show s.told fd (.poll fired) obs = none from rfl, Option.toList_none, List.append_nil]
      exact h.wire
  | half input db w => exact half_heard h hl.2 hr
  | pop =>
      obtain ⟨q, f, _, rfl, _⟩ := Sys.pop_cases hr
      rw [show s.told fd .pop obs = none from rfl, Option.toList_none, List.append_nil]
      exact h.wire
  | process k db w => exact process_heard h hr

theorem foldl_told (os : List (Option Bytes)) (told : List Bytes) :
    os.foldl (fun told o => told ++ o.toList) told = told ++ os.reduceOption := by
  induction os generalizing told with
  | nil => simp
  | cons o os ih =>
      rw [List.foldl_cons, ih]
      cases o with
      | none => simp
      | some bs => simp

/-- From the accept on, the replies of a run are on the wire and in the buffer. -/
theorem wire_run {fd : Nat} {before after : List Label} {s s₁ t : Sys} {os : List Obs} {o : Obs}
    {told : List (Option Bytes)} {c : Conn} (hbefore : run Sys.step {} before = some (s, os))
    (haccept : s.step (.accept fd) = some (s₁, o)) (honce : Label.accept fd ∉ after)
    (hafter : run (Sys.tellStep fd) s₁ after = some (t, told)) (hc : t.conns fd = some c)
    {whole : Prop} (htakes : whole → ∀ l ∈ after, l.Takes) : Wire whole told.reduceOption c := by
  have hmasks : MaskInv s :=
    invariant_run MaskInv (fun h _ hs => maskInv_step h hs) (inv_start fd).1
      (along_of_forall (L := fun _ => True) (P := fun _ _ => True) (fun _ _ _ => trivial)
        fun _ _ => trivial) hbefore
  have hstart : Heard fd whole s₁ [] := by
    refine ⟨maskInv_step hmasks haccept, fun d hd => ?_⟩
    obtain ⟨_, rfl, _⟩ := Sys.accept_cases haccept
    rw [Sys.setConn_self] at hd
    cases hd
    exact wire_freshConn whole cevNone
  have hkept : ∀ l ∈ after, Kept fd whole l := by
    intro l hl
    refine ⟨?_, fun hwhole => htakes hwhole l hl⟩
    cases l with
    | accept g => exact fun heq => honce (heq ▸ hl)
    | _ => trivial
  have hend := run_tracks (R := Heard fd whole) (G := fun _ l => Kept fd whole l)
    (fun told o => told ++ o.toList) (fun h hl hs => tellStep_heard h hl hs) hstart
    (along_of_forall (fun _ _ hl => hl) hkept) hafter
  rw [foldl_told, List.nil_append] at hend
  exact hend.wire c hc

/-- From its accept on, in every order of the steps of the main loop and the workers and for
any data, `write` outcomes and back ends: the client gets the replies in the order in which they
were made, in batches of whole replies of which each is sent up to where its `write` gave up;
the replies behind the last batch are in the buffer. Nothing is lost if every `write` takes some
bytes. -/
theorem replies_in_order (fd : Nat) (before after : List Label) (s s₁ t : Sys) (os : List Obs)
    (o : Obs) (told : List (Option Bytes)) (c : Conn)
    (hbefore : run Sys.step {} before = some (s, os))
    (haccept : s.step (.accept fd) = some (s₁, o))
    (honce : Label.accept fd ∉ after)
    (hafter : run (Sys.tellStep fd) s₁ after = some (t, told)) (hc : t.conns fd = some c) :
    (∃ (pieces : List Bytes) (batches : List (List Bytes)) (rest : List Bytes),
      List.Forall₂ (fun piece batch => piece <+: batch.flatten) pieces batches ∧
      batches.flatten ++ rest = told.reduceOption ∧ sentBytes c.trace = pieces.flatten ∧
      c.io.wbuf = rest.flatten) ∧
      ((∀ l ∈ after, l.Takes) →
        sentBytes c.trace ++ c.io.wbuf = told.reduceOption.flatten) := by
  constructor
  · obtain ⟨_, pieces, batches, rest, hcut, htold, hsent, hrest, _⟩ :=
      wire_run hbefore haccept honce hafter hc fun h : False => h.elim
    exact ⟨pieces, batches, rest, hcut, htold, hsent, hrest⟩
  · intro htakes
    exact (wire_run hbefore haccept honce hafter hc fun _ : True => htakes).whole

/-- The reply to a `PING`, of which the socket takes three bytes. -/
theorem replies_in_order_cut :
    ∃ (pieces : List Bytes) (batches : List (List Bytes)) (rest : List Bytes),
      List.Forall₂ (fun piece batch => piece <+: batch.flatten) pieces batches ∧
      batches.flatten ++ rest = [ascii "+PONG\r\n"] ∧ ascii "+PO" = pieces.flatten ∧
      [] = rest.flatten :=
  (replies_in_order 5 []
    [.poll [⟨5, cevRead⟩], .half (.data (ascii "*1\r\n$4\r\nPING\r\n")) noBackend
      fun _ => .eagain, .pop, .process 0 noBackend fun _ => .eagain, .poll [⟨5, cevWrite⟩],
      .half .eagain noBackend fun k => if k = 0 then .wrote 2 else .eagain]
    {} _ _ [] _ _ _ rfl rfl (by simp) rfl rfl).1

end ThrSocket
