import ThrSocket.Pipelining
import ThrSocket.Transcript

/-!
A client whose requests come one in a read. It and the server then take turns:
a request is read, a worker replies to it, and only when that reply is out is
the next read handled. All bytes that the client sends are answered, in order.
The buffers grow in place, as they do up to 1024 bytes.
-/

namespace ThrSocket
open CString Machine

namespace Sys

def heard (fd : Nat) : Label → Obs → Option Bytes
  | .half (.data bs) _ _, .handled g false => if g = fd ∧ bs ≠ [] then some bs else none
  | _, _ => none

def talkStep (fd : Nat) (s : Sys) (l : Label) : Option (Sys × Option Bytes × Option Bytes) :=
  (s.step l).map fun r => (r.1, heard fd l r.2, s.told fd l r.2)

end Sys

def OneRequest (fd : Nat) (s : Sys) : Label → Prop
  | .half (.data bs) _ _ =>
      bs ≠ [] → ∀ t ∈ s.todo.head?, t.key = (fd, false) → (s.conns fd).isSome = true →
        ∃ r, ValidRequest r ∧ bs = encodeRequest r
  | _ => True

/-- Request and reply in turn. The state is the request that waits for its reply. -/
inductive Dialogue :
    Option (List Bytes) → Label → Option Bytes × Option Bytes → Option (List Bytes) → Prop
  | quiet (b : Option (List Bytes)) (l : Label) : Dialogue b l (none, none) b
  | request {r : List Bytes} (l : Label) (valid : ValidRequest r) :
      Dialogue none l (some (encodeRequest r), none) (some r)
  | reply (r : List Bytes) (l : Label) (db : Backend) :
      Dialogue (some r) l (none, some (answer db r)) none

inductive Turn (fd : Nat) (s : Sys) : Option (List Bytes) → Prop
  | idle {c : Conn} (conns : s.conns fd = some c) (rbuf : c.io.rbuf = [])
      (req : c.io.toReq = {}) (pending : s.pending fd = 0) (quiet : c.evt.mask.write = false) :
      Turn fd s none
  | queued {c : Conn} {r : List Bytes} (conns : s.conns fd = some c)
      (argv : c.io.argv = some ⟨r.length, r⟩) (pending : s.pending fd = 1) : Turn fd s (some r)
  | replying {c : Conn} (conns : s.conns fd = some c) (pending : s.pending fd = 0)
      (reads : s.tasksOf fd false = 0) (read : c.evt.mask.read = false) : Turn fd s none
  | closed (conns : s.conns fd = none) (pending : s.pending fd = 0) : Turn fd s none

variable {s t : Sys} {fd : Nat} {b : Option (List Bytes)}

theorem Turn.frame (h : Turn fd s b) (conns : t.conns fd = s.conns fd)
    (reads : t.tasksOf fd false ≤ s.tasksOf fd false) (pending : t.pending fd = s.pending fd) :
    Turn fd t b := by
  cases h with
  | idle hc rbuf req hp quiet => exact .idle (conns.trans hc) rbuf req (pending.trans hp) quiet
  | queued hc argv hp => exact .queued (conns.trans hc) argv (pending.trans hp)
  | replying hc hp hr read => exact .replying (conns.trans hc) (pending.trans hp) (by omega) read
  | closed hc hp => exact .closed (conns.trans hc) (pending.trans hp)

/-- Only an idle connection has a read half to be handled. -/
theorem Turn.idle_of_read (h : Turn fd s b) (hi : SlotInv s fd) {task : Task}
    {todo : List Task} (htodo : s.todo = task :: todo) (hkey : task.key = (fd, false)) {c : Conn}
    (hc : s.conns fd = some c) :
    b = none ∧ c.io.rbuf = [] ∧ c.io.toReq = {} ∧ c.evt.mask.write = false := by
  obtain ⟨rfl, hread⟩ := Prod.mk.inj hkey
  have hfree := hi.free htodo
  cases h with
  | idle hc' rbuf req hp quiet =>
      obtain rfl := Option.some.inj (hc'.symm.trans hc)
      exact ⟨rfl, rbuf, req, quiet⟩
  | queued hc' argv hp => omega
  | replying hc' hp reads read =>
      rw [tasksOf_cons s task todo task.fd false htodo, hkey, if_pos rfl] at reads
      omega
  | closed hc' hp =>
      rw [hc] at hc'
      cases hc'

theorem Turn.undisturbed (h : Turn fd s b) (hi : SlotInv s fd) (l : Label) :
    Undisturbed fd s l := by
  unfold Undisturbed
  split
  · intro _ task htask hkey c hc hon
    obtain ⟨todo, htodo⟩ := List.head?_eq_some_iff.mp htask
    rw [(h.idle_of_read hi htodo hkey hc).2.2.2] at hon
    cases hon
  · trivial

/-- An idle connection takes a whole request. -/
theorem parse_idle {c : Conn} {r : List Bytes} (hv : ValidRequest r) (hrbuf : c.io.rbuf = [])
    (hreq : c.io.toReq = {}) :
    parseCommand c.io.toReq (c.io.rbuf ++ encodeRequest r) =
      (.complete, ⟨0, 0, .mbulk, some ⟨r.length, r⟩⟩, encodeRequest r) := by
  have hwhole := parseCommand_encodeRequest hv (r := {}) rfl rfl []
  rw [List.append_nil] at hwhole
  rw [hrbuf, hreq]
  exact hwhole

theorem turn_readHalf {c : Conn} {task : Task} {todo : List Task} {input : ReadOutcome}
    {db : Backend} {w : Writes} (hm : MaskInv s) (hi : SlotInv s task.fd)
    (htodo : s.todo = task :: todo) (hread : task.write = false) (hc : s.conns task.fd = some c)
    (h : Turn task.fd s b) (hone : OneRequest task.fd s (.half input db w))
    (hs : ({ s with todo := todo } : Sys).readHalf task c input db w = some t) :
    ∃ b', Dialogue b (.half input db w) (Sys.heard task.fd (.half input db w)
        (.handled task.fd false), s.told task.fd (.half input db w) (.handled task.fd false)) b' ∧
      Turn task.fd t b' := by
  have hkey : task.key = (task.fd, false) := by rw [Task.key, hread]
  obtain ⟨rfl, hrbuf, hreq, hquiet⟩ := h.idle_of_read hi htodo hkey hc
  have hfree := hi.free htodo
  have hmask := hm.todo task (by rw [htodo]; simp)
  have hreads : ({ s with todo := todo } : Sys).tasksOf task.fd false = 0 :=
    hread ▸ tasksOf_own htodo (hi.once task.write)
  obtain ⟨r, hr, hcase⟩ := Sys.readHalf_cases hs
  obtain ⟨q, hq, hend⟩ := readEventProc_end c hmask input db w
  obtain rfl : q = r := Option.some.inj (hq.symm.trans hr)
  have hsilent : (∀ bs, input = .data bs → bs = []) →
      (Sys.heard task.fd (.half input db w) (.handled task.fd false),
        s.told task.fd (.half input db w) (.handled task.fd false)) = (none, none) := by
    intro hno
    cases input with
    | data bs => simp [Sys.heard, Sys.told, hno bs rfl]
    | eagain => rfl
    | error => rfl
  cases hend with
  | waiting =>
      refine ⟨none, .quiet _ _, ?_⟩
      cases hcase with
      | inl hzero => cases hzero.1
      | inr hmore =>
          rw [hmore.2]
          exact .idle (Sys.setConn_self ..) hrbuf hreq hfree hquiet
  | @parsed bs q hbs parse verdict =>
      obtain ⟨r, hvalid, rfl⟩ := hone hbs task (by rw [htodo]; rfl) hkey (by rw [hc]; rfl)
      have hparse := parse_idle hvalid hrbuf hreq
      rw [hparse] at parse
      subst parse
      refine ⟨some r, ?_, ?_⟩
      · have hheard : Sys.heard task.fd (.half (.data (encodeRequest r)) db w)
            (.handled task.fd false) = some (encodeRequest r) := by
          simp [Sys.heard, hbs]
        have htold : s.told task.fd (.half (.data (encodeRequest r)) db w)
            (.handled task.fd false) = none := by
          simp [Sys.told, hc, refusal, hparse]
        rw [hheard, htold]
        exact .request _ hvalid
      · cases hcase with
        | inl hzero =>
            rw [hzero.2]
            refine .queued (Sys.setConn_self ..) rfl ?_
            change List.count task.fd (task.fd :: (s.queue ++ s.held).map Fired.fd) = 1
            rw [List.count_cons_self]
            exact congrArg (· + 1) hfree
        | inr hmore => exact absurd rfl hmore.1
  | @refused bs msg buf r' hbs parse =>
      obtain ⟨r, hvalid, rfl⟩ := hone hbs task (by rw [htodo]; rfl) hkey (by rw [hc]; rfl)
      rw [parse_idle hvalid hrbuf hreq] at parse
      cases parse
  | ended nodata flag =>
      rw [hsilent nodata]
      refine ⟨none, .quiet _ _, ?_⟩
      cases hcase with
      | inl hzero => cases hzero.1
      | inr hmore =>
          rw [hmore.2]
          exact .idle (Sys.setConn_self ..) hrbuf hreq hfree hquiet
  | closing nodata =>
      rw [hsilent nodata]
      refine ⟨none, .quiet _ _, ?_⟩
      cases hcase with
      | inl hzero => cases hzero.1
      | inr hmore =>
          rw [hmore.2, cioCloseDestroyInstall_eq]
          exact .replying (Sys.setConn_self ..) hfree hreads rfl

theorem turn_writeHalf {c : Conn} {task : Task} {todo : List Task} {w : Writes} (hm : MaskInv s)
    (hi : SlotInv s task.fd) (htodo : s.todo = task :: todo) (hwrite : task.write = true)
    (hc : s.conns task.fd = some c) (h : Turn task.fd s b)
    (hs : ({ s with todo := todo } : Sys).writeHalf task c w = some t) :
    b = none ∧ Turn task.fd t none := by
  have hfree := hi.free htodo
  have hmask := hm.todo task (by rw [htodo]; simp)
  have hon : c.evt.mask.write = true := by
    have hpos : 0 < s.tasksOf task.fd true := by
      rw [tasksOf_cons s task todo task.fd true htodo, Task.key, hwrite, if_pos rfl]
      omega
    obtain ⟨c', hc', hon⟩ := hi.armed hpos
    obtain rfl := Option.some.inj (hc'.symm.trans hc)
    exact hon
  cases h with
  | idle hc' rbuf req hp quiet =>
      obtain rfl := Option.some.inj (hc'.symm.trans hc)
      rw [hon] at quiet
      cases quiet
  | queued hc' argv hp => omega
  | closed hc' hp =>
      rw [hc] at hc'
      cases hc'
  | replying hc' hp reads read =>
      have hreads : ({ s with todo := todo } : Sys).tasksOf task.fd false = 0 :=
        Nat.le_zero.mp (reads ▸ tasksOf_half htodo task.fd false)
      refine ⟨rfl, ?_⟩
      cases Sys.writeHalf_cases hs with
      | inr hclose =>
          rw [hclose.2]
          exact .closed (Sys.setConn_self ..) hfree
      | inl hproc =>
          rw [hproc.2]
          obtain ⟨hio, hevt⟩ :=
            response_persist (c.setMask task.mask) w hmask (hi.conn c hc).fits
          cases hevt with
          | inl hclosing =>
              refine .replying (Sys.setConn_self ..) hfree hreads ?_
              rw [Conn.writeEventProc, ← Conn.setMask, hclosing, cioCloseDestroyInstall_eq]
          | inr hopen =>
              have hadd : ((c.setMask task.mask).installReadEvent).evt.mask.persist = true := by
                simp [Conn.installReadEvent, Conn.addEvent, Cevent.add, EvMask.or, cevPersist]
              refine .idle (Sys.setConn_self ..) (congrArg (·.rbuf) hio) (congrArg (·.toReq) hio)
                hfree ?_
              rw [Conn.writeEventProc, ← Conn.setMask, hopen, delEvent_persist hadd]
              simp [EvMask.without, cevWrite]

theorem turn_half {o : Obs} {input : ReadOutcome} {db : Backend} {w : Writes} (hm : MaskInv s)
    (hi : SlotInv s fd) (h : Turn fd s b) (hone : OneRequest fd s (.half input db w))
    (hs : s.half input db w = some (t, o)) :
    ∃ b', Dialogue b (.half input db w) (Sys.heard fd (.half input db w) o,
        s.told fd (.half input db w) o) b' ∧ Turn fd t b' := by
  have hother : ∀ o : Obs, o.about ≠ some fd →
      (Sys.heard fd (.half input db w) o, s.told fd (.half input db w) o) = (none, none) := by
    intro o ho
    cases input with
    | eagain => rfl
    | error => rfl
    | data bs =>
        cases o with
        | quiet => rfl
        | dispatched g argv => rfl
        | handled g write =>
            have hg : g ≠ fd := fun hg => ho (congrArg some hg)
            cases write with
            | false => simp [Sys.heard, Sys.told, hg]
            | true => rfl
  obtain ⟨task, todo, htodo, ⟨rfl, rfl, _⟩ | ⟨c, hc, rfl, hdir⟩⟩ := Sys.half_cases hs
  · rw [hother .quiet (by simp [Obs.about])]
    exact ⟨b, .quiet _ _, h.frame rfl (tasksOf_half htodo fd false) rfl⟩
  · by_cases hfd : task.fd = fd
    · subst hfd
      cases hdir with
      | inl hread =>
          rw [hread.1]
          exact turn_readHalf hm hi htodo hread.1 hc h hone hread.2
      | inr hwrite =>
          obtain ⟨rfl, hturn⟩ := turn_writeHalf hm hi htodo hwrite.1 hc h hwrite.2
          have hsilent : (Sys.heard task.fd (.half input db w) (.handled task.fd task.write),
              s.told task.fd (.half input db w) (.handled task.fd task.write)) =
                (none, none) := by
            rw [hwrite.1]
            cases input with
            | data bs => rfl
            | eagain => rfl
            | error => rfl
          rw [hsilent]
          exact ⟨none, .quiet _ _, hturn⟩
    · rw [hother (.handled task.fd task.write) fun heq => hfd (Option.some.inj heq)]
      have hframe : t.conns fd = s.conns fd ∧
          (∀ write, t.tasksOf fd write = ({ s with todo := todo } : Sys).tasksOf fd write) ∧
          t.pending fd = s.pending fd := by
        cases hdir with
        | inl hread => exact readHalf_frame (Ne.symm hfd) hread.2
        | inr hwrite => exact writeHalf_frame (Ne.symm hfd) hwrite.2
      obtain ⟨h1, h2, h3⟩ := hframe
      exact ⟨b, .quiet _ _, h.frame h1 (by rw [h2]; exact tasksOf_half htodo fd false) h3⟩

theorem turn_process {o : Obs} {k : Nat} {db : Backend} {w : Writes} (hm : MaskInv s)
    (hi : SlotInv s fd) (h : Turn fd s b) (hs : s.process k db w = some (t, o)) :
    ∃ b', Dialogue b (.process k db w) (none, s.told fd (.process k db w) o) b' ∧
      Turn fd t b' := by
  obtain ⟨f, c, r, hf, hc, hproc, rfl, rfl⟩ := Sys.process_cases hs
  have hcount := pending_process s hf fd
  by_cases hfd : f.fd = fd
  · subst hfd
    have hmem : f ∈ s.queue ++ s.held := List.mem_append_right _ (List.mem_of_getElem? hf)
    have hpos := pending_pos_of_mem hmem
    rw [if_pos rfl] at hcount
    cases h with
    | idle hc' rbuf req hp => omega
    | replying hc' hp => omega
    | closed hc' hp => omega
    | @queued c' args hc' argv hp =>
        obtain rfl := Option.some.inj (hc'.symm.trans hc)
        obtain ⟨c₀, hc₀, hready⟩ := hi.ready hpos
        obtain rfl := Option.some.inj (hc₀.symm.trans hc)
        obtain ⟨q, hq, hend⟩ := processCommond_end (c := c₀.setMask f.mask) (hm.fired f hmem)
          hready.args db w
        obtain rfl : q = r := Option.some.inj (hq.symm.trans hproc)
        have hpend : ({ s with held := s.held.eraseIdx k } : Sys).pending f.fd = 0 := by omega
        refine ⟨none, ?_, ?_⟩
        · rw [Sys.told, if_pos rfl, argv]
          exact .reply args _ db
        · refine .replying (Sys.setConn_self ..) hpend (hi.untouched hpos false) ?_
          obtain ⟨d, rs⟩ := q
          cases hend with
          | replied flag a bs =>
              simp [Cevent.add, EvMask.or, Conn.append, Conn.setArgv, Conn.setMask,
                hready.mask, cevPersist, cevWrite]
  · rw [if_neg hfd] at hcount
    rw [Sys.told, if_neg hfd]
    exact ⟨b, .quiet _ _,
      h.frame (Sys.setConn_of_ne _ (Ne.symm hfd) _) (Nat.le_refl _) hcount.symm⟩

structure Talks (fd : Nat) (s : Sys) (b : Option (List Bytes)) : Prop where
  masks : MaskInv s
  slot : SlotInv s fd
  turn : Turn fd s b

theorem talks_step {l : Label} {x : Option Bytes × Option Bytes} (h : Talks fd s b)
    (hone : OneRequest fd s l) (hs : s.talkStep fd l = some (t, x)) :
    ∃ b', Dialogue b l x b' ∧ Talks fd t b' := by
  obtain ⟨r, hr, heq⟩ := Option.map_eq_some_iff.mp hs
  obtain ⟨u, o⟩ := r
  cases heq
  have hm := maskInv_step h.masks hr
  have hi := slotInv_step h.masks h.slot (h.turn.undisturbed h.slot l) hr
  have hstep : ∃ b', Dialogue b l (Sys.heard fd l o, s.told fd l o) b' ∧ Turn fd u b' := by
    cases l with
    | accept g =>
        obtain ⟨hnone, rfl, rfl⟩ := Sys.accept_cases hr
        refine ⟨b, .quiet _ _, ?_⟩
        by_cases hg : fd = g
        · subst hg
          cases h.turn with
          | idle hc => rw [hnone] at hc; cases hc
          | queued hc => rw [hnone] at hc; cases hc
          | replying hc => rw [hnone] at hc; cases hc
          | closed hc hp => exact .idle (Sys.setConn_self ..) rfl rfl hp rfl
        · exact h.turn.frame (Sys.setConn_of_ne s hg _) (Nat.le_refl _) rfl
    | poll fired =>
        obtain ⟨_, hpoll, rfl, rfl⟩ := Sys.poll_cases hr
        refine ⟨b, .quiet _ _, ?_⟩
        cases h.turn with
        | idle hc rbuf req hp quiet => exact .idle hc rbuf req hp quiet
        | queued hc argv hp => exact .queued hc argv hp
        | closed hc hp => exact .closed hc hp
        | replying hc hp reads read =>
            refine .replying hc hp ?_ read
            by_contra hne
            obtain ⟨c', hc', harmed, _⟩ := armed_of_pollable hpoll (Nat.pos_of_ne_zero hne)
            obtain rfl := Option.some.inj (hc.symm.trans hc')
            rw [harmed rfl] at read
            cases read
    | half input db w => exact turn_half h.masks h.slot h.turn hone hr
    | pop =>
        obtain ⟨q, f, hq, rfl, rfl⟩ := Sys.pop_cases hr
        refine ⟨b, .quiet _ _, h.turn.frame rfl (Nat.le_refl _) ?_⟩
        simp only [Sys.pending, hq, List.map_append, List.count_append]
        omega
    | process k db w => exact turn_process h.masks h.slot h.turn hr
  obtain ⟨b', hdialogue, hturn⟩ := hstep
  exact ⟨b', hdialogue, hm, hi, hturn⟩

/-- What a dialogue comes to: the bytes read are requests, all replied to in order but for the
one that waits. -/
theorem dialogue_answers {ls : List Label} {xs : List (Option Bytes × Option Bytes)}
    {b b' : Option (List Bytes)} (h : SpecRun Dialogue b ls xs b')
    (hb : ∀ r ∈ b, ValidRequest r) :
    ∃ served : List (Backend × List Bytes),
      b.toList.flatMap encodeRequest ++ (xs.map Prod.fst).reduceOption.flatten =
        (served.map Prod.snd ++ b'.toList).flatMap encodeRequest ∧
      (∀ r ∈ served.map Prod.snd ++ b'.toList, ValidRequest r) ∧
      (xs.map Prod.snd).reduceOption = served.map fun p => answer p.1 p.2 := by
  induction h with
  | nil b => exact ⟨[], by simp [List.reduceOption], by simpa using hb, rfl⟩
  | cons first rest ih =>
      cases first with
      | quiet => exact ih hb
      | request l valid =>
          obtain ⟨served, hheard, hvalid, htold⟩ := ih (by simpa using valid)
          refine ⟨served, ?_, hvalid, htold⟩
          rw [← hheard]
          simp
      | reply r l db =>
          obtain ⟨served, hheard, hvalid, htold⟩ := ih (by simp)
          refine ⟨(db, r) :: served, ?_, ?_, ?_⟩
          · simp only [List.map_cons, List.cons_append, List.flatMap_cons, ← hheard]
            simp
          · intro q hq
            rw [List.map_cons, List.cons_append, List.mem_cons] at hq
            cases hq with
            | inl heq =>
                rw [heq]
                exact hb r rfl
            | inr hrest => exact hvalid q hrest
          · simp [htold]

/-- A client that sends one valid request per read is answered request by request, whatever the
other connections, the order of the steps, the outcomes of `write` and the back ends are: the
bytes read since the accept are the encodings of requests, the replies made are exactly the
answers to them, in order, with one request waiting if and only if the event of the connection
is with the workers; and where every `write` takes some bytes, these answers are what was sent
and what is left in the buffer. Before the accept no read on the descriptor may have completed a
request while CEV_WRITE was armed. -/
theorem requests_answered (fd : Nat) (before after : List Label) (s s₁ t : Sys) (os : List Obs)
    (o : Obs) (xs : List (Option Bytes × Option Bytes)) (c : Conn)
    (hbefore : run Sys.step {} before = some (s, os))
    (hclear : Along Sys.step (Undisturbed fd) {} before)
    (haccept : s.step (.accept fd) = some (s₁, o)) (honce : Label.accept fd ∉ after)
    (hone : Along Sys.step (OneRequest fd) s₁ after)
    (hafter : run (Sys.talkStep fd) s₁ after = some (t, xs)) (hc : t.conns fd = some c) :
    ∃ (served : List (Backend × List Bytes)) (waiting : Option (List Bytes)),
      (xs.map Prod.fst).reduceOption.flatten =
          (served.map Prod.snd ++ waiting.toList).flatMap encodeRequest ∧
        (∀ r ∈ served.map Prod.snd ++ waiting.toList, ValidRequest r) ∧
        (xs.map Prod.snd).reduceOption = served.map (fun p => answer p.1 p.2) ∧
        (waiting.isSome = true ↔ t.pending fd = 1) ∧
        ((∀ l ∈ after, l.Takes) →
          sentBytes c.trace ++ c.io.wbuf = (served.map fun p => answer p.1 p.2).flatten) := by
  have htalk : ∀ {s l t x}, Sys.talkStep fd s l = some (t, x) →
      s.step l = some (t, ((s.step l).map Prod.snd).getD .quiet) := by
    intro s l t x h
    obtain ⟨r, hr, heq⟩ := Option.map_eq_some_iff.mp h
    cases heq
    simp [hr]
  have hinv := invariant_run (fun s => MaskInv s ∧ SlotInv s fd)
    (fun hinv hg hs => ⟨maskInv_step hinv.1 hs, slotInv_step hinv.1 hinv.2 hg hs⟩)
    (inv_start fd) hclear hbefore
  obtain ⟨hnone, hs₁, _⟩ := Sys.accept_cases haccept
  have hstart : Talks fd s₁ none := by
    refine ⟨maskInv_step hinv.1 haccept,
      slotInv_step (l := .accept fd) hinv.1 hinv.2 trivial haccept, ?_⟩
    have hpend : s.pending fd = 0 := by
      by_contra hp
      obtain ⟨c', hc', _⟩ := hinv.2.ready (Nat.pos_of_ne_zero hp)
      rw [hnone] at hc'
      cases hc'
    rw [hs₁]
    exact .idle (Sys.setConn_self ..) rfl rfl hpend rfl
  have hguard : Along (Sys.talkStep fd) (OneRequest fd) s₁ after :=
    along_of_step (fun h => ⟨_, htalk h⟩) hone
  obtain ⟨waiting, hspec, hend⟩ := run_refines Dialogue (R := Talks fd) (G := OneRequest fd)
    (fun h hg hs => talks_step h hg hs) hstart hguard hafter
  obtain ⟨served, hheard, hvalid, htold⟩ := dialogue_answers hspec (by simp)
  refine ⟨served, waiting, hheard, hvalid, htold, ?_, ?_⟩
  · cases hend.turn with
    | idle _ _ _ hp => simp [hp]
    | queued _ _ hp => simp [hp]
    | replying _ hp => simp [hp]
    | closed _ hp => simp [hp]
  · intro htakes
    have htell : run (Sys.tellStep fd) s₁ after = some (t, xs.map Prod.snd) := by
      refine run_of_step Prod.snd ?_ hafter
      intro s l t x h
      obtain ⟨r, hr, heq⟩ := Option.map_eq_some_iff.mp h
      cases heq
      rw [Sys.tellStep, hr, Option.map_some]
    rw [← htold]
    exact (wire_run hbefore haccept honce htell hc fun _ : True => htakes).whole

def twoPings : List Label :=
  [.poll [⟨5, cevRead⟩], .half (.data (encodeRequest ping)) noBackend fun _ => .wrote 6, .pop,
    .process 0 noBackend fun _ => .wrote 6, .poll [⟨5, cevWrite⟩],
    .half .eagain noBackend fun _ => .wrote 6, .poll [⟨5, cevRead⟩],
    .half (.data (encodeRequest ping)) noBackend fun _ => .wrote 6]

theorem requests_answered_pings :
    ∃ (served : List (Backend × List Bytes)) (waiting : Option (List Bytes)),
      encodeRequest ping ++ encodeRequest ping =
          (served.map Prod.snd ++ waiting.toList).flatMap encodeRequest ∧
        (waiting.isSome = true ↔ 1 = 1) ∧
        ascii "+PONG\r\n" = (served.map fun p => answer p.1 p.2).flatten := by
  have hone : ∀ s, Along Sys.step (OneRequest 5) s twoPings := by
    intro s
    refine along_of_forall (L := fun l => ∀ bs db w, l = .half (.data bs) db w →
      bs = encodeRequest ping) ?_ (by simp [twoPings])
    intro s l hl
    unfold OneRequest
    split
    · rename_i bs db w
      exact fun _ _ _ _ _ => ⟨ping, validRequest_ping, hl bs db w rfl⟩
    · trivial
  have htakes : ∀ l ∈ twoPings, l.Takes := by
    simp [twoPings, Label.Takes, Writes.Takes]
  obtain ⟨served, waiting, hheard, _, _, hwaits, hwire⟩ :=
    requests_answered 5 [] twoPings {} _ _ [] _ _ _ rfl trivial rfl (by simp [twoPings])
      (hone _) rfl rfl
  exact ⟨served, waiting, hheard, hwaits, hwire htakes⟩

end ThrSocket
