import ThrSocket.Ownership

/-!
Several requests in one read. The parser takes the first and leaves the bytes
behind it in the buffer, and `response` clears that buffer when the reply is
out. Whatever the other connections do meanwhile, only the first request of the
read is ever dispatched. A read of more than 1024 bytes is taken to extend the
buffer in place.
-/

namespace ThrSocket
open CString Machine

/-- The requests of a connection that workers have been given, in order. -/
def dispatches (fd : Nat) (os : List Obs) : List (List Bytes) :=
  os.filterMap fun
    | .dispatched g argv => if g = fd then some argv else none
    | _ => none

/-- A read of the connection brings no byte. -/
def Silent (fd : Nat) (s : Sys) : Label → Prop
  | .half (.data bs) _ _ => ∀ t ∈ s.todo.head?, t.key = (fd, false) → bs = []
  | _ => True

instance (fd : Nat) (s : Sys) : (l : Label) → Decidable (Silent fd s l)
  | .half (.data _) _ _ => inferInstanceAs (Decidable (∀ t ∈ s.todo.head?, _))
  | .half .eagain _ _ | .half .error _ _ | .accept _ | .poll _ | .pop | .process _ _ _ =>
      inferInstanceAs (Decidable True)

theorem Silent.undisturbed {fd : Nat} {s : Sys} {l : Label} (h : Silent fd s l) :
    Undisturbed fd s l := by
  unfold Undisturbed
  split
  · rename_i bs db w
    intro hbs t ht hkey
    exact absurd (h t ht hkey) hbs
  · trivial

inductive Served (fd : Nat) (first : List Bytes) (bytes : Bytes) (s : Sys) :
    List (List Bytes) → Prop
  | queued {c : Conn} (conns : s.conns fd = some c) (rbuf : c.io.rbuf = bytes)
      (argv : c.io.argv = some ⟨first.length, first⟩) (pending : s.pending fd = 1) :
      Served fd first bytes s []
  | replying {c : Conn} (conns : s.conns fd = some c) (rbuf : c.io.rbuf = bytes)
      (pending : s.pending fd = 0) (reads : s.tasksOf fd false = 0)
      (read : c.evt.mask.read = false) (write : c.evt.mask.write = true)
      (proc : c.evt.writeProc = some .writeEventProc) : Served fd first bytes s [first]
  | answered {c : Conn} (conns : s.conns fd = some c) (rbuf : c.io.rbuf = [])
      (req : c.io.toReq = {}) (pending : s.pending fd = 0) : Served fd first bytes s [first]
  | closed (conns : s.conns fd = none) (pending : s.pending fd = 0) :
      Served fd first bytes s [first]

theorem Served.frame {s s' : Sys} {fd : Nat} {first : List Bytes} {bytes : Bytes}
    {log : List (List Bytes)} (h : Served fd first bytes s log)
    (conns : s'.conns fd = s.conns fd) (reads : s'.tasksOf fd false ≤ s.tasksOf fd false)
    (pending : s'.pending fd = s.pending fd) : Served fd first bytes s' log := by
  cases h with
  | queued hc rbuf argv hp => exact .queued (conns.trans hc) rbuf argv (pending.trans hp)
  | replying hc rbuf hp hr read write proc =>
      exact .replying (conns.trans hc) rbuf (pending.trans hp) (by omega) read write proc
  | answered hc rbuf req hp => exact .answered (conns.trans hc) rbuf req (pending.trans hp)
  | closed hc hp => exact .closed (conns.trans hc) (pending.trans hp)

/-- Without input the read handler leaves buffer and fields as they are. -/
theorem ReadEnd.silent {c : Conn} {mask : EvMask} {input : ReadOutcome} {r : Conn × Int}
    (h : ReadEnd c mask input r) (hin : ∀ bs, input = .data bs → bs = []) :
    r.2 ≠ 0 ∧ r.1.io.rbuf = c.io.rbuf ∧ r.1.io.toReq = c.io.toReq := by
  cases h with
  | waiting => exact ⟨by simp, rfl, rfl⟩
  | parsed some parse verdict => exact absurd (hin _ rfl) some
  | refused some parse => exact absurd (hin _ rfl) some
  | ended nodata flag => exact ⟨by simp, rfl, rfl⟩
  | closing nodata =>
      rw [cioCloseDestroyInstall_eq]
      exact ⟨by simp, rfl, rfl⟩

/-- A read event that finds nothing new leaves the connection as it is served. -/
theorem served_readHalf {s s' : Sys} {c : Conn} {t : Task} {todo : List Task}
    {first : List Bytes} {bytes : Bytes} {log : List (List Bytes)} {input : ReadOutcome}
    {db : Backend} {w : Writes} (hmask : t.mask.persist = true) (htodo : s.todo = t :: todo)
    (hc : s.conns t.fd = some c) (hread : t.write = false) (hfree : s.pending t.fd = 0)
    (hsil : Silent t.fd s (.half input db w)) (h : Served t.fd first bytes s log)
    (hs : Sys.readHalf { s with todo := todo } t c input db w = some s') :
    Served t.fd first bytes s' log := by
  have hin : ∀ bs, input = .data bs → bs = [] := by
    rintro bs rfl
    exact hsil t (by rw [htodo]; rfl) (by rw [Task.key, hread])
  obtain ⟨r, hr, hcase⟩ := Sys.readHalf_cases hs
  obtain ⟨r', hr', hend⟩ := readEventProc_end c hmask input db w
  obtain rfl : r' = r := Option.some.inj (hr'.symm.trans hr)
  obtain ⟨hne, hrbuf, hreq⟩ := hend.silent hin
  obtain ⟨hrs, _⟩ | ⟨_, rfl⟩ := hcase
  · exact absurd hrs hne
  · cases h with
    | queued hc' rbuf argv hp => omega
    | replying hc' rbuf hp reads =>
        rw [tasksOf_cons s t todo t.fd false htodo, Task.key, hread, if_pos rfl] at reads
        omega
    | answered hc' rbuf req hp =>
        obtain rfl := Option.some.inj (hc'.symm.trans hc)
        exact .answered (Sys.setConn_self ..) (hrbuf.trans rbuf) (hreq.trans req) hfree
    | closed hc' hp =>
        rw [hc] at hc'
        cases hc'

/-- A write event ends a reply, or closes the connection. -/
theorem served_writeHalf {s s' : Sys} {c : Conn} {t : Task} {todo : List Task}
    {first : List Bytes} {bytes : Bytes} {log : List (List Bytes)} {w : Writes}
    (hmask : t.mask.persist = true) (hfits : c.Fits) (hfree : s.pending t.fd = 0)
    (h : Served t.fd first bytes s log)
    (hs : Sys.writeHalf { s with todo := todo } t c w = some s') :
    Served t.fd first bytes s' log := by
  rcases Sys.writeHalf_cases hs with ⟨_, rfl⟩ | ⟨hproc, rfl⟩
  · obtain ⟨hio, _⟩ := response_persist (c.setMask t.mask) w hmask hfits
    have hrbuf : (c.writeEventProc t.mask w).1.io.rbuf = [] := congrArg (·.rbuf) hio
    have hreq : (c.writeEventProc t.mask w).1.io.toReq = {} := congrArg (·.toReq) hio
    have hafter : Served t.fd first bytes _ [first] := .answered
      (Sys.setConn_self { s with todo := todo } t.fd _) hrbuf hreq hfree
    cases h with
    | queued hc' rbuf argv hp => omega
    | replying => exact hafter
    | answered => exact hafter
    | closed => exact hafter
  · have hafter : Served t.fd first bytes _ [first] := .closed
      (Sys.setConn_self { s with todo := todo } t.fd none) hfree
    cases h with
    | queued hc' rbuf argv hp => omega
    | replying => exact hafter
    | answered => exact hafter
    | closed => exact hafter

theorem served_half {s s' : Sys} {o : Obs} {fd : Nat} {first : List Bytes} {bytes : Bytes}
    {log : List (List Bytes)} {input : ReadOutcome} {db : Backend} {w : Writes} (hm : MaskInv s)
    (hi : SlotInv s fd) (hsil : Silent fd s (.half input db w)) (h : Served fd first bytes s log)
    (hs : s.half input db w = some (s', o)) : Served fd first bytes s' log := by
  obtain ⟨t, todo, htodo, ⟨rfl, _⟩ | ⟨c, hc, _, hdir⟩⟩ := Sys.half_cases hs
  · exact h.frame rfl (tasksOf_half htodo fd false) rfl
  · have hmask := hm.todo t (by rw [htodo]; simp)
    by_cases hfd : fd = t.fd
    · subst hfd
      have hfree : s.pending t.fd = 0 := hi.free htodo
      obtain ⟨hread, hs⟩ | ⟨_, hs⟩ := hdir
      · exact served_readHalf hmask htodo hc hread hfree hsil h hs
      · exact served_writeHalf hmask (hi.conn c hc).fits hfree h hs
    · obtain ⟨h1, h2, h3⟩ : s'.conns fd = s.conns fd ∧
          (∀ write, s'.tasksOf fd write = ({ s with todo := todo } : Sys).tasksOf fd write) ∧
          s'.pending fd = s.pending fd := by
        obtain ⟨_, hs⟩ | ⟨_, hs⟩ := hdir
        · exact readHalf_frame hfd hs
        · exact writeHalf_frame hfd hs
      exact h.frame h1 (by rw [h2]; exact tasksOf_half htodo fd false) h3

theorem served_process {s s' : Sys} {o : Obs} {fd k : Nat} {first : List Bytes} {bytes : Bytes}
    {log : List (List Bytes)} {db : Backend} {w : Writes} (hm : MaskInv s) (hi : SlotInv s fd)
    (h : Served fd first bytes s log) (hs : s.process k db w = some (s', o)) :
    Served fd first bytes s' (log ++ dispatches fd [o]) := by
  obtain ⟨f, c, r, hf, hc, hproc, rfl, rfl⟩ := Sys.process_cases hs
  have hmem : f ∈ s.queue ++ s.held := List.mem_append_right _ (List.mem_of_getElem? hf)
  have hcount := pending_process s hf fd
  by_cases hfd : fd = f.fd
  · subst hfd
    have hpos := pending_pos_of_mem hmem
    rw [if_pos rfl] at hcount
    cases h with
    | replying hc' rbuf hp => omega
    | answered hc' rbuf req hp => omega
    | closed hc' hp => omega
    | queued hc' rbuf argv hp =>
        obtain rfl := Option.some.inj (hc'.symm.trans hc)
        obtain ⟨c₀, hc₀, hready⟩ := hi.ready hpos
        obtain rfl := Option.some.inj (hc₀.symm.trans hc)
        obtain ⟨r', hr', hend⟩ := processCommond_end (c := c₀.setMask f.mask) (hm.fired f hmem)
          hready.args db w
        obtain rfl : r' = r := Option.some.inj (hr'.symm.trans hproc)
        have hlog : dispatches f.fd [.dispatched f.fd ((c₀.io.argv.map Argv.objs).getD [])] =
            [first] := by
          simp [dispatches, argv]
        rw [hlog, List.nil_append]
        have hpend : ({ s with held := s.held.eraseIdx k } : Sys).pending f.fd = 0 := by omega
        have hreads := hi.untouched hpos false
        obtain ⟨c', rs⟩ := r'
        cases hend with
        | replied flag a bs =>
            refine .replying (Sys.setConn_self ..) rbuf hpend hreads ?_ ?_ rfl
            · simp [Cevent.add, EvMask.or, Conn.append, Conn.setArgv, Conn.setMask,
                hready.mask, cevPersist, cevWrite]
            · simp [Cevent.add, EvMask.or, cevWrite]
  · rw [if_neg (Ne.symm hfd)] at hcount
    have hlog : dispatches fd [.dispatched f.fd ((c.io.argv.map Argv.objs).getD [])] = [] := by
      simp [dispatches, Ne.symm hfd]
    rw [hlog, List.append_nil]
    exact h.frame (Sys.setConn_of_ne _ hfd _) (Nat.le_refl _) hcount.symm

theorem served_step {s s' : Sys} {o : Obs} {fd : Nat} {l : Label} {first : List Bytes}
    {bytes : Bytes} {log : List (List Bytes)} (hm : MaskInv s) (hi : SlotInv s fd)
    (hsil : Silent fd s l) (h : Served fd first bytes s log) (hs : s.step l = some (s', o)) :
    Served fd first bytes s' (log ++ dispatches fd [o]) := by
  cases l with
  | accept g =>
      obtain ⟨hnone, rfl, rfl⟩ := Sys.accept_cases hs
      rw [show dispatches fd [Obs.quiet] = [] from rfl, List.append_nil]
      by_cases hg : fd = g
      · subst hg
        cases h with
        | queued hc => rw [hnone] at hc; cases hc
        | replying hc => rw [hnone] at hc; cases hc
        | answered hc => rw [hnone] at hc; cases hc
        | closed hc hp => exact .answered (Sys.setConn_self ..) rfl rfl hp
      · exact h.frame (Sys.setConn_of_ne s hg _) (Nat.le_refl _) rfl
  | poll fired =>
      obtain ⟨_, hpoll, rfl, rfl⟩ := Sys.poll_cases hs
      rw [show dispatches fd [Obs.quiet] = [] from rfl, List.append_nil]
      cases h with
      | queued hc rbuf argv hp => exact .queued hc rbuf argv hp
      | replying hc rbuf hp reads read write proc =>
          refine .replying hc rbuf hp ?_ read write proc
          by_contra hne
          obtain ⟨c', hc', hr, _⟩ := armed_of_pollable hpoll (Nat.pos_of_ne_zero hne)
          obtain rfl := Option.some.inj (hc.symm.trans hc')
          rw [hr rfl] at read
          cases read
      | answered hc rbuf req hp => exact .answered hc rbuf req hp
      | closed hc hp => exact .closed hc hp
  | half input db w =>
      have ho : dispatches fd [o] = [] := by
        obtain ⟨t, todo, _, ⟨_, rfl, _⟩ | ⟨c, _, rfl, _⟩⟩ := Sys.half_cases hs <;> rfl
      rw [ho, List.append_nil]
      exact served_half hm hi hsil h hs
  | pop =>
      obtain ⟨q, f, hq, rfl, rfl⟩ := Sys.pop_cases hs
      rw [show dispatches fd [Obs.quiet] = [] from rfl, List.append_nil]
      refine h.frame rfl (Nat.le_refl _) ?_
      simp only [Sys.pending, hq, List.map_append, List.count_append]
      omega
  | process k db w => exact served_process hm hi h hs

/-- The read that delivers the requests queues the first of them. -/
theorem served_delivery {s s' : Sys} {o : Obs} {fd : Nat} {t : Task} {c : Conn}
    {first : List Bytes} {bytes rest : Bytes} {db : Backend} {w : Writes} (hm : MaskInv s)
    (hi : SlotInv s fd) (hv : ValidRequest first) (hbytes : bytes = encodeRequest first ++ rest)
    (ht : s.todo.head? = some t) (hkey : t.key = (fd, false)) (hc : s.conns fd = some c)
    (hrbuf : c.io.rbuf = []) (hreq : c.io.toReq = {}) (hquiet : c.evt.mask.write = false)
    (hs : s.step (.half (.data bytes) db w) = some (s', o)) :
    MaskInv s' ∧ SlotInv s' fd ∧ Served fd first bytes s' [] := by
  have hund : Undisturbed fd s (.half (.data bytes) db w) := by
    intro _ t' _ _ c' hc' hon
    obtain rfl := Option.some.inj (hc.symm.trans hc')
    rw [hquiet] at hon
    cases hon
  have hm' := maskInv_step hm hs
  have hi' := slotInv_step hm hi hund hs
  refine ⟨hm', hi', ?_⟩
  obtain ⟨t', todo, htodo, hcase⟩ := Sys.half_cases hs
  obtain rfl : t' = t := by
    rw [htodo] at ht
    exact Option.some.inj ht
  obtain ⟨rfl, hdir⟩ := Prod.mk.inj hkey
  have hmask := hm.todo t' (by rw [htodo]; simp)
  have hparse : parseCommand c.io.toReq (c.io.rbuf ++ bytes) =
      (.complete, ⟨0, 0, .mbulk, some ⟨first.length, first⟩⟩, bytes) := by
    rw [hrbuf, hreq, List.nil_append, hbytes]
    exact parseCommand_encodeRequest hv rfl rfl rest
  have hne : bytes ≠ [] := by
    have hpos := encodeRequest_length_pos first
    rintro rfl
    have := congrArg List.length hbytes
    rw [List.length_append, List.length_nil] at this
    omega
  rcases hcase with ⟨_, _, hdead⟩ | ⟨c', hc', _, ⟨_, hs'⟩ | ⟨hwrite, _⟩⟩
  · have hlive := (hi.conn c hc).persist
    rw [hdead c hc] at hlive
    cases hlive
  · obtain rfl := Option.some.inj (hc.symm.trans hc')
    have hfree : s.pending t'.fd = 0 := hi.free htodo
    obtain ⟨r, hr, hres⟩ := Sys.readHalf_cases hs'
    obtain ⟨r', hr', hend⟩ := readEventProc_end c hmask (.data bytes) db w
    obtain rfl : r' = r := Option.some.inj (hr'.symm.trans hr)
    cases hend with
    | ended nodata => exact absurd (nodata _ rfl) hne
    | closing nodata => exact absurd (nodata _ rfl) hne
    | refused some parse =>
        rw [hparse] at parse
        cases parse
    | parsed some parse verdict =>
        rw [hparse] at parse
        subst parse
        rcases hres with ⟨_, rfl⟩ | ⟨hcode, _⟩
        · refine .queued (Sys.setConn_self { s with todo := todo } t'.fd _) rfl rfl ?_
          change List.count t'.fd (t'.fd :: (s.queue ++ s.held).map Fired.fd) = 1
          rw [List.count_cons_self]
          exact congrArg (· + 1) hfree
        · exact absurd rfl hcode
  · rw [hdir] at hwrite
    cases hwrite

theorem dispatches_foldl (fd : Nat) (os : List Obs) (log : List (List Bytes)) :
    os.foldl (fun log o => log ++ dispatches fd [o]) log = log ++ dispatches fd os := by
  induction os generalizing log with
  | nil => simp [dispatches]
  | cons o os ih =>
      rw [List.foldl_cons, ih, List.append_assoc, dispatches, dispatches, ← List.filterMap_append]
      rfl

/-- What has been dispatched when no more bytes arrive. -/
theorem served_run {s s' : Sys} {fd : Nat} {first : List Bytes} {bytes : Bytes}
    {labels : List Label} {os : List Obs} (hm : MaskInv s) (hi : SlotInv s fd)
    (h : Served fd first bytes s []) (hsil : Along Sys.step (Silent fd) s labels)
    (hrun : run Sys.step s labels = some (s', os)) :
    Served fd first bytes s' (dispatches fd os) := by
  have hend := run_tracks (fun log o => log ++ dispatches fd [o])
    (R := fun s log => MaskInv s ∧ SlotInv s fd ∧ Served fd first bytes s log)
    (fun {s log l s' o} hR hg hs => ⟨maskInv_step hR.1 hs,
      slotInv_step hR.1 hR.2.1 hg.undisturbed hs, served_step hR.1 hR.2.1 hg hR.2.2 hs⟩)
    ⟨hm, hi, h⟩ hsil hrun
  rw [dispatches_foldl, List.nil_append] at hend
  exact hend.2.2

/-- A connection between two requests, whose read half is the next to be handled. -/
structure AwaitsRead (s : Sys) (fd : Nat) (t : Task) (c : Conn) : Prop where
  next : s.todo.head? = some t
  key : t.key = (fd, false)
  conns : s.conns fd = some c
  rbuf : c.io.rbuf = []
  req : c.io.toReq = {}
  quiet : c.evt.mask.write = false

theorem served_requests {fd : Nat} {before after : List Label} (db : Backend) (w : Writes)
    {first : List Bytes} {more : List (List Bytes)} (hv : ValidRequest first)
    {s s₁ s₂ : Sys} {o : Obs} {os₁ os₂ : List Obs} {t : Task} {c : Conn}
    (hbefore : Along Sys.step (Undisturbed fd) {} before)
    (hrun₁ : run Sys.step {} before = some (s, os₁)) (hawait : AwaitsRead s fd t c)
    (hread : s.step (.half (.data ((first :: more).flatMap encodeRequest)) db w) = some (s₁, o))
    (hsilent : Along Sys.step (Silent fd) s₁ after)
    (hrun₂ : run Sys.step s₁ after = some (s₂, os₂)) :
    Served fd first ((first :: more).flatMap encodeRequest) s₂ (dispatches fd os₂) := by
  obtain ⟨hm, hi⟩ := invariant_run (fun s => MaskInv s ∧ SlotInv s fd)
    (fun hinv hg hs => ⟨maskInv_step hinv.1 hs, slotInv_step hinv.1 hinv.2 hg hs⟩)
    (inv_start fd) hbefore hrun₁
  obtain ⟨hm₁, hi₁, hserved⟩ := served_delivery hm hi hv List.flatMap_cons hawait.next hawait.key
    hawait.conns hawait.rbuf hawait.req hawait.quiet hread
  exact served_run hm₁ hi₁ hserved hsilent hrun₂

/-- Of several requests in one read, on a connection between two requests, exactly the
first is dispatched, once; when its reply is out, the buffer is empty. -/
theorem first_request_only (fd : Nat) (before after : List Label) (db : Backend) (w : Writes)
    (first : List Bytes) (more : List (List Bytes)) (hv : ∀ r ∈ first :: more, ValidRequest r)
    (s s₁ s₂ : Sys) (o : Obs) (os₁ os₂ : List Obs) (t : Task) (c : Conn)
    (hbefore : Along Sys.step (Undisturbed fd) {} before)
    (hrun₁ : run Sys.step {} before = some (s, os₁)) (hawait : AwaitsRead s fd t c)
    (hread : s.step (.half (.data ((first :: more).flatMap encodeRequest)) db w) = some (s₁, o))
    (hsilent : Along Sys.step (Silent fd) s₁ after)
    (hrun₂ : run Sys.step s₁ after = some (s₂, os₂)) :
    dispatches fd os₂ = [] ∧ s₂.pending fd = 1 ∨
      dispatches fd os₂ = [first] ∧ s₂.pending fd = 0 ∧
        ∀ c₂, s₂.conns fd = some c₂ → c₂.io.rbuf = [] ∨
          c₂.evt.mask.write = true ∧ c₂.evt.writeProc = some .writeEventProc := by
  have h := served_requests db w (hv first (by simp)) hbefore hrun₁ hawait hread hsilent hrun₂
  generalize dispatches fd os₂ = log at h
  cases h with
  | queued hc rbuf argv hp => exact .inl ⟨rfl, hp⟩
  | replying hc rbuf hp reads read write proc =>
      refine .inr ⟨rfl, hp, fun c₂ hc₂ => .inr ?_⟩
      obtain rfl := Option.some.inj (hc.symm.trans hc₂)
      exact ⟨write, proc⟩
  | answered hc rbuf req hp =>
      refine .inr ⟨rfl, hp, fun c₂ hc₂ => .inl ?_⟩
      obtain rfl := Option.some.inj (hc.symm.trans hc₂)
      exact rbuf
  | closed hc hp =>
      refine .inr ⟨rfl, hp, fun c₂ hc₂ => ?_⟩
      rw [hc] at hc₂
      cases hc₂

def ping : List Bytes := [ascii "PING"]

def pingsBefore : List Label := [.accept 5, .poll [⟨5, cevRead⟩]]
def pingsAfter : List Label :=
  [.pop, .process 0 noBackend fun _ => .eagain, .poll [⟨5, cevWrite⟩],
    .half .eagain noBackend fun _ => .wrote 6]

theorem validRequest_ping : ValidRequest ping := ⟨by decide, by decide, by decide⟩

theorem first_request_only_pings :
    ∃ (s₂ : Sys) (os₂ : List Obs), dispatches 5 os₂ = [] ∧ s₂.pending 5 = 1 ∨
      dispatches 5 os₂ = [ping] ∧ s₂.pending 5 = 0 ∧
        ∀ c₂, s₂.conns 5 = some c₂ → c₂.io.rbuf = [] ∨
          c₂.evt.mask.write = true ∧ c₂.evt.writeProc = some .writeEventProc :=
  ⟨_, _, first_request_only 5 pingsBefore pingsAfter noBackend (fun _ => .eagain) ping [ping]
    (by simp [validRequest_ping]) _ _ _ _ _ _ _ _ (by decide) rfl ⟨rfl, rfl, rfl, rfl, rfl, rfl⟩
    rfl (by decide) rfl⟩

/-- Two `PING` in one read: one is answered and the buffer is empty; whatever else
happens, as long as no more bytes arrive, the second is never dispatched. -/
theorem second_request_lost :
    (run Sys.step {} (pingsBefore ++ .half (.data ([ping, ping].flatMap encodeRequest)) noBackend
        (fun _ => .eagain) :: pingsAfter)).map
      (fun r => (dispatches 5 r.2, r.1.pending 5, (r.1.conns 5).map (·.io.rbuf))) =
        some ([ping], 0, some []) ∧
    ∀ s₁ os₁ after s₂ os₂,
      run Sys.step {} (pingsBefore ++ [.half (.data ([ping, ping].flatMap encodeRequest)) noBackend
        fun _ => .eagain]) = some (s₁, os₁) →
      Along Sys.step (Silent 5) s₁ after → run Sys.step s₁ after = some (s₂, os₂) →
      dispatches 5 os₂ ≠ [ping, ping] := by
  refine ⟨by decide, ?_⟩
  intro s₁ os₁ after s₂ os₂ hrun₁ hsilent hrun₂
  obtain ⟨rfl, rfl⟩ := Prod.mk.inj (Option.some.inj hrun₁)
  have hbefore : Along Sys.step (Undisturbed 5) {} pingsBefore := by decide
  have h := served_requests noBackend (fun _ => .eagain) validRequest_ping hbefore rfl
    ⟨rfl, rfl, rfl, rfl, rfl, rfl⟩ rfl hsilent hrun₂
  intro htwice
  rw [htwice] at h
  cases h

end ThrSocket
