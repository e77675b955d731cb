import Mathlib.Data.List.Nodup
import Mathlib.Data.List.Perm.Basic
import ThrSocket.Persistent
import ThrSocket.System

/-!
Who works on a connection. The main loop hands it over by taking CEV_READ away
and queueing the event; the worker hands it back by arming CEV_WRITE. The run
of the whole server is looked at from one descriptor: its connection, the halves
of the snapshot that concern it, and its queued or popped events.
-/

namespace ThrSocket
open CString Machine

theorem tasksOf_cons (s : Sys) (t : Task) (todo : List Task) (fd : Nat) (write : Bool)
    (h : s.todo = t :: todo) :
    s.tasksOf fd write =
      ({ s with todo := todo } : Sys).tasksOf fd write + if t.key = (fd, write) then 1 else 0 := by
  simp [Sys.tasksOf, h, List.count_cons]

theorem mem_of_tasksOf_pos {s : Sys} {fd : Nat} {write : Bool} (h : 0 < s.tasksOf fd write) :
    ∃ t ∈ s.todo, t.fd = fd ∧ t.write = write := by
  obtain ⟨t, ht, hkey⟩ := List.mem_map.mp (List.count_pos_iff.mp h)
  exact ⟨t, ht, (Prod.mk.inj hkey).1, (Prod.mk.inj hkey).2⟩

theorem pending_pos_of_mem {s : Sys} {f : Fired} (h : f ∈ s.queue ++ s.held) :
    0 < s.pending f.fd := List.count_pos_iff.mpr (List.mem_map_of_mem h)

theorem mem_tasks {f : Fired} {t : Task} (h : t ∈ f.tasks) :
    t.fd = f.fd ∧ t.mask.persist = true ∧ (t.write = false → f.mask.read = true) ∧
      (t.write = true → f.mask.write = true) := by
  rw [Fired.tasks, List.mem_append] at h
  rcases h with h | h
  · split at h
    · rename_i hr
      obtain rfl := List.mem_singleton.mp h
      refine ⟨rfl, by simp [EvMask.or, cevPersist], ?_, fun hw => by cases hw⟩
      exact fun _ => by simpa [EvMask.or, cevPersist] using hr
    · cases h
  · split at h
    · rename_i hw
      obtain rfl := List.mem_singleton.mp h
      refine ⟨rfl, by simp [EvMask.or, cevPersist], (fun hr => by cases hr), ?_⟩
      exact fun _ => by simpa [EvMask.or, cevPersist] using hw
    · cases h

theorem count_eraseIdx {l : List Fired} {k : Nat} {f : Fired} (h : l[k]? = some f) (fd : Nat) :
    (l.map Fired.fd).count fd =
      ((l.eraseIdx k).map Fired.fd).count fd + if f.fd = fd then 1 else 0 := by
  obtain ⟨hk, rfl⟩ := List.getElem?_eq_some_iff.mp h
  have hperm := (List.getElem_cons_eraseIdx_perm hk).map Fired.fd
  rw [← hperm.count_eq]
  simp [List.count_cons]

/-- All queued events and all halves are those of persistent connections. -/
structure MaskInv (s : Sys) : Prop where
  todo : ∀ t ∈ s.todo, t.mask.persist = true
  fired : ∀ f ∈ s.queue ++ s.held, f.mask.persist = true

/-- What the whole system knows of one descriptor. -/
structure SlotInv (s : Sys) (fd : Nat) : Prop where
  once : ∀ write, s.tasksOf fd write ≤ 1
  single : s.pending fd ≤ 1
  untouched : 0 < s.pending fd → ∀ write, s.tasksOf fd write = 0
  ready : 0 < s.pending fd → ∃ c, s.conns fd = some c ∧ c.Ready
  armed : 0 < s.tasksOf fd true → ∃ c, s.conns fd = some c ∧ c.evt.mask.write = true
  conn : ∀ c, s.conns fd = some c → ConnInv c

/-- A step that leaves the connection and its events alone. -/
theorem SlotInv.frame {s s' : Sys} {fd : Nat} (h : SlotInv s fd)
    (conns : s'.conns fd = s.conns fd) (tasks : ∀ write, s'.tasksOf fd write ≤ s.tasksOf fd write)
    (pending : s'.pending fd = s.pending fd) : SlotInv s' fd where
  once write := Nat.le_trans (tasks write) (h.once write)
  single := by rw [pending]; exact h.single
  untouched hp write := by
    rw [pending] at hp
    have := h.untouched hp write
    have := tasks write
    omega
  ready hp := by
    rw [pending] at hp
    rw [conns]
    exact h.ready hp
  armed ht := by
    rw [conns]
    exact h.armed (Nat.lt_of_lt_of_le ht (tasks true))
  conn c hc := h.conn c (by rw [← conns]; exact hc)

/-- A connection that nobody but the main loop holds. -/
theorem SlotInv.of_idle {s : Sys} {fd : Nat} {c : Conn} (conns : s.conns fd = some c)
    (inv : ConnInv c) (once : ∀ write, s.tasksOf fd write ≤ 1) (pending : s.pending fd = 0)
    (armed : 0 < s.tasksOf fd true → c.evt.mask.write = true) : SlotInv s fd where
  once := once
  single := by omega
  untouched hp := by omega
  ready hp := by omega
  armed ht := ⟨c, conns, armed ht⟩
  conn c' hc' := by
    rw [conns] at hc'
    cases hc'
    exact inv

/-- A connection that has just been handed over. -/
theorem SlotInv.of_ready {s : Sys} {fd : Nat} {c : Conn} (conns : s.conns fd = some c)
    (inv : ConnInv c) (ready : c.Ready) (tasks : ∀ write, s.tasksOf fd write = 0)
    (pending : s.pending fd = 1) : SlotInv s fd where
  once write := by rw [tasks]; omega
  single := by omega
  untouched _ := tasks
  ready _ := ⟨c, conns, ready⟩
  armed ht := by rw [tasks] at ht; omega
  conn c' hc' := by
    rw [conns] at hc'
    cases hc'
    exact inv

/-- No read completes a request while CEV_WRITE is armed for the connection. -/
def Undisturbed (fd : Nat) (s : Sys) : Label → Prop
  | .half (.data bs) _ _ =>
      bs ≠ [] → ∀ t ∈ s.todo.head?, t.key = (fd, false) → ∀ c ∈ s.conns fd,
        c.evt.mask.write = true → (parseCommand c.io.toReq (c.io.rbuf ++ bs)).1 ≠ .complete
  | _ => True

/-- The main loop runs no event procedure of a connection that is handed over,
and a worker that processes it finds its arguments. -/
def Exclusive (fd : Nat) (s : Sys) : Label → Prop
  | .half _ _ _ =>
      ∀ t ∈ s.todo.head?, t.fd = fd → (s.conns fd).isSome = true → s.pending fd = 0
  | .process k _ _ =>
      ∀ f ∈ s.held[k]?, f.fd = fd →
        ∃ c ∈ s.conns fd, ∃ a ∈ c.io.argv, 1 ≤ a.objs.length
  | _ => True

instance (fd : Nat) (s : Sys) : (l : Label) → Decidable (Undisturbed fd s l)
  | .half (.data bs) _ _ => inferInstanceAs (Decidable (bs ≠ [] → ∀ t ∈ s.todo.head?, _))
  | .half .eagain _ _ | .half .error _ _ | .accept _ | .poll _ | .pop | .process _ _ _ =>
      inferInstanceAs (Decidable True)

instance (fd : Nat) (s : Sys) : (l : Label) → Decidable (Exclusive fd s l)
  | .half _ _ _ => inferInstanceAs (Decidable (∀ t ∈ s.todo.head?, _))
  | .process k _ _ => inferInstanceAs (Decidable (∀ f ∈ s.held[k]?, _))
  | .accept _ | .poll _ | .pop => inferInstanceAs (Decidable True)

/-- The main loop works on a descriptor that nobody else holds. -/
theorem SlotInv.free {s : Sys} {t : Task} {todo : List Task} (h : SlotInv s t.fd)
    (htodo : s.todo = t :: todo) : s.pending t.fd = 0 := by
  by_contra hp
  have hzero := h.untouched (Nat.pos_of_ne_zero hp) t.write
  rw [tasksOf_cons s t todo t.fd t.write htodo, Task.key, if_pos rfl] at hzero
  omega

theorem SlotInv.exclusive {s : Sys} {fd : Nat} (h : SlotInv s fd) (l : Label) :
    Exclusive fd s l := by
  cases l with
  | half input db w =>
      rintro t ht rfl _
      obtain ⟨todo, htodo⟩ := List.head?_eq_some_iff.mp ht
      exact h.free htodo
  | process k db w =>
      rintro f hf rfl
      have hmem : f ∈ s.queue ++ s.held := List.mem_append_right _ (List.mem_of_getElem? hf)
      obtain ⟨c, hc, hready⟩ := h.ready (pending_pos_of_mem hmem)
      obtain ⟨a, ha, hpos⟩ := hready.args
      exact ⟨c, hc, a, ha, hpos⟩
  | accept fd => trivial
  | poll fired => trivial
  | pop => trivial

theorem Sys.setConn_self (s : Sys) (fd : Nat) (c : Option Conn) : (s.setConn fd c).conns fd = c :=
  Function.update_self ..

theorem Sys.setConn_of_ne (s : Sys) {fd fd' : Nat} (h : fd ≠ fd') (c : Option Conn) :
    (s.setConn fd' c).conns fd = s.conns fd := Function.update_of_ne h ..

theorem accept_inv {s s' : Sys} {o : Obs} {fd g : Nat} (h : SlotInv s fd)
    (hs : s.accept g = some (s', o)) : SlotInv s' fd := by
  obtain ⟨hnone, rfl, _⟩ := Sys.accept_cases hs
  by_cases hg : fd = g
  · subst hg
    refine .of_idle (Sys.setConn_self ..) (connInv_freshConn _) h.once ?_ fun ht => ?_
    · by_contra hp
      obtain ⟨c, hc, _⟩ := h.ready (Nat.pos_of_ne_zero hp)
      rw [hnone] at hc
      cases hc
    · obtain ⟨c, hc, _⟩ := h.armed ht
      rw [hnone] at hc
      cases hc
  · exact h.frame (Sys.setConn_of_ne s hg _) (fun _ => Nat.le_refl _) rfl

/-- A half in a snapshot belongs to a connection that has its direction armed. -/
theorem armed_of_pollable {s : Sys} {fired : List Fired} (h : s.pollable fired = true) {fd : Nat}
    {write : Bool}
    (hpos : 0 < ({ s with todo := fired.flatMap Fired.tasks } : Sys).tasksOf fd write) :
    ∃ c, s.conns fd = some c ∧ (write = false → c.evt.mask.read = true) ∧
      (write = true → c.evt.mask.write = true) := by
  simp only [Sys.pollable, Bool.and_eq_true, List.all_eq_true] at h
  obtain ⟨t, ht, rfl, rfl⟩ := mem_of_tasksOf_pos hpos
  obtain ⟨f, hf, htf⟩ := List.mem_flatMap.mp ht
  obtain ⟨hfd, _, hr, hw⟩ := mem_tasks htf
  have hf' := h.1 f hf
  rw [← hfd] at hf'
  split at hf'
  · cases hf'
  · rename_i c hc
    simp only [Bool.and_eq_true, Bool.or_eq_true, Bool.not_eq_true'] at hf'
    refine ⟨c, hc, fun h0 => ?_, fun h1 => ?_⟩
    · exact hf'.1.resolve_left (by rw [hr h0]; simp)
    · exact hf'.2.resolve_left (by rw [hw h1]; simp)

theorem poll_inv {s s' : Sys} {o : Obs} {fd : Nat} {fired : List Fired} (h : SlotInv s fd)
    (hs : s.poll fired = some (s', o)) : SlotInv s' fd := by
  obtain ⟨_, hpoll, rfl, _⟩ := Sys.poll_cases hs
  have hnodup : ((fired.flatMap Fired.tasks).map Task.key).Nodup := by
    simp only [Sys.pollable, Bool.and_eq_true, decide_eq_true_eq] at hpoll
    exact hpoll.2
  refine ⟨fun write => List.nodup_iff_count_le_one.mp hnodup (fd, write), h.single, ?_, h.ready, ?_,
    h.conn⟩
  · intro hp write
    by_contra hne
    obtain ⟨c, hc, hr, hw⟩ := armed_of_pollable hpoll (Nat.pos_of_ne_zero hne)
    obtain ⟨c', hc', hready⟩ := h.ready hp
    obtain rfl : c' = c := Option.some.inj (hc'.symm.trans hc)
    rw [hready.mask] at hr hw
    cases write with
    | false => cases hr rfl
    | true => cases hw rfl
  · intro ht
    obtain ⟨c, hc, _, hw⟩ := armed_of_pollable hpoll ht
    exact ⟨c, hc, hw rfl⟩

theorem pop_inv {s s' : Sys} {o : Obs} {fd : Nat} (h : SlotInv s fd)
    (hs : s.pop = some (s', o)) : SlotInv s' fd := by
  obtain ⟨q, f, hq, rfl, _⟩ := Sys.pop_cases hs
  refine h.frame rfl (fun _ => Nat.le_refl _) ?_
  simp only [Sys.pending, hq, List.map_append, List.count_append]
  omega

theorem pending_process (s : Sys) {k : Nat} {f : Fired} (hf : s.held[k]? = some f) (fd : Nat) :
    s.pending fd = ({ s with held := s.held.eraseIdx k } : Sys).pending fd +
      if f.fd = fd then 1 else 0 := by
  have hcount := count_eraseIdx hf fd
  simp only [Sys.pending, List.map_append, List.count_append]
  omega

/-- A worker gives the connection back with the reply armed. -/
theorem process_inv {s s' : Sys} {o : Obs} {fd k : Nat} {db : Backend} {w : Writes}
    (hm : MaskInv s) (h : SlotInv s fd) (hs : s.process k db w = some (s', o)) : SlotInv s' fd := by
  obtain ⟨f, c, r, hf, hc, hproc, rfl, _⟩ := Sys.process_cases hs
  have hmem : f ∈ s.queue ++ s.held := List.mem_append_right _ (List.mem_of_getElem? hf)
  have hcount := pending_process s hf fd
  by_cases hfd : fd = f.fd
  · subst hfd
    obtain ⟨c₀, hc₀, hready⟩ := h.ready (pending_pos_of_mem hmem)
    obtain rfl : c₀ = c := Option.some.inj (hc₀.symm.trans hc)
    obtain ⟨r', hr', hend⟩ := processCommond_end (c := c₀.setMask f.mask) (hm.fired f hmem)
      hready.args db w
    obtain rfl : r' = r := Option.some.inj (hr'.symm.trans hproc)
    obtain ⟨hinv, hwrite⟩ := hend.inv ((h.conn _ hc).setMask f.mask)
    refine .of_idle (Sys.setConn_self ..) hinv h.once ?_ fun _ => hwrite
    have hone := h.single
    rw [if_pos rfl] at hcount
    change Sys.pending { s with held := s.held.eraseIdx k } f.fd = 0
    omega
  · refine h.frame (Sys.setConn_of_ne _ hfd _) (fun _ => Nat.le_refl _) ?_
    rw [if_neg (Ne.symm hfd)] at hcount
    exact hcount.symm

/-- What a half leaves of the halves: one less for its own key. -/
theorem tasksOf_half {s : Sys} {t : Task} {todo : List Task} (htodo : s.todo = t :: todo)
    (fd : Nat) (write : Bool) :
    ({ s with todo := todo } : Sys).tasksOf fd write ≤ s.tasksOf fd write := by
  rw [tasksOf_cons s t todo fd write htodo]
  omega

theorem tasksOf_own {s : Sys} {t : Task} {todo : List Task} (htodo : s.todo = t :: todo)
    (h : s.tasksOf t.fd t.write ≤ 1) :
    ({ s with todo := todo } : Sys).tasksOf t.fd t.write = 0 := by
  rw [tasksOf_cons s t todo t.fd t.write htodo, Task.key, if_pos rfl] at h
  omega

theorem readHalf_inv {s s' : Sys} {t : Task} {todo : List Task} {c : Conn} {input : ReadOutcome}
    {db : Backend} {w : Writes} (hp : t.mask.persist = true) (h : SlotInv s t.fd)
    (htodo : s.todo = t :: todo) (hread : t.write = false) (hc : s.conns t.fd = some c)
    (hquiet : ∀ bs, input = .data bs → bs ≠ [] → c.evt.mask.write = true →
      (parseCommand c.io.toReq (c.io.rbuf ++ bs)).1 ≠ .complete)
    (hs : ({ s with todo := todo } : Sys).readHalf t c input db w = some s') :
    SlotInv s' t.fd := by
  have hconn := h.conn c hc
  have hfree : ({ s with todo := todo } : Sys).pending t.fd = 0 := h.free htodo
  have hreads := tasksOf_own htodo (h.once t.write)
  have hwrites : 0 < ({ s with todo := todo } : Sys).tasksOf t.fd true →
      c.evt.mask.write = true := by
    intro ht
    obtain ⟨c₀, hc₀, hon⟩ := h.armed (Nat.lt_of_lt_of_le ht (tasksOf_half htodo t.fd true))
    obtain rfl : c₀ = c := Option.some.inj (hc₀.symm.trans hc)
    exact hon
  obtain ⟨r, hr, hcase⟩ := Sys.readHalf_cases hs
  obtain ⟨r', hr', hend⟩ := readEventProc_end c hp input db w
  obtain rfl : r' = r := Option.some.inj (hr'.symm.trans hr)
  obtain ⟨hinv, hkeep, hzero⟩ := hend.inv hconn
  rcases hcase with ⟨hrs, rfl⟩ | ⟨_, rfl⟩
  · obtain ⟨hevt, hargs, bs, hinput, hbs, hcomplete⟩ := hzero hrs
    have hoff : c.evt.mask.write = false := by
      by_contra hon
      exact hquiet bs hinput hbs (by simpa using hon) hcomplete
    -- nothing is left of the snapshot for a connection that is handed over
    have htasks : ∀ write, ({ s with todo := todo } : Sys).tasksOf t.fd write = 0 := by
      intro write
      cases write with
      | false => rw [← hread]; exact hreads
      | true =>
          by_contra hne
          rw [hwrites (Nat.pos_of_ne_zero hne)] at hoff
          cases hoff
    refine .of_ready (Sys.setConn_self ..) hinv.delRead ⟨?_, ?_⟩ htasks ?_
    · rw [delEvent_persist hinv.persist]
      simp [hevt, EvMask.without, cevRead, cevPersist, hoff, hconn.persist]
    · rw [delEvent_persist hinv.persist]
      exact hargs
    · change List.count t.fd (t.fd :: (s.queue ++ s.held).map Fired.fd) = 1
      rw [List.count_cons_self]
      exact congrArg (· + 1) hfree
  · exact .of_idle (Sys.setConn_self ..) hinv
      (fun write => Nat.le_trans (tasksOf_half htodo t.fd write) (h.once write)) hfree
      fun ht => hkeep (hwrites ht)

theorem writeHalf_inv {s s' : Sys} {t : Task} {todo : List Task} {c : Conn} {w : Writes}
    (hp : t.mask.persist = true) (h : SlotInv s t.fd) (htodo : s.todo = t :: todo)
    (hwrite : t.write = true) (hc : s.conns t.fd = some c)
    (hs : ({ s with todo := todo } : Sys).writeHalf t c w = some s') : SlotInv s' t.fd := by
  have hfree : ({ s with todo := todo } : Sys).pending t.fd = 0 := h.free htodo
  have hwrites := tasksOf_own htodo (h.once t.write)
  rw [hwrite] at hwrites
  have honce := fun write => Nat.le_trans (tasksOf_half htodo t.fd write) (h.once write)
  rcases Sys.writeHalf_cases hs with ⟨_, rfl⟩ | ⟨_, rfl⟩
  · exact .of_idle (Sys.setConn_self ..) ((h.conn c hc).response t.mask hp w) honce hfree
      fun ht => absurd (show 0 < Sys.tasksOf { s with todo := todo } t.fd true from ht) (by omega)
  · -- the connection is gone, and no second write half is left for its descriptor
    refine ⟨honce, Nat.le_trans (Nat.le_of_eq hfree) (by omega), fun hp => ?_, fun hp => ?_,
      fun ht => ?_, fun c' hc' => ?_⟩
    · exact absurd (show 0 < Sys.pending { s with todo := todo } t.fd from hp) (by omega)
    · exact absurd (show 0 < Sys.pending { s with todo := todo } t.fd from hp) (by omega)
    · exact absurd (show 0 < Sys.tasksOf { s with todo := todo } t.fd true from ht) (by omega)
    · rw [Sys.setConn_self] at hc'
      cases hc'

/-- A half for another descriptor. -/
theorem readHalf_frame {s s' : Sys} {t : Task} {c : Conn} {input : ReadOutcome} {db : Backend}
    {w : Writes} {fd : Nat} (hfd : fd ≠ t.fd) (hs : s.readHalf t c input db w = some s') :
    s'.conns fd = s.conns fd ∧ (∀ write, s'.tasksOf fd write = s.tasksOf fd write) ∧
      s'.pending fd = s.pending fd := by
  obtain ⟨r, _, ⟨_, rfl⟩ | ⟨_, rfl⟩⟩ := Sys.readHalf_cases hs
  · refine ⟨Sys.setConn_of_ne s hfd _, fun _ => rfl, ?_⟩
    change List.count fd (t.fd :: (s.queue ++ s.held).map Fired.fd) = _
    rw [List.count_cons_of_ne (Ne.symm hfd)]
    rfl
  · exact ⟨Sys.setConn_of_ne s hfd _, fun _ => rfl, rfl⟩

theorem writeHalf_frame {s s' : Sys} {t : Task} {c : Conn} {w : Writes} {fd : Nat}
    (hfd : fd ≠ t.fd) (hs : s.writeHalf t c w = some s') :
    s'.conns fd = s.conns fd ∧ (∀ write, s'.tasksOf fd write = s.tasksOf fd write) ∧
      s'.pending fd = s.pending fd := by
  rcases Sys.writeHalf_cases hs with ⟨_, rfl⟩ | ⟨_, rfl⟩
  · exact ⟨Sys.setConn_of_ne s hfd _, fun _ => rfl, rfl⟩
  · exact ⟨Sys.setConn_of_ne s hfd _, fun _ => rfl, rfl⟩

theorem half_inv {s s' : Sys} {o : Obs} {fd : Nat} {input : ReadOutcome} {db : Backend}
    {w : Writes} (hm : MaskInv s) (h : SlotInv s fd) (hg : Undisturbed fd s (.half input db w))
    (hs : s.half input db w = some (s', o)) : SlotInv s' fd := by
  obtain ⟨t, todo, htodo, ⟨rfl, _⟩ | ⟨c, hc, _, ⟨hdir, hs⟩ | ⟨hdir, hs⟩⟩⟩ := Sys.half_cases hs
  · exact h.frame rfl (tasksOf_half htodo fd) rfl
  · have hp := hm.todo t (by rw [htodo]; simp)
    by_cases hfd : fd = t.fd
    · subst hfd
      refine readHalf_inv hp h htodo hdir hc ?_ hs
      rintro bs rfl hbs
      exact hg hbs t (by rw [htodo]; rfl) (by rw [Task.key, hdir]) c hc
    · obtain ⟨h1, h2, h3⟩ := readHalf_frame hfd hs
      exact h.frame h1 (fun write => by rw [h2]; exact tasksOf_half htodo fd write) h3
  · have hp := hm.todo t (by rw [htodo]; simp)
    by_cases hfd : fd = t.fd
    · subst hfd
      exact writeHalf_inv hp h htodo hdir hc hs
    · obtain ⟨h1, h2, h3⟩ := writeHalf_frame hfd hs
      exact h.frame h1 (fun write => by rw [h2]; exact tasksOf_half htodo fd write) h3

theorem maskInv_step {s s' : Sys} {o : Obs} {l : Label} (hm : MaskInv s)
    (hs : s.step l = some (s', o)) : MaskInv s' := by
  cases l with
  | accept g =>
      obtain ⟨_, rfl, _⟩ := Sys.accept_cases hs
      exact ⟨hm.todo, hm.fired⟩
  | poll fired =>
      obtain ⟨_, _, rfl, _⟩ := Sys.poll_cases hs
      refine ⟨fun t ht => ?_, hm.fired⟩
      obtain ⟨f, _, htf⟩ := List.mem_flatMap.mp ht
      exact (mem_tasks htf).2.1
  | pop =>
      obtain ⟨q, f, hq, rfl, _⟩ := Sys.pop_cases hs
      refine ⟨hm.todo, fun g hg => hm.fired g ?_⟩
      rw [hq]
      simp only [List.mem_append, List.mem_singleton] at hg ⊢
      tauto
  | process k db w =>
      obtain ⟨f, c, r, _, _, _, rfl, _⟩ := Sys.process_cases hs
      refine ⟨hm.todo, fun g hg => hm.fired g ?_⟩
      have hg' : g ∈ s.queue ++ s.held.eraseIdx k := hg
      rw [List.mem_append] at hg' ⊢
      exact hg'.imp_right List.mem_of_mem_eraseIdx
  | half input db w =>
      obtain ⟨t, todo, htodo, hcase⟩ := Sys.half_cases hs
      have hrest : ∀ t' ∈ todo, t'.mask.persist = true :=
        fun t' ht' => hm.todo t' (by rw [htodo]; simp [ht'])
      obtain ⟨rfl, _⟩ | ⟨c, hc, _, ⟨_, hs⟩ | ⟨_, hs⟩⟩ := hcase
      · exact ⟨hrest, hm.fired⟩
      · obtain ⟨r, _, ⟨_, rfl⟩ | ⟨_, rfl⟩⟩ := Sys.readHalf_cases hs
        · refine ⟨hrest, fun f hf => ?_⟩
          rcases List.mem_cons.mp hf with rfl | hf
          · exact hm.todo t (by rw [htodo]; simp)
          · exact hm.fired f hf
        · exact ⟨hrest, hm.fired⟩
      · rcases Sys.writeHalf_cases hs with ⟨_, rfl⟩ | ⟨_, rfl⟩
        · exact ⟨hrest, hm.fired⟩
        · exact ⟨hrest, hm.fired⟩

theorem slotInv_step {s s' : Sys} {o : Obs} {fd : Nat} {l : Label} (hm : MaskInv s)
    (h : SlotInv s fd) (hg : Undisturbed fd s l) (hs : s.step l = some (s', o)) :
    SlotInv s' fd := by
  cases l with
  | accept g => exact accept_inv h hs
  | poll fired => exact poll_inv h hs
  | half input db w => exact half_inv hm h hg hs
  | pop => exact pop_inv h hs
  | process k db w => exact process_inv hm h hs

inductive Holder
  | nobody
  | main
  | worker
deriving DecidableEq, Repr

def Sys.holder (s : Sys) (fd : Nat) : Holder :=
  match s.conns fd with
  | none => .nobody
  | some _ => if s.pending fd = 0 then .main else .worker

def Obs.about : Obs → Option Nat
  | .quiet => none
  | .handled fd _ => some fd
  | .dispatched fd _ => some fd

/-- What a connection is for, seen from outside: it is accepted, worked on by the
main loop, handed over by a read half, given back by the worker that dispatched
it, and closed by a write half. -/
inductive Handoff (fd : Nat) : Holder → Label → Obs → Holder → Prop
  | elsewhere (h : Holder) {l : Label} {o : Obs} (other : o.about ≠ some fd)
      (elsewhere : l ≠ .accept fd) : Handoff fd h l o h
  | accept : Handoff fd .nobody (.accept fd) .quiet .main
  | work {input : ReadOutcome} {db : Backend} {w : Writes} (write : Bool) :
      Handoff fd .main (.half input db w) (.handled fd write) .main
  | handOver {input : ReadOutcome} {db : Backend} {w : Writes} :
      Handoff fd .main (.half input db w) (.handled fd false) .worker
  | giveBack {k : Nat} {db : Backend} {w : Writes} {argv : List Bytes} (some : argv ≠ []) :
      Handoff fd .worker (.process k db w) (.dispatched fd argv) .main
  | close {input : ReadOutcome} {db : Backend} {w : Writes} :
      Handoff fd .main (.half input db w) (.handled fd true) .nobody

theorem holder_main {s : Sys} {fd : Nat} {c : Conn} (hc : s.conns fd = some c)
    (hp : s.pending fd = 0) : s.holder fd = .main := by
  rw [Sys.holder, hc]
  exact if_pos hp

theorem holder_worker {s : Sys} {fd : Nat} {c : Conn} (hc : s.conns fd = some c)
    (hp : 0 < s.pending fd) : s.holder fd = .worker := by
  rw [Sys.holder, hc]
  exact if_neg (by omega)

theorem holder_congr (s : Sys) {s' : Sys} {fd : Nat} (hc : s'.conns fd = s.conns fd)
    (hp : s'.pending fd = s.pending fd) : s'.holder fd = s.holder fd := by
  rw [Sys.holder, Sys.holder, hc, hp]

theorem half_handoff {s s' : Sys} {o : Obs} {fd : Nat} {input : ReadOutcome} {db : Backend}
    {w : Writes} (h : SlotInv s fd) (hs : s.half input db w = some (s', o)) :
    Handoff fd (s.holder fd) (.half input db w) o (s'.holder fd) := by
  obtain ⟨t, todo, htodo, ⟨rfl, rfl, _⟩ | ⟨c, hc, rfl, hdir⟩⟩ := Sys.half_cases hs
  · exact .elsewhere _ (by simp [Obs.about]) (by simp)
  · by_cases hfd : fd = t.fd
    · subst hfd
      have hfree := h.free htodo
      have hmain : ∀ c' : Conn, (({ s with todo := todo } : Sys).setConn t.fd
          (some c')).holder t.fd = .main := fun c' => holder_main (Sys.setConn_self ..) hfree
      rw [holder_main hc hfree]
      obtain ⟨hread, hs⟩ | ⟨hwrite, hs⟩ := hdir
      · obtain ⟨r, _, ⟨_, hs'⟩ | ⟨_, hs'⟩⟩ := Sys.readHalf_cases hs
        · have hworker : s'.holder t.fd = .worker := by
            rw [hs']
            refine holder_worker (c := r.1.delEvent cevRead) (Sys.setConn_self ..) ?_
            exact pending_pos_of_mem (f := ⟨t.fd, t.mask⟩) (by simp [Sys.ceventsPushFired])
          rw [hread, hworker]
          exact .handOver
        · rw [hs', hmain]
          exact .work _
      · rcases Sys.writeHalf_cases hs with ⟨_, hs'⟩ | ⟨_, hs'⟩
        · rw [hs', hmain]
          exact .work _
        · rw [hwrite, hs', Sys.holder, Sys.setConn_self]
          exact .close
    · have hsame : s'.conns fd = s.conns fd ∧ s'.pending fd = s.pending fd := by
        obtain ⟨_, hs⟩ | ⟨_, hs⟩ := hdir
        · obtain ⟨h1, _, h3⟩ := readHalf_frame hfd hs
          exact ⟨h1, h3⟩
        · obtain ⟨h1, _, h3⟩ := writeHalf_frame hfd hs
          exact ⟨h1, h3⟩
      rw [holder_congr s hsame.1 hsame.2]
      exact .elsewhere _ (by simpa [Obs.about] using Ne.symm hfd) (by simp)

theorem process_handoff {s s' : Sys} {o : Obs} {fd k : Nat} {db : Backend} {w : Writes}
    (h : SlotInv s fd) (hs : s.process k db w = some (s', o)) :
    Handoff fd (s.holder fd) (.process k db w) o (s'.holder fd) := by
  obtain ⟨f, c, r, hf, hc, _, rfl, rfl⟩ := Sys.process_cases hs
  have hcount := pending_process s hf fd
  by_cases hfd : fd = f.fd
  · subst hfd
    have hpos := pending_pos_of_mem (List.mem_append_right s.queue (List.mem_of_getElem? hf))
    have hone := h.single
    rw [if_pos rfl] at hcount
    have hafter := holder_main
      (Sys.setConn_self { s with held := s.held.eraseIdx k } f.fd (some r.1))
      (show Sys.pending { s with held := s.held.eraseIdx k } f.fd = 0 by omega)
    rw [holder_worker hc hpos, hafter]
    obtain ⟨c₀, hc₀, hready⟩ := h.ready hpos
    obtain rfl : c₀ = c := Option.some.inj (hc₀.symm.trans hc)
    obtain ⟨a, ha, hargs⟩ := hready.args
    refine .giveBack ?_
    rw [ha]
    exact List.length_pos_iff.mp hargs
  · rw [if_neg (Ne.symm hfd)] at hcount
    rw [holder_congr s
      (Sys.setConn_of_ne { s with held := s.held.eraseIdx k } hfd (some r.1)) hcount.symm]
    exact .elsewhere _ (by simpa [Obs.about] using Ne.symm hfd) (by simp)

theorem step_handoff {s s' : Sys} {o : Obs} {fd : Nat} {l : Label} (h : SlotInv s fd)
    (hs : s.step l = some (s', o)) : Handoff fd (s.holder fd) l o (s'.holder fd) := by
  cases l with
  | accept g =>
      obtain ⟨hnone, rfl, rfl⟩ := Sys.accept_cases hs
      by_cases hg : fd = g
      · subst hg
        have hpend : s.pending fd = 0 := by
          by_contra hp
          obtain ⟨c, hc, _⟩ := h.ready (Nat.pos_of_ne_zero hp)
          rw [hnone] at hc
          cases hc
        have hafter := holder_main
          (Sys.setConn_self s fd (some (freshConn cevNone))) hpend
        rw [hafter, Sys.holder, hnone]
        exact .accept
      · rw [holder_congr s (Sys.setConn_of_ne s hg (some (freshConn cevNone))) rfl]
        exact .elsewhere _ (by simp [Obs.about]) (by simpa using Ne.symm hg)
  | poll fired =>
      obtain ⟨_, _, rfl, rfl⟩ := Sys.poll_cases hs
      exact .elsewhere _ (by simp [Obs.about]) (by simp)
  | half input db w => exact half_handoff h hs
  | pop =>
      obtain ⟨q, f, hq, rfl, rfl⟩ := Sys.pop_cases hs
      have hpend : ({ s with queue := q, held := s.held ++ [f] } : Sys).pending fd =
          s.pending fd := by
        simp only [Sys.pending, hq, List.map_append, List.count_append]
        omega
      have hconns : ({ s with queue := q, held := s.held ++ [f] } : Sys).conns fd =
          s.conns fd := rfl
      rw [holder_congr s hconns hpend]
      exact .elsewhere _ (by simp [Obs.about]) (by simp)
  | process k db w => exact process_handoff h hs

theorem inv_start (fd : Nat) : MaskInv {} ∧ SlotInv {} fd := by
  refine ⟨⟨by simp, by simp⟩, fun _ => Nat.zero_le _, Nat.zero_le _, fun h => ?_, fun h => ?_,
    fun h => ?_, fun c hc => by cases hc⟩
  · exact absurd h (Nat.lt_irrefl 0)
  · exact absurd h (Nat.lt_irrefl 0)
  · exact absurd h (Nat.lt_irrefl 0)

def noBackend : Backend := ⟨fun _ => .len 0, fun _ => .len 0⟩

/-- In every run in which no read completes a request of the connection while its CEV_WRITE is
armed: whoever has it, and what is done with it, is a run of the handover. -/
theorem run_handoff {fd : Nat} {labels : List Label} {s : Sys} {os : List Obs}
    (h : Along Sys.step (Undisturbed fd) {} labels)
    (hrun : run Sys.step {} labels = some (s, os)) :
    SpecRun (Handoff fd) .nobody labels os (s.holder fd) := by
  have hsim := run_refines (Handoff fd) (G := Undisturbed fd)
    (R := fun s h => (MaskInv s ∧ SlotInv s fd) ∧ h = s.holder fd)
    (fun {s h l s' o} hR hg hs => by
      obtain ⟨hinv, rfl⟩ := hR
      exact ⟨s'.holder fd, step_handoff hinv.2 hs,
        ⟨maskInv_step hinv.1 hs, slotInv_step hinv.1 hinv.2 hg hs⟩, rfl⟩)
    (b := .nobody) ⟨inv_start fd, rfl⟩ h hrun
  obtain ⟨h', hspec, _, rfl⟩ := hsim
  exact hspec

/-- A `PING` from the accept to the close. -/
theorem run_handoff_ping :
    SpecRun (Handoff 5) .nobody
      [.accept 5, .poll [⟨5, cevRead⟩], .half (.data (ascii "*1\r\n$4\r\nPING\r\n")) noBackend
        fun _ => .eagain, .pop, .process 0 noBackend fun _ => .eagain, .poll [⟨5, cevWrite⟩],
        .half .eagain noBackend fun _ => .wrote 7, .poll [⟨5, cevRead⟩],
        .half (.data []) noBackend fun _ => .eagain, .poll [⟨5, cevWrite⟩],
        .half .eagain noBackend fun _ => .eagain]
      [.quiet, .quiet, .handled 5 false, .quiet, .dispatched 5 [ascii "PING"], .quiet,
        .handled 5 true, .quiet, .handled 5 false, .quiet, .handled 5 true] .nobody := by
  have hend : (run Sys.step {} [.accept 5, .poll [⟨5, cevRead⟩],
      .half (.data (ascii "*1\r\n$4\r\nPING\r\n")) noBackend fun _ => .eagain, .pop,
      .process 0 noBackend fun _ => .eagain, .poll [⟨5, cevWrite⟩],
      .half .eagain noBackend fun _ => .wrote 7, .poll [⟨5, cevRead⟩],
      .half (.data []) noBackend fun _ => .eagain, .poll [⟨5, cevWrite⟩],
      .half .eagain noBackend fun _ => .eagain]).map (fun r => (r.2, r.1.holder 5)) =
        some ([.quiet, .quiet, .handled 5 false, .quiet, .dispatched 5 [ascii "PING"], .quiet,
          .handled 5 true, .quiet, .handled 5 false, .quiet, .handled 5 true], .nobody) := by
    decide
  obtain ⟨⟨s, os⟩, hrun, heq⟩ := Option.map_eq_some_iff.mp hend
  obtain ⟨rfl, hholder⟩ := Prod.mk.inj heq
  have hspec := @run_handoff 5 _ s _ (by decide) hrun
  rw [hholder] at hspec
  exact hspec

/-- In every run in which no read completes a request of the connection while its
CEV_WRITE is armed, the connection has one owner at a time. -/
theorem exclusive_ownership (fd : Nat) (labels : List Label)
    (h : Along Sys.step (Undisturbed fd) {} labels) :
    Along Sys.step (Exclusive fd) {} labels :=
  along_of_invariant (fun s => MaskInv s ∧ SlotInv s fd)
    (fun hinv hg hs => ⟨maskInv_step hinv.1 hs, slotInv_step hinv.1 hinv.2 hg hs⟩)
    (fun hinv _ => hinv.2.exclusive _) (inv_start fd) h

/-- One `PING` from the accept to the armed reply. -/
theorem exclusive_ownership_ping :
    Along Sys.step (Exclusive 5) {}
      [.accept 5, .poll [⟨5, cevRead⟩], .half (.data (ascii "*1\r\n$4\r\nPING\r\n")) noBackend
        fun _ => .eagain, .pop, .process 0 noBackend fun _ => .eagain, .poll [⟨5, cevWrite⟩],
        .half .eagain noBackend fun _ => .wrote 6] :=
  exclusive_ownership 5 _ (by decide)

/-- `*2`, then a good group and a bad one, then one more byte: the read handler
completes the request while the error reply is armed, the write half of the same
entry clears the record, and the worker pops an event without arguments. -/
theorem exclusive_ownership_lost :
    let labels := [.accept 5, .poll [⟨5, cevRead⟩],
      .half (.data (ascii "*2\r\n")) noBackend fun _ => .eagain,
      .poll [⟨5, cevRead⟩],
      .half (.data (ascii "$1\r\na\r\nX\r\n")) noBackend fun _ => .eagain,
      .poll [⟨5, cevRead.or cevWrite⟩],
      .half (.data (ascii "!")) noBackend fun _ => .eagain,
      .half .eagain noBackend fun _ => .wrote 30]
    ¬ Along Sys.step (Exclusive 5) {} labels ∧
      (run Sys.step {} (labels ++ [.pop])).map (fun r =>
        (r.1.held.map Fired.fd, (r.1.conns 5).map fun c => c.io.argv)) =
          some ([5], some none) := by
  decide

end ThrSocket
