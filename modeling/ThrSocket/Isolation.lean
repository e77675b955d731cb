import ThrSocket.Ownership

/-!
One connection out of many. A descriptor sees of a run of the server only the
steps that are about it, and with those steps alone, in a server that has no
other connection, it goes through the same states and observations. The buffers
grow in place, as they do up to 1024 bytes; a buffer whose block was moved away
may share its memory with another connection.
-/

namespace ThrSocket
open CString Machine

namespace Sys

def only (fd : Nat) (s : Sys) : Sys where
  conns g := if g = fd then s.conns g else none
  todo := s.todo.filter (·.fd = fd)
  queue := s.queue.filter (·.fd = fd)
  held := s.held.filter (·.fd = fd)

/-- What is left of a step for `fd`, if the step is about it. A poll always is: it starts the
next round of the main loop. -/
def part (fd : Nat) (s : Sys) : Label → Option Label
  | .accept g => if g = fd then some (.accept g) else none
  | .poll fired => some (.poll (fired.filter (·.fd = fd)))
  | .half input db w =>
      s.todo.head?.bind fun t => if t.fd = fd then some (.half input db w) else none
  | .pop => s.queue.getLast?.bind fun f => if f.fd = fd then some .pop else none
  | .process k db w =>
      s.held[k]?.bind fun f =>
        if f.fd = fd then some (.process ((s.held.take k).filter (·.fd = fd)).length db w) else none

end Sys

def Obs.of (fd : Nat) (o : Obs) : Option Obs := if o.about = some fd then some o else none

namespace Sys

theorem only_conns (fd : Nat) (s : Sys) : (s.only fd).conns fd = s.conns fd := if_pos rfl

theorem only_start (fd : Nat) : ({} : Sys).only fd = {} := by
  simp [only]

theorem only_setConn_self (fd : Nat) (s : Sys) (c : Option Conn) :
    (s.setConn fd c).only fd = (s.only fd).setConn fd c := by
  have hconns : ((s.setConn fd c).only fd).conns = ((s.only fd).setConn fd c).conns := by
    funext g
    by_cases hg : g = fd
    · subst hg
      simp [only, setConn]
    · simp [only, setConn, hg]
  simp only [only, setConn, Sys.mk.injEq, and_true] at hconns ⊢
  exact hconns

theorem only_setConn_of_ne {fd g : Nat} (h : g ≠ fd) (s : Sys) (c : Option Conn) :
    (s.setConn g c).only fd = s.only fd := by
  simp only [only, setConn, Sys.mk.injEq, and_true]
  funext k
  by_cases hk : k = fd
  · subst hk
    rw [if_pos rfl, if_pos rfl, Function.update_of_ne (Ne.symm h)]
  · rw [if_neg hk, if_neg hk]

theorem only_pushFired_self {fd : Nat} {mask : EvMask} (s : Sys) :
    (s.ceventsPushFired ⟨fd, mask⟩).only fd = (s.only fd).ceventsPushFired ⟨fd, mask⟩ := by
  simp [only, ceventsPushFired]

theorem only_pushFired_of_ne {fd g : Nat} {mask : EvMask} (h : g ≠ fd) (s : Sys) :
    (s.ceventsPushFired ⟨g, mask⟩).only fd = s.only fd := by
  simp [only, ceventsPushFired, h]

theorem only_todo {fd : Nat} {s : Sys} {t : Task} {todo : List Task} (h : s.todo = t :: todo)
    (hfd : t.fd = fd) :
    (s.only fd).todo = t :: (({ s with todo := todo } : Sys).only fd).todo := by
  simp [only, h, hfd]

theorem only_todo_of_ne {fd : Nat} {s : Sys} {t : Task} {todo : List Task}
    (h : s.todo = t :: todo) (hfd : t.fd ≠ fd) :
    ({ s with todo := todo } : Sys).only fd = s.only fd := by
  simp [only, h, hfd]

theorem tasks_filter (fd : Nat) (f : Fired) :
    f.tasks.filter (fun t => t.fd = fd) = if f.fd = fd then f.tasks else [] := by
  by_cases h : f.fd = fd
  · rw [if_pos h, List.filter_eq_self]
    intro t ht
    rw [(mem_tasks ht).1, h]
    exact decide_eq_true rfl
  · rw [if_neg h, List.filter_eq_nil_iff]
    intro t ht
    rw [(mem_tasks ht).1]
    simpa using h

theorem flatMap_tasks_filter (fd : Nat) (fired : List Fired) :
    (fired.flatMap Fired.tasks).filter (fun t => t.fd = fd) =
      (fired.filter fun f => f.fd = fd).flatMap Fired.tasks := by
  induction fired with
  | nil => rfl
  | cons f fired ih =>
      rw [List.flatMap_cons, List.filter_append, ih, tasks_filter, List.filter_cons]
      by_cases h : f.fd = fd
      · simp [h]
      · simp [h]

/-- A poll of the whole server is a poll of the part. -/
theorem pollable_only {fd : Nat} {s : Sys} {fired : List Fired} (h : s.pollable fired = true) :
    (s.only fd).pollable (fired.filter fun f => f.fd = fd) = true := by
  simp only [pollable, Bool.and_eq_true, List.all_eq_true, decide_eq_true_eq] at h ⊢
  obtain ⟨harmed, hnodup⟩ := h
  constructor
  · intro f hf
    obtain ⟨hmem, hfd⟩ := List.mem_filter.mp hf
    have hfd : f.fd = fd := of_decide_eq_true hfd
    have hconn : (s.only fd).conns f.fd = s.conns f.fd := by rw [hfd, only_conns]
    rw [hconn]
    exact harmed f hmem
  · rw [← flatMap_tasks_filter]
    exact hnodup.sublist (List.filter_sublist.map Task.key)

/-- Where the event of a list is among those of its descriptor. -/
theorem filter_getElem {held : List Fired} {k : Nat} {f : Fired} (h : held[k]? = some f)
    {fd : Nat} (hfd : f.fd = fd) :
    (held.filter (·.fd = fd))[((held.take k).filter (·.fd = fd)).length]? = some f ∧
      (held.filter (·.fd = fd)).eraseIdx ((held.take k).filter (·.fd = fd)).length =
        (held.eraseIdx k).filter (·.fd = fd) := by
  obtain ⟨hk, hget⟩ := List.getElem?_eq_some_iff.mp h
  have hsplit : held = held.take k ++ f :: held.drop (k + 1) := by
    rw [← hget, List.getElem_cons_drop, List.take_append_drop]
  have hfilter : held.filter (·.fd = fd) = (held.take k).filter (·.fd = fd) ++
      f :: (held.drop (k + 1)).filter (·.fd = fd) := by
    conv_lhs => rw [hsplit]
    simp [hfd]
  rw [hfilter, List.eraseIdx_eq_take_drop_succ held, List.filter_append]
  constructor
  · simp
  · rw [List.eraseIdx_append_of_length_le (Nat.le_refl _), Nat.sub_self, List.eraseIdx_cons_zero]

theorem filter_eraseIdx_of_ne {held : List Fired} {k : Nat} {f : Fired} (h : held[k]? = some f)
    {fd : Nat} (hfd : f.fd ≠ fd) :
    (held.eraseIdx k).filter (·.fd = fd) = held.filter (·.fd = fd) := by
  obtain ⟨hk, hget⟩ := List.getElem?_eq_some_iff.mp h
  have hsplit : held = held.take k ++ f :: held.drop (k + 1) := by
    rw [← hget, List.getElem_cons_drop, List.take_append_drop]
  conv_rhs => rw [hsplit]
  rw [List.eraseIdx_eq_take_drop_succ held, List.filter_append, List.filter_append]
  simp [hfd]

/-- A step that is not about `fd` leaves its part of the server alone. -/
theorem step_skips {fd : Nat} {s t : Sys} {l : Label} {o : Obs} (hpart : s.part fd l = none)
    (hs : s.step l = some (t, o)) : t.only fd = s.only fd ∧ o.of fd = none := by
  cases l with
  | accept g =>
      obtain ⟨_, rfl, rfl⟩ := accept_cases hs
      have hg : g ≠ fd := by
        intro hg
        rw [part, if_pos hg] at hpart
        cases hpart
      exact ⟨only_setConn_of_ne hg s _, rfl⟩
  | poll fired => cases hpart
  | half input db w =>
      obtain ⟨task, todo, htodo, hcase⟩ := half_cases hs
      have hfd : task.fd ≠ fd := by
        intro hfd
        simp [part, htodo, hfd] at hpart
      have hrest := only_todo_of_ne htodo hfd
      have hother : ∀ write, (Obs.handled task.fd write).of fd = none :=
        fun write => if_neg fun h => hfd (Option.some.inj h)
      obtain ⟨rfl, rfl, _⟩ | ⟨c, hc, rfl, ⟨_, hs⟩ | ⟨_, hs⟩⟩ := hcase
      · exact ⟨hrest, rfl⟩
      · obtain ⟨r, _, ⟨_, rfl⟩ | ⟨_, rfl⟩⟩ := readHalf_cases hs
        · refine ⟨?_, hother _⟩
          rw [only_pushFired_of_ne hfd, only_setConn_of_ne hfd, hrest]
        · exact ⟨(only_setConn_of_ne hfd _ _).trans hrest, hother _⟩
      · obtain ⟨_, rfl⟩ | ⟨_, rfl⟩ := writeHalf_cases hs
        · exact ⟨(only_setConn_of_ne hfd _ _).trans hrest, hother _⟩
        · exact ⟨(only_setConn_of_ne hfd _ _).trans hrest, hother _⟩
  | pop =>
      obtain ⟨q, f, hq, rfl, rfl⟩ := pop_cases hs
      have hfd : f.fd ≠ fd := by
        intro hfd
        simp [part, hq, hfd] at hpart
      exact ⟨by simp [only, hq, hfd], rfl⟩
  | process k db w =>
      obtain ⟨f, c, r, hf, hc, hproc, rfl, rfl⟩ := process_cases hs
      have hfd : f.fd ≠ fd := by
        intro hfd
        simp [part, hf, hfd] at hpart
      constructor
      · rw [only_setConn_of_ne hfd]
        simp [only, filter_eraseIdx_of_ne hf hfd]
      · exact if_neg fun h => hfd (Option.some.inj h)

/-- Both halves do the same to the part. -/
theorem readHalf_only (s : Sys) (t : Task) (c : Conn) (input : ReadOutcome) (db : Backend)
    (w : Writes) :
    (s.only t.fd).readHalf t c input db w =
      (s.readHalf t c input db w).map (Sys.only t.fd) := by
  rw [readHalf, readHalf]
  cases c.evt.readProc with
  | none => rfl
  | some proc =>
      cases proc with
      | readEventProc =>
          cases c.readEventProc t.mask input db w with
          | none => rfl
          | some r =>
              simp only
              split
              · rw [Option.map_some, only_pushFired_self, only_setConn_self]
              · rw [Option.map_some, only_setConn_self]
      | writeEventProc => rfl
      | cioCloseDestroy => rfl
      | tcpAcceptEventProc => rfl

theorem writeHalf_only (s : Sys) (t : Task) (c : Conn) (w : Writes) :
    (s.only t.fd).writeHalf t c w = (s.writeHalf t c w).map (Sys.only t.fd) := by
  rw [writeHalf, writeHalf]
  cases c.evt.writeProc with
  | none => rfl
  | some proc =>
      cases proc with
      | readEventProc => rfl
      | writeEventProc => exact congrArg some (only_setConn_self ..).symm
      | cioCloseDestroy => exact congrArg some (only_setConn_self ..).symm
      | tcpAcceptEventProc => rfl

theorem half_only {s : Sys} {t : Task} {todo : List Task} {input : ReadOutcome} {db : Backend}
    {w : Writes} (htodo : s.todo = t :: todo) :
    (s.only t.fd).half input db w =
      (s.half input db w).map fun r => (r.1.only t.fd, r.2) := by
  have hpart := only_todo htodo rfl
  have hconn := only_conns t.fd s
  rw [half, hpart, half, htodo]
  simp only [hconn]
  cases s.conns t.fd with
  | none => rfl
  | some c =>
      simp only
      split
      · rfl
      · split
        · have hread := readHalf_only { s with todo := todo } t c input db w
          have hwrite := writeHalf_only { s with todo := todo } t c w
          split
          · apply (congrArg (Option.map _) hwrite).trans
            rw [Option.map_map, Option.map_map]
            rfl
          · apply (congrArg (Option.map _) hread).trans
            rw [Option.map_map, Option.map_map]
            rfl
        · rfl

theorem process_only {s : Sys} {k : Nat} {f : Fired} {db : Backend} {w : Writes}
    (hf : s.held[k]? = some f) :
    (s.only f.fd).process ((s.held.take k).filter (·.fd = f.fd)).length db w =
      (s.process k db w).map fun r => (r.1.only f.fd, r.2) := by
  obtain ⟨hget, herase⟩ := filter_getElem hf rfl
  have hpart : (s.only f.fd).held[((s.held.take k).filter (·.fd = f.fd)).length]? = some f := hget
  have hrest : ({ s.only f.fd with
      held := (s.only f.fd).held.eraseIdx ((s.held.take k).filter (·.fd = f.fd)).length } : Sys) =
      ({ s with held := s.held.eraseIdx k } : Sys).only f.fd := by
    simp only [only, herase]
  rw [process, hpart, process, hf]
  simp only [hrest, only_conns]
  cases s.conns f.fd with
  | none => rfl
  | some c =>
      simp only
      split
      · cases (c.setMask f.mask).processCommond db w with
        | none => rfl
        | some r => simp only [Option.map_some, only_setConn_self]
      · rfl

/-- A step about `fd` is a step of its part, with the same observation. -/
theorem step_takes {fd : Nat} {s t : Sys} {l m : Label} {o : Obs} (hpart : s.part fd l = some m)
    (hs : s.step l = some (t, o)) : (s.only fd).step m = some (t.only fd, o) := by
  cases l with
  | accept g =>
      obtain ⟨hnone, rfl, rfl⟩ := accept_cases hs
      by_cases hg : g = fd
      · subst hg
        rw [part, if_pos rfl] at hpart
        cases hpart
        rw [only_setConn_self, step, accept, only_conns, hnone]
      · rw [part, if_neg hg] at hpart
        cases hpart
  | poll fired =>
      obtain ⟨htodo, hpoll, rfl, rfl⟩ := poll_cases hs
      cases hpart
      have hidle : (s.only fd).todo = [] := by rw [only, htodo, List.filter_nil]
      rw [step, poll, if_pos ⟨hidle, pollable_only hpoll⟩]
      simp only [only, flatMap_tasks_filter]
  | half input db w =>
      obtain ⟨task, todo, htodo, _⟩ := half_cases hs
      by_cases hfd : task.fd = fd
      · subst hfd
        simp only [part, htodo, List.head?_cons, Option.bind_some, if_pos] at hpart
        cases hpart
        rw [step, half_only htodo]
        rw [step] at hs
        rw [hs, Option.map_some]
      · simp [part, htodo, hfd] at hpart
  | pop =>
      obtain ⟨q, f, hq, rfl, rfl⟩ := pop_cases hs
      by_cases hfd : f.fd = fd
      · subst hfd
        simp only [part, hq, List.getLast?_concat, Option.bind_some, if_pos] at hpart
        cases hpart
        have hqueue : (s.only f.fd).queue = q.filter (·.fd = f.fd) ++ [f] := by
          simp [only, hq]
        rw [step, pop, hqueue, List.getLast?_concat]
        simp [only]
      · simp [part, hq, hfd] at hpart
  | process k db w =>
      obtain ⟨f, c, r, hf, hc, hproc, rfl, rfl⟩ := process_cases hs
      by_cases hfd : f.fd = fd
      · subst hfd
        simp only [part, hf, Option.bind_some, if_pos] at hpart
        cases hpart
        rw [step, process_only hf]
        rw [step] at hs
        rw [hs, Option.map_some]
      · simp [part, hf, hfd] at hpart

end Sys

/-- Other connections change nothing for a connection: with its own steps alone, in a server
that has no other, it goes through the same states, on the same data, to the same observations,
and has the same bytes on the wire. -/
theorem connection_isolated (fd : Nat) (labels : List Label) (t : Sys) (os : List Obs)
    (hrun : run Sys.step {} labels = some (t, os)) :
    ∃ os', run Sys.step {} (project Sys.step (Sys.part fd) {} labels) = some (t.only fd, os') ∧
      os'.filterMap (Obs.of fd) = os.filterMap (Obs.of fd) := by
  have halone : ∃ os', run Sys.step (({} : Sys).only fd)
      (project Sys.step (Sys.part fd) {} labels) = some (t.only fd, os') ∧
        os'.filterMap (Obs.of fd) = os.filterMap (Obs.of fd) :=
    run_project (Sys.only fd) (fun hpart hs => Sys.step_skips hpart hs)
      (fun hpart hs => ⟨_, Sys.step_takes hpart hs, rfl⟩) hrun
  rw [Sys.only_start] at halone
  exact halone

/-- A `PING` and a connection that is closed meanwhile. -/
theorem connection_isolated_ping :
    ∃ (t : Sys) (os : List Obs), run Sys.step {}
        [.accept 5, .poll [⟨5, cevRead⟩],
          .half (.data (ascii "*1\r\n$4\r\nPING\r\n")) noBackend fun _ => .eagain, .poll [],
          .poll [], .pop, .process 0 noBackend fun _ => .eagain] = some (t, os) ∧
      os.filterMap (Obs.of 5) = [.handled 5 false, .dispatched 5 [ascii "PING"]] :=
  have h := connection_isolated 5
    [.accept 5, .accept 7, .poll [⟨7, cevRead⟩, ⟨5, cevRead⟩],
      .half (.data []) noBackend (fun _ => .eagain),
      .half (.data (ascii "*1\r\n$4\r\nPING\r\n")) noBackend (fun _ => .eagain),
      .poll [⟨7, cevWrite⟩], .half .eagain noBackend (fun _ => .eagain), .poll [], .pop,
      .process 0 noBackend fun _ => .eagain] _ _ rfl
  ⟨_, h.choose, h.choose_spec.1, h.choose_spec.2.trans rfl⟩

end ThrSocket
