import ThrSocket.Lib.Machine
import ThrSocket.Server

/-!
The main loop and the workers over any number of connections. A poll takes a
snapshot of the fired events; its entries are handled half by half, first the
read half and then the write half, while workers pop and process what the read
halves push. A step that is undefined in the source has no successor. As in
Network, the buffers of the connections grow in place; ServerLive says when this
is what the server on heap blocks does.
-/

namespace ThrSocket

structure Fired where
  fd : Nat
  mask : EvMask
deriving DecidableEq, Repr

/-- One half of a fired entry that `cevents_poll` has still to handle. -/
structure Task where
  fd : Nat
  mask : EvMask
  write : Bool
deriving DecidableEq, Repr

def Task.key (t : Task) : Nat × Bool := (t.fd, t.write)

structure Sys where
  /-- the event slots in use, each with its connection -/
  conns : Nat → Option Conn := fun _ => none
  todo : List Task := []
  queue : List Fired := []
  /-- popped by a worker that has not replied yet -/
  held : List Fired := []

inductive Label
  | accept (fd : Nat)
  | poll (fired : List Fired)
  | half (input : ReadOutcome) (db : Backend) (w : Writes)
  | pop
  | process (k : Nat) (db : Backend) (w : Writes)

/-- What a step does to a connection, for the statements. -/
inductive Obs
  | quiet
  /-- a read or write half ran an event procedure of this connection -/
  | handled (fd : Nat) (write : Bool)
  /-- a worker called `process_commond` with these arguments -/
  | dispatched (fd : Nat) (argv : List Bytes)
deriving DecidableEq, Repr

/-- `fired->mask |= CEV_PERSIST`, then the halves of the entry in order. -/
def Fired.tasks (f : Fired) : List Task :=
  let mask := f.mask.or cevPersist
  (if f.mask.read then [⟨f.fd, mask, false⟩] else []) ++
    (if f.mask.write then [⟨f.fd, mask, true⟩] else [])

namespace Sys

/-- The halves of the snapshot that are left for a descriptor and a direction. -/
def tasksOf (s : Sys) (fd : Nat) (write : Bool) : Nat := (s.todo.map Task.key).count (fd, write)

def pending (s : Sys) (fd : Nat) : Nat := ((s.queue ++ s.held).map Fired.fd).count fd

def setConn (s : Sys) (fd : Nat) (c : Option Conn) : Sys :=
  { s with conns := Function.update s.conns fd c }

def ceventsPushFired (s : Sys) (f : Fired) : Sys := { s with queue := f :: s.queue }

/-- What `cevents_poll_impl` may return: armed events only, each direction of a
descriptor at most once. Every back end returns such a list. -/
def pollable (s : Sys) (fired : List Fired) : Bool :=
  (fired.all fun f =>
    match s.conns f.fd with
    | none => false
    | some c => (!f.mask.read || c.evt.mask.read) && (!f.mask.write || c.evt.mask.write)) &&
  decide ((fired.flatMap Fired.tasks).map Task.key).Nodup

def readHalf (s : Sys) (t : Task) (c : Conn) (input : ReadOutcome) (db : Backend) (w : Writes) :
    Option Sys :=
  match c.evt.readProc with
  | some .readEventProc =>
      match c.readEventProc t.mask input db w with
      | none => none
      | some (c, rs) =>
          if rs = 0 then
            some ((s.setConn t.fd (some (c.delEvent cevRead))).ceventsPushFired ⟨t.fd, t.mask⟩)
          else some (s.setConn t.fd (some c))
  | _ => none

def writeHalf (s : Sys) (t : Task) (c : Conn) (w : Writes) : Option Sys :=
  match c.evt.writeProc with
  | some .writeEventProc => some (s.setConn t.fd (some (c.writeEventProc t.mask w).1))
  | some .cioCloseDestroy => some (s.setConn t.fd none)
  | _ => none

/-- The next half of the snapshot. A closed slot is passed over; all others are
slots of connections with CEV_PERSIST. -/
def half (s : Sys) (input : ReadOutcome) (db : Backend) (w : Writes) : Option (Sys × Obs) :=
  match s.todo with
  | [] => none
  | t :: todo =>
      let s := { s with todo := todo }
      match s.conns t.fd with
      | none => some (s, .quiet)
      | some c =>
          if c.evt.mask = cevNone then some (s, .quiet)
          else if c.evt.mask.persist then
            (if t.write then s.writeHalf t c w else s.readHalf t c input db w).map
              fun s => (s, .handled t.fd t.write)
          else none

def process (s : Sys) (k : Nat) (db : Backend) (w : Writes) : Option (Sys × Obs) :=
  match s.held[k]? with
  | none => none
  | some f =>
      let s := { s with held := s.held.eraseIdx k }
      match s.conns f.fd with
      | none => none
      | some c =>
          if f.mask.persist then
            match (c.setMask f.mask).processCommond db w with
            | none => none
            | some (c', _) =>
                some (s.setConn f.fd (some c'),
                  .dispatched f.fd ((c.io.argv.map Argv.objs).getD []))
          else none

/-- `tcp_accept_event_proc` on a descriptor that is not in use. -/
def accept (s : Sys) (fd : Nat) : Option (Sys × Obs) :=
  match s.conns fd with
  | none => some (s.setConn fd (some (freshConn cevNone)), .quiet)
  | some _ => none

def poll (s : Sys) (fired : List Fired) : Option (Sys × Obs) :=
  if s.todo = [] ∧ s.pollable fired then
    some ({ s with todo := fired.flatMap Fired.tasks }, .quiet)
  else none

/-- `clist_rpop` of the queue that `clist_lpush` fills. -/
def pop (s : Sys) : Option (Sys × Obs) :=
  match s.queue.getLast? with
  | none => none
  | some f => some ({ s with queue := s.queue.dropLast, held := s.held ++ [f] }, .quiet)

def step (s : Sys) : Label → Option (Sys × Obs)
  | .accept fd => s.accept fd
  | .poll fired => s.poll fired
  | .half input db w => s.half input db w
  | .pop => s.pop
  | .process k db w => s.process k db w

theorem accept_cases {s s' : Sys} {o : Obs} {fd : Nat} (h : s.accept fd = some (s', o)) :
    s.conns fd = none ∧ s' = s.setConn fd (some (freshConn cevNone)) ∧ o = .quiet := by
  rw [accept] at h
  split at h
  · rename_i hnone
    cases h
    exact ⟨hnone, rfl, rfl⟩
  · cases h

theorem poll_cases {s s' : Sys} {o : Obs} {fired : List Fired} (h : s.poll fired = some (s', o)) :
    s.todo = [] ∧ s.pollable fired = true ∧
      s' = { s with todo := fired.flatMap Fired.tasks } ∧ o = .quiet := by
  rw [poll] at h
  split at h
  · rename_i hok
    cases h
    exact ⟨hok.1, hok.2, rfl, rfl⟩
  · cases h

theorem pop_cases {s s' : Sys} {o : Obs} (h : s.pop = some (s', o)) :
    ∃ q f, s.queue = q ++ [f] ∧ s' = { s with queue := q, held := s.held ++ [f] } ∧
      o = .quiet := by
  rw [pop] at h
  split at h
  · cases h
  · rename_i f hf
    cases h
    obtain ⟨q, hq⟩ := List.getLast?_eq_some_iff.mp hf
    exact ⟨q, f, hq, by rw [hq, List.dropLast_concat], rfl⟩

theorem process_cases {s s' : Sys} {o : Obs} {k : Nat} {db : Backend} {w : Writes}
    (h : s.process k db w = some (s', o)) :
    ∃ f c r, s.held[k]? = some f ∧ s.conns f.fd = some c ∧
      (c.setMask f.mask).processCommond db w = some r ∧
      s' = ({ s with held := s.held.eraseIdx k } : Sys).setConn f.fd (some r.1) ∧
      o = .dispatched f.fd ((c.io.argv.map Argv.objs).getD []) := by
  rw [process] at h
  split at h
  · cases h
  · rename_i f hf
    simp only at h
    split at h
    · cases h
    · rename_i c hc
      split at h
      · split at h
        · cases h
        · rename_i c' rs hr
          cases h
          exact ⟨f, c, _, hf, hc, hr, rfl, rfl⟩
      · cases h

theorem readHalf_cases {s s' : Sys} {t : Task} {c : Conn} {input : ReadOutcome} {db : Backend}
    {w : Writes} (h : s.readHalf t c input db w = some s') :
    ∃ r, c.readEventProc t.mask input db w = some r ∧
      (r.2 = 0 ∧ s' = (s.setConn t.fd (some (r.1.delEvent cevRead))).ceventsPushFired
          ⟨t.fd, t.mask⟩ ∨
        r.2 ≠ 0 ∧ s' = s.setConn t.fd (some r.1)) := by
  rw [readHalf] at h
  split at h
  · split at h
    · cases h
    · rename_i c' rs hr
      split at h
      · rename_i hrs
        cases h
        exact ⟨_, hr, .inl ⟨hrs, rfl⟩⟩
      · rename_i hrs
        cases h
        exact ⟨_, hr, .inr ⟨hrs, rfl⟩⟩
  · cases h

theorem writeHalf_cases {s s' : Sys} {t : Task} {c : Conn} {w : Writes}
    (h : s.writeHalf t c w = some s') :
    c.evt.writeProc = some .writeEventProc ∧
        s' = s.setConn t.fd (some (c.writeEventProc t.mask w).1) ∨
      c.evt.writeProc = some .cioCloseDestroy ∧ s' = s.setConn t.fd none := by
  rw [writeHalf] at h
  split at h
  · rename_i hproc
    cases h
    exact .inl ⟨hproc, rfl⟩
  · rename_i hproc
    cases h
    exact .inr ⟨hproc, rfl⟩
  · cases h

/-- The half of a slot that is not in use is passed over. -/
theorem half_cases {s s' : Sys} {o : Obs} {input : ReadOutcome} {db : Backend} {w : Writes}
    (h : s.half input db w = some (s', o)) :
    ∃ t todo, s.todo = t :: todo ∧
      (s' = { s with todo := todo } ∧ o = .quiet ∧
          (∀ c, s.conns t.fd = some c → c.evt.mask = cevNone) ∨
        ∃ c, s.conns t.fd = some c ∧ o = .handled t.fd t.write ∧
          (t.write = false ∧ ({ s with todo := todo } : Sys).readHalf t c input db w = some s' ∨
            t.write = true ∧ ({ s with todo := todo } : Sys).writeHalf t c w = some s')) := by
  rw [half] at h
  split at h
  · cases h
  · rename_i t todo htodo
    refine ⟨t, todo, htodo, ?_⟩
    simp only at h
    split at h
    · rename_i hnone
      cases h
      exact .inl ⟨rfl, rfl, fun c hc => by rw [show s.conns t.fd = none from hnone] at hc; cases hc⟩
    · rename_i c hc
      split at h
      · rename_i hmask
        cases h
        refine .inl ⟨rfl, rfl, fun c' hc' => ?_⟩
        obtain rfl := Option.some.inj (hc.symm.trans hc')
        exact hmask
      · split at h
        · obtain ⟨s'', hs'', heq⟩ := Option.map_eq_some_iff.mp h
          cases heq
          refine .inr ⟨c, hc, rfl, ?_⟩
          cases hw : t.write with
          | false =>
              rw [hw] at hs''
              exact .inl ⟨rfl, hs''⟩
          | true =>
              rw [hw] at hs''
              exact .inr ⟨rfl, hs''⟩
        · cases h

end Sys

end ThrSocket
