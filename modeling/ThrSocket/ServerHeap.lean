import ThrSocket.LiveBuffers
import ThrSocket.System

/-!
The server with the buffers of all connections as blocks of one heap. A handler
works on that heap through the two handles of its record, `cio_create` allocates
both blocks and `cio_destroy` releases them. As in ConnHeap the use of a handle
whose block is gone is undefined, to release it included.
-/

namespace ThrSocket
open CString

def cstrDestroy (h : CstrHeap) (s : Nat) : Option CstrHeap := (h.get s).map fun _ => h.free s

namespace HConn

def setMask (c : HConn) (mask : EvMask) : HConn := { c with io := { c.io with mask := mask } }

def setArgv (c : HConn) (argv : Argv) : HConn := { c with io := { c.io with argv := some argv } }

def setProtocolError (c : HConn) : HConn := { c with io := { c.io with closeAfterWrite := true } }

def processCommond (moves : Nat → Bool) (c : HConn) (db : Backend) (w : Writes) :
    Option (HConn × Int) :=
  match c.io.argv with
  | none => none
  | some ⟨_, []⟩ => none
  | some ⟨cap, name :: args⟩ =>
      if cstrTolower (view name) = ascii "quit" then
        (c.setProtocolError.reply moves (.obj (.str sharedOk)) w).map fun p => (p.1, 0)
      else
        let lower := cstrTolower name
        let c := c.setArgv ⟨cap, lower :: args⟩
        match commands.find? fun cmd => cmd.name = lower with
        | some cmd =>
            if cmd.argsErr (args.length + 1) then c.reply moves (.str (wrongArguments lower)) w
            else (c.reply moves (cmd.call.reply db (lower :: args)) w).map fun p => (p.1, 0)
        | none => c.reply moves (.str (unknownCommand lower)) w

def readEventProc (moves : Nat → Bool) (c : HConn) (mask : EvMask) (input : ReadOutcome)
    (db : Backend) (w : Writes) : Option (HConn × Int) := do
  let persist := mask.persist
  let (c, rs) ← (c.setMask mask).readProcess moves input w
  if !persist && rs == 1 then some (c.installReadEvent, 1)
  else if rs < 0 then
    if c.io.closeAfterWrite then some (c, rs) else some (c.cioCloseDestroyInstall, rs)
  else if !persist then ((c.setMask mask).processCommond moves db w).map fun p => (p.1, rs)
  else some (c, rs)

def writeEventProc (c : HConn) (mask : EvMask) (w : Writes) : Option (HConn × Int) :=
  (c.setMask mask).response w

def cioCreate (heap : CstrHeap) : HConn :=
  let (heap, rbuf) := heap.alloc (CstrBlock.create bufCap)
  let (heap, wbuf) := heap.alloc (CstrBlock.create bufCap)
  { heap := heap, io := { rbuf := rbuf, wbuf := wbuf } }

def cioDestroy (c : HConn) : Option CstrHeap := do
  let heap ← cstrDestroy c.heap c.io.rbuf
  cstrDestroy heap c.io.wbuf

end HConn

/-- A record and its slot, beside the heap. -/
structure HSlot where
  io : Cio Nat
  evt : Cevent
  trace : List Act

structure HeapSys where
  heap : CstrHeap := BlockHeap.empty
  slots : Nat → Option HSlot := fun _ => none
  todo : List Task := []
  queue : List Fired := []
  held : List Fired := []

namespace HeapSys

def conn (s : HeapSys) (c : HSlot) : HConn := ⟨s.heap, c.io, c.evt, c.trace⟩

def setConn (s : HeapSys) (fd : Nat) (c : HConn) : HeapSys :=
  { s with
    heap := c.heap
    slots := Function.update s.slots fd (some ⟨c.io, c.evt, c.trace⟩) }

def closeConn (s : HeapSys) (fd : Nat) (heap : CstrHeap) : HeapSys :=
  { s with heap := heap, slots := Function.update s.slots fd none }

def ceventsPushFired (s : HeapSys) (f : Fired) : HeapSys := { s with queue := f :: s.queue }

def pollable (s : HeapSys) (fired : List Fired) : Bool :=
  (fired.all fun f =>
    match s.slots f.fd with
    | none => false
    | some c => (!f.mask.read || c.evt.mask.read) && (!f.mask.write || c.evt.mask.write)) &&
  decide ((fired.flatMap Fired.tasks).map Task.key).Nodup

section

variable (moves : Nat → Bool)

def readHalf (s : HeapSys) (t : Task) (c : HSlot) (input : ReadOutcome) (db : Backend)
    (w : Writes) : Option HeapSys :=
  match c.evt.readProc with
  | some .readEventProc =>
      match (s.conn c).readEventProc moves t.mask input db w with
      | none => none
      | some (c, rs) =>
          if rs = 0 then
            some ((s.setConn t.fd (c.delEvent cevRead)).ceventsPushFired ⟨t.fd, t.mask⟩)
          else some (s.setConn t.fd c)
  | _ => none

def writeHalf (s : HeapSys) (t : Task) (c : HSlot) (w : Writes) : Option HeapSys :=
  match c.evt.writeProc with
  | some .writeEventProc =>
      ((s.conn c).writeEventProc t.mask w).map fun p => s.setConn t.fd p.1
  | some .cioCloseDestroy => (s.conn c).cioDestroy.map fun heap => s.closeConn t.fd heap
  | _ => none

def half (s : HeapSys) (input : ReadOutcome) (db : Backend) (w : Writes) :
    Option (HeapSys × Obs) :=
  match s.todo with
  | [] => none
  | t :: todo =>
      let s := { s with todo := todo }
      match s.slots t.fd with
      | none => some (s, .quiet)
      | some c =>
          if c.evt.mask = cevNone then some (s, .quiet)
          else if c.evt.mask.persist then
            (if t.write then s.writeHalf t c w else s.readHalf moves t c input db w).map
              fun s => (s, .handled t.fd t.write)
          else none

def process (s : HeapSys) (k : Nat) (db : Backend) (w : Writes) : Option (HeapSys × Obs) :=
  match s.held[k]? with
  | none => none
  | some f =>
      let s := { s with held := s.held.eraseIdx k }
      match s.slots f.fd with
      | none => none
      | some c =>
          if f.mask.persist then
            match ((s.conn c).setMask f.mask).processCommond moves db w with
            | none => none
            | some (c', _) =>
                some (s.setConn f.fd c', .dispatched f.fd ((c.io.argv.map Argv.objs).getD []))
          else none

def accept (s : HeapSys) (fd : Nat) : Option (HeapSys × Obs) :=
  match s.slots fd with
  | none => some (s.setConn fd (HConn.cioCreate s.heap).installReadEvent, .quiet)
  | some _ => none

def poll (s : HeapSys) (fired : List Fired) : Option (HeapSys × Obs) :=
  if s.todo = [] ∧ s.pollable fired then
    some ({ s with todo := fired.flatMap Fired.tasks }, .quiet)
  else none

def pop (s : HeapSys) : Option (HeapSys × Obs) :=
  match s.queue.getLast? with
  | none => none
  | some f => some ({ s with queue := s.queue.dropLast, held := s.held ++ [f] }, .quiet)

def step (s : HeapSys) : Label → Option (HeapSys × Obs)
  | .accept fd => s.accept fd
  | .poll fired => s.poll fired
  | .half input db w => s.half moves input db w
  | .pop => s.pop
  | .process k db w => s.process moves k db w

end

end HeapSys

end ThrSocket
