import ThrSocket.Lib.BlockHeap
import ThrSocket.Server

/-!
The connection buffers as heap blocks. `io->rbuf` and `io->wbuf` are handles,
`cstr_ncat` may move the block it appends to, and no caller in network.c looks
at the handle it returns. Reading or writing through a handle whose block is
gone is undefined: the result is `none`. What `_response` and the parser
compute from the bytes of a buffer is taken from the model on byte strings.
-/

namespace ThrSocket
open CString

/-- The block behind a cstr: `len` and the `len - free` bytes in use. -/
structure CstrBlock where
  len : Nat
  data : Bytes
  fits : data.length ≤ len

abbrev CstrHeap := BlockHeap CstrBlock

namespace CstrBlock

def create (len : Nat) : CstrBlock := ⟨len, [], Nat.zero_le _⟩

def free (b : CstrBlock) : Nat := b.len - b.data.length

def extendLen (b : CstrBlock) (add : Nat) : Nat := (b.data.length + add) * 2 % 2 ^ 32

/-- The block with other bytes in use; no room for them is an error. -/
def store (b : CstrBlock) (data : Bytes) : Option CstrBlock :=
  if h : data.length ≤ b.len then some ⟨b.len, data, h⟩ else none

end CstrBlock

/-- `cstr_extend`. A new length that has wrapped around cuts the bytes in use short. -/
def cstrExtend (moves : Nat → Bool) (h : CstrHeap) (s add : Nat) : Option (CstrHeap × Nat) := do
  let b ← h.get s
  if b.free ≥ add then some (h, s)
  else
    let b' ← (CstrBlock.create (b.extendLen add)).store b.data
    h.realloc moves s b'

/-- `cstr_ncat`, with the handle it returns. -/
def cstrNcat (moves : Nat → Bool) (h : CstrHeap) (s : Nat) (bs : Bytes) :
    Option (CstrHeap × Nat) := do
  let (h, s) ← cstrExtend moves h s bs.length
  let b ← h.get s
  let b' ← b.store (b.data ++ bs)
  let h ← h.set s b'
  some (h, s)

/-- The bytes of a buffer replaced in place by no more of them: `cstr_clear`, `cstr_range`. -/
def cstrStore (h : CstrHeap) (s : Nat) (data : Bytes) : Option CstrHeap := do
  let b ← h.get s
  let b' ← b.store data
  h.set s b'

structure HConn where
  heap : CstrHeap
  io : Cio Nat
  evt : Cevent := {}
  trace : List Act := []

namespace HConn

def withBufs (c : HConn) (rbuf wbuf : Bytes) : Conn where
  io :=
    { toReq := c.io.toReq, mask := c.io.mask, rbuf := rbuf, wbuf := wbuf, wcount := c.io.wcount
      closeAfterWrite := c.io.closeAfterWrite }
  evt := c.evt
  trace := c.trace

def put (c : HConn) (v : Conn) : HConn where
  heap := c.heap
  io :=
    { toReq := v.io.toReq, mask := v.io.mask, rbuf := c.io.rbuf, wbuf := c.io.wbuf
      wcount := v.io.wcount, closeAfterWrite := v.io.closeAfterWrite }
  evt := v.evt
  trace := v.trace

def load (c : HConn) : Option Conn := do
  let r ← c.heap.get c.io.rbuf
  let w ← c.heap.get c.io.wbuf
  some (c.withBufs r.data w.data)

def addEvent (c : HConn) (mask : EvMask) (proc : EventProc) : HConn :=
  { c with evt := c.evt.add mask proc }

def delEvent (c : HConn) (mask : EvMask) : HConn := { c with evt := c.evt.del mask }

def cioClear (c : HConn) : Option HConn := do
  let heap ← cstrStore c.heap c.io.rbuf []
  let heap ← cstrStore heap c.io.wbuf []
  some
    { c with
      heap := heap
      io := { rbuf := c.io.rbuf, wbuf := c.io.wbuf }
      trace := c.trace ++ [.cioClear] }

def installReadEvent (c : HConn) : HConn := c.addEvent (cevRead.or cevPersist) .readEventProc

def cioCloseDestroyInstall (c : HConn) : HConn :=
  (c.addEvent (cevWrite.or cevPersist) .cioCloseDestroy).delEvent cevRead

def response (c : HConn) (w : Writes) : Option (HConn × Int) := do
  let persist := c.io.mask.persist
  let wbuf ← c.heap.get c.io.wbuf
  let (v, rs) := (c.withBufs [] wbuf.data).responseInner w
  let c := c.put v
  if !persist && rs == 1 then some (c.addEvent cevWrite .writeEventProc, rs)
  else
    let closing := c.io.closeAfterWrite
    let c ← c.cioClear
    if rs < 0 then some (c.cioCloseDestroyInstall, rs)
    else if closing then some (c.cioCloseDestroyInstall, 0)
    else if persist then some (c.installReadEvent.delEvent cevWrite, 0)
    else some (c.installReadEvent, 0)

def replyInner (c : HConn) (w : Writes) : Option (HConn × Int) :=
  if !c.io.mask.persist then c.response w else some (c.addEvent cevWrite .writeEventProc, 0)

/-- `cstr_ncat(io->wbuf, ..)`: the handle that comes back is not stored. -/
def append (moves : Nat → Bool) (c : HConn) (bs : Bytes) : Option HConn := do
  let (heap, _) ← cstrNcat moves c.heap c.io.wbuf bs
  some { c with heap := heap, io := { c.io with wcount := c.io.wcount + bs.length } }

def reply (moves : Nat → Bool) (c : HConn) (r : ReplyCall) (w : Writes) :
    Option (HConn × Int) := do
  let c ← r.appends.foldlM (append moves) c
  let res ← c.replyInner w
  match r with
  | .bulk _ => some (res.1, 0)
  | _ => some res

/-- `cstr_ncat(io->rbuf, ..)`: here, too, the handle is dropped. -/
def receive (moves : Nat → Bool) (c : HConn) (buf : Bytes) : Option HConn := do
  let (heap, _) ← cstrNcat moves c.heap c.io.rbuf buf
  some { c with heap := heap }

def tryProcessCommand (moves : Nat → Bool) (c : HConn) (w : Writes) : Option (HConn × Int) := do
  let rbuf ← c.heap.get c.io.rbuf
  let p := parseCommand c.io.toReq rbuf.data
  let heap ← cstrStore c.heap c.io.rbuf p.2.2
  let c := { c with heap := heap, io := { c.io with toReq := p.2.1 } }
  match p.1 with
  | .protocolError msg =>
      let res ← { c with io := { c.io with closeAfterWrite := true } }.reply moves (.str msg) w
      some (res.1, -1)
  | v => some (c, v.code)

def readProcess (moves : Nat → Bool) (c : HConn) (input : ReadOutcome) (w : Writes) :
    Option (HConn × Int) :=
  match input with
  | .eagain => some (c, 1)
  | .error => some (c, -1)
  | .data buf =>
      if buf.length = 0 then some (c, -1)
      else (c.receive moves buf).bind (·.tryProcessCommand moves w)

end HConn

def bufCap : Nat := 1024

def freshHConn (mask : EvMask) : HConn :=
  let (heap, rbuf) := BlockHeap.empty.alloc (CstrBlock.create bufCap)
  let (heap, wbuf) := heap.alloc (CstrBlock.create bufCap)
  ({ heap := heap, io := { rbuf := rbuf, wbuf := wbuf, mask := mask } } : HConn).installReadEvent

/-- What the code does to a connection: the calls that reach its buffers, and the
stores to other fields that read_event_proc, write_event_proc and process_commond
make around them. -/
inductive BufOp
  | readProcess (input : ReadOutcome) (w : Writes)
  | reply (r : ReplyCall) (w : Writes)
  | response (w : Writes)
  | setMask (mask : EvMask)
  | setArgv (argv : Argv)
  | setCloseAfterWrite

def Conn.bufStep (c : Conn) : BufOp → Conn
  | .readProcess input w => (c.readProcess input w).1
  | .reply r w => (c.reply r w).1
  | .response w => (c.response w).1
  | .setMask mask => c.setMask mask
  | .setArgv argv => c.setArgv argv
  | .setCloseAfterWrite => c.setProtocolError

def HConn.bufStep (moves : Nat → Bool) (c : HConn) : BufOp → Option HConn
  | .readProcess input w => (c.readProcess moves input w).map (·.1)
  | .reply r w => (c.reply moves r w).map (·.1)
  | .response w => (c.response w).map (·.1)
  | .setMask mask => some { c with io := { c.io with mask := mask } }
  | .setArgv argv => some { c with io := { c.io with argv := some argv } }
  | .setCloseAfterWrite => some { c with io := { c.io with closeAfterWrite := true } }

/-- The run touches no block that is gone, and before and after every operation
both handles name live blocks that hold what the byte strings hold. -/
def Live (moves : Nat → Bool) : HConn → Conn → List BufOp → Prop
  | h, c, [] => h.load = some c
  | h, c, op :: ops =>
      h.load = some c ∧ ∃ h', h.bufStep moves op = some h' ∧ Live moves h' (c.bufStep op) ops

/-- The appends of one operation stay within the length the buffers were created with. -/
def Conn.OpFits (c : Conn) : BufOp → Prop
  | .readProcess (.data buf) _ =>
      buf = [] ∨
        (c.io.rbuf.length + buf.length ≤ bufCap ∧
          match (parseCommand c.io.toReq (c.io.rbuf ++ buf)).1 with
          | .protocolError msg => c.io.wbuf.length + (view msg).length ≤ bufCap
          | _ => True)
  | .reply r _ => c.io.wbuf.length + r.appends.flatten.length ≤ bufCap
  | _ => True

def AllFit : Conn → List BufOp → Prop
  | _, [] => True
  | c, op :: ops => c.OpFits op ∧ AllFit (c.bufStep op) ops

end ThrSocket
