import ThrSocket.CstrMem
import ThrSocket.Network
import ThrSocket.ParserMem

/-!
A connection whose two buffers are raw memory, extended in place: behind the bytes in use
they keep whatever was there before. The functions of cio.c and network.c on it, with the
parser on memory, are undefined where an access leaves a buffer or an int overflows.
-/

namespace ThrSocket
open ByteMem

def ReqMem.objs (r : ReqMem) : Option (List Bytes) :=
  let slots := (r.argv.getD []).take r.argc
  if slots.length = r.argc then slots.mapM id else none

structure CioMem where
  req : ReqMem := {}
  mask : EvMask := cevNone
  rbuf : CstrMem
  wbuf : CstrMem
  wcount : Nat := 0
  /-- the IOF_CLOSE_AFTER_WRITE bit of `flag` -/
  closeAfterWrite : Bool := false

namespace CioMem

/-- `fresh k` is what the `k`-th block holds when it is allocated. -/
def create (fresh : Nat → Nat → UInt8) : Option CioMem := do
  let rbuf ← CstrMem.cstrCreate (fresh 0) 1024
  let wbuf ← CstrMem.cstrCreate (fresh 1) 1024
  some { rbuf := rbuf, wbuf := wbuf }

def clear (io : CioMem) : Option CioMem := do
  let rbuf ← io.rbuf.cstrClear
  let wbuf ← io.wbuf.cstrClear
  let _ ← io.req.objs
  some
    { io with
      rbuf := rbuf
      wbuf := wbuf
      mask := cevNone
      req := { reqtype := .normal, argc := 0, nbulk := 0, bulkLen := 0, argv := none }
      closeAfterWrite := false
      wcount := 0 }

end CioMem

structure ConnMem where
  io : CioMem
  evt : Cevent := {}
  trace : List Act := []

def sizeToInt (n : Nat) : Option Nat := if n < 2 ^ 31 then some n else none

namespace ConnMem

def addEvent (c : ConnMem) (mask : EvMask) (proc : EventProc) : ConnMem :=
  { c with evt := c.evt.add mask proc }

def delEvent (c : ConnMem) (mask : EvMask) : ConnMem := { c with evt := c.evt.del mask }

def cioClear (c : ConnMem) : Option ConnMem := do
  let io ← c.io.clear
  some { c with io := io, trace := c.trace ++ [.cioClear] }

def installReadEvent (c : ConnMem) : ConnMem := c.addEvent (cevRead.or cevPersist) .readEventProc

def setProtocolError (c : ConnMem) : ConnMem :=
  { c with io := { c.io with closeAfterWrite := true } }

def cioCloseDestroyInstall (c : ConnMem) : ConnMem :=
  (c.addEvent (cevWrite.or cevPersist) .cioCloseDestroy).delEvent cevRead

def unsent (c : ConnMem) : Option Bytes := do
  let start ← sizeSub c.io.wbuf.used c.io.wcount
  read c.io.wbuf.buf start c.io.wcount

def writeSome (c : ConnMem) (n : Nat) : Option ConnMem := do
  let bs ← c.unsent
  let nwrite := min n c.io.wcount
  some
    { c with
      io := { c.io with wcount := c.io.wcount - nwrite }
      trace := c.trace ++ [.wrote (bs.take nwrite)] }

/-- The loop of `_response`; every round writes at least one byte. -/
def responseLoop (w : Writes) : Nat → Nat → ConnMem → Option (ConnMem × Int)
  | 0, _, c => some (c, 0)
  | fuel + 1, k, c =>
      if c.io.wcount > 0 then
        match w k with
        | .eagain => some ({ c with trace := c.trace ++ [.eagain] }, 1)
        | .error => some ({ c with trace := c.trace ++ [.writeError] }, -1)
        | .wrote n => (c.writeSome (n + 1)).bind (responseLoop w fuel (k + 1))
      else some (c, 0)

def responseInner (c : ConnMem) (w : Writes) : Option (ConnMem × Int) :=
  responseLoop w c.io.wcount 0 c

def response (c : ConnMem) (w : Writes) : Option (ConnMem × Int) := do
  let persist := c.io.mask.persist
  let (c, rs) ← c.responseInner w
  if !persist && rs == 1 then some (c.addEvent cevWrite .writeEventProc, rs)
  else if rs < 0 then c.cioClear.map fun c => (c.cioCloseDestroyInstall, rs)
  else if c.io.closeAfterWrite then c.cioClear.map fun c => (c.cioCloseDestroyInstall, 0)
  else
    let c ← c.cioClear
    some (if persist then (c.installReadEvent.delEvent cevWrite, 0) else (c.installReadEvent, 0))

def writeEventProc (c : ConnMem) (mask : EvMask) (w : Writes) : Option (ConnMem × Int) :=
  response { c with io := { c.io with mask := mask } } w

def replyInner (c : ConnMem) (w : Writes) : Option (ConnMem × Int) :=
  if !c.io.mask.persist then c.response w else some (c.addEvent cevWrite .writeEventProc, 0)

def append (fresh : Nat → UInt8) (c : ConnMem) (bs : Bytes) : Option ConnMem := do
  let wbuf ← c.io.wbuf.cstrNcat fresh bs
  let wcount ← sizeToInt (c.io.wcount + bs.length)
  some { c with io := { c.io with wbuf := wbuf, wcount := wcount } }

def appendAll (fresh : Nat → Nat → UInt8) : Nat → List Bytes → ConnMem → Option ConnMem
  | _, [], c => some c
  | k, bs :: rest, c => (c.append (fresh k) bs).bind (appendAll fresh (k + 1) rest)

def reply (fresh : Nat → Nat → UInt8) (c : ConnMem) (r : ReplyCall) (w : Writes) :
    Option (ConnMem × Int) := do
  let c ← appendAll fresh 0 r.appends c
  let res ← c.replyInner w
  match r with
  | .bulk _ => some (res.1, 0)
  | _ => some res

def receive (fresh : Nat → Nat → UInt8) (c : ConnMem) (buf : Bytes) : Option ConnMem := do
  let rbuf ← c.io.rbuf.cstrNcat (fresh 0) buf
  some { c with io := { c.io with rbuf := rbuf } }

/-- `cstr_range(io->rbuf, pos + io->bulk_len, -1)`, if the parser cuts the buffer. -/
def cutRbuf (rbuf : CstrMem) : Option Nat → Option CstrMem
  | none => some rbuf
  | some n => do
      let begin ← sizeToInt n
      rbuf.cstrRange (Int32.ofNat begin) (-1)

def tryProcessCommand (fresh : Nat → Nat → UInt8) (c : ConnMem) (w : Writes) :
    Option (ConnMem × Int) := do
  let (v, req, trim) ← parseCommandMem c.io.rbuf.buf c.io.rbuf.used c.io.req
  let rbuf ← cutRbuf c.io.rbuf trim
  let c := { c with io := { c.io with req := req, rbuf := rbuf } }
  match v with
  | .protocolError msg => (c.setProtocolError.reply fresh (.str msg) w).map fun res => (res.1, -1)
  | v => some (c, v.code)

end ConnMem

namespace ConnMem

/-- What is left to write is the end of the content. -/
theorem unsent_eq {c : ConnMem} {s : Bytes} (h : c.io.wbuf.Shows s)
    (hfits : c.io.wcount ≤ s.length) : c.unsent = some (s.drop (s.length - c.io.wcount)) := by
  obtain ⟨t, heq⟩ := h.content
  have hstart : sizeSub c.io.wbuf.used c.io.wcount = some (s.length - c.io.wcount) := by
    rw [h.used]
    exact if_pos hfits
  have hlen : (s.take (s.length - c.io.wcount)).length = s.length - c.io.wcount := by
    rw [List.length_take]
    omega
  have hleft : (s.drop (s.length - c.io.wcount)).length = c.io.wcount := by
    rw [List.length_drop]
    omega
  rw [unsent, hstart, Option.bind_eq_bind, Option.bind_some, ← heq]
  have hread := read_middle (s.take (s.length - c.io.wcount)) (s.drop (s.length - c.io.wcount)) t
  rwa [hlen, hleft, ← List.append_assoc, List.take_append_drop] at hread

end ConnMem

/-- What is done to a connection: bytes appended to `rbuf`, calls of the parser and of the reply
functions, write events that may write a part only, the mask of a read event, `cio_clear`. -/
inductive ConnOp
  | receive (buf : Bytes)
  | tryProcessCommand (w : Writes)
  | reply (r : ReplyCall) (w : Writes)
  | writeEventProc (mask : EvMask) (w : Writes)
  | setMask (mask : EvMask)
  | cioClear

structure ConnCall where
  op : ConnOp
  fresh : Nat → Nat → UInt8

/-- What a call shows: the value returned, the objects, the bytes that are left to write, the
events asked for, and what has gone to the socket. -/
structure Seen where
  ret : Int
  argv : List Bytes
  unsent : Bytes
  evt : Cevent
  trace : List Act
deriving DecidableEq

namespace ConnMem

def call (c : ConnMem) (k : ConnCall) : Option (ConnMem × Int) :=
  match k.op with
  | .receive buf => (c.receive k.fresh buf).map (·, 0)
  | .tryProcessCommand w => c.tryProcessCommand k.fresh w
  | .reply r w => c.reply k.fresh r w
  | .writeEventProc mask w => c.writeEventProc mask w
  | .setMask mask => some ({ c with io := { c.io with mask := mask } }, 0)
  | .cioClear => c.cioClear.map (·, 0)

def seen (c : ConnMem) (ret : Int) : Option Seen := do
  let argv ← c.io.req.objs
  let unsent ← c.unsent
  some ⟨ret, argv, unsent, c.evt, c.trace⟩

def step (c : ConnMem) (k : ConnCall) : Option (ConnMem × Seen) := do
  let (c, ret) ← c.call k
  let seen ← c.seen ret
  some (c, seen)

end ConnMem

namespace Conn

def call (c : Conn) : ConnOp → Conn × Int
  | .receive buf => (c.receive buf, 0)
  | .tryProcessCommand w => c.tryProcessCommand w
  | .reply r w => c.reply r w
  | .writeEventProc mask w => c.writeEventProc mask w
  | .setMask mask => ({ c with io := { c.io with mask := mask } }, 0)
  | .cioClear => (c.cioClear, 0)

def seen (c : Conn) (ret : Int) : Seen where
  ret := ret
  argv := (c.io.argv.map Argv.objs).getD []
  unsent := c.io.wbuf.drop (c.io.wbuf.length - c.io.wcount)
  evt := c.evt
  trace := c.trace

def step (c : Conn) (op : ConnOp) : Conn × Seen := ((c.call op).1, (c.call op).1.seen (c.call op).2)

end Conn

end ThrSocket
