import ThrSocket.RequestParser

/-!
One connection as network.c sees it: the cio, its slot in the event table and,
for the statements only, a trace of what the socket and the record went
through. The outcome of the k-th `write` of a call is an input. The two buffers
are byte strings that grow in place. This is so while no append takes one beyond
the 1024 bytes it was created with, or where `jrealloc` extends blocks in place;
ConnHeap has the buffers as blocks that may move.
-/

namespace ThrSocket
open CString

inductive EventProc
  | readEventProc
  | writeEventProc
  | cioCloseDestroy
  | tcpAcceptEventProc
deriving DecidableEq, Repr

/-- A slot of `cevts->events`. Its private pointer is the cio of the connection. -/
structure Cevent where
  mask : EvMask := cevNone
  readProc : Option EventProc := none
  writeProc : Option EventProc := none
deriving DecidableEq, Repr

def Cevent.add (evt : Cevent) (mask : EvMask) (proc : EventProc) : Cevent where
  mask := evt.mask.or mask
  readProc := if mask.read then some proc else evt.readProc
  writeProc := if mask.write then some proc else evt.writeProc

def Cevent.del (evt : Cevent) (mask : EvMask) : Cevent :=
  if evt.mask = cevNone then evt else { evt with mask := evt.mask.without mask }

inductive Act
  | wrote (bs : Bytes)
  | eagain
  | writeError
  | cioClear
deriving DecidableEq, Repr

structure Conn where
  io : Cio Bytes
  evt : Cevent := {}
  trace : List Act := []
deriving DecidableEq, Repr

/-- An outcome of `write`: `n + 1` bytes or as many as were asked for, EAGAIN,
or another error. -/
inductive WriteOutcome
  | wrote (n : Nat)
  | eagain
  | error
deriving DecidableEq, Repr

abbrev Writes := Nat → WriteOutcome

namespace Conn

def addEvent (c : Conn) (mask : EvMask) (proc : EventProc) : Conn :=
  { c with evt := c.evt.add mask proc }

def delEvent (c : Conn) (mask : EvMask) : Conn := { c with evt := c.evt.del mask }

def cioClear (c : Conn) : Conn := { c with io := c.io.clear, trace := c.trace ++ [.cioClear] }

def installReadEvent (c : Conn) : Conn := c.addEvent (cevRead.or cevPersist) .readEventProc

def setProtocolError (c : Conn) : Conn := { c with io := { c.io with closeAfterWrite := true } }

def cioCloseDestroyInstall (c : Conn) : Conn :=
  (c.addEvent (cevWrite.or cevPersist) .cioCloseDestroy).delEvent cevRead

def writeSome (c : Conn) (n : Nat) : Conn :=
  let total := c.io.wbuf.length
  let nwrite := min n c.io.wcount
  { c with
    io := { c.io with wcount := c.io.wcount - nwrite }
    trace := c.trace ++ [.wrote ((c.io.wbuf.drop (total - c.io.wcount)).take nwrite)] }

/-- The loop of `_response`; every round writes at least one byte. -/
def responseLoop (w : Writes) : Nat → Nat → Conn → Conn × Int
  | 0, _, c => (c, 0)
  | fuel + 1, k, c =>
      if c.io.wcount > 0 then
        match w k with
        | .eagain => ({ c with trace := c.trace ++ [.eagain] }, 1)
        | .error => ({ c with trace := c.trace ++ [.writeError] }, -1)
        | .wrote n => responseLoop w fuel (k + 1) (c.writeSome (n + 1))
      else (c, 0)

def responseInner (c : Conn) (w : Writes) : Conn × Int := responseLoop w c.io.wcount 0 c

def response (c : Conn) (w : Writes) : Conn × Int :=
  let persist := c.io.mask.persist
  let (c, rs) := c.responseInner w
  if !persist && rs == 1 then (c.addEvent cevWrite .writeEventProc, rs)
  else if rs < 0 then (c.cioClear.cioCloseDestroyInstall, rs)
  else if c.io.closeAfterWrite then (c.cioClear.cioCloseDestroyInstall, 0)
  else
    let c := c.cioClear
    if persist then (c.installReadEvent.delEvent cevWrite, 0) else (c.installReadEvent, 0)

def writeEventProc (c : Conn) (mask : EvMask) (w : Writes) : Conn × Int :=
  response { c with io := { c.io with mask := mask } } w

def replyInner (c : Conn) (w : Writes) : Conn × Int :=
  if !c.io.mask.persist then c.response w else (c.addEvent cevWrite .writeEventProc, 0)

end Conn

inductive Obj
  | str (s : Bytes)
  | dict
deriving DecidableEq, Repr

def replyPrefixLen (c : UInt8) (l : Int) : Bytes :=
  c :: (view (lltostr l 63).2 ++ crlf)

def replyObjBytes : Obj → List Bytes
  | .str s => [s]
  | .dict => []

def objUsed : Obj → Nat
  | .str s => s.length
  | .dict => 0

inductive ReplyCall
  | str (buf : Bytes)
  | obj (o : Obj)
  | len (l : Int)
  | cstr (s : Bytes)
  | bulk (o : Obj)
  | err (e : Bytes)
deriving DecidableEq, Repr

/-- The strings a reply function appends to `io->wbuf`, one per `cstr_ncat`. -/
def ReplyCall.appends : ReplyCall → List Bytes
  | .str buf => [view buf]
  | .obj o => replyObjBytes o
  | .len l => [replyPrefixLen 58 l]
  | .cstr s => [s]
  | .bulk o => replyPrefixLen 36 (objUsed o) :: (replyObjBytes o ++ [view crlf])
  | .err e => [(ascii "-ERR " ++ view e ++ crlf).take 1023]

namespace Conn

def append (c : Conn) (bs : Bytes) : Conn :=
  { c with io := { c.io with wbuf := c.io.wbuf ++ bs, wcount := c.io.wcount + bs.length } }

def reply (c : Conn) (r : ReplyCall) (w : Writes) : Conn × Int :=
  let res := (r.appends.foldl append c).replyInner w
  match r with
  | .bulk _ => (res.1, 0)
  | _ => res

def replyStr (c : Conn) (buf : Bytes) (w : Writes) : Conn × Int := c.reply (.str buf) w
def replyObj (c : Conn) (o : Obj) (w : Writes) : Conn × Int := c.reply (.obj o) w
def replyLen (c : Conn) (l : Int) (w : Writes) : Conn × Int := c.reply (.len l) w
def replyCstr (c : Conn) (s : Bytes) (w : Writes) : Conn × Int := c.reply (.cstr s) w
def replyBulk (c : Conn) (o : Obj) (w : Writes) : Conn × Int := c.reply (.bulk o) w
def replyErr (c : Conn) (e : Bytes) (w : Writes) : Conn × Int := c.reply (.err e) w

def receive (c : Conn) (buf : Bytes) : Conn :=
  { c with io := { c.io with rbuf := c.io.rbuf ++ buf } }

def setParsed (c : Conn) (r : Req) (rbuf : Bytes) : Conn :=
  { c with io := { c.io with toReq := r, rbuf := rbuf } }

/-- The caller's part of a parser verdict: an error sends its reply. -/
def endParse (c : Conn) (p : Verdict × Req × Bytes) (w : Writes) : Conn × Int :=
  let c := c.setParsed p.2.1 p.2.2
  match p.1 with
  | .protocolError msg => ((c.setProtocolError.replyStr msg w).1, -1)
  | v => (c, v.code)

def tryProcessMultiblukCommand (c : Conn) (w : Writes) : Conn × Int :=
  c.endParse (parseMultibluk c.io.toReq c.io.rbuf) w

def tryProcessCommand (c : Conn) (w : Writes) : Conn × Int :=
  c.endParse (parseCommand c.io.toReq c.io.rbuf) w

end Conn

/-- An outcome of `read`; no data is the end of the stream. -/
inductive ReadOutcome
  | data (bs : Bytes)
  | eagain
  | error
deriving DecidableEq, Repr

def readBufSize : Nat := 2048

def Conn.readProcess (c : Conn) (input : ReadOutcome) (w : Writes) : Conn × Int :=
  match input with
  | .eagain => (c, 1)
  | .error => (c, -1)
  | .data buf =>
      if buf.length = 0 then (c, -1) else (c.receive buf).tryProcessCommand w

def freshConn (mask : EvMask) : Conn :=
  ({ io := { cioCreate with mask := mask } } : Conn).installReadEvent

end ThrSocket
