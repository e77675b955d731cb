import ThrSocket.Cio

/-!
The request parser of network.c on the bytes of `io->rbuf`. An error return is
a verdict that carries the reply text, so that the parser is one function of
the parser fields and the buffer; sending the reply is left to the caller.
-/

namespace ThrSocket
open CString

def maxCommandLenLimit : Nat := 0x10240

inductive Verdict
  | complete
  | needMore
  /-- `set_protocol_error`, then `reply_str` of this text -/
  | protocolError (msg : Bytes)
  | noInput
deriving DecidableEq, Repr

def Verdict.code : Verdict → Int
  | .complete => 0
  | .needMore => 1
  | .protocolError _ => -1
  | .noInput => -1

def msgUnknownProtocol : Bytes := ascii "-ERR: unknown protocol\r\n"
def msgLimit : Bytes := ascii "-ERR reach the max command recv limit\r\n"
def msgNumberOfBulk : Bytes := ascii "-ERR: error number of bulk \r\n"
def msgUnknowProtocol : Bytes := ascii "-ERR unknow protocol\r\n"
def msgBulkLength : Bytes := ascii "-ERR: error bulk length \r\n"

def errorMessages : List Bytes :=
  [msgUnknownProtocol, msgLimit, msgNumberOfBulk, msgUnknowProtocol, msgBulkLength]

/-- No line end in the rest of the buffer: wait for more, up to the limit. -/
def lineMissing (rbuf : Bytes) : Verdict :=
  if rbuf.length > maxCommandLenLimit then .protocolError msgLimit else .needMore

def bulkCountLine (rbuf : Bytes) : Except Verdict (Nat × Nat) :=
  if rbuf.getD 0 0 ≠ 42 then .error (.protocolError msgUnknownProtocol)
  else
    match strstr crlf rbuf with
    | none => .error (lineMissing rbuf)
    | some ptr =>
        match str2ll (rbuf.drop 1) (ptr - 1) with
        | none => .error (.protocolError msgNumberOfBulk)
        | some len =>
            if len > 1024 ∨ len ≤ 0 then .error (.protocolError msgNumberOfBulk)
            else .ok (len.toNat, ptr + 2)

def bulkLenLine (rbuf : Bytes) (pos : Nat) : Except Verdict (Nat × Nat) :=
  match strstr crlf (rbuf.drop pos) with
  | none => .error (lineMissing rbuf)
  | some ptr =>
      if rbuf.getD pos 0 ≠ 36 then .error (.protocolError msgUnknowProtocol)
      else
        match str2ll (rbuf.drop (pos + 1)) (ptr - 1) with
        | none => .error (.protocolError msgBulkLength)
        | some len =>
            if len > maxCommandLenLimit ∨ len ≤ 0 then .error (.protocolError msgBulkLength)
            else .ok (len.toNat, pos + ptr + 2)

/-- The state in which `while(io->nbulk)` is left. -/
structure LoopExit where
  verdict : Verdict
  nbulk : Nat
  bulkLen : Nat
  pos : Nat
  argv : Option Argv

def bulkLoop (rbuf : Bytes) : Nat → Nat → Nat → Option Argv → LoopExit
  | 0, bulkLen, pos, argv => ⟨.complete, 0, bulkLen, pos, argv⟩
  | nbulk + 1, bulkLen, pos, argv =>
      match (if bulkLen = 0 then bulkLenLine rbuf pos else .ok (bulkLen, pos)) with
      | .error v => ⟨v, nbulk + 1, bulkLen, pos, argv⟩
      | .ok (bulkLen, pos) =>
          if rbuf.length - pos < bulkLen + 2 then ⟨.needMore, nbulk + 1, bulkLen, pos, argv⟩
          else
            bulkLoop rbuf nbulk 0 (pos + bulkLen + 2)
              (argv.map (·.push ((rbuf.drop pos).take bulkLen)))

/-- What the fields and the buffer are after the loop. Only the exit with
`ret = 1` trims the buffer. -/
def LoopExit.finish (x : LoopExit) (r : Req) (rbuf : Bytes) : Verdict × Req × Bytes :=
  (x.verdict, { r with nbulk := x.nbulk, bulkLen := x.bulkLen, argv := x.argv },
    if x.verdict = .needMore then cstrRange rbuf (x.pos + x.bulkLen : Nat) (-1) else rbuf)

def parseMultibluk (r : Req) (rbuf : Bytes) : Verdict × Req × Bytes :=
  if r.nbulk = 0 then
    match bulkCountLine rbuf with
    | .error v => (v, r, rbuf)
    | .ok (n, pos) => (bulkLoop rbuf n r.bulkLen pos (some ⟨n, []⟩)).finish r rbuf
  else (bulkLoop rbuf r.nbulk r.bulkLen 0 r.argv).finish r rbuf

/-- The inline branch: the whole buffer is split at single spaces and the last
piece loses its final two bytes. -/
def parseInline (r : Req) (rbuf : Bytes) : Verdict × Req × Bytes :=
  if rbuf.length > maxCommandLenLimit then (.protocolError msgLimit, r, rbuf)
  else
    match strstr crlf rbuf with
    | none => (.needMore, r, rbuf)
    | some _ =>
        let argv := cstrSplit rbuf (ascii " ")
        let argv := argv.dropLast ++ (argv.getLast?.map (cstrRange · 0 (-2))).toList
        (.complete, { r with argv := some ⟨argv.length, argv⟩ }, rbuf)

def parseCommand (r : Req) (rbuf : Bytes) : Verdict × Req × Bytes :=
  if rbuf.length = 0 then (.noInput, r, rbuf)
  else if r.reqtype = .mbulk ∨ rbuf.getD 0 0 = 42 then
    parseMultibluk { r with reqtype := .mbulk } rbuf
  else parseInline r rbuf

theorem parseMultibluk_reqtype (r : Req) (rbuf : Bytes) :
    (parseMultibluk r rbuf).2.1.reqtype = r.reqtype := by
  rw [parseMultibluk]
  split
  · split <;> rfl
  · rfl

def Verdict.Stopped (v : Verdict) : Prop :=
  v = .needMore ∨ ∃ msg ∈ errorMessages, v = .protocolError msg

theorem stopped_of_mem {msg : Bytes} (h : msg ∈ errorMessages) :
    (Verdict.protocolError msg).Stopped := .inr ⟨msg, h, rfl⟩

theorem lineMissing_stopped (rbuf : Bytes) : (lineMissing rbuf).Stopped := by
  rw [lineMissing]
  split
  · exact stopped_of_mem (by decide)
  · exact .inl rfl

theorem bulkCountLine_error {rbuf : Bytes} {v : Verdict} (h : bulkCountLine rbuf = .error v) :
    v.Stopped := by
  rw [bulkCountLine] at h
  split at h
  · cases h; exact stopped_of_mem (by decide)
  · split at h
    · cases h; exact lineMissing_stopped rbuf
    · split at h
      · cases h; exact stopped_of_mem (by decide)
      · split at h
        · cases h; exact stopped_of_mem (by decide)
        · cases h

theorem bulkLenLine_error {rbuf : Bytes} {pos : Nat} {v : Verdict}
    (h : bulkLenLine rbuf pos = .error v) : v.Stopped := by
  rw [bulkLenLine] at h
  split at h
  · cases h; exact lineMissing_stopped rbuf
  · split at h
    · cases h; exact stopped_of_mem (by decide)
    · split at h
      · cases h; exact stopped_of_mem (by decide)
      · split at h
        · cases h; exact stopped_of_mem (by decide)
        · cases h

end ThrSocket
