import ThrSocket.Cstr

/-!
The connection record of cio.h. The two buffers are a parameter: they are byte
strings where only their content matters, and heap handles in the model of the
allocation. The peer's address and the table index, which nothing below reads,
are left out.
-/

namespace ThrSocket

/-- CEV_READ, CEV_WRITE and CEV_PERSIST; CEV_NONE is the empty mask. -/
structure EvMask where
  read : Bool := false
  write : Bool := false
  persist : Bool := false
deriving DecidableEq, Repr

def cevNone : EvMask := {}
def cevRead : EvMask := { read := true }
def cevWrite : EvMask := { write := true }
def cevPersist : EvMask := { persist := true }

def EvMask.or (m n : EvMask) : EvMask :=
  ⟨m.read || n.read, m.write || n.write, m.persist || n.persist⟩

def EvMask.without (m n : EvMask) : EvMask :=
  ⟨m.read && !n.read, m.write && !n.write, m.persist && !n.persist⟩

inductive ReqType
  | normal
  | mbulk
deriving DecidableEq, Repr

/-- An allocated argument array: its slots and the objects stored so far, in
order. The slots behind them hold nothing that is read. -/
structure Argv where
  cap : Nat
  objs : List Bytes
deriving DecidableEq, Repr

def Argv.push (a : Argv) (s : Bytes) : Argv := { a with objs := a.objs ++ [s] }

structure Req where
  nbulk : Nat := 0
  bulkLen : Nat := 0
  reqtype : ReqType := .normal
  argv : Option Argv := none
deriving DecidableEq, Repr

def Req.argc (r : Req) : Nat :=
  match r.argv with
  | none => 0
  | some a => a.objs.length

structure Cio (β : Type) extends Req where
  mask : EvMask := cevNone
  rbuf : β
  wbuf : β
  wcount : Nat := 0
  /-- the IOF_CLOSE_AFTER_WRITE bit of `flag` -/
  closeAfterWrite : Bool := false
deriving DecidableEq, Repr

def cioCreate : Cio Bytes := { rbuf := [], wbuf := [] }

def Cio.clear (io : Cio Bytes) : Cio Bytes :=
  { io with
    rbuf := [], wbuf := []
    mask := cevNone
    reqtype := .normal
    nbulk := 0
    bulkLen := 0
    argv := none
    closeAfterWrite := false
    wcount := 0 }

@[simp] theorem Cio.clear_eq (io : Cio Bytes) : io.clear = cioCreate := rfl

end ThrSocket
