import ThrSocket.Network

/-!
The command table of thr_socket_svr.c, `process_commond`, and the read handler
of network.c that leads to it. What `insert` and `get` reply depends on the
data base behind them and is a parameter. A use of `argv[0]` where there is
none is undefined: the result is `none`.
-/

namespace ThrSocket
open CString

inductive Symbolic
  | eq
  | gt
  | lt
  | ge
  | le
deriving DecidableEq, Repr

inductive Call
  | pong
  | insertCommand
  | getCommand
deriving DecidableEq, Repr

structure Command where
  name : Bytes
  call : Call
  symbolic : Symbolic
  argc : Int

def commands : List Command :=
  [⟨ascii "ping", .pong, .eq, 1⟩, ⟨ascii "insert", .insertCommand, .ge, 5⟩,
    ⟨ascii "get", .getCommand, .ge, 6⟩]

def Command.argsErr (cmd : Command) (argc : Nat) : Bool :=
  cmd.argc ≥ 0 &&
    match cmd.symbolic with
    | .eq => cmd.argc != argc
    | .lt => cmd.argc ≤ argc
    | .gt => cmd.argc ≥ argc
    | .le => cmd.argc < argc
    | .ge => cmd.argc > argc

/-- The replies of the two commands that work on tables. -/
structure Backend where
  insertCommand : List Bytes → ReplyCall
  getCommand : List Bytes → ReplyCall

def sharedOk : Bytes := ascii "+OK\r\n"
def sharedPong : Bytes := ascii "+PONG\r\n"

def Call.reply (db : Backend) (argv : List Bytes) : Call → ReplyCall
  | .pong => .cstr sharedPong
  | .insertCommand => db.insertCommand argv
  | .getCommand => db.getCommand argv

/-- `snprintf` of a text around `argv[0]` into the 1024 bytes of `buf`. -/
def formatName (before name after : Bytes) : Bytes := (before ++ view name ++ after).take 1023

def unknownCommand (name : Bytes) : Bytes :=
  formatName (ascii "-ERR unknown command '") name (ascii "'\r\n")

def wrongArguments (name : Bytes) : Bytes :=
  formatName (ascii "-ERR wrong number arguments for command '") name (ascii "'\r\n")

namespace Conn

def setMask (c : Conn) (mask : EvMask) : Conn := { c with io := { c.io with mask := mask } }

def setArgv (c : Conn) (argv : Argv) : Conn := { c with io := { c.io with argv := some argv } }

def processCommond (c : Conn) (db : Backend) (w : Writes) : Option (Conn × Int) :=
  match c.io.argv with
  | none => none
  | some ⟨_, []⟩ => none
  | some ⟨cap, name :: args⟩ =>
      if cstrTolower (view name) = ascii "quit" then
        some (({ c with io := { c.io with closeAfterWrite := true } }.replyObj
          (.str sharedOk) w).1, 0)
      else
        let lower := cstrTolower name
        let c := c.setArgv ⟨cap, lower :: args⟩
        match commands.find? fun cmd => cmd.name = lower with
        | some cmd =>
            if cmd.argsErr (args.length + 1) then some (c.replyStr (wrongArguments lower) w)
            else some ((c.reply (cmd.call.reply db (lower :: args)) w).1, 0)
        | none => some (c.replyStr (unknownCommand lower) w)

def readEventProc (c : Conn) (mask : EvMask) (input : ReadOutcome) (db : Backend) (w : Writes) :
    Option (Conn × Int) :=
  let persist := mask.persist
  let (c, rs) := (c.setMask mask).readProcess input w
  if !persist && rs == 1 then some (c.installReadEvent, 1)
  else if rs < 0 then
    if c.io.closeAfterWrite then some (c, rs) else some (c.cioCloseDestroyInstall, rs)
  else if !persist then ((c.setMask mask).processCommond db w).map fun p => (p.1, rs)
  else some (c, rs)

end Conn

end ThrSocket
