import ThrSocket.ArgvAccess
import ThrSocket.InsertCommand

/-!
Rows and the lock. `thrs_lock_tables` may return NULL, which `insert_command` does
not look at: the rows are then written without a lock, and `thrs_unlock_table`
goes wrong on the NULL before it has committed or rolled back.
-/

namespace ThrSocket
open CString

namespace Access

end Access

section

variable {held : Bool} {trace rest : List Access}

end

namespace Handler

open Traced

variable {env : HandlerEnv} {ctx ctx' : DbCtx} {argv : List Bytes} {tab : Table} {seq : Seq}
  {filenum : Int}

end Handler

end ThrSocket
