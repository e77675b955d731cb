import ThrSocket.Lib.Machine
import ThrSocket.Response
import ThrSocket.Chunking
import ThrSocket.ProtocolError
import ThrSocket.Persistent
import ThrSocket.Pipelining
import ThrSocket.LiveBuffers
import ThrSocket.DictMap
import ThrSocket.DictLoad
import ThrSocket.DictDelete
import ThrSocket.DictWalk
import ThrSocket.InsertCommand
import ThrSocket.CthreadTasks
import ThrSocket.MainLoop
import ThrSocket.CthreadExit
import ThrSocket.Jmalloc
import ThrSocket.ErrorReply
import ThrSocket.ArgvAccess
import ThrSocket.SeqColumns
import ThrSocket.RowLocks
import ThrSocket.OpenTables
import ThrSocket.LockTables
import ThrSocket.WorkerTables
import ThrSocket.InlineRequest
import ThrSocket.FieldNames
import ThrSocket.IndexLookup
import ThrSocket.FiredQueue
import ThrSocket.EventDispatch
import ThrSocket.NumberText
import ThrSocket.CstrSlices
import ThrSocket.ClistWalk
import ThrSocket.JmallocBlocks
import ThrSocket.SplitAccess
import ThrSocket.CstrMem
import ThrSocket.ParserMem
import ThrSocket.CioMem
import ThrSocket.ClearedCio
import ThrSocket.EventBounds
import ThrSocket.EventStart
import ThrSocket.DictRepresentation
import ThrSocket.DictExpand
import ThrSocket.WriteCursor
import ThrSocket.SharedQueue
import ThrSocket.ObjRef
import ThrSocket.Log
import ThrSocket.CommandTable
import ThrSocket.DictOwnership
import ThrSocket.Transcript
import ThrSocket.Isolation
import ThrSocket.Dialogue
import ThrSocket.PollRounds
import ThrSocket.ServerTable
import ThrSocket.ServerHeap
import ThrSocket.HandlerBlocks
import ThrSocket.ServerLive
