import ThrSocket.Dict
import ThrSocket.Server

/-!
`insert_command` of thr_socket.cpp with the functions of thrs_handler.cpp under
it. The data base is a parameter: which tables open, whether the lock is given,
and how each `ha_write_row` of the request ends. Its calls are kept as a trace.
The loops over `ctx->opentabs` that collect the tables to lock and to release
are left out. A use of an argument, a column or an element of `seq` that is not
there, a store behind the end of `seq`, and the release of a lock that is NULL,
are undefined: the result is `none`.
-/

namespace ThrSocket
open CString

structure Table where
  fields : List Bytes
  foundNextNumberField : Bool
deriving DecidableEq

abbrev Row := List (Nat × Bytes)

/-- What a call of `ha_write_row` returns and leaves in `insert_id_for_cur_row`. -/
structure RowResult where
  r : Int
  insertId : UInt64
deriving DecidableEq

structure Mysql where
  openTable : Bytes → Bytes → Option Table
  lockTables : Bool
  /-- the k-th `ha_write_row` of a request -/
  writeRow : Nat → RowResult

inductive DbCall
  | openTable (db tab : Bytes)
  | lockTables
  | writeRow (row : Row) (result : RowResult)
  /-- the call of `thrs_unlock_table` with its last argument -/
  | unlockTable (rollback : Int)
  | rollbackStmt
  | commitStmt
  | unlockTables
  | closeTables
deriving DecidableEq

/-- `dict_generic_hash`; a `char` is signed. -/
def dictGenericHash (buf : Bytes) : UInt32 :=
  buf.foldl (fun hash c => hash * 33 + if c < 128 then c.toUInt32 else c.toUInt32 - 256) 5381

def opentabsKeyCompare (k1 k2 : Bytes) : Bool := k1.length == k2.length && k1 == k2

def opentabsOpts : DictOpts Bytes Table where
  hash := dictGenericHash
  keyDup := some id
  keyCompare := some opentabsKeyCompare

structure DbCtx where
  opentabs : Dict Bytes Table := dictCreate

def getTableKey (db tab : Bytes) : Bytes := db ++ ascii "." ++ tab

def openTable (mysql : Mysql) (ctx : DbCtx) (argv : List Bytes) :
    Option (DbCtx × List DbCall × Option Table) := do
  let db ← argv[1]?
  let tab ← argv[2]?
  let (opentabs, entry) ← dictFind opentabsOpts ctx.opentabs (getTableKey db tab)
  match entry with
  | some entry => some ({ ctx with opentabs := opentabs }, [], some entry.value)
  | none =>
      match mysql.openTable db tab with
      | none => some ({ ctx with opentabs := opentabs }, [.openTable db tab], none)
      | some table => do
          let (opentabs, _) ← dictAdd opentabsOpts opentabs (getTableKey db tab) table
          some ({ ctx with opentabs := opentabs }, [.openTable db tab], some table)

inductive OpenRun (mysql : Mysql) (ctx : DbCtx) (argv : List Bytes) :
    DbCtx → List DbCall → Option Table → Prop
  | hit {db tab : Bytes} {d : Dict Bytes Table} {e : DictEntry Bytes Table}
      (hdb : argv[1]? = some db) (htab : argv[2]? = some tab)
      (hfind : dictFind opentabsOpts ctx.opentabs (getTableKey db tab) = some (d, some e)) :
      OpenRun mysql ctx argv ⟨d⟩ [] (some e.value)
  | refused {db tab : Bytes} {d : Dict Bytes Table}
      (hdb : argv[1]? = some db) (htab : argv[2]? = some tab)
      (hfind : dictFind opentabsOpts ctx.opentabs (getTableKey db tab) = some (d, none))
      (hopen : mysql.openTable db tab = none) :
      OpenRun mysql ctx argv ⟨d⟩ [.openTable db tab] none
  | opened {db tab : Bytes} {d d' : Dict Bytes Table} {table : Table} {rs : Int}
      (hdb : argv[1]? = some db) (htab : argv[2]? = some tab)
      (hfind : dictFind opentabsOpts ctx.opentabs (getTableKey db tab) = some (d, none))
      (hopen : mysql.openTable db tab = some table)
      (hadd : dictAdd opentabsOpts d (getTableKey db tab) table = some (d', rs)) :
      OpenRun mysql ctx argv ⟨d'⟩ [.openTable db tab] (some table)

theorem openTable_run {mysql : Mysql} {ctx ctx' : DbCtx} {argv : List Bytes} {calls : List DbCall}
    {r : Option Table} (h : openTable mysql ctx argv = some (ctx', calls, r)) :
    OpenRun mysql ctx argv ctx' calls r := by
  rw [openTable] at h
  obtain ⟨db, hdb, h⟩ := Option.bind_eq_some_iff.mp h
  obtain ⟨tab, htab, h⟩ := Option.bind_eq_some_iff.mp h
  obtain ⟨⟨d, entry⟩, hfind, h⟩ := Option.bind_eq_some_iff.mp h
  cases entry with
  | some e =>
      cases h
      exact .hit hdb htab hfind
  | none =>
      simp only at h
      cases hopen : mysql.openTable db tab with
      | none =>
          rw [hopen] at h
          cases h
          exact .refused hdb htab hfind hopen
      | some table =>
          rw [hopen] at h
          obtain ⟨⟨d', rs⟩, hadd, h⟩ := Option.bind_eq_some_iff.mp h
          cases h
          exact .opened hdb htab hfind hopen hadd

def thrsCloseTable (ctx : DbCtx) : DbCtx := { ctx with opentabs := dictClear ctx.opentabs }

/-- The local `int seq[1024]`, nothing of which is set at first. -/
abbrev Seq := List (Option Nat)

def seqSize : Nat := 1024

def uninitSeq : Seq := List.replicate seqSize none

def sizeofSeq : Nat := seqSize * 4

/-- `memcmp(field_name, field, cstr_used(field)) == 0`. What is in memory behind the NUL of a
column name is left out: a `field` that reaches behind it is taken not to match. -/
def fieldMatches (name field : Bytes) : Bool := field.isPrefixOf (name ++ [0])

def parseFieldsLoop (table : Table) : List Bytes → Nat → Seq → Option (Bool × Seq)
  | [], _, result => some (true, result)
  | field :: fields, i, result =>
      match table.fields.findIdx? (fieldMatches · field) with
      | none => some (false, result)
      | some j =>
          if i < result.length then parseFieldsLoop table fields (i + 1) (result.set i (some j))
          else none

def thrsParseFields (table : Table) (fieldstr : Bytes) (result : Seq) (len : Nat) :
    Option (Int × Seq) :=
  let fields := cstrSplit fieldstr (ascii ",")
  if len ≤ fields.length then some (-1, result)
  else do
    let (ok, result) ← parseFieldsLoop table fields 0 result
    some (if ok then fields.length else -1, result)

def storeFields (table : Table) : List Bytes → Seq → Option Row
  | [], _ => some []
  | _ :: _, [] => none
  | field :: fields, fn :: seq => do
      let fn ← fn
      if fn < table.fields.length then
        let row ← storeFields table fields seq
        some ((fn, field) :: row)
      else none

/-- `min(fieldnum, seqlen)`; a negative `seqlen` is huge as a `size_t`. -/
def storeCount (fieldnum : Nat) (seqlen : Int) : Nat :=
  if seqlen < 0 then fieldnum else min fieldnum seqlen.toNat

def thrsInsertInner (table : Table) (fields : List Bytes) (seq : Seq) (seqlen : Int)
    (result : RowResult) : Option (Row × UInt64) := do
  let row ← storeFields table (fields.take (storeCount fields.length seqlen)) seq
  some (row,
    if result.r = 0 ∧ table.foundNextNumberField then result.insertId
    else if result.r ≠ 0 then 1
    else 0)

/-- An `unsigned long long` stored in an `int`. -/
def toInt (n : UInt64) : Int := Int.bmod n.toNat (2 ^ 32)

def insertRows (mysql : Mysql) (tab : Table) (seq : Seq) (filenum : Int) :
    List Bytes → Nat → Int → Option (List DbCall × Int)
  | [], _, rs => some ([], rs)
  | val :: rows, k, _ => do
      let (row, id) ←
        thrsInsertInner tab (cstrSplit val (ascii ",")) seq filenum (mysql.writeRow k)
      let rs := toInt id
      if rs ≠ 0 then some ([.writeRow row (mysql.writeRow k)], rs)
      else
        let (calls, rs) ← insertRows mysql tab seq filenum rows (k + 1) rs
        some (.writeRow row (mysql.writeRow k) :: calls, rs)

theorem insertRows_cons (mysql : Mysql) (tab : Table) (seq : Seq) (filenum : Int) (val : Bytes)
    (rows : List Bytes) (k : Nat) (rs₀ : Int) :
    insertRows mysql tab seq filenum (val :: rows) k rs₀ =
      (thrsInsertInner tab (cstrSplit val (ascii ",")) seq filenum (mysql.writeRow k)).bind fun p =>
        if toInt p.2 ≠ 0 then some ([.writeRow p.1 (mysql.writeRow k)], toInt p.2)
        else (insertRows mysql tab seq filenum rows (k + 1) (toInt p.2)).bind fun q =>
          some (.writeRow p.1 (mysql.writeRow k) :: q.1, q.2) := rfl

def endStmt (rollback : Int) : List DbCall :=
  [if rollback ≠ 0 then .rollbackStmt else .commitStmt, .unlockTables]

/-- The `DEBUG` line reads `*lock` before the test of `lock` for NULL. -/
def thrsUnlockTable (lock : Bool) (rollback : Int) : Option (List DbCall) :=
  if lock then some (.unlockTable rollback :: endStmt rollback) else none

def sharedErr : Bytes := ascii "-ERR\r\n"

structure Handled where
  ctx : DbCtx
  calls : List DbCall
  reply : ReplyCall

/-- `rs₀` is what the local `rs` happens to hold: nothing is stored in it before
it is tested. -/
def insertCommand (mysql : Mysql) (rs₀ : Int) (ctx : DbCtx) (argv : List Bytes) :
    Option Handled := do
  let (ctx, opened, tab) ← openTable mysql ctx argv
  match tab with
  | none => some ⟨ctx, opened, .cstr sharedErr⟩
  | some tab => do
      let fieldstr ← argv[3]?
      let (filenum, seq) ← thrsParseFields tab fieldstr uninitSeq sizeofSeq
      if rs₀ = -1 then some ⟨thrsCloseTable ctx, opened ++ [.closeTables], .cstr sharedErr⟩
      else
        let (calls, rs) ← insertRows mysql tab seq filenum (argv.drop 4) 0 rs₀
        let unlocked ← thrsUnlockTable mysql.lockTables rs
        some ⟨thrsCloseTable ctx, opened ++ .lockTables :: calls ++ unlocked ++ [.closeTables],
          .len rs⟩

end ThrSocket
