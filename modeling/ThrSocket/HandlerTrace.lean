import ThrSocket.Handler
import ThrSocket.Lib.Traced

/-!
The handlers of thr_socket.cpp once more, step by step: what they read from
`io->argv`, what they store in and read from `seq`, which columns they use, what
they call and what they reply, in this order. `get_command` is added to them. Of
`key_info` only the names are kept, and of the handler's index calls the result
of `index_next_same`; the key buffer and `kpm`, which only these calls read, are
left out.
-/

namespace ThrSocket
open CString

inductive Access
  /-- `io->argv[i]` is read -/
  | argv (i : Nat)
  /-- `result[i] = j` in `thrs_parse_fields` -/
  | seqWrite (i j : Nat)
  /-- `thrs_parse_fields` returns -/
  | parsed (rs : Int)
  /-- `seq[i]` is read; none where nothing was stored -/
  | seqRead (i : Nat) (fn : Option Nat)
  /-- `table->field[fn]` is read -/
  | column (fn : Nat)
  /-- `thrs_lock_tables` returned, NULL or not -/
  | locked (lock : Bool)
  /-- `ha_index_init`, `index_read_map` and `index_next_same` -/
  | indexRead (idx : Nat) (key : Bytes)
  | db (call : DbCall)
  | reply (r : ReplyCall)
deriving DecidableEq

/-- What surrounds a call of a handler: the data base, and what the locals hold
that are tested or returned without having been set. -/
structure HandlerEnv where
  mysql : Mysql
  /-- the names in `key_info` -/
  keys : Table → List Bytes
  indexNextSame : Int
  /-- `rs` of `insert_command` -/
  rs₀ : Int
  /-- `idxnum` of `thrs_open_index`, a `long long` -/
  idxnum₀ : Int

def haErrKeyNotFound : Int := 120
def haErrRecordDeleted : Int := 134
def haErrEndOfFile : Int := 137

def strncmpEq (a b : Bytes) (n : Nat) : Bool := (view a ++ [0]).take n == (view b ++ [0]).take n

def intOfLL (n : Int) : Int := Int.bmod n (2 ^ 32)

/-- The name of a key only decides whether `idxnum` is returned. -/
def thrsOpenIndex (keys : List Bytes) (idxnum₀ : Int) (idx : Bytes) : Int :=
  if (idx.head?.any fun c => 48 ≤ c ∧ c ≤ 57) then
    match str2ll idx idx.length with
    | none => -1
    | some idxnum => intOfLL idxnum
  else
    let ptr := if idx.headD 0 = 0 then ascii "PRIMARY" else idx
    if keys.any (strncmpEq · ptr idx.length) then intOfLL idxnum₀ else -1

/-- An `int` compared with a `size_t`. -/
def sizeOfInt (n : Int) : Nat := (n % 2 ^ 64).toNat

namespace Handler

open Traced (emit emits stuck ofOption)

abbrev M := Traced Access

def readArgv (argv : List Bytes) (i : Nat) : M Bytes := do
  emit (.argv i)
  ofOption argv[i]?

def openTable (mysql : Mysql) (ctx : DbCtx) (argv : List Bytes) : M (DbCtx × Option Table) := do
  let db ← readArgv argv 1
  let tab ← readArgv argv 2
  let (opentabs, entry) ← ofOption (dictFind opentabsOpts ctx.opentabs (getTableKey db tab))
  match entry with
  | some entry => pure ({ ctx with opentabs := opentabs }, some entry.value)
  | none => do
      emit (.db (.openTable db tab))
      match mysql.openTable db tab with
      | none => pure ({ ctx with opentabs := opentabs }, none)
      | some table => do
          let (opentabs, _) ← ofOption (dictAdd opentabsOpts opentabs (getTableKey db tab) table)
          pure ({ ctx with opentabs := opentabs }, some table)

def closeTable (ctx : DbCtx) : M DbCtx := do
  emit (.db .closeTables)
  pure (thrsCloseTable ctx)

def lockTables (mysql : Mysql) : M Unit := do
  emit (.db .lockTables)
  emit (.locked mysql.lockTables)

def unlockTable (mysql : Mysql) (rollback : Int) : M Unit := do
  emit (.db (.unlockTable rollback))
  if mysql.lockTables then emits ((endStmt rollback).map .db) else stuck

def parseFieldsLoop (table : Table) : List Bytes → Nat → Seq → M (Bool × Seq)
  | [], _, result => pure (true, result)
  | field :: fields, i, result =>
      match table.fields.findIdx? (fieldMatches · field) with
      | none => pure (false, result)
      | some j => do
          emit (.seqWrite i j)
          if i < result.length then parseFieldsLoop table fields (i + 1) (result.set i (some j))
          else stuck

def thrsParseFields (table : Table) (fieldstr : Bytes) (result : Seq) (len : Nat) :
    M (Int × Seq) := do
  let fields := cstrSplit fieldstr (ascii ",")
  if len ≤ fields.length then do
    emit (.parsed (-1))
    pure (-1, result)
  else do
    let (ok, result) ← parseFieldsLoop table fields 0 result
    let rs : Int := if ok then fields.length else -1
    emit (.parsed rs)
    pure (rs, result)

def columnOf (table : Table) (seq : Seq) (i : Nat) : M Nat := do
  emit (.seqRead i seq[i]?.join)
  let fn ← ofOption seq[i]?.join
  emit (.column fn)
  if fn < table.fields.length then pure fn else stuck

def storeFields (table : Table) (seq : Seq) : List Bytes → Nat → M Row
  | [], _ => pure []
  | field :: fields, i => do
      let fn ← columnOf table seq i
      let row ← storeFields table seq fields (i + 1)
      pure ((fn, field) :: row)

def thrsInsertInner (table : Table) (fields : List Bytes) (seq : Seq) (seqlen : Int)
    (result : RowResult) : M UInt64 := do
  let row ← storeFields table seq (fields.take (storeCount fields.length seqlen)) 0
  emit (.db (.writeRow row result))
  pure
    (if result.r = 0 ∧ table.foundNextNumberField then result.insertId
    else if result.r ≠ 0 then 1
    else 0)

def insertRows (mysql : Mysql) (tab : Table) (seq : Seq) (filenum : Int) :
    List Bytes → Nat → Int → M Int
  | [], _, rs => pure rs
  | val :: rows, k, _ => do
      emit (.argv (4 + k))
      let id ← thrsInsertInner tab (cstrSplit val (ascii ",")) seq filenum (mysql.writeRow k)
      let rs := toInt id
      if rs ≠ 0 then pure rs else insertRows mysql tab seq filenum rows (k + 1) rs

def pong (ctx : DbCtx) : M DbCtx := do
  emit (.reply (.cstr sharedPong))
  pure ctx

def insertLocked (env : HandlerEnv) (ctx : DbCtx) (argv : List Bytes) (tab : Table)
    (filenum : Int) (seq : Seq) : M DbCtx := do
  lockTables env.mysql
  let rs ← insertRows env.mysql tab seq filenum (argv.drop 4) 0 env.rs₀
  unlockTable env.mysql rs
  let ctx ← closeTable ctx
  emit (.reply (.len rs))
  pure ctx

def insertParsed (env : HandlerEnv) (ctx : DbCtx) (argv : List Bytes) (tab : Table)
    (filenum : Int) (seq : Seq) : M DbCtx :=
  if env.rs₀ = -1 then do
    emit (.reply (.cstr sharedErr))
    closeTable ctx
  else insertLocked env ctx argv tab filenum seq

def insertOpened (env : HandlerEnv) (ctx : DbCtx) (argv : List Bytes) (tab : Table) :
    M DbCtx := do
  let fieldstr ← readArgv argv 3
  let (filenum, seq) ← thrsParseFields tab fieldstr uninitSeq sizeofSeq
  insertParsed env ctx argv tab filenum seq

def insertCommand (env : HandlerEnv) (ctx : DbCtx) (argv : List Bytes) : M DbCtx := do
  let (ctx, tab) ← openTable env.mysql ctx argv
  match tab with
  | none => do
      emit (.reply (.cstr sharedErr))
      pure ctx
  | some tab => insertOpened env ctx argv tab

def readColumns (tab : Table) (seq : Seq) : Nat → Nat → M Unit
  | 0, _ => pure ()
  | n + 1, i => do
      let _ ← columnOf tab seq i
      readColumns tab seq n (i + 1)

def readRow (env : HandlerEnv) (argv : List Bytes) (tab : Table) : M Unit := do
  let rs := env.indexNextSame
  if rs ≠ 0 ∧ rs ≠ haErrRecordDeleted ∧ rs ≠ haErrKeyNotFound ∧ rs ≠ haErrEndOfFile then pure ()
  else do
    let fieldstr ← readArgv argv 3
    let (rs, seq) ← thrsParseFields tab fieldstr uninitSeq sizeofSeq
    readColumns tab seq (sizeOfInt rs) 0

def getDone (env : HandlerEnv) (ctx : DbCtx) : M DbCtx := do
  unlockTable env.mysql 0
  let ctx ← closeTable ctx
  emit (.reply (.cstr sharedErr))
  pure ctx

/-- `get_command` behind the test of `idx`. `key_info` has `keys.length` elements. -/
def getLocked (env : HandlerEnv) (ctx : DbCtx) (argv : List Bytes) (tab : Table) (idx : Nat) :
    M DbCtx := do
  lockTables env.mysql
  if idx < (env.keys tab).length then do
    let key ← readArgv argv 6
    let _ ← readArgv argv 6
    emit (.indexRead idx key)
    readRow env argv tab
    getDone env ctx
  else stuck

def getOpened (env : HandlerEnv) (ctx : DbCtx) (argv : List Bytes) (tab : Table) : M DbCtx := do
  let name ← readArgv argv 4
  let idx := thrsOpenIndex (env.keys tab) env.idxnum₀ name
  if idx < 0 then do
    emit (.reply (.cstr sharedErr))
    pure ctx
  else getLocked env ctx argv tab idx.toNat

def getCommand (env : HandlerEnv) (ctx : DbCtx) (argv : List Bytes) : M DbCtx := do
  let (ctx, tab) ← openTable env.mysql ctx argv
  match tab with
  | none => do
      emit (.reply (.cstr sharedErr))
      pure ctx
  | some tab => getOpened env ctx argv tab

end Handler

def Call.run (env : HandlerEnv) (ctx : DbCtx) (argv : List Bytes) : Call → Traced Access DbCtx
  | .pong => Handler.pong ctx
  | .insertCommand => Handler.insertCommand env ctx argv
  | .getCommand => Handler.getCommand env ctx argv

def Access.call : Access → List DbCall
  | .db call => [call]
  | _ => []

def Access.replied : Access → List ReplyCall
  | .reply r => [r]
  | _ => []

namespace Handler

open Traced (emit emits stuck ofOption)

def erase {α : Type} (x : M α) : Option (α × List DbCall × List ReplyCall) :=
  x.result.map fun a => (a, x.events.flatMap Access.call, x.events.flatMap Access.replied)

section

variable {α β : Type}

theorem erase_pure (a : α) : erase (pure a : M α) = some (a, [], []) := rfl

theorem erase_stuck : erase (stuck : M α) = none := rfl

theorem erase_ofOption (a : Option α) : erase (ofOption a : M α) = a.map (·, [], []) := rfl

theorem erase_bind (x : M α) (f : α → M β) :
    erase (x >>= f) = (erase x).bind fun r => (erase (f r.1)).map fun q =>
      (q.1, r.2.1 ++ q.2.1, r.2.2 ++ q.2.2) := by
  unfold erase
  cases h : x.result with
  | none => rw [Traced.bind_of_stuck h, Option.map_none, Option.map_none, Option.bind_none]
  | some a =>
      rw [Traced.bind_of_result h]
      cases h' : (f a).result with
      | none => simp [h']
      | some b => simp [h']

theorem erase_emit_bind (e : Access) (f : Unit → M β) :
    erase (emit e >>= f) =
      (erase (f ())).map fun q => (q.1, e.call ++ q.2.1, e.replied ++ q.2.2) := by
  rw [erase_bind]
  simp [erase]

end

theorem erase_readArgv (argv : List Bytes) (i : Nat) :
    erase (readArgv argv i) = argv[i]?.map (·, [], []) := by
  rw [readArgv, erase_emit_bind, erase_ofOption]
  cases argv[i]? <;> rfl

theorem erase_openTable (mysql : Mysql) (ctx : DbCtx) (argv : List Bytes) :
    erase (openTable mysql ctx argv) =
      (ThrSocket.openTable mysql ctx argv).map fun r => ((r.1, r.2.2), r.2.1, []) := by
  rw [openTable, ThrSocket.openTable, erase_bind, erase_readArgv]
  cases argv[1]? with
  | none => rfl
  | some db =>
      simp only [Option.map_some, Option.bind_some, Option.bind_eq_bind, List.nil_append]
      rw [erase_bind, erase_readArgv]
      cases argv[2]? with
      | none => rfl
      | some tab =>
          simp only [Option.map_some, Option.bind_some, List.nil_append]
          rw [erase_bind, erase_ofOption]
          cases dictFind opentabsOpts ctx.opentabs (getTableKey db tab) with
          | none => rfl
          | some r =>
              obtain ⟨opentabs, entry⟩ := r
              simp only [Option.map_some, Option.bind_some, List.nil_append]
              cases entry with
              | some entry => rfl
              | none =>
                  simp only
                  rw [erase_emit_bind]
                  cases mysql.openTable db tab with
                  | none => rfl
                  | some table =>
                      simp only
                      rw [erase_bind, erase_ofOption]
                      cases dictAdd opentabsOpts opentabs (getTableKey db tab) table <;> rfl

theorem erase_parseFieldsLoop (table : Table) (fields : List Bytes) (i : Nat) (result : Seq) :
    erase (parseFieldsLoop table fields i result) =
      (ThrSocket.parseFieldsLoop table fields i result).map (·, [], []) := by
  induction fields generalizing i result with
  | nil => rfl
  | cons field fields ih =>
      rw [parseFieldsLoop, ThrSocket.parseFieldsLoop]
      cases table.fields.findIdx? (fieldMatches · field) with
      | none => rfl
      | some j =>
          simp only
          rw [erase_emit_bind]
          split
          · rw [ih, Option.map_map]
            rfl
          · rfl

theorem erase_thrsParseFields (table : Table) (fieldstr : Bytes) (result : Seq) (len : Nat) :
    erase (thrsParseFields table fieldstr result len) =
      (ThrSocket.thrsParseFields table fieldstr result len).map (·, [], []) := by
  rw [thrsParseFields, ThrSocket.thrsParseFields]
  simp only
  split
  · rfl
  · rw [erase_bind, erase_parseFieldsLoop]
    cases ThrSocket.parseFieldsLoop table (cstrSplit fieldstr (ascii ",")) 0 result <;> rfl

theorem erase_columnOf (table : Table) (seq : Seq) (i : Nat) :
    erase (columnOf table seq i) =
      (seq[i]?.join.filter (· < table.fields.length)).map (·, [], []) := by
  rw [columnOf, erase_emit_bind, erase_bind, erase_ofOption]
  cases seq[i]?.join with
  | none => rfl
  | some fn =>
      simp only [Option.map_some, Option.bind_some, Option.filter_some]
      rw [erase_emit_bind]
      by_cases h : fn < table.fields.length
      · rw [if_pos h]
        simp [h, erase_pure, Access.call, Access.replied]
      · rw [if_neg h]
        simp [h, erase_stuck]

theorem erase_storeFields (table : Table) (seq : Seq) (fields : List Bytes) (i : Nat) :
    erase (storeFields table seq fields i) =
      (ThrSocket.storeFields table fields (seq.drop i)).map (·, [], []) := by
  induction fields generalizing i with
  | nil => rfl
  | cons field fields ih =>
      rw [storeFields, erase_bind, erase_columnOf]
      by_cases hi : i < seq.length
      · rw [List.drop_eq_getElem_cons hi, List.getElem?_eq_getElem hi, ThrSocket.storeFields]
        cases seq[i] with
        | none => rfl
        | some fn =>
            by_cases hfn : fn < table.fields.length
            · simp only [Option.join_some, Option.filter_some, hfn, decide_true, if_true,
                Option.map_some, Option.bind_some, Option.bind_eq_bind]
              rw [erase_bind, ih]
              cases ThrSocket.storeFields table fields (seq.drop (i + 1)) <;> rfl
            · simp [hfn]
      · rw [List.drop_eq_nil_of_le (by omega), List.getElem?_eq_none (by omega),
          ThrSocket.storeFields]
        rfl

theorem erase_thrsInsertInner (table : Table) (fields : List Bytes) (seq : Seq) (seqlen : Int)
    (result : RowResult) :
    erase (thrsInsertInner table fields seq seqlen result) =
      (ThrSocket.thrsInsertInner table fields seq seqlen result).map fun r =>
        (r.2, [.writeRow r.1 result], []) := by
  rw [thrsInsertInner, ThrSocket.thrsInsertInner, erase_bind, erase_storeFields, List.drop_zero]
  cases ThrSocket.storeFields table (fields.take (storeCount fields.length seqlen)) seq <;> rfl

theorem insertRows_cons (mysql : Mysql) (tab : Table) (seq : Seq) (filenum : Int) (val : Bytes)
    (rows : List Bytes) (k : Nat) (rs₀ : Int) :
    insertRows mysql tab seq filenum (val :: rows) k rs₀ =
      emit (.argv (4 + k)) >>= fun _ =>
        thrsInsertInner tab (cstrSplit val (ascii ",")) seq filenum (mysql.writeRow k) >>= fun id =>
          if toInt id ≠ 0 then pure (toInt id)
          else insertRows mysql tab seq filenum rows (k + 1) (toInt id) := rfl

theorem erase_insertRows (mysql : Mysql) (tab : Table) (seq : Seq) (filenum : Int)
    (rows : List Bytes) (k : Nat) (rs : Int) :
    erase (insertRows mysql tab seq filenum rows k rs) =
      (ThrSocket.insertRows mysql tab seq filenum rows k rs).map fun r => (r.2, r.1, []) := by
  induction rows generalizing k rs with
  | nil => rfl
  | cons val rows ih =>
      rw [insertRows_cons, ThrSocket.insertRows_cons, erase_emit_bind, erase_bind,
        erase_thrsInsertInner]
      cases ThrSocket.thrsInsertInner tab (cstrSplit val (ascii ",")) seq filenum
          (mysql.writeRow k) with
      | none => rfl
      | some r =>
          rw [Option.map_some, Option.bind_some, Option.bind_some]
          generalize toInt r.2 = rs'
          by_cases hrs : rs' = 0
          · rw [if_neg (not_not.mpr hrs), if_neg (not_not.mpr hrs), ih]
            cases ThrSocket.insertRows mysql tab seq filenum rows (k + 1) rs' with
            | none => rfl
            | some q => simp [Access.call, Access.replied]
          · rw [if_pos hrs, if_pos hrs, erase_pure]
            simp [Access.call, Access.replied]

theorem erase_lockTables (mysql : Mysql) :
    erase (lockTables mysql) = some ((), [.lockTables], []) := rfl

theorem erase_unlockTable (mysql : Mysql) (rollback : Int) :
    erase (unlockTable mysql rollback) =
      (thrsUnlockTable mysql.lockTables rollback).map fun calls => ((), calls, []) := by
  rw [unlockTable, erase_emit_bind]
  cases mysql.lockTables with
  | true => simp [erase, thrsUnlockTable, List.flatMap_map, Access.call, Access.replied]
  | false => rfl

theorem erase_closeTable (ctx : DbCtx) :
    erase (closeTable ctx) = some (thrsCloseTable ctx, [.closeTables], []) := rfl

theorem erase_insertLocked (env : HandlerEnv) (ctx : DbCtx) (argv : List Bytes) (tab : Table)
    (filenum : Int) (seq : Seq) :
    erase (insertLocked env ctx argv tab filenum seq) =
      (ThrSocket.insertRows env.mysql tab seq filenum (argv.drop 4) 0 env.rs₀).bind fun r =>
        (thrsUnlockTable env.mysql.lockTables r.2).map fun unlocked =>
          (thrsCloseTable ctx, .lockTables :: r.1 ++ unlocked ++ [.closeTables],
            [.len r.2]) := by
  rw [insertLocked, erase_bind, erase_lockTables, Option.bind_some, erase_bind, erase_insertRows]
  cases ThrSocket.insertRows env.mysql tab seq filenum (argv.drop 4) 0 env.rs₀ with
  | none => rfl
  | some r =>
      simp only [Option.map_some, Option.bind_some]
      rw [erase_bind, erase_unlockTable]
      cases thrsUnlockTable env.mysql.lockTables r.2 with
      | none => rfl
      | some unlocked =>
          simp only [Option.map_some, Option.bind_some]
          rw [erase_bind, erase_closeTable, Option.bind_some, erase_emit_bind, erase_pure]
          simp [Access.call, Access.replied]

/-- The accesses taken away, the handler is `insert_command` as it stands above. -/
theorem erase_insertCommand (env : HandlerEnv) (ctx : DbCtx) (argv : List Bytes) :
    erase (insertCommand env ctx argv) =
      (ThrSocket.insertCommand env.mysql env.rs₀ ctx argv).map fun h =>
        (h.ctx, h.calls, [h.reply]) := by
  rw [insertCommand, ThrSocket.insertCommand, erase_bind, erase_openTable]
  cases ThrSocket.openTable env.mysql ctx argv with
  | none => rfl
  | some r =>
      obtain ⟨ctx', opened, tab⟩ := r
      simp only [Option.map_some, Option.bind_some, Option.bind_eq_bind, List.nil_append]
      cases tab with
      | none =>
          simp only
          rw [erase_emit_bind, erase_pure]
          simp [Access.call, Access.replied]
      | some tab =>
          simp only
          rw [insertOpened, erase_bind, erase_readArgv]
          cases argv[3]? with
          | none => rfl
          | some fieldstr =>
              simp only [Option.map_some, Option.bind_some, List.nil_append]
              rw [erase_bind, erase_thrsParseFields]
              cases ThrSocket.thrsParseFields tab fieldstr uninitSeq sizeofSeq with
              | none => rfl
              | some p =>
                  simp only [Option.map_some, Option.bind_some, List.nil_append, insertParsed]
                  split
                  · rw [erase_emit_bind, erase_closeTable]
                    simp [Access.call, Access.replied]
                  · rw [erase_insertLocked]
                    cases ThrSocket.insertRows env.mysql tab p.2 p.1 (argv.drop 4) 0 env.rs₀ with
                    | none => rfl
                    | some r =>
                        simp only [Option.bind_some]
                        cases thrsUnlockTable env.mysql.lockTables r.2 <;> simp

theorem result_of_erase {α : Type} (x : M α) : x.result = (erase x).map (·.1) := by
  rw [erase, Option.map_map]
  exact Option.map_id'.symm

theorem openTable_result (mysql : Mysql) (ctx : DbCtx) (argv : List Bytes) :
    (openTable mysql ctx argv).result =
      (ThrSocket.openTable mysql ctx argv).map fun r => (r.1, r.2.2) := by
  rw [result_of_erase, erase_openTable, Option.map_map]
  rfl

theorem openTable_result_iff {mysql : Mysql} {ctx : DbCtx} {argv : List Bytes}
    {r : DbCtx × Option Table} :
    (openTable mysql ctx argv).result = some r ↔
      ∃ calls, ThrSocket.openTable mysql ctx argv = some (r.1, calls, r.2) := by
  rw [openTable_result, Option.map_eq_some_iff]
  constructor
  · intro ⟨q, hopen, hr⟩
    cases hr
    exact ⟨q.2.1, hopen⟩
  · intro ⟨calls, hopen⟩
    exact ⟨_, hopen, rfl⟩

theorem readArgv_result (argv : List Bytes) (i : Nat) : (readArgv argv i).result = argv[i]? := by
  rw [result_of_erase, erase_readArgv, Option.map_map]
  exact Option.map_id'

section

open Traced

variable {P : Access → Prop} {argv : List Bytes} {ctx : DbCtx} {mysql : Mysql} {tab : Table}

theorem all_readArgv {i : Nat} (h : P (.argv i)) : All P (readArgv argv i) :=
  all_bind (all_emit h) fun _ _ => all_ofOption _

theorem all_openTable (h1 : P (.argv 1)) (h2 : P (.argv 2))
    (hopen : ∀ db tab, P (.db (.openTable db tab))) : All P (openTable mysql ctx argv) := by
  rw [openTable]
  refine all_bind (all_readArgv h1) fun db _ => ?_
  refine all_bind (all_readArgv h2) fun name _ => ?_
  refine all_bind (all_ofOption _) fun r _ => ?_
  obtain ⟨opentabs, entry⟩ := r
  cases entry with
  | some entry => exact all_pure _
  | none =>
      refine all_bind (all_emit (hopen _ _)) fun _ _ => ?_
      cases mysql.openTable db name with
      | none => exact all_pure _
      | some table => exact all_bind (all_ofOption _) fun _ _ => all_pure _

theorem all_closeTable (h : P (.db .closeTables)) : All P (closeTable ctx) :=
  all_bind (all_emit h) fun _ _ => all_pure _

theorem all_lockTables (h : P (.db .lockTables)) (h' : P (.locked mysql.lockTables)) :
    All P (lockTables mysql) :=
  all_bind (all_emit h) fun _ _ => all_emit h'

theorem all_unlockTable {rollback : Int}
    (h : ∀ call ∈ .unlockTable rollback :: endStmt rollback, P (.db call)) :
    All P (unlockTable mysql rollback) := by
  refine all_bind (all_emit (h _ List.mem_cons_self)) fun _ _ => ?_
  split
  · refine all_emits fun e he => ?_
    obtain ⟨call, hmem, rfl⟩ := List.mem_map.mp he
    exact h call (List.mem_cons_of_mem _ hmem)
  · exact all_stuck

theorem all_parseFieldsLoop (hwrite : ∀ i j, P (.seqWrite i j)) (fields : List Bytes) (i : Nat)
    (seq : Seq) : All P (parseFieldsLoop tab fields i seq) := by
  induction fields generalizing i seq with
  | nil => exact all_pure _
  | cons field fields ih =>
      rw [parseFieldsLoop]
      cases tab.fields.findIdx? (fieldMatches · field) with
      | none => exact all_pure _
      | some j =>
          refine all_bind (all_emit (hwrite _ _)) fun _ _ => ?_
          split
          · exact ih _ _
          · exact all_stuck

theorem all_thrsParseFields (hwrite : ∀ i j, P (.seqWrite i j)) (hparsed : ∀ rs, P (.parsed rs))
    (fieldstr : Bytes) (seq : Seq) (len : Nat) : All P (thrsParseFields tab fieldstr seq len) := by
  rw [thrsParseFields]
  simp only
  split
  · exact all_bind (all_emit (hparsed _)) fun _ _ => all_pure _
  · refine all_bind (all_parseFieldsLoop hwrite _ _ _) fun _ _ => ?_
    exact all_bind (all_emit (hparsed _)) fun _ _ => all_pure _

theorem all_columnOf {seq : Seq} {i : Nat} (hread : P (.seqRead i seq[i]?.join))
    (hcolumn : ∀ fn, P (.column fn)) : All P (columnOf tab seq i) := by
  rw [columnOf]
  refine all_bind (all_emit hread) fun _ _ => all_bind (all_ofOption _) fun fn _ => ?_
  refine all_bind (all_emit (hcolumn fn)) fun _ _ => ?_
  split
  · exact all_pure _
  · exact all_stuck

theorem all_storeFields {seq : Seq} {n : Nat} (hread : ∀ i < n, P (.seqRead i seq[i]?.join))
    (hcolumn : ∀ fn, P (.column fn)) (fields : List Bytes) {i : Nat} (h : i + fields.length ≤ n) :
    All P (storeFields tab seq fields i) := by
  induction fields generalizing i with
  | nil => exact all_pure _
  | cons field fields ih =>
      rw [List.length_cons] at h
      refine all_bind (all_columnOf (hread i (by omega)) hcolumn) fun fn _ => ?_
      exact all_bind (ih (by omega)) fun _ _ => all_pure _

theorem all_readColumns {seq : Seq} {n : Nat} (hread : ∀ i < n, P (.seqRead i seq[i]?.join))
    (hcolumn : ∀ fn, P (.column fn)) (m : Nat) {i : Nat} (h : i + m ≤ n) :
    All P (readColumns tab seq m i) := by
  induction m generalizing i with
  | zero => exact all_pure _
  | succ m ih =>
      exact all_bind (all_columnOf (hread i (by omega)) hcolumn) fun _ _ => ih (by omega)

/-- The rows are the arguments from the one behind the field list on. -/
theorem all_insertRows {seq : Seq} {filenum : Int} {argc : Nat}
    (hargv : ∀ i < argc, P (.argv i))
    (hread : ∀ n i, i < storeCount n filenum → P (.seqRead i seq[i]?.join))
    (hcolumn : ∀ fn, P (.column fn)) (hrow : ∀ row result, P (.db (.writeRow row result)))
    {rows : List Bytes} {k : Nat} (h : 4 + k + rows.length ≤ argc) (rs : Int) :
    All P (insertRows mysql tab seq filenum rows k rs) := by
  induction rows generalizing k rs with
  | nil => exact all_pure _
  | cons val rows ih =>
      rw [List.length_cons] at h
      rw [insertRows_cons]
      refine all_bind (all_emit (hargv (4 + k) (by omega))) fun _ _ => ?_
      refine all_bind ?_ fun id _ => ?_
      · refine all_bind (all_storeFields (hread (cstrSplit val (ascii ",")).length) hcolumn _
          (i := 0) ?_) fun row _ => ?_
        · rw [Nat.zero_add, List.length_take]
          exact Nat.min_le_left _ _
        · exact all_bind (all_emit (hrow _ _)) fun _ _ => all_pure _
      · generalize toInt id = rs'
        split
        · exact all_pure _
        · exact ih (by omega) _

structure Outside (P : Access → Prop) : Prop where
  column : ∀ fn, P (.column fn)
  lock : P (.db .lockTables)
  locked : ∀ lock, P (.locked lock)
  unlock : ∀ rollback, ∀ call ∈ .unlockTable rollback :: endStmt rollback, P (.db call)
  close : P (.db .closeTables)
  reply : ∀ r, P (.reply r)

variable {env : HandlerEnv} {seq : Seq} {filenum : Int}

theorem all_insertLocked (hout : Outside P) (hrow : ∀ row result, P (.db (.writeRow row result)))
    (hargs : 4 ≤ argv.length) (hargv : ∀ i < argv.length, P (.argv i))
    (hread : ∀ n i, i < storeCount n filenum → P (.seqRead i seq[i]?.join)) :
    All P (insertLocked env ctx argv tab filenum seq) := by
  refine all_bind (all_lockTables hout.lock (hout.locked _)) fun _ _ => ?_
  refine all_bind (all_insertRows hargv hread hout.column hrow ?_ _) fun rs _ => ?_
  · rw [List.length_drop]
    omega
  · refine all_bind (all_unlockTable (hout.unlock _)) fun _ _ => ?_
    exact all_bind (all_closeTable hout.close) fun _ _ =>
      all_bind (all_emit (hout.reply _)) fun _ _ => all_pure _

theorem all_insertParsed (hout : Outside P) (hrow : ∀ row result, P (.db (.writeRow row result)))
    (hargs : 4 ≤ argv.length) (hargv : ∀ i < argv.length, P (.argv i))
    (hread : ∀ n i, i < storeCount n filenum → P (.seqRead i seq[i]?.join)) :
    All P (insertParsed env ctx argv tab filenum seq) := by
  rw [insertParsed]
  split
  · exact all_bind (all_emit (hout.reply _)) fun _ _ => all_closeTable hout.close
  · exact all_insertLocked hout hrow hargs hargv hread

theorem all_getDone (hout : Outside P) : All P (getDone env ctx) := by
  refine all_bind (all_unlockTable (hout.unlock _)) fun _ _ => ?_
  exact all_bind (all_closeTable hout.close) fun _ _ =>
    all_bind (all_emit (hout.reply _)) fun _ _ => all_pure _

theorem all_readRow (hwrite : ∀ i j, P (.seqWrite i j)) (hparsed : ∀ rs, P (.parsed rs))
    (hread : ∀ i fn, P (.seqRead i fn)) (hcolumn : ∀ fn, P (.column fn)) (hargv : P (.argv 3)) :
    All P (readRow env argv tab) := by
  rw [readRow]
  simp only
  split
  · exact all_pure _
  · refine all_bind (all_readArgv hargv) fun fieldstr _ => ?_
    refine all_bind (all_thrsParseFields hwrite hparsed _ _ _) fun p _ => ?_
    exact all_readColumns (fun i _ => hread i _) hcolumn _ (Nat.le_refl _)

theorem all_getLocked (hout : Outside P) (hwrite : ∀ i j, P (.seqWrite i j))
    (hparsed : ∀ rs, P (.parsed rs)) (hread : ∀ i fn, P (.seqRead i fn))
    (hindex : ∀ idx key, P (.indexRead idx key)) {idx : Nat}
    (hargv : idx < (env.keys tab).length → P (.argv 3) ∧ P (.argv 6)) :
    All P (getLocked env ctx argv tab idx) := by
  refine all_bind (all_lockTables hout.lock (hout.locked _)) fun _ _ => ?_
  split
  · rename_i hidx
    obtain ⟨h3, h6⟩ := hargv hidx
    refine all_bind (all_readArgv h6) fun key _ => ?_
    refine all_bind (all_readArgv h6) fun _ _ => all_bind (all_emit (hindex _ _)) fun _ _ => ?_
    exact all_bind (all_readRow hwrite hparsed hread hout.column h3) fun _ _ => all_getDone hout
  · exact all_stuck

end

end Handler

end ThrSocket
