import ThrSocket.ArgvAccess
import ThrSocket.OpenTables

/-!
The tables a worker holds from command to command. Every command that opens a
table closes it again before it replies, but for `get_command` where it does not
find the index.
-/

namespace ThrSocket
open CString

/-- A command that a worker runs: the handler, what surrounds it, and `io->argv`. -/
structure Request where
  call : Call
  env : HandlerEnv
  argv : List Bytes

def Request.run (r : Request) (ctx : DbCtx) : Traced Access DbCtx := r.call.run r.env ctx r.argv

def workerStep (ctx : DbCtx) (r : Request) : Option (DbCtx × List Access) :=
  (r.run ctx).result.map fun ctx' => (ctx', (r.run ctx).events)

/-- `ctx->opentabs` is empty. -/
def NoTables (ctx : DbCtx) : Prop := ctx.opentabs.all = [] ∧ ctx.opentabs.dictUsed = 0

/-- Behind every `thrs_open_table` that opens a table, the tables are closed. -/
def Released (mysql : Mysql) (trace : List Access) : Prop :=
  ∀ pre db tab post, trace = pre ++ .db (.openTable db tab) :: post →
    (mysql.openTable db tab).isSome → .db .closeTables ∈ post

/-- What a command leaves behind. -/
def TablesClosed (ctx : DbCtx) (r : Request) : Prop :=
  ∀ ctx' trace, workerStep ctx r = some (ctx', trace) → NoTables ctx' ∧ Released r.env.mysql trace

def IndexMissing (r : Request) : Prop :=
  r.call = .getCommand ∧ ∃ db tab name table, r.argv[1]? = some db ∧ r.argv[2]? = some tab ∧
    r.argv[4]? = some name ∧ r.env.mysql.openTable db tab = some table ∧
    thrsOpenIndex (r.env.keys table) r.env.idxnum₀ name < 0

structure Idle (ctx : DbCtx) : Prop where
  inv : DictInv opentabsOpts ctx.opentabs
  empty : ctx.opentabs.all = []

theorem idle_init : Idle {} := ⟨dictInv_create _, rfl⟩

theorem idle_thrsCloseTable (ctx : DbCtx) : Idle (thrsCloseTable ctx) :=
  ⟨dictClear_spec _ _, rfl⟩

theorem Idle.noTables {ctx : DbCtx} (h : Idle ctx) : NoTables ctx := by
  refine ⟨h.empty, ?_⟩
  have hlen := h.inv.dt0.used
  have hlen' := h.inv.dt1.used
  have hall := ctx.opentabs.length_all
  rw [h.empty, List.length_nil] at hall
  rw [Dict.dictUsed, u32_of_lt] <;> omega

/-- From a worker without open tables nothing is found in the cache. -/
theorem Idle.openTable {ctx : DbCtx} (h : Idle ctx) (mysql : Mysql) {argv : List Bytes}
    {db tab : Bytes} (hdb : argv[1]? = some db) (htab : argv[2]? = some tab) :
    ∃ ctx', ThrSocket.openTable mysql ctx argv =
        some (ctx', [.openTable db tab], mysql.openTable db tab) ∧
      (mysql.openTable db tab = none → Idle ctx') ∧
      ((mysql.openTable db tab).isSome → ctx'.opentabs.all ≠ []) := by
  have hlen : ctx.opentabs.all.length = 0 := by rw [h.empty, List.length_nil]
  obtain ⟨d, found, hfind, hinv, hre, hcases⟩ :=
    dictFind_spec opentabsOpts_lawful h.inv (by omega) (getTableKey db tab)
  have hempty : d.all = [] := by
    have := hre.perm
    rwa [h.empty, List.perm_nil] at this
  obtain rfl : found = none := by
    rcases hcases with ⟨e, -, he, -⟩ | ⟨hnone, -⟩
    · rw [hempty] at he
      cases he
    · exact hnone
  have hdlen : d.all.length = 0 := by rw [hempty, List.length_nil]
  cases hopen : mysql.openTable db tab with
  | none =>
      refine ⟨⟨d⟩, ?_, fun _ => ⟨hinv, hempty⟩, fun hsome => by cases hsome⟩
      simp only [ThrSocket.openTable, hdb, htab, hfind, hopen, Option.bind_eq_bind,
        Option.bind_some]
  | some table =>
      obtain ⟨d', rs, hadd, -, hadded⟩ := dictAdd_spec opentabsOpts_lawful hinv (by omega)
        (getTableKey db tab) table
      refine ⟨⟨d'⟩, ?_, fun hnone => (by cases hnone), fun _ hall => ?_⟩
      · simp only [ThrSocket.openTable, hdb, htab, hfind, hopen, hadd, Option.bind_eq_bind,
          Option.bind_some]
      · cases hadded with
        | present holds perm =>
            obtain ⟨e, he, -⟩ := holds
            rw [hempty] at he
            cases he
        | inserted new e key_eq value_eq ref_eq perm =>
            have hlen' := perm.length_eq
            simp only [hall, List.length_nil, List.length_cons] at hlen'
            omega

theorem released_of_close {mysql : Mysql} {pre post : List Access}
    (hpost : ∀ db tab, .db (.openTable db tab) ∉ post) :
    Released mysql (pre ++ .db .closeTables :: post) := by
  intro pre' db tab post' heq _
  rcases List.append_eq_append_iff.mp heq with ⟨as, -, has⟩ | ⟨bs, -, hbs⟩
  · have hmem : Access.db (.openTable db tab) ∈ .db .closeTables :: post := by
      rw [has]
      simp
    simp only [List.mem_cons, Access.db.injEq, reduceCtorEq, false_or] at hmem
    exact absurd hmem (hpost db tab)
  · cases bs with
    | nil => cases hbs
    | cons b bs =>
        obtain ⟨-, rfl⟩ := List.cons.inj hbs
        simp

namespace Handler

open Traced

/-- If the handler returns, it has closed the tables behind the last it opened. -/
def Closes (x : M DbCtx) : Prop :=
  ∀ ctx', x.result = some ctx' → Idle ctx' ∧ ∃ pre post,
    x.events = pre ++ .db .closeTables :: post ∧ ∀ db tab, .db (.openTable db tab) ∉ post

variable {env : HandlerEnv} {ctx ctx' : DbCtx} {argv : List Bytes} {tab : Table}

theorem closes_bind {α : Type} {x : M α} {f : α → M DbCtx}
    (h : ∀ a, x.result = some a → Closes (f a)) : Closes (x >>= f) := by
  intro ctx' hres
  obtain ⟨a, ha, hfa⟩ := bind_result_eq_some.mp hres
  obtain ⟨hidle, pre, post, hevents, hpost⟩ := h a ha ctx' hfa
  refine ⟨hidle, x.events ++ pre, post, ?_, hpost⟩
  rw [bind_of_result ha, hevents, List.append_assoc]

theorem closes_closeTable : Closes (closeTable ctx) := by
  intro ctx' hres
  cases hres
  exact ⟨idle_thrsCloseTable ctx, [], [], rfl, by simp⟩

theorem closes_reply (r : ReplyCall) :
    Closes (closeTable ctx >>= fun ctx => emit (.reply r) >>= fun _ => pure ctx) := by
  intro ctx' hres
  cases hres
  exact ⟨idle_thrsCloseTable ctx, [], [.reply r], rfl, by simp⟩

theorem closes_insertParsed (filenum : Int) (seq : Seq) :
    Closes (insertParsed env ctx argv tab filenum seq) := by
  rw [insertParsed]
  split
  · exact closes_bind fun _ _ => closes_closeTable
  · exact closes_bind fun _ _ => closes_bind fun rs _ => closes_bind fun _ _ => closes_reply _

theorem closes_getLocked (idx : Nat) : Closes (getLocked env ctx argv tab idx) := by
  refine closes_bind fun _ _ => ?_
  split
  · refine closes_bind fun key _ => closes_bind fun _ _ => closes_bind fun _ _ => ?_
    exact closes_bind fun _ _ => closes_bind fun _ _ => closes_reply _
  · intro ctx' hres
    cases hres

/-- The only table a command opens. -/
theorem openTable_opens {r : DbCtx × Option Table}
    (h : (openTable env.mysql ctx argv).result = some r) {db tab db' tab' : Bytes}
    (hdb : argv[1]? = some db) (htab : argv[2]? = some tab)
    (he : .db (.openTable db' tab') ∈ (openTable env.mysql ctx argv).events) :
    db' = db ∧ tab' = tab := by
  obtain ⟨ctx', found⟩ := r
  obtain ⟨calls, hopen⟩ := openTable_result_iff.mp h
  have herase := erase_openTable env.mysql ctx argv
  rw [hopen, erase, h] at herase
  have hcalls : (openTable env.mysql ctx argv).events.flatMap Access.call = calls := by
    simpa using congrArg (Option.map fun q => q.2.1) herase
  have hmem : DbCall.openTable db' tab' ∈ calls := by
    rw [← hcalls]
    exact List.mem_flatMap.mpr ⟨_, he, List.mem_singleton_self _⟩
  cases openTable_run hopen with
  | hit => cases hmem
  | refused hdb' htab' =>
      cases hdb.symm.trans hdb'
      cases htab.symm.trans htab'
      cases List.mem_singleton.mp hmem
      exact ⟨rfl, rfl⟩
  | opened hdb' htab' =>
      cases hdb.symm.trans hdb'
      cases htab.symm.trans htab'
      cases List.mem_singleton.mp hmem
      exact ⟨rfl, rfl⟩

/-- A command that opens no table leaves none, and one that goes on as `f` closes them. -/
theorem released_openTable (h : Idle ctx) {f : DbCtx × Option Table → M DbCtx}
    (hnone : ∀ ctx, f (ctx, none) = emit (.reply (.cstr sharedErr)) >>= fun _ => pure ctx)
    (hsome : ∀ ctx db name table, argv[1]? = some db → argv[2]? = some name →
      env.mysql.openTable db name = some table → Closes (f (ctx, some table)))
    (hres : (openTable env.mysql ctx argv >>= f).result = some ctx') :
    Idle ctx' ∧ Released env.mysql (openTable env.mysql ctx argv >>= f).events := by
  obtain ⟨⟨ctx₁, found⟩, hr, hg⟩ := bind_result_eq_some.mp hres
  obtain ⟨db, name, hdb, hname⟩ : ∃ db name, argv[1]? = some db ∧ argv[2]? = some name := by
    obtain ⟨calls, hopen⟩ := openTable_result_iff.mp hr
    cases openTable_run hopen with
    | hit hdb htab => exact ⟨_, _, hdb, htab⟩
    | refused hdb htab => exact ⟨_, _, hdb, htab⟩
    | opened hdb htab => exact ⟨_, _, hdb, htab⟩
  obtain ⟨ctx₂, hopen, hidle, -⟩ := h.openTable env.mysql hdb hname
  have hpair : (ctx₂, env.mysql.openTable db name) = (ctx₁, found) := by
    rw [openTable_result, hopen] at hr
    exact Option.some.inj hr
  cases hpair
  cases htable : env.mysql.openTable db name with
  | none =>
      rw [htable] at hg hr
      rw [bind_of_result hr]
      simp only at hg ⊢
      rw [hnone] at hg ⊢
      cases hg
      refine ⟨hidle htable, fun pre db' tab' post heq hopened => ?_⟩
      have hmem := List.mem_append_right pre (List.mem_cons_self (l := post)
        (a := .db (.openTable db' tab')))
      rw [← heq, emit_bind] at hmem
      rcases List.mem_append.mp hmem with hmem | hmem
      · obtain ⟨rfl, rfl⟩ := openTable_opens hr hdb hname hmem
        rw [htable] at hopened
        cases hopened
      · simp at hmem
  | some table =>
      rw [htable] at hg hr
      obtain ⟨hidle', pre, post, hevents, hpost⟩ :=
        closes_bind (fun r hr' => by
          cases hr.symm.trans hr'
          exact hsome _ db name table hdb hname htable) ctx' hres
      exact ⟨hidle', hevents ▸ released_of_close hpost⟩

theorem released_insertCommand (h : Idle ctx)
    (hres : (insertCommand env ctx argv).result = some ctx') :
    Idle ctx' ∧ Released env.mysql (insertCommand env ctx argv).events := by
  refine released_openTable h (fun _ => rfl) (fun ctx₁ db name table _ _ _ => ?_) hres
  exact closes_bind fun _ _ => closes_bind fun p _ => closes_insertParsed p.1 p.2

theorem released_getCommand (h : Idle ctx) (hno : ¬ IndexMissing ⟨.getCommand, env, argv⟩)
    (hres : (getCommand env ctx argv).result = some ctx') :
    Idle ctx' ∧ Released env.mysql (getCommand env ctx argv).events := by
  refine released_openTable h (fun _ => rfl) (fun ctx₁ db name table hdb hname htable => ?_) hres
  refine closes_bind fun idx hidx => ?_
  rw [readArgv_result] at hidx
  simp only
  split
  · exact absurd ⟨rfl, db, name, idx, table, hdb, hname, hidx, htable, by assumption⟩ hno
  · exact closes_getLocked _

end Handler

/-- What a command without the defect keeps. -/
theorem idle_step {ctx ctx' : DbCtx} {r : Request} {trace : List Access} (h : Idle ctx)
    (hno : ¬ IndexMissing r) (hstep : workerStep ctx r = some (ctx', trace)) :
    Idle ctx' ∧ Released r.env.mysql trace := by
  obtain ⟨ctx₁, hres, heq⟩ := Option.map_eq_some_iff.mp hstep
  cases heq
  obtain ⟨call, env, argv⟩ := r
  cases call with
  | pong =>
      cases hres
      refine ⟨h, fun pre db tab post heq _ => ?_⟩
      have hmem : Access.db (.openTable db tab) ∈ [Access.reply (.cstr sharedPong)] := by
        rw [show [Access.reply (.cstr sharedPong)] = _ from heq]
        simp
      simp at hmem
  | insertCommand => exact Handler.released_insertCommand h hres
  | getCommand => exact Handler.released_getCommand h hno hres

/-- A `get` that does not find its index replies, and its table stays open. -/
theorem open_of_indexMissing {ctx : DbCtx} {r : Request} (h : Idle ctx) (hmiss : IndexMissing r) :
    ∃ ctx' trace, workerStep ctx r = some (ctx', trace) ∧ ctx'.opentabs.all ≠ [] := by
  obtain ⟨call, env, argv⟩ := r
  obtain ⟨rfl, db, tab, name, table, hdb, htab, hname, htable, hidx⟩ := hmiss
  obtain ⟨ctx', hopen, -, hall⟩ := h.openTable env.mysql hdb htab
  simp only at htable hopen hall hidx
  rw [htable] at hopen hall
  have hres : (Handler.openTable env.mysql ctx argv).result = some (ctx', some table) :=
    Handler.openTable_result_iff.mpr ⟨_, hopen⟩
  have hdone : (Handler.getCommand env ctx argv).result = some ctx' := by
    refine Traced.bind_result_eq_some.mpr ⟨(ctx', some table), hres, ?_⟩
    refine Traced.bind_result_eq_some.mpr ⟨name, by rw [Handler.readArgv_result, hname], ?_⟩
    simp only
    rw [if_pos hidx]
    rfl
  refine ⟨ctx', (Handler.getCommand env ctx argv).events, ?_, hall rfl⟩
  rw [workerStep, Request.run, Call.run, hdone]
  rfl

/-- In a run of commands all tables are closed exactly when no `get` that opens its table
fails to find its index. -/
theorem tablesClosed_iff (rs : List Request) :
    Machine.Along workerStep TablesClosed {} rs ↔
      Machine.Along workerStep (fun _ r => ¬ IndexMissing r) {} rs := by
  refine Machine.along_iff_of_invariant Idle
    (fun h hno hstep => (idle_step h hno hstep).1) (fun {ctx r} h => ?_) idle_init
  constructor
  · intro hclosed hmiss
    obtain ⟨ctx', trace, hstep, hall⟩ := open_of_indexMissing h hmiss
    exact hall (hclosed ctx' trace hstep).1.1
  · intro hno ctx' trace hstep
    obtain ⟨hidle, hreleased⟩ := idle_step h hno hstep
    exact ⟨hidle.noTables, hreleased⟩

/-- The index `b` is unknown, and the table of this `get` is still open behind it. -/
theorem tablesClosed_index_missing :
    ¬ Machine.Along workerStep TablesClosed {} [⟨.getCommand, oneColumnEnv true 0,
      [ascii "get", ascii "db", ascii "t", ascii "a", ascii "b", ascii "=", ascii "1"]⟩] := by
  intro h
  have hall := (h.1 _ _ rfl).1.1
  revert hall
  decide

end ThrSocket
