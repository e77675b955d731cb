import Mathlib.Data.List.Nodup
import ThrSocket.DictEntries
import ThrSocket.DictOps
import ThrSocket.Handler
import ThrSocket.Lib.Machine

/-!
The open tables of a worker as a cache. The key of a table is `db.tab`, so that the
names `a.b`, `c` and `a`, `b.c` have the same one.
-/

namespace ThrSocket
open CString

theorem opentabsKeyCompare_iff {k1 k2 : Bytes} : opentabsKeyCompare k1 k2 = true ↔ k1 = k2 := by
  simp only [opentabsKeyCompare, Bool.and_eq_true, beq_iff_eq]
  exact ⟨And.right, fun h => ⟨congrArg _ h, h⟩⟩

theorem opentabsOpts_compare {k1 k2 : Bytes} : opentabsOpts.compare k1 k2 = true ↔ k1 = k2 :=
  opentabsKeyCompare_iff

theorem opentabsOpts_lawful : opentabsOpts.Lawful where
  equiv := by
    simp only [opentabsOpts_compare]
    exact eq_equivalence
  hash h := congrArg _ (opentabsOpts_compare.mp h)
  dup _ := opentabsOpts_compare.mpr rfl

structure OpenCall where
  mysql : Mysql
  command : Bytes
  db : Bytes
  tab : Bytes
  args : List Bytes

def OpenCall.argv (c : OpenCall) : List Bytes := c.command :: c.db :: c.tab :: c.args

/-- A worker with the tables that `thrs_open_table` has opened, and for which names. -/
structure CacheSys where
  ctx : DbCtx := {}
  opened : List (Bytes × Bytes × Table) := []

def openedBy (mysql : Mysql) (calls : List DbCall) : List (Bytes × Bytes × Table) :=
  calls.filterMap fun
    | .openTable db tab => (mysql.openTable db tab).map fun table => (db, tab, table)
    | _ => none

def cacheStep (s : CacheSys) (c : OpenCall) : Option (CacheSys × Option Table) :=
  (openTable c.mysql s.ctx c.argv).map fun r =>
    (⟨r.1, openedBy c.mysql r.2.1 ++ s.opened⟩, r.2.2)

/-- A table that the call returns was opened for the names of the call. -/
def RightTable (s : CacheSys) (c : OpenCall) : Prop :=
  ∀ s' table, cacheStep s c = some (s', some table) → (c.db, c.tab, table) ∈ s'.opened

def NamesApart (s : CacheSys) (c : OpenCall) : Prop :=
  ∀ db tab table, (db, tab, table) ∈ s.opened → getTableKey db tab = getTableKey c.db c.tab →
    db = c.db ∧ tab = c.tab

def Recorded (s : CacheSys) : Prop :=
  ∀ e ∈ s.ctx.opentabs.all, ∃ db tab, e.key = getTableKey db tab ∧ (db, tab, e.value) ∈ s.opened

theorem cacheStep_run {s s' : CacheSys} {c : OpenCall} {r : Option Table}
    (h : cacheStep s c = some (s', r)) : ∃ calls, OpenRun c.mysql s.ctx c.argv s'.ctx calls r ∧
      s'.opened = openedBy c.mysql calls ++ s.opened := by
  obtain ⟨⟨ctx', calls, r'⟩, hopen, heq⟩ := Option.map_eq_some_iff.mp h
  cases heq
  exact ⟨calls, openTable_run hopen, rfl⟩

theorem openedBy_openTable {mysql : Mysql} {db tab : Bytes} {table : Table}
    (h : mysql.openTable db tab = some table) :
    openedBy mysql [.openTable db tab] = [(db, tab, table)] := by
  simp [openedBy, h]

theorem recorded_step {s s' : CacheSys} {c : OpenCall} {r : Option Table} (hs : Recorded s)
    (h : cacheStep s c = some (s', r)) : Recorded s' := by
  obtain ⟨calls, hrun, hopened⟩ := cacheStep_run h
  obtain ⟨⟨d'⟩, opened'⟩ := s'
  simp only at hopened hrun
  subst hopened
  have hkept : ∀ e ∈ s.ctx.opentabs.all, ∃ db tab, e.key = getTableKey db tab ∧
      (db, tab, e.value) ∈ openedBy c.mysql calls ++ s.opened := by
    intro e he
    obtain ⟨db, tab, hkey, hmem⟩ := hs e he
    exact ⟨db, tab, hkey, List.mem_append_right _ hmem⟩
  intro e he
  cases hrun with
  | hit hdb htab hfind => exact hkept e ((dictFind_entries hfind).1 he)
  | refused hdb htab hfind hopen => exact hkept e ((dictFind_entries hfind).1 he)
  | opened hdb htab hfind hopen hadd =>
      rcases dictAdd_entries hadd e he with he | ⟨hkey, hvalue⟩
      · exact hkept e ((dictFind_entries hfind).1 he)
      · refine ⟨_, _, hkey, ?_⟩
        rw [openedBy_openTable hopen, hvalue]
        exact List.mem_cons_self

theorem rightTable_of_apart {s : CacheSys} {c : OpenCall} (hs : Recorded s)
    (hapart : NamesApart s c) : RightTable s c := by
  intro s' table h
  obtain ⟨calls, hrun, hopened⟩ := cacheStep_run h
  rw [hopened]
  generalize s'.ctx = ctx' at hrun
  cases hrun with
  | hit hdb htab hfind =>
      obtain ⟨hmem, hkey⟩ := (dictFind_entries hfind).2 _ rfl
      obtain ⟨db, tab, hkey', hrec⟩ := hs _ hmem
      cases hdb
      cases htab
      obtain ⟨rfl, rfl⟩ := hapart db tab _ hrec (hkey'.symm.trans (opentabsOpts_compare.mp hkey))
      exact List.mem_append_right _ hrec
  | opened hdb htab hfind hopen hadd =>
      cases hdb
      cases htab
      rw [openedBy_openTable hopen]
      exact List.mem_append_left _ List.mem_cons_self

/-- The cache holds each table that was opened once, and under a key of its own. -/
structure Cached (s : CacheSys) : Prop where
  inv : DictInv opentabsOpts s.ctx.opentabs
  perm : (s.ctx.opentabs.all.map fun e => (e.key, e.value)).Perm
    (s.opened.map fun r => (getTableKey r.1 r.2.1, r.2.2))
  keys : (s.opened.map fun r => getTableKey r.1 r.2.1).Nodup

namespace Cached

variable {s s' : CacheSys} {c : OpenCall}

theorem length (h : Cached s) : s.ctx.opentabs.all.length = s.opened.length := by
  simpa using h.perm.length_eq

theorem holds_iff (h : Cached s) {d : Dict Bytes Table} (hre : Rearranged s.ctx.opentabs d)
    (key : Bytes) :
    d.Holds opentabsOpts key ↔ ∃ r ∈ s.opened, getTableKey r.1 r.2.1 = key := by
  rw [hre.holds]
  have hkeys : (s.ctx.opentabs.all.map (·.key)).Perm
      (s.opened.map fun r => getTableKey r.1 r.2.1) := by
    have := h.perm.map Prod.fst
    rw [List.map_map, List.map_map] at this
    exact this
  have hmem := hkeys.mem_iff (a := key)
  simp only [List.mem_map] at hmem
  simpa only [Dict.Holds, opentabsOpts_compare] using hmem

theorem moved (h : Cached s) {d : Dict Bytes Table} (hinv : DictInv opentabsOpts d)
    (hre : Rearranged s.ctx.opentabs d) : Cached ⟨⟨d⟩, s.opened⟩ :=
  ⟨hinv, (hre.perm.map _).trans h.perm, h.keys⟩

theorem step (h : Cached s) (hroom : s.opened.length < 2 ^ 29) {r : Option Table}
    (hstep : cacheStep s c = some (s', r)) :
    Cached s' ∧ s'.opened.length ≤ s.opened.length + 1 := by
  obtain ⟨calls, hrun, hopened⟩ := cacheStep_run hstep
  obtain ⟨⟨d'⟩, opened'⟩ := s'
  simp only at hopened hrun
  subst hopened
  have hlen := h.length
  obtain ⟨d, found, hfind, hinv, hre, hcases⟩ :=
    dictFind_spec opentabsOpts_lawful h.inv (by omega) (getTableKey c.db c.tab)
  cases hrun with
  | hit hdb htab hfind' =>
      cases hdb
      cases htab
      cases hfind.symm.trans hfind'
      exact ⟨h.moved hinv hre, Nat.le_succ _⟩
  | refused hdb htab hfind' hopen =>
      cases hdb
      cases htab
      cases hfind.symm.trans hfind'
      have hnone : openedBy c.mysql [.openTable c.db c.tab] = [] := by simp [openedBy, hopen]
      rw [hnone]
      exact ⟨h.moved hinv hre, Nat.le_succ _⟩
  | opened hdb htab hfind' hopen hadd =>
      cases hdb
      cases htab
      cases hfind.symm.trans hfind'
      rw [openedBy_openTable hopen]
      have hnew : ¬ d.Holds opentabsOpts (getTableKey c.db c.tab) := by
        rcases hcases with ⟨e, he, -⟩ | ⟨-, hno⟩
        · cases he
        · exact hno
      have hdlen := hre.perm.length_eq
      obtain ⟨d'', rs, hadd', hinv', hadded⟩ := dictAdd_spec opentabsOpts_lawful hinv
        (by omega) (getTableKey c.db c.tab) _
      cases hadd'.symm.trans hadd
      refine ⟨?_, Nat.le_refl _⟩
      cases hadded with
      | present holds perm => exact absurd holds hnew
      | inserted new e key_eq value_eq ref_eq perm =>
          refine ⟨hinv', ?_, List.nodup_cons.mpr ⟨fun hmem => ?_, h.keys⟩⟩
          · refine (perm.map _).trans ?_
            rw [List.map_cons, key_eq, value_eq]
            exact ((hre.perm.map _).trans h.perm).cons _
          · obtain ⟨r, hr, hkey⟩ := List.mem_map.mp hmem
            exact hnew ((h.holds_iff hre _).mpr ⟨r, hr, hkey⟩)

theorem apart_of_right (h : Cached s) (hroom : s.opened.length < 2 ^ 29)
    (hright : RightTable s c) : NamesApart s c := by
  intro db tab table hmem hkey
  have hlen := h.length
  obtain ⟨d, found, hfind, hinv, hre, ⟨e, rfl, he, heq⟩ | ⟨-, hno⟩⟩ :=
    dictFind_spec opentabsOpts_lawful h.inv (by omega) (getTableKey c.db c.tab)
  · have hstep : cacheStep s c = some (⟨⟨d⟩, s.opened⟩, some e.value) := by
      have hargv : c.argv[1]? = some c.db ∧ c.argv[2]? = some c.tab := ⟨rfl, rfl⟩
      simp only [cacheStep, openTable, hargv.1, hargv.2, hfind, Option.bind_eq_bind,
        Option.bind_some, Option.map_some, openedBy, List.filterMap_nil, List.nil_append]
    have hrec := hright _ _ hstep
    have := List.inj_on_of_nodup_map h.keys hmem hrec hkey
    cases this
    exact ⟨rfl, rfl⟩
  · exact absurd ((h.holds_iff hre _).mpr ⟨_, hmem, hkey⟩) hno

end Cached

theorem along_apart_of_right {s : CacheSys} (hs : Cached s) {calls : List OpenCall}
    (hroom : s.opened.length + calls.length ≤ 2 ^ 29)
    (h : Machine.Along cacheStep RightTable s calls) :
    Machine.Along cacheStep NamesApart s calls := by
  induction calls generalizing s with
  | nil => trivial
  | cons c calls ih =>
      rw [List.length_cons] at hroom
      refine ⟨hs.apart_of_right (by omega) h.1, fun s' r hstep => ?_⟩
      obtain ⟨hs', hlen⟩ := hs.step (by omega) hstep
      exact ih hs' (by omega) (h.2 s' r hstep)

/-- A worker gets the right table as long as no table was opened for other names with the
same key, and, while the cache has room, only then. -/
theorem openTable_right_table (calls : List OpenCall) :
    (Machine.Along cacheStep NamesApart {} calls → Machine.Along cacheStep RightTable {} calls) ∧
      (calls.length ≤ 2 ^ 29 → Machine.Along cacheStep RightTable {} calls →
        Machine.Along cacheStep NamesApart {} calls) := by
  constructor
  · refine Machine.along_of_invariant Recorded (fun hs _ hstep => recorded_step hs hstep)
      (fun hs hapart => rightTable_of_apart hs hapart) fun e he => ?_
    cases he
  · intro hlen h
    have hempty : Cached {} := ⟨dictInv_create _, List.Perm.refl _, List.nodup_nil⟩
    refine along_apart_of_right hempty ?_ h
    · rw [List.length_nil, Nat.zero_add]
      exact hlen

def openDotted (db tab : Bytes) : OpenCall :=
  ⟨⟨fun db _ => some ⟨[db], false⟩, true, fun _ => ⟨0, 0⟩⟩, ascii "insert", db, tab, []⟩

/-- The second call gets the table `c` of `a.b` for the table `b.c` of `a`. -/
theorem openTable_wrong_table :
    ¬ Machine.Along cacheStep RightTable {}
      [openDotted (ascii "a.b") (ascii "c"), openDotted (ascii "a") (ascii "b.c")] := by
  intro h
  have hmem := (h.2 _ _ rfl).1 _ _ rfl
  revert hmem
  decide

end ThrSocket
