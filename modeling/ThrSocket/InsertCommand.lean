import ThrSocket.Handler

/-!
When an insert request is all or nothing. The value that ends the loop over the
rows is the return value of `thrs_insert_inner` in an `int`: 1 for a failed
row, and the generated id for a written one where the table has an
auto-increment column, so that such a row ends the loop as a failed one does.
-/

namespace ThrSocket
open CString

def written (calls : List DbCall) : List (Row × RowResult) :=
  calls.filterMap fun
    | .writeRow row result => some (row, result)
    | _ => none

def statementEnds (calls : List DbCall) : List DbCall :=
  calls.filter fun
    | .unlockTable _ | .rollbackStmt | .commitStmt => true
    | _ => false

@[simp] theorem written_append (xs ys : List DbCall) :
    written (xs ++ ys) = written xs ++ written ys := List.filterMap_append

@[simp] theorem statementEnds_append (xs ys : List DbCall) :
    statementEnds (xs ++ ys) = statementEnds xs ++ statementEnds ys := List.filter_append ..

def rowOf (tab : Table) (seq : Seq) (filenum : Int) (val : Bytes) : Option Row :=
  let fields := cstrSplit val (ascii ",")
  storeFields tab (fields.take (storeCount fields.length filenum)) seq

/-- If no row failed, all rows were attempted and the statement is committed; a row
that failed is the last one attempted, and the statement is rolled back. The
reply says which. -/
def AllOrNothing (tab : Table) (seq : Seq) (filenum : Int) (rows : List Bytes) (h : Handled) :
    Prop :=
  ((∀ w ∈ written h.calls, w.2.r = 0) →
    (written h.calls).map (fun w => some w.1) = rows.map (rowOf tab seq filenum) ∧
      statementEnds h.calls = [.unlockTable 0, .commitStmt] ∧ h.reply = .len 0) ∧
  ∀ pre w post, written h.calls = pre ++ w :: post → w.2.r ≠ 0 →
    post = [] ∧ ∃ rollback, statementEnds h.calls = [.unlockTable rollback, .rollbackStmt] ∧
      h.reply = .len rollback ∧ rollback ≠ 0

/-- No generated id of a row before the first failing one shows in an `int`. -/
def IdsVanish (mysql : Mysql) (tab : Table) (n : Nat) : Prop :=
  tab.foundNextNumberField = false ∨
    ∀ k < n, (∀ j ≤ k, (mysql.writeRow j).r = 0) →
      (mysql.writeRow k).insertId.toNat % 2 ^ 32 = 0

/-- The first `n` elements of `seq` are columns of the table. -/
def SeqSet (tab : Table) (seq : Seq) (n : Nat) : Prop :=
  ∀ i < n, ∃ j, seq[i]? = some (some j) ∧ j < tab.fields.length

theorem parseFieldsLoop_set {tab : Table} {fields : List Bytes} {i : Nat} {seq seq' : Seq}
    (h : parseFieldsLoop tab fields i seq = some (true, seq')) (hset : SeqSet tab seq i) :
    SeqSet tab seq' (i + fields.length) := by
  induction fields generalizing i seq with
  | nil =>
      cases h
      exact hset
  | cons field fields ih =>
      rw [parseFieldsLoop] at h
      cases hj : tab.fields.findIdx? (fieldMatches · field) with
      | none =>
          rw [hj] at h
          cases h
      | some j =>
          rw [hj] at h
          simp only at h
          split_ifs at h with hlt
          have hnext : SeqSet tab (seq.set i (some j)) (i + 1) := by
            intro k hk
            rcases Nat.lt_succ_iff_lt_or_eq.mp hk with hki | rfl
            · obtain ⟨j', hj', hcol⟩ := hset k hki
              exact ⟨j', by rw [List.getElem?_set_ne (by omega), hj'], hcol⟩
            · obtain ⟨hcol, _⟩ := List.findIdx?_eq_some_iff_getElem.mp hj
              exact ⟨j, List.getElem?_set_self hlt, hcol⟩
          have := ih h hnext
          rw [List.length_cons, Nat.add_comm fields.length, ← Nat.add_assoc]
          exact this

/-- A field list that was parsed has set as many elements as it says. -/
theorem thrsParseFields_set {tab : Table} {fieldstr : Bytes} {seq seq' : Seq} {len : Nat}
    {filenum : Int} (h : thrsParseFields tab fieldstr seq len = some (filenum, seq'))
    (hnum : 0 ≤ filenum) : SeqSet tab seq' filenum.toNat := by
  rw [thrsParseFields] at h
  simp only at h
  split_ifs at h
  · cases h
    omega
  · obtain ⟨⟨ok, seq₁⟩, hloop, heq⟩ := Option.bind_eq_some_iff.mp h
    cases ok with
    | false =>
        cases heq
        simp at hnum
    | true =>
        cases heq
        have := parseFieldsLoop_set hloop (fun i hi => absurd hi (Nat.not_lt_zero i))
        simpa using this

theorem storeFields_of_set {tab : Table} {fields : List Bytes} {seq : Seq}
    (h : SeqSet tab seq fields.length) : ∃ row, storeFields tab fields seq = some row := by
  induction fields generalizing seq with
  | nil => exact ⟨[], by unfold storeFields; rfl⟩
  | cons field fields ih =>
      cases seq with
      | nil =>
          obtain ⟨j, hj, _⟩ := h 0 (Nat.succ_pos _)
          cases hj
      | cons fn seq =>
          obtain ⟨j, hj, hcol⟩ := h 0 (Nat.succ_pos _)
          obtain rfl : fn = some j := by simpa using hj
          obtain ⟨row, hrow⟩ := ih fun i hi => h (i + 1) (Nat.succ_lt_succ hi)
          refine ⟨(j, field) :: row, ?_⟩
          simp only [storeFields, Option.bind_eq_bind, Option.bind_some, if_pos hcol, hrow]

/-- Every value string can be stored under a field list that was parsed. -/
theorem rowOf_of_set {tab : Table} {seq : Seq} {filenum : Int} (hnum : 0 ≤ filenum)
    (h : SeqSet tab seq filenum.toNat) (val : Bytes) :
    ∃ row, rowOf tab seq filenum val = some row := by
  refine storeFields_of_set fun i hi => h i ?_
  rw [List.length_take, storeCount, if_neg (by omega)] at hi
  omega

def rowCode (mysql : Mysql) (tab : Table) (k : Nat) : Int :=
  let result := mysql.writeRow k
  toInt
    (if result.r = 0 ∧ tab.foundNextNumberField then result.insertId
    else if result.r ≠ 0 then 1
    else 0)

theorem toInt_eq_zero {n : UInt64} : toInt n = 0 ↔ n.toNat % 2 ^ 32 = 0 := by
  unfold toInt
  rw [Int.bmod_def]
  omega

theorem rowCode_eq_zero {mysql : Mysql} {tab : Table} {k : Nat} :
    rowCode mysql tab k = 0 ↔ (mysql.writeRow k).r = 0 ∧
      (tab.foundNextNumberField = true → (mysql.writeRow k).insertId.toNat % 2 ^ 32 = 0) := by
  unfold rowCode
  simp only
  rw [toInt_eq_zero]
  split_ifs with h hr
  · simp [h.1, h.2]
  · simp [hr]
  · have hr0 : (mysql.writeRow k).r = 0 := not_not.mp hr
    have hauto : ¬ tab.foundNextNumberField = true := fun ha => h ⟨hr0, ha⟩
    simp [hr0, hauto]

inductive InsertRun (mysql : Mysql) (tab : Table) (seq : Seq) (filenum : Int) (rows : List Bytes)
    (k : Nat) (rs₀ : Int) (calls : List DbCall) (rs : Int) : Prop
  | through
      (stored : (written calls).map (fun w => some w.1) = rows.map (rowOf tab seq filenum))
      (results : (written calls).map (·.2) = (List.range' k rows.length).map mysql.writeRow)
      (zero : ∀ j < rows.length, rowCode mysql tab (k + j) = 0)
      (code : rs = if rows = [] then rs₀ else 0)
  | stopped (m : Nat) (lt : m < rows.length)
      (results : (written calls).map (·.2) = (List.range' k (m + 1)).map mysql.writeRow)
      (zero : ∀ j < m, rowCode mysql tab (k + j) = 0)
      (code : rs = rowCode mysql tab (k + m)) (nonzero : rs ≠ 0)

/-- A row that can be stored is written, and its result gives the code. -/
theorem thrsInsertInner_code {tab : Table} {seq : Seq} {filenum : Int} {val : Bytes} {row : Row}
    (hrow : rowOf tab seq filenum val = some row) (mysql : Mysql) (k : Nat) :
    ∃ id, thrsInsertInner tab (cstrSplit val (ascii ",")) seq filenum (mysql.writeRow k) =
      some (row, id) ∧ toInt id = rowCode mysql tab k := by
  rw [rowOf] at hrow
  refine ⟨_, ?_, rfl⟩
  simp only [thrsInsertInner, hrow, Option.bind_eq_bind, Option.bind_some]

theorem insertRows_run (mysql : Mysql) {tab : Table} {seq : Seq} {filenum : Int}
    (hnum : 0 ≤ filenum) (hset : SeqSet tab seq filenum.toNat) (rows : List Bytes) (k : Nat)
    (rs₀ : Int) :
    ∃ calls rs, insertRows mysql tab seq filenum rows k rs₀ = some (calls, rs) ∧
      statementEnds calls = [] ∧ InsertRun mysql tab seq filenum rows k rs₀ calls rs := by
  induction rows generalizing k rs₀ with
  | nil =>
      exact ⟨[], rs₀, rfl, rfl,
        .through rfl rfl (fun j hj => absurd hj (Nat.not_lt_zero j)) rfl⟩
  | cons val rows ih =>
      obtain ⟨row, hrow⟩ := rowOf_of_set hnum hset val
      obtain ⟨id, hinner, hcode⟩ := thrsInsertInner_code hrow mysql k
      rw [insertRows_cons, hinner, Option.bind_some, hcode]
      by_cases hzero : rowCode mysql tab k = 0
      · rw [if_neg (not_not.mpr hzero)]
        obtain ⟨calls, rs, hrest, hroll, hrun⟩ := ih (k + 1) (rowCode mysql tab k)
        rw [hrest, Option.bind_some]
        refine ⟨.writeRow row (mysql.writeRow k) :: calls, rs, rfl, hroll, ?_⟩
        have hw : written (.writeRow row (mysql.writeRow k) :: calls) =
            (row, mysql.writeRow k) :: written calls := rfl
        cases hrun with
        | through stored results zero code =>
            refine .through ?_ ?_ ?_ ?_
            · rw [hw, List.map_cons, List.map_cons, stored, hrow]
            · rw [hw, List.map_cons, results, List.length_cons, List.range'_succ, List.map_cons]
            · intro j hj
              cases j with
              | zero => exact hzero
              | succ j =>
                  rw [Nat.add_succ, ← Nat.succ_add]
                  exact zero j (Nat.lt_of_succ_lt_succ hj)
            · rw [if_neg (List.cons_ne_nil _ _), code, hzero]
              exact ite_self _
        | stopped m lt results zero code nonzero =>
            refine .stopped (m + 1) (Nat.succ_lt_succ lt) ?_ ?_ ?_ nonzero
            · rw [hw, List.map_cons, results, List.range'_succ (n := m + 1), List.map_cons]
            · intro j hj
              cases j with
              | zero => exact hzero
              | succ j =>
                  rw [Nat.add_succ, ← Nat.succ_add]
                  exact zero j (Nat.lt_of_succ_lt_succ hj)
            · rw [code, Nat.add_right_comm, Nat.add_assoc]
      · rw [if_pos hzero]
        refine ⟨_, _, rfl, rfl, .stopped 0 (Nat.succ_pos _) rfl ?_ ?_ hzero⟩
        · exact fun j hj => absurd hj (Nat.not_lt_zero j)
        · rw [Nat.add_zero]

section

variable {mysql : Mysql} {tab : Table} {seq : Seq} {filenum : Int} {rows : List Bytes}
  {rs₀ rs : Int} {calls : List DbCall} {h : Handled}

/-- The i-th attempt has the i-th result. -/
theorem written_result {n i : Nat} {w : Row × RowResult}
    (h : (written calls).map (·.2) = (List.range' 0 n).map mysql.writeRow)
    (hi : (written calls)[i]? = some w) : i < n ∧ w.2 = mysql.writeRow i := by
  have hget := congrArg (·[i]?) h
  simp only [List.getElem?_map, hi, Option.map_some] at hget
  by_cases hlt : i < n
  · rw [List.getElem?_range' hlt] at hget
    simpa [hlt] using hget
  · rw [List.getElem?_eq_none (by simpa using hlt)] at hget
    cases hget

/-- Where no code is other than 0, no row has failed and no id shows. -/
theorem idsVanish_of_zero (hzero : ∀ j < rows.length, rowCode mysql tab (0 + j) = 0) :
    IdsVanish mysql tab rows.length := by
  by_cases hauto : tab.foundNextNumberField = true
  · refine .inr fun k hk _ => ?_
    have hcode := hzero k hk
    rw [Nat.zero_add] at hcode
    exact (rowCode_eq_zero.mp hcode).2 hauto
  · exact .inl (by simpa using hauto)

theorem allOrNothing_of_through (hw : written h.calls = written calls)
    (hr : statementEnds h.calls = [.unlockTable rs, if rs ≠ 0 then .rollbackStmt else .commitStmt])
    (hreply : h.reply = .len rs)
    (stored : (written calls).map (fun w => some w.1) = rows.map (rowOf tab seq filenum))
    (results : (written calls).map (·.2) = (List.range' 0 rows.length).map mysql.writeRow)
    (zero : ∀ j < rows.length, rowCode mysql tab (0 + j) = 0)
    (code : rs = if rows = [] then rs₀ else 0) :
    AllOrNothing tab seq filenum rows h ↔
      (rows = [] → rs₀ = 0) ∧ IdsVanish mysql tab rows.length := by
  have hgood : ∀ w ∈ written calls, w.2.r = 0 := by
    intro w hmem
    obtain ⟨i, hi⟩ := List.mem_iff_getElem?.mp hmem
    obtain ⟨hlt, hres⟩ := written_result results hi
    have hcode := zero i hlt
    rw [Nat.zero_add] at hcode
    rw [hres]
    exact (rowCode_eq_zero.mp hcode).1
  rw [AllOrNothing, hw, hr, hreply, code]
  constructor
  · rintro ⟨hall, _⟩
    refine ⟨fun hnil => ?_, idsVanish_of_zero zero⟩
    have hends := (hall hgood).2.1
    rw [if_pos hnil] at hends
    exact DbCall.unlockTable.inj (List.cons.inj hends).1
  · rintro ⟨hinit, _⟩
    have hzero : (if rows = [] then rs₀ else 0) = 0 := by
      split_ifs with hnil
      · exact hinit hnil
      · rfl
    rw [hzero]
    refine ⟨fun _ => ⟨stored, by simp, rfl⟩, fun pre w post heq hfail => ?_⟩
    · exact absurd (hgood w (by rw [heq]; simp)) hfail

/-- The rows before the one that ended the loop. -/
theorem rowCode_before {m : Nat} (zero : ∀ j < m, rowCode mysql tab (0 + j) = 0) :
    ∀ j < m, (mysql.writeRow j).r = 0 ∧
      (tab.foundNextNumberField = true → (mysql.writeRow j).insertId.toNat % 2 ^ 32 = 0) := by
  intro j hj
  have hcode := zero j hj
  rw [Nat.zero_add] at hcode
  exact rowCode_eq_zero.mp hcode

/-- A written row that ends the loop by its id is rolled back. -/
theorem not_allOrNothing_of_id (hw : written h.calls = written calls)
    (hr : statementEnds h.calls = [.unlockTable rs, if rs ≠ 0 then .rollbackStmt else .commitStmt])
    {m : Nat} (results : (written calls).map (·.2) = (List.range' 0 (m + 1)).map mysql.writeRow)
    (nonzero : rs ≠ 0) (hgood : ∀ j ≤ m, (mysql.writeRow j).r = 0) :
    ¬ AllOrNothing tab seq filenum rows h := by
  rw [AllOrNothing, hw, hr]
  rintro ⟨hall, _⟩
  have hroll := (hall fun w hmem => by
    obtain ⟨i, hi⟩ := List.mem_iff_getElem?.mp hmem
    obtain ⟨hlt, hres⟩ := written_result results hi
    rw [hres]
    exact hgood i (Nat.le_of_lt_succ hlt)).2.1
  exact nonzero (DbCall.unlockTable.inj (List.cons.inj hroll).1)

/-- A row that fails ends the loop, and everything is rolled back. -/
theorem allOrNothing_of_failed (hw : written h.calls = written calls)
    (hr : statementEnds h.calls = [.unlockTable rs, if rs ≠ 0 then .rollbackStmt else .commitStmt])
    (hreply : h.reply = .len rs) {m : Nat}
    (results : (written calls).map (·.2) = (List.range' 0 (m + 1)).map mysql.writeRow)
    (nonzero : rs ≠ 0) (hbefore : ∀ j < m, (mysql.writeRow j).r = 0)
    (hfail : (mysql.writeRow m).r ≠ 0) : AllOrNothing tab seq filenum rows h := by
  have hlen : (written calls).length = m + 1 := by
    have := congrArg List.length results
    simpa using this
  rw [AllOrNothing, hw, hr, hreply]
  refine ⟨fun hall => ?_, fun pre w post heq hw' => ?_⟩
  · have hm := List.getElem?_eq_getElem (l := written calls) (i := m) (by omega)
    obtain ⟨_, hres⟩ := written_result results hm
    have hr0 := hall _ (List.mem_of_getElem? hm)
    rw [hres] at hr0
    exact absurd hr0 hfail
  · have hi : (written calls)[pre.length]? = some w := by
      rw [heq]
      simp
    obtain ⟨hlt, hres⟩ := written_result results hi
    have hlast : pre.length = m := by
      by_contra hne
      exact hw' (hres ▸ hbefore pre.length (by omega))
    have hpost : pre.length + (post.length + 1) = m + 1 := by
      rw [← hlen, heq, List.length_append, List.length_cons]
    exact ⟨List.length_eq_zero_iff.mp (by omega), rs, by rw [if_pos nonzero], rfl, nonzero⟩

theorem allOrNothing_of_stopped (hw : written h.calls = written calls)
    (hr : statementEnds h.calls = [.unlockTable rs, if rs ≠ 0 then .rollbackStmt else .commitStmt])
    (hreply : h.reply = .len rs) {m : Nat} (lt : m < rows.length)
    (results : (written calls).map (·.2) = (List.range' 0 (m + 1)).map mysql.writeRow)
    (zero : ∀ j < m, rowCode mysql tab (0 + j) = 0) (code : rs = rowCode mysql tab (0 + m))
    (nonzero : rs ≠ 0) :
    AllOrNothing tab seq filenum rows h ↔
      (rows = [] → rs₀ = 0) ∧ IdsVanish mysql tab rows.length := by
  have hbefore := rowCode_before zero
  have hstop : ¬ rowCode mysql tab m = 0 := by
    rw [Nat.zero_add] at code
    exact code ▸ nonzero
  by_cases hfail : (mysql.writeRow m).r = 0
  · obtain ⟨hauto, hid⟩ : tab.foundNextNumberField = true ∧
        ¬ (mysql.writeRow m).insertId.toNat % 2 ^ 32 = 0 := by
      by_contra hno
      exact hstop (rowCode_eq_zero.mpr ⟨hfail, fun ha => by_contra fun hid => hno ⟨ha, hid⟩⟩)
    have hgood : ∀ j ≤ m, (mysql.writeRow j).r = 0 := by
      intro j hj
      rcases Nat.lt_or_eq_of_le hj with hlt | rfl
      · exact (hbefore j hlt).1
      · exact hfail
    refine iff_of_false (not_allOrNothing_of_id hw hr results nonzero hgood) ?_
    rintro ⟨_, hno | hids⟩
    · rw [hauto] at hno
      cases hno
    · exact hid (hids m lt hgood)
  · have hrows : rows ≠ [] := fun hnil => by
      rw [hnil] at lt
      exact Nat.not_lt_zero _ lt
    refine iff_of_true
      (allOrNothing_of_failed hw hr hreply results nonzero (fun j hj => (hbefore j hj).1) hfail)
      ⟨fun hnil => absurd hnil hrows, ?_⟩
    by_cases hauto : tab.foundNextNumberField = true
    · refine .inr fun k hk hgood => ?_
      have hkm : k < m := by
        by_contra hge
        exact hfail (hgood m (Nat.not_lt.mp hge))
      exact (hbefore k hkm).2 hauto
    · exact .inl (by simpa using hauto)

theorem openTable_calls {ctx ctx' : DbCtx} {argv : List Bytes} {opened : List DbCall}
    {found : Option Table} (ho : openTable mysql ctx argv = some (ctx', opened, found)) :
    written opened = [] ∧ statementEnds opened = [] := by
  cases openTable_run ho <;> exact ⟨rfl, rfl⟩

theorem endStmt_calls (rollback : Int) :
    written (.unlockTable rollback :: endStmt rollback) = [] ∧
      statementEnds (.unlockTable rollback :: endStmt rollback) =
        [.unlockTable rollback, if rollback ≠ 0 then .rollbackStmt else .commitStmt] := by
  rw [endStmt]
  split_ifs <;> exact ⟨rfl, rfl⟩

/-- An insert request is all or nothing exactly when it has a row, or what `rs`
happens to hold is 0, and no written row ends the loop by its id. -/
theorem insertCommand_allOrNothing_iff {mysql : Mysql} {ctx ctx' : DbCtx}
    {command db name fieldstr : Bytes} {rows : List Bytes} {opened : List DbCall} {tab : Table}
    {filenum : Int} {seq : Seq} {rs₀ : Int}
    (hopen : openTable mysql ctx (command :: db :: name :: fieldstr :: rows) =
      some (ctx', opened, some tab))
    (hparse : thrsParseFields tab fieldstr uninitSeq sizeofSeq = some (filenum, seq))
    (hnum : 0 ≤ filenum) (hinit : rs₀ ≠ -1) (hlock : mysql.lockTables = true) :
    ∃ h, insertCommand mysql rs₀ ctx (command :: db :: name :: fieldstr :: rows) = some h ∧
      (AllOrNothing tab seq filenum rows h ↔
        (rows = [] → rs₀ = 0) ∧ IdsVanish mysql tab rows.length) := by
  obtain ⟨calls, rs, hrows, hroll, hrun⟩ :=
    insertRows_run mysql hnum (thrsParseFields_set hparse hnum) rows 0 rs₀
  refine ⟨⟨thrsCloseTable ctx', opened ++ .lockTables :: calls ++
    (.unlockTable rs :: endStmt rs) ++ [.closeTables], .len rs⟩, ?_, ?_⟩
  · have harg : (command :: db :: name :: fieldstr :: rows)[3]? = some fieldstr := rfl
    have hdrop : (command :: db :: name :: fieldstr :: rows).drop 4 = rows := rfl
    rw [insertCommand]
    simp only [hopen, harg, hparse, hdrop, hrows, thrsUnlockTable, hlock, if_true,
      Option.bind_eq_bind, Option.bind_some, if_neg hinit]
  · obtain ⟨hwo, hro⟩ := openTable_calls hopen
    obtain ⟨hwu, hru⟩ := endStmt_calls rs
    have hw : written (opened ++ .lockTables :: calls ++ (.unlockTable rs :: endStmt rs) ++
        [.closeTables]) = written calls := by
      rw [written_append, written_append, written_append, hwo, hwu, List.nil_append,
        List.append_nil]
      exact List.append_nil _
    have hr : statementEnds (opened ++ .lockTables :: calls ++ (.unlockTable rs :: endStmt rs) ++
        [.closeTables]) =
        [.unlockTable rs, if rs ≠ 0 then .rollbackStmt else .commitStmt] := by
      rw [statementEnds_append, statementEnds_append, statementEnds_append, hro, hru,
        List.nil_append]
      exact congrArg (· ++ _ ++ []) hroll
    cases hrun with
    | through stored results zero code =>
        exact allOrNothing_of_through hw hr rfl stored results zero code
    | stopped m lt results zero code nonzero =>
        exact allOrNothing_of_stopped hw hr rfl lt results zero code nonzero

end

def twoColumns (auto : Bool) : Table := ⟨[ascii "a", ascii "b"], auto⟩

def numbering (auto : Bool) (failing : Nat) : Mysql where
  openTable _ _ := some (twoColumns auto)
  lockTables := true
  writeRow k := ⟨if k = failing then 121 else 0, UInt64.ofNat (k + 1)⟩

def seqBA : Seq := (uninitSeq.set 0 (some 1)).set 1 (some 0)

theorem openTable_numbering (auto : Bool) (failing : Nat) (rows : List Bytes) :
    ∃ ctx', openTable (numbering auto failing) {}
      (ascii "insert" :: ascii "db" :: ascii "t" :: ascii "b,a" :: rows) =
        some (ctx', [.openTable (ascii "db") (ascii "t")], some (twoColumns auto)) :=
  ⟨_, rfl⟩

theorem thrsParseFields_twoColumns (auto : Bool) :
    thrsParseFields (twoColumns auto) (ascii "b,a") uninitSeq sizeofSeq = some (2, seqBA) := by
  revert auto
  decide +kernel

theorem insertCommand_allOrNothing_second_fails :
    ∃ h, insertCommand (numbering false 1) 0 {}
      [ascii "insert", ascii "db", ascii "t", ascii "b,a", ascii "1,2", ascii "3,4", ascii "5,6"] =
        some h ∧
      AllOrNothing (twoColumns false) seqBA 2 [ascii "1,2", ascii "3,4", ascii "5,6"] h := by
  obtain ⟨ctx', hopen⟩ :=
    openTable_numbering false 1 [ascii "1,2", ascii "3,4", ascii "5,6"]
  have hinit : (0 : Int) ≠ -1 := by decide
  obtain ⟨h, hrun, hiff⟩ := insertCommand_allOrNothing_iff hopen
    (thrsParseFields_twoColumns false) (by decide) hinit rfl
  exact ⟨h, hrun, hiff.mpr ⟨fun _ => rfl, .inl rfl⟩⟩

/-- The first row gets the id 1: the second is never written, and the first is rolled back. -/
theorem insertCommand_rolls_back_written :
    ∃ h, insertCommand (numbering true 2) 0 {}
      [ascii "insert", ascii "db", ascii "t", ascii "b,a", ascii "1,2", ascii "3,4"] = some h ∧
      written h.calls = [([(1, ascii "1"), (0, ascii "2")], ⟨0, 1⟩)] ∧
      statementEnds h.calls = [.unlockTable 1, .rollbackStmt] ∧
      ¬ AllOrNothing (twoColumns true) seqBA 2 [ascii "1,2", ascii "3,4"] h := by
  obtain ⟨ctx', hopen⟩ := openTable_numbering true 2 [ascii "1,2", ascii "3,4"]
  have hrows : insertRows (numbering true 2) (twoColumns true) seqBA 2
      [ascii "1,2", ascii "3,4"] 0 0 =
        some ([.writeRow [(1, ascii "1"), (0, ascii "2")] ⟨0, 1⟩], 1) := by
    decide +kernel
  refine ⟨⟨thrsCloseTable ctx', [.openTable (ascii "db") (ascii "t"), .lockTables,
    .writeRow [(1, ascii "1"), (0, ascii "2")] ⟨0, 1⟩, .unlockTable 1, .rollbackStmt,
    .unlockTables, .closeTables], .len 1⟩, ?_, rfl, rfl, ?_⟩
  · rw [insertCommand]
    simp only [hopen, thrsParseFields_twoColumns, List.getElem?_cons_succ,
      List.getElem?_cons_zero, Option.bind_eq_bind, Option.bind_some, List.drop_succ_cons,
      List.drop_zero, hrows]
    rfl
  · rintro ⟨hall, _⟩
    have hreply := (hall (by simp [written])).2.2
    cases hreply

end ThrSocket
