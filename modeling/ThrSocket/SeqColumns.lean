import ThrSocket.ArgvAccess

/-!
Which columns the handlers use. `thrs_parse_fields` compares a number of fields
with a number of bytes, `insert_command` tests `rs` where it means `filenum`, and
`get_command` compares what was returned with a `size_t`.
-/

namespace ThrSocket
open CString

def FieldUnknown (tab : Table) (field : Bytes) : Prop :=
  ¬ ∃ name ∈ tab.fields, fieldMatches name field

/-- Every name of the field list is one of a column, and they fit into `seq`. -/
def FieldsKnown (tab : Table) (fieldstr : Bytes) : Prop :=
  (cstrSplit fieldstr (ascii ",")).length ≤ seqSize ∧
    ∀ field ∈ cstrSplit fieldstr (ascii ","), ¬ FieldUnknown tab field

/-- There are so many fields that the test for it succeeds, or one of those that are
looked up before `seq` is full is unknown. -/
def FieldsRefused (tab : Table) (fieldstr : Bytes) : Prop :=
  sizeofSeq ≤ (cstrSplit fieldstr (ascii ",")).length ∨
    ∃ field ∈ (cstrSplit fieldstr (ascii ",")).take (seqSize + 1), FieldUnknown tab field

/-- The handler calls `thrs_parse_fields` with the table and the field list. -/
def ParsesFields (env : HandlerEnv) (ctx : DbCtx) (argv : List Bytes) (tab : Table)
    (fieldstr : Bytes) : Call → Prop
  | .pong => False
  | .insertCommand =>
      (∃ ctx' calls, openTable env.mysql ctx argv = some (ctx', calls, some tab)) ∧
        argv[3]? = some fieldstr
  | .getCommand =>
      (∃ ctx' calls, openTable env.mysql ctx argv = some (ctx', calls, some tab)) ∧
        argv[3]? = some fieldstr ∧ 6 < argv.length ∧
        (∃ name, argv[4]? = some name ∧ 0 ≤ thrsOpenIndex (env.keys tab) env.idxnum₀ name ∧
          (thrsOpenIndex (env.keys tab) env.idxnum₀ name).toNat < (env.keys tab).length) ∧
        env.indexNextSame ∈ [0, haErrRecordDeleted, haErrKeyNotFound, haErrEndOfFile]

/-- What the accesses of a request have to do with its field list. -/
structure ColumnsDefined (trace : List Access) : Prop where
  writes : ∀ i j, .seqWrite i j ∈ trace → i < seqSize
  reads : ∀ pre (i : Nat) fn post, trace = pre ++ .seqRead i fn :: post →
    ∃ (n : Int) (j : Nat), .parsed n ∈ pre ∧ i < n ∧ fn = some j ∧ .seqWrite i j ∈ pre
  rows : .parsed (-1) ∈ trace → ∀ row result, .db (.writeRow row result) ∉ trace
  columns : .parsed (-1) ∈ trace → ∀ fn, .column fn ∉ trace
  replies : .parsed (-1) ∈ trace → trace.flatMap Access.replied = [.cstr sharedErr]

def Access.Aside : Access → Prop
  | .argv _ | .locked _ | .indexRead _ _ | .db (.openTable _ _) | .db .lockTables => True
  | _ => False

/-- A read of `seq` is one of an element that was set by one of the writes. -/
def Access.Defined (writes : List Access) (n : Nat) : Access → Prop
  | .seqRead i fn => i < n ∧ ∃ j, fn = some j ∧ .seqWrite i j ∈ writes
  | .seqWrite _ _ | .parsed _ => False
  | _ => True

theorem columnsDefined_of_none {trace : List Access} (h : ∀ e ∈ trace, e.Defined [] 0) :
    ColumnsDefined trace where
  writes _ _ he := (h _ he).elim
  reads pre i fn post heq := by
    have he : Access.seqRead i fn ∈ trace := by simp [heq]
    exact absurd (h _ he).1 (Nat.not_lt_zero i)
  rows he := (h _ he).elim
  columns he := (h _ he).elim
  replies he := (h _ he).elim

/-- An element that is not in the first part is behind it. -/
theorem prefix_of_notMem {α : Type} {a b c d : List α} {e : α} (h : a ++ b = c ++ e :: d)
    (he : e ∉ a) : a <+: c := by
  rcases List.append_eq_append_iff.mp h with ⟨as, hc, -⟩ | ⟨cs, ha, hcs⟩
  · exact ⟨as, hc.symm⟩
  · cases cs with
    | nil => exact ⟨[], by simpa using ha⟩
    | cons x cs =>
        rw [List.cons_append] at hcs
        obtain ⟨rfl, -⟩ := List.cons.inj hcs
        exact absurd (by simp [ha]) he

theorem columnsDefined_of_known {pre writes post : List Access} {n : Nat}
    (hpre : ∀ e ∈ pre, e.Aside) (hwrites : ∀ e ∈ writes, ∃ k j, e = .seqWrite k j ∧ k < seqSize)
    (hpost : ∀ e ∈ post, e.Defined writes n) :
    ColumnsDefined (pre ++ writes ++ [.parsed n] ++ post) := by
  have hparsed : ∀ m, Access.parsed m ∈ pre ++ writes ++ [.parsed n] ++ post → m = n := by
    intro m he
    simp only [List.mem_append, List.mem_singleton, Access.parsed.injEq] at he
    rcases he with ((he | he) | rfl) | he
    · exact (hpre _ he).elim
    · obtain ⟨k, j, heq, -⟩ := hwrites _ he
      cases heq
    · rfl
    · exact (hpost _ he).elim
  have hne : ¬ (-1 : Int) = n := by omega
  refine ⟨fun i j he => ?_, fun pre' i fn post' heq => ?_, fun he => absurd (hparsed _ he) hne,
    fun he => absurd (hparsed _ he) hne, fun he => absurd (hparsed _ he) hne⟩
  · simp only [List.mem_append, List.mem_singleton, reduceCtorEq, or_false] at he
    rcases he with (he | he) | he
    · exact (hpre _ he).elim
    · obtain ⟨k, j', heq, hk⟩ := hwrites _ he
      cases heq
      exact hk
    · exact (hpost _ he).elim
  · have hnot : Access.seqRead i fn ∉ pre ++ writes ++ [.parsed n] := by
      intro he
      simp only [List.mem_append, List.mem_singleton, reduceCtorEq, or_false] at he
      rcases he with he | he
      · exact hpre _ he
      · obtain ⟨k, j, heq', -⟩ := hwrites _ he
        cases heq'
    obtain ⟨rest, rfl⟩ := prefix_of_notMem heq hnot
    have hmem : Access.seqRead i fn ∈ post := by
      rw [List.append_assoc _ rest] at heq
      rw [List.append_cancel_left heq]
      simp
    obtain ⟨hin, j, hfn, hj⟩ := hpost _ hmem
    exact ⟨n, j, by simp, by omega, hfn, by simp [hj]⟩

theorem Access.Aside.replied_eq_nil {e : Access} (h : e.Aside) : e.replied = [] := by
  unfold Access.replied
  split
  · exact h.elim
  · rfl

/-- The request is answered as soon as the field list is refused. -/
theorem columnsDefined_of_refused {pre writes : List Access} (hpre : ∀ e ∈ pre, e.Aside)
    (hwrites : ∀ e ∈ writes, ∃ k j, e = .seqWrite k j ∧ k < seqSize) :
    ColumnsDefined (pre ++ writes ++ [.parsed (-1)] ++
      [.reply (.cstr sharedErr), .db .closeTables]) := by
  have hmem : ∀ e ∈ pre ++ writes ++ [.parsed (-1)] ++
      [.reply (.cstr sharedErr), .db .closeTables],
      e.Aside ∨ (∃ k j, e = .seqWrite k j ∧ k < seqSize) ∨
        e ∈ [.parsed (-1), .reply (.cstr sharedErr), .db .closeTables] := by
    intro e he
    simp only [List.mem_append] at he
    rcases he with ((he | he) | he) | he
    · exact .inl (hpre e he)
    · exact .inr (.inl (hwrites e he))
    · exact .inr (.inr (List.mem_append_left [_, _] he))
    · exact .inr (.inr (List.mem_append_right [_] he))
  refine ⟨fun i j he => ?_, fun pre' i fn post heq => ?_, fun _ row result he => ?_,
    fun _ fn he => ?_, fun _ => ?_⟩
  · rcases hmem _ he with haside | ⟨k, j', heq, hk⟩ | he
    · exact haside.elim
    · cases heq
      exact hk
    · simp at he
  · have hin : Access.seqRead i fn ∈ pre' ++ .seqRead i fn :: post := by simp
    rw [← heq] at hin
    rcases hmem _ hin with haside | ⟨k, j', heq', -⟩ | he
    · exact haside.elim
    · cases heq'
    · simp at he
  · rcases hmem _ he with haside | ⟨k, j', heq, -⟩ | he
    · exact haside.elim
    · cases heq
    · simp at he
  · rcases hmem _ he with haside | ⟨k, j', heq, -⟩ | he
    · exact haside.elim
    · cases heq
    · simp at he
  · have hnil : (pre ++ writes).flatMap Access.replied = [] := by
      refine List.flatMap_eq_nil_iff.mpr fun e he => ?_
      rcases List.mem_append.mp he with he | he
      · exact (hpre e he).replied_eq_nil
      · obtain ⟨k, j, rfl, -⟩ := hwrites e he
        rfl
    rw [List.flatMap_append, List.flatMap_append, hnil]
    rfl

def Access.IsSeqRead : Access → Prop
  | .seqRead _ _ => True
  | _ => False

theorem not_columnsDefined_of_refused {pre writes post : List Access}
    (hpre : ∀ e ∈ pre, e.Aside)
    (hwrites : ∀ e ∈ writes, ∃ k j, e = .seqWrite k j ∧ k < seqSize)
    (hpost : ∀ e ∈ post, ∀ n, e ≠ .parsed n)
    (hbad : (∃ e ∈ post, e.IsSeqRead) ∨ .reply (.cstr sharedErr) ∉ post) :
    ¬ ColumnsDefined (pre ++ writes ++ [.parsed (-1)] ++ post) := by
  intro h
  rcases hbad with ⟨e, he, hread⟩ | hno
  · have hin : e ∈ pre ++ writes ++ [.parsed (-1)] ++ post := List.mem_append_right _ he
    cases e with
    | seqRead i fn =>
        obtain ⟨pre', post', heq⟩ := List.append_of_mem hin
        obtain ⟨n, j, hparsed, hlt, -⟩ := h.reads pre' i fn post' heq
        have hmem : Access.parsed n ∈ pre ++ writes ++ [.parsed (-1)] ++ post := by
          rw [heq]
          exact List.mem_append_left _ hparsed
        simp only [List.mem_append, List.mem_singleton, Access.parsed.injEq] at hmem
        rcases hmem with ((hmem | hmem) | rfl) | hmem
        · exact hpre _ hmem
        · obtain ⟨k, j', heq', -⟩ := hwrites _ hmem
          cases heq'
        · omega
        · exact hpost _ hmem n rfl
    | _ => exact hread
  · have hmem : ReplyCall.cstr sharedErr ∈
        (pre ++ writes ++ [Access.parsed (-1)] ++ post).flatMap Access.replied := by
      rw [h.replies (by simp)]
      exact List.mem_singleton_self _
    obtain ⟨e, he, hreply⟩ := List.mem_flatMap.mp hmem
    simp only [List.mem_append, List.mem_singleton] at he
    rcases he with ((he | he) | rfl) | he
    · have := (hpre e he).replied_eq_nil
      rw [this] at hreply
      cases hreply
    · obtain ⟨k, j, rfl, -⟩ := hwrites e he
      cases hreply
    · cases hreply
    · cases e with
      | reply r =>
          cases List.mem_singleton.mp hreply
          exact hno he
      | _ => cases hreply

namespace Handler

open Traced

variable {tab : Table} {fieldstr : Bytes}

/-- The writes are within `seq`, up to the first one that is not. -/
theorem parseFieldsLoop_writes (tab : Table) (fields : List Bytes) {i : Nat} {seq : Seq}
    (hi : i ≤ seq.length) : ∀ e ∈ (parseFieldsLoop tab fields i seq).events,
      ∃ k j, e = .seqWrite k j ∧
        (k < seq.length ∨ k = seq.length ∧ (parseFieldsLoop tab fields i seq).result = none) := by
  induction fields generalizing i seq with
  | nil => exact fun e he => absurd he List.not_mem_nil
  | cons field fields ih =>
      rw [parseFieldsLoop]
      cases tab.fields.findIdx? (fieldMatches · field) with
      | none => exact fun e he => absurd he List.not_mem_nil
      | some j =>
          simp only [emit_bind, List.mem_cons]
          rintro e (rfl | he)
          · refine ⟨i, j, rfl, ?_⟩
            by_cases hlt : i < seq.length
            · exact .inl hlt
            · exact .inr ⟨by omega, by rw [if_neg hlt]; rfl⟩
          · by_cases hlt : i < seq.length
            · rw [if_pos hlt] at he ⊢
              simpa using ih (i := i + 1) (by rw [List.length_set]; omega) e he
            · rw [if_neg hlt] at he
              exact absurd he List.not_mem_nil

/-- A write of the loop has set its element. -/
theorem parseFieldsLoop_stored {fields : List Bytes} {i : Nat} {seq seq' : Seq} {ok : Bool}
    (h : (parseFieldsLoop tab fields i seq).result = some (ok, seq')) {pre : List Access}
    (hpre : ∀ k < i, ∃ j, seq[k]? = some (some j) ∧ .seqWrite k j ∈ pre) :
    ok = true → ∀ k < i + fields.length, ∃ j, seq'[k]? = some (some j) ∧
      .seqWrite k j ∈ pre ++ (parseFieldsLoop tab fields i seq).events := by
  induction fields generalizing i seq pre with
  | nil =>
      cases h
      intro _ k hk
      simpa [parseFieldsLoop] using hpre k hk
  | cons field fields ih =>
      rw [parseFieldsLoop] at h ⊢
      cases hj : tab.fields.findIdx? (fieldMatches · field) with
      | none =>
          rw [hj] at h
          cases h
          exact fun hok => absurd hok (by decide)
      | some j =>
          rw [hj] at h
          simp only [emit_bind] at h ⊢
          by_cases hlt : i < seq.length
          · rw [if_pos hlt] at h ⊢
            rw [List.append_cons, List.length_cons, Nat.add_comm fields.length, ← Nat.add_assoc]
            refine ih h fun k hk => ?_
            rcases Nat.lt_succ_iff_lt_or_eq.mp hk with hki | rfl
            · obtain ⟨j', hj', hmem⟩ := hpre k hki
              exact ⟨j', by rw [List.getElem?_set_ne (by omega), hj'], List.mem_append_left _ hmem⟩
            · exact ⟨j, List.getElem?_set_self hlt, by simp⟩
          · rw [if_neg hlt] at h
            cases h

theorem findIdx_eq_none {field : Bytes} :
    tab.fields.findIdx? (fieldMatches · field) = none ↔ FieldUnknown tab field := by
  simp [List.findIdx?_eq_none_iff, FieldUnknown]

/-- The loop ends at the first field that is unknown or has no place. -/
theorem parseFieldsLoop_result (tab : Table) (fields : List Bytes) {i : Nat} {seq : Seq}
    (hi : i ≤ seq.length) :
    (∃ seq', (parseFieldsLoop tab fields i seq).result = some (true, seq')) ∧
        i + fields.length ≤ seq.length ∧ (∀ field ∈ fields, ¬ FieldUnknown tab field) ∨
      (∃ seq', (parseFieldsLoop tab fields i seq).result = some (false, seq')) ∧
        (∃ field ∈ fields.take (seq.length + 1 - i), FieldUnknown tab field) ∨
      (∃ j, .seqWrite seq.length j ∈ (parseFieldsLoop tab fields i seq).events) ∧
        (parseFieldsLoop tab fields i seq).result = none ∧
        seq.length < i + fields.length ∧
        ∀ field ∈ fields.take (seq.length + 1 - i), ¬ FieldUnknown tab field := by
  induction fields generalizing i seq with
  | nil => exact .inl ⟨⟨seq, rfl⟩, by simpa using hi, by simp⟩
  | cons field fields ih =>
      rw [parseFieldsLoop, show seq.length + 1 - i = (seq.length - i) + 1 by omega,
        List.take_succ_cons]
      cases hj : tab.fields.findIdx? (fieldMatches · field) with
      | none => exact .inr (.inl ⟨⟨seq, rfl⟩, field, by simp, findIdx_eq_none.mp hj⟩)
      | some j =>
          have hfound : ¬ FieldUnknown tab field := by
            rw [← findIdx_eq_none, hj]
            exact Option.some_ne_none j
          simp only [emit_bind, List.mem_cons, List.length_cons, forall_eq_or_imp,
            exists_eq_or_imp]
          by_cases hlt : i < seq.length
          · rw [if_pos hlt]
            have hrest := @ih (i + 1) (seq.set i (some j))
              (by rw [List.length_set]; omega)
            rw [List.length_set, Nat.add_sub_add_right, Nat.add_right_comm, Nat.add_assoc] at hrest
            rcases hrest with ⟨hres, hlen, hall⟩ | ⟨hres, hex⟩ | ⟨⟨j', hj'⟩, hres, hlen, hall⟩
            · exact .inl ⟨hres, hlen, hfound, hall⟩
            · exact .inr (.inl ⟨hres, .inr hex⟩)
            · exact .inr (.inr ⟨⟨j', .inr hj'⟩, hres, hlen, hfound, hall⟩)
          · rw [if_neg hlt]
            obtain rfl : i = seq.length := by omega
            refine .inr (.inr ⟨⟨j, .inl rfl⟩, rfl, by omega, hfound, ?_⟩)
            simp

inductive ParseRun (tab : Table) (fieldstr : Bytes) (x : M (Int × Seq)) : Prop
  | known (writes : List Access) (seq : Seq) (n : Nat) (known : FieldsKnown tab fieldstr)
      (small : n ≤ seqSize)
      (within : ∀ e ∈ writes, ∃ k j, e = .seqWrite k j ∧ k < seqSize)
      (stored : ∀ k < n, ∃ j, seq[k]? = some (some j) ∧ .seqWrite k j ∈ writes)
      (eq : x = ⟨writes ++ [.parsed n], some ((n : Int), seq)⟩)
  | refused (writes : List Access) (seq : Seq) (unknown : ¬ FieldsKnown tab fieldstr)
      (refused : FieldsRefused tab fieldstr)
      (within : ∀ e ∈ writes, ∃ k j, e = .seqWrite k j ∧ k < seqSize)
      (eq : x = ⟨writes ++ [.parsed (-1)], some (-1, seq)⟩)
  | overrun (j : Nat) (unknown : ¬ FieldsKnown tab fieldstr)
      (notRefused : ¬ FieldsRefused tab fieldstr) (mem : .seqWrite seqSize j ∈ x.events)

theorem thrsParseFields_run (tab : Table) (fieldstr : Bytes) :
    ParseRun tab fieldstr (thrsParseFields tab fieldstr uninitSeq sizeofSeq) := by
  have hsize : uninitSeq.length = seqSize := List.length_replicate
  rw [thrsParseFields]
  simp only
  split
  · rename_i hmany
    refine .refused [] uninitSeq (fun hknown => ?_) (.inl hmany) (by simp) rfl
    have hlen := hknown.1
    rw [sizeofSeq, seqSize] at *
    omega
  · rename_i hfew
    have hwrites := parseFieldsLoop_writes tab (cstrSplit fieldstr (ascii ","))
      (Nat.zero_le uninitSeq.length)
    have hstored := @parseFieldsLoop_stored tab (cstrSplit fieldstr (ascii ",")) 0 uninitSeq
    have hresult := parseFieldsLoop_result tab (cstrSplit fieldstr (ascii ","))
      (Nat.zero_le uninitSeq.length)
    rw [hsize] at hwrites hresult
    rw [Nat.zero_add] at hresult hstored
    generalize parseFieldsLoop tab (cstrSplit fieldstr (ascii ",")) 0 uninitSeq = x at *
    rcases hresult with ⟨⟨seq', hres⟩, hlen, hall⟩ | ⟨⟨seq', hres⟩, hex⟩ |
      ⟨⟨j, hj⟩, hres, hlen, hall⟩
    · refine .known x.events seq' (cstrSplit fieldstr (ascii ",")).length ⟨hlen, hall⟩ hlen
        (fun e he => ?_) ?_ ?_
      · obtain ⟨k, j, rfl, hk | ⟨-, hnone⟩⟩ := hwrites e he
        · exact ⟨k, j, rfl, hk⟩
        · rw [hres] at hnone
          cases hnone
      · exact @hstored _ _ hres [] (fun k hk => absurd hk (Nat.not_lt_zero k)) rfl
      · rw [bind_of_result hres]
        rfl
    · refine .refused x.events seq' (fun hknown => ?_) (.inr hex) (fun e he => ?_) ?_
      · obtain ⟨field, hmem, hunknown⟩ := hex
        exact hknown.2 field (List.mem_of_mem_take hmem) hunknown
      · obtain ⟨k, j, rfl, hk | ⟨-, hnone⟩⟩ := hwrites e he
        · exact ⟨k, j, rfl, hk⟩
        · rw [hres] at hnone
          cases hnone
      · rw [bind_of_result hres]
        rfl
    · refine .overrun j (fun hknown => ?_) ?_ ?_
      · exact absurd hknown.1 (by omega)
      · rintro (hmany | ⟨field, hmem, hunknown⟩)
        · exact hfew hmany
        · exact hall field hmem hunknown
      · exact mem_bind_events.mpr (.inl hj)

section

variable {env : HandlerEnv} {ctx : DbCtx} {argv : List Bytes} {writes : List Access} {n : Nat}
  {seq : Seq}

theorem defined_outside (writes : List Access) (n : Nat) : Outside (Access.Defined writes n) :=
  ⟨fun _ => trivial, trivial, fun _ => trivial, fun _ _ _ => trivial, trivial, fun _ => trivial⟩

theorem defined_seqRead
    (hstored : ∀ k < n, ∃ j, seq[k]? = some (some j) ∧ .seqWrite k j ∈ writes) :
    ∀ i < n, Access.Defined writes n (.seqRead i seq[i]?.join) := by
  intro i hi
  obtain ⟨j, hj, hmem⟩ := hstored i hi
  exact ⟨hi, j, by rw [hj, Option.join_some], hmem⟩

theorem defined_insertParsed (hargs : 4 ≤ argv.length)
    (hstored : ∀ k < n, ∃ j, seq[k]? = some (some j) ∧ .seqWrite k j ∈ writes) :
    All (Access.Defined writes n) (insertParsed env ctx argv tab n seq) := by
  refine all_insertParsed (defined_outside _ _) (fun _ _ => trivial) hargs (fun _ _ => trivial)
    fun m i hi => ?_
  refine defined_seqRead hstored i ?_
  rw [storeCount, if_neg (by omega)] at hi
  omega

theorem defined_readColumns (hsmall : n ≤ seqSize)
    (hstored : ∀ k < n, ∃ j, seq[k]? = some (some j) ∧ .seqWrite k j ∈ writes) :
    All (Access.Defined writes n) (readColumns tab seq (sizeOfInt n) 0) := by
  refine all_readColumns (defined_seqRead hstored) (fun _ => trivial) _ ?_
  rw [seqSize] at hsmall
  rw [sizeOfInt]
  omega

/-- Behind the lock the only reply is a number. -/
theorem insertLocked_no_err (filenum : Int) :
    All (· ≠ .reply (.cstr sharedErr)) (insertLocked env ctx argv tab filenum seq) := by
  refine all_bind (all_lockTables (by simp) (by simp)) fun _ _ => ?_
  refine all_bind (all_insertRows (by simp) (by simp) (by simp) (by simp) (Nat.le_refl _) _)
    fun rs _ => ?_
  exact all_bind (all_unlockTable (by simp)) fun _ _ =>
    all_bind (all_closeTable (by simp)) fun _ _ => all_bind (all_emit (by simp)) fun _ _ =>
      all_pure _

theorem notParsed_outside : Outside fun e => ∀ n, e ≠ .parsed n := by
  constructor <;> simp

variable {calls : List DbCall} {ctx' : DbCtx}

theorem after_insertCommand
    (hopen : ThrSocket.openTable env.mysql ctx argv = some (ctx', calls, some tab))
    (harg : argv[3]? = some fieldstr) :
    After Access.Aside (insertCommand env ctx argv)
      (thrsParseFields tab fieldstr uninitSeq sizeofSeq >>= fun p =>
        insertParsed env ctx' argv tab p.1 p.2) := by
  have hres : (openTable env.mysql ctx argv).result = some (ctx', some tab) :=
    openTable_result_iff.mpr ⟨calls, hopen⟩
  refine (after_bind (all_openTable trivial trivial fun _ _ => trivial) hres).trans ?_
  exact after_bind (all_readArgv trivial) (by rw [readArgv_result, harg])

theorem after_getCommand
    (hopen : ThrSocket.openTable env.mysql ctx argv = some (ctx', calls, some tab))
    (harg : argv[3]? = some fieldstr) (hlen : 6 < argv.length) {name : Bytes}
    (hname : argv[4]? = some name)
    (hidx : 0 ≤ thrsOpenIndex (env.keys tab) env.idxnum₀ name)
    (hkey : (thrsOpenIndex (env.keys tab) env.idxnum₀ name).toNat < (env.keys tab).length)
    (hnext : env.indexNextSame ∈ [0, haErrRecordDeleted, haErrKeyNotFound, haErrEndOfFile]) :
    After Access.Aside (getCommand env ctx argv)
      (thrsParseFields tab fieldstr uninitSeq sizeofSeq >>= fun p =>
        readColumns tab p.2 (sizeOfInt p.1) 0 >>= fun _ => getDone env ctx') := by
  have hres : (openTable env.mysql ctx argv).result = some (ctx', some tab) :=
    openTable_result_iff.mpr ⟨calls, hopen⟩
  have harg6 : (readArgv argv 6).result = some argv[6] := by
    rw [readArgv_result, List.getElem?_eq_getElem hlen]
  refine (after_bind (all_openTable trivial trivial fun _ _ => trivial) hres).trans ?_
  refine (after_bind (all_readArgv trivial) (by rw [readArgv_result, hname])).trans ?_
  simp only
  rw [if_neg (by omega)]
  refine (after_bind (all_lockTables trivial trivial) rfl).trans ?_
  rw [if_pos hkey]
  refine (after_bind (all_readArgv trivial) harg6).trans ?_
  refine (after_bind (all_readArgv trivial) harg6).trans ?_
  refine (after_bind (all_emit trivial) rfl).trans ?_
  rw [← bind_assoc]
  refine After.bind ?_ _
  rw [readRow]
  simp only
  rw [if_neg (fun h => by simp [h.1, h.2.1, h.2.2.1, h.2.2.2] at hnext)]
  exact after_bind (all_readArgv trivial) (by rw [readArgv_result, harg])

theorem defined_of_not_parses {call : Call}
    (h : ∀ tab fieldstr, ¬ ParsesFields env ctx argv tab fieldstr call) :
    All (Access.Defined [] 0) (call.run env ctx argv) := by
  cases call with
  | pong => exact all_bind (all_emit trivial) fun _ _ => all_pure _
  | insertCommand =>
      refine all_bind (all_openTable trivial trivial fun _ _ => trivial) fun r hr => ?_
      obtain ⟨ctx', tab⟩ := r
      obtain ⟨calls, hopen⟩ := openTable_result_iff.mp hr
      cases tab with
      | none => exact all_bind (all_emit trivial) fun _ _ => all_pure _
      | some tab =>
          refine all_bind (all_readArgv trivial) fun fieldstr harg => ?_
          rw [readArgv_result] at harg
          exact absurd ⟨⟨ctx', calls, hopen⟩, harg⟩ (h tab fieldstr)
  | getCommand =>
      refine all_bind (all_openTable trivial trivial fun _ _ => trivial) fun r hr => ?_
      obtain ⟨ctx', tab⟩ := r
      obtain ⟨calls, hopen⟩ := openTable_result_iff.mp hr
      cases tab with
      | none => exact all_bind (all_emit trivial) fun _ _ => all_pure _
      | some tab =>
          refine all_bind (all_readArgv trivial) fun name hname => ?_
          rw [readArgv_result] at hname
          simp only
          split
          · exact all_bind (all_emit trivial) fun _ _ => all_pure _
          · rename_i hidx
            refine all_bind (all_lockTables trivial trivial) fun _ _ => ?_
            split
            · rename_i hkey
              refine all_bind (all_readArgv trivial) fun key hlen => ?_
              rw [readArgv_result] at hlen
              obtain ⟨hlen, -⟩ := List.getElem?_eq_some_iff.mp hlen
              refine all_bind (all_readArgv trivial) fun _ _ => ?_
              refine all_bind (all_emit trivial) fun _ _ => ?_
              refine all_bind ?_ fun _ _ => all_getDone (defined_outside _ _)
              rw [readRow]
              simp only
              split
              · exact all_pure _
              · rename_i hnext
                refine all_bind (all_readArgv trivial) fun fieldstr harg => ?_
                rw [readArgv_result] at harg
                have hcode : env.indexNextSame ∈
                    [0, haErrRecordDeleted, haErrKeyNotFound, haErrEndOfFile] := by
                  by_contra hno
                  simp only [List.mem_cons, List.not_mem_nil, or_false, not_or] at hno
                  exact hnext ⟨hno.1, hno.2.1, hno.2.2.1, hno.2.2.2⟩
                exact absurd ⟨⟨ctx', calls, hopen⟩, harg, hlen,
                  ⟨name, hname, by omega, hkey⟩, hcode⟩ (h tab fieldstr)
            · exact all_stuck

/-- A field list that is parsed with success is the only one that both handlers survive. -/
theorem columnsDefined_bind_iff {x : M DbCtx} {f : Int × Seq → M DbCtx} {accepts : Prop}
    (hafter : After Access.Aside x (thrsParseFields tab fieldstr uninitSeq sizeofSeq >>= f))
    (hknown : ∀ (writes : List Access) (seq : Seq) (n : Nat), n ≤ seqSize →
      (∀ k < n, ∃ j, seq[k]? = some (some j) ∧ .seqWrite k j ∈ writes) →
        All (Access.Defined writes n) (f (n, seq)))
    (haccepts : accepts → ∀ seq,
      (f (-1, seq)).events = [.reply (.cstr sharedErr), .db .closeTables])
    (hnot : ¬ accepts → ∀ seq, (∀ e ∈ (f (-1, seq)).events, ∀ n, e ≠ .parsed n) ∧
      ((∃ e ∈ (f (-1, seq)).events, e.IsSeqRead) ∨
        .reply (.cstr sharedErr) ∉ (f (-1, seq)).events)) :
    ColumnsDefined x.events ↔
      FieldsKnown tab fieldstr ∨ accepts ∧ FieldsRefused tab fieldstr := by
  obtain ⟨pre, hpre, rfl⟩ := hafter
  cases thrsParseFields_run tab fieldstr with
  | known writes seq n known small within stored eq =>
      rw [eq, bind_of_result rfl]
      refine iff_of_true ?_ (.inl known)
      have := columnsDefined_of_known hpre within (hknown writes seq n small stored)
      rwa [List.append_assoc pre, List.append_assoc] at this
  | refused writes seq unknown refused within eq =>
      rw [eq, bind_of_result rfl]
      simp only
      rw [← List.append_assoc, ← List.append_assoc]
      by_cases h : accepts
      · rw [haccepts h]
        exact iff_of_true (columnsDefined_of_refused hpre within) (.inr ⟨h, refused⟩)
      · obtain ⟨hpost, hbad⟩ := hnot h seq
        refine iff_of_false (not_columnsDefined_of_refused hpre within hpost hbad) ?_
        rintro (hk | ⟨ha, -⟩)
        · exact unknown hk
        · exact h ha
  | overrun j unknown notRefused mem =>
      refine iff_of_false (fun h => ?_) ?_
      · have hlt := h.writes seqSize j
          (List.mem_append_right _ (mem_bind_events.mpr (.inl mem)))
        omega
      · rintro (hk | ⟨-, hr⟩)
        · exact unknown hk
        · exact notRefused hr

theorem columnsDefined_iff_of_parses {call : Call}
    (h : ParsesFields env ctx argv tab fieldstr call) :
    ColumnsDefined (call.run env ctx argv).events ↔ FieldsKnown tab fieldstr ∨
      (call = .insertCommand ∧ env.rs₀ = -1) ∧ FieldsRefused tab fieldstr := by
  cases call with
  | pong => exact h.elim
  | insertCommand =>
      obtain ⟨⟨ctx', calls, hopen⟩, harg⟩ := h
      have hargs : 4 ≤ argv.length := by
        obtain ⟨hlt, -⟩ := List.getElem?_eq_some_iff.mp harg
        exact hlt
      refine columnsDefined_bind_iff (after_insertCommand hopen harg)
        (fun _ _ _ _ hstored => defined_insertParsed hargs hstored) (fun hrs seq => ?_)
        (fun hrs seq => ?_)
      · simp only
        rw [insertParsed, if_pos hrs.2]
        rfl
      · simp only
        rw [insertParsed, if_neg fun hneg => hrs ⟨rfl, hneg⟩]
        exact ⟨all_insertLocked notParsed_outside (by simp) hargs (by simp) (by simp),
          .inr fun hmem => insertLocked_no_err _ _ hmem rfl⟩
  | getCommand =>
      obtain ⟨⟨ctx', calls, hopen⟩, harg, hlen, ⟨name, hname, hidx, hkey⟩, hnext⟩ := h
      refine columnsDefined_bind_iff (after_getCommand hopen harg hlen hname hidx hkey hnext)
        (fun writes seq n hsmall hstored => ?_) (fun hno => by cases hno.1) (fun _ seq => ⟨?_, ?_⟩)
      · exact all_bind (defined_readColumns hsmall hstored) fun _ _ =>
          all_getDone (defined_outside _ _)
      · refine all_bind (all_readColumns (by simp) (by simp) _ (Nat.le_refl _)) fun _ _ => ?_
        exact all_getDone notParsed_outside
      · refine .inl ⟨.seqRead 0 seq[0]?.join, ?_, trivial⟩
        have hmany : sizeOfInt (-1) = (2 ^ 64 - 2) + 1 := by decide
        refine mem_bind_events.mpr (.inl ?_)
        simp only
        rw [hmany, readColumns]
        exact mem_bind_events.mpr (.inl (mem_bind_events.mpr (.inl (by simp))))

end

end Handler

/-- The columns of a request are those of its field list exactly when the field list is
parsed with success, or is refused by an insert whose `rs` happens to hold -1. -/
theorem columnsDefined_iff (call : Call) (env : HandlerEnv) (ctx : DbCtx) (argv : List Bytes) :
    ColumnsDefined (call.run env ctx argv).events ↔
      ∀ tab fieldstr, ParsesFields env ctx argv tab fieldstr call →
        FieldsKnown tab fieldstr ∨
          (call = .insertCommand ∧ env.rs₀ = -1) ∧ FieldsRefused tab fieldstr := by
  constructor
  · exact fun h tab fieldstr hparses => (Handler.columnsDefined_iff_of_parses hparses).mp h
  · intro h
    by_cases hparses : ∃ tab fieldstr, ParsesFields env ctx argv tab fieldstr call
    · obtain ⟨tab, fieldstr, hparses⟩ := hparses
      exact (Handler.columnsDefined_iff_of_parses hparses).mpr (h tab fieldstr hparses)
    · exact columnsDefined_of_none
        (Handler.defined_of_not_parses fun tab fieldstr hp => hparses ⟨tab, fieldstr, hp⟩)

/-- The field `b` is unknown; the first row uses what lies in `seq[0]`, which nothing was
stored in. -/
theorem columnsDefined_unknown_field :
    ¬ ColumnsDefined ((Call.insertCommand.run (oneColumnEnv true 0) {} [ascii "insert",
      ascii "db", ascii "t", ascii "b", ascii "1"]).events) := by
  intro h
  have hlt := h.reads
    [.argv 1, .argv 2, .db (.openTable (ascii "db") (ascii "t")), .argv 3, .parsed (-1),
      .db .lockTables, .locked true, .argv 4] 0 none [] (by decide +kernel)
  obtain ⟨n, j, -, -, hnone, -⟩ := hlt
  cases hnone

end ThrSocket
