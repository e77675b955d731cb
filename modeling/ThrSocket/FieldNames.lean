import ThrSocket.Handler

/-!
Which column a name of a field list is taken for. The comparison looks at as many
bytes as the name of the list has, so that a name that begins a column name
counts as that column.
-/

namespace ThrSocket
open CString

/-- The column that `thrs_parse_fields` takes for a name: the first one that matches. -/
def columnFor (tab : Table) (name : Bytes) : Option Bytes :=
  tab.fields.find? (fieldMatches · name)

theorem columnFor_eq {tab : Table} {name : Bytes} :
    columnFor tab name = (tab.fields.findIdx? (fieldMatches · name)).bind (tab.fields[·]?) := by
  rw [columnFor, List.find?_eq_bind_findIdx?_getElem?]

theorem fieldMatches_self (name : Bytes) : fieldMatches name name = true :=
  List.isPrefixOf_iff_prefix.mpr (List.prefix_append name [0])

/-- A name that is a column is taken for some column. -/
theorem columnFor_isSome_of_mem {tab : Table} {name : Bytes} (h : name ∈ tab.fields) :
    (columnFor tab name).isSome :=
  List.find?_isSome.mpr ⟨name, h, fieldMatches_self name⟩

theorem mem_of_columnFor {tab : Table} {name col : Bytes} (h : columnFor tab name = some col) :
    col ∈ tab.fields :=
  List.mem_of_find?_eq_some h

/-- Every name has a column: the positions are stored one behind the other. -/
theorem parseFieldsLoop_found {tab : Table} {fields : List Bytes} {i : Nat} {seq : Seq}
    (hfound : ∀ name ∈ fields, (columnFor tab name).isSome)
    (hlen : i + fields.length ≤ seq.length) :
    ∃ seq', parseFieldsLoop tab fields i seq = some (true, seq') ∧
      (∀ k < i, seq'[k]? = seq[k]?) ∧
      ∀ k name, fields[k]? = some name → ∃ j, seq'[i + k]? = some (some j) ∧
        tab.fields[j]? = columnFor tab name := by
  induction fields generalizing i seq with
  | nil => exact ⟨seq, rfl, fun _ _ => rfl, fun k name hk => by cases hk⟩
  | cons field fields ih =>
      rw [List.length_cons] at hlen
      obtain ⟨col, hcol⟩ := Option.isSome_iff_exists.mp (hfound field List.mem_cons_self)
      rw [columnFor_eq] at hcol
      obtain ⟨j, hj, hget⟩ := Option.bind_eq_some_iff.mp hcol
      obtain ⟨seq', hloop, hbefore, hstored⟩ :=
        @ih (i + 1) (seq.set i (some j)) (fun name h => hfound name (List.mem_cons_of_mem _ h))
          (by rw [List.length_set]; omega)
      refine ⟨seq', ?_, fun k hk => ?_, fun k name hk => ?_⟩
      · rw [parseFieldsLoop, hj]
        simp only
        rw [if_pos (by omega), hloop]
      · rw [hbefore k (by omega), List.getElem?_set_ne (by omega)]
      · cases k with
        | zero =>
            cases hk
            refine ⟨j, ?_, ?_⟩
            · rw [Nat.add_zero, hbefore i (by omega), List.getElem?_set_self (by omega)]
            · rw [columnFor_eq, hj]
              rfl
        | succ k =>
            rw [← Nat.add_assoc, Nat.add_right_comm]
            exact hstored k name hk

/-- Some name has no column: the loop gives up. -/
theorem parseFieldsLoop_unknown {tab : Table} {fields : List Bytes} {i : Nat} {seq : Seq}
    (hunknown : ∃ name ∈ fields, columnFor tab name = none)
    (hlen : i + fields.length ≤ seq.length) :
    ∃ seq', parseFieldsLoop tab fields i seq = some (false, seq') := by
  induction fields generalizing i seq with
  | nil =>
      obtain ⟨name, hmem, _⟩ := hunknown
      cases hmem
  | cons field fields ih =>
      rw [List.length_cons] at hlen
      rw [parseFieldsLoop]
      cases hj : tab.fields.findIdx? (fieldMatches · field) with
      | none => exact ⟨seq, rfl⟩
      | some j =>
          simp only
          rw [if_pos (by omega)]
          refine ih ?_ (by rw [List.length_set]; omega)
          obtain ⟨name, hmem, hnone⟩ := hunknown
          rcases List.mem_cons.mp hmem with rfl | hmem
          · have hsome : (tab.fields.findIdx? (fieldMatches · name)).isSome =
                tab.fields.any (fieldMatches · name) := List.findIdx?_isSome
            rw [hj] at hsome
            rw [columnFor, List.find?_eq_none] at hnone
            obtain ⟨col, hcol, hmatch⟩ := List.any_eq_true.mp hsome.symm
            exact absurd hmatch (hnone col hcol)
          · exact ⟨name, hmem, hnone⟩

/-- What a caller wants of `thrs_parse_fields`: the number of names if each of them is
a column, with the position of that column for each, and else -1. -/
structure ResolvesExactly (tab : Table) (names : List Bytes) (r : Int × Seq) : Prop where
  count : r.1 = names.length ↔ ∀ name ∈ names, name ∈ tab.fields
  columns : (∀ name ∈ names, name ∈ tab.fields) → ∀ (i : Nat) (name : Bytes),
    names[i]? = some name →
    ∃ j : Nat, r.2[i]? = some (some j) ∧ tab.fields[j]? = some name
  unknown : (∃ name ∈ names, name ∉ tab.fields) → r.1 = -1

/-- For every table and every list of fewer than 1024 names. -/
theorem thrsParseFields_exact_iff (tab : Table) {fieldstr : Bytes}
    (hfew : (fieldstr.splitOn 44).length < 1024) :
    ∃ r, thrsParseFields tab fieldstr uninitSeq sizeofSeq = some r ∧
      (ResolvesExactly tab (fieldstr.splitOn 44) r ↔
        (∃ name ∈ fieldstr.splitOn 44, columnFor tab name = none) ∨
          ∀ name ∈ fieldstr.splitOn 44, columnFor tab name = some name) := by
  have hsplit : cstrSplit fieldstr (ascii ",") = fieldstr.splitOn 44 :=
    cstrSplit_singleton fieldstr 44
  have hsize : uninitSeq.length = 1024 := List.length_replicate
  rw [thrsParseFields]
  simp only [hsplit]
  generalize fieldstr.splitOn 44 = names at *
  rw [if_neg (by rw [sizeofSeq, seqSize]; omega)]
  by_cases hunknown : ∃ name ∈ names, columnFor tab name = none
  · obtain ⟨seq', hloop⟩ :=
      @parseFieldsLoop_unknown tab names 0 uninitSeq hunknown (by omega)
    refine ⟨(-1, seq'), by rw [hloop]; rfl, iff_of_true ?_ (.inl hunknown)⟩
    have hmissing : ¬ ∀ name ∈ names, name ∈ tab.fields := by
      intro hall
      obtain ⟨name, hmem, hnone⟩ := hunknown
      have hsome := columnFor_isSome_of_mem (hall name hmem)
      rw [hnone] at hsome
      cases hsome
    refine ⟨iff_of_false (fun h => ?_) hmissing, fun hall => absurd hall hmissing, fun _ => rfl⟩
    simp only at h
    omega
  · have hfound : ∀ name ∈ names, (columnFor tab name).isSome := by
      intro name hmem
      rw [Option.isSome_iff_ne_none]
      exact fun hnone => hunknown ⟨name, hmem, hnone⟩
    obtain ⟨seq', hloop, _, hstored⟩ :=
      @parseFieldsLoop_found tab names 0 uninitSeq hfound (by omega)
    refine ⟨(names.length, seq'), by rw [hloop]; rfl, ?_⟩
    rw [or_iff_right hunknown]
    constructor
    · intro h name hmem
      have hall := h.count.mp rfl
      obtain ⟨i, hi⟩ := List.mem_iff_getElem?.mp hmem
      obtain ⟨j, hj, hcol⟩ := hstored i name hi
      obtain ⟨j', hj', hcol'⟩ := h.columns hall i name hi
      rw [Nat.zero_add] at hj
      cases hj.symm.trans hj'
      rw [← hcol, hcol']
    · intro h
      have hall : ∀ name ∈ names, name ∈ tab.fields :=
        fun name hmem => mem_of_columnFor (h name hmem)
      refine ⟨iff_of_true rfl hall, fun _ i name hi => ?_, fun ⟨name, hmem, hno⟩ => ?_⟩
      · obtain ⟨j, hj, hcol⟩ := hstored i name hi
        rw [Nat.zero_add] at hj
        exact ⟨j, hj, hcol.trans (h name (List.mem_of_getElem? hi))⟩
      · exact absurd (hall name hmem) hno

theorem thrsParseFields_exact_two :
    ∃ r, thrsParseFields ⟨[ascii "a", ascii "b"], false⟩ (ascii "b,a") uninitSeq sizeofSeq =
        some r ∧
      (ResolvesExactly ⟨[ascii "a", ascii "b"], false⟩ ((ascii "b,a").splitOn 44) r ↔
        (∃ name ∈ (ascii "b,a").splitOn 44,
            columnFor ⟨[ascii "a", ascii "b"], false⟩ name = none) ∨
          ∀ name ∈ (ascii "b,a").splitOn 44,
            columnFor ⟨[ascii "a", ascii "b"], false⟩ name = some name) :=
  thrsParseFields_exact_iff ⟨[ascii "a", ascii "b"], false⟩ (by decide)

/-- `user` is taken for the column `username`, which stands in front of `user`. -/
theorem thrsParseFields_prefix :
    ∃ r, thrsParseFields ⟨[ascii "username", ascii "user"], false⟩ (ascii "user") uninitSeq
        sizeofSeq = some r ∧
      r.1 = 1 ∧ r.2[0]? = some (some 0) ∧
      ¬ ResolvesExactly ⟨[ascii "username", ascii "user"], false⟩
        ((ascii "user").splitOn 44) r := by
  have hpos : 0 < uninitSeq.length := by rw [uninitSeq, List.length_replicate]; decide
  have hset : (uninitSeq.set 0 (some 0))[0]? = some (some 0) := List.getElem?_set_self hpos
  refine ⟨(1, uninitSeq.set 0 (some 0)), ?_, rfl, hset, fun h => ?_⟩
  · have hsplit : cstrSplit (ascii "user") (ascii ",") = [ascii "user"] := by decide
    have hcol : [ascii "username", ascii "user"].findIdx? (fieldMatches · (ascii "user")) =
        some 0 := by decide
    rw [thrsParseFields]
    simp only [hsplit, parseFieldsLoop, hcol, if_pos hpos]
    rfl
  · obtain ⟨j, hj, hcol⟩ := h.columns (by decide) 0 (ascii "user") (by decide)
    cases hset.symm.trans hj
    revert hcol
    decide

end ThrSocket
