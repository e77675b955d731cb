import ThrSocket.DictDelete
import ThrSocket.OpenTables

/-!
The loops of thrs_handler.cpp over `ctx->opentabs`. `thrs_lock_tables` stores every
table in the first element of its array, and the others are passed on to
`mysql_lock_tables` as `jmalloc` left them.
-/

namespace ThrSocket
open CString

section

variable {K V σ : Type}

/-- `while((entry = dict_iterator_next(iter)) != NULL)` around `body`, with a bound on its
rounds. -/
def whileNext (body : σ → DictEntry K V → Option σ) :
    Nat → Dict K V → DictIterator → σ → Option (Dict K V × DictIterator × σ)
  | 0, _, _, _ => none
  | fuel + 1, d, iter, s => do
      let (d, iter, entry) ← dictIteratorNext d iter
      match entry with
      | none => some (d, iter, s)
      | some entry => do
          let s ← body s entry
          whileNext body fuel d iter s

/-- An iterator for the loop alone. Each round but the last has another entry. -/
def forEntries (body : σ → DictEntry K V → Option σ) (d : Dict K V) (s : σ) :
    Option (Dict K V × σ) := do
  let (d, iter, s) ← whileNext body (d.all.length + 1) d dictGetIterator s
  let d ← dictIteratorDestroy d iter
  some (d, s)

variable {d : Dict K V} {iter : DictIterator} {p : Nat → Nat}

theorem mem_cores_of_same {d' : Dict K V} (h : SameCores d d') {e : DictEntry K V}
    (he : e.core ∈ d'.all.map (·.core)) : e.core ∈ d.all.map (·.core) := h.map_core ▸ he

/-- The loop is `body` folded over the entries ahead of the iterator. -/
theorem Counted.whileNext {fuel : Nat} (h : Counted d (standing p iter.entry)) (hv : iter.Valid)
    (hstands : iter.Stands d) (hfuel : (iter.ahead d).length < fuel) :
    ∃ (es : List (DictEntry K V)) (d' : Dict K V) (iter' : DictIterator),
      es.map (·.ident) = iter.ahead d ∧ (∀ e ∈ es, e.core ∈ d.all.map (·.core)) ∧
      Landed p d iter d' iter' none ∧
      ∀ {σ : Type} (body : σ → DictEntry K V → Option σ) (s : σ),
        ThrSocket.whileNext body fuel d iter s =
          (es.foldlM body s).map fun s => (d', iter', s) := by
  induction fuel generalizing d iter with
  | zero => exact absurd hfuel (Nat.not_lt_zero _)
  | succ fuel ih =>
      obtain ⟨d₁, iter₁, r, hnext, hland, hreach⟩ := h.next_stands hv hstands
      have hahead := hreach.ahead
      cases r with
      | none =>
          refine ⟨[], d₁, iter₁, (hreach.last rfl).symm, fun e he => (by cases he), hland,
            fun body s => ?_⟩
          rw [ThrSocket.whileNext, hnext, Option.bind_eq_bind, Option.bind_some]
          rfl
      | some e =>
          rw [hahead, Option.map_some, Option.toList_some, List.singleton_append,
            List.length_cons] at hfuel
          obtain ⟨es, d', iter', hes, hcores, hlast, hloop⟩ :=
            ih hland.counted hland.valid hreach.stands (by omega)
          refine ⟨e :: es, d', iter', ?_, ?_, hlast.after hland.same hland.started hland.iterators,
            fun body s => ?_⟩
          · rw [hahead, List.map_cons, hes]
            rfl
          · intro e₀ he₀
            rcases List.mem_cons.mp he₀ with rfl | he₀
            · exact mem_cores_of_same hland.same (List.mem_map_of_mem (hreach.mem e₀ rfl))
            · exact mem_cores_of_same hland.same (hcores e₀ he₀)
          · rw [ThrSocket.whileNext, hnext, List.foldlM_cons]
            cases hbody : body s e with
            | none => simp only [hbody, Option.bind_eq_bind, Option.bind_some, Option.bind_none,
                Option.map_none]
            | some s' =>
                simp only [hbody, Option.bind_eq_bind, Option.bind_some]
                exact hloop body s'

structure Resting (d : Dict K V) : Prop where
  counted : Counted d fun _ => 0
  iterators : d.iterators = 0

/-- A loop over all entries sees each of them once and leaves no reference behind. -/
theorem Resting.forEntries (h : Resting d) :
    ∃ (es : List (DictEntry K V)) (d' : Dict K V),
      (es.map (·.core)).Perm (d.all.map (·.core)) ∧ Resting d' ∧
      ∀ {σ : Type} (body : σ → DictEntry K V → Option σ) (s : σ),
        ThrSocket.forEntries body d s = (es.foldlM body s).map fun s => (d', s) := by
  have hcounted : Counted d (standing (fun _ => 0) dictGetIterator.entry) := h.counted
  have hlen : (dictGetIterator.ahead d).length < d.all.length + 1 := by
    rw [ahead_fresh, List.length_map]
    exact Nat.lt_succ_self _
  obtain ⟨es, d₁, iter₁, hidents, hcores, hland, hloop⟩ :=
    hcounted.whileNext valid_fresh (fun a ha => by cases ha) hlen
  obtain ⟨d', hdestroy, hcounted', hsame, hiters⟩ := hland.counted.destroyed
  rw [ahead_fresh] at hidents
  -- as many entries as there are, told apart by their addresses, are all of them
  have hnodup : (es.map (·.core)).Nodup := by
    have haddrs : (es.map (·.addr)).Nodup := by
      have := congrArg (List.map Prod.fst) hidents
      rw [List.map_map, List.map_map] at this
      exact this ▸ h.counted.nodup_all
    refine List.Nodup.of_map Prod.fst ?_
    rw [List.map_map]
    exact haddrs
  have hsubset : es.map (·.core) ⊆ d.all.map (·.core) := by
    intro c hc
    obtain ⟨e, he, rfl⟩ := List.mem_map.mp hc
    exact hcores e he
  have hlength : (d.all.map (·.core)).length ≤ (es.map (·.core)).length := by
    have := congrArg List.length hidents
    simp only [List.length_map] at this ⊢
    omega
  refine ⟨es, d', (List.subperm_of_subset hnodup hsubset).perm_of_length_le hlength,
    ⟨hcounted', ?_⟩, fun body s => ?_⟩
  · have hnew : ¬ dictGetIterator.Started := fun hst => hst ⟨rfl, rfl⟩
    rw [hiters, hland.iterators, h.iterators, if_pos hland.started, if_neg hnew]
    rfl
  · rw [ThrSocket.forEntries, hloop body s]
    cases es.foldlM body s with
    | none => rfl
    | some s' =>
        simp only [Option.map_some, Option.bind_eq_bind, Option.bind_some, hdestroy]

theorem perm_values {es : List (DictEntry K V)}
    (h : (es.map (·.core)).Perm (d.all.map (·.core))) :
    (es.map (·.value)).Perm (d.all.map (·.value)) := by
  have := h.map fun c => c.2.2
  rwa [List.map_map, List.map_map] at this

end

/-- The array `tables`; nothing is stored in an element that is `none`. -/
abbrev TableArray := List (Option Table)

structure LockCall where
  tables : TableArray
  count : Int
deriving DecidableEq

/-- `tables[i] = (TABLE*)entry->value`, after which `i` is what it was. -/
def storeTable : Nat × TableArray → DictEntry Bytes Table → Option (Nat × TableArray)
  | (i, tables), entry =>
      if i < tables.length then some (i, tables.set i (some entry.value)) else none

/-- The number of tables becomes an `int` on the way. -/
def thrsLockTables (ctx : DbCtx) : Option (DbCtx × LockCall) := do
  let tabnum := ctx.opentabs.dictUsed
  let (opentabs, _, tables) ← forEntries storeTable ctx.opentabs (0, List.replicate tabnum none)
  some ({ ctx with opentabs := opentabs }, ⟨tables, Int.bmod tabnum (2 ^ 32)⟩)

/-- The loop of `thrs_unlock_table`: the tables whose cached queries it drops. The
`DEBUG` line before it reads `*lock`. -/
def invalidateTables (lock writeable : Bool) (ctx : DbCtx) : Option (DbCtx × List Table) :=
  if lock then
    if writeable && decide (0 < ctx.opentabs.dictUsed) then do
      let (opentabs, tabs) ←
        forEntries (fun tabs entry => some (tabs ++ [entry.value])) ctx.opentabs []
      some ({ ctx with opentabs := opentabs }, tabs)
    else some (ctx, [])
  else none

inductive TabCall
  | openTable (c : OpenCall)
  | lockTables
  | unlockTable (lock writeable : Bool)
  | closeTable

def tabStep (ctx : DbCtx) : TabCall → Option (DbCtx × TableArray)
  | .openTable c => do
      let (ctx, _, _) ← openTable c.mysql ctx c.argv
      some (ctx, [])
  | .lockTables => do
      let (ctx, call) ← thrsLockTables ctx
      some (ctx, call.tables)
  | .unlockTable lock writeable => do
      let (ctx, tabs) ← invalidateTables lock writeable ctx
      some (ctx, tabs.map some)
  | .closeTable => some (thrsCloseTable ctx, [])

/-- `mysql_lock_tables` is given every open table once, and nothing else. -/
def LocksAll (ctx : DbCtx) : Prop :=
  ∃ ctx' call, thrsLockTables ctx = some (ctx', call) ∧
    call.count = ctx.opentabs.all.length ∧
    call.tables.Perm (ctx.opentabs.all.map fun e => some e.value)

section

variable {ctx : DbCtx}

theorem dictUsed_eq {d : Dict Bytes Table} (h : DictShape d) : d.dictUsed = u32 d.all.length := by
  have h0 := h.dt0.used
  have h1 := h.dt1.used
  rw [Dict.dictUsed, h0, h1, d.length_all]
  unfold u32
  omega

/-- The loop that stores the tables reaches the first element alone. -/
theorem foldlM_storeTable {es : List (DictEntry Bytes Table)} {tables tables' : TableArray}
    {i : Nat} (h : es.foldlM storeTable (0, tables) = some (i, tables')) :
    tables'.length = tables.length ∧ ∀ j, j ≠ 0 → tables'[j]? = tables[j]? := by
  induction es generalizing tables with
  | nil =>
      cases h
      exact ⟨rfl, fun _ _ => rfl⟩
  | cons e es ih =>
      obtain ⟨⟨k, next⟩, hstore, h⟩ := Option.bind_eq_some_iff.mp h
      rw [storeTable, Option.ite_none_right_eq_some] at hstore
      cases hstore.2
      obtain ⟨hlen, hget⟩ := ih h
      rw [List.length_set] at hlen
      exact ⟨hlen, fun j hj => (hget j hj).trans (List.getElem?_set_ne (Ne.symm hj))⟩

theorem thrsLockTables_eq (h : Resting ctx.opentabs) :
    ∃ (es : List (DictEntry Bytes Table)) (d' : Dict Bytes Table),
      (es.map (·.core)).Perm (ctx.opentabs.all.map (·.core)) ∧ Resting d' ∧
      thrsLockTables ctx =
        (es.foldlM storeTable (0, List.replicate ctx.opentabs.dictUsed none)).map fun s =>
          (⟨d'⟩, ⟨s.2, Int.bmod ctx.opentabs.dictUsed (2 ^ 32)⟩) := by
  obtain ⟨es, d', hperm, hrest, hloop⟩ := h.forEntries
  refine ⟨es, d', hperm, hrest, ?_⟩
  rw [thrsLockTables, hloop]
  cases es.foldlM storeTable (0, List.replicate ctx.opentabs.dictUsed none) with
  | none => rfl
  | some s => rfl

/-- `thrs_unlock_table` reaches each open table, unlike `thrs_lock_tables`. -/
theorem invalidateTables_all (h : Resting ctx.opentabs) (hused : 0 < ctx.opentabs.dictUsed) :
    ∃ d' tabs, invalidateTables true true ctx = some (⟨d'⟩, tabs) ∧ Resting d' ∧
      tabs.Perm (ctx.opentabs.all.map (·.value)) := by
  obtain ⟨es, d', hperm, hrest, hloop⟩ := h.forEntries
  have hfold : ∀ (es : List (DictEntry Bytes Table)) (tabs : List Table),
      es.foldlM (fun tabs entry => some (tabs ++ [entry.value])) tabs =
        some (tabs ++ es.map (·.value)) := by
    intro es
    induction es with
    | nil => exact fun tabs => by rw [List.map_nil, List.append_nil]; rfl
    | cons e es ih =>
        intro tabs
        rw [List.foldlM_cons, Option.bind_eq_bind, Option.bind_some, ih, List.append_assoc]
        rfl
  refine ⟨d', es.map (·.value), ?_, hrest, perm_values hperm⟩
  rw [invalidateTables, if_pos rfl, if_pos (by simpa using hused), hloop, hfold]
  rfl

theorem tabStep_resting {ctx' : DbCtx} {c : TabCall} {out : TableArray}
    (h : Resting ctx.opentabs) (hstep : tabStep ctx c = some (ctx', out)) :
    Resting ctx'.opentabs := by
  cases c with
  | openTable c =>
      obtain ⟨⟨ctx₁, calls, table⟩, hopen, heq⟩ := Option.bind_eq_some_iff.mp hstep
      cases heq
      cases openTable_run hopen with
      | hit _ _ hfind | refused _ _ hfind _ =>
          obtain ⟨hcounted, hiters⟩ := h.counted.found (fun _ _ => rfl) hfind
          exact ⟨hcounted, hiters.trans h.iterators⟩
      | opened _ _ hfind _ hadd =>
          obtain ⟨hcounted, hiters⟩ := h.counted.found (fun _ _ => rfl) hfind
          obtain ⟨hcounted', hiters'⟩ := hcounted.added (fun _ _ => rfl) hadd
          exact ⟨hcounted', hiters'.trans (hiters.trans h.iterators)⟩
  | lockTables =>
      obtain ⟨⟨ctx₁, call⟩, hlock, heq⟩ := Option.bind_eq_some_iff.mp hstep
      cases heq
      obtain ⟨es, d', -, hrest, hrun⟩ := thrsLockTables_eq h
      obtain ⟨s, -, hs⟩ := Option.map_eq_some_iff.mp (hrun.symm.trans hlock)
      cases hs
      exact hrest
  | unlockTable lock writeable =>
      obtain ⟨⟨ctx₁, tabs⟩, hinv, heq⟩ := Option.bind_eq_some_iff.mp hstep
      cases heq
      cases lock with
      | false => cases hinv
      | true =>
          by_cases hloop : writeable && decide (0 < ctx.opentabs.dictUsed)
          · have hflags := hloop
            simp only [Bool.and_eq_true, decide_eq_true_eq] at hflags
            obtain ⟨rfl, hused⟩ := hflags
            obtain ⟨d', tabs', hinv', hrest, -⟩ := invalidateTables_all h hused
            cases hinv'.symm.trans hinv
            exact hrest
          · rw [invalidateTables, if_pos rfl, if_neg hloop] at hinv
            cases hinv
            exact h
  | closeTable =>
      cases hstep
      exact ⟨h.counted.cleared, h.iterators⟩

theorem tabRun_resting {calls : List TabCall} {outs : List TableArray}
    (hrun : Machine.run tabStep {} calls = some (ctx, outs)) : Resting ctx.opentabs :=
  Machine.invariant_run (fun ctx : DbCtx => Resting ctx.opentabs) (G := fun _ _ => True)
    (fun h _ hstep => tabStep_resting h hstep) ⟨counted_create, rfl⟩
    (Machine.along_of_forall (L := fun _ => True) (fun _ _ _ => trivial) fun _ _ => trivial) hrun

/-- With a second table there is an element in which nothing is stored. -/
theorem Resting.few_of_locksAll (h : Resting ctx.opentabs) (hall : LocksAll ctx) :
    ctx.opentabs.all.length ≤ 1 := by
  obtain ⟨ctx', call, hlock, -, hperm⟩ := hall
  obtain ⟨es, d', -, -, hrun⟩ := thrsLockTables_eq h
  obtain ⟨⟨i, tables⟩, hfold, heq⟩ := Option.map_eq_some_iff.mp (hrun.symm.trans hlock)
  cases heq
  obtain ⟨hlen, hget⟩ := foldlM_storeTable hfold
  rw [List.length_replicate] at hlen
  have hn : tables.length = ctx.opentabs.all.length := hperm.length_eq.trans (List.length_map _)
  by_contra hmany
  -- `i` is still 0, so the second element is as `jmalloc` left it
  have hunset : tables[1]? = some none := by
    rw [hget 1 one_ne_zero, List.getElem?_replicate, if_pos (by omega)]
  obtain ⟨e, -, he⟩ := List.mem_map.mp (hperm.mem_iff.mp (List.mem_of_getElem? hunset))
  cases he

theorem Resting.locksAll_of_few (h : Resting ctx.opentabs) (hfew : ctx.opentabs.all.length ≤ 1) :
    LocksAll ctx := by
  obtain ⟨es, d', hperm, -, hrun⟩ := thrsLockTables_eq h
  have hused : ctx.opentabs.dictUsed = ctx.opentabs.all.length := by
    rw [dictUsed_eq h.counted.shape, u32_of_lt (by omega)]
  have hlen := hperm.length_eq
  rw [List.length_map, List.length_map] at hlen
  have hvalues := (perm_values hperm).map some
  rw [List.map_map, List.map_map] at hvalues
  rw [hused, ← hlen] at hrun
  cases es with
  | nil =>
      refine ⟨_, _, hrun, ?_, hvalues⟩
      rw [← hlen]
      rfl
  | cons e es =>
      obtain rfl : es = [] := List.eq_nil_of_length_eq_zero (by
        rw [← hlen, List.length_cons] at hfew
        omega)
      have hstored : [e].foldlM storeTable (0, List.replicate 1 none) =
          some (0, [some e.value]) := rfl
      simp only [List.length_singleton, hstored, Option.map_some] at hrun
      refine ⟨_, _, hrun, ?_, hvalues⟩
      rw [← hlen]
      rfl

end

/-- At any stage of a rehash, all open tables are locked if there is at most one of them, and
never if there are more. -/
theorem thrsLockTables_iff {calls : List TabCall} {ctx : DbCtx} {outs : List TableArray}
    (hreach : Machine.run tabStep {} calls = some (ctx, outs)) :
    LocksAll ctx ↔ ctx.opentabs.all.length ≤ 1 :=
  ⟨(tabRun_resting hreach).few_of_locksAll, (tabRun_resting hreach).locksAll_of_few⟩

def lockCalls : List TabCall :=
  (List.range 9).map (fun k => .openTable (openDotted (ascii "db") [k.toUInt8])) ++
    [.lockTables, .unlockTable true true, .closeTable,
      .openTable (openDotted (ascii "db") (ascii "t"))]

theorem thrsLockTables_after_close :
    ∃ ctx outs, Machine.run tabStep {} lockCalls = some (ctx, outs) ∧
      (LocksAll ctx ↔ ctx.opentabs.all.length ≤ 1) := by
  have hdefined : (Machine.run tabStep {} lockCalls).isSome := by decide
  obtain ⟨⟨ctx, outs⟩, hrun⟩ := Option.isSome_iff_exists.mp hdefined
  exact ⟨ctx, outs, hrun, thrsLockTables_iff hrun⟩

def twoTables : List TabCall :=
  [.openTable (openDotted (ascii "db") (ascii "t")),
    .openTable (openDotted (ascii "db") (ascii "u"))]

/-- Of two open tables one is stored over the other, and the second element never. -/
theorem thrsLockTables_two :
    ∃ ctx outs, Machine.run tabStep {} twoTables = some (ctx, outs) ∧ ¬ LocksAll ctx := by
  have hcall : ((Machine.run tabStep {} twoTables).bind fun r =>
      (thrsLockTables r.1).map (·.2)) = some ⟨[some ⟨[ascii "db"], false⟩, none], 2⟩ := by decide
  obtain ⟨⟨ctx, outs⟩, hrun, hcall⟩ := Option.bind_eq_some_iff.mp hcall
  refine ⟨ctx, outs, hrun, ?_⟩
  rintro ⟨ctx', call, hlock, -, hperm⟩
  rw [hlock, Option.map_some] at hcall
  cases hcall
  obtain ⟨e, -, he⟩ := List.mem_map.mp (hperm.mem_iff.mp (List.mem_cons_of_mem _
    List.mem_cons_self))
  cases he

end ThrSocket
