import ThrSocket.DictEntries

/-!
The shape of the two tables, which every call keeps whatever the callbacks are:
the sizes are powers of two, the masks and counts fit them, and while the dict is
rehashing the buckets that have been moved are empty.
-/

namespace ThrSocket

variable {K V : Type} {o : DictOpts K V}

theorem u32_succ (n : Nat) : u32 (u32 n + 1) = u32 (n + 1) := by
  unfold u32
  omega

/-- Decrementing an `unsigned int` undoes an increment. -/
theorem u32_succ_pred (n : Nat) : u32 (u32 (n + 1) + (2 ^ 32 - 1)) = u32 n := by
  unfold u32
  omega

structure TableShape (t : DictTable K V) : Prop where
  length : t.entries.length = t.size
  size : t.size = 0 ∨ ∃ j, 3 ≤ j ∧ j ≤ 31 ∧ t.size = 2 ^ j
  mask : t.mask = t.size - 1
  used : t.used = u32 t.chained.length

theorem tableShape_reset : TableShape ({} : DictTable K V) where
  length := rfl
  size := .inl rfl
  mask := rfl
  used := rfl

/-- The loop of `_pow_size` ends at a power of two that is large enough, or not at all. -/
theorem powSizeLoop_cases {size n : Nat} (fuel s : Nat)
    (hs : s = 0 ∧ 0 < size ∨ ∃ j, 3 ≤ j ∧ j ≤ 31 ∧ s = 2 ^ j)
    (h : powSizeLoop size fuel s = some n) : ∃ j, 3 ≤ j ∧ j ≤ 31 ∧ n = 2 ^ j ∧ size ≤ 2 ^ j := by
  induction fuel generalizing s with
  | zero => cases h
  | succ fuel ih =>
      rw [powSizeLoop] at h
      split_ifs at h with hlt
      · refine ih _ ?_ h
        rcases hs with ⟨rfl, hpos⟩ | ⟨j, h3, hj, rfl⟩
        · exact .inl ⟨rfl, hpos⟩
        · rcases Nat.lt_or_ge j 31 with hlt31 | hge
          · refine .inr ⟨j + 1, by omega, hlt31, ?_⟩
            rw [← Nat.pow_succ]
            exact u32_of_lt (Nat.pow_lt_pow_right (by decide) (by omega))
          · have h31 : j = 31 := by omega
            subst h31
            exact .inl ⟨rfl, by omega⟩
      · cases h
        rcases hs with ⟨rfl, hpos⟩ | ⟨j, h3, hj, rfl⟩
        · exact absurd hpos hlt
        · exact ⟨j, h3, hj, rfl, Nat.not_lt.mp hlt⟩

theorem powSize_cases {size n : Nat} (h : powSize size = some n) :
    ∃ j, 3 ≤ j ∧ j ≤ 31 ∧ n = 2 ^ j ∧ size ≤ 2 ^ j :=
  powSizeLoop_cases 33 dictInitSize (.inr ⟨3, Nat.le_refl 3, by decide, rfl⟩) h

theorem tableShape_fresh {size n : Nat} (h : powSize size = some n) :
    TableShape (freshTable n : DictTable K V) ∧ n ≠ 0 := by
  obtain ⟨j, h3, hj, rfl, -⟩ := powSize_cases h
  have hpos : 2 ^ j ≠ 0 := (Nat.two_pow_pos j).ne'
  refine ⟨⟨List.length_replicate, .inr ⟨j, h3, hj, rfl⟩, ?_, ?_⟩, hpos⟩
  · exact u32_pred (Nat.pow_lt_pow_right (by decide) (by omega)) hpos
  · rw [chained_freshTable]
    rfl

namespace TableShape

variable {t t' : DictTable K V}

theorem index_lt (h : TableShape t) (hs : t.size ≠ 0) (key : K) :
    t.index o key < t.entries.length := by
  obtain h0 | ⟨j, _, _, hj⟩ := h.size
  · exact absurd h0 hs
  · rw [h.length, DictTable.index, h.mask, hj, Nat.and_two_pow_sub_one_eq_mod]
    exact Nat.mod_lt _ (Nat.two_pow_pos j)

theorem bucket (h : TableShape t) (hs : t.size ≠ 0) (key : K) :
    ∃ chain, t.entries[t.index o key]? = some chain :=
  ⟨_, List.getElem?_eq_getElem (h.index_lt hs key)⟩

theorem search_defined [DecidableEq K] (h : TableShape t) (hs : t.size ≠ 0) (key : K) :
    ∃ r, t.search o key = some r := by
  obtain ⟨chain, hchain⟩ := h.bucket (o := o) hs key
  simp only [DictTable.search, hchain, Option.bind_eq_bind, Option.bind_some]
  exact ⟨_, rfl⟩

theorem unlink_defined [DecidableEq K] (h : TableShape t) (hs : t.size ≠ 0) (key : K) :
    ∃ r, t.unlink o key = some r := by
  obtain ⟨chain, hchain⟩ := h.bucket (o := o) hs key
  simp only [DictTable.unlink, hchain, Option.bind_eq_bind, Option.bind_some]
  split
  · exact ⟨_, rfl⟩
  · exact ⟨_, rfl⟩

/-- A bucket given new content, with `m` entries in the table then. -/
theorem set (h : TableShape t) {i m n : Nat} {chain chain' : List (DictEntry K V)}
    (hi : t.entries[i]? = some chain)
    (hm : m + chain.length = t.chained.length + chain'.length) (hn : n = u32 m) :
    TableShape { t with entries := t.entries.set i chain', used := n } := by
  obtain ⟨rest, hp, hp'⟩ := flatten_set_perm hi
  have hlen := hp.length_eq
  have hlen' := (hp' chain').length_eq
  rw [List.length_append] at hlen hlen'
  refine ⟨by rw [List.length_set]; exact h.length, h.size, h.mask, hn.trans (congrArg u32 ?_)⟩
  rw [DictTable.chained] at hm ⊢
  simp only
  omega

theorem push (h : TableShape t) {idx : Nat} {e : DictEntry K V} (hpush : t.push idx e = some t') :
    TableShape t' ∧ t'.size = t.size := by
  obtain ⟨chain, hchain, rfl⟩ := DictTable.push_eq_some.mp hpush
  refine ⟨h.set (m := t.chained.length + 1) hchain ?_ ?_, rfl⟩
  · rw [List.length_cons]
    omega
  · rw [h.used, u32_succ]

theorem without (h : TableShape t) {e : DictEntry K V} {next : Option Nat}
    (hout : t.Without e next t') : TableShape t' ∧ t'.size = t.size := by
  have hlen := hout.perm.length_eq
  obtain ⟨bucket, -⟩ := hout
  obtain ⟨m, hm⟩ : ∃ m, t.chained.length = m + 1 := ⟨_, hlen.trans List.length_cons⟩
  refine ⟨h.set (m := m) bucket ?_ ?_, rfl⟩
  · rw [hm, List.length_append, List.length_append, List.length_cons]
    omega
  · rw [h.used, hm, u32_succ_pred]

theorem modify (h : TableShape t) (a : Nat) (f : DictEntry K V → DictEntry K V) :
    TableShape (t.modify a f) where
  length := (List.length_map _).trans h.length
  size := h.size
  mask := h.mask
  used := by
    rw [DictTable.chained_modify, List.length_map]
    exact h.used

end TableShape

/-- Taking an entry out leaves the moved buckets empty. -/
theorem DictTable.Without.emptyBelow {t t' : DictTable K V} {e : DictEntry K V}
    {next : Option Nat} (h : t.Without e next t') {r : Nat} (hempty : EmptyBelow t.entries r) :
    EmptyBelow t'.entries r := by
  obtain ⟨bucket, -⟩ := h
  intro i hi c hc
  simp only [List.getElem?_set] at hc
  split_ifs at hc with hidx
  · have := hempty i hi _ (hidx ▸ bucket)
    simp at this
  · exact hempty i hi c hc

structure DictShape (d : Dict K V) : Prop where
  dt0 : TableShape d.dt0
  dt1 : TableShape d.dt1
  idle : d.rehashidx = none → d.dt1 = {}
  busy : ∀ {r}, d.rehashidx = some r → d.dt0.size ≠ 0 ∧ d.dt1.size ≠ 0 ∧ r ≤ d.dt0.size ∧
    EmptyBelow d.dt0.entries r

theorem dictShape_create : DictShape (dictCreate : Dict K V) where
  dt0 := tableShape_reset
  dt1 := tableShape_reset
  idle := fun _ => rfl
  busy := fun h => by cases h

theorem dictShape_clear (d : Dict K V) : DictShape (dictClear d) where
  dt0 := tableShape_reset
  dt1 := tableShape_reset
  idle := fun _ => rfl
  busy := fun h => by cases h

theorem rehashChain_shape {chain : List (DictEntry K V)} {dt0 dt1 dt0' dt1' : DictTable K V}
    {n : Nat} (h1 : TableShape dt1) (hused : dt0.used = u32 (n + chain.length))
    (h : rehashChain o chain dt0 dt1 = some (dt0', dt1')) :
    dt0' = { dt0 with used := u32 n } ∧ TableShape dt1' ∧ dt1'.size = dt1.size := by
  induction chain generalizing dt0 dt1 with
  | nil =>
      cases h
      have hused' : u32 n = dt0'.used := hused.symm
      exact ⟨by rw [hused'], h1, rfl⟩
  | cons e chain ih =>
      rw [rehashChain] at h
      obtain ⟨dt, hpush, h⟩ := Option.bind_eq_some_iff.mp h
      obtain ⟨hshape, hsize⟩ := h1.push hpush
      have hlen : n + (e :: chain).length = n + chain.length + 1 := rfl
      have hused' : u32 (dt0.used + (2 ^ 32 - 1)) = u32 (n + chain.length) := by
        rw [hused, hlen, u32_succ_pred]
      obtain ⟨h0, hshape', hsize'⟩ := ih hshape (by exact hused') h
      exact ⟨h0, hshape', hsize'.trans hsize⟩

theorem rehashChain_defined (chain : List (DictEntry K V)) (dt0 : DictTable K V)
    {dt1 : DictTable K V} (h1 : TableShape dt1) (hs : dt1.size ≠ 0) :
    ∃ r, rehashChain o chain dt0 dt1 = some r := by
  induction chain generalizing dt0 dt1 with
  | nil => exact ⟨_, rfl⟩
  | cons e chain ih =>
      obtain ⟨c, hc⟩ := h1.bucket (o := o) hs e.key
      obtain ⟨dt, hpush⟩ : ∃ dt, dt1.push (dt1.index o e.key) e = some dt :=
        ⟨_, DictTable.push_eq_some.mpr ⟨c, hc, rfl⟩⟩
      obtain ⟨hshape, hsize⟩ := h1.push hpush
      obtain ⟨r, hr⟩ := ih { dt0 with used := u32 (dt0.used + (2 ^ 32 - 1)) } hshape (hsize ▸ hs)
      exact ⟨r, by rw [rehashChain, hpush]; exact hr⟩

namespace DictShape

variable {d d' : Dict K V}

theorem size0_ne (h : DictShape d) (hne : d.dt0.entries ≠ []) : d.dt0.size ≠ 0 := fun h0 =>
  hne (List.length_eq_zero_iff.mp (h.dt0.length.trans h0))

/-- A round of rehashing ends it or moves on in the array. -/
theorem rehashed (h : DictShape d) (hre : Rehashed o d d') :
    DictShape d' ∧ ∀ r, d.rehashidx = some r → d.iterators = 0 →
      (d'.rehashidx = none ∧ d'.dt0 = d.dt1) ∨
        ∃ r', d'.rehashidx = some r' ∧ r < r' ∧ d'.dt0.size = d.dt0.size ∧
          d'.dt1.size = d.dt1.size := by
  cases hre with
  | skipped hno =>
      refine ⟨h, fun r hr hd => ?_⟩
      rw [hr] at hno
      exact absurd hd (hno.resolve_left (Option.some_ne_none r))
  | ended busy alone used =>
      exact ⟨⟨h.dt1, tableShape_reset, fun _ => rfl, (fun hb => by cases hb)⟩,
        fun _ _ _ => .inl ⟨rfl, rfl⟩⟩
  | @moved r i chain dt0 dt1 busy alone used scan bucket push =>
      obtain ⟨hs0, hs1, hr, hempty⟩ := h.busy busy
      obtain ⟨hri, hi, hbefore⟩ := scanBucket_before scan hempty
      obtain ⟨rest, hp, -⟩ := flatten_set_perm bucket
      have hlen : d.dt0.chained.length = rest.length + chain.length := by
        rw [Nat.add_comm]
        exact hp.length_eq.trans List.length_append
      obtain ⟨rfl, hshape1, hsize1⟩ :=
        rehashChain_shape h.dt1 (h.dt0.used.trans (congrArg u32 hlen)) push
      refine ⟨⟨h.dt0.set (m := rest.length) bucket ?_ rfl, hshape1, (fun hb => by cases hb), ?_⟩,
        fun r' hr' _ => .inr ⟨i + 1, rfl, ?_, rfl, hsize1⟩⟩
      · rw [hlen]
        rfl
      · intro r' hr'
        cases hr'
        refine ⟨hs0, hsize1 ▸ hs1, h.dt0.length ▸ hi, fun j hj c hc => ?_⟩
        simp only [List.getElem?_set] at hc
        split_ifs at hc with hij
        · cases hc
          rfl
        · exact hbefore j (by omega) c hc
      · cases hr'.symm.trans busy
        omega

theorem size0_rehashed (h : DictShape d) (hre : Rehashed o d d') (h0 : d.dt0.size ≠ 0) :
    d'.dt0.size ≠ 0 := by
  obtain ⟨hshape, hround⟩ := h.rehashed hre
  cases hre with
  | skipped _ => exact h0
  | ended busy _ _ => exact (h.busy busy).2.1
  | moved busy _ _ _ _ _ => exact (hshape.busy rfl).1

theorem size1_ne (h : DictShape d) (hbusy : ¬ (!d.rehashing) = true) : d.dt1.size ≠ 0 := by
  simp only [Dict.rehashing, Bool.not_eq_true', Bool.not_eq_false] at hbusy
  obtain ⟨r, hr⟩ := Option.isSome_iff_exists.mp hbusy
  exact (h.busy hr).2.1

theorem expanded (h : DictShape d) {size : Nat} {rs : Int} (hexp : Expanded d size d' rs) :
    DictShape d' ∧ d'.all = d.all := by
  cases hexp with
  | refused _ => exact ⟨h, rfl⟩
  | first idle empty pow =>
      obtain ⟨hfresh, -⟩ := tableShape_fresh (K := K) (V := V) pow
      refine ⟨⟨hfresh, h.dt1, h.idle, (fun hb => by rw [idle] at hb; cases hb)⟩, ?_⟩
      have hnil : d.dt0.chained = [] := List.flatten_eq_nil_iff.mpr (by simp [empty])
      rw [Dict.all, Dict.all, chained_freshTable, hnil]
  | second idle nonempty le pow =>
      obtain ⟨hfresh, hn⟩ := tableShape_fresh (K := K) (V := V) pow
      refine ⟨⟨h.dt0, hfresh, (fun hb => by cases hb), fun hb => ?_⟩, ?_⟩
      · cases hb
        exact ⟨h.size0_ne nonempty, hn, Nat.zero_le _, fun i hi => absurd hi (Nat.not_lt_zero i)⟩
      · rw [Dict.all, Dict.all, chained_freshTable, h.idle idle]
        rfl

theorem tryExpanded (h : DictShape d) {rs : Int} (hexp : dictTryExpand d = some (d', rs)) :
    DictShape d' ∧ d'.all = d.all := by
  obtain ⟨rfl, -⟩ | ⟨-, size, hgrown, -⟩ := dictTryExpand_cases hexp
  · exact ⟨h, rfl⟩
  · exact h.expanded hgrown

theorem pushed (h : DictShape d) {e : DictEntry K V} (hpush : Pushed d e d') : DictShape d' := by
  cases hpush with
  | first idle push =>
      exact ⟨(h.dt0.push push).1, h.dt1, h.idle, (fun hb => by rw [idle] at hb; cases hb)⟩
  | second busy push =>
      obtain ⟨hshape, hsize⟩ := h.dt1.push push
      refine ⟨h.dt0, hshape, (fun hb => by rw [busy] at hb; cases hb), fun hb => ?_⟩
      obtain ⟨hs0, hs1, hr, hempty⟩ := h.busy hb
      exact ⟨hs0, hsize ▸ hs1, hr, hempty⟩

theorem taken (h : DictShape d) {e : DictEntry K V} {next : Option Nat}
    (hout : Taken d e next d') : DictShape d' := by
  cases hout with
  | first without =>
      obtain ⟨hshape, hsize⟩ := h.dt0.without without
      refine ⟨hshape, h.dt1, h.idle, fun hb => ?_⟩
      obtain ⟨hs0, hs1, hr, hempty⟩ := h.busy hb
      exact ⟨hsize ▸ hs0, hs1, hsize ▸ hr, without.emptyBelow hempty⟩
  | second without =>
      obtain ⟨hshape, hsize⟩ := h.dt1.without without
      refine ⟨h.dt0, hshape, fun hb => ?_, fun hb => ?_⟩
      · obtain ⟨bucket, -⟩ := without
        rw [h.idle hb] at bucket
        cases bucket
      · obtain ⟨hs0, hs1, hr, hempty⟩ := h.busy hb
        exact ⟨hs0, hsize ▸ hs1, hr, hempty⟩

theorem modify (h : DictShape d) (a : Nat) (f : DictEntry K V → DictEntry K V) :
    DictShape (d.modify a f) where
  dt0 := h.dt0.modify a f
  dt1 := h.dt1.modify a f
  idle := by
    intro hr
    simp only [Dict.modify, h.idle hr]
    rfl
  busy := by
    intro r hr
    obtain ⟨hs0, hs1, hle, hempty⟩ := h.busy hr
    refine ⟨hs0, hs1, hle, fun i hi chain hc => ?_⟩
    simp only [Dict.modify, DictTable.modify, List.getElem?_map, Option.map_eq_some_iff] at hc
    obtain ⟨chain₀, hc, rfl⟩ := hc
    rw [hempty i hi chain₀ hc]
    rfl

theorem rehash_defined (h : DictShape d) : ∃ d', dictTryRehash o d = some d' := by
  rw [dictTryRehash]
  split_ifs with htry
  · simp only [Bool.and_eq_true, beq_iff_eq] at htry
    obtain ⟨r, hr⟩ := Option.isSome_iff_exists.mp htry.1
    obtain ⟨-, hs1, -, hempty⟩ := h.busy hr
    simp only [dictRehash, hr]
    split_ifs with hused
    · exact ⟨_, rfl⟩
    · have hne : d.dt0.entries.flatten ≠ [] := by
        intro hnil
        refine hused (h.dt0.used.trans ?_)
        rw [DictTable.chained, hnil]
        rfl
      obtain ⟨i, chain, hscan, hchain, -⟩ := scanBucket_spec hempty hne
      obtain ⟨⟨dt0, dt1⟩, hmove⟩ := rehashChain_defined (o := o) chain d.dt0 h.dt1 hs1
      simp only [hscan, hchain, hmove, Option.bind_eq_bind, Option.bind_some]
      exact ⟨_, rfl⟩
  · exact ⟨d, rfl⟩

theorem tryExpand_defined (h : DictShape d) (hb : d.all.length ≤ 2 ^ 29) :
    ∃ d' rs, dictTryExpand d = some (d', rs) := by
  have hexp : ∀ size ≤ 2 ^ 30, ∃ d' rs, dictExpand d size = some (d', rs) := by
    intro size hsize
    obtain ⟨j, -, -, hpow, -⟩ := powSize_spec hsize
    rw [dictExpand]
    simp only [hpow, Option.bind_eq_bind, Option.bind_some]
    split_ifs
    · exact ⟨_, _, rfl⟩
    · exact ⟨_, _, rfl⟩
    · exact ⟨_, _, rfl⟩
  have hused : u32 (d.dt0.used * 2) ≤ 2 ^ 30 := by
    have hlen := d.length_all
    have hu := h.dt0.used
    rw [u32] at hu ⊢
    omega
  rw [dictTryExpand]
  split_ifs
  · exact ⟨_, _, rfl⟩
  · exact hexp _ (by decide)
  · exact hexp _ hused
  · exact ⟨_, _, rfl⟩

/-- After `dict_try_expand` there is a table. -/
theorem size0_of_tryExpand (h : DictShape d) {rs : Int}
    (hexp : dictTryExpand d = some (d', rs)) (hrs : 0 ≤ rs) : d'.dt0.size ≠ 0 := by
  obtain ⟨rfl, hkept⟩ | ⟨-, size, hgrown, -⟩ := dictTryExpand_cases hexp
  · rcases hkept with hbusy | hlt
    · obtain ⟨r, hr⟩ := Option.ne_none_iff_exists'.mp hbusy
      exact (h.busy hr).1
    · omega
  · cases hgrown with
    | refused _ => exact absurd hrs (by decide)
    | first _ _ pow => exact (tableShape_fresh (K := K) (V := V) pow).2
    | second _ nonempty _ _ => exact h.size0_ne nonempty

variable [DecidableEq K]

theorem find_defined (h : DictShape d) (key : K) : ∃ d' r, dictFind o d key = some (d', r) := by
  rw [dictFind]
  split_ifs with h0
  · exact ⟨_, _, rfl⟩
  · obtain ⟨d', htry⟩ := h.rehash_defined (o := o)
    have hre := dictTryRehash_cases htry
    have hshape := (h.rehashed hre).1
    obtain ⟨r0, hr0⟩ := hshape.dt0.search_defined (o := o) (h.size0_rehashed hre h0) key
    simp only [htry, hr0, Option.bind_eq_bind, Option.bind_some]
    cases r0 with
    | some e => exact ⟨_, _, rfl⟩
    | none =>
        simp only
        split_ifs with hidle
        · exact ⟨_, _, rfl⟩
        · obtain ⟨r1, hr1⟩ := hshape.dt1.search_defined (o := o) (hshape.size1_ne hidle) key
          simp only [hr1, Option.bind_some]
          exact ⟨_, _, rfl⟩

theorem del_defined (h : DictShape d) (key : K) :
    ∃ d' rs, dictDelInternal o d key = some (d', rs) := by
  rw [dictDelInternal]
  split_ifs with h0
  · exact ⟨_, _, rfl⟩
  · obtain ⟨d', htry⟩ := h.rehash_defined (o := o)
    have hre := dictTryRehash_cases htry
    have hshape := (h.rehashed hre).1
    obtain ⟨r0, hr0⟩ := hshape.dt0.unlink_defined (o := o) (h.size0_rehashed hre h0) key
    simp only [htry, hr0, Option.bind_eq_bind, Option.bind_some]
    cases r0 with
    | some r => exact ⟨_, _, rfl⟩
    | none =>
        simp only
        split_ifs with hidle
        · exact ⟨_, _, rfl⟩
        · obtain ⟨r1, hr1⟩ := hshape.dt1.unlink_defined (o := o) (hshape.size1_ne hidle) key
          simp only [hr1, Option.bind_some]
          cases r1 with
          | some r => exact ⟨_, _, rfl⟩
          | none => exact ⟨_, _, rfl⟩

/-- The bucket for a new key is one of the table that takes new entries. -/
theorem keyIndex_defined (h : DictShape d) (hb : d.all.length ≤ 2 ^ 29) (key : K) :
    ∃ d' r, dictKeyIndex o d key = some (d', r) ∧ DictShape d' ∧ ∀ idx, r = some idx →
      if d'.rehashing then idx < d'.dt1.entries.length else idx < d'.dt0.entries.length := by
  obtain ⟨d', rs, hexp⟩ := h.tryExpand_defined hb
  have hshape := (h.tryExpanded hexp).1
  simp only [dictKeyIndex, hexp, Option.bind_eq_bind, Option.bind_some]
  by_cases hneg : rs < 0
  · rw [if_pos hneg]
    exact ⟨d', none, rfl, hshape, fun idx hidx => by cases hidx⟩
  · rw [if_neg hneg]
    have hs0 := h.size0_of_tryExpand hexp (Int.not_lt.mp hneg)
    obtain ⟨r0, hr0⟩ := hshape.dt0.search_defined (o := o) hs0 key
    simp only [hr0, Option.bind_some]
    cases r0 with
    | some e => exact ⟨d', none, rfl, hshape, fun idx hidx => by cases hidx⟩
    | none =>
        cases hbusy : d'.rehashing with
        | false =>
            refine ⟨d', _, rfl, hshape, fun idx hidx => ?_⟩
            cases hidx
            simpa [hbusy] using hshape.dt0.index_lt hs0 key
        | true =>
            have hs1 := hshape.size1_ne (by simp [hbusy])
            obtain ⟨r1, hr1⟩ := hshape.dt1.search_defined (o := o) hs1 key
            simp only [hr1, Option.bind_some, Bool.not_true, Bool.false_eq_true, if_false]
            cases r1 with
            | some e => exact ⟨d', none, rfl, hshape, fun idx hidx => by cases hidx⟩
            | none =>
                refine ⟨d', _, rfl, hshape, fun idx hidx => ?_⟩
                cases hidx
                simpa [hbusy] using hshape.dt1.index_lt hs1 key

theorem add_defined (h : DictShape d) (hb : d.all.length ≤ 2 ^ 29) (key : K) (val : V) :
    ∃ d' rs, dictAdd o d key val = some (d', rs) := by
  obtain ⟨d₁, htry⟩ := h.rehash_defined (o := o)
  have hre := dictTryRehash_cases htry
  have hlen := hre.subperm.length_le
  obtain ⟨d₂, r, hidx, -, hin⟩ := (h.rehashed hre).1.keyIndex_defined (o := o) (by omega) key
  simp only [dictAdd, htry, hidx, Option.bind_eq_bind, Option.bind_some]
  cases r with
  | none => exact ⟨_, _, rfl⟩
  | some idx =>
      have hlt := hin idx rfl
      cases hbusy : d₂.rehashing with
      | true =>
          rw [if_pos hbusy] at hlt
          simp only [Dict.rehashing] at hbusy
          simp only [DictTable.push, List.getElem?_eq_getElem hlt, Option.bind_eq_bind,
            Option.bind_some, Dict.rehashing, hbusy, if_true]
          exact ⟨_, _, rfl⟩
      | false =>
          rw [if_neg (by simp [hbusy])] at hlt
          simp only [Dict.rehashing] at hbusy
          simp only [DictTable.push, List.getElem?_eq_getElem hlt, Option.bind_eq_bind,
            Option.bind_some, Dict.rehashing, hbusy, Bool.false_eq_true, if_false]
          exact ⟨_, _, rfl⟩

end DictShape

end ThrSocket
