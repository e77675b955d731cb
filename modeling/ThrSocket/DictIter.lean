import Mathlib.Data.List.Nodup
import ThrSocket.DictInv

/-!
Iterators on the list of all entries. An iterator keeps one reference to the
entry it stands on, so that entry stays in its chain as long as nobody deletes
it; a step of the iterator changes reference counts and nothing else.
-/

namespace ThrSocket

variable {K V : Type}

theorem cellIn_eq_none {a : Nat} {chain : List (DictEntry K V)} (h : ∀ e ∈ chain, e.addr ≠ a) :
    cellIn a chain = none := by
  induction chain with
  | nil => rfl
  | cons e chain ih =>
      rw [cellIn, if_neg (h e List.mem_cons_self)]
      exact ih fun e' he' => h e' (List.mem_cons_of_mem _ he')

theorem cellIn_split {before behind : List (DictEntry K V)} {e : DictEntry K V}
    (h : ∀ e' ∈ before, e'.addr ≠ e.addr) :
    cellIn e.addr (before ++ e :: behind) = some (e, behind.head?.map (·.addr)) := by
  induction before with
  | nil => rw [List.nil_append, cellIn, if_pos rfl]
  | cons e' before ih =>
      rw [List.cons_append, cellIn, if_neg (h e' List.mem_cons_self)]
      exact ih fun e'' he => h e'' (List.mem_cons_of_mem _ he)

theorem Dict.all_eq_flatten (d : Dict K V) : d.all = (d.dt0.entries ++ d.dt1.entries).flatten := by
  rw [List.flatten_append]
  rfl

section

variable {o : DictOpts K V} {d : Dict K V}

/-- Where no two entries have one address, a chained entry is found at its own, with the
one behind it in its chain. -/
theorem Dict.cell_of_bucket (hn : (d.all.map (·.addr)).Nodup) {before behind : List (DictEntry K V)}
    {e : DictEntry K V} (hc : before ++ e :: behind ∈ d.dt0.entries ++ d.dt1.entries) :
    d.cell e.addr = some (e, behind.head?.map (·.addr)) := by
  rw [Dict.all_eq_flatten] at hn
  obtain ⟨buckets, buckets', hsplit⟩ := List.append_of_mem hc
  have hflat : (d.dt0.entries ++ d.dt1.entries).flatten =
      (buckets.flatten ++ before) ++ e :: (behind ++ buckets'.flatten) := by
    rw [hsplit]
    simp
  rw [hflat, List.map_append, List.map_cons] at hn
  have hother : ∀ e' ∈ buckets.flatten ++ before, e'.addr ≠ e.addr := by
    intro e' he' heq
    refine (List.nodup_append.mp hn).2.2 _ (List.mem_map_of_mem he') _ List.mem_cons_self heq
  have hbuckets : buckets.findSome? (cellIn e.addr) = none := by
    refine List.findSome?_eq_none_iff.mpr fun c hc => cellIn_eq_none fun e' he' => ?_
    exact hother e' (List.mem_append_left _ (List.mem_flatten.mpr ⟨c, hc, he'⟩))
  have hcell : cellIn e.addr (before ++ e :: behind) = some (e, behind.head?.map (·.addr)) :=
    cellIn_split fun e' he' => hother e' (List.mem_append_right _ he')
  rw [Dict.cell, hsplit, List.findSome?_append, hbuckets, Option.none_or,
    List.findSome?_cons_of_isSome (h := by rw [hcell]; rfl), hcell]

theorem Dict.mem_all_iff {e : DictEntry K V} :
    e ∈ d.all ↔ ∃ before behind, before ++ e :: behind ∈ d.dt0.entries ++ d.dt1.entries := by
  rw [Dict.all_eq_flatten, List.mem_flatten]
  constructor
  · rintro ⟨c, hc, he⟩
    obtain ⟨before, behind, rfl⟩ := List.append_of_mem he
    exact ⟨before, behind, hc⟩
  · rintro ⟨before, behind, hc⟩
    exact ⟨_, hc, List.mem_append_right _ List.mem_cons_self⟩

/-- A chained entry is found at its address, and so is the one behind it. -/
theorem Dict.cell_of_mem (hn : (d.all.map (·.addr)).Nodup) {e : DictEntry K V} (he : e ∈ d.all) :
    ∃ next, d.cell e.addr = some (e, next) ∧ ∀ b, next = some b → ∃ e' ∈ d.all, e'.addr = b := by
  obtain ⟨before, behind, hc⟩ := Dict.mem_all_iff.mp he
  refine ⟨_, Dict.cell_of_bucket hn hc, fun b hb => ?_⟩
  obtain ⟨e', he', rfl⟩ := Option.map_eq_some_iff.mp hb
  refine ⟨e', ?_, rfl⟩
  rw [Dict.all_eq_flatten]
  refine List.mem_flatten.mpr ⟨_, hc, List.mem_append_right _ (List.mem_cons_of_mem _ ?_)⟩
  exact List.mem_of_mem_head? he'

theorem DictInv.cell (h : DictInv o d) {e : DictEntry K V} (he : e ∈ d.all) :
    ∃ next, d.cell e.addr = some (e, next) ∧ ∀ b, next = some b → ∃ e' ∈ d.all, e'.addr = b :=
  Dict.cell_of_mem h.addrs he

/-- Every chained entry is referenced by its chain, by `others a` iterators and by
the one that stands on `x`; what is referenced by an iterator is chained. -/
structure RefInv (d : Dict K V) (others : Nat → Nat) (x : Option Nat) : Prop where
  ref : ∀ e ∈ d.all, e.ref = 1 + others e.addr + if x = some e.addr then 1 else 0
  parked : ∀ a, 0 < others a ∨ x = some a → ∃ e ∈ d.all, e.addr = a

structure RefsOnly (d d' : Dict K V) : Prop where
  all : ∃ g : DictEntry K V → DictEntry K V, d'.all = d.all.map g ∧
    ∀ e, (g e).key = e.key ∧ (g e).value = e.value ∧ (g e).addr = e.addr
  size0 : d'.dt0.size = d.dt0.size
  size1 : d'.dt1.size = d.dt1.size

theorem RefsOnly.of_eq {d d' : Dict K V} (hall : d'.all = d.all) (h0 : d'.dt0.size = d.dt0.size)
    (h1 : d'.dt1.size = d.dt1.size) : RefsOnly d d' :=
  ⟨⟨id, by rw [hall, List.map_id], fun _ => ⟨rfl, rfl, rfl⟩⟩, h0, h1⟩

theorem RefsOnly.trans {d d' d'' : Dict K V} (h : RefsOnly d d') (h' : RefsOnly d' d'') :
    RefsOnly d d'' := by
  obtain ⟨⟨g, hg, hgs⟩, h0, h1⟩ := h
  obtain ⟨⟨g', hg', hgs'⟩, h0', h1'⟩ := h'
  refine ⟨⟨g' ∘ g, by rw [hg', hg, List.map_map], fun e => ?_⟩, h0'.trans h0, h1'.trans h1⟩
  obtain ⟨hk, hv, ha⟩ := hgs e
  obtain ⟨hk', hv', ha'⟩ := hgs' (g e)
  exact ⟨hk'.trans hk, hv'.trans hv, ha'.trans ha⟩

/-- The store of a reference count. -/
theorem refsOnly_modify (d : Dict K V) (a : Nat) (r : Nat → Nat) :
    RefsOnly d (d.modify a fun e => { e with ref := r e.ref }) := by
  refine ⟨⟨_, Dict.all_modify d, fun e => ?_⟩, rfl, rfl⟩
  rw [storeAt]
  split_ifs
  · exact ⟨rfl, rfl, rfl⟩
  · exact ⟨rfl, rfl, rfl⟩

theorem DictInv.modifyRef (h : DictInv o d) (a : Nat) (r : Nat → Nat) :
    DictInv o (d.modify a fun e => { e with ref := r e.ref }) :=
  h.modify (fun _ => rfl) fun _ => rfl

theorem mem_modify {a : Nat} {f : DictEntry K V → DictEntry K V} {e : DictEntry K V} :
    e ∈ (d.modify a f).all ↔ ∃ e₀ ∈ d.all, storeAt a f e₀ = e := by
  rw [Dict.all_modify]
  exact List.mem_map

theorem exists_addr_modify {a b : Nat} (r : Nat → Nat) (hb : ∃ e ∈ d.all, e.addr = b) :
    ∃ e ∈ (d.modify a fun e => { e with ref := r e.ref }).all, e.addr = b := by
  obtain ⟨e, he, rfl⟩ := hb
  have haddr : ∀ e : DictEntry K V, { e with ref := r e.ref }.addr = e.addr := fun _ => rfl
  exact ⟨_, mem_modify.mpr ⟨e, he, rfl⟩, storeAt_addr haddr e⟩

theorem entryIncr_spec (h : DictInv o d) {others : Nat → Nat} (hr : RefInv d others none) {b : Nat}
    (hb : ∃ e ∈ d.all, e.addr = b) :
    ∃ d', d.entryIncr b = some d' ∧ DictInv o d' ∧ RefsOnly d d' ∧ RefInv d' others (some b) := by
  have hcell : ∃ c, d.cell b = some c := by
    obtain ⟨e, he, rfl⟩ := hb
    obtain ⟨next, hcell, _⟩ := h.cell he
    exact ⟨_, hcell⟩
  obtain ⟨c, hcell⟩ := hcell
  refine ⟨_, by rw [Dict.entryIncr, hcell], h.modifyRef _ (· + 1), refsOnly_modify d _ (· + 1), ?_⟩
  constructor
  · intro e' he'
    obtain ⟨e, he, rfl⟩ := mem_modify.mp he'
    have href := hr.ref e he
    simp only [reduceCtorEq, if_false] at href
    by_cases ha : e.addr = b
    · simp only [storeAt, ha, if_true] at href ⊢
      omega
    · have hne : ¬ some b = some e.addr := fun heq => ha (Option.some.inj heq).symm
      simp only [storeAt, if_neg ha, if_neg hne]
      exact href
  · intro a ha
    refine exists_addr_modify (· + 1) ?_
    rcases ha with ha | ha
    · exact hr.parked a (.inl ha)
    · exact (Option.some.inj ha) ▸ hb

theorem entryDecr_spec (h : DictInv o d) {others : Nat → Nat} {a : Nat}
    (hr : RefInv d others (some a)) :
    ∃ d', d.entryDecr a = some d' ∧ DictInv o d' ∧ RefsOnly d d' ∧ RefInv d' others none ∧
      ∃ e ∈ d'.all, e.addr = a := by
  have hmem := hr.parked a (.inr rfl)
  have hcell : ∃ e next, d.cell a = some (e, next) ∧ e.ref - 1 ≠ 0 := by
    obtain ⟨e, he, rfl⟩ := hmem
    obtain ⟨next, hcell, _⟩ := h.cell he
    have href := hr.ref e he
    rw [if_pos rfl] at href
    exact ⟨e, next, hcell, by omega⟩
  obtain ⟨e₁, next, hcell, hpos⟩ := hcell
  refine ⟨d.modify a fun e => { e with ref := e.ref - 1 }, ?_, h.modifyRef _ (· - 1),
    refsOnly_modify d _ (· - 1), ⟨?_, ?_⟩, exists_addr_modify (· - 1) hmem⟩
  · simp only [Dict.entryDecr, hcell, if_pos hpos]
  · intro e' he'
    obtain ⟨e, he, rfl⟩ := mem_modify.mp he'
    have href := hr.ref e he
    simp only [reduceCtorEq, if_false]
    by_cases ha : e.addr = a
    · simp only [storeAt, ha, if_true] at href ⊢
      omega
    · have hne : ¬ some a = some e.addr := fun heq => ha (Option.some.inj heq).symm
      simp only [storeAt, if_neg ha, if_neg hne] at href ⊢
      exact href
  · intro b hb
    refine exists_addr_modify (· - 1) ?_
    rcases hb with hb | hb
    · exact hr.parked b (.inl hb)
    · cases hb

def DictIterator.left (d : Dict K V) (iter : DictIterator) : Nat :=
  if iter.dtIdx = 0 then d.dt0.size - (iter.idx + 1).toNat + d.dt1.size + 1
  else d.dt1.size - (iter.idx + 1).toNat

structure Moved (o : DictOpts K V) (d : Dict K V) (others : Nat → Nat) (iter : DictIterator)
    (d' : Dict K V) (iter' : DictIterator) (atEnd : Bool) : Prop where
  inv : DictInv o d'
  refs : RefsOnly d d'
  ref : RefInv d' others none
  idx : -1 ≤ iter'.idx
  entry : ∀ b, iter'.entry = some b → ∃ e ∈ d'.all, e.addr = b
  ended : atEnd = true → iter'.entry = none
  left : iter.entry = none → atEnd = false → iter'.left d' < iter.left d
  stay : iter.entry.isSome → iter'.left d' = iter.left d

/-- The head of a bucket in the array. -/
theorem DictInv.head (h : DictInv o d) {t : DictTable K V} (ht : t = d.dt0 ∨ t = d.dt1) {i : Nat}
    (hi : i < t.size) :
    ∃ chain, t.entries[i]? = some chain ∧
      ∀ b, chain.head?.map (·.addr) = some b → ∃ e ∈ d.all, e.addr = b := by
  have hlen : t.entries.length = t.size := by
    rcases ht with rfl | rfl
    · exact h.dt0.length
    · exact h.dt1.length
  refine ⟨_, List.getElem?_eq_getElem (hlen ▸ hi), fun b hb => ?_⟩
  obtain ⟨e, he, rfl⟩ := Option.map_eq_some_iff.mp hb
  have hmem : e ∈ t.chained :=
    mem_chained.mpr ⟨i, _, List.getElem?_eq_getElem (hlen ▸ hi), List.mem_of_mem_head? he⟩
  refine ⟨e, ?_, rfl⟩
  rcases ht with rfl | rfl
  · exact List.mem_append_left _ hmem
  · exact List.mem_append_right _ hmem

theorem Dict.dt_mem (d : Dict K V) (i : Nat) : d.dt i = d.dt0 ∨ d.dt i = d.dt1 := by
  rw [Dict.dt]
  split_ifs
  · exact .inl rfl
  · exact .inr rfl

/-- The count of iterators under way is no concern of the entries. -/
theorem iterators_spec (h : DictInv o d) {others : Nat → Nat} {x : Option Nat}
    (hr : RefInv d others x) (n : Int) :
    DictInv o { d with iterators := n } ∧ RefsOnly d { d with iterators := n } ∧
      RefInv { d with iterators := n } others x :=
  ⟨⟨h.dt0, h.dt1, h.idle, h.busy, h.addrs, h.fresh⟩, .of_eq rfl rfl rfl, ⟨hr.ref, hr.parked⟩⟩

theorem dictIteratorMove_spec (h : DictInv o d) {others : Nat → Nat} {iter : DictIterator}
    (hr : RefInv d others iter.entry) (hidx : -1 ≤ iter.idx) :
    ∃ d' iter' atEnd, dictIteratorMove d iter = some (d', iter', atEnd) ∧
      Moved o d others iter d' iter' atEnd := by
  cases hentry : iter.entry with
  | some a =>
      rw [hentry] at hr
      obtain ⟨d₁, hdecr, hinv, hrefs, href, e, he, rfl⟩ := entryDecr_spec h hr
      obtain ⟨next, hcell, hnext⟩ := hinv.cell he
      refine ⟨d₁, { iter with entry := next }, false, ?_, hinv, hrefs, href, hidx, hnext,
        (fun hf => by cases hf), (fun hf => by rw [hentry] at hf; cases hf), fun _ => ?_⟩
      · simp only [dictIteratorMove, hentry, hdecr, hcell, Option.bind_eq_bind, Option.bind_some]
      · simp only [DictIterator.left, hrefs.size0, hrefs.size1]
  | none =>
      rw [hentry] at hr
      have hd₁ : ∃ d₁ : Dict K V, (if iter.dtIdx = 0 ∧ iter.idx = -1 then
          { d with iterators := d.iterators + 1 } else d) = d₁ ∧ DictInv o d₁ ∧ RefsOnly d d₁ ∧
          RefInv d₁ others none := by
        split_ifs
        · exact ⟨_, rfl, iterators_spec h hr _⟩
        · exact ⟨d, rfl, h, .of_eq rfl rfl rfl, hr⟩
      obtain ⟨d₁, hd₁, hinv, hrefs, href⟩ := hd₁
      simp only [dictIteratorMove, hentry, Option.bind_eq_bind, hd₁]
      have hstay : ¬ (none : Option Nat).isSome = true := by decide
      split_ifs with hend hfirst
      · -- the first table of a rehashing dict is through, and the second one begins
        obtain ⟨hdt, hbusy⟩ := hfirst
        obtain ⟨r, hrr⟩ := Option.isSome_iff_exists.mp hbusy
        have hs1 := (hinv.busy hrr).2.1
        obtain ⟨chain, hchain, hhead⟩ := hinv.head (.inr rfl) (Nat.pos_of_ne_zero hs1)
        refine ⟨d₁, { dtIdx := 1, idx := 0, entry := chain.head?.map (·.addr) }, false, ?_, hinv,
          hrefs, href, (by omega : (-1 : Int) ≤ 0), hhead, (fun hf => by cases hf), fun _ _ => ?_,
          fun hs => absurd (hentry ▸ hs) hstay⟩
        · simp only [hchain, Option.bind_some]
        · simp only [DictIterator.left, hdt, if_true, Nat.one_ne_zero, if_false, ← hrefs.size1]
          omega
      · exact ⟨d₁, _, true, rfl, hinv, hrefs, href, by simp only; omega, (fun b hb => by cases hb),
          (fun _ => rfl), (fun _ hf => by cases hf), fun hs => absurd (hentry ▸ hs) hstay⟩
      · have hlt : (iter.idx + 1).toNat < (d₁.dt iter.dtIdx).size := by omega
        obtain ⟨chain, hchain, hhead⟩ := hinv.head (d₁.dt_mem iter.dtIdx) hlt
        refine ⟨d₁, { iter with idx := iter.idx + 1, entry := chain.head?.map (·.addr) }, false, ?_,
          hinv, hrefs, href, by simp only; omega, hhead, (fun hf => by cases hf), fun _ _ => ?_,
          fun hs => absurd (hentry ▸ hs) hstay⟩
        · simp only [hchain, Option.bind_some]
        · simp only [DictIterator.left, Dict.dt, ← hrefs.size0, ← hrefs.size1] at hlt ⊢
          split_ifs at hlt ⊢ <;> omega

theorem dictIteratorLoop_spec (fuel : Nat) (h : DictInv o d) {others : Nat → Nat}
    {iter : DictIterator} (hr : RefInv d others iter.entry) (hidx : -1 ≤ iter.idx)
    (hfuel : iter.left d + (if iter.entry.isSome then 1 else 0) < fuel) :
    ∃ d' iter' r, dictIteratorLoop fuel d iter = some (d', iter', r) ∧ DictInv o d' ∧
      RefsOnly d d' ∧ RefInv d' others iter'.entry ∧ -1 ≤ iter'.idx ∧
      ∀ e, r = some e → e ∈ d'.all := by
  induction fuel generalizing d iter with
  | zero => exact absurd hfuel (Nat.not_lt_zero _)
  | succ fuel ih =>
      obtain ⟨d₁, iter₁, atEnd, hmove, hm⟩ := dictIteratorMove_spec h hr hidx
      simp only [dictIteratorLoop, hmove, Option.bind_eq_bind, Option.bind_some]
      cases hend : atEnd with
      | true =>
          rw [if_pos rfl]
          refine ⟨d₁, iter₁, none, rfl, hm.inv, hm.refs, ?_, hm.idx, fun e he => by cases he⟩
          rw [hm.ended hend]
          exact hm.ref
      | false =>
          rw [if_neg (by decide)]
          cases hentry : iter₁.entry with
          | some b =>
              obtain ⟨d₂, hincr, hinv₂, hrefs₂, href₂⟩ :=
                entryIncr_spec hm.inv hm.ref (hm.entry b hentry)
              obtain ⟨e, he, haddr⟩ := href₂.parked b (.inr rfl)
              obtain ⟨next, hcell, _⟩ := hinv₂.cell he
              rw [haddr] at hcell
              refine ⟨d₂, iter₁, some e, by simp only [hincr, hcell, Option.bind_some], hinv₂,
                hm.refs.trans hrefs₂, hentry ▸ href₂, hm.idx, ?_⟩
              rintro e' ⟨⟩
              exact he
          | none =>
              have hleft : iter₁.left d₁ < fuel := by
                cases hold : iter.entry with
                | none =>
                    have := hm.left hold hend
                    omega
                | some a =>
                    have := hm.stay (by rw [hold]; rfl)
                    rw [hold] at hfuel
                    simp only [Option.isSome_some, if_true] at hfuel
                    omega
              obtain ⟨d', iter', r, hloop, hinv', hrefs', href', hidx', hmem'⟩ :=
                ih hm.inv (hentry ▸ hm.ref) hm.idx (by rw [hentry]; simpa using hleft)
              exact ⟨d', iter', r, hloop, hinv', hm.refs.trans hrefs', href', hidx', hmem'⟩

/-- `dict_iterator_next` comes to an end, keeps the entries and returns one of them. -/
theorem dictIteratorNext_spec (h : DictInv o d) {others : Nat → Nat} {iter : DictIterator}
    (hr : RefInv d others iter.entry) (hidx : -1 ≤ iter.idx) :
    ∃ d' iter' r, dictIteratorNext d iter = some (d', iter', r) ∧ DictInv o d' ∧ RefsOnly d d' ∧
      RefInv d' others iter'.entry ∧ -1 ≤ iter'.idx ∧ ∀ e, r = some e → e ∈ d'.all := by
  refine dictIteratorLoop_spec _ h hr hidx ?_
  rw [DictIterator.left]
  split_ifs <;> omega

theorem dictIteratorDestroy_spec (h : DictInv o d) {others : Nat → Nat} {iter : DictIterator}
    (hr : RefInv d others iter.entry) :
    ∃ d', dictIteratorDestroy d iter = some d' ∧ DictInv o d' ∧ RefsOnly d d' ∧
      RefInv d' others none := by
  have hd₁ : ∃ d₁ : Dict K V, (if ¬ (iter.idx = -1 ∧ iter.dtIdx = 0) then
      { d with iterators := d.iterators - 1 } else d) = d₁ ∧ DictInv o d₁ ∧ RefsOnly d d₁ ∧
      RefInv d₁ others iter.entry := by
    split_ifs
    · exact ⟨d, rfl, h, .of_eq rfl rfl rfl, hr⟩
    · exact ⟨_, rfl, iterators_spec h hr _⟩
  obtain ⟨d₁, hd₁, hinv, hrefs, href⟩ := hd₁
  simp only [dictIteratorDestroy, hd₁]
  cases hentry : iter.entry with
  | none => exact ⟨d₁, rfl, hinv, hrefs, hentry ▸ href⟩
  | some a =>
      rw [hentry] at href
      obtain ⟨d₂, hdecr, hinv₂, hrefs₂, href₂, _⟩ := entryDecr_spec hinv href
      exact ⟨d₂, hdecr, hinv₂, hrefs.trans hrefs₂, href₂⟩

def parkedOn (iters : List (Option DictIterator)) (a : Nat) : Nat :=
  iters.countP fun x => x.bind (·.entry) = some a

theorem parkedOn_closed {iters : List (Option DictIterator)} (hi : ∀ iter ∈ iters, iter = none)
    (a : Nat) : parkedOn iters a = 0 := by
  refine List.countP_eq_zero.mpr fun x hx => ?_
  rw [hi x hx]
  simp

theorem parkedOn_set {iters : List (Option DictIterator)} {i : Nat} (hi : i < iters.length)
    (iter : DictIterator) (a : Nat) :
    parkedOn (iters.set i (some iter)) a =
      parkedOn (iters.set i none) a + if iter.entry = some a then 1 else 0 := by
  unfold parkedOn
  rw [List.countP_set hi, List.countP_set hi]
  simp

/-- The reference counts seen from one of the iterators. -/
theorem RefInv.focus {iters : List (Option DictIterator)} {i : Nat} {iter : DictIterator}
    (h : RefInv d (parkedOn iters) none) (hi : iters[i]? = some (some iter)) :
    RefInv d (parkedOn (iters.set i none)) iter.entry := by
  obtain ⟨hlt, hget⟩ := List.getElem?_eq_some_iff.mp hi
  have hself : ∀ a, parkedOn iters a =
      parkedOn (iters.set i none) a + if iter.entry = some a then 1 else 0 := by
    intro a
    rw [← parkedOn_set hlt, ← hget, List.set_getElem_self]
  constructor
  · intro e he
    have := h.ref e he
    rw [hself] at this
    simpa [Nat.add_assoc] using this
  · intro a ha
    refine h.parked a (.inl ?_)
    rw [hself]
    rcases ha with ha | ha
    · omega
    · rw [if_pos ha]
      omega

theorem RefInv.unfocus {iters : List (Option DictIterator)} {i : Nat} {iter : DictIterator}
    (h : RefInv d (parkedOn (iters.set i none)) iter.entry) (hi : i < iters.length) :
    RefInv d (parkedOn (iters.set i (some iter))) none := by
  constructor
  · intro e he
    have := h.ref e he
    rw [parkedOn_set hi]
    simpa [Nat.add_assoc] using this
  · rintro a (ha | ha)
    · refine h.parked a ?_
      rw [parkedOn_set hi] at ha
      by_cases hx : iter.entry = some a
      · exact .inr hx
      · rw [if_neg hx] at ha
        exact .inl ha
    · cases ha

end

end ThrSocket
