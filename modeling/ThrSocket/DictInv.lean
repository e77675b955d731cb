import Mathlib.Data.List.TakeDrop
import Mathlib.Data.List.TakeWhile
import ThrSocket.Dict

/-!
The representation invariant of the dict and what each internal step does to
it. All the entries of both tables are taken as one list; moving them between
the tables permutes that list, and nothing but its elements is observed.
-/

namespace ThrSocket

variable {K V : Type}

/-- What dict.c needs of its callbacks: the comparison is an equivalence that the
hash respects, and a duplicated key is equal to the original. -/
structure DictOpts.Lawful [DecidableEq K] (o : DictOpts K V) : Prop where
  equiv : Equivalence fun a b => o.compare a b = true
  hash : ∀ {a b}, o.compare a b = true → o.hash a = o.hash b
  dup : ∀ k, o.compare (o.setKey k) k = true

def DictTable.chained (t : DictTable K V) : List (DictEntry K V) := t.entries.flatten

def Dict.all (d : Dict K V) : List (DictEntry K V) := d.dt0.chained ++ d.dt1.chained

def EmptyBelow (entries : List (List (DictEntry K V))) (r : Nat) : Prop :=
  ∀ i < r, ∀ chain, entries[i]? = some chain → chain = []

structure TableInv (o : DictOpts K V) (t : DictTable K V) : Prop where
  length : t.entries.length = t.size
  size : t.size = 0 ∨ ∃ j, 3 ≤ j ∧ j ≤ 30 ∧ t.size = 2 ^ j
  mask : t.mask = t.size - 1
  used : t.used = t.chained.length
  placed : ∀ {i chain}, t.entries[i]? = some chain → ∀ e ∈ chain, t.index o e.key = i

theorem tableInv_reset (o : DictOpts K V) : TableInv o ({} : DictTable K V) where
  length := rfl
  size := .inl rfl
  mask := rfl
  used := rfl
  placed := fun h => by simp at h

section

variable {o : DictOpts K V} {t : DictTable K V}

/-- An index is the remainder of the hash by the size, so it is in the array. -/
theorem TableInv.index_lt (h : TableInv o t) (hs : t.size ≠ 0) (key : K) :
    t.index o key < t.entries.length := by
  obtain h0 | ⟨j, _, _, hj⟩ := h.size
  · exact absurd h0 hs
  · rw [h.length, DictTable.index, h.mask, hj, Nat.and_two_pow_sub_one_eq_mod]
    exact Nat.mod_lt _ (Nat.two_pow_pos j)

/-- The bucket of a key, which holds all its entries. -/
theorem TableInv.bucket (h : TableInv o t) (hs : t.size ≠ 0) (key : K) :
    ∃ chain, t.entries[t.index o key]? = some chain :=
  ⟨_, List.getElem?_eq_getElem (h.index_lt hs key)⟩

theorem mem_chained {e : DictEntry K V} :
    e ∈ t.chained ↔ ∃ (i : Nat) (chain : List (DictEntry K V)),
      t.entries[i]? = some chain ∧ e ∈ chain := by
  rw [DictTable.chained, List.mem_flatten]
  constructor
  · rintro ⟨chain, hc, he⟩
    obtain ⟨i, hi⟩ := List.mem_iff_getElem?.mp hc
    exact ⟨i, chain, hi, he⟩
  · rintro ⟨i, chain, hi, he⟩
    exact ⟨chain, List.mem_of_getElem? hi, he⟩

/-- The elements outside one of the lists, next to any new content of it. -/
theorem flatten_set_perm {α : Type*} {ls : List (List α)} {i : Nat} {c : List α}
    (h : ls[i]? = some c) :
    ∃ rest, ls.flatten.Perm (c ++ rest) ∧ ∀ c', (ls.set i c').flatten.Perm (c' ++ rest) := by
  obtain ⟨hi, rfl⟩ := List.getElem?_eq_some_iff.mp h
  refine ⟨(ls.take i).flatten ++ (ls.drop (i + 1)).flatten, ?_, fun c' => ?_⟩
  · conv_lhs => rw [← List.take_append_drop i ls, List.drop_eq_getElem_cons hi]
    rw [List.flatten_append, List.flatten_cons]
    exact List.perm_append_comm_assoc _ _ _
  · rw [List.set_eq_take_append_cons_drop, if_pos hi, List.flatten_append, List.flatten_cons]
    exact List.perm_append_comm_assoc _ _ _

/-- A bucket given new content that belongs there. -/
theorem TableInv.set (h : TableInv o t) {i n : Nat} {chain chain' : List (DictEntry K V)}
    (hi : t.entries[i]? = some chain) (hplaced : ∀ e ∈ chain', t.index o e.key = i)
    (hused : n + chain.length = t.used + chain'.length) :
    TableInv o { t with entries := t.entries.set i chain', used := n } := by
  obtain ⟨rest, hp, hp'⟩ := flatten_set_perm hi
  have hlen := hp.length_eq
  have hlen' := (hp' chain').length_eq
  have hu := h.used
  rw [List.length_append] at hlen hlen'
  refine ⟨by rw [List.length_set]; exact h.length, h.size, h.mask, ?_, ?_⟩
  · rw [DictTable.chained] at hu ⊢
    simp only
    omega
  · intro j c hj
    simp only [List.getElem?_set] at hj
    split_ifs at hj with hij
    · cases hj
      exact hij ▸ hplaced
    · exact h.placed hj

theorem u32_of_lt {n : Nat} (h : n < 2 ^ 32) : u32 n = n := Nat.mod_eq_of_lt h

theorem u32_pred {n : Nat} (h : n < 2 ^ 32) (hn : n ≠ 0) : u32 (n + (2 ^ 32 - 1)) = n - 1 := by
  rw [u32]
  omega

/-- An entry pushed into its bucket. -/
theorem TableInv.push (h : TableInv o t) (hs : t.size ≠ 0) (e : DictEntry K V)
    (hu : t.chained.length + 1 < 2 ^ 32) :
    ∃ t', t.push (t.index o e.key) e = some t' ∧ TableInv o t' ∧ t'.size = t.size ∧
      t'.chained.Perm (e :: t.chained) := by
  obtain ⟨chain, hc⟩ := h.bucket hs e.key
  obtain ⟨rest, hp, hp'⟩ := flatten_set_perm hc
  have hused : u32 (t.used + 1) = t.used + 1 := u32_of_lt (h.used ▸ hu)
  refine ⟨{ t with entries := t.entries.set (t.index o e.key) (e :: chain), used := t.used + 1 },
    ?_, ?_, rfl, ?_⟩
  · simp only [DictTable.push, hc, Option.bind_eq_bind, Option.bind_some, hused]
  · refine h.set hc ?_ (by simp only [List.length_cons]; omega)
    intro e' he'
    rcases List.mem_cons.mp he' with rfl | hmem
    · rfl
    · exact h.placed hc e' hmem
  · exact (hp' (e :: chain)).trans ((List.Perm.cons e hp).symm)

variable [DecidableEq K]

/-- The walk along a chain finds an entry of the key, if the table has one. -/
theorem TableInv.search (ho : o.Lawful) (h : TableInv o t) (hs : t.size ≠ 0) (key : K) :
    ∃ r, t.search o key = some r ∧
      (∀ e, r = some e → e ∈ t.chained ∧ o.compare e.key key = true) ∧
      (r = none → ∀ e ∈ t.chained, o.compare e.key key = false) := by
  obtain ⟨chain, hc⟩ := h.bucket hs key
  refine ⟨chain.find? fun e => o.compare e.key key, ?_, ?_, ?_⟩
  · simp only [DictTable.search, hc, Option.bind_eq_bind, Option.bind_some]
  · intro e he
    exact ⟨mem_chained.mpr ⟨_, chain, hc, List.mem_of_find?_eq_some he⟩,
      List.find?_some (p := fun e : DictEntry K V => o.compare e.key key) he⟩
  · intro hnone e he
    obtain ⟨i, chain', hi, hmem⟩ := mem_chained.mp he
    by_contra hcmp
    have hcmp' : o.compare e.key key = true := by simpa using hcmp
    -- an entry of the key is in the bucket of the key
    have hidx : i = t.index o key := by
      rw [← h.placed hi e hmem, DictTable.index, DictTable.index, ho.hash hcmp']
    rw [hidx, hc] at hi
    cases hi
    exact List.find?_eq_none.mp hnone e hmem hcmp'

theorem span_cases {α : Type*} (p : α → Bool) (l : List α) :
    (l.span p = (l, []) ∧ ∀ x ∈ l, p x = true) ∨
      ∃ before x behind, l.span p = (before, x :: behind) ∧ l = before ++ x :: behind ∧
        p x = false := by
  have happ := List.takeWhile_append_dropWhile (p := p) (l := l)
  rw [List.span_eq_takeWhile_dropWhile]
  cases hd : l.dropWhile p with
  | nil =>
      rw [hd, List.append_nil] at happ
      exact .inl ⟨by rw [happ], List.dropWhile_eq_nil_iff.mp hd⟩
  | cons x behind =>
      refine .inr ⟨_, x, behind, rfl, by rw [← hd, happ], ?_⟩
      have hx := List.head_dropWhile_not p (l := l) (by simp [hd])
      simpa [hd] using hx

/-- Taking the first entry of a key out of its chain. -/
theorem TableInv.unlink (ho : o.Lawful) (h : TableInv o t) (hs : t.size ≠ 0) (key : K)
    (hu : t.chained.length < 2 ^ 32) :
    (t.unlink o key = some none ∧ ∀ e ∈ t.chained, o.compare e.key key = false) ∨
      ∃ t' e next, t.unlink o key = some (some (t', unlinked e next)) ∧ TableInv o t' ∧
        t'.size = t.size ∧ o.compare e.key key = true ∧ t.chained.Perm (e :: t'.chained) ∧
        ∀ r, EmptyBelow t.entries r → EmptyBelow t'.entries r := by
  obtain ⟨r, hr, _, hnone⟩ := h.search ho hs key
  obtain ⟨chain, hc⟩ := h.bucket hs key
  simp only [DictTable.search, hc, Option.bind_eq_bind, Option.bind_some, Option.some.injEq] at hr
  simp only [DictTable.unlink, hc, Option.bind_eq_bind, Option.bind_some]
  obtain ⟨hspan, hall⟩ | ⟨before, e, behind, hspan, rfl, he⟩ :=
    span_cases (fun e => !o.compare e.key key) chain
  · refine .inl ⟨by rw [hspan], hnone ?_⟩
    rw [← hr, List.find?_eq_none]
    intro e hmem
    simpa using hall e hmem
  · refine .inr ⟨{ t with entries := t.entries.set (t.index o key) (before ++ behind)
                          used := u32 (t.used + (2 ^ 32 - 1)) },
      e, behind.head?.map (·.addr), by rw [hspan], ?_, rfl, by simpa using he, ?_, ?_⟩
    · obtain ⟨rest, hp, _⟩ := flatten_set_perm hc
      have hlen := hp.length_eq
      have hused := h.used
      have hpred : u32 (t.used + (2 ^ 32 - 1)) = t.used - 1 := by
        simp only [List.length_append, List.length_cons] at hlen
        rw [DictTable.chained] at hu hused
        exact u32_pred (by omega) (by omega)
      refine h.set hc (fun e' he' => h.placed hc e' ?_) ?_
      · rw [List.mem_append, List.mem_cons]
        exact (List.mem_append.mp he').imp id .inr
      · rw [DictTable.chained] at hused
        rw [hpred]
        simp only [List.length_append, List.length_cons] at hlen ⊢
        omega
    · obtain ⟨rest, hp, hp'⟩ := flatten_set_perm hc
      refine hp.trans ?_
      rw [List.append_assoc, List.cons_append]
      refine List.perm_middle.trans (List.Perm.cons e ?_)
      rw [← List.append_assoc]
      exact (hp' (before ++ behind)).symm
    · intro r hempty i hi c hic
      simp only [List.getElem?_set] at hic
      split_ifs at hic with hidx
      · have := hempty i hi _ (hidx ▸ hc)
        simp at this
      · exact hempty i hi c hic

end

structure DictInv (o : DictOpts K V) (d : Dict K V) : Prop where
  dt0 : TableInv o d.dt0
  dt1 : TableInv o d.dt1
  idle : d.rehashidx = none → d.dt1 = {}
  busy : ∀ {r}, d.rehashidx = some r →
    d.dt0.size ≠ 0 ∧ d.dt1.size ≠ 0 ∧ EmptyBelow d.dt0.entries r
  addrs : (d.all.map (·.addr)).Nodup
  fresh : ∀ e ∈ d.all, e.addr < d.nextAddr

structure Rearranged (d d' : Dict K V) : Prop where
  perm : d'.all.Perm d.all
  iterators : d'.iterators = d.iterators
  detached : d'.detached = d.detached
  nextAddr : d'.nextAddr = d.nextAddr
  size : d.dt0.size ≠ 0 → d'.dt0.size ≠ 0

theorem Rearranged.refl (d : Dict K V) : Rearranged d d := ⟨.refl _, rfl, rfl, rfl, id⟩

theorem Rearranged.trans {d d' d'' : Dict K V} (h : Rearranged d d') (h' : Rearranged d' d'') :
    Rearranged d d'' where
  perm := h'.perm.trans h.perm
  iterators := h'.iterators.trans h.iterators
  detached := h'.detached.trans h.detached
  nextAddr := h'.nextAddr.trans h.nextAddr
  size := h'.size ∘ h.size

theorem Rearranged.addrs {d d' : Dict K V} (h : Rearranged d d')
    (hd : (d.all.map (·.addr)).Nodup) : (d'.all.map (·.addr)).Nodup :=
  (h.perm.map _).nodup_iff.mpr hd

theorem Rearranged.fresh {d d' : Dict K V} (h : Rearranged d d')
    (hd : ∀ e ∈ d.all, e.addr < d.nextAddr) : ∀ e ∈ d'.all, e.addr < d'.nextAddr :=
  fun e he => h.nextAddr ▸ hd e (h.perm.mem_iff.mp he)

section

variable {o : DictOpts K V} {d : Dict K V}

theorem dictInv_create (o : DictOpts K V) : DictInv o (dictCreate : Dict K V) where
  dt0 := tableInv_reset o
  dt1 := tableInv_reset o
  idle := fun _ => rfl
  busy := fun h => by cases h
  addrs := List.nodup_nil
  fresh := fun e he => by cases he

theorem DictInv.all_of_idle (h : DictInv o d) (hr : d.rehashidx = none) :
    d.all = d.dt0.chained := by
  rw [Dict.all, h.idle hr]
  exact List.append_nil _

theorem DictInv.all_of_empty (h : DictInv o d) (hs : d.dt0.size = 0) : d.all = [] := by
  have hidle : d.rehashidx = none := by
    cases hr : d.rehashidx with
    | none => rfl
    | some r => exact absurd hs (h.busy hr).1
  rw [h.all_of_idle hidle, DictTable.chained, List.length_eq_zero_iff.mp (h.dt0.length.trans hs)]
  rfl

theorem Dict.length_all (d : Dict K V) :
    d.all.length = d.dt0.chained.length + d.dt1.chained.length := List.length_append

theorem dictClear_spec (o : DictOpts K V) (d : Dict K V) : DictInv o (dictClear d) where
  dt0 := tableInv_reset o
  dt1 := tableInv_reset o
  idle := fun _ => rfl
  busy := fun hb => by cases hb
  addrs := List.nodup_nil
  fresh := fun e he => by cases he

/-- An entry at the next address keeps the addresses apart. -/
theorem DictInv.cons (h : DictInv o d) (d' : Dict K V) {e : DictEntry K V}
    (hperm : d'.all.Perm (e :: d.all)) (he : e.addr = d.nextAddr)
    (hnext : d'.nextAddr = d.nextAddr + 1) :
    (d'.all.map (·.addr)).Nodup ∧ ∀ e' ∈ d'.all, e'.addr < d'.nextAddr := by
  constructor
  · rw [(hperm.map _).nodup_iff, List.map_cons, List.nodup_cons, he]
    refine ⟨?_, h.addrs⟩
    intro hmem
    obtain ⟨e', he', heq⟩ := List.mem_map.mp hmem
    exact absurd (h.fresh e' he') (by omega)
  · intro e' he'
    rw [hnext]
    rcases List.mem_cons.mp (hperm.mem_iff.mp he') with rfl | hmem
    · omega
    · exact Nat.lt_succ_of_lt (h.fresh e' hmem)

/-- The invariant of a dict with an entry less. -/
theorem DictInv.of_cons (h : DictInv o d) (d' : Dict K V) {e : DictEntry K V}
    (hperm : d.all.Perm (e :: d'.all)) (hnext : d'.nextAddr = d.nextAddr) :
    (d'.all.map (·.addr)).Nodup ∧ ∀ e' ∈ d'.all, e'.addr < d'.nextAddr := by
  constructor
  · have := (hperm.map (·.addr)).nodup_iff.mp h.addrs
    exact (List.nodup_cons.mp this).2
  · intro e' he'
    rw [hnext]
    exact h.fresh e' (hperm.mem_iff.mpr (List.mem_cons_of_mem _ he'))

section

variable {a : Nat} {f : DictEntry K V → DictEntry K V}

def storeAt (a : Nat) (f : DictEntry K V → DictEntry K V) (e : DictEntry K V) : DictEntry K V :=
  if e.addr = a then f e else e

theorem storeAt_key (hk : ∀ e, (f e).key = e.key) (e : DictEntry K V) :
    (storeAt a f e).key = e.key := by
  rw [storeAt]
  split_ifs
  · exact hk e
  · rfl

theorem storeAt_addr (ha : ∀ e, (f e).addr = e.addr) (e : DictEntry K V) :
    (storeAt a f e).addr = e.addr := by
  rw [storeAt]
  split_ifs
  · exact ha e
  · rfl

theorem DictTable.chained_modify (t : DictTable K V) :
    (t.modify a f).chained = t.chained.map (storeAt a f) := List.map_flatten.symm

theorem Dict.all_modify (d : Dict K V) : (d.modify a f).all = d.all.map (storeAt a f) := by
  rw [Dict.all, Dict.all, List.map_append, ← DictTable.chained_modify, ← DictTable.chained_modify]
  rfl

theorem TableInv.modify {t : DictTable K V} (h : TableInv o t) (hk : ∀ e, (f e).key = e.key) :
    TableInv o (t.modify a f) where
  length := (List.length_map _).trans h.length
  size := h.size
  mask := h.mask
  used := by
    rw [DictTable.chained_modify, List.length_map]
    exact h.used
  placed := by
    intro i chain hi e he
    simp only [DictTable.modify, List.getElem?_map, Option.map_eq_some_iff] at hi
    obtain ⟨chain₀, hi, rfl⟩ := hi
    obtain ⟨e₀, he₀, rfl⟩ := List.mem_map.mp he
    change t.index o (storeAt a f e₀).key = i
    rw [storeAt_key hk]
    exact h.placed hi e₀ he₀

theorem DictInv.modify (h : DictInv o d) (hk : ∀ e, (f e).key = e.key)
    (ha : ∀ e, (f e).addr = e.addr) : DictInv o (d.modify a f) where
  dt0 := h.dt0.modify hk
  dt1 := h.dt1.modify hk
  idle := by
    intro hr
    simp only [Dict.modify, h.idle hr]
    rfl
  busy := by
    intro r hr
    obtain ⟨hs0, hs1, hempty⟩ := h.busy hr
    refine ⟨hs0, hs1, fun i hi chain hc => ?_⟩
    simp only [Dict.modify, DictTable.modify, List.getElem?_map, Option.map_eq_some_iff] at hc
    obtain ⟨chain₀, hc, rfl⟩ := hc
    rw [hempty i hi chain₀ hc]
    rfl
  addrs := by
    rw [Dict.all_modify, List.map_map]
    have heq : (fun e : DictEntry K V => e.addr) ∘ storeAt a f = fun e => e.addr :=
      funext (storeAt_addr ha)
    rw [heq]
    exact h.addrs
  fresh := by
    intro e he
    rw [Dict.all_modify] at he
    obtain ⟨e₀, he₀, rfl⟩ := List.mem_map.mp he
    rw [storeAt_addr ha]
    exact h.fresh e₀ he₀

/-- A store changes one entry. -/
theorem DictInv.modify_perm (h : DictInv o d) {e : DictEntry K V} (he : e ∈ d.all) :
    ∃ rest, d.all.Perm (e :: rest) ∧ (d.modify e.addr f).all.Perm (f e :: rest) := by
  obtain ⟨l₁, l₂, hl⟩ := List.append_of_mem he
  have hperm : d.all.Perm (e :: (l₁ ++ l₂)) := hl ▸ List.perm_middle
  refine ⟨l₁ ++ l₂, hperm, ?_⟩
  have hnd := (hperm.map (·.addr)).nodup_iff.mp h.addrs
  have hother : (l₁ ++ l₂).map (storeAt e.addr f) = l₁ ++ l₂ := by
    refine (List.map_congr_left fun e' he' => ?_).trans (List.map_id _)
    have hne : e'.addr ≠ e.addr :=
      fun heq => (List.nodup_cons.mp hnd).1 (List.mem_map.mpr ⟨e', he', heq⟩)
    exact if_neg hne
  have hmap := hperm.map (storeAt e.addr f)
  rw [List.map_cons, hother, ← Dict.all_modify] at hmap
  have hself : storeAt e.addr f e = f e := if_pos rfl
  rwa [hself] at hmap

end

theorem rehashChain_spec (chain : List (DictEntry K V)) (dt0 : DictTable K V) {dt1 : DictTable K V}
    (h1 : TableInv o dt1) (hs : dt1.size ≠ 0) (hle : chain.length ≤ dt0.used)
    (h0 : dt0.used < 2 ^ 32) (hb : dt1.chained.length + chain.length < 2 ^ 32) :
    ∃ dt1', rehashChain o chain dt0 dt1 =
        some ({ dt0 with used := dt0.used - chain.length }, dt1') ∧
      TableInv o dt1' ∧ dt1'.size = dt1.size ∧ dt1'.chained.Perm (chain ++ dt1.chained) := by
  induction chain generalizing dt0 dt1 with
  | nil => exact ⟨dt1, rfl, h1, rfl, .refl _⟩
  | cons e chain ih =>
      simp only [List.length_cons] at hle hb
      obtain ⟨dt1₁, hpush, hinv₁, hsize₁, hperm₁⟩ := h1.push hs e (by omega)
      have hused : u32 (dt0.used + (2 ^ 32 - 1)) = dt0.used - 1 := u32_pred h0 (by omega)
      have hlen₁ := hperm₁.length_eq
      simp only [List.length_cons] at hlen₁
      obtain ⟨dt1₂, hrest, hinv₂, hsize₂, hperm₂⟩ :=
        ih { dt0 with used := dt0.used - 1 } hinv₁ (hsize₁ ▸ hs)
          (by simp only; omega) (by simp only; omega) (by omega)
      refine ⟨dt1₂, ?_, hinv₂, hsize₂.trans hsize₁, ?_⟩
      · simp only [rehashChain, hpush, hused, Option.bind_eq_bind, Option.bind_some, hrest,
          List.length_cons, Nat.sub_sub, Nat.add_comm 1]
      · exact (hperm₂.trans (hperm₁.append_left chain)).trans List.perm_middle

/-- The buckets that the scan passes are empty. -/
theorem scanBucket_before {entries : List (List (DictEntry K V))} {r i : Nat}
    (h : scanBucket entries r = some i) (hempty : EmptyBelow entries r) :
    r ≤ i ∧ i < entries.length ∧ EmptyBelow entries i := by
  obtain ⟨k, hfind, rfl⟩ := Option.map_eq_some_iff.mp h
  obtain ⟨hlt, _, hbefore⟩ := List.findIdx?_eq_some_iff_getElem.mp hfind
  rw [List.length_drop] at hlt
  refine ⟨Nat.le_add_right r k, by omega, fun j hj c hc => ?_⟩
  by_cases hjr : j < r
  · exact hempty j hjr c hc
  · have hb := hbefore (j - r) (by omega)
    obtain ⟨hjl, rfl⟩ := List.getElem?_eq_some_iff.mp hc
    simp only [List.getElem_drop, Nat.add_sub_cancel' (Nat.not_lt.mp hjr)] at hb
    simpa using hb

/-- The scan stops at a bucket that holds an entry, in the array. -/
theorem scanBucket_spec {entries : List (List (DictEntry K V))} {r : Nat}
    (hempty : EmptyBelow entries r) (hne : entries.flatten ≠ []) :
    ∃ i chain, scanBucket entries r = some i ∧ entries[i]? = some chain ∧
      EmptyBelow entries i := by
  obtain ⟨chain₀, hmem, hchain₀⟩ : ∃ c ∈ entries, c ≠ [] := by
    by_contra hall
    exact hne (List.flatten_eq_nil_iff.mpr fun c hc => by_contra fun hcn => hall ⟨c, hc, hcn⟩)
  obtain ⟨i₀, hi₀⟩ := List.mem_iff_getElem?.mp hmem
  cases hscan : scanBucket entries r with
  | none =>
      have hfind := List.findIdx?_eq_none_iff.mp (Option.map_eq_none_iff.mp hscan)
      have hr : r ≤ i₀ := by
        by_contra hlt
        exact hchain₀ (hempty i₀ (by omega) chain₀ hi₀)
      have hdrop : chain₀ ∈ entries.drop r := by
        refine List.mem_iff_getElem?.mpr ⟨i₀ - r, ?_⟩
        rw [List.getElem?_drop, Nat.add_sub_cancel' hr, hi₀]
      have := hfind chain₀ hdrop
      simp [hchain₀] at this
  | some i =>
      obtain ⟨-, hin, hbefore⟩ := scanBucket_before hscan hempty
      exact ⟨i, _, rfl, List.getElem?_eq_getElem hin, hbefore⟩

/-- The new table replaces the old one, which is empty. -/
theorem DictInv.swap (h : DictInv o d) {r : Nat} (hr : d.rehashidx = some r)
    (hused : d.dt0.used = 0) :
    DictInv o { d with dt0 := d.dt1, dt1 := {}, rehashidx := none } ∧
      Rearranged d { d with dt0 := d.dt1, dt1 := {}, rehashidx := none } := by
  have hnil : d.dt0.chained = [] := List.length_eq_zero_iff.mp (h.dt0.used ▸ hused)
  have hperm : (d.dt1.chained ++ []).Perm d.all := by
    rw [Dict.all, hnil, List.append_nil, List.nil_append]
  have hre : Rearranged d { d with dt0 := d.dt1, dt1 := {}, rehashidx := none } :=
    ⟨hperm, rfl, rfl, rfl, fun _ => (h.busy hr).2.1⟩
  exact ⟨⟨h.dt1, tableInv_reset o, fun _ => rfl, (fun hb => by cases hb), hre.addrs h.addrs,
    hre.fresh h.fresh⟩, hre⟩

/-- The entries of one chain go to the new table. -/
theorem DictInv.moveChain (h : DictInv o d) {r i : Nat} (hr : d.rehashidx = some r)
    {chain : List (DictEntry K V)} (hchain : d.dt0.entries[i]? = some chain)
    (hbefore : EmptyBelow d.dt0.entries i) {dt1' : DictTable K V} (hinv1 : TableInv o dt1')
    (hsize1 : dt1'.size = d.dt1.size) (hperm1 : dt1'.chained.Perm (chain ++ d.dt1.chained)) :
    let d' : Dict K V :=
      { d with
        dt0 := { d.dt0 with entries := d.dt0.entries.set i []
                            used := d.dt0.used - chain.length }
        dt1 := dt1'
        rehashidx := some (i + 1) }
    DictInv o d' ∧ Rearranged d d' := by
  obtain ⟨hs0, hs1, _⟩ := h.busy hr
  obtain ⟨rest, hp, hp'⟩ := flatten_set_perm hchain
  have hle : chain.length ≤ d.dt0.used := by
    have hlen : d.dt0.chained.length = chain.length + rest.length :=
      hp.length_eq.trans List.length_append
    have hu0 := h.dt0.used
    omega
  have hinv0 := h.dt0.set (n := d.dt0.used - chain.length) hchain
    (fun e (he : e ∈ []) => by cases he) (by simp only [List.length_nil]; omega)
  have hre : Rearranged d
      { d with
        dt0 := { d.dt0 with entries := d.dt0.entries.set i []
                            used := d.dt0.used - chain.length }
        dt1 := dt1'
        rehashidx := some (i + 1) } := by
    refine ⟨?_, rfl, rfl, rfl, fun _ => hs0⟩
    have h0 : (d.dt0.entries.set i []).flatten.Perm rest := hp' []
    refine (h0.append hperm1).trans ?_
    refine (List.perm_append_comm_assoc _ _ _).trans ?_
    rw [← List.append_assoc]
    exact (hp.symm).append_right _
  refine ⟨⟨hinv0, hinv1, (fun hb => by cases hb), ?_, hre.addrs h.addrs, hre.fresh h.fresh⟩, hre⟩
  intro r' hr'
  cases hr'
  refine ⟨hs0, hsize1 ▸ hs1, ?_⟩
  intro j hj c hc
  simp only [List.getElem?_set] at hc
  split_ifs at hc with hij
  · cases hc
    rfl
  · exact hbefore j (by omega) c hc

/-- `dict_rehash` moves entries from chain to chain and does nothing else. -/
theorem dictRehash_spec (n : Nat) (h : DictInv o d) (hb : d.all.length < 2 ^ 32) :
    ∃ d' rs, dictRehash o n d = some (d', rs) ∧ DictInv o d' ∧ Rearranged d d' := by
  induction n generalizing d with
  | zero =>
      refine ⟨d, ?_⟩
      cases hr : d.rehashidx with
      | none => exact ⟨0, by rw [dictRehash, hr], h, .refl d⟩
      | some r => exact ⟨1, by rw [dictRehash, hr], h, .refl d⟩
  | succ n ih =>
      cases hr : d.rehashidx with
      | none => exact ⟨d, 0, by rw [dictRehash, hr], h, .refl d⟩
      | some r =>
          by_cases hused : d.dt0.used = 0
          · obtain ⟨hinv, hre⟩ := h.swap hr hused
            exact ⟨_, 0, by rw [dictRehash, hr]; exact if_pos hused, hinv, hre⟩
          · have hu0 := h.dt0.used
            have hlen := d.length_all
            obtain ⟨_, hs1, hempty⟩ := h.busy hr
            have hne : d.dt0.entries.flatten ≠ [] := by
              intro hnil
              rw [DictTable.chained] at hu0
              exact hused (hu0.trans (List.length_eq_zero_iff.mpr hnil))
            obtain ⟨i, chain, hscan, hchain, hbefore⟩ := scanBucket_spec hempty hne
            obtain ⟨rest, hp, _⟩ := flatten_set_perm hchain
            have hlen0 : d.dt0.chained.length = chain.length + rest.length :=
              hp.length_eq.trans List.length_append
            obtain ⟨dt1', hmove, hinv1, hsize1, hperm1⟩ :=
              rehashChain_spec chain d.dt0 h.dt1 hs1 (by omega) (by omega) (by omega)
            obtain ⟨hinv, hre⟩ := h.moveChain hr hchain hbefore hinv1 hsize1 hperm1
            obtain ⟨d', rs, hrest, hinv', hre'⟩ := ih hinv (hre.perm.length_eq ▸ hb)
            refine ⟨d', rs, ?_, hinv', hre.trans hre'⟩
            rw [dictRehash, hr]
            simp only [if_neg hused, hscan, hchain, hmove, Option.bind_eq_bind, Option.bind_some,
              hrest]

theorem dictTryRehash_spec (h : DictInv o d) (hb : d.all.length < 2 ^ 32) :
    ∃ d', dictTryRehash o d = some d' ∧ DictInv o d' ∧ Rearranged d d' := by
  rw [dictTryRehash]
  split_ifs
  · obtain ⟨d', rs, hre, hinv, hperm⟩ := dictRehash_spec 1 h hb
    exact ⟨d', by rw [hre]; rfl, hinv, hperm⟩
  · exact ⟨d, rfl, h, .refl d⟩

theorem powSizeLoop_spec {size : Nat} (hsize : size ≤ 2 ^ 30) (fuel j : Nat) (h3 : 3 ≤ j)
    (hj : j ≤ 30) (hfuel : 30 < fuel + j) :
    ∃ j', 3 ≤ j' ∧ j' ≤ 30 ∧ powSizeLoop size fuel (2 ^ j) = some (2 ^ j') ∧ size ≤ 2 ^ j' := by
  induction fuel generalizing j with
  | zero => omega
  | succ fuel ih =>
      rw [powSizeLoop]
      split_ifs with hlt
      · have hj' : j < 30 := by
          by_contra hge
          have : j = 30 := by omega
          subst this
          omega
        have hs : u32 (2 ^ j * 2) = 2 ^ (j + 1) := by
          rw [← Nat.pow_succ]
          exact u32_of_lt (Nat.pow_lt_pow_right (by decide) (by omega))
        rw [hs]
        exact ih (j + 1) (by omega) (by omega) (by omega)
      · exact ⟨j, h3, hj, rfl, Nat.not_lt.mp hlt⟩

theorem powSize_spec {size : Nat} (hsize : size ≤ 2 ^ 30) :
    ∃ j, 3 ≤ j ∧ j ≤ 30 ∧ powSize size = some (2 ^ j) ∧ size ≤ 2 ^ j := by
  obtain ⟨j, h3, hj, hloop, hle⟩ :=
    powSizeLoop_spec hsize 33 3 (Nat.le_refl 3) (by decide) (by decide)
  exact ⟨j, h3, hj, hloop, hle⟩

theorem tableInv_fresh (o : DictOpts K V) {j : Nat} (h3 : 3 ≤ j) (hj : j ≤ 30) :
    TableInv o ({ entries := List.replicate (2 ^ j) [], size := 2 ^ j
                  mask := u32 (2 ^ j + (2 ^ 32 - 1)), used := 0 } : DictTable K V) where
  length := List.length_replicate
  size := .inr ⟨j, h3, hj, rfl⟩
  mask := u32_pred (Nat.pow_lt_pow_right (by decide) (by omega)) (Nat.two_pow_pos j).ne'
  used := by simp [DictTable.chained]
  placed := by
    intro i chain hi e he
    rw [List.getElem?_replicate] at hi
    split_ifs at hi
    cases hi
    cases he

/-- A first table where there was none. -/
theorem DictInv.firstTable (h : DictInv o d) (hr : d.rehashidx = none)
    (hempty : d.dt0.chained = []) {t : DictTable K V} (ht : TableInv o t) (hnone : t.chained = [])
    (hs : t.size ≠ 0) :
    DictInv o { d with dt0 := t } ∧ Rearranged d { d with dt0 := t } := by
  have hre : Rearranged d { d with dt0 := t } := by
    refine ⟨?_, rfl, rfl, rfl, fun _ => hs⟩
    change (t.chained ++ d.dt1.chained).Perm (d.dt0.chained ++ d.dt1.chained)
    rw [hnone, hempty]
  exact ⟨⟨ht, h.dt1, h.idle, (fun hb => by rw [hr] at hb; cases hb), hre.addrs h.addrs,
    hre.fresh h.fresh⟩, hre⟩

/-- A second table, into which the first is to be moved. -/
theorem DictInv.secondTable (h : DictInv o d) (hr : d.rehashidx = none) (hs0 : d.dt0.size ≠ 0)
    {t : DictTable K V} (ht : TableInv o t) (hnone : t.chained = []) (hs : t.size ≠ 0) :
    DictInv o { d with dt1 := t, rehashidx := some 0 } ∧
      Rearranged d { d with dt1 := t, rehashidx := some 0 } := by
  have hre : Rearranged d { d with dt1 := t, rehashidx := some 0 } := by
    refine ⟨?_, rfl, rfl, rfl, id⟩
    rw [h.all_of_idle hr, Dict.all, hnone, List.append_nil]
  refine ⟨⟨h.dt0, ht, (fun hb => by cases hb), ?_, hre.addrs h.addrs, hre.fresh h.fresh⟩, hre⟩
  intro r hr'
  cases hr'
  exact ⟨hs0, hs, fun i hi => absurd hi (Nat.not_lt_zero i)⟩

/-- `dict_expand` adds a table or replaces the one that is not there. -/
theorem dictExpand_spec (h : DictInv o d) (size : Nat) (hsize : size ≤ 2 ^ 30) :
    ∃ d' rs, dictExpand d size = some (d', rs) ∧ DictInv o d' ∧ Rearranged d d' ∧
      (d.rehashidx = none → d.dt0.size ≤ size → rs = 0 ∧ d'.dt0.size ≠ 0) := by
  rw [dictExpand]
  by_cases hno : d.rehashing || d.dt0.size > size
  · rw [if_pos hno]
    refine ⟨d, -1, rfl, h, .refl d, fun hr hle => ?_⟩
    rw [Dict.rehashing, hr] at hno
    simp only [Option.isSome_none, Bool.false_or, decide_eq_true_eq] at hno
    omega
  · rw [if_neg hno]
    have hidle : d.rehashidx = none := by
      rw [Dict.rehashing] at hno
      cases hr : d.rehashidx with
      | none => rfl
      | some r => simp [hr] at hno
    obtain ⟨j, h3, hj, hpow, _⟩ := powSize_spec hsize
    have hfresh := tableInv_fresh o h3 hj
    have hpos : 2 ^ j ≠ 0 := (Nat.two_pow_pos j).ne'
    have hnone : (List.replicate (2 ^ j) ([] : List (DictEntry K V))).flatten = [] :=
      List.flatten_replicate_nil
    simp only [hpow, Option.bind_eq_bind, Option.bind_some]
    by_cases hempty : d.dt0.entries.isEmpty
    · rw [if_pos hempty]
      have h0 : d.dt0.chained = [] := by
        rw [DictTable.chained, List.isEmpty_iff.mp hempty]
        rfl
      obtain ⟨hinv, hre⟩ := h.firstTable hidle h0 hfresh hnone hpos
      exact ⟨_, 0, rfl, hinv, hre, fun _ _ => ⟨rfl, hpos⟩⟩
    · rw [if_neg hempty]
      have hs0 : d.dt0.size ≠ 0 := by
        intro h0
        exact hempty (List.isEmpty_iff.mpr (List.length_eq_zero_iff.mp (h.dt0.length.trans h0)))
      obtain ⟨hinv, hre⟩ := h.secondTable hidle hs0 hfresh hnone hpos
      exact ⟨_, 0, rfl, hinv, hre, fun _ _ => ⟨rfl, hs0⟩⟩

/-- After `dict_try_expand` there is a table, and a full one is being replaced. -/
theorem dictTryExpand_spec (h : DictInv o d) (hb : d.all.length ≤ 2 ^ 29) :
    ∃ d', dictTryExpand d = some (d', 0) ∧ DictInv o d' ∧ Rearranged d d' ∧ d'.dt0.size ≠ 0 := by
  have hlen := d.length_all
  have hu0 := h.dt0.used
  rw [dictTryExpand]
  cases hr : d.rehashidx with
  | some r =>
      refine ⟨d, ?_, h, .refl d, (h.busy hr).1⟩
      rw [if_pos (by rw [Dict.rehashing, hr]; rfl)]
  | none =>
      have hidle : ¬ d.rehashing = true := by
        rw [Dict.rehashing, hr]
        decide
      rw [if_neg hidle]
      split_ifs with h0 hfull
      · obtain ⟨d', rs, hexp, hinv, hre, hok⟩ := dictExpand_spec h dictInitSize (by decide)
        obtain ⟨rfl, hs⟩ := hok hr (by rw [h0]; exact Nat.zero_le _)
        exact ⟨d', hexp, hinv, hre, hs⟩
      · have husize : u32 (d.dt0.used * 2) = d.dt0.used * 2 := u32_of_lt (by omega)
        obtain ⟨d', rs, hexp, hinv, hre, hok⟩ :=
          dictExpand_spec h (d.dt0.used * 2) (by omega)
        obtain ⟨rfl, hs⟩ := hok hr (by omega)
        exact ⟨d', by rw [husize, hexp], hinv, hre, hs⟩
      · exact ⟨d, rfl, h, .refl d, h0⟩

end

end ThrSocket
