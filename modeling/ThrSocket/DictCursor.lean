import ThrSocket.DictRefs

/-!
Where an iterator stands and what is ahead of it: the rest of the chain it stands
in, the buckets behind it and, from the first table, the whole second table.
-/

namespace ThrSocket

variable {K V : Type}

def DictEntry.core (e : DictEntry K V) : Nat × K × V := (e.addr, e.key, e.value)

def DictTable.cores (t : DictTable K V) : List (List (Nat × K × V)) :=
  t.entries.map fun chain => chain.map (·.core)

structure SameCores (d d' : Dict K V) : Prop where
  cores0 : d'.dt0.cores = d.dt0.cores
  cores1 : d'.dt1.cores = d.dt1.cores
  size0 : d'.dt0.size = d.dt0.size
  size1 : d'.dt1.size = d.dt1.size
  rehashidx : d'.rehashidx = d.rehashidx

theorem SameCores.refl (d : Dict K V) : SameCores d d := ⟨rfl, rfl, rfl, rfl, rfl⟩

theorem SameCores.trans {d d' d'' : Dict K V} (h : SameCores d d') (h' : SameCores d' d'') :
    SameCores d d'' where
  cores0 := h'.cores0.trans h.cores0
  cores1 := h'.cores1.trans h.cores1
  size0 := h'.size0.trans h.size0
  size1 := h'.size1.trans h.size1
  rehashidx := h'.rehashidx.trans h.rehashidx

theorem DictTable.flatten_cores (t : DictTable K V) : t.cores.flatten = t.chained.map (·.core) :=
  List.map_flatten.symm

theorem SameCores.map_core {d d' : Dict K V} (h : SameCores d d') :
    d'.all.map (·.core) = d.all.map (·.core) := by
  rw [Dict.all, Dict.all, List.map_append, List.map_append, ← DictTable.flatten_cores,
    ← DictTable.flatten_cores, ← DictTable.flatten_cores, ← DictTable.flatten_cores, h.cores0,
    h.cores1]

/-- A store shows nothing of what it leaves as it is. -/
theorem DictTable.map_modify {β : Type} (t : DictTable K V) {a : Nat}
    {f : DictEntry K V → DictEntry K V} {g : DictEntry K V → β} (hf : ∀ e, g (f e) = g e) :
    ((t.modify a f).entries.map fun chain => chain.map g) =
      t.entries.map fun chain => chain.map g := by
  simp only [DictTable.modify, List.map_map]
  refine List.map_congr_left fun chain _ => ?_
  simp only [Function.comp_apply, List.map_map]
  refine List.map_congr_left fun e _ => ?_
  simp only [Function.comp_apply]
  split_ifs
  · exact hf e
  · rfl

theorem sameCores_modify (d : Dict K V) {a : Nat} {f : DictEntry K V → DictEntry K V}
    (hf : ∀ e, (f e).core = e.core) : SameCores d (d.modify a f) :=
  ⟨d.dt0.map_modify hf, d.dt1.map_modify hf, rfl, rfl, rfl⟩

section

variable {a : Nat} {f : DictEntry K V → DictEntry K V}

theorem cellIn_modify (hf : ∀ e, (f e).addr = e.addr) (b : Nat) (chain : List (DictEntry K V)) :
    cellIn b (chain.map (storeAt a f)) = (cellIn b chain).map fun c => (storeAt a f c.1, c.2) := by
  induction chain with
  | nil => rfl
  | cons e chain ih =>
      rw [List.map_cons, cellIn, cellIn, storeAt_addr hf, ih]
      split_ifs
      · have hhead : (chain.map (storeAt a f)).head?.map (·.addr) = chain.head?.map (·.addr) := by
          rw [List.head?_map, Option.map_map]
          exact congrArg (Option.map · chain.head?) (funext (storeAt_addr hf))
        rw [hhead]
        rfl
      · rfl

/-- A store is seen through the address and leaves the links alone. -/
theorem Dict.cell_modify (d : Dict K V) (a b : Nat) (f : DictEntry K V → DictEntry K V)
    (hf : ∀ e, (f e).addr = e.addr) :
    (d.modify a f).cell b = (d.cell b).map fun c => (storeAt a f c.1, c.2) := by
  have hchains : ((d.modify a f).dt0.entries ++ (d.modify a f).dt1.entries).findSome? (cellIn b) =
      ((d.dt0.entries ++ d.dt1.entries).findSome? (cellIn b)).map
        fun c => (storeAt a f c.1, c.2) := by
    have hmap : (d.modify a f).dt0.entries ++ (d.modify a f).dt1.entries =
        (d.dt0.entries ++ d.dt1.entries).map fun chain => chain.map (storeAt a f) :=
      List.map_append.symm
    rw [hmap, List.findSome?_map, List.map_findSome?]
    exact congrArg (List.findSome? · _) (funext fun chain => cellIn_modify hf b chain)
  have hfind : (d.modify a f).detached.find? (·.entry.addr = b) =
      (d.detached.find? (·.entry.addr = b)).map fun x =>
        if x.entry.addr = a then { x with entry := f x.entry } else x := by
    simp only [Dict.modify, List.find?_map]
    congr 2
    funext x
    simp only [Function.comp_apply]
    split_ifs
    · rw [hf]
    · rfl
  rw [Dict.cell, Dict.cell, hchains, hfind]
  cases (d.dt0.entries ++ d.dt1.entries).findSome? (cellIn b) with
  | some c => rfl
  | none =>
      simp only [Option.map_none, Option.map_map]
      congr 1
      funext x
      simp only [Function.comp_apply, storeAt]
      split_ifs
      · rfl
      · rfl

end

namespace Counted

variable {d d' : Dict K V} {p : Nat → Nat} {a b : Nat}

theorem cell_detached (h : Counted d p) {x : Detached K V} (hx : x ∈ d.detached) :
    d.cell x.entry.addr = some (x.entry, x.next) := by
  have hchains : (d.dt0.entries ++ d.dt1.entries).findSome? (cellIn x.entry.addr) = none := by
    refine List.findSome?_eq_none_iff.mpr fun c hc => cellIn_eq_none fun e he => ?_
    exact h.not_chained hx (d.all_eq_flatten ▸ List.mem_flatten.mpr ⟨c, hc, he⟩)
  rw [Dict.cell, hchains]
  cases hfind : d.detached.find? (·.entry.addr = x.entry.addr) with
  | none =>
      have := List.find?_eq_none.mp hfind x hx
      simp at this
  | some y =>
      have haddr := List.find?_some hfind
      rw [h.detached_inj (List.mem_of_find?_eq_some hfind) hx (by simpa using haddr)]
      rfl

theorem cell_eq_none (hb : b ∉ d.addrs) : d.cell b = none := by
  rw [mem_addrs, not_or] at hb
  have hchains : (d.dt0.entries ++ d.dt1.entries).findSome? (cellIn b) = none := by
    refine List.findSome?_eq_none_iff.mpr fun c hc => cellIn_eq_none fun e he ha => ?_
    exact hb.1 ⟨e, d.all_eq_flatten ▸ List.mem_flatten.mpr ⟨c, hc, he⟩, ha⟩
  have hfind : d.detached.find? (·.entry.addr = b) = none := by
    refine List.find?_eq_none.mpr fun x hx ha => ?_
    exact hb.2 ⟨x, hx, by simpa using ha⟩
  rw [Dict.cell, hchains, hfind]
  rfl

theorem cell_isSome (h : Counted d p) (hb : b ∈ d.addrs) :
    ∃ e next, d.cell b = some (e, next) ∧ e.addr = b := by
  rcases mem_addrs.mp hb with ⟨e, he, rfl⟩ | ⟨x, hx, rfl⟩
  · obtain ⟨next, hcell, -⟩ := Dict.cell_of_mem h.nodup_all he
    exact ⟨e, next, hcell, rfl⟩
  · exact ⟨x.entry, x.next, h.cell_detached hx, rfl⟩

/-- An iterator comes to stand on the entry at `b`. -/
theorem incr (h : Counted d p) (hb : b ∈ d.addrs) :
    ∃ d' e next, d.entryIncr b = some d' ∧ d'.cell b = some (e, next) ∧ e.addr = b ∧
      (e ∈ d'.all ↔ ∃ e ∈ d.all, e.addr = b) ∧ (∀ e₀ ∈ d.all, e₀.addr = b → e.core = e₀.core) ∧
      SameCores d d' ∧ d'.iterators = d.iterators ∧ Counted d' (standing p (some b)) := by
  obtain ⟨e, next, hcell, rfl⟩ := h.cell_isSome hb
  have hself : storeAt e.addr (fun e => { e with ref := e.ref + 1 }) e =
      { e with ref := e.ref + 1 } := if_pos rfl
  have hchained : ∀ e₀ ∈ d.all, e₀.addr = e.addr → e₀ = e := by
    intro e₀ he₀ heq
    obtain ⟨next₀, hcell₀, -⟩ := Dict.cell_of_mem h.nodup_all he₀
    rw [heq, hcell] at hcell₀
    cases hcell₀
    rfl
  refine ⟨d.modify e.addr fun e => { e with ref := e.ref + 1 }, { e with ref := e.ref + 1 }, next,
    by rw [Dict.entryIncr, hcell], ?_, rfl, ?_, fun e₀ he₀ heq => by rw [hchained e₀ he₀ heq]; rfl,
    sameCores_modify d fun _ => rfl, rfl, ?_⟩
  · rw [d.cell_modify e.addr e.addr (fun e => { e with ref := e.ref + 1 }) fun _ => rfl,
      hcell, Option.map_some, hself]
  · rw [Dict.all_modify, List.mem_map]
    constructor
    · rintro ⟨e₀, he₀, heq⟩
      refine ⟨e₀, he₀, ?_⟩
      rw [← storeAt_addr (a := e.addr) (f := fun e => { e with ref := e.ref + 1 }) (fun _ => rfl),
        heq]
    · rintro ⟨e₀, he₀, heq⟩
      exact ⟨e, hchained e₀ he₀ heq ▸ he₀, hself⟩
  · refine h.modify (fun _ => rfl) (fun b hne => standing_ne p hne) ?_ ?_ fun _ => hb
    · intro e₀ he₀ ha
      rw [standing_self, ← ha]
      simp only [h.chained e₀ he₀]
      omega
    · intro x hx ha
      rw [standing_self, ← ha]
      exact ⟨congrArg (· + 1) (h.detached x hx).1, Nat.succ_ne_zero _⟩

/-- An iterator leaves an entry to which there are other references. -/
theorem decr_shared (h : Counted d (standing p (some a)))
    (hs : (∃ e ∈ d.all, e.addr = a) ∨ p a ≠ 0) :
    ∃ d₁, d.entryDecr a = some d₁ ∧ SameCores d d₁ ∧ d₁.iterators = d.iterators ∧
      (∀ {e next}, d.cell a = some (e, next) → ∃ e₁, d₁.cell a = some (e₁, next)) ∧
      Counted d₁ p := by
  have ha : a ∈ d.addrs := h.parked a (by rw [standing_self]; omega)
  have href : ∃ e next, d.cell a = some (e, next) ∧ e.ref - 1 ≠ 0 := by
    rcases mem_addrs.mp ha with ⟨e, he, rfl⟩ | ⟨x, hx, rfl⟩
    · obtain ⟨next, hcell, -⟩ := Dict.cell_of_mem h.nodup_all he
      have := h.chained e he
      rw [standing_self] at this
      exact ⟨e, next, hcell, by omega⟩
    · have := (h.detached x hx).1
      rw [standing_self] at this
      have hp : p x.entry.addr ≠ 0 := by
        refine hs.resolve_left ?_
        rintro ⟨e, he, heq⟩
        exact h.not_chained hx he heq
      exact ⟨x.entry, x.next, h.cell_detached hx, by omega⟩
  obtain ⟨e, next, hcell, hne⟩ := href
  refine ⟨d.modify a fun e => { e with ref := e.ref - 1 },
    by rw [Dict.entryDecr, hcell]; exact if_pos hne, sameCores_modify d fun _ => rfl, rfl,
    fun hat => ?_, ?_⟩
  · rw [d.cell_modify a a (fun e => { e with ref := e.ref - 1 }) fun _ => rfl, hat]
    exact ⟨_, rfl⟩
  refine h.modify (fun _ => rfl) (fun b hb => (standing_ne p hb).symm) ?_ ?_ fun _ => ha
  · intro e₀ he₀ haddr
    have := h.chained e₀ he₀
    rw [haddr, standing_self] at this
    simp only [this]
    omega
  · intro x hx haddr
    have := (h.detached x hx).1
    rw [haddr, standing_self] at this
    have hp : p a ≠ 0 := by
      refine hs.resolve_left ?_
      rintro ⟨e, he, heq⟩
      exact h.not_chained hx he (heq.trans haddr.symm)
    simp only [this]
    omega

/-- The last reference to an entry that was deleted releases it. -/
theorem decr_last (h : Counted d (standing p (some a))) {x : Detached K V} (hx : x ∈ d.detached)
    (hxa : x.entry.addr = a) (hp : p a = 0) :
    ∃ d', d.entryDecr a = some d' ∧ d'.cell a = none ∧ SameCores d d' ∧
      d'.iterators = d.iterators ∧ Counted d' p := by
  subst hxa
  have href := (h.detached x hx).1
  rw [standing_self, hp] at href
  have hany : d.detached.any (·.entry.addr = x.entry.addr) = true :=
    List.any_eq_true.mpr ⟨x, hx, by simp⟩
  have hgone : x.entry.addr ∉ ({ d with
      detached := d.detached.filter (·.entry.addr ≠ x.entry.addr) } : Dict K V).addrs := by
    intro hmem
    rcases mem_addrs.mp hmem with ⟨e, he, heq⟩ | ⟨y, hy, heq⟩
    · exact h.not_chained hx he heq
    · have := (List.mem_filter.mp hy).2
      simp [heq] at this
  refine ⟨{ d with detached := d.detached.filter (·.entry.addr ≠ x.entry.addr) }, ?_,
    cell_eq_none hgone, ⟨rfl, rfl, rfl, rfl, rfl⟩, rfl, ?_⟩
  · rw [Dict.entryDecr, h.cell_detached hx]
    simp only [href, hany, if_true]
    rfl
  · have hsub : ({ d with detached := d.detached.filter (·.entry.addr ≠ x.entry.addr) } :
        Dict K V).addrs.Sublist d.addrs :=
      (List.Sublist.refl _).append (List.filter_sublist.map _)
    have hne : ∀ {b}, b ∈ ({ d with
        detached := d.detached.filter (·.entry.addr ≠ x.entry.addr) } : Dict K V).addrs →
        b ≠ x.entry.addr := fun hb heq => hgone (heq ▸ hb)
    refine ⟨⟨h.shape.dt0, h.shape.dt1, h.shape.idle, h.shape.busy⟩, h.addrs.sublist hsub,
      fun b hb => h.fresh b (hsub.subset hb), fun e he => ?_, fun y hy => ?_, fun b hb => ?_⟩
    · rw [← standing_ne p (hne (mem_addrs.mpr (.inl ⟨e, he, rfl⟩)))]
      exact h.chained e he
    · rw [← standing_ne p (hne (mem_addrs.mpr (.inr ⟨y, hy, rfl⟩)))]
      exact h.detached y (List.mem_filter.mp hy).1
    · have hb' : b ≠ x.entry.addr := fun heq => hb (heq ▸ hp)
      rcases mem_addrs.mp (h.parked b (standing_ne p hb' ▸ hb)) with hc | ⟨y, hy, rfl⟩
      · exact mem_addrs.mpr (.inl hc)
      · exact mem_addrs.mpr (.inr ⟨y, List.mem_filter.mpr ⟨hy, by simpa using hb'⟩, rfl⟩)

theorem withIterators (h : Counted d p) (n : Int) : Counted { d with iterators := n } p :=
  ⟨⟨h.shape.dt0, h.shape.dt1, h.shape.idle, h.shape.busy⟩, h.addrs, h.fresh, h.chained, h.detached,
    h.parked⟩

end Counted

def DictEntry.ident (e : DictEntry K V) : Nat × K := (e.addr, e.key)

theorem DictEntry.ident_eq {e e' : DictEntry K V} (h : e.core = e'.core) : e.ident = e'.ident :=
  congrArg (fun c : Nat × K × V => (c.1, c.2.1)) h

def DictTable.idents (t : DictTable K V) : List (List (Nat × K)) :=
  t.entries.map fun chain => chain.map (·.ident)

/-- What is behind the entry at `a` in its chain. -/
def behindAddr (a : Nat) (chain : List (Nat × K)) : List (Nat × K) :=
  (chain.dropWhile fun c => c.1 ≠ a).tail

theorem behindAddr_split (before behind : List (Nat × K)) (c : Nat × K)
    (h : ∀ c' ∈ before, c'.1 ≠ c.1) : behindAddr c.1 (before ++ c :: behind) = behind := by
  rw [behindAddr]
  rw [List.dropWhile_append_of_pos (by simpa using h), List.dropWhile_cons_of_neg (by simp)]
  rfl

theorem behindAddr_chain {before behind : List (DictEntry K V)} {e : DictEntry K V}
    (h : ((before ++ e :: behind).map (·.addr)).Nodup) :
    behindAddr e.addr ((before ++ e :: behind).map (·.ident)) = behind.map (·.ident) := by
  rw [List.map_append, List.map_cons] at h ⊢
  refine behindAddr_split _ _ e.ident fun c hc => ?_
  obtain ⟨e₀, he₀, rfl⟩ := List.mem_map.mp hc
  exact (List.nodup_append.mp h).2.2 _ (List.mem_map_of_mem he₀) _ List.mem_cons_self

namespace DictIterator

def bucket (d : Dict K V) (iter : DictIterator) : List (Nat × K) :=
  ((d.dt iter.dtIdx).idents[iter.idx.toNat]?).getD []

def later (d : Dict K V) (iter : DictIterator) : List (Nat × K) :=
  ((d.dt iter.dtIdx).idents.drop (iter.idx + 1).toNat).flatten ++
    if iter.dtIdx = 0 then d.dt1.idents.flatten else []

def ahead (d : Dict K V) (iter : DictIterator) : List (Nat × K) :=
  (match iter.entry with
    | none => []
    | some a => behindAddr a (iter.bucket d)) ++ iter.later d

def Stands (d : Dict K V) (iter : DictIterator) : Prop :=
  ∀ a, iter.entry = some a → a ∈ (iter.bucket d).map (·.1)

/-- An iterator that was never moved is no iterator under way. -/
def Started (iter : DictIterator) : Prop := ¬ (iter.idx = -1 ∧ iter.dtIdx = 0)

instance (iter : DictIterator) : Decidable iter.Started :=
  inferInstanceAs (Decidable (¬ _))

end DictIterator

section

variable {d d' : Dict K V} {iter iter' : DictIterator}

theorem DictTable.idents_eq (t : DictTable K V) :
    t.idents = t.cores.map fun chain => chain.map fun c => (c.1, c.2.1) := by
  rw [DictTable.idents, DictTable.cores, List.map_map]
  refine List.map_congr_left fun chain _ => ?_
  rw [Function.comp_apply, List.map_map]
  rfl

theorem DictTable.flatten_idents (t : DictTable K V) : t.idents.flatten = t.chained.map (·.ident) :=
  List.map_flatten.symm

theorem SameCores.idents (h : SameCores d d') (i : Nat) : (d'.dt i).idents = (d.dt i).idents := by
  rw [DictTable.idents_eq, DictTable.idents_eq]
  unfold Dict.dt
  split_ifs
  · rw [h.cores0]
  · rw [h.cores1]

theorem bucket_congr (h : ∀ i, (d'.dt i).idents = (d.dt i).idents) (iter : DictIterator) :
    iter.bucket d' = iter.bucket d := by
  rw [DictIterator.bucket, DictIterator.bucket, h]

theorem later_congr (h : ∀ i, (d'.dt i).idents = (d.dt i).idents) (iter : DictIterator) :
    iter.later d' = iter.later d := by
  have h1 : d'.dt1.idents = d.dt1.idents := h 1
  rw [DictIterator.later, DictIterator.later, h, h1]

theorem ahead_congr (h : ∀ i, (d'.dt i).idents = (d.dt i).idents) (iter : DictIterator) :
    iter.ahead d' = iter.ahead d := by
  rw [DictIterator.ahead, DictIterator.ahead, later_congr h]
  cases iter.entry with
  | none => rfl
  | some a => simp only [bucket_congr h iter]

theorem ahead_of_none (h : iter.entry = none) : iter.ahead d = iter.later d := by
  rw [DictIterator.ahead, h]
  rfl

theorem ahead_of_some {a : Nat} (h : iter.entry = some a) :
    iter.ahead d = behindAddr a (iter.bucket d) ++ iter.later d := by
  rw [DictIterator.ahead, h]

/-- A fresh iterator has all the entries ahead. -/
theorem ahead_fresh (d : Dict K V) : dictGetIterator.ahead d = d.all.map (·.ident) := by
  rw [ahead_of_none rfl, Dict.all, List.map_append, ← DictTable.flatten_idents,
    ← DictTable.flatten_idents]
  rfl

def Dict.visited (d : Dict K V) (iter : DictIterator) : Dict K V :=
  { d with iterators := d.iterators + if iter.Started then 0 else 1 }

structure Landed (p : Nat → Nat) (d : Dict K V) (iter : DictIterator) (d' : Dict K V)
    (iter' : DictIterator) (r : Option (DictEntry K V)) : Prop where
  counted : Counted d' (standing p iter'.entry)
  same : SameCores d d'
  started : iter'.Started
  idx : 0 ≤ iter'.idx
  iterators : d'.iterators = d.iterators + if iter.Started then 0 else 1
  entry : iter'.entry = r.map (·.addr)

theorem Landed.after {p : Nat → Nat} {r : Option (DictEntry K V)} {d₁ : Dict K V}
    {iter₁ : DictIterator} (h : Landed p d₁ iter₁ d' iter' r) (hsame : SameCores d d₁)
    (hst : iter₁.Started) (hiters : d₁.iterators = d.iterators + if iter.Started then 0 else 1) :
    Landed p d iter d' iter' r where
  counted := h.counted
  same := hsame.trans h.same
  started := h.started
  idx := h.idx
  iterators := by rw [h.iterators, if_pos hst, Int.add_zero, hiters]
  entry := h.entry

theorem sameCores_visited (d : Dict K V) (iter : DictIterator) : SameCores d (d.visited iter) :=
  ⟨rfl, rfl, rfl, rfl, rfl⟩

structure Reached (d : Dict K V) (iter : DictIterator) (d' : Dict K V) (iter' : DictIterator)
    (r : Option (DictEntry K V)) : Prop where
  mem : ∀ e, r = some e → e ∈ d'.all
  ahead : iter.ahead d = (r.map (·.ident)).toList ++ iter'.ahead d'
  last : r = none → iter.ahead d = []
  stands : iter'.Stands d'

theorem DictTable.getElem?_idents {t : DictTable K V} {i : Nat} {chain : List (DictEntry K V)}
    (h : t.entries[i]? = some chain) : t.idents[i]? = some (chain.map (·.ident)) := by
  rw [DictTable.idents, List.getElem?_map, h]
  rfl

theorem flatten_drop {α : Type*} {ls : List (List α)} {i : Nat} {l : List α}
    (h : ls[i]? = some l) : (ls.drop i).flatten = l ++ (ls.drop (i + 1)).flatten := by
  obtain ⟨hi, rfl⟩ := List.getElem?_eq_some_iff.mp h
  rw [List.drop_eq_getElem_cons hi, List.flatten_cons]

theorem dictIteratorMove_none (hentry : iter.entry = none) :
    dictIteratorMove d iter =
      if iter.idx + 1 ≥ ((d.dt iter.dtIdx).size : Int) then
        if iter.dtIdx = 0 ∧ d.rehashing = true then
          (d.dt1.entries[0]?).bind fun chain =>
            some (d.visited iter, ⟨1, 0, chain.head?.map (·.addr)⟩, false)
        else some (d.visited iter, ⟨iter.dtIdx, iter.idx + 1, none⟩, true)
      else
        ((d.dt iter.dtIdx).entries[(iter.idx + 1).toNat]?).bind fun chain =>
          some (d.visited iter, ⟨iter.dtIdx, iter.idx + 1, chain.head?.map (·.addr)⟩, false) := by
  have hd : d.visited iter =
      if iter.dtIdx = 0 ∧ iter.idx = -1 then { d with iterators := d.iterators + 1 } else d := by
    rw [Dict.visited]
    by_cases hs : iter.dtIdx = 0 ∧ iter.idx = -1
    · rw [if_pos hs, if_neg (fun hst => hst hs.symm)]
    · have hst : iter.Started := fun hst => hs hst.symm
      rw [if_neg hs, if_pos hst, Int.add_zero]
  simp only [dictIteratorMove, hentry, Option.bind_eq_bind, ← hd]
  rfl

namespace DictShape

theorem length_dt (h : DictShape d) (i : Nat) : (d.dt i).entries.length = (d.dt i).size := by
  rw [Dict.dt]
  split_ifs
  · exact h.dt0.length
  · exact h.dt1.length

/-- Past the last bucket of the last table there is nothing. -/
theorem later_nil (h : DictShape d) (hend : ((d.dt iter.dtIdx).size : Int) ≤ iter.idx + 1)
    (hlast : ¬ (iter.dtIdx = 0 ∧ d.rehashing = true)) : iter.later d = [] := by
  have hlen : (d.dt iter.dtIdx).idents.length = (d.dt iter.dtIdx).size := by
    rw [DictTable.idents, List.length_map, h.length_dt]
  rw [DictIterator.later, List.drop_of_length_le (by omega), List.flatten_nil, List.nil_append]
  split_ifs with hdt
  · have hidle : d.rehashidx = none := by
      have hbusy := fun hb => hlast ⟨hdt, hb⟩
      simpa [Dict.rehashing] using hbusy
    rw [h.idle hidle]
    rfl
  · rfl

/-- The move of an iterator that stands on no entry: to the end or to the next bucket. -/
theorem move (h : DictShape d) (hentry : iter.entry = none) (hidx : -1 ≤ iter.idx) :
    ∃ iter' : DictIterator, 0 ≤ iter'.idx ∧ iter'.entry = none ∧
      ((dictIteratorMove d iter = some (d.visited iter, iter', true) ∧ iter.later d = [] ∧
          iter'.later d = []) ∨
        ∃ chain ∈ d.dt0.entries ++ d.dt1.entries,
          dictIteratorMove d iter =
            some (d.visited iter, { iter' with entry := chain.head?.map (·.addr) }, false) ∧
          iter'.bucket d = chain.map (·.ident) ∧
          iter.later d = chain.map (·.ident) ++ iter'.later d ∧ iter'.left d < iter.left d) := by
  have hlen : (d.dt iter.dtIdx).idents.length = (d.dt iter.dtIdx).size := by
    rw [DictTable.idents, List.length_map, h.length_dt]
  have hmove := dictIteratorMove_none (d := d) hentry
  by_cases hend : iter.idx + 1 ≥ ((d.dt iter.dtIdx).size : Int)
  · rw [if_pos hend] at hmove
    by_cases hfirst : iter.dtIdx = 0 ∧ d.rehashing = true
    · -- the first table of a rehashing dict is through, and the second one begins
      obtain ⟨r, hr⟩ := Option.isSome_iff_exists.mp hfirst.2
      have hpos : 0 < d.dt1.entries.length := h.dt1.length ▸ Nat.pos_of_ne_zero (h.busy hr).2.1
      have hchain := List.getElem?_eq_getElem hpos
      have hbucket := DictTable.getElem?_idents hchain
      rw [if_pos hfirst, hchain] at hmove
      refine ⟨⟨1, 0, none⟩, Int.le_refl 0, rfl, .inr ⟨d.dt1.entries[0],
        List.mem_append_right _ (List.getElem_mem hpos), hmove, ?_, ?_, ?_⟩⟩
      · change (d.dt1.idents[0]?).getD [] = _
        rw [hbucket]
        rfl
      · rw [DictIterator.later, List.drop_of_length_le (by omega), if_pos hfirst.1]
        have := flatten_drop hbucket
        simpa [DictIterator.later, Dict.dt] using this
      · simp only [DictIterator.left, if_pos hfirst.1, Nat.one_ne_zero, if_false]
        omega
    · rw [if_neg hfirst] at hmove
      refine ⟨⟨iter.dtIdx, iter.idx + 1, none⟩, by simp only; omega, rfl,
        .inl ⟨hmove, h.later_nil hend hfirst, h.later_nil ?_ hfirst⟩⟩
      simp only
      omega
  · rw [if_neg hend] at hmove
    have hlt : (iter.idx + 1).toNat < (d.dt iter.dtIdx).entries.length := by
      rw [h.length_dt]
      omega
    have hchain := List.getElem?_eq_getElem hlt
    have hbucket := DictTable.getElem?_idents hchain
    have hnext : (iter.idx + 1 + 1).toNat = (iter.idx + 1).toNat + 1 := by omega
    have hmem := List.getElem_mem hlt
    rw [hchain] at hmove
    refine ⟨⟨iter.dtIdx, iter.idx + 1, none⟩, by simp only; omega, rfl,
      .inr ⟨(d.dt iter.dtIdx).entries[(iter.idx + 1).toNat], ?_, hmove, ?_, ?_, ?_⟩⟩
    · rcases d.dt_mem iter.dtIdx with hdt | hdt
      · exact List.mem_append_left _ (hdt ▸ hmem)
      · exact List.mem_append_right _ (hdt ▸ hmem)
    · rw [DictIterator.bucket, hbucket]
      rfl
    · rw [DictIterator.later, DictIterator.later, flatten_drop hbucket, hnext, List.append_assoc]
    · rw [h.length_dt] at hlt
      rw [Dict.dt] at hlt
      simp only [DictIterator.left]
      split_ifs at hlt ⊢
      · omega
      · omega

end DictShape

namespace Counted

variable {p : Nat → Nat}

/-- The round that takes the head of a bucket. -/
theorem land (h : Counted d p) (iter : DictIterator) {b : Nat} (hb : b ∈ d.addrs)
    (hentry : iter.entry = some b) (hs : iter.Started) (hidx : 0 ≤ iter.idx) :
    ∃ d' e next, d.entryIncr b = some d' ∧ d'.cell b = some (e, next) ∧
      Landed p d iter d' iter (some e) ∧ (e ∈ d'.all ↔ ∃ e ∈ d.all, e.addr = b) ∧
      ∀ e₀ ∈ d.all, e₀.addr = b → e.core = e₀.core := by
  obtain ⟨d', e, next, hincr, hcell, haddr, hmem, hcore, hsame, hiters, hcounted⟩ := h.incr hb
  refine ⟨d', e, next, hincr, hcell, ⟨hentry ▸ hcounted, hsame, hs, hidx, ?_, ?_⟩, hmem, hcore⟩
  · rw [hiters, if_pos hs, Int.add_zero]
  · rw [hentry, Option.map_some, haddr]

theorem end_reached (h : Counted d p) {iter₁ : DictIterator} (hentry : iter.entry = none)
    (hnone : iter₁.entry = none) (hidx : 0 ≤ iter₁.idx) (hlater : iter.later d = [])
    (hlater₁ : iter₁.later d = []) :
    Landed p d iter (d.visited iter) iter₁ none ∧ Reached d iter (d.visited iter) iter₁ none := by
  have hvisited : Counted (d.visited iter) p := h.withIterators _
  refine ⟨⟨?_, sameCores_visited d iter, ?_, hidx, rfl, hnone⟩,
    ⟨(fun e he => by cases he), ?_, fun _ => ?_, fun a ha => ?_⟩⟩
  · rwa [hnone, standing_none]
  · exact fun hs => by omega
  · rw [ahead_of_none hentry, ahead_of_none hnone, hlater]
    exact hlater₁.symm
  · rw [ahead_of_none hentry, hlater]
  · rw [hnone] at ha
    cases ha

/-- The head of the bucket is taken, and the rest of it is ahead. -/
theorem head_reached (h : Counted d p) {iter₁ : DictIterator} {e : DictEntry K V}
    {chain : List (DictEntry K V)} (hentry : iter.entry = none) (hidx : 0 ≤ iter₁.idx)
    (hst : ({ iter₁ with entry := some e.addr } : DictIterator).Started)
    (hchain : e :: chain ∈ d.dt0.entries ++ d.dt1.entries)
    (hbucket : iter₁.bucket d = e.ident :: chain.map (·.ident))
    (hlater : iter.later d = (e.ident :: chain.map (·.ident)) ++ iter₁.later d) :
    ∃ d' e' next, (d.visited iter).entryIncr e.addr = some d' ∧
      d'.cell e.addr = some (e', next) ∧
      Landed p d iter d' { iter₁ with entry := some e.addr } (some e') ∧
      Reached d iter d' { iter₁ with entry := some e.addr } (some e') := by
  have hvisited : Counted (d.visited iter) p := h.withIterators _
  have he : e ∈ d.all := by
    rw [d.all_eq_flatten]
    exact List.mem_flatten.mpr ⟨_, hchain, List.mem_cons_self⟩
  obtain ⟨d', e', next, hincr, hcell, hland, hmem, hcore⟩ :=
    hvisited.land { iter₁ with entry := some e.addr }
      (mem_addrs.mpr (.inl ⟨e, he, rfl⟩)) rfl hst hidx
  have hident : e'.ident = e.ident := DictEntry.ident_eq (hcore e he rfl)
  have hbucket' : DictIterator.bucket d' { iter₁ with entry := some e.addr } =
      e.ident :: chain.map (·.ident) := (bucket_congr hland.same.idents _).trans hbucket
  have hahead : DictIterator.ahead d' { iter₁ with entry := some e.addr } =
      chain.map (·.ident) ++ iter₁.later d := by
    rw [ahead_of_some rfl, hbucket', later_congr hland.same.idents]
    have hhead := behindAddr_split [] (chain.map (·.ident)) e.ident (by simp)
    exact congrArg (· ++ iter₁.later d) hhead
  refine ⟨d', e', next, hincr, hcell, hland.after (sameCores_visited d iter) hst rfl,
    ⟨?_, ?_, (fun hr => by cases hr), ?_⟩⟩
  · rintro e₀ ⟨⟩
    exact hmem.mpr ⟨e, he, rfl⟩
  · rw [ahead_of_none hentry, hlater, hahead, Option.map_some, hident]
    rfl
  · rintro a ⟨⟩
    rw [hbucket']
    exact List.mem_cons_self

/-- From an iterator that stands on no entry, the loop of `dict_iterator_next` comes to the
first entry ahead or to the end. -/
theorem seek (fuel : Nat) (h : Counted d p) (iter : DictIterator) (hentry : iter.entry = none)
    (hidx : -1 ≤ iter.idx) (hfuel : iter.left d < fuel) :
    ∃ d' iter' r, dictIteratorLoop fuel d iter = some (d', iter', r) ∧
      Landed p d iter d' iter' r ∧ Reached d iter d' iter' r := by
  induction fuel generalizing d iter with
  | zero => exact absurd hfuel (Nat.not_lt_zero _)
  | succ fuel ih =>
      obtain ⟨iter₁, hidx₁, hnone, ⟨hmove, hlater, hlater₁⟩ |
        ⟨chain, hchain, hmove, hbucket, hlater, hleft⟩⟩ := h.shape.move hentry hidx
      · refine ⟨d.visited iter, iter₁, none, ?_, h.end_reached hentry hnone hidx₁ hlater hlater₁⟩
        simp only [dictIteratorLoop, hmove, Option.bind_eq_bind, Option.bind_some, if_true]
      · have hst : ({ iter₁ with entry := chain.head?.map (·.addr) } : DictIterator).Started :=
          fun hs => by
            have := hs.1
            simp only at this
            omega
        simp only [dictIteratorLoop, hmove, Option.bind_eq_bind, Option.bind_some,
          Bool.false_eq_true, if_false]
        cases chain with
        | nil =>
            -- an empty bucket
            simp only [List.head?_nil, Option.map_none]
            have hvisited : Counted (d.visited iter) p := h.withIterators _
            have hiter : (⟨iter₁.dtIdx, iter₁.idx, none⟩ : DictIterator) = iter₁ := by
              rw [← hnone]
            rw [hiter]
            obtain ⟨d', iter', r, hloop, hland, hreach⟩ :=
              ih hvisited iter₁ hnone (by omega) (show iter₁.left d < fuel by omega)
            have hahead : iter.ahead d = iter₁.ahead (d.visited iter) := by
              rw [ahead_of_none hentry, ahead_of_none hnone, hlater]
              rfl
            have hst₁ : iter₁.Started := hst
            exact ⟨d', iter', r, hloop, hland.after (sameCores_visited d iter) hst₁ rfl,
              hreach.mem, hahead.trans hreach.ahead, fun hr => hahead.trans (hreach.last hr),
              hreach.stands⟩
        | cons e chain =>
            simp only [List.head?_cons, Option.map_some]
            obtain ⟨d', e', next, hincr, hcell, hland, hreach⟩ :=
              h.head_reached hentry hidx₁ hst hchain hbucket hlater
            simp only [hincr, hcell, Option.bind_some]
            exact ⟨d', _, some e', rfl, hland, hreach⟩

end Counted

/-- From an entry, the iterator goes on to the one behind it or to the next bucket. -/
theorem dictIteratorNext_some {d₁ : Dict K V} {a : Nat} {e : DictEntry K V} {next : Option Nat}
    (hentry : iter.entry = some a) (hdecr : d.entryDecr a = some d₁)
    (hcell : d₁.cell a = some (e, next)) :
    dictIteratorNext d iter =
      match next with
      | none =>
          dictIteratorLoop (d.dt0.size + d.dt1.size + 2) d₁ { iter with entry := none }
      | some b => (d₁.entryIncr b).bind fun d₂ => (d₂.cell b).bind fun c =>
          some (d₂, { iter with entry := some b }, some c.1) := by
  rw [dictIteratorNext]
  simp only [dictIteratorLoop, dictIteratorMove, hentry, hdecr, hcell, Option.bind_eq_bind,
    Option.bind_some]
  cases next with
  | none => rfl
  | some b => rfl

theorem DictIterator.left_le (d : Dict K V) (iter : DictIterator) :
    iter.left d ≤ d.dt0.size + d.dt1.size + 1 := by
  rw [DictIterator.left]
  split_ifs
  · omega
  · omega

/-- An iterator is moved before it stands on an entry. -/
structure DictIterator.Valid (iter : DictIterator) : Prop where
  idx : -1 ≤ iter.idx
  inside : iter.Started → 0 ≤ iter.idx
  started : iter.entry ≠ none → iter.Started

theorem valid_fresh : dictGetIterator.Valid :=
  ⟨by decide, fun h => absurd ⟨rfl, rfl⟩ h, fun h => absurd rfl h⟩

theorem Landed.valid {p : Nat → Nat} {r : Option (DictEntry K V)}
    (h : Landed p d iter d' iter' r) : iter'.Valid :=
  ⟨by have := h.idx; omega, fun _ => h.idx, fun _ => h.started⟩

namespace Counted

variable {p : Nat → Nat} {a : Nat}

theorem next_none (h : Counted d p) (hv : iter.Valid) (hentry : iter.entry = none) :
    ∃ d' iter' r, dictIteratorNext d iter = some (d', iter', r) ∧ Landed p d iter d' iter' r ∧
      Reached d iter d' iter' r := by
  refine h.seek _ iter hentry hv.idx ?_
  have := iter.left_le d
  omega

/-- What `dict_iterator_next` does after it has left the entry at `a`, behind which there was
`next`. -/
theorem next_left {d₁ : Dict K V} (h : Counted d₁ p) (hv : iter.Valid)
    (hentry : iter.entry = some a) (hdecr : d.entryDecr a = some d₁) {e : DictEntry K V}
    (hcell : d₁.cell a = some (e, none)) (hsame : SameCores d d₁)
    (hiters : d₁.iterators = d.iterators) :
    ∃ d' iter' r, dictIteratorNext d iter = some (d', iter', r) ∧ Landed p d iter d' iter' r ∧
      Reached d₁ { iter with entry := none } d' iter' r := by
  have hst : iter.Started := hv.started (by rw [hentry]; exact Option.some_ne_none a)
  have hfuel := ({ iter with entry := none } : DictIterator).left_le d₁
  rw [hsame.size0, hsame.size1] at hfuel
  obtain ⟨d', iter', r, hloop, hland, hreach⟩ := h.seek (d.dt0.size + d.dt1.size + 2)
    { iter with entry := none } rfl hv.idx (by omega)
  refine ⟨d', iter', r, ?_, hland.after hsame hst ?_, hreach⟩
  · rw [dictIteratorNext_some hentry hdecr hcell]
    exact hloop
  · rw [if_pos hst, Int.add_zero, hiters]

theorem next_behind {d₁ : Dict K V} (h : Counted d₁ p) (hv : iter.Valid)
    (hentry : iter.entry = some a) (hdecr : d.entryDecr a = some d₁) {e : DictEntry K V} {b : Nat}
    (hcell : d₁.cell a = some (e, some b)) (hsame : SameCores d d₁)
    (hiters : d₁.iterators = d.iterators) (hb : b ∈ d₁.addrs) :
    ∃ d' e', dictIteratorNext d iter = some (d', { iter with entry := some b }, some e') ∧
      Landed p d iter d' { iter with entry := some b } (some e') ∧
      (e' ∈ d'.all ↔ ∃ e ∈ d₁.all, e.addr = b) ∧
      ∀ e₀ ∈ d₁.all, e₀.addr = b → e'.core = e₀.core := by
  have hst : iter.Started := hv.started (by rw [hentry]; exact Option.some_ne_none a)
  obtain ⟨d', e', next, hincr, hcell', hland, hmem, hcore⟩ :=
    h.land { iter with entry := some b } hb rfl hst (hv.inside hst)
  refine ⟨d', e', ?_, hland.after hsame hst ?_, hmem, hcore⟩
  · rw [dictIteratorNext_some hentry hdecr hcell]
    simp only [hincr, hcell', Option.bind_some]
  · rw [if_pos hst, Int.add_zero, hiters]

/-- An iterator that has released its own entry reads its link all the same. -/
theorem next_released {d₁ : Dict K V} (hentry : iter.entry = some a)
    (hdecr : d.entryDecr a = some d₁) (hcell : d₁.cell a = none) :
    dictIteratorNext d iter = none := by
  rw [dictIteratorNext]
  simp only [dictIteratorLoop, dictIteratorMove, hentry, hdecr, hcell, Option.bind_eq_bind,
    Option.bind_some, Option.bind_none]

theorem next_dangling {d₁ : Dict K V} (hentry : iter.entry = some a)
    (hdecr : d.entryDecr a = some d₁) {e : DictEntry K V} {b : Nat}
    (hcell : d₁.cell a = some (e, some b)) (hb : b ∉ d₁.addrs) :
    dictIteratorNext d iter = none := by
  rw [dictIteratorNext_some hentry hdecr hcell]
  simp only [Dict.entryIncr, cell_eq_none hb, Option.bind_none]

/-- The entry of an iterator in its chain. -/
theorem stands_split (hstands : iter.Stands d) (hentry : iter.entry = some a) :
    ∃ before e behind, before ++ e :: behind ∈ d.dt0.entries ++ d.dt1.entries ∧ e.addr = a ∧
      iter.bucket d = (before ++ e :: behind).map (·.ident) := by
  have ha := hstands a hentry
  rw [DictIterator.bucket, DictTable.idents, List.getElem?_map] at ha ⊢
  cases hchain : (d.dt iter.dtIdx).entries[iter.idx.toNat]? with
  | none =>
      rw [hchain] at ha
      cases ha
  | some chain =>
      rw [hchain] at ha
      simp only [Option.map_some, Option.getD_some, List.map_map] at ha ⊢
      obtain ⟨e, he, haddr⟩ := List.mem_map.mp ha
      obtain ⟨before, behind, rfl⟩ := List.append_of_mem he
      refine ⟨before, e, behind, ?_, haddr, rfl⟩
      have hmem := List.mem_of_getElem? hchain
      rcases d.dt_mem iter.dtIdx with hdt | hdt
      · exact List.mem_append_left _ (hdt ▸ hmem)
      · exact List.mem_append_right _ (hdt ▸ hmem)

theorem nodup_chain (h : Counted d p) {chain : List (DictEntry K V)}
    (hchain : chain ∈ d.dt0.entries ++ d.dt1.entries) : (chain.map (·.addr)).Nodup := by
  have hsub : chain.Sublist d.all := d.all_eq_flatten ▸ List.sublist_flatten_of_mem hchain
  exact h.nodup_all.sublist (hsub.map _)

/-- An iterator that stands on an entry of its bucket goes on to the first entry ahead. -/
theorem next_stands (h : Counted d (standing p iter.entry)) (hv : iter.Valid)
    (hstands : iter.Stands d) :
    ∃ d' iter' r, dictIteratorNext d iter = some (d', iter', r) ∧ Landed p d iter d' iter' r ∧
      Reached d iter d' iter' r := by
  cases hentry : iter.entry with
  | none =>
      rw [hentry, standing_none] at h
      exact h.next_none hv hentry
  | some a =>
      rw [hentry] at h
      obtain ⟨before, e, behind, hbucket, rfl, hidents⟩ := stands_split hstands hentry
      have he : e ∈ d.all := Dict.mem_all_iff.mpr ⟨before, behind, hbucket⟩
      obtain ⟨d₁, hdecr, hsame, hiters, hcells, h₁⟩ := h.decr_shared (.inl ⟨e, he, rfl⟩)
      obtain ⟨e₁, hcell⟩ := hcells (Dict.cell_of_bucket h.nodup_all hbucket)
      have hnodup := h.nodup_chain hbucket
      have hahead : iter.ahead d = behind.map (·.ident) ++ iter.later d := by
        rw [ahead_of_some hentry, hidents, behindAddr_chain hnodup]
      cases behind with
      | nil =>
          obtain ⟨d', iter', r, hnext, hland, hreach⟩ :=
            h₁.next_left hv hentry hdecr hcell hsame hiters
          have hsame' : iter.ahead d = ({ iter with entry := none } : DictIterator).ahead d₁ := by
            rw [hahead, ahead_of_none rfl]
            exact (later_congr hsame.idents iter).symm
          exact ⟨d', iter', r, hnext, hland, hreach.mem, hsame'.trans hreach.ahead,
            fun hr => hsame'.trans (hreach.last hr), hreach.stands⟩
      | cons b behind =>
          have hb : b ∈ d.all :=
            Dict.mem_all_iff.mpr ⟨before ++ [e], behind, by simpa using hbucket⟩
          obtain ⟨b₁, hb₁, hcore₁⟩ : ∃ b₁ ∈ d₁.all, b₁.core = b.core := by
            have := List.mem_map_of_mem (f := DictEntry.core) hb
            rw [← hsame.map_core] at this
            exact List.mem_map.mp this
          have haddr : b₁.addr = b.addr := congrArg Prod.fst hcore₁
          obtain ⟨d', e', hnext, hland, hmem, hcore⟩ := h₁.next_behind hv hentry hdecr hcell hsame
            hiters (mem_addrs.mpr (.inl ⟨b₁, hb₁, haddr⟩))
          have hident : e'.ident = b.ident :=
            DictEntry.ident_eq ((hcore b₁ hb₁ haddr).trans hcore₁)
          have hbucket' : DictIterator.bucket d' { iter with entry := some b.addr } =
              (before ++ [e] ++ b :: behind).map (·.ident) := by
            refine (bucket_congr hland.same.idents iter).trans (hidents.trans ?_)
            rw [List.append_assoc]
            rfl
          have hlater : DictIterator.later d' { iter with entry := some b.addr } = iter.later d :=
            later_congr hland.same.idents iter
          refine ⟨d', _, some e', hnext, hland, ⟨?_, ?_, (fun hr => by cases hr), ?_⟩⟩
          · rintro e₀ ⟨⟩
            exact hmem.mpr ⟨b₁, hb₁, haddr⟩
          · have hbehind : behindAddr b.addr ((before ++ [e] ++ b :: behind).map (·.ident)) =
                behind.map (·.ident) := behindAddr_chain (by simpa using hnodup)
            rw [hahead, ahead_of_some rfl, hbucket', hlater, Option.map_some, hident]
            exact congrArg (b.ident :: · ++ iter.later d) hbehind.symm
          · rintro a ⟨⟩
            rw [hbucket', List.map_append, List.map_append, List.map_cons]
            exact List.mem_append_right _ List.mem_cons_self

end Counted

end

end ThrSocket
