import ThrSocket.DictShape
import ThrSocket.DictIter

/-!
Entries as cells that are released by their last reference. A chain holds one
reference to each of its entries and an iterator one to the entry it stands on; an
entry that was deleted is kept as long as an iterator stands on it.
-/

namespace ThrSocket

variable {K V : Type}

def Dict.addrs (d : Dict K V) : List Nat :=
  d.all.map (·.addr) ++ d.detached.map (·.entry.addr)

structure Counted (d : Dict K V) (p : Nat → Nat) : Prop where
  shape : DictShape d
  addrs : d.addrs.Nodup
  fresh : ∀ a ∈ d.addrs, a < d.nextAddr
  chained : ∀ e ∈ d.all, e.ref = 1 + p e.addr
  detached : ∀ x ∈ d.detached, x.entry.ref = p x.entry.addr ∧ x.entry.ref ≠ 0
  parked : ∀ a, p a ≠ 0 → a ∈ d.addrs

def standing (p : Nat → Nat) (x : Option Nat) (a : Nat) : Nat := p a + if x = some a then 1 else 0

theorem standing_none (p : Nat → Nat) : standing p none = p := by
  funext a
  simp [standing]

theorem standing_self (p : Nat → Nat) (a : Nat) : standing p (some a) a = p a + 1 := by
  simp [standing]

theorem standing_ne (p : Nat → Nat) {a b : Nat} (h : b ≠ a) : standing p (some a) b = p b := by
  simp [standing, h.symm]

theorem subperm_map {α β : Type*} (f : α → β) {l l' : List α} (h : l.Subperm l') :
    (l.map f).Subperm (l'.map f) := by
  obtain ⟨m, hperm, hsub⟩ := h
  exact ⟨m.map f, hperm.map f, hsub.map f⟩

theorem nodup_of_subperm {α : Type*} {l l' : List α} (h : l.Subperm l') (hn : l'.Nodup) :
    l.Nodup := by
  obtain ⟨m, hperm, hsub⟩ := h
  exact hperm.nodup_iff.mp (hn.sublist hsub)

theorem map_unlinked (e : DictEntry K V) (next : Option Nat) :
    (unlinked e next).map (·.entry) =
      ([e].filter fun e => e.ref - 1 ≠ 0).map fun e => { e with ref := e.ref - 1 } := by
  rw [unlinked]
  by_cases h : e.ref - 1 = 0
  · simp [h]
  · simp [h]

theorem map_clearChain (chain : List (DictEntry K V)) :
    (clearChain chain).map (·.entry) =
      (chain.filter fun e => e.ref - 1 ≠ 0).map fun e => { e with ref := e.ref - 1 } := by
  induction chain with
  | nil => rfl
  | cons e chain ih =>
      rw [clearChain, List.map_append, map_unlinked, ih, ← List.map_append, ← List.filter_append]
      rfl

theorem map_tableClear (t : DictTable K V) :
    t.tableClear.map (·.entry) =
      (t.chained.filter fun e => e.ref - 1 ≠ 0).map fun e => { e with ref := e.ref - 1 } := by
  rw [DictTable.tableClear, DictTable.chained, List.map_flatMap, List.filter_flatten,
    List.map_flatten, List.flatMap_def, List.map_map]
  exact congrArg List.flatten (List.map_congr_left fun chain _ => map_clearChain chain)

theorem counted_create : Counted (dictCreate : Dict K V) (fun _ => 0) where
  shape := dictShape_create
  addrs := List.nodup_nil
  fresh := fun a ha => by cases ha
  chained := fun e he => by cases he
  detached := fun x hx => by cases hx
  parked := fun a ha => absurd rfl ha

namespace Counted

variable {o : DictOpts K V} {d d' : Dict K V} {p : Nat → Nat}

theorem mem_addrs {a : Nat} :
    a ∈ d.addrs ↔ (∃ e ∈ d.all, e.addr = a) ∨ ∃ x ∈ d.detached, x.entry.addr = a := by
  simp [Dict.addrs]

theorem nodup_all (h : Counted d p) : (d.all.map (·.addr)).Nodup :=
  (List.nodup_append.mp h.addrs).1

theorem not_chained (h : Counted d p) {x : Detached K V} (hx : x ∈ d.detached)
    {e : DictEntry K V} (he : e ∈ d.all) : e.addr ≠ x.entry.addr :=
  (List.nodup_append.mp h.addrs).2.2 _ (List.mem_map_of_mem he) _ (List.mem_map_of_mem hx)

theorem detached_inj (h : Counted d p) {x y : Detached K V} (hx : x ∈ d.detached)
    (hy : y ∈ d.detached) (ha : x.entry.addr = y.entry.addr) : x = y :=
  List.inj_on_of_nodup_map (List.nodup_append.mp h.addrs).2.1 hx hy ha

/-- The chains gave up the entries `out`: those that an iterator stands on are kept. -/
theorem release (h : Counted d p) (hshape : DictShape d') (out : List (DictEntry K V))
    (hall : (d'.all ++ out).Subperm d.all)
    (hout : ∀ e ∈ d.all, p e.addr ≠ 0 → e ∈ d'.all ∨ e ∈ out)
    (hkept : d'.detached.map (·.entry) =
      (out.filter fun e => e.ref - 1 ≠ 0).map (fun e => { e with ref := e.ref - 1 }) ++
        d.detached.map (·.entry))
    (hnext : d'.nextAddr = d.nextAddr) : Counted d' p := by
  have hdetached : d'.detached.map (·.entry.addr) =
      (out.filter fun e => e.ref - 1 ≠ 0).map (·.addr) ++ d.detached.map (·.entry.addr) := by
    have := congrArg (List.map (·.addr)) hkept
    simpa [List.map_append, List.map_map, Function.comp_def] using this
  have hsub : d'.addrs.Subperm d.addrs := by
    rw [Dict.addrs, Dict.addrs, hdetached, ← List.append_assoc]
    refine List.Subperm.append (List.Subperm.trans ?_ (subperm_map (·.addr) hall)) (.refl _)
    rw [List.map_append]
    exact (List.Subperm.refl _).append (List.filter_sublist.map _).subperm
  have hkept_iff : ∀ y : DictEntry K V, y ∈ d'.detached.map (·.entry) ↔
      (∃ e ∈ out, e.ref - 1 ≠ 0 ∧ { e with ref := e.ref - 1 } = y) ∨
        y ∈ d.detached.map (·.entry) := by
    intro y
    rw [hkept, List.mem_append, List.mem_map]
    simp only [List.mem_filter, decide_eq_true_eq, and_assoc]
  have hmem : ∀ e ∈ out, e ∈ d.all := fun e he => hall.subset (List.mem_append_right _ he)
  constructor
  · exact hshape
  · exact nodup_of_subperm hsub h.addrs
  · exact fun a ha => hnext ▸ h.fresh a (hsub.subset ha)
  · exact fun e he => h.chained e (hall.subset (List.mem_append_left _ he))
  · intro x hx
    rcases (hkept_iff x.entry).mp (List.mem_map_of_mem hx) with ⟨e, he, hne, heq⟩ | hold
    · have href := h.chained e (hmem e he)
      rw [← heq]
      exact ⟨by simp only [href]; omega, hne⟩
    · obtain ⟨y, hy, heq⟩ := List.mem_map.mp hold
      exact heq ▸ h.detached y hy
  · intro a ha
    rcases mem_addrs.mp (h.parked a ha) with ⟨e, he, rfl⟩ | ⟨x, hx, rfl⟩
    · rcases hout e he ha with hall' | ho
      · exact mem_addrs.mpr (.inl ⟨e, hall', rfl⟩)
      · have hne : e.ref - 1 ≠ 0 := by
          have := h.chained e he
          omega
        obtain ⟨x, hx, heq⟩ := List.mem_map.mp ((hkept_iff _).mpr (.inl ⟨e, ho, hne, rfl⟩))
        exact mem_addrs.mpr (.inr ⟨x, hx, by rw [heq]⟩)
    · obtain ⟨y, hy, heq⟩ := List.mem_map.mp ((hkept_iff _).mpr (.inr (List.mem_map_of_mem hx)))
      exact mem_addrs.mpr (.inr ⟨y, hy, by rw [heq]⟩)

/-- The chains lost entries that no iterator stands on. -/
theorem shrink (h : Counted d p) (hshape : DictShape d') (hall : d'.all.Subperm d.all)
    (hlost : ∀ e ∈ d.all, p e.addr ≠ 0 → e ∈ d'.all) (hdetached : d'.detached = d.detached)
    (hnext : d'.nextAddr = d.nextAddr) : Counted d' p := by
  refine h.release hshape [] ?_ (fun e he ha => .inl (hlost e he ha)) ?_ hnext
  · rwa [List.append_nil]
  · rw [hdetached]
    rfl

theorem rehashed (h : Counted d p) (hp : d.iterators = 0 → ∀ a, p a = 0)
    (hre : Rehashed o d d') : Counted d' p ∧ d'.iterators = d.iterators := by
  have hshape := (h.shape.rehashed hre).1
  have hall := hre.subperm
  cases hre with
  | skipped _ => exact ⟨h, rfl⟩
  | ended _ alone _ =>
      exact ⟨h.shrink hshape hall (fun e _ ha => absurd (hp alone e.addr) ha) rfl rfl, rfl⟩
  | moved _ alone _ _ _ _ =>
      exact ⟨h.shrink hshape hall (fun e _ ha => absurd (hp alone e.addr) ha) rfl rfl, rfl⟩

theorem expanded (h : Counted d p) {size : Nat} {rs : Int} (hexp : Expanded d size d' rs) :
    Counted d' p ∧ d'.iterators = d.iterators := by
  obtain ⟨hshape, hall⟩ := h.shape.expanded hexp
  have hlost : ∀ e ∈ d.all, p e.addr ≠ 0 → e ∈ d'.all := fun e he _ => hall ▸ he
  cases hexp with
  | refused _ => exact ⟨h, rfl⟩
  | first _ _ _ => exact ⟨h.shrink hshape (hall ▸ .refl _) hlost rfl rfl, rfl⟩
  | second _ _ _ _ => exact ⟨h.shrink hshape (hall ▸ .refl _) hlost rfl rfl, rfl⟩

theorem tryExpanded (h : Counted d p) {rs : Int} (hexp : dictTryExpand d = some (d', rs)) :
    Counted d' p ∧ d'.iterators = d.iterators := by
  obtain ⟨rfl, -⟩ | ⟨-, size, hgrown, -⟩ := dictTryExpand_cases hexp
  · exact ⟨h, rfl⟩
  · exact h.expanded hgrown

theorem pushed (h : Counted d p) {e : DictEntry K V} (ha : e.addr = d.nextAddr) (href : e.ref = 1)
    (hpush : Pushed d e d') : Counted d' p ∧ d'.iterators = d.iterators := by
  have hshape := h.shape.pushed hpush
  have hperm := hpush.perm
  have hsame : d'.detached = d.detached ∧ d'.nextAddr = d.nextAddr + 1 ∧
      d'.iterators = d.iterators := by
    cases hpush with
    | first _ _ => exact ⟨rfl, rfl, rfl⟩
    | second _ _ => exact ⟨rfl, rfl, rfl⟩
  obtain ⟨hdetached, hnext, hiterators⟩ := hsame
  have haddrs : d'.addrs.Perm (e.addr :: d.addrs) := by
    rw [Dict.addrs, Dict.addrs, hdetached, ← List.cons_append, ← List.map_cons]
    exact (hperm.map _).append_right _
  have hnew : e.addr ∉ d.addrs := fun hmem => Nat.lt_irrefl _ (ha ▸ h.fresh _ hmem)
  refine ⟨⟨hshape, haddrs.nodup_iff.mpr (List.nodup_cons.mpr ⟨hnew, h.addrs⟩), ?_, ?_,
    fun x hx => h.detached x (hdetached ▸ hx), fun a hp => ?_⟩, hiterators⟩
  · intro a hmem
    rw [hnext]
    rcases List.mem_cons.mp (haddrs.subset hmem) with rfl | hmem
    · omega
    · exact Nat.lt_succ_of_lt (h.fresh a hmem)
  · intro e' he'
    rcases List.mem_cons.mp (hperm.subset he') with rfl | hmem
    · have hzero : p e'.addr = 0 := by
        by_contra hne
        exact hnew (h.parked _ hne)
      rw [href, hzero]
    · exact h.chained e' hmem
  · exact haddrs.symm.subset (List.mem_cons_of_mem _ (h.parked a hp))

theorem taken (h : Counted d p) {e : DictEntry K V} {next : Option Nat}
    (hout : Taken d e next d') : Counted d' p ∧ d'.iterators = d.iterators := by
  have hshape := h.shape.taken hout
  have hperm := hout.perm
  have hsame : d'.detached = unlinked e next ++ d.detached ∧ d'.nextAddr = d.nextAddr ∧
      d'.iterators = d.iterators := by
    cases hout with
    | first _ => exact ⟨rfl, rfl, rfl⟩
    | second _ => exact ⟨rfl, rfl, rfl⟩
  obtain ⟨hdetached, hnext, hiterators⟩ := hsame
  refine ⟨h.release hshape [e] ?_ (fun e' he' _ => ?_) ?_ hnext, hiterators⟩
  · exact (List.perm_append_comm.trans hperm.symm).subperm
  · rcases List.mem_cons.mp (hperm.subset he') with rfl | hmem
    · exact .inr List.mem_cons_self
    · exact .inl hmem
  · rw [hdetached, List.map_append, map_unlinked]

theorem cleared (h : Counted d p) : Counted (dictClear d) p := by
  refine h.release (dictShape_clear d) d.all (.refl _) (fun e he _ => .inr he) ?_ rfl
  rw [Dict.all, List.filter_append, List.map_append, ← map_tableClear, ← map_tableClear,
    ← List.map_append, ← List.map_append]
  rfl

/-- A store to the entry at `a`, which keeps its address. -/
theorem modify (h : Counted d p) {a : Nat} {f : DictEntry K V → DictEntry K V} {q : Nat → Nat}
    (ha : ∀ e, (f e).addr = e.addr) (hother : ∀ b, b ≠ a → q b = p b)
    (hchained : ∀ e ∈ d.all, e.addr = a → (f e).ref = 1 + q a)
    (hkept : ∀ x ∈ d.detached, x.entry.addr = a → (f x.entry).ref = q a ∧ q a ≠ 0)
    (hparked : q a ≠ 0 → a ∈ d.addrs) : Counted (d.modify a f) q := by
  have haddrs : (d.modify a f).addrs = d.addrs := by
    rw [Dict.addrs, Dict.addrs, Dict.all_modify, List.map_map]
    congr 1
    · exact List.map_congr_left fun e _ => storeAt_addr ha e
    · simp only [Dict.modify, List.map_map]
      refine List.map_congr_left fun x _ => ?_
      simp only [Function.comp_apply]
      split_ifs
      · exact ha x.entry
      · rfl
  refine ⟨h.shape.modify a f, haddrs ▸ h.addrs, haddrs ▸ h.fresh, ?_, ?_, ?_⟩
  · intro e he
    rw [Dict.all_modify] at he
    obtain ⟨e₀, he₀, rfl⟩ := List.mem_map.mp he
    rw [storeAt_addr ha, storeAt]
    split_ifs with heq
    · rw [heq]
      exact hchained e₀ he₀ heq
    · rw [hother _ heq]
      exact h.chained e₀ he₀
  · intro x hx
    obtain ⟨y, hy, rfl⟩ := List.mem_map.mp hx
    split_ifs with heq
    · obtain ⟨href, hne⟩ := hkept y hy heq
      rw [ha, heq, href]
      exact ⟨rfl, hne⟩
    · rw [hother _ heq]
      exact h.detached y hy
  · intro b hb
    rw [haddrs]
    by_cases heq : b = a
    · exact heq ▸ hparked (heq ▸ hb)
    · exact h.parked b (hother b heq ▸ hb)

theorem modifyValue (h : Counted d p) (a : Nat) (v : V) :
    Counted (d.modify a fun e => { e with value := v }) p := by
  refine h.modify (fun _ => rfl) (fun _ _ => rfl) ?_ ?_ (h.parked a)
  · rintro e he rfl
    exact h.chained e he
  · rintro x hx rfl
    obtain ⟨href, hne⟩ := h.detached x hx
    exact ⟨href, href ▸ hne⟩

section

variable [DecidableEq K]

theorem found (h : Counted d p) (hp : d.iterators = 0 → ∀ a, p a = 0) {key : K}
    {r : Option (DictEntry K V)} (hfind : dictFind o d key = some (d', r)) :
    Counted d' p ∧ d'.iterators = d.iterators := by
  obtain ⟨-, rfl, -⟩ | ⟨-, hre, -⟩ := dictFind_cases hfind
  · exact ⟨h, rfl⟩
  · exact h.rehashed hp hre

theorem added (h : Counted d p) (hp : d.iterators = 0 → ∀ a, p a = 0) {key : K} {val : V}
    {rs : Int} (hadd : dictAdd o d key val = some (d', rs)) :
    Counted d' p ∧ d'.iterators = d.iterators := by
  obtain ⟨d₁, d₂, n, hre, hexp, hend⟩ := dictAdd_cases hadd
  obtain ⟨h₁, hi₁⟩ := h.rehashed hp hre
  obtain ⟨h₂, hi₂⟩ := h₁.tryExpanded hexp
  rcases hend with rfl | ⟨-, hpush⟩
  · exact ⟨h₂, hi₂.trans hi₁⟩
  · obtain ⟨h₃, hi₃⟩ := h₂.pushed rfl rfl hpush
    exact ⟨h₃, hi₃.trans (hi₂.trans hi₁)⟩

theorem replaced (h : Counted d p) (hp : d.iterators = 0 → ∀ a, p a = 0) {key : K} {val : V}
    {rs : Int} (hreplace : dictReplace o d key val = some (d', rs)) :
    Counted d' p ∧ d'.iterators = d.iterators := by
  obtain ⟨d₁, r, hfind, hend⟩ := dictReplace_cases hreplace
  obtain ⟨h₁, hi₁⟩ := h.found hp hfind
  rcases hend with ⟨e, -, rfl⟩ | ⟨-, hadd⟩
  · exact ⟨h₁.modifyValue e.addr (o.setValue val), hi₁⟩
  · obtain ⟨h₂, hi₂⟩ := h₁.added (hi₁ ▸ hp) hadd
    exact ⟨h₂, hi₂.trans hi₁⟩

theorem deleted (h : Counted d p) (hp : d.iterators = 0 → ∀ a, p a = 0) {key : K} {rs : Int}
    (hdel : dictDelInternal o d key = some (d', rs)) :
    Counted d' p ∧ d'.iterators = d.iterators := by
  obtain ⟨-, rfl⟩ | ⟨-, d₁, hre, hend⟩ := dictDelInternal_cases hdel
  · exact ⟨h, rfl⟩
  · obtain ⟨h₁, hi₁⟩ := h.rehashed hp hre
    rcases hend with rfl | ⟨e, next, hout⟩
    · exact ⟨h₁, hi₁⟩
    · obtain ⟨h₂, hi₂⟩ := h₁.taken hout
      exact ⟨h₂, hi₂.trans hi₁⟩

end

end Counted

end ThrSocket
