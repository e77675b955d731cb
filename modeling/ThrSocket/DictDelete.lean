import ThrSocket.DictCursor
import ThrSocket.DictMap

/-!
Deleting while iterators are open. The reference of an iterator keeps its entry, but
`dict_iterator_next` gives it up before it reads the link of the entry, and the
link itself holds no reference to where it leads.
-/

namespace ThrSocket

variable {K V : Type}

/-- Where the iterator stands on a deleted entry, another one holds that entry too, and the
link leads nowhere or to an entry of the dict. -/
def LinkAlive (d : Dict K V) (iter : DictIterator) : Prop :=
  ∀ x ∈ d.detached, iter.entry = some x.entry.addr →
    2 ≤ x.entry.ref ∧ ∀ b, x.next = some b → ∃ e ∈ d.all, e.addr = b

/-- The call reads no released entry, and what it returns is in the dict. -/
def NextSafe (d : Dict K V) (iter : DictIterator) : Prop :=
  ∃ d' iter' r, dictIteratorNext d iter = some (d', iter', r) ∧ ∀ e, r = some e → e ∈ d'.all

theorem SameCores.exists_addr {d d' : Dict K V} (h : SameCores d d') (b : Nat) :
    (∃ e ∈ d'.all, e.addr = b) ↔ ∃ e ∈ d.all, e.addr = b := by
  have hmap := congrArg (List.map Prod.fst) h.map_core
  rw [List.map_map, List.map_map] at hmap
  have haddr : d'.all.map (·.addr) = d.all.map (·.addr) := hmap
  rw [← List.mem_map, haddr, List.mem_map]

/-- A call that goes on well, with `alive` true before it, or goes wrong with it false. -/
def NextEnds (p : Nat → Nat) (d : Dict K V) (iter : DictIterator) (alive : Prop) : Prop :=
  (alive ∧ ∃ d' iter' r, dictIteratorNext d iter = some (d', iter', r) ∧
      Landed p d iter d' iter' r ∧ ∀ e, r = some e → e ∈ d'.all) ∨
    (¬ alive ∧ (dictIteratorNext d iter = none ∨
      ∃ d' iter' e, dictIteratorNext d iter = some (d', iter', some e) ∧
        Landed p d iter d' iter' (some e) ∧ e ∉ d'.all))

theorem NextEnds.congr {p : Nat → Nat} {d : Dict K V} {iter : DictIterator} {alive alive' : Prop}
    (h : NextEnds p d iter alive) (hiff : alive' ↔ alive) : NextEnds p d iter alive' :=
  h.imp (And.imp_left hiff.mpr) (And.imp_left (mt hiff.mp))

namespace Counted

variable {d d₁ d' : Dict K V} {p : Nat → Nat} {iter iter' : DictIterator} {a : Nat}

/-- After the iterator has left its entry, all depends on where the link leads. -/
theorem next_linked (h : Counted d₁ p) (hv : iter.Valid) (hentry : iter.entry = some a)
    (hdecr : d.entryDecr a = some d₁) {e : DictEntry K V} {next : Option Nat}
    (hcell : d₁.cell a = some (e, next)) (hsame : SameCores d d₁)
    (hiters : d₁.iterators = d.iterators) :
    NextEnds p d iter (∀ b, next = some b → ∃ e ∈ d.all, e.addr = b) := by
  cases next with
  | none =>
      obtain ⟨d', iter', r, hnext, hland, hreach⟩ :=
        h.next_left hv hentry hdecr hcell hsame hiters
      exact .inl ⟨(fun b hb => by cases hb), d', iter', r, hnext, hland, hreach.mem⟩
  | some b =>
      by_cases hb : b ∈ d₁.addrs
      · obtain ⟨d', e', hnext, hland, hmem, -⟩ :=
          h.next_behind hv hentry hdecr hcell hsame hiters hb
        rw [hsame.exists_addr] at hmem
        by_cases hin : ∃ e ∈ d.all, e.addr = b
        · refine .inl ⟨?_, d', _, _, hnext, hland, ?_⟩
          · rintro b' ⟨⟩
            exact hin
          · rintro e₀ ⟨⟩
            exact hmem.mpr hin
        · exact .inr ⟨fun hall => hin (hall b rfl),
            .inr ⟨d', _, e', hnext, hland, hmem.not.mpr hin⟩⟩
      · refine .inr ⟨fun hall => hb ?_, .inl (next_dangling hentry hdecr hcell hb)⟩
        exact mem_addrs.mpr (.inl ((hsame.exists_addr b).mpr (hall b rfl)))

theorem next_ends (h : Counted d (standing p iter.entry)) (hv : iter.Valid) :
    NextEnds p d iter (LinkAlive d iter) := by
  cases hentry : iter.entry with
  | none =>
      rw [hentry, standing_none] at h
      obtain ⟨d', iter', r, hnext, hland, hreach⟩ := h.next_none hv hentry
      refine .inl ⟨fun x _ hx => ?_, d', iter', r, hnext, hland, hreach.mem⟩
      rw [hentry] at hx
      cases hx
  | some a =>
      rw [hentry] at h
      have ha : a ∈ d.addrs := h.parked a (by rw [standing_self]; omega)
      rcases mem_addrs.mp ha with ⟨e, he, rfl⟩ | ⟨x, hx, rfl⟩
      · -- the entry is still in its chain, and so is the one behind it
        obtain ⟨d₁, hdecr, hsame, hiters, hcells, h₁⟩ := h.decr_shared (.inl ⟨e, he, rfl⟩)
        obtain ⟨next, hat, hnext⟩ := Dict.cell_of_mem h.nodup_all he
        obtain ⟨e₁, hcell⟩ := hcells hat
        refine (h₁.next_linked hv hentry hdecr hcell hsame hiters).congr (iff_of_true ?_ hnext)
        intro x hx heq
        rw [hentry] at heq
        exact absurd (Option.some.inj heq) (h.not_chained hx he)
      · -- the entry was deleted
        have href := (h.detached x hx).1
        rw [standing_self] at href
        by_cases hp : p x.entry.addr = 0
        · obtain ⟨d₁, hdecr, hgone, -⟩ := h.decr_last hx rfl hp
          refine .inr ⟨fun hall => ?_, .inl (next_released hentry hdecr hgone)⟩
          have := (hall x hx hentry).1
          omega
        · obtain ⟨d₁, hdecr, hsame, hiters, hcells, h₁⟩ := h.decr_shared (.inr hp)
          obtain ⟨e₁, hcell⟩ := hcells (h.cell_detached hx)
          refine (h₁.next_linked hv hentry hdecr hcell hsame hiters).congr ⟨fun hall => ?_, ?_⟩
          · exact (hall x hx hentry).2
          · intro hlink y hy heq
            rw [hentry] at heq
            cases h.detached_inj hx hy (Option.some.inj heq)
            exact ⟨by omega, hlink⟩

theorem next_safe_iff (h : Counted d (standing p iter.entry)) (hv : iter.Valid) :
    NextSafe d iter ↔ LinkAlive d iter := by
  rcases h.next_ends hv with ⟨halive, d', iter', r, hnext, -, hmem⟩ | ⟨hdead, hbad⟩
  · exact iff_of_true ⟨d', iter', r, hnext, hmem⟩ halive
  · refine iff_of_false ?_ hdead
    rintro ⟨d', iter', r, hnext, hmem⟩
    rcases hbad with hnone | ⟨d'', iter'', e, hnext', -, hout⟩
    · cases hnone.symm.trans hnext
    · cases hnext.symm.trans hnext'
      exact hout (hmem e rfl)

theorem next_landed (h : Counted d (standing p iter.entry)) (hv : iter.Valid)
    {r : Option (DictEntry K V)} (hnext : dictIteratorNext d iter = some (d', iter', r)) :
    Landed p d iter d' iter' r := by
  rcases h.next_ends hv with ⟨-, d'', iter'', r'', hnext', hland, -⟩ |
    ⟨-, hnone | ⟨d'', iter'', e, hnext', hland, -⟩⟩
  · cases hnext.symm.trans hnext'
    exact hland
  · cases hnext.symm.trans hnone
  · cases hnext.symm.trans hnext'
    exact hland

/-- `dict_iterator_destroy` gives up the reference and reads nothing after it. -/
theorem destroyed (h : Counted d (standing p iter.entry)) :
    ∃ d', dictIteratorDestroy d iter = some d' ∧ Counted d' p ∧ SameCores d d' ∧
      d'.iterators = d.iterators - if iter.Started then 1 else 0 := by
  have hd : ∃ d₀ : Dict K V, (if ¬ (iter.idx = -1 ∧ iter.dtIdx = 0) then
      { d with iterators := d.iterators - 1 } else d) = d₀ ∧
      Counted d₀ (standing p iter.entry) ∧ SameCores d d₀ ∧
      d₀.iterators = d.iterators - if iter.Started then 1 else 0 := by
    by_cases hst : iter.Started
    · exact ⟨_, if_pos hst, h.withIterators _, ⟨rfl, rfl, rfl, rfl, rfl⟩, by rw [if_pos hst]⟩
    · exact ⟨d, if_neg hst, h, SameCores.refl d, by rw [if_neg hst, Int.sub_zero]⟩
  obtain ⟨d₀, hd₀, h₀, hsame, hiters⟩ := hd
  rw [dictIteratorDestroy]
  simp only [hd₀]
  cases hentry : iter.entry with
  | none =>
      rw [hentry, standing_none] at h₀
      exact ⟨d₀, rfl, h₀, hsame, hiters⟩
  | some a =>
      rw [hentry] at h₀
      have ha : a ∈ d₀.addrs := h₀.parked a (by rw [standing_self]; omega)
      by_cases hs : (∃ e ∈ d₀.all, e.addr = a) ∨ p a ≠ 0
      · obtain ⟨d₁, hdecr, hsame₁, hiters₁, -, h₁⟩ := h₀.decr_shared hs
        exact ⟨d₁, hdecr, h₁, hsame.trans hsame₁, hiters₁.trans hiters⟩
      · rw [not_or, not_not] at hs
        obtain ⟨x, hx, hxa⟩ := (mem_addrs.mp ha).resolve_left hs.1
        obtain ⟨d₁, hdecr, -, hsame₁, hiters₁, h₁⟩ := h₀.decr_last hx hxa hs.2
        exact ⟨d₁, hdecr, h₁, hsame.trans hsame₁, hiters₁.trans hiters⟩

end Counted

def startedCount (iters : List (Option DictIterator)) : Nat :=
  iters.countP fun x => x.any fun iter => decide iter.Started

/-- The references are those of the chains and of the open iterators. -/
structure Sound (s : DictSys K V) : Prop where
  counted : Counted s.d (parkedOn s.iters)
  valid : ∀ iter, some iter ∈ s.iters → iter.Valid
  iterators : s.d.iterators = startedCount s.iters

theorem sound_create : Sound ({} : DictSys K V) where
  counted := counted_create
  valid := fun iter h => by cases h
  iterators := rfl

theorem parkedOn_focus {iters : List (Option DictIterator)} {i : Nat} (hi : i < iters.length)
    (iter : DictIterator) :
    parkedOn (iters.set i (some iter)) = standing (parkedOn (iters.set i none)) iter.entry :=
  funext fun a => parkedOn_set hi iter a

theorem startedCount_set {iters : List (Option DictIterator)} {i : Nat} (hi : i < iters.length)
    (iter : DictIterator) :
    startedCount (iters.set i (some iter)) =
      startedCount (iters.set i none) + if iter.Started then 1 else 0 := by
  unfold startedCount
  rw [List.countP_set hi, List.countP_set hi]
  by_cases h : iter.Started
  · simp [h]
  · simp [h]

namespace Sound

variable {s s' : DictSys K V}

/-- Where no iterator is under way, none stands on an entry. -/
theorem parked (h : Sound s) (h0 : s.d.iterators = 0) (a : Nat) : parkedOn s.iters a = 0 := by
  have hcount : startedCount s.iters = 0 := by
    have := h.iterators
    omega
  refine List.countP_eq_zero.mpr fun x hx hparked => ?_
  cases x with
  | none => simp at hparked
  | some iter =>
      have hentry : iter.entry = some a := by simpa using hparked
      have hst := (h.valid iter hx).started (by rw [hentry]; exact Option.some_ne_none a)
      exact List.countP_eq_zero.mp hcount _ hx (by simpa using hst)

theorem withDict (h : Sound s) {d' : Dict K V}
    (hd : Counted d' (parkedOn s.iters) ∧ d'.iterators = s.d.iterators) :
    Sound { s with d := d' } where
  counted := hd.1
  valid := h.valid
  iterators := hd.2.trans h.iterators

theorem focus (h : Sound s) {i : Nat} {iter : DictIterator} (hi : s.iters[i]? = some (some iter)) :
    Counted s.d (standing (parkedOn (s.iters.set i none)) iter.entry) ∧ iter.Valid ∧
      s.d.iterators = startedCount (s.iters.set i none) + if iter.Started then 1 else 0 := by
  obtain ⟨hlt, hget⟩ := List.getElem?_eq_some_iff.mp hi
  have hset : s.iters.set i (some iter) = s.iters := by
    rw [← hget, List.set_getElem_self]
  refine ⟨?_, h.valid iter (List.mem_of_getElem? hi), ?_⟩
  · rw [← parkedOn_focus hlt, hset]
    exact h.counted
  · rw [h.iterators]
    conv_lhs => rw [← hset, startedCount_set hlt]
    push_cast
    split_ifs
    · rfl
    · rfl

theorem unfocus (h : Sound s) {i : Nat} (hi : i < s.iters.length) {d' : Dict K V}
    {iter' : DictIterator}
    (hd : Counted d' (standing (parkedOn (s.iters.set i none)) iter'.entry)) (hv : iter'.Valid)
    (hiters : d'.iterators = startedCount (s.iters.set i none) + if iter'.Started then 1 else 0) :
    Sound ⟨d', s.iters.set i (some iter')⟩ where
  counted := parkedOn_focus hi iter' ▸ hd
  valid := by
    intro iter hmem
    rcases List.mem_or_eq_of_mem_set hmem with hold | hnew
    · exact h.valid iter hold
    · cases hnew
      exact hv
  iterators := by
    rw [startedCount_set hi, hiters]
    push_cast
    split_ifs
    · rfl
    · rfl

theorem getIterator (h : Sound s) :
    Sound { s with iters := s.iters ++ [some dictGetIterator] } := by
  have hparked : parkedOn (s.iters ++ [some dictGetIterator]) = parkedOn s.iters := by
    funext a
    simp [parkedOn, dictGetIterator]
  have hstarted : startedCount (s.iters ++ [some dictGetIterator]) = startedCount s.iters := by
    simp [startedCount, dictGetIterator, DictIterator.Started]
  refine ⟨hparked ▸ h.counted, fun iter hmem => ?_, hstarted ▸ h.iterators⟩
  rcases List.mem_append.mp hmem with hold | hnew
  · exact h.valid iter hold
  · cases List.mem_singleton.mp hnew
    exact valid_fresh

theorem next (h : Sound s) {i : Nat} {iter iter' : DictIterator} {d' : Dict K V}
    {r : Option (DictEntry K V)} (hi : s.iters[i]? = some (some iter))
    (hnext : dictIteratorNext s.d iter = some (d', iter', r)) :
    Sound ⟨d', s.iters.set i (some iter')⟩ := by
  obtain ⟨hcounted, hv, hiters⟩ := h.focus hi
  have hland := hcounted.next_landed hv hnext
  refine h.unfocus (List.getElem?_eq_some_iff.mp hi).1 hland.counted hland.valid ?_
  rw [hland.iterators, hiters, if_pos hland.started]
  split_ifs
  · omega
  · omega

theorem destroy (h : Sound s) {i : Nat} {iter : DictIterator} {d' : Dict K V}
    (hi : s.iters[i]? = some (some iter)) (hdestroy : dictIteratorDestroy s.d iter = some d') :
    Sound ⟨d', s.iters.set i none⟩ := by
  obtain ⟨hcounted, hv, hiters⟩ := h.focus hi
  obtain ⟨d'', hdestroy', hcounted', -, hiters'⟩ := hcounted.destroyed
  cases hdestroy.symm.trans hdestroy'
  refine ⟨hcounted', fun iter₁ hmem => ?_, ?_⟩
  · rcases List.mem_or_eq_of_mem_set hmem with hold | hnew
    · exact h.valid iter₁ hold
    · cases hnew
  · simp only
    rw [hiters', hiters]
    omega

variable [DecidableEq K] {o : DictOpts K V}

theorem step {op : DictOp K V} {out : DictOut K V} (h : Sound s)
    (hstep : s.step o op = some (s', out)) : Sound s' := by
  cases op with
  | add key val =>
      obtain ⟨⟨d', rs⟩, hadd, hs⟩ := Option.bind_eq_some_iff.mp hstep
      cases hs
      exact h.withDict (h.counted.added h.parked hadd)
  | replace key val =>
      obtain ⟨⟨d', rs⟩, hreplace, hs⟩ := Option.bind_eq_some_iff.mp hstep
      cases hs
      exact h.withDict (h.counted.replaced h.parked hreplace)
  | find key =>
      obtain ⟨⟨d', r⟩, hfind, hs⟩ := Option.bind_eq_some_iff.mp hstep
      cases hs
      exact h.withDict (h.counted.found h.parked hfind)
  | del key =>
      obtain ⟨⟨d', rs⟩, hdel, hs⟩ := Option.bind_eq_some_iff.mp hstep
      cases hs
      exact h.withDict (h.counted.deleted h.parked hdel)
  | delNoFree key =>
      obtain ⟨⟨d', rs⟩, hdel, hs⟩ := Option.bind_eq_some_iff.mp hstep
      cases hs
      exact h.withDict (h.counted.deleted h.parked hdel)
  | clear =>
      cases hstep
      exact h.withDict ⟨h.counted.cleared, rfl⟩
  | expand size =>
      obtain ⟨⟨d', rs⟩, hexp, hs⟩ := Option.bind_eq_some_iff.mp hstep
      cases hs
      exact h.withDict (h.counted.expanded (dictExpand_cases hexp))
  | getIterator =>
      cases hstep
      exact h.getIterator
  | next i =>
      simp only [DictSys.step] at hstep
      split at hstep
      next iter hi =>
        obtain ⟨⟨d', iter', r⟩, hnext, hs⟩ := Option.bind_eq_some_iff.mp hstep
        cases hs
        exact h.next hi hnext
      next => cases hstep
  | destroy i =>
      simp only [DictSys.step] at hstep
      split at hstep
      next iter hi =>
        obtain ⟨d', hdestroy, hs⟩ := Option.bind_eq_some_iff.mp hstep
        cases hs
        exact h.destroy hi hdestroy
      next => cases hstep
  | used =>
      cases hstep
      exact h

theorem run {ops : List (DictOp K V)} {outs : List (DictOut K V)} (h : Sound s)
    (hrun : Machine.run (DictSys.step o) s ops = some (s', outs)) : Sound s' :=
  Machine.invariant_run Sound (G := fun _ _ => True) (fun hs _ hstep => hs.step hstep) h
    (Machine.along_of_forall (L := fun _ => True) (fun _ _ _ => trivial) fun _ _ => trivial) hrun

end Sound

/-- A call on an open iterator reads no released entry and returns no deleted one. -/
def SafeStep (s : DictSys K V) : DictOp K V → Prop
  | .next i => ∀ iter, s.iters[i]? = some (some iter) → NextSafe s.d iter
  | .destroy i => ∀ iter, s.iters[i]? = some (some iter) → (dictIteratorDestroy s.d iter).isSome
  | _ => True

/-- An iterator that is moved has a live link to follow. -/
def LinkStep (s : DictSys K V) : DictOp K V → Prop
  | .next i => ∀ iter, s.iters[i]? = some (some iter) → LinkAlive s.d iter
  | _ => True

theorem Sound.safe_iff {s : DictSys K V} (h : Sound s) (op : DictOp K V) :
    SafeStep s op ↔ LinkStep s op := by
  cases op with
  | next i =>
      refine forall_congr' fun iter => forall_congr' fun hi => ?_
      obtain ⟨hcounted, hv, -⟩ := h.focus hi
      exact hcounted.next_safe_iff hv
  | destroy i =>
      refine iff_of_true (fun iter hi => ?_) trivial
      obtain ⟨hcounted, -, -⟩ := h.focus hi
      obtain ⟨d', hdestroy, -⟩ := hcounted.destroyed
      rw [hdestroy]
      rfl
  | add _ _ | replace _ _ | find _ | del _ | delNoFree _ | clear | expand _ | getIterator | used =>
      exact Iff.rfl

/-- In every run from a reachable dict, the iterators are safe exactly as long as none is moved
on from a deleted entry that it alone holds or whose link leads to another deleted one. -/
theorem dictIterator_safe_iff [DecidableEq K] (o : DictOpts K V) {ops : List (DictOp K V)}
    {s : DictSys K V} {outs : List (DictOut K V)}
    (hreach : Machine.run (DictSys.step o) {} ops = some (s, outs)) (more : List (DictOp K V)) :
    Machine.Along (DictSys.step o) SafeStep s more ↔
      Machine.Along (DictSys.step o) LinkStep s more :=
  Machine.along_iff_of_invariant Sound (fun hs _ hstep => hs.step hstep)
    (fun hs => hs.safe_iff _) (sound_create.run hreach)

/-- Two iterators on one entry: the second can go on from it after it was deleted. -/
theorem dictIterator_safe_shared :
    Machine.Along (DictSys.step lastDigit) SafeStep ⟨dictCreate, []⟩
        [.add 1 1, .getIterator, .getIterator, .next 0, .next 1, .del 1, .next 1] ↔
      Machine.Along (DictSys.step lastDigit) LinkStep ⟨dictCreate, []⟩
        [.add 1 1, .getIterator, .getIterator, .next 0, .next 1, .del 1, .next 1] :=
  dictIterator_safe_iff lastDigit
    (show Machine.run (DictSys.step lastDigit) {} [] = some (⟨dictCreate, []⟩, []) from rfl) _

/-- The iterator releases the entry it stands on, which was deleted, and then reads its link. -/
theorem dictIterator_del_current :
    ¬ Machine.Along (DictSys.step lastDigit) SafeStep {}
      [.add 1 1, .getIterator, .next 0, .del 1, .next 0] := by
  intro h
  have hlast := ((((h.2 _ _ rfl).2 _ _ rfl).2 _ _ rfl).2 _ _ rfl).1
  obtain ⟨d', iter', r, hnext, -⟩ := hlast _ rfl
  cases hnext

end ThrSocket
