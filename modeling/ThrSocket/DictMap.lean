import ThrSocket.Lib.KeyedList
import ThrSocket.Lib.Machine
import ThrSocket.DictOps
import ThrSocket.DictIter

/-!
The dict as a finite map. A run is any sequence of calls on one dict and on the
iterators opened on it; what the dict is for is said by `MapSpec`, on finite
maps from the classes of equal keys.
-/

namespace ThrSocket

open KeyedList

structure DictSys (K V : Type) where
  d : Dict K V := dictCreate
  /-- the iterators opened so far; a destroyed one is `none` -/
  iters : List (Option DictIterator) := []

inductive DictOp (K V : Type)
  | add (key : K) (val : V)
  | replace (key : K) (val : V)
  | find (key : K)
  | del (key : K)
  | delNoFree (key : K)
  | clear
  | expand (size : Nat)
  | getIterator
  | next (i : Nat)
  | destroy (i : Nat)
  | used

inductive DictOut (K V : Type)
  | rs (n : Int)
  | entry (e : Option (K × V))
  | iterator (i : Nat)
  | used (n : Nat)
  | done
deriving DecidableEq

variable {K V : Type}

def DictEntry.pair (e : DictEntry K V) : K × V := (e.key, e.value)

namespace DictSys

variable [DecidableEq K] (o : DictOpts K V)

def step (s : DictSys K V) : DictOp K V → Option (DictSys K V × DictOut K V)
  | .add key val => do
      let (d, rs) ← dictAdd o s.d key val
      some ({ s with d := d }, .rs rs)
  | .replace key val => do
      let (d, rs) ← dictReplace o s.d key val
      some ({ s with d := d }, .rs rs)
  | .find key => do
      let (d, e) ← dictFind o s.d key
      some ({ s with d := d }, .entry (e.map (·.pair)))
  | .del key => do
      let (d, rs) ← dictDel o s.d key
      some ({ s with d := d }, .rs rs)
  | .delNoFree key => do
      let (d, rs) ← dictDelNoFree o s.d key
      some ({ s with d := d }, .rs rs)
  | .clear => some ({ s with d := dictClear s.d }, .done)
  | .expand size => do
      let (d, rs) ← dictExpand s.d size
      some ({ s with d := d }, .rs rs)
  | .getIterator =>
      some ({ s with iters := s.iters ++ [some dictGetIterator] }, .iterator s.iters.length)
  | .next i =>
      match s.iters[i]? with
      | some (some iter) => do
          let (d, iter, e) ← dictIteratorNext s.d iter
          some (⟨d, s.iters.set i (some iter)⟩, .entry (e.map (·.pair)))
      | _ => none
  | .destroy i =>
      match s.iters[i]? with
      | some (some iter) => do
          let d ← dictIteratorDestroy s.d iter
          some (⟨d, s.iters.set i none⟩, .done)
      | _ => none
  | .used => some (s, .used s.d.dictUsed)

/-- What the callers promise: nothing is deleted while an iterator is open, an
iterator is used between its opening and its destruction, and the sizes asked
for stay below the doubling of `unsigned int`. -/
def Allowed (s : DictSys K V) : DictOp K V → Prop
  | .del _ | .delNoFree _ | .clear => ∀ iter ∈ s.iters, iter = none
  | .next i | .destroy i => (s.iters[i]?.join).isSome
  | .expand size => size ≤ 2 ^ 30
  | _ => True

instance (s : DictSys K V) : (op : DictOp K V) → Decidable (s.Allowed op)
  | .del _ | .delNoFree _ | .clear =>
      inferInstanceAs (Decidable (∀ iter ∈ s.iters, iter = none))
  | .next i | .destroy i => inferInstanceAs (Decidable ((s.iters[i]?.join).isSome))
  | .expand size => inferInstanceAs (Decidable (size ≤ 2 ^ 30))
  | .add _ _ | .replace _ _ | .find _ | .getIterator | .used => isTrue trivial

/-- A call on a dict of at most 2^29 entries. -/
def Guarded (s : DictSys K V) (op : DictOp K V) : Prop :=
  s.d.all.length ≤ 2 ^ 29 ∧ s.Allowed op

instance (s : DictSys K V) (op : DictOp K V) : Decidable (s.Guarded op) :=
  inferInstanceAs (Decidable (_ ∧ _))

end DictSys

section

variable [DecidableEq K] {o : DictOpts K V}

/-- Keys up to the comparison of the dict. -/
def DictOpts.Lawful.setoid (ho : o.Lawful) : Setoid K := ⟨_, ho.equiv⟩

abbrev KeyClass (ho : o.Lawful) : Type := Quotient ho.setoid

def keyClass (ho : o.Lawful) (key : K) : KeyClass ho := Quotient.mk ho.setoid key

theorem keyClass_eq (ho : o.Lawful) {a b : K} :
    keyClass ho a = keyClass ho b ↔ o.compare a b = true :=
  Quotient.eq (r := ho.setoid)

instance (ho : o.Lawful) : DecidableEq (KeyClass ho) := fun a b =>
  Quotient.recOnSubsingleton₂ a b fun x y =>
    decidable_of_iff _ (keyClass_eq ho (a := x) (b := y)).symm

abbrev AbsMap (ho : o.Lawful) : Type := Finmap fun _ : KeyClass ho => V

/-- The calls on a finite map: what each returns and leaves behind. -/
def MapSpec (ho : o.Lawful) (m : AbsMap ho) : DictOp K V → DictOut K V → AbsMap ho → Prop
  | .add key val, out, m' =>
      if keyClass ho key ∈ m then out = .rs (-1) ∧ m' = m
      else out = .rs 1 ∧ m' = m.insert (keyClass ho key) (o.setValue val)
  | .replace key val, out, m' =>
      out = .rs (if keyClass ho key ∈ m then 0 else 1) ∧
        m' = m.insert (keyClass ho key) (o.setValue val)
  | .find key, out, m' =>
      m' = m ∧ ∃ e : Option (K × V), out = .entry e ∧ e.map (·.2) = m.lookup (keyClass ho key) ∧
        ∀ p, e = some p → keyClass ho p.1 = keyClass ho key
  | .del key, out, m' | .delNoFree key, out, m' =>
      if keyClass ho key ∈ m then out = .rs 1 ∧ m' = m.erase (keyClass ho key)
      else out = .rs 0 ∧ m' = m
  | .clear, out, m' => out = .done ∧ m' = ∅
  | .expand _, out, m' => m' = m ∧ ∃ rs, out = .rs rs
  | .getIterator, out, m' => m' = m ∧ ∃ i, out = .iterator i
  | .next _, out, m' =>
      m' = m ∧ ∃ e : Option (K × V), out = .entry e ∧
        ∀ p, e = some p → m.lookup (keyClass ho p.1) = some p.2
  | .destroy _, out, m' => out = .done ∧ m' = m
  | .used, out, m' => out = .used m.keys.card ∧ m' = m

/-- The dict holds the map, and its iterators hold references to its entries. -/
structure Refines (ho : o.Lawful) (s : DictSys K V) (m : AbsMap ho) : Prop where
  inv : DictInv o s.d
  lists : Lists (fun e : DictEntry K V => keyClass ho e.key) (fun e => e.value) s.d.all m
  ref : RefInv s.d (parkedOn s.iters) none
  idx : ∀ iter, some iter ∈ s.iters → -1 ≤ iter.idx
  bound : s.d.all.length ≤ 2 ^ 29 + 1

theorem refines_create (ho : o.Lawful) : Refines ho ({} : DictSys K V) ∅ where
  inv := dictInv_create o
  lists := .nil
  ref := ⟨fun e he => (by cases he), fun a ha => by simp [parkedOn] at ha⟩
  idx := fun iter hi => by cases hi
  bound := Nat.zero_le _

namespace Refines

variable {ho : o.Lawful} {s : DictSys K V} {m : AbsMap ho}

theorem holds_iff (h : Refines ho s m) (key : K) : s.d.Holds o key ↔ keyClass ho key ∈ m := by
  rw [h.lists.mem_iff]
  simp only [keyClass_eq]
  rfl

theorem dictUsed (h : Refines ho s m) : s.d.dictUsed = m.keys.card := by
  have hlen := s.d.length_all
  have hb := h.bound
  have h0 := h.inv.dt0.used
  have h1 := h.inv.dt1.used
  rw [h.lists.card_keys, Dict.dictUsed, u32_of_lt (by omega)]
  omega

theorem of_perm (h : Refines ho s m) {d' : Dict K V} (inv : DictInv o d')
    (perm : d'.all.Perm s.d.all) : Refines ho { s with d := d' } m where
  inv := inv
  lists := h.lists.perm perm.symm
  ref := by
    constructor
    · intro e he
      exact h.ref.ref e (perm.mem_iff.mp he)
    · intro a ha
      obtain ⟨e, he, rfl⟩ := h.ref.parked a ha
      exact ⟨e, perm.mem_iff.mpr he, rfl⟩
  idx := h.idx
  bound := perm.length_eq ▸ h.bound

theorem of_insert (h : Refines ho s m) (hb : s.d.all.length ≤ 2 ^ 29) {d' : Dict K V}
    (inv : DictInv o d') {key : K} {val : V} (new : ¬ s.d.Holds o key) {e : DictEntry K V}
    (key_eq : e.key = o.setKey key) (value_eq : e.value = o.setValue val) (ref_eq : e.ref = 1)
    (perm : d'.all.Perm (e :: s.d.all)) :
    Refines ho { s with d := d' } (m.insert (keyClass ho key) (o.setValue val)) := by
  have hclass : keyClass ho e.key = keyClass ho key := by
    rw [key_eq, keyClass_eq]
    exact ho.dup key
  have hnew : ∀ e' ∈ s.d.all, keyClass ho e'.key ≠ keyClass ho e.key := by
    intro e' he' heq
    exact new ⟨e', he', (keyClass_eq ho).mp (heq.trans hclass)⟩
  have haddrs := (perm.map (·.addr)).nodup_iff.mp inv.addrs
  -- no iterator can stand on an address that was just given out
  have hnone : parkedOn s.iters e.addr = 0 := by
    by_contra hpos
    obtain ⟨e', he', heq⟩ := h.ref.parked e.addr (.inl (Nat.pos_of_ne_zero hpos))
    exact (List.nodup_cons.mp haddrs).1 (List.mem_map.mpr ⟨e', he', heq⟩)
  have hlists := h.lists.insert hnew
  rw [hclass, value_eq] at hlists
  refine ⟨inv, hlists.perm perm.symm, ⟨?_, ?_⟩, h.idx, ?_⟩
  · intro e' he'
    rcases List.mem_cons.mp (perm.mem_iff.mp he') with rfl | hmem
    · rw [ref_eq, hnone]
      rfl
    · exact h.ref.ref e' hmem
  · intro a ha
    obtain ⟨e', he', rfl⟩ := h.ref.parked a ha
    exact ⟨e', perm.mem_iff.mpr (List.mem_cons_of_mem _ he'), rfl⟩
  · rw [perm.length_eq, List.length_cons]
    omega

theorem of_store (h : Refines ho s m) {d' : Dict K V} (inv : DictInv o d') {key : K} {val : V}
    {e : DictEntry K V} {rest : List (DictEntry K V)} (eq : o.compare e.key key = true)
    (perm : s.d.all.Perm (e :: rest))
    (perm' : d'.all.Perm ({ e with value := o.setValue val } :: rest)) :
    Refines ho { s with d := d' } (m.insert (keyClass ho key) (o.setValue val)) := by
  have hclass : keyClass ho e.key = keyClass ho key := (keyClass_eq ho).mpr eq
  have hlists : Lists (fun e : DictEntry K V => keyClass ho e.key) (fun e => e.value)
      ({ e with value := o.setValue val } :: rest)
      (m.insert (keyClass ho e.key) (o.setValue val)) := (h.lists.perm perm).replace rfl
  rw [hclass] at hlists
  refine ⟨inv, hlists.perm perm'.symm, ⟨?_, ?_⟩, h.idx, ?_⟩
  · intro e' he'
    rcases List.mem_cons.mp (perm'.mem_iff.mp he') with rfl | hmem
    · exact h.ref.ref e (perm.mem_iff.mpr List.mem_cons_self)
    · exact h.ref.ref e' (perm.mem_iff.mpr (List.mem_cons_of_mem _ hmem))
  · intro a ha
    obtain ⟨e', he', rfl⟩ := h.ref.parked a ha
    rcases List.mem_cons.mp (perm.mem_iff.mp he') with rfl | hmem
    · exact ⟨_, perm'.mem_iff.mpr List.mem_cons_self, rfl⟩
    · exact ⟨e', perm'.mem_iff.mpr (List.mem_cons_of_mem _ hmem), rfl⟩
  · have hlen := perm.length_eq
    have hlen' := perm'.length_eq
    have hb := h.bound
    simp only [List.length_cons] at hlen hlen' ⊢
    omega

theorem of_remove (h : Refines ho s m) (hi : ∀ iter ∈ s.iters, iter = none) {d' : Dict K V}
    (inv : DictInv o d') {key : K} {e : DictEntry K V} (eq : o.compare e.key key = true)
    (perm : s.d.all.Perm (e :: d'.all)) :
    Refines ho { s with d := d' } (m.erase (keyClass ho key)) := by
  have hclass : keyClass ho e.key = keyClass ho key := (keyClass_eq ho).mpr eq
  have hlists := (h.lists.perm perm).erase
  rw [hclass] at hlists
  refine ⟨inv, hlists, ⟨?_, ?_⟩, h.idx, ?_⟩
  · intro e' he'
    exact h.ref.ref e' (perm.mem_iff.mpr (List.mem_cons_of_mem _ he'))
  · rintro a (ha | ha)
    · rw [parkedOn_closed hi] at ha
      omega
    · cases ha
  · have hlen := perm.length_eq
    have hb := h.bound
    rw [List.length_cons] at hlen
    simp only
    omega

theorem of_clear (h : Refines ho s m) (hi : ∀ iter ∈ s.iters, iter = none) :
    Refines ho { s with d := dictClear s.d } ∅ where
  inv := dictClear_spec o s.d
  lists := .nil
  ref := by
    refine ⟨(fun e he => by cases he), ?_⟩
    rintro a (ha | ha)
    · rw [parkedOn_closed hi] at ha
      omega
    · cases ha
  idx := h.idx
  bound := Nat.zero_le _

/-- Other reference counts, and an iterator that has moved or is gone. -/
theorem of_refs (h : Refines ho s m) {d' : Dict K V} (inv : DictInv o d') (refs : RefsOnly s.d d')
    {iters : List (Option DictIterator)} (ref : RefInv d' (parkedOn iters) none)
    (idx : ∀ iter, some iter ∈ iters → -1 ≤ iter.idx) : Refines ho ⟨d', iters⟩ m := by
  obtain ⟨⟨g, hall, hg⟩, _, _⟩ := refs
  refine ⟨inv, ?_, ref, idx, ?_⟩
  · simp only [hall]
    refine h.lists.of_map (fun e _ => ?_) fun e _ => (hg e).2.1
    rw [(hg e).1]
  · simp only [hall, List.length_map]
    exact h.bound

theorem of_added (h : Refines ho s m) (hb : s.d.all.length ≤ 2 ^ 29) {d' : Dict K V}
    (inv : DictInv o d') {key : K} {val : V} {rs : Int} (hres : Added o s.d key val d' rs) :
    ∃ m', MapSpec ho m (.add key val) (.rs rs) m' ∧ Refines ho { s with d := d' } m' := by
  cases hres with
  | present holds perm =>
      refine ⟨m, ?_, h.of_perm inv perm⟩
      rw [MapSpec, if_pos ((h.holds_iff key).mp holds)]
      exact ⟨rfl, rfl⟩
  | inserted new e key_eq value_eq ref_eq perm =>
      refine ⟨_, ?_, h.of_insert hb inv new key_eq value_eq ref_eq perm⟩
      rw [MapSpec, if_neg ((h.holds_iff key).not.mp new)]
      exact ⟨rfl, rfl⟩

theorem of_replaced (h : Refines ho s m) (hb : s.d.all.length ≤ 2 ^ 29) {d' : Dict K V}
    (inv : DictInv o d') {key : K} {val : V} {rs : Int} (hres : Replaced o s.d key val d' rs) :
    ∃ m', MapSpec ho m (.replace key val) (.rs rs) m' ∧ Refines ho { s with d := d' } m' := by
  cases hres with
  | stored e rest eq perm perm' =>
      have hmem : keyClass ho key ∈ m :=
        (h.holds_iff key).mp ⟨e, perm.mem_iff.mpr List.mem_cons_self, eq⟩
      refine ⟨_, ?_, h.of_store inv eq perm perm'⟩
      rw [MapSpec, if_pos hmem]
      exact ⟨rfl, rfl⟩
  | inserted new e key_eq value_eq ref_eq perm =>
      refine ⟨_, ?_, h.of_insert hb inv new key_eq value_eq ref_eq perm⟩
      rw [MapSpec, if_neg ((h.holds_iff key).not.mp new)]
      exact ⟨rfl, rfl⟩

theorem of_deleted (h : Refines ho s m) (hi : ∀ iter ∈ s.iters, iter = none) {d' : Dict K V}
    (inv : DictInv o d') {key : K} {rs : Int} (hres : Deleted o s.d key d' rs) :
    ∃ m', MapSpec ho m (.del key) (.rs rs) m' ∧ Refines ho { s with d := d' } m' := by
  cases hres with
  | absent no perm =>
      refine ⟨m, ?_, h.of_perm inv perm⟩
      rw [MapSpec, if_neg ((h.holds_iff key).not.mp no)]
      exact ⟨rfl, rfl⟩
  | removed e eq perm =>
      have hmem : keyClass ho key ∈ m :=
        (h.holds_iff key).mp ⟨e, perm.mem_iff.mpr List.mem_cons_self, eq⟩
      refine ⟨_, ?_, h.of_remove hi inv eq perm⟩
      rw [MapSpec, if_pos hmem]
      exact ⟨rfl, rfl⟩

/-- What a search returns is what the map has under the key. -/
theorem found (h : Refines ho s m) {key : K} {r : Option (DictEntry K V)}
    (hr : (∃ e, r = some e ∧ e ∈ s.d.all ∧ o.compare e.key key = true) ∨
      (r = none ∧ ¬ s.d.Holds o key)) :
    MapSpec ho m (.find key) (.entry (r.map (·.pair))) m := by
  refine ⟨rfl, _, rfl, ?_⟩
  obtain ⟨e, rfl, hmem, heq⟩ | ⟨rfl, hno⟩ := hr
  · have hclass : keyClass ho e.key = keyClass ho key := (keyClass_eq ho).mpr heq
    refine ⟨?_, fun p hp => by cases hp; exact hclass⟩
    rw [← hclass, h.lists.lookup hmem]
    rfl
  · refine ⟨?_, fun p hp => by cases hp⟩
    rw [Finmap.lookup_eq_none.mpr ((h.holds_iff key).not.mp hno)]
    rfl

theorem getIterator (h : Refines ho s m) :
    Refines ho { s with iters := s.iters ++ [some dictGetIterator] } m := by
  refine ⟨h.inv, h.lists, ?_, ?_, h.bound⟩
  · have hsame : parkedOn (s.iters ++ [some dictGetIterator]) = parkedOn s.iters := by
      funext a
      simp [parkedOn, dictGetIterator]
    rw [hsame]
    exact h.ref
  · intro iter hi
    rcases List.mem_append.mp hi with hi | hi
    · exact h.idx iter hi
    · cases List.mem_singleton.mp hi
      decide

/-- An iterator steps to an entry of the map or to the end. -/
theorem next (h : Refines ho s m) {i : Nat} {iter : DictIterator}
    (hi : s.iters[i]? = some (some iter)) :
    ∃ d' iter' r, dictIteratorNext s.d iter = some (d', iter', r) ∧
      MapSpec ho m (.next i) (.entry (r.map (·.pair))) m ∧
      Refines ho ⟨d', s.iters.set i (some iter')⟩ m := by
  obtain ⟨hlt, _⟩ := List.getElem?_eq_some_iff.mp hi
  have hidx := h.idx iter (List.mem_of_getElem? hi)
  obtain ⟨d', iter', r, hnext, inv, refs, ref, hidx', hmem⟩ :=
    dictIteratorNext_spec h.inv (h.ref.focus hi) hidx
  have h' : Refines ho ⟨d', s.iters.set i (some iter')⟩ m := by
    refine h.of_refs inv refs (ref.unfocus hlt) fun iter₁ hmem₁ => ?_
    rcases List.mem_or_eq_of_mem_set hmem₁ with hold | hnew
    · exact h.idx iter₁ hold
    · cases hnew
      exact hidx'
  refine ⟨d', iter', r, hnext, ⟨rfl, _, rfl, ?_⟩, h'⟩
  intro p hp
  obtain ⟨e, rfl, rfl⟩ := Option.map_eq_some_iff.mp hp
  exact h'.lists.lookup (hmem e rfl)

theorem destroy (h : Refines ho s m) {i : Nat} {iter : DictIterator}
    (hi : s.iters[i]? = some (some iter)) :
    ∃ d', dictIteratorDestroy s.d iter = some d' ∧ Refines ho ⟨d', s.iters.set i none⟩ m := by
  obtain ⟨d', hdestroy, inv, refs, ref⟩ := dictIteratorDestroy_spec h.inv (h.ref.focus hi)
  refine ⟨d', hdestroy, h.of_refs inv refs ref fun iter₁ hmem₁ => ?_⟩
  rcases List.mem_or_eq_of_mem_set hmem₁ with hold | hnew
  · exact h.idx iter₁ hold
  · cases hnew

end Refines

/-- One call: it is defined, and the map agrees with its result. -/
theorem DictSys.step_refines (ho : o.Lawful) {s : DictSys K V} {m : AbsMap ho} {op : DictOp K V}
    (h : Refines ho s m) (hg : s.Guarded op) :
    ∃ s' out m', s.step o op = some (s', out) ∧ MapSpec ho m op out m' ∧ Refines ho s' m' := by
  obtain ⟨hb, hallowed⟩ := hg
  cases op with
  | add key val =>
      obtain ⟨d', rs, hadd, inv, hres⟩ := dictAdd_spec ho h.inv hb key val
      obtain ⟨m', hspec, h'⟩ := h.of_added hb inv hres
      refine ⟨{ s with d := d' }, .rs rs, m', ?_, hspec, h'⟩
      simp only [DictSys.step, hadd, Option.bind_eq_bind, Option.bind_some]
  | replace key val =>
      obtain ⟨d', rs, hrep, inv, hres⟩ := dictReplace_spec ho h.inv hb key val
      obtain ⟨m', hspec, h'⟩ := h.of_replaced hb inv hres
      refine ⟨{ s with d := d' }, .rs rs, m', ?_, hspec, h'⟩
      simp only [DictSys.step, hrep, Option.bind_eq_bind, Option.bind_some]
  | find key =>
      obtain ⟨d', r, hfind, inv, hre, hr⟩ := dictFind_spec ho h.inv (by omega) key
      have h' := h.of_perm inv hre.perm
      refine ⟨{ s with d := d' }, .entry (r.map (·.pair)), m, ?_, h'.found hr, h'⟩
      simp only [DictSys.step, hfind, Option.bind_eq_bind, Option.bind_some]
  | del key =>
      obtain ⟨d', rs, hdel, inv, hres⟩ := dictDelInternal_spec ho h.inv (by omega) key
      obtain ⟨m', hspec, h'⟩ := h.of_deleted hallowed inv hres
      refine ⟨{ s with d := d' }, .rs rs, m', ?_, hspec, h'⟩
      simp only [DictSys.step, dictDel, hdel, Option.bind_eq_bind, Option.bind_some]
  | delNoFree key =>
      obtain ⟨d', rs, hdel, inv, hres⟩ := dictDelInternal_spec ho h.inv (by omega) key
      obtain ⟨m', hspec, h'⟩ := h.of_deleted hallowed inv hres
      refine ⟨{ s with d := d' }, .rs rs, m', ?_, hspec, h'⟩
      simp only [DictSys.step, dictDelNoFree, hdel, Option.bind_eq_bind, Option.bind_some]
  | clear => exact ⟨_, _, ∅, rfl, ⟨rfl, rfl⟩, h.of_clear hallowed⟩
  | expand size =>
      obtain ⟨d', rs, hexp, inv, hre, _⟩ := dictExpand_spec h.inv _ hallowed
      refine ⟨{ s with d := d' }, .rs rs, m, ?_, ⟨rfl, rs, rfl⟩, h.of_perm inv hre.perm⟩
      simp only [DictSys.step, hexp, Option.bind_eq_bind, Option.bind_some]
  | getIterator => exact ⟨_, _, m, rfl, ⟨rfl, _, rfl⟩, h.getIterator⟩
  | next i =>
      obtain ⟨iter, hi⟩ := Option.isSome_iff_exists.mp hallowed
      replace hi := Option.join_eq_some_iff.mp hi
      obtain ⟨d', iter', r, hnext, hspec, h'⟩ := h.next hi
      refine ⟨⟨d', s.iters.set i (some iter')⟩, .entry (r.map (·.pair)), m, ?_, hspec, h'⟩
      simp only [DictSys.step, hi, hnext, Option.bind_eq_bind, Option.bind_some]
  | destroy i =>
      obtain ⟨iter, hi⟩ := Option.isSome_iff_exists.mp hallowed
      replace hi := Option.join_eq_some_iff.mp hi
      obtain ⟨d', hdestroy, h'⟩ := h.destroy hi
      refine ⟨⟨d', s.iters.set i none⟩, .done, m, ?_, ⟨rfl, rfl⟩, h'⟩
      simp only [DictSys.step, hi, hdestroy, Option.bind_eq_bind, Option.bind_some]
  | used => exact ⟨s, _, m, rfl, ⟨congrArg _ h.dictUsed, rfl⟩, h⟩

/-- Every run of calls on a dict of at most 2^29 entries, with nothing deleted
while an iterator is open, is a run of a finite map. -/
theorem dict_refines_map (ho : o.Lawful) (ops : List (DictOp K V))
    (hg : Machine.Along (DictSys.step o) DictSys.Guarded {} ops) :
    ∃ s outs m, Machine.run (DictSys.step o) {} ops = some (s, outs) ∧
      Machine.SpecRun (MapSpec ho) ∅ ops outs m ∧ s.d.dictUsed = m.keys.card ∧
      Lists (fun e : DictEntry K V => keyClass ho e.key) (fun e => e.value) s.d.all m := by
  obtain ⟨s, outs, m, hrun, hspec, h⟩ :=
    Machine.run_total_refines (MapSpec ho) (R := Refines ho) (G := DictSys.Guarded)
      (fun h hg => DictSys.step_refines ho h hg) (refines_create ho) hg
  exact ⟨s, outs, m, hrun, hspec, h.dictUsed, h.lists⟩

end

def lastDigit : DictOpts Nat Nat where
  hash k := if k % 2 = 0 then 8 else UInt32.ofNat (k % 10)
  keyCompare := some fun a b => a % 10 = b % 10

theorem lastDigit_lawful : lastDigit.Lawful where
  equiv := by
    simp only [DictOpts.compare, lastDigit, decide_eq_true_eq]
    exact ⟨fun _ => rfl, Eq.symm, Eq.trans⟩
  hash := by
    intro a b h
    simp only [DictOpts.compare, lastDigit, decide_eq_true_eq] at h ⊢
    rw [h, show a % 2 = b % 2 by omega]
  dup k := by simp [DictOpts.compare, DictOpts.setKey, lastDigit]

/-- Ten keys, so that the ninth begins a rehash, an iterator, and a deletion after it. -/
def lastDigitCalls : List (DictOp Nat Nat) :=
  (List.range 10).map (fun k => .add k k) ++
    [.getIterator, .next 0, .replace 13 5, .next 0, .destroy 0, .find 23, .del 3, .find 23, .used]

theorem dict_refines_map_lastDigit :
    ∃ s outs m, Machine.run (DictSys.step lastDigit) {} lastDigitCalls = some (s, outs) ∧
      Machine.SpecRun (MapSpec lastDigit_lawful) ∅ lastDigitCalls outs m ∧
      s.d.dictUsed = m.keys.card ∧
      Lists (fun e : DictEntry Nat Nat => keyClass lastDigit_lawful e.key) (fun e => e.value)
        s.d.all m :=
  dict_refines_map lastDigit_lawful lastDigitCalls (by decide)

end ThrSocket
