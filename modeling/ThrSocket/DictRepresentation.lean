import ThrSocket.DictMap

/-!
The representation of the dict in every state that its calls can reach, with
`dict_rehash` and `dict_expand` called at any time. The scan of `dict_rehash` has
no bound of its own: what ends it is a counter, the buckets that have been moved
and where new entries go.
-/

namespace ThrSocket

open KeyedList

variable {K V : Type}

/-- The calls of dict.h: those of a map, and `dict_rehash` of some buckets. -/
inductive DictSysCall (K V : Type)
  | op (op : DictOp K V)
  | rehash (n : Nat)

namespace DictSys

variable [DecidableEq K] (o : DictOpts K V)

def callStep (s : DictSys K V) : DictSysCall K V → Option (DictSys K V × DictOut K V)
  | .op op => s.step o op
  | .rehash n => do
      let (d, rs) ← dictRehash o n s.d
      some ({ s with d := d }, .rs rs)

/-- At most 2^29 entries, sizes of at most 2^30, and no deletion under an iterator. -/
def CallGuarded (s : DictSys K V) : DictSysCall K V → Prop
  | .op op => s.Guarded op
  | .rehash _ => True

instance (s : DictSys K V) : (call : DictSysCall K V) → Decidable (s.CallGuarded call)
  | .op op => inferInstanceAs (Decidable (s.Guarded op))
  | .rehash _ => isTrue trivial

end DictSys

/-- A table that is reset, or allocated with every entry in the bucket of its key. -/
structure TableRep (o : DictOpts K V) (t : DictTable K V) : Prop where
  size : t = {} ∨ ∃ j, t.size = 2 ^ j ∧ t.mask = t.size - 1 ∧ t.entries.length = t.size
  index : ∀ i chain, t.entries[i]? = some chain →
    ∀ e ∈ chain, (o.hash e.key).toNat &&& t.mask = i
  used : t.used = t.entries.flatten.length

/-- The representation invariant. -/
structure DictRep [DecidableEq K] (o : DictOpts K V) (d : Dict K V) : Prop where
  dt0 : TableRep o d.dt0
  dt1 : TableRep o d.dt1
  keys : d.all.Pairwise fun e e' => o.compare e.key e'.key = false
  idle : d.rehashidx = none → d.dt1 = {}
  moved : ∀ r, d.rehashidx = some r → EmptyBelow d.dt0.entries r
  scan : ∀ r, d.rehashidx = some r → d.dt0.used ≠ 0 →
    ∃ i < d.dt0.size, scanBucket d.dt0.entries r = some i

theorem TableInv.rep {o : DictOpts K V} {t : DictTable K V} (h : TableInv o t) :
    TableRep o t where
  size := by
    obtain h0 | ⟨j, -, -, hj⟩ := h.size
    · left
      obtain ⟨entries, size, mask, used⟩ := t
      obtain rfl : size = 0 := h0
      obtain rfl : entries = [] := List.length_eq_zero_iff.mp h.length
      obtain rfl : mask = 0 := h.mask
      obtain rfl : used = 0 := h.used
      rfl
    · exact .inr ⟨j, hj, h.mask, h.length⟩
  index := fun _ _ hi => h.placed hi
  used := h.used

/-- A bucket with an entry is left as long as the count is not 0. -/
theorem DictInv.scan_lt {o : DictOpts K V} {d : Dict K V} (h : DictInv o d) {r : Nat}
    (hr : d.rehashidx = some r) (hused : d.dt0.used ≠ 0) :
    ∃ i < d.dt0.size, scanBucket d.dt0.entries r = some i := by
  have hne : d.dt0.entries.flatten ≠ [] := by
    intro hnil
    refine hused (h.dt0.used.trans ?_)
    rw [DictTable.chained, hnil]
    rfl
  obtain ⟨i, chain, hscan, hchain, -⟩ := scanBucket_spec (h.busy hr).2.2 hne
  obtain ⟨hi, -⟩ := List.getElem?_eq_some_iff.mp hchain
  exact ⟨i, h.dt0.length ▸ hi, hscan⟩

variable [DecidableEq K] {o : DictOpts K V}

namespace Refines

variable {ho : o.Lawful} {s : DictSys K V} {m : AbsMap ho}

theorem rep (h : Refines ho s m) : DictRep o s.d where
  dt0 := h.inv.dt0.rep
  dt1 := h.inv.dt1.rep
  keys := by
    have hnodup := List.pairwise_map.mp h.lists.nodup
    refine hnodup.imp fun {e e'} hne => ?_
    rw [Bool.eq_false_iff]
    exact fun heq => hne ((keyClass_eq ho).mpr heq)
  idle := h.inv.idle
  moved := fun _ hr => (h.inv.busy hr).2.2
  scan := fun _ hr hused => h.inv.scan_lt hr hused

/-- `dict_rehash` leaves the map as it is, under iterators too. -/
theorem rehash (h : Refines ho s m) (n : Nat) :
    ∃ s' out, s.callStep o (.rehash n) = some (s', out) ∧ Refines ho s' m := by
  have hb := h.bound
  obtain ⟨d', rs, hre, inv, hperm⟩ := dictRehash_spec n h.inv (by omega)
  refine ⟨{ s with d := d' }, .rs rs, ?_, h.of_perm inv hperm.perm⟩
  simp only [DictSys.callStep, hre, Option.bind_eq_bind, Option.bind_some]

end Refines

theorem DictSys.callStep_refines (ho : o.Lawful) {s : DictSys K V} {call : DictSysCall K V}
    (h : ∃ m, Refines ho s m) (hg : s.CallGuarded call) :
    ∃ s' out, s.callStep o call = some (s', out) ∧ ∃ m, Refines ho s' m := by
  obtain ⟨m, h⟩ := h
  cases call with
  | op op =>
      obtain ⟨s', out, m', hstep, -, h'⟩ := DictSys.step_refines ho h hg
      exact ⟨s', out, hstep, m', h'⟩
  | rehash n =>
      obtain ⟨s', out, hstep, h'⟩ := h.rehash n
      exact ⟨s', out, hstep, m, h'⟩

/-- Every sequence of calls is defined, and leaves the dict represented as it should be. -/
theorem dict_represented (ho : o.Lawful) (calls : List (DictSysCall K V))
    (hg : Machine.Along (DictSys.callStep o) DictSys.CallGuarded {} calls) :
    ∃ s outs, Machine.run (DictSys.callStep o) {} calls = some (s, outs) ∧ DictRep o s.d := by
  obtain ⟨s, outs, hrun, m, h⟩ :=
    Machine.run_total_tracks (fun (_ : Unit) _ => ()) (R := fun s _ => ∃ m, Refines ho s m)
      (b := ()) (fun h hg => DictSys.callStep_refines ho h hg) ⟨∅, refines_create ho⟩ hg
  exact ⟨s, outs, hrun, h.rep⟩

/-- Keys that are compared as they are leave the hash function free. -/
theorem DictOpts.lawful_of_hash (hash : K → UInt32) : ({ hash := hash } : DictOpts K V).Lawful where
  equiv := by
    simp only [DictOpts.compare, decide_eq_true_eq]
    exact ⟨fun _ => rfl, Eq.symm, Eq.trans⟩
  hash := by
    intro a b h
    rw [of_decide_eq_true h]
  dup k := decide_eq_true rfl

/-- A hash that tells no key apart, an expansion under an iterator, and a rehash in two parts. -/
theorem dict_represented_constant :
    ∃ s outs, Machine.run (DictSys.callStep { hash := fun _ => 7 }) {}
        ((List.range 5).map (fun k => DictSysCall.op (.add k k)) ++
          [.op .getIterator, .op (.expand 20), .op (.next 0), .op (.add 9 1), .op (.destroy 0),
            .rehash 1, .op (.del 3), .rehash 8, .op (.find 2)]) = some (s, outs) ∧
      DictRep (V := Nat) { hash := fun _ : Nat => 7 } s.d :=
  dict_represented (DictOpts.lawful_of_hash fun _ => 7) _ (by decide)

end ThrSocket
