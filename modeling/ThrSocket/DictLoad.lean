import Mathlib.Algebra.GroupWithZero.Nat
import ThrSocket.DictShape
import ThrSocket.Lib.Machine

/-!
The load of the table that is being filled. While the old table of `S` buckets is
emptied, each insertion is paid for by a bucket that its call has moved before: the
entries and the buckets still to be moved are never more than the new table has
buckets, but for the one entry that comes last.
-/

namespace ThrSocket

variable {K V : Type}

inductive DictCall (K V : Type)
  | add (key : K) (val : V)
  | replace (key : K) (val : V)
  | find (key : K)
  | del (key : K)
  | delNoFree (key : K)
  | clear

/-- How often a call that returns at once where there is no table executes DICT_TRY_REHASH. -/
def Dict.tries (d : Dict K V) : Nat := if d.dt0.size = 0 then 0 else 1

/-- A call, with the number of times it executes DICT_TRY_REHASH. -/
def DictCall.step [DecidableEq K] (o : DictOpts K V) (d : Dict K V) :
    DictCall K V → Option (Dict K V × Nat)
  | .add key val => do
      let (d', _) ← dictAdd o d key val
      some (d', 1)
  | .replace key val => do
      let (_, r) ← dictFind o d key
      let (d', _) ← dictReplace o d key val
      some (d', d.tries + if r.isSome then 0 else 1)
  | .find key => do
      let (d', _) ← dictFind o d key
      some (d', d.tries)
  | .del key => do
      let (d', _) ← dictDel o d key
      some (d', d.tries)
  | .delNoFree key => do
      let (d', _) ← dictDelNoFree o d key
      some (d', d.tries)
  | .clear => some (dictClear d, 0)

def Dict.newest (d : Dict K V) : DictTable K V := if d.rehashing then d.dt1 else d.dt0

/-- A dict of at most 2^29 entries. -/
def HasRoom (d : Dict K V) (_ : DictCall K V) : Prop := d.all.length ≤ 2 ^ 29

instance (d : Dict K V) (c : DictCall K V) : Decidable (HasRoom d c) :=
  inferInstanceAs (Decidable (_ ≤ _))

/-- A dict with room for all but `i` of its entries, or for all but `b` of them and one
more for each bucket still to be moved. -/
structure Load (i b : Nat) (d : Dict K V) : Prop where
  shape : DictShape d
  alone : d.iterators = 0
  idle : d.rehashidx = none → d.all.length ≤ d.dt0.size + i
  busy : ∀ {r}, d.rehashidx = some r →
    d.all.length + (d.dt0.size - r) ≤ d.dt1.size + b ∧ d.dt0.size < d.dt1.size

namespace Load

variable {o : DictOpts K V} {i b : Nat} {d d' : Dict K V}

theorem mono (h : Load i b d) {i' b' : Nat} (hi : i ≤ i') (hb : b ≤ b') : Load i' b' d where
  shape := h.shape
  alone := h.alone
  idle := fun hr => (h.idle hr).trans (by omega)
  busy := fun hr => (h.busy hr).imp_left fun hle => hle.trans (by omega)

/-- A round of rehashing pays for one insertion. -/
theorem rehashed (h : Load 1 1 d) (hre : Rehashed o d d') : Load 1 0 d' := by
  have hlen := hre.subperm.length_le
  obtain ⟨hshape, hround⟩ := h.shape.rehashed hre
  have halone : d'.iterators = 0 := by
    cases hre with
    | skipped _ => exact h.alone
    | ended _ alone _ => exact alone
    | moved _ alone _ _ _ _ => exact alone
  cases hr : d.rehashidx with
  | none =>
      have hsame : d' = d := by
        cases hre with
        | skipped _ => rfl
        | ended busy _ _ => cases hr.symm.trans busy
        | moved busy _ _ _ _ _ => cases hr.symm.trans busy
      subst hsame
      exact ⟨hshape, halone, h.idle, fun hb => by cases hr.symm.trans hb⟩
  | some r =>
      obtain ⟨hle, hlt⟩ := h.busy hr
      rcases hround r hr h.alone with ⟨hend, hdt0⟩ | ⟨r', hr', hrr, hs0, hs1⟩
      · refine ⟨hshape, halone, fun _ => ?_, fun hb => by cases hend.symm.trans hb⟩
        rw [hdt0]
        omega
      · refine ⟨hshape, halone, (fun hb => by cases hb.symm.trans hr'), fun hb => ?_⟩
        cases hr'.symm.trans hb
        obtain ⟨-, -, hr'le, -⟩ := hshape.busy hr'
        rw [hs0, hs1]
        rw [hs0] at hr'le
        omega

theorem used_eq (h : Load i b d) (hroom : d.all.length ≤ 2 ^ 29) :
    d.dt0.used = d.dt0.chained.length := by
  have hlen := d.length_all
  exact h.shape.dt0.used.trans (u32_of_lt (by omega))

/-- An expansion makes room for an entry that is added then. -/
theorem tryExpanded (h : Load 1 0 d) (hroom : d.all.length ≤ 2 ^ 29) {rs : Int}
    (hexp : dictTryExpand d = some (d', rs)) : Load 1 1 d' ∧ (0 ≤ rs → Load 0 0 d') := by
  obtain ⟨hshape, hall⟩ := h.shape.tryExpanded hexp
  have hused := h.used_eq hroom
  obtain ⟨rfl, hkept⟩ | ⟨hr, size, hgrown, hwhy⟩ := dictTryExpand_cases hexp
  · refine ⟨h.mono (Nat.le_refl 1) (Nat.zero_le 1), fun _ => ⟨hshape, h.alone, ?_, h.busy⟩⟩
    intro hr
    have hlt := hkept.resolve_left (fun hne => hne hr)
    have hlen := d'.length_all
    rw [h.shape.idle hr] at hlen
    have hnil : ({} : DictTable K V).chained.length = 0 := rfl
    omega
  · have hlen := d.length_all
    rw [h.shape.idle hr] at hlen
    have hnil : ({} : DictTable K V).chained.length = 0 := rfl
    cases hgrown with
    | refused _ =>
        exact ⟨h.mono (Nat.le_refl 1) (Nat.zero_le 1), fun hrs => absurd hrs (by decide)⟩
    | first idle empty pow =>
        have hzero : d.dt0.chained.length = 0 := by
          rw [DictTable.chained, empty]
          rfl
        have hload : Load 0 0 { d with dt0 := freshTable _ } :=
          ⟨hshape, h.alone, (fun _ => by rw [hall]; omega), fun hb => by cases hr.symm.trans hb⟩
        exact ⟨hload.mono (Nat.zero_le 1) (Nat.zero_le 1), fun _ => hload⟩
    | @second n idle nonempty le pow =>
        obtain ⟨j, -, -, rfl, hpow⟩ := powSize_cases pow
        have hs0 := h.shape.size0_ne nonempty
        obtain ⟨hzero, -⟩ | ⟨hfull, hsize⟩ := hwhy
        · exact absurd hzero hs0
        · -- the new table has two buckets for each entry
          have hdouble : u32 (d.dt0.used * 2) = d.dt0.used * 2 := u32_of_lt (by omega)
          have hn : (freshTable (2 ^ j) : DictTable K V).size = 2 ^ j := rfl
          have hload : Load 0 0 { d with dt1 := freshTable (2 ^ j), rehashidx := some 0 } := by
            refine ⟨hshape, h.alone, (fun hb => by cases hb), fun hb => ?_⟩
            cases hb
            rw [hall, hn]
            exact ⟨by simp only; omega, by simp only; omega⟩
          exact ⟨hload.mono (Nat.zero_le 1) (Nat.zero_le 1), fun _ => hload⟩

theorem pushed (h : Load 0 0 d) {e : DictEntry K V} (hpush : Pushed d e d') : Load 1 1 d' := by
  have hshape := h.shape.pushed hpush
  have hlen := hpush.perm.length_eq
  rw [List.length_cons] at hlen
  cases hpush with
  | first idle push =>
      obtain ⟨-, hsize⟩ := h.shape.dt0.push push
      refine ⟨hshape, h.alone, fun _ => ?_, fun hb => by cases idle.symm.trans hb⟩
      rw [hlen, hsize]
      exact Nat.succ_le_succ (h.idle idle)
  | second busy push =>
      obtain ⟨-, hsize⟩ := h.shape.dt1.push push
      refine ⟨hshape, h.alone, (fun hb => by cases busy.symm.trans hb), fun hb => ?_⟩
      obtain ⟨hle, hlt⟩ := h.busy hb
      rw [hlen, hsize]
      exact ⟨by simp only; omega, hlt⟩

theorem taken (h : Load 1 1 d) {e : DictEntry K V} {next : Option Nat}
    (hout : Taken d e next d') : Load 1 1 d' := by
  have hshape := h.shape.taken hout
  have hlen := hout.perm.length_eq
  rw [List.length_cons] at hlen
  cases hout with
  | first without =>
      obtain ⟨-, hsize⟩ := h.shape.dt0.without without
      refine ⟨hshape, h.alone, fun hb => ?_, fun hb => ?_⟩
      · have := h.idle hb
        rw [hsize]
        omega
      · have := h.busy hb
        simp only [hsize]
        omega
  | second without =>
      obtain ⟨-, hsize⟩ := h.shape.dt1.without without
      refine ⟨hshape, h.alone, fun hb => ?_, fun hb => ?_⟩
      · have := h.idle hb
        simp only
        omega
      · have := h.busy hb
        simp only [hsize]
        omega

end Load

/-- The table of `S` buckets has been replaced, or `k` rounds have been made on it. -/
def Advanced (S k : Nat) (d : Dict K V) : Prop :=
  S < d.dt0.size ∨ d.dt0.size = S ∧ ∃ r, d.rehashidx = some r ∧ k ≤ r

section

variable {o : DictOpts K V} {i b S k : Nat} {d d' : Dict K V}

theorem Advanced.size_ne (h : Advanced S k d) (hd : DictShape d) : d.dt0.size ≠ 0 := by
  rcases h with hlt | ⟨-, r, hr, -⟩
  · omega
  · exact (hd.busy hr).1

theorem Advanced.rehashed (h : Advanced S k d) (hd : Load 1 1 d) (hre : Rehashed o d d') :
    Advanced S (k + 1) d' := by
  obtain ⟨hshape, hround⟩ := hd.shape.rehashed hre
  cases hr : d.rehashidx with
  | none =>
      have hlt : S < d.dt0.size := h.resolve_right fun ⟨_, r, hr', _⟩ => by cases hr.symm.trans hr'
      cases hre with
      | skipped _ => exact .inl hlt
      | ended busy _ _ => cases hr.symm.trans busy
      | moved busy _ _ _ _ _ => cases hr.symm.trans busy
  | some r =>
      have hgrow := (hd.busy hr).2
      rcases hround r hr hd.alone with ⟨-, hdt0⟩ | ⟨r', hr', hrr, hs0, -⟩
      · refine .inl (hdt0 ▸ ?_)
        rcases h with hlt | ⟨hs, -⟩
        · omega
        · omega
      · rcases h with hlt | ⟨hs, r'', hr'', hk⟩
        · exact .inl (hs0 ▸ hlt)
        · cases hr.symm.trans hr''
          exact .inr ⟨hs0.trans hs, r', hr', by omega⟩

theorem Advanced.tryExpanded (h : Advanced S k d) (hd : DictShape d) {rs : Int}
    (hexp : dictTryExpand d = some (d', rs)) : Advanced S k d' := by
  obtain ⟨rfl, -⟩ | ⟨hr, size, hgrown, -⟩ := dictTryExpand_cases hexp
  · exact h
  · have hlt : S < d.dt0.size := h.resolve_right fun ⟨_, r, hr', _⟩ => by cases hr.symm.trans hr'
    cases hgrown with
    | refused _ => exact h
    | first _ empty _ =>
        have hlen := hd.dt0.length
        rw [empty, List.length_nil] at hlen
        omega
    | second _ _ _ _ => exact .inl hlt

theorem Advanced.pushed (h : Advanced S k d) (hd : DictShape d) {e : DictEntry K V}
    (hpush : Pushed d e d') : Advanced S k d' := by
  cases hpush with
  | first _ push =>
      rw [Advanced, (hd.dt0.push push).2]
      exact h
  | second _ _ => exact h

theorem Advanced.taken (h : Advanced S k d) (hd : DictShape d) {e : DictEntry K V}
    {next : Option Nat} (hout : Taken d e next d') : Advanced S k d' := by
  cases hout with
  | first without =>
      rw [Advanced, (hd.dt0.without without).2]
      exact h
  | second _ => exact h

/-- After as many rounds as the table has buckets, and one more, it has been replaced. -/
theorem Advanced.replaced (h : Advanced S k d) (hd : DictShape d) (hk : S + 1 ≤ k) :
    S < d.dt0.size := by
  rcases h with hlt | ⟨hs, r, hr, hkr⟩
  · exact hlt
  · have := (hd.busy hr).2.2.1
    omega

/-- What a call that executes DICT_TRY_REHASH `n` times does to the load and to a rehash. -/
structure Carried (n : Nat) (d d' : Dict K V) : Prop where
  load : Load 1 1 d'
  advanced : ∀ {S k}, Advanced S k d → Advanced S (k + n) d'

theorem load_create : Load 1 1 (dictCreate : Dict K V) where
  shape := dictShape_create
  alone := rfl
  idle := fun _ => Nat.zero_le _
  busy := fun hb => by cases hb

theorem Load.used_le (h : Load 1 1 d) : d.dictUsed ≤ d.newest.size + 1 := by
  have hlen := d.length_all
  have h0 : d.dt0.used ≤ d.dt0.chained.length := h.shape.dt0.used ▸ Nat.mod_le _ _
  have h1 : d.dt1.used ≤ d.dt1.chained.length := h.shape.dt1.used ▸ Nat.mod_le _ _
  have hle : d.dictUsed ≤ d.dt0.used + d.dt1.used := Nat.mod_le _ _
  rw [Dict.newest, Dict.rehashing]
  cases hr : d.rehashidx with
  | none =>
      have := h.idle hr
      simp only [Option.isSome_none, Bool.false_eq_true, if_false]
      omega
  | some r =>
      have := (h.busy hr).1
      simp only [Option.isSome_some, if_true]
      omega

variable [DecidableEq K]

theorem carried_find (h : Load 1 1 d) {key : K} {r : Option (DictEntry K V)}
    (hfind : dictFind o d key = some (d', r)) :
    Carried d.tries d d' ∧ d'.all.length ≤ d.all.length := by
  obtain ⟨h0, rfl, rfl⟩ | ⟨h0, hre, -⟩ := dictFind_cases hfind
  · refine ⟨⟨h, fun hadv => ?_⟩, Nat.le_refl _⟩
    exact absurd h0 (hadv.size_ne h.shape)
  · rw [Dict.tries, if_neg h0]
    exact ⟨⟨(h.rehashed hre).mono (Nat.le_refl 1) (Nat.zero_le 1), fun hadv => hadv.rehashed h hre⟩,
      hre.subperm.length_le⟩

theorem carried_add (h : Load 1 1 d) (hroom : d.all.length ≤ 2 ^ 29) {key : K} {val : V} {rs : Int}
    (hadd : dictAdd o d key val = some (d', rs)) : Carried 1 d d' := by
  obtain ⟨d₁, d₂, n, hre, hexp, hend⟩ := dictAdd_cases hadd
  have h₁ := h.rehashed hre
  have hlen := hre.subperm.length_le
  obtain ⟨h₂, hroom₂⟩ := h₁.tryExpanded (by omega) hexp
  rcases hend with rfl | ⟨hn, hpush⟩
  · exact ⟨h₂, fun hadv => (hadv.rehashed h hre).tryExpanded h₁.shape hexp⟩
  · refine ⟨(hroom₂ hn).pushed hpush, fun hadv => ?_⟩
    exact ((hadv.rehashed h hre).tryExpanded h₁.shape hexp).pushed h₂.shape hpush

theorem carried_del (h : Load 1 1 d) {key : K} {rs : Int}
    (hdel : dictDelInternal o d key = some (d', rs)) : Carried d.tries d d' := by
  obtain ⟨h0, rfl⟩ | ⟨h0, d₁, hre, hend⟩ := dictDelInternal_cases hdel
  · exact ⟨h, fun hadv => absurd h0 (hadv.size_ne h.shape)⟩
  · have h₁ := (h.rehashed hre).mono (Nat.le_refl 1) (Nat.zero_le 1)
    rw [Dict.tries, if_neg h0]
    rcases hend with rfl | ⟨e, next, hout⟩
    · exact ⟨h₁, fun hadv => hadv.rehashed h hre⟩
    · exact ⟨h₁.taken hout, fun hadv => (hadv.rehashed h hre).taken h₁.shape hout⟩

theorem carried_replace (h : Load 1 1 d) (hroom : d.all.length ≤ 2 ^ 29) {key : K} {val : V}
    {rs : Int} {d₁ : Dict K V} {r : Option (DictEntry K V)}
    (hfind : dictFind o d key = some (d₁, r))
    (hreplace : dictReplace o d key val = some (d', rs)) :
    Carried (d.tries + if r.isSome then 0 else 1) d d' := by
  obtain ⟨⟨h₁, hadv₁⟩, hlen⟩ := carried_find h hfind
  obtain ⟨d₂, r₂, hfind', hend⟩ := dictReplace_cases hreplace
  cases hfind.symm.trans hfind'
  rcases hend with ⟨e, rfl, rfl⟩ | ⟨rfl, hadd⟩
  · refine ⟨⟨h₁.shape.modify _ _, h₁.alone, fun hb => ?_, fun hb => ?_⟩, hadv₁⟩
    · rw [Dict.all_modify, List.length_map]
      exact h₁.idle hb
    · rw [Dict.all_modify, List.length_map]
      exact h₁.busy hb
  · obtain ⟨h₂, hadv₂⟩ := carried_add h₁ (by omega) hadd
    exact ⟨h₂, fun hadv => hadv₂ (hadv₁ hadv)⟩

theorem step_carried (h : Load 1 1 d) {c : DictCall K V} (hroom : HasRoom d c) :
    ∃ d' n, c.step o d = some (d', n) ∧ Load 1 1 d' ∧ (c ≠ .clear → Carried n d d') := by
  have hplain : ∀ {d' n}, Carried n d d' → Load 1 1 d' ∧ (c ≠ .clear → Carried n d d') :=
    fun hc => ⟨hc.load, fun _ => hc⟩
  cases c with
  | add key val =>
      obtain ⟨d', rs, hadd⟩ := h.shape.add_defined (o := o) hroom key val
      refine ⟨d', 1, ?_, hplain (carried_add h hroom hadd)⟩
      simp only [DictCall.step, hadd, Option.bind_eq_bind, Option.bind_some]
  | replace key val =>
      obtain ⟨d₁, r, hfind⟩ := h.shape.find_defined (o := o) key
      obtain ⟨⟨h₁, -⟩, hlen⟩ := carried_find h hfind
      obtain ⟨d', rs, hreplace⟩ : ∃ d' rs, dictReplace o d key val = some (d', rs) := by
        simp only [dictReplace, hfind, Option.bind_eq_bind, Option.bind_some]
        cases r with
        | some e => exact ⟨_, _, rfl⟩
        | none => exact h₁.shape.add_defined (hlen.trans hroom) key val
      refine ⟨d', _, ?_, hplain (carried_replace h hroom hfind hreplace)⟩
      simp only [DictCall.step, hfind, hreplace, Option.bind_eq_bind, Option.bind_some]
  | find key =>
      obtain ⟨d', r, hfind⟩ := h.shape.find_defined (o := o) key
      refine ⟨d', _, ?_, hplain (carried_find h hfind).1⟩
      simp only [DictCall.step, hfind, Option.bind_eq_bind, Option.bind_some]
  | del key =>
      obtain ⟨d', rs, hdel⟩ := h.shape.del_defined (o := o) key
      refine ⟨d', _, ?_, hplain (carried_del h hdel)⟩
      simp only [DictCall.step, dictDel, hdel, Option.bind_eq_bind, Option.bind_some]
  | delNoFree key =>
      obtain ⟨d', rs, hdel⟩ := h.shape.del_defined (o := o) key
      refine ⟨d', _, ?_, hplain (carried_del h hdel)⟩
      simp only [DictCall.step, dictDelNoFree, hdel, Option.bind_eq_bind, Option.bind_some]
  | clear =>
      refine ⟨dictClear d, 0, rfl, ⟨dictShape_clear d, h.alone, fun _ => Nat.zero_le _, ?_⟩,
        fun hc => absurd rfl hc⟩
      intro r hr
      cases hr

end

/-- With no iterator open and while there is room, every call is defined, the newest table has
a bucket for every entry but one, and a rehash has ended when DICT_TRY_REHASH has been executed
once for each bucket of the old table and once more: that table has been replaced. -/
theorem dict_load [DecidableEq K] (o : DictOpts K V) {calls : List (DictCall K V)}
    (hroom : Machine.Along (DictCall.step o) HasRoom dictCreate calls) :
    ∃ d ns, Machine.run (DictCall.step o) dictCreate calls = some (d, ns) ∧
      d.dictUsed ≤ d.newest.size + 1 ∧
      (d.rehashing = true → ∀ more : List (DictCall K V),
        Machine.Along (DictCall.step o) (fun d c => HasRoom d c ∧ c ≠ .clear) d more →
        ∃ d' ms, Machine.run (DictCall.step o) d more = some (d', ms) ∧
          (d.dt0.size + 1 ≤ ms.sum → d.dt0.size < d'.dt0.size)) := by
  obtain ⟨d, ns, hrun, hload⟩ := Machine.run_total_tracks (R := fun d (_ : Unit) => Load 1 1 d)
    (fun b _ => b) (fun hload hroom => by
      obtain ⟨d', n, hstep, hload', -⟩ := step_carried hload hroom
      exact ⟨d', n, hstep, hload'⟩) (b := ()) load_create hroom
  refine ⟨d, ns, hrun, hload.used_le, fun hbusy more hmore => ?_⟩
  obtain ⟨r, hr⟩ := Option.isSome_iff_exists.mp hbusy
  have hstart : Load 1 1 d ∧ Advanced d.dt0.size 0 d := ⟨hload, .inr ⟨rfl, r, hr, Nat.zero_le r⟩⟩
  obtain ⟨d', ms, hrun', hload', hadv⟩ := Machine.run_total_tracks
    (R := fun d' k => Load 1 1 d' ∧ Advanced d.dt0.size k d') (fun k n => k + n)
    (fun hR hG => by
      obtain ⟨d', n, hstep, hload', hcarry⟩ := step_carried hR.1 hG.1
      exact ⟨d', n, hstep, hload', (hcarry hG.2).advanced hR.2⟩) hstart hmore
  refine ⟨d', ms, hrun', fun hsum => hadv.replaced hload'.shape ?_⟩
  rw [List.sum_eq_foldl] at hsum
  exact hsum

def identityHash : DictOpts Nat Nat where
  hash k := UInt32.ofNat k

def nineAdds : List (DictCall Nat Nat) := (List.range 9).map fun k => .add k k

theorem dict_load_nineAdds :
    ∃ d ns, Machine.run (DictCall.step identityHash) dictCreate nineAdds = some (d, ns) ∧
      d.dictUsed ≤ d.newest.size + 1 ∧
      (d.rehashing = true → ∀ more : List (DictCall Nat Nat),
        Machine.Along (DictCall.step identityHash) (fun d c => HasRoom d c ∧ c ≠ .clear) d more →
        ∃ d' ms, Machine.run (DictCall.step identityHash) d more = some (d', ms) ∧
          (d.dt0.size + 1 ≤ ms.sum → d.dt0.size < d'.dt0.size)) :=
  dict_load identityHash (by decide)

end ThrSocket
