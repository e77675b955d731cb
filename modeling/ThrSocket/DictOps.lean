import ThrSocket.DictInv

/-!
The dict operations on the list of all entries: each adds, takes away or
changes one entry, and rearranges the others at most.
-/

namespace ThrSocket

variable {K V : Type}

def Dict.Holds [DecidableEq K] (d : Dict K V) (o : DictOpts K V) (key : K) : Prop :=
  ∃ e ∈ d.all, o.compare e.key key = true

section

variable [DecidableEq K] {o : DictOpts K V} {d : Dict K V}

theorem Dict.not_holds {key : K} :
    ¬ d.Holds o key ↔ ∀ e ∈ d.all, o.compare e.key key = false := by
  simp [Dict.Holds]

theorem Rearranged.holds {d' : Dict K V} (h : Rearranged d d') {key : K} :
    d'.Holds o key ↔ d.Holds o key := by
  unfold Dict.Holds
  simp only [h.perm.mem_iff]

inductive Searched (o : DictOpts K V) (d : Dict K V) (key : K) : Prop
  | first (e : DictEntry K V) (h0 : d.dt0.search o key = some (some e)) (mem : e ∈ d.all)
      (eq : o.compare e.key key = true)
  | second (e : DictEntry K V) (h0 : d.dt0.search o key = some none) (busy : d.rehashing = true)
      (h1 : d.dt1.search o key = some (some e)) (mem : e ∈ d.all)
      (eq : o.compare e.key key = true)
  | absent (h0 : d.dt0.search o key = some none) (idle : d.rehashing = false)
      (no : ¬ d.Holds o key)
  | absentBoth (h0 : d.dt0.search o key = some none) (busy : d.rehashing = true)
      (h1 : d.dt1.search o key = some none) (no : ¬ d.Holds o key)

theorem DictInv.searched (ho : o.Lawful) (h : DictInv o d) (hs : d.dt0.size ≠ 0) (key : K) :
    Searched o d key := by
  obtain ⟨r0, hr0, hfound0, hnone0⟩ := h.dt0.search ho hs key
  cases r0 with
  | some e =>
      obtain ⟨hmem, heq⟩ := hfound0 e rfl
      exact .first e hr0 (List.mem_append_left _ hmem) heq
  | none =>
      cases hr : d.rehashidx with
      | none =>
          have hidle : d.rehashing = false := by rw [Dict.rehashing, hr]; rfl
          refine .absent hr0 hidle (Dict.not_holds.mpr ?_)
          rw [h.all_of_idle hr]
          exact hnone0 rfl
      | some r =>
          have hbusy : d.rehashing = true := by rw [Dict.rehashing, hr]; rfl
          obtain ⟨r1, hr1, hfound1, hnone1⟩ := h.dt1.search ho (h.busy hr).2.1 key
          cases r1 with
          | some e =>
              obtain ⟨hmem, heq⟩ := hfound1 e rfl
              exact .second e hr0 hbusy hr1 (List.mem_append_right _ hmem) heq
          | none =>
              refine .absentBoth hr0 hbusy hr1 (Dict.not_holds.mpr fun e he => ?_)
              rcases List.mem_append.mp he with h0 | h1
              · exact hnone0 rfl e h0
              · exact hnone1 rfl e h1

theorem dictFind_spec (ho : o.Lawful) (h : DictInv o d) (hb : d.all.length < 2 ^ 32) (key : K) :
    ∃ d' r, dictFind o d key = some (d', r) ∧ DictInv o d' ∧ Rearranged d d' ∧
      ((∃ e, r = some e ∧ e ∈ d'.all ∧ o.compare e.key key = true) ∨
        (r = none ∧ ¬ d'.Holds o key)) := by
  rw [dictFind]
  split_ifs with h0
  · refine ⟨d, none, rfl, h, .refl d, .inr ⟨rfl, ?_⟩⟩
    rw [Dict.not_holds, h.all_of_empty h0]
    exact fun e he => by cases he
  · obtain ⟨d', hre, hinv, hperm⟩ := dictTryRehash_spec h hb
    simp only [hre, Option.bind_eq_bind, Option.bind_some]
    cases hinv.searched ho (hperm.size h0) key with
    | first e hs0 mem eq =>
        exact ⟨d', some e, by rw [hs0]; rfl, hinv, hperm, .inl ⟨e, rfl, mem, eq⟩⟩
    | second e hs0 busy hs1 mem eq =>
        refine ⟨d', some e, ?_, hinv, hperm, .inl ⟨e, rfl, mem, eq⟩⟩
        simp only [hs0, hs1, busy, Option.bind_some]
        rfl
    | absent hs0 idle no =>
        refine ⟨d', none, ?_, hinv, hperm, .inr ⟨rfl, no⟩⟩
        simp only [hs0, idle, Option.bind_some]
        rfl
    | absentBoth hs0 busy hs1 no =>
        refine ⟨d', none, ?_, hinv, hperm, .inr ⟨rfl, no⟩⟩
        simp only [hs0, hs1, busy, Option.bind_some]
        rfl

theorem dictKeyIndex_spec (ho : o.Lawful) (h : DictInv o d) (hb : d.all.length ≤ 2 ^ 29) (key : K) :
    ∃ d' r, dictKeyIndex o d key = some (d', r) ∧ DictInv o d' ∧ Rearranged d d' ∧
      d'.dt0.size ≠ 0 ∧
      ((r = none ∧ d'.Holds o key) ∨
        (r = some ((d'.dt (if d'.rehashing then 1 else 0)).index o key) ∧ ¬ d'.Holds o key)) := by
  obtain ⟨d', hexp, hinv, hre, hs⟩ := dictTryExpand_spec h hb
  have hneg : ¬ (0 : Int) < 0 := by decide
  simp only [dictKeyIndex, hexp, Option.bind_eq_bind, Option.bind_some, if_neg hneg]
  cases hinv.searched ho hs key with
  | first e hs0 mem eq =>
      exact ⟨d', none, by rw [hs0]; rfl, hinv, hre, hs, .inl ⟨rfl, e, mem, eq⟩⟩
  | second e hs0 busy hs1 mem eq =>
      refine ⟨d', none, ?_, hinv, hre, hs, .inl ⟨rfl, e, mem, eq⟩⟩
      simp only [hs0, hs1, busy, Option.bind_some]
      rfl
  | absent hs0 idle no =>
      refine ⟨d', some (d'.dt0.index o key), ?_, hinv, hre, hs, .inr ⟨by rw [idle]; rfl, no⟩⟩
      simp only [hs0, idle, Option.bind_some]
      rfl
  | absentBoth hs0 busy hs1 no =>
      refine ⟨d', some (d'.dt1.index o key), ?_, hinv, hre, hs, .inr ⟨by rw [busy]; rfl, no⟩⟩
      simp only [hs0, hs1, busy, Option.bind_some]
      rfl

omit [DecidableEq K] in
/-- Another second table of the same size, while the first is being moved. -/
theorem DictInv.setSecond (h : DictInv o d) {i : Nat} (hr : d.rehashidx = some i) {d' : Dict K V}
    (h0 : d'.dt0 = d.dt0) (hidx : d'.rehashidx = d.rehashidx) (hinv : TableInv o d'.dt1)
    (hsize : d'.dt1.size = d.dt1.size) (haddrs : (d'.all.map (·.addr)).Nodup)
    (hfresh : ∀ e ∈ d'.all, e.addr < d'.nextAddr) : DictInv o d' := by
  refine ⟨h0 ▸ h.dt0, hinv, ?_, ?_, haddrs, hfresh⟩
  · intro hnone
    rw [hidx, hr] at hnone
    cases hnone
  · intro j hj
    obtain ⟨hs0, hs1, hempty⟩ := h.busy (hidx ▸ hj)
    rw [h0, hsize]
    exact ⟨hs0, hs1, hempty⟩

theorem index_congr (ho : o.Lawful) (t : DictTable K V) {a b : K} (h : o.compare a b = true) :
    t.index o a = t.index o b := by
  rw [DictTable.index, DictTable.index, ho.hash h]

inductive Added (o : DictOpts K V) (d : Dict K V) (key : K) (val : V) : Dict K V → Int → Prop
  | present {d' : Dict K V} (holds : d.Holds o key) (perm : d'.all.Perm d.all) :
      Added o d key val d' (-1)
  | inserted {d' : Dict K V} (new : ¬ d.Holds o key) (e : DictEntry K V)
      (key_eq : e.key = o.setKey key) (value_eq : e.value = o.setValue val) (ref_eq : e.ref = 1)
      (perm : d'.all.Perm (e :: d.all)) : Added o d key val d' 1

theorem dictAdd_spec (ho : o.Lawful) (h : DictInv o d) (hb : d.all.length ≤ 2 ^ 29) (key : K)
    (val : V) :
    ∃ d' rs, dictAdd o d key val = some (d', rs) ∧ DictInv o d' ∧ Added o d key val d' rs := by
  obtain ⟨d₁, htry, hinv₁, hre₁⟩ := dictTryRehash_spec h (by omega)
  have hb₁ : d₁.all.length ≤ 2 ^ 29 := hre₁.perm.length_eq ▸ hb
  obtain ⟨d₂, r, hidx, hinv₂, hre₂, hs₂, hr⟩ := dictKeyIndex_spec ho hinv₁ hb₁ key
  have hre := hre₁.trans hre₂
  have hlen := hre.perm.length_eq
  have hall := d₂.length_all
  simp only [dictAdd, htry, hidx, Option.bind_eq_bind, Option.bind_some]
  obtain ⟨rfl, hholds⟩ | ⟨rfl, hnew⟩ := hr
  · exact ⟨d₂, -1, rfl, hinv₂, .present (hre.holds.mp hholds) hre.perm⟩
  · rw [hre.holds] at hnew
    let e : DictEntry K V := ⟨d₂.nextAddr, o.setKey key, o.setValue val, 1⟩
    cases hbusy : d₂.rehashidx with
    | some i =>
        obtain ⟨_, hs1, _⟩ := hinv₂.busy hbusy
        obtain ⟨t', hpush, hinv', hsize', hperm'⟩ := hinv₂.dt1.push hs1 e (by omega)
        rw [index_congr ho _ (ho.dup key)] at hpush
        have hperm : (d₂.dt0.chained ++ t'.chained).Perm (e :: d₂.all) :=
          (hperm'.append_left _).trans List.perm_middle
        obtain ⟨haddrs, hfresh⟩ := hinv₂.cons (e := e)
          { d₂ with dt1 := t', nextAddr := d₂.nextAddr + 1 } hperm rfl rfl
        refine ⟨{ d₂ with dt1 := t', nextAddr := d₂.nextAddr + 1 }, 1, ?_, ?_, ?_⟩
        · simp only [Dict.rehashing, hbusy, Option.isSome_some, if_true, Dict.dt, Nat.one_ne_zero,
            if_false] at hpush ⊢
          simp only [hpush, Option.bind_some, e]
        · exact hinv₂.setSecond hbusy rfl rfl hinv' hsize' haddrs hfresh
        · exact .inserted hnew e rfl rfl rfl (hperm.trans (hre.perm.cons e))
    | none =>
        obtain ⟨t', hpush, hinv', hsize', hperm'⟩ := hinv₂.dt0.push hs₂ e (by omega)
        rw [index_congr ho _ (ho.dup key)] at hpush
        have hperm : (t'.chained ++ d₂.dt1.chained).Perm (e :: d₂.all) :=
          hperm'.append_right _
        obtain ⟨haddrs, hfresh⟩ := hinv₂.cons (e := e)
          { d₂ with dt0 := t', nextAddr := d₂.nextAddr + 1 } hperm rfl rfl
        refine ⟨{ d₂ with dt0 := t', nextAddr := d₂.nextAddr + 1 }, 1, ?_, ?_, ?_⟩
        · simp only [Dict.rehashing, hbusy, Option.isSome_none, Bool.false_eq_true, if_false,
            Dict.dt, if_true] at hpush ⊢
          simp only [hpush, Option.bind_some, e]
        · refine ⟨hinv', hinv₂.dt1, hinv₂.idle, ?_, haddrs, hfresh⟩
          intro j hj
          rw [hbusy] at hj
          cases hj
        · exact .inserted hnew e rfl rfl rfl (hperm.trans (hre.perm.cons e))

inductive Replaced (o : DictOpts K V) (d : Dict K V) (key : K) (val : V) : Dict K V → Int → Prop
  | stored {d' : Dict K V} (e : DictEntry K V) (rest : List (DictEntry K V))
      (eq : o.compare e.key key = true) (perm : d.all.Perm (e :: rest))
      (perm' : d'.all.Perm ({ e with value := o.setValue val } :: rest)) :
      Replaced o d key val d' 0
  | inserted {d' : Dict K V} (new : ¬ d.Holds o key) (e : DictEntry K V)
      (key_eq : e.key = o.setKey key) (value_eq : e.value = o.setValue val) (ref_eq : e.ref = 1)
      (perm : d'.all.Perm (e :: d.all)) : Replaced o d key val d' 1

theorem dictReplace_spec (ho : o.Lawful) (h : DictInv o d) (hb : d.all.length ≤ 2 ^ 29) (key : K)
    (val : V) :
    ∃ d' rs, dictReplace o d key val = some (d', rs) ∧ DictInv o d' ∧
      Replaced o d key val d' rs := by
  obtain ⟨d₁, r, hfind, hinv₁, hre, hr⟩ := dictFind_spec ho h (by omega) key
  simp only [dictReplace, hfind, Option.bind_eq_bind, Option.bind_some]
  obtain ⟨e, rfl, hmem, heq⟩ | ⟨rfl, hno⟩ := hr
  · obtain ⟨rest, hp, hp'⟩ :=
      hinv₁.modify_perm (f := fun e => { e with value := o.setValue val }) hmem
    exact ⟨_, 0, rfl, hinv₁.modify (fun _ => rfl) (fun _ => rfl),
      .stored e rest heq (hre.perm.symm.trans hp) hp'⟩
  · obtain ⟨d', rs, hadd, hinv', hres⟩ := dictAdd_spec ho hinv₁ (hre.perm.length_eq ▸ hb) key val
    refine ⟨d', rs, hadd, hinv', ?_⟩
    cases hres with
    | present holds perm => exact absurd holds hno
    | inserted new e key_eq value_eq ref_eq perm =>
        exact .inserted (hre.holds.not.mp new) e key_eq value_eq ref_eq
          (perm.trans (hre.perm.cons e))

inductive Deleted (o : DictOpts K V) (d : Dict K V) (key : K) : Dict K V → Int → Prop
  | absent {d' : Dict K V} (no : ¬ d.Holds o key) (perm : d'.all.Perm d.all) :
      Deleted o d key d' 0
  | removed {d' : Dict K V} (e : DictEntry K V) (eq : o.compare e.key key = true)
      (perm : d.all.Perm (e :: d'.all)) : Deleted o d key d' 1

theorem dictDelInternal_spec (ho : o.Lawful) (h : DictInv o d) (hb : d.all.length < 2 ^ 32)
    (key : K) :
    ∃ d' rs, dictDelInternal o d key = some (d', rs) ∧ DictInv o d' ∧ Deleted o d key d' rs := by
  rw [dictDelInternal]
  split_ifs with h0
  · refine ⟨d, 0, rfl, h, .absent (Dict.not_holds.mpr ?_) (.refl _)⟩
    rw [h.all_of_empty h0]
    exact fun e he => by cases he
  · obtain ⟨d₁, htry, hinv₁, hre⟩ := dictTryRehash_spec h hb
    have hs := hre.size h0
    have hlen := hre.perm.length_eq
    have hall := d₁.length_all
    simp only [htry, Option.bind_eq_bind, Option.bind_some]
    obtain ⟨hun0, hno0⟩ | ⟨t', e, next, hun0, hinv', hsize', heq, hperm', hempty'⟩ :=
      hinv₁.dt0.unlink ho hs key (by omega)
    · cases hr : d₁.rehashidx with
      | none =>
          refine ⟨d₁, 0, ?_, hinv₁, .absent ?_ hre.perm⟩
          · simp only [hun0, Option.bind_some, Dict.rehashing, hr]
            rfl
          · rw [← hre.holds, Dict.not_holds, hinv₁.all_of_idle hr]
            exact hno0
      | some i =>
          obtain ⟨_, hs1, _⟩ := hinv₁.busy hr
          obtain ⟨hun1, hno1⟩ | ⟨t', e, next, hun1, hinv', hsize', heq, hperm', _⟩ :=
            hinv₁.dt1.unlink ho hs1 key (by omega)
          · refine ⟨d₁, 0, ?_, hinv₁, .absent ?_ hre.perm⟩
            · simp only [hun0, hun1, Option.bind_some, Dict.rehashing, hr]
              rfl
            · rw [← hre.holds, Dict.not_holds]
              intro e he
              exact (List.mem_append.mp he).elim (hno0 e) (hno1 e)
          · have hperm : d₁.all.Perm (e :: (d₁.dt0.chained ++ t'.chained)) :=
              (hperm'.append_left _).trans List.perm_middle
            obtain ⟨haddrs, hfresh⟩ := hinv₁.of_cons (e := e)
              { d₁ with dt1 := t', detached := unlinked e next ++ d₁.detached } hperm rfl
            refine ⟨{ d₁ with dt1 := t', detached := unlinked e next ++ d₁.detached }, 1, ?_, ?_,
              .removed e heq (hre.perm.symm.trans hperm)⟩
            · simp only [hun0, hun1, Option.bind_some, Dict.rehashing, hr]
              rfl
            · exact hinv₁.setSecond hr rfl rfl hinv' hsize' haddrs hfresh
    · have hperm : d₁.all.Perm (e :: (t'.chained ++ d₁.dt1.chained)) := hperm'.append_right _
      obtain ⟨haddrs, hfresh⟩ := hinv₁.of_cons (e := e)
        { d₁ with dt0 := t', detached := unlinked e next ++ d₁.detached } hperm rfl
      refine ⟨{ d₁ with dt0 := t', detached := unlinked e next ++ d₁.detached }, 1, ?_, ?_,
        .removed e heq (hre.perm.symm.trans hperm)⟩
      · simp only [hun0, Option.bind_some]
      · refine ⟨hinv', hinv₁.dt1, hinv₁.idle, ?_, haddrs, hfresh⟩
        intro j hj
        obtain ⟨_, hs1, hempty⟩ := hinv₁.busy hj
        exact ⟨hsize' ▸ hs, hs1, hempty' j hempty⟩

end

end ThrSocket
