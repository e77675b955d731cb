import Mathlib.Data.List.Perm.Subperm
import ThrSocket.DictInv

/-!
What the calls of dict.c can do, whatever the callbacks are and however large the
dict is. No call makes up an entry: what `dict_find` and `dict_add` leave in the
chains was there before, apart from the entry that was added.
-/

namespace ThrSocket

variable {K V : Type} {o : DictOpts K V}

theorem DictTable.push_eq_some {t t' : DictTable K V} {idx : Nat} {e : DictEntry K V} :
    t.push idx e = some t' ↔ ∃ chain, t.entries[idx]? = some chain ∧
      t' = { t with entries := t.entries.set idx (e :: chain), used := u32 (t.used + 1) } := by
  rw [DictTable.push]
  simp only [Option.bind_eq_bind, Option.bind_eq_some_iff, Option.some.injEq]
  exact exists_congr fun chain => and_congr_right fun _ => eq_comm

theorem DictTable.push_perm {t t' : DictTable K V} {idx : Nat} {e : DictEntry K V}
    (h : t.push idx e = some t') : t'.chained.Perm (e :: t.chained) := by
  obtain ⟨chain, hchain, rfl⟩ := DictTable.push_eq_some.mp h
  obtain ⟨rest, hp, hp'⟩ := flatten_set_perm hchain
  exact (hp' (e :: chain)).trans (hp.symm.cons e)

theorem DictTable.search_mem [DecidableEq K] {t : DictTable K V} {key : K} {e : DictEntry K V}
    (h : t.search o key = some (some e)) : e ∈ t.chained ∧ o.compare e.key key = true := by
  rw [DictTable.search] at h
  obtain ⟨chain, hchain, h⟩ := Option.bind_eq_some_iff.mp h
  have hfind := Option.some.inj h
  refine ⟨List.mem_flatten.mpr ⟨chain, List.mem_of_getElem? hchain, ?_⟩, ?_⟩
  · exact List.mem_of_find?_eq_some hfind
  · exact List.find?_some (p := fun e : DictEntry K V => o.compare e.key key) hfind

inductive DictTable.Without (t : DictTable K V) (e : DictEntry K V) (next : Option Nat) :
    DictTable K V → Prop
  | mk {i : Nat} {before behind : List (DictEntry K V)}
      (bucket : t.entries[i]? = some (before ++ e :: behind))
      (hnext : next = behind.head?.map (·.addr)) :
      Without t e next
        { t with
          entries := t.entries.set i (before ++ behind)
          used := u32 (t.used + (2 ^ 32 - 1)) }

theorem DictTable.Without.perm {t t' : DictTable K V} {e : DictEntry K V} {next : Option Nat}
    (h : t.Without e next t') : t.chained.Perm (e :: t'.chained) := by
  obtain ⟨bucket, -⟩ := h
  obtain ⟨rest, hp, hp'⟩ := flatten_set_perm bucket
  refine (hp.trans (List.perm_middle.append_right rest)).trans ?_
  exact (hp' _).symm.cons e

theorem DictTable.unlink_cases [DecidableEq K] {t t' : DictTable K V} {key : K}
    {kept : List (Detached K V)} (h : t.unlink o key = some (some (t', kept))) :
    ∃ e next, t.Without e next t' ∧ kept = unlinked e next := by
  rw [DictTable.unlink] at h
  obtain ⟨chain, hchain, h⟩ := Option.bind_eq_some_iff.mp h
  obtain ⟨hspan, -⟩ | ⟨before, e, behind, hspan, rfl, -⟩ :=
    span_cases (fun e => !o.compare e.key key) chain
  · rw [hspan] at h
    cases h
  · rw [hspan] at h
    cases h
    exact ⟨e, _, .mk hchain rfl, rfl⟩

inductive Rehashed (o : DictOpts K V) (d : Dict K V) : Dict K V → Prop
  | skipped (h : d.rehashidx = none ∨ d.iterators ≠ 0) : Rehashed o d d
  | ended {r : Nat} (busy : d.rehashidx = some r) (alone : d.iterators = 0)
      (used : d.dt0.used = 0) :
      Rehashed o d { d with dt0 := d.dt1, dt1 := {}, rehashidx := none }
  | moved {r i : Nat} {chain : List (DictEntry K V)} {dt0 dt1 : DictTable K V}
      (busy : d.rehashidx = some r) (alone : d.iterators = 0) (used : d.dt0.used ≠ 0)
      (scan : scanBucket d.dt0.entries r = some i) (bucket : d.dt0.entries[i]? = some chain)
      (push : rehashChain o chain d.dt0 d.dt1 = some (dt0, dt1)) :
      Rehashed o d
        { d with
          dt0 := { dt0 with entries := dt0.entries.set i [] }
          dt1 := dt1
          rehashidx := some (i + 1) }

theorem dictTryRehash_cases {d d' : Dict K V} (h : dictTryRehash o d = some d') :
    Rehashed o d d' := by
  rw [dictTryRehash] at h
  split_ifs at h with htry
  · obtain ⟨⟨d₁, rs⟩, hrehash, rfl⟩ := Option.map_eq_some_iff.mp h
    simp only [Bool.and_eq_true, beq_iff_eq] at htry
    obtain ⟨r, hr⟩ := Option.isSome_iff_exists.mp htry.1
    simp only [dictRehash, hr] at hrehash
    split_ifs at hrehash with hused
    · cases hrehash
      exact .ended hr htry.2 hused
    · obtain ⟨i, hscan, hrehash⟩ := Option.bind_eq_some_iff.mp hrehash
      obtain ⟨chain, hchain, hrehash⟩ := Option.bind_eq_some_iff.mp hrehash
      obtain ⟨⟨dt0, dt1⟩, hmove, hrehash⟩ := Option.bind_eq_some_iff.mp hrehash
      cases hrehash
      exact .moved hr htry.2 hused hscan hchain hmove
  · cases h
    refine .skipped ?_
    cases hr : d.rehashidx with
    | none => exact .inl rfl
    | some r => exact .inr fun hd => htry (by simp [Dict.rehashing, hr, hd])

theorem rehashChain_entries {chain : List (DictEntry K V)} {dt0 dt1 dt0' dt1' : DictTable K V}
    (h : rehashChain o chain dt0 dt1 = some (dt0', dt1')) :
    dt0'.entries = dt0.entries ∧ dt1'.chained.Perm (chain ++ dt1.chained) := by
  induction chain generalizing dt0 dt1 with
  | nil =>
      cases h
      exact ⟨rfl, .refl _⟩
  | cons e chain ih =>
      rw [rehashChain] at h
      obtain ⟨dt, hpush, h⟩ := Option.bind_eq_some_iff.mp h
      obtain ⟨h0, h1⟩ := ih h
      refine ⟨h0, (h1.trans ((DictTable.push_perm hpush).append_left chain)).trans ?_⟩
      exact List.perm_middle

theorem Rehashed.subperm {d d' : Dict K V} (h : Rehashed o d d') : d'.all.Subperm d.all := by
  cases h with
  | skipped _ => exact .refl _
  | ended _ _ _ =>
      rw [Dict.all, show ({} : DictTable K V).chained = [] from rfl, List.append_nil]
      exact (List.sublist_append_right _ _).subperm
  | @moved _ i chain dt0 dt1 _ _ _ _ bucket push =>
      obtain ⟨h0, h1⟩ := rehashChain_entries push
      obtain ⟨rest, hp, hp'⟩ := flatten_set_perm bucket
      refine List.Perm.subperm ?_
      have hleft : (dt0.entries.set i []).flatten.Perm rest := h0 ▸ hp' []
      refine ((hleft.append h1).trans (List.perm_append_comm_assoc _ _ _)).trans ?_
      rw [← List.append_assoc]
      exact hp.symm.append_right _

def freshTable (n : Nat) : DictTable K V :=
  { entries := List.replicate n [], size := n, mask := u32 (n + (2 ^ 32 - 1)), used := 0 }

theorem chained_freshTable (n : Nat) : (freshTable n : DictTable K V).chained = [] :=
  List.flatten_replicate_nil

inductive Expanded (d : Dict K V) (size : Nat) : Dict K V → Int → Prop
  | refused (h : d.rehashidx ≠ none ∨ size < d.dt0.size) : Expanded d size d (-1)
  | first {n : Nat} (idle : d.rehashidx = none) (empty : d.dt0.entries = [])
      (pow : powSize size = some n) : Expanded d size { d with dt0 := freshTable n } 0
  | second {n : Nat} (idle : d.rehashidx = none) (nonempty : d.dt0.entries ≠ [])
      (le : d.dt0.size ≤ size) (pow : powSize size = some n) :
      Expanded d size { d with dt1 := freshTable n, rehashidx := some 0 } 0

theorem dictExpand_cases {d d' : Dict K V} {size : Nat} {rs : Int}
    (h : dictExpand d size = some (d', rs)) : Expanded d size d' rs := by
  rw [dictExpand] at h
  split at h
  next hno =>
    cases h
    refine .refused ?_
    simp only [Dict.rehashing, Bool.or_eq_true, decide_eq_true_eq] at hno
    exact hno.imp_left Option.isSome_iff_ne_none.mp
  next hno =>
    simp only [Dict.rehashing, Bool.or_eq_true, decide_eq_true_eq, not_or, Nat.not_lt] at hno
    have hidle : d.rehashidx = none := by simpa using hno.1
    obtain ⟨n, hpow, h⟩ := Option.bind_eq_some_iff.mp h
    simp only at h
    split at h
    next hempty =>
      cases h
      exact .first hidle (List.isEmpty_iff.mp hempty) hpow
    next hempty =>
      cases h
      exact .second hidle (fun hnil => hempty (List.isEmpty_iff.mpr hnil)) hno.2 hpow

/-- `dict_try_expand` does nothing, or expands a table that is not there or full. -/
theorem dictTryExpand_cases {d d' : Dict K V} {rs : Int} (h : dictTryExpand d = some (d', rs)) :
    (d' = d ∧ (d.rehashidx ≠ none ∨ d.dt0.used < d.dt0.size)) ∨
      d.rehashidx = none ∧ ∃ size, Expanded d size d' rs ∧
        (d.dt0.size = 0 ∧ size = dictInitSize ∨
          d.dt0.size ≤ d.dt0.used ∧ size = u32 (d.dt0.used * 2)) := by
  rw [dictTryExpand] at h
  split_ifs at h with hbusy h0 hfull
  · cases h
    exact .inl ⟨rfl, .inl (Option.isSome_iff_ne_none.mp hbusy)⟩
  · exact .inr ⟨by simpa [Dict.rehashing] using hbusy, _, dictExpand_cases h, .inl ⟨h0, rfl⟩⟩
  · exact .inr ⟨by simpa [Dict.rehashing] using hbusy, _, dictExpand_cases h, .inr ⟨hfull, rfl⟩⟩
  · cases h
    exact .inl ⟨rfl, .inr (Nat.not_le.mp hfull)⟩

theorem Expanded.subperm {d d' : Dict K V} {size : Nat} {rs : Int} (h : Expanded d size d' rs) :
    d'.all.Subperm d.all := by
  cases h with
  | refused _ => exact .refl _
  | first _ _ _ =>
      rw [Dict.all, chained_freshTable, List.nil_append]
      exact (List.sublist_append_right _ _).subperm
  | second _ _ _ _ =>
      rw [Dict.all, chained_freshTable, List.append_nil]
      exact (List.sublist_append_left _ _).subperm

theorem dictTryExpand_subperm {d d' : Dict K V} {rs : Int} (h : dictTryExpand d = some (d', rs)) :
    d'.all.Subperm d.all := by
  obtain ⟨rfl, -⟩ | ⟨-, size, hexp, -⟩ := dictTryExpand_cases h
  · exact .refl _
  · exact hexp.subperm

inductive Pushed (d : Dict K V) (e : DictEntry K V) : Dict K V → Prop
  | first {idx : Nat} {t : DictTable K V} (idle : d.rehashidx = none)
      (push : d.dt0.push idx e = some t) :
      Pushed d e { d with dt0 := t, nextAddr := d.nextAddr + 1 }
  | second {idx r : Nat} {t : DictTable K V} (busy : d.rehashidx = some r)
      (push : d.dt1.push idx e = some t) :
      Pushed d e { d with dt1 := t, nextAddr := d.nextAddr + 1 }

theorem Pushed.perm {d d' : Dict K V} {e : DictEntry K V} (h : Pushed d e d') :
    d'.all.Perm (e :: d.all) := by
  cases h with
  | first _ push => exact (DictTable.push_perm push).append_right _
  | second _ push => exact ((DictTable.push_perm push).append_left _).trans List.perm_middle

def Dict.newEntry (d : Dict K V) (o : DictOpts K V) (key : K) (val : V) : DictEntry K V :=
  ⟨d.nextAddr, o.setKey key, o.setValue val, 1⟩

inductive Taken (d : Dict K V) (e : DictEntry K V) (next : Option Nat) : Dict K V → Prop
  | first {t : DictTable K V} (without : d.dt0.Without e next t) :
      Taken d e next { d with dt0 := t, detached := unlinked e next ++ d.detached }
  | second {t : DictTable K V} (without : d.dt1.Without e next t) :
      Taken d e next { d with dt1 := t, detached := unlinked e next ++ d.detached }

theorem Taken.perm {d d' : Dict K V} {e : DictEntry K V} {next : Option Nat}
    (h : Taken d e next d') : d.all.Perm (e :: d'.all) := by
  cases h with
  | first without => exact without.perm.append_right _
  | second without => exact (without.perm.append_left _).trans List.perm_middle

section

variable [DecidableEq K]

theorem dictKeyIndex_cases {d d' : Dict K V} {key : K} {idx : Option Nat}
    (h : dictKeyIndex o d key = some (d', idx)) :
    ∃ rs, dictTryExpand d = some (d', rs) ∧ (idx ≠ none → 0 ≤ rs) := by
  rw [dictKeyIndex] at h
  obtain ⟨⟨d₁, rs⟩, hexp, h⟩ := Option.bind_eq_some_iff.mp h
  simp only at h
  suffices d' = d₁ ∧ (idx ≠ none → 0 ≤ rs) by
    rw [this.1]
    exact ⟨rs, hexp, this.2⟩
  split at h
  next =>
    cases h
    exact ⟨rfl, fun hne => absurd rfl hne⟩
  next hneg =>
    refine ⟨?_, fun _ => Int.not_lt.mp hneg⟩
    obtain ⟨r, -, h⟩ := Option.bind_eq_some_iff.mp h
    cases r with
    | some e =>
        cases h
        rfl
    | none =>
        simp only at h
        split at h
        · cases h
          rfl
        · obtain ⟨r', -, h⟩ := Option.bind_eq_some_iff.mp h
          cases r' with
          | some e =>
              cases h
              rfl
          | none =>
              cases h
              rfl

/-- `dict_add` moves a chain, expands and then adds its entry or not. -/
theorem dictAdd_cases {d d' : Dict K V} {key : K} {val : V} {rs : Int}
    (h : dictAdd o d key val = some (d', rs)) :
    ∃ d₁ d₂ n, Rehashed o d d₁ ∧ dictTryExpand d₁ = some (d₂, n) ∧
      (d' = d₂ ∨ 0 ≤ n ∧ Pushed d₂ (d₂.newEntry o key val) d') := by
  rw [dictAdd] at h
  obtain ⟨d₁, htry, h⟩ := Option.bind_eq_some_iff.mp h
  obtain ⟨⟨d₂, idx⟩, hidx, h⟩ := Option.bind_eq_some_iff.mp h
  obtain ⟨n, hexp, hn⟩ := dictKeyIndex_cases hidx
  refine ⟨d₁, d₂, n, dictTryRehash_cases htry, hexp, ?_⟩
  cases idx with
  | none =>
      cases h
      exact .inl rfl
  | some idx =>
      refine .inr ⟨hn (Option.some_ne_none idx), ?_⟩
      simp only at h
      split at h
      next hbusy =>
        obtain ⟨dt, hpush, h⟩ := Option.bind_eq_some_iff.mp h
        cases h
        obtain ⟨r, hr⟩ := Option.isSome_iff_exists.mp hbusy
        exact .second hr hpush
      next hbusy =>
        obtain ⟨dt, hpush, h⟩ := Option.bind_eq_some_iff.mp h
        cases h
        exact .first (by simpa [Dict.rehashing] using hbusy) hpush

theorem dictFind_cases {d d' : Dict K V} {key : K} {r : Option (DictEntry K V)}
    (h : dictFind o d key = some (d', r)) :
    (d.dt0.size = 0 ∧ d' = d ∧ r = none) ∨ d.dt0.size ≠ 0 ∧ Rehashed o d d' ∧
      ∀ e, r = some e → e ∈ d'.all ∧ o.compare e.key key = true := by
  rw [dictFind] at h
  split at h
  next h0 =>
    cases h
    exact .inl ⟨h0, rfl, rfl⟩
  next h0 =>
    refine .inr ⟨h0, ?_⟩
    obtain ⟨d₁, htry, h⟩ := Option.bind_eq_some_iff.mp h
    have hre := dictTryRehash_cases htry
    obtain ⟨r₀, hr₀, h⟩ := Option.bind_eq_some_iff.mp h
    cases r₀ with
    | some e =>
        cases h
        refine ⟨hre, fun e' he => ?_⟩
        cases he
        obtain ⟨hmem, heq⟩ := DictTable.search_mem hr₀
        exact ⟨List.mem_append_left _ hmem, heq⟩
    | none =>
        simp only at h
        split at h
        · cases h
          exact ⟨hre, fun e he => by cases he⟩
        · obtain ⟨r₁, hr₁, h⟩ := Option.bind_eq_some_iff.mp h
          cases h
          refine ⟨hre, fun e he => ?_⟩
          obtain ⟨hmem, heq⟩ := DictTable.search_mem (hr₁.trans (congrArg some he))
          exact ⟨List.mem_append_right _ hmem, heq⟩

theorem dictReplace_cases {d d' : Dict K V} {key : K} {val : V} {rs : Int}
    (h : dictReplace o d key val = some (d', rs)) :
    ∃ d₁ r, dictFind o d key = some (d₁, r) ∧
      ((∃ e, r = some e ∧ d' = d₁.modify e.addr fun e => { e with value := o.setValue val }) ∨
        r = none ∧ dictAdd o d₁ key val = some (d', rs)) := by
  rw [dictReplace] at h
  obtain ⟨⟨d₁, r⟩, hfind, h⟩ := Option.bind_eq_some_iff.mp h
  refine ⟨d₁, r, hfind, ?_⟩
  cases r with
  | some e =>
      cases h
      exact .inl ⟨e, rfl, rfl⟩
  | none => exact .inr ⟨rfl, h⟩

theorem dictDelInternal_cases {d d' : Dict K V} {key : K} {rs : Int}
    (h : dictDelInternal o d key = some (d', rs)) :
    (d.dt0.size = 0 ∧ d' = d) ∨ d.dt0.size ≠ 0 ∧ ∃ d₁, Rehashed o d d₁ ∧
      (d' = d₁ ∨ ∃ e next, Taken d₁ e next d') := by
  rw [dictDelInternal] at h
  split at h
  next h0 =>
    cases h
    exact .inl ⟨h0, rfl⟩
  next h0 =>
    obtain ⟨d₁, htry, h⟩ := Option.bind_eq_some_iff.mp h
    refine .inr ⟨h0, d₁, dictTryRehash_cases htry, ?_⟩
    obtain ⟨r₀, hr₀, h⟩ := Option.bind_eq_some_iff.mp h
    cases r₀ with
    | some r =>
        cases h
        obtain ⟨e, next, hout, hkept⟩ := DictTable.unlink_cases hr₀
        exact .inr ⟨e, next, hkept ▸ .first hout⟩
    | none =>
        simp only at h
        split at h
        · cases h
          exact .inl rfl
        · obtain ⟨r₁, hr₁, h⟩ := Option.bind_eq_some_iff.mp h
          cases r₁ with
          | some r =>
              cases h
              obtain ⟨e, next, hout, hkept⟩ := DictTable.unlink_cases hr₁
              exact .inr ⟨e, next, hkept ▸ .second hout⟩
          | none =>
              cases h
              exact .inl rfl

theorem dictFind_entries {d d' : Dict K V} {key : K} {r : Option (DictEntry K V)}
    (h : dictFind o d key = some (d', r)) :
    d'.all ⊆ d.all ∧ ∀ e, r = some e → e ∈ d.all ∧ o.compare e.key key = true := by
  obtain ⟨-, rfl, rfl⟩ | ⟨-, hre, hfound⟩ := dictFind_cases h
  · exact ⟨List.Subset.refl _, fun e he => by cases he⟩
  · exact ⟨hre.subperm.subset, fun e he => (hfound e he).imp_left (hre.subperm.subset ·)⟩

theorem dictAdd_entries {d d' : Dict K V} {key : K} {val : V} {rs : Int}
    (h : dictAdd o d key val = some (d', rs)) :
    ∀ e ∈ d'.all, e ∈ d.all ∨ e.key = o.setKey key ∧ e.value = o.setValue val := by
  obtain ⟨d₁, d₂, n, hre, hexp, hend⟩ := dictAdd_cases h
  have hsub : d₂.all ⊆ d.all := ((dictTryExpand_subperm hexp).trans hre.subperm).subset
  rcases hend with rfl | ⟨-, hpush⟩
  · exact fun e he => .inl (hsub he)
  · intro e he
    rcases List.mem_cons.mp (hpush.perm.subset he) with rfl | he
    · exact .inr ⟨rfl, rfl⟩
    · exact .inl (hsub he)

end

end ThrSocket
