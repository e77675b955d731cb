import Mathlib.Data.Finmap

/-!
Lists of entries that carry a key and a value, as representations of finite
maps. The order of the entries does not matter, and each map operation is one
operation on a list in which the entry concerned stands in front.
-/

namespace KeyedList

variable {ε α β : Type*} {key : ε → α} {val : ε → β}

def Lists (key : ε → α) (val : ε → β) (l : List ε) (m : Finmap fun _ : α => β) : Prop :=
  m.entries = (l.map fun e => (⟨key e, val e⟩ : Sigma fun _ : α => β) : Multiset _)

namespace Lists

variable {l l' : List ε} {m : Finmap fun _ : α => β} {e e' : ε}

theorem nil : Lists key val [] ∅ := rfl

theorem perm (h : Lists key val l m) (hp : l.Perm l') : Lists key val l' m :=
  Eq.trans h (Multiset.coe_eq_coe.mpr (hp.map _))

/-- Fields beside the key and the value are no part of the map. -/
theorem of_map {f : ε → ε} (h : Lists key val l m) (hk : ∀ e ∈ l, key (f e) = key e)
    (hv : ∀ e ∈ l, val (f e) = val e) : Lists key val (l.map f) m := by
  refine Eq.trans h (congrArg _ ?_)
  rw [List.map_map]
  refine List.map_congr_left fun e he => ?_
  rw [Function.comp_apply, hk e he, hv e he]

theorem keys_map (h : Lists key val l m) : m.entries.keys = l.map key := by
  rw [Lists] at h
  rw [h, Multiset.keys, Multiset.map_coe, List.map_map]
  rfl

/-- The keys of the entries are distinct. -/
theorem nodup (h : Lists key val l m) : (l.map key).Nodup := by
  have hn := m.nodupKeys
  rw [← Multiset.nodup_keys, h.keys_map] at hn
  exact hn

theorem mem_iff (h : Lists key val l m) {a : α} : a ∈ m ↔ ∃ e ∈ l, key e = a := by
  rw [Finmap.mem_def, h.keys_map]
  simp

theorem card_keys (h : Lists key val l m) : m.keys.card = l.length := by
  have hval : m.keys.val = (l.map key : Multiset α) := h.keys_map
  rw [Finset.card, hval, Multiset.coe_card, List.length_map]

variable [DecidableEq α]

theorem lookup (h : Lists key val l m) (he : e ∈ l) : m.lookup (key e) = some (val e) := by
  rw [Finmap.lookup_eq_some_iff]
  rw [Lists] at h
  rw [h]
  exact List.mem_map_of_mem (f := fun e => (⟨key e, val e⟩ : Sigma fun _ : α => β)) he

theorem lookup_eq_none (h : Lists key val l m) {a : α} (ha : ∀ e ∈ l, key e ≠ a) :
    m.lookup a = none := by
  rw [Finmap.lookup_eq_none, h.mem_iff]
  rintro ⟨e, he, hk⟩
  exact ha e he hk

theorem insert (h : Lists key val l m) (hnew : ∀ e' ∈ l, key e' ≠ key e) :
    Lists key val (e :: l) (m.insert (key e) (val e)) := by
  have hmem : key e ∉ m := by
    rw [h.mem_iff]
    rintro ⟨e', he', hk⟩
    exact hnew e' he' hk
  rw [Lists] at h ⊢
  rw [Finmap.entries_insert_of_notMem hmem, h]
  rfl

/-- A map listed with an entry in front is a smaller map and that entry. -/
theorem of_cons (h : Lists key val (e :: l) m) :
    ∃ m', Lists key val l m' ∧ m = m'.insert (key e) (val e) ∧ ∀ e' ∈ l, key e' ≠ key e := by
  obtain ⟨hnew, hnd⟩ := List.nodup_cons.mp h.nodup
  have hne : ∀ e' ∈ l, key e' ≠ key e := fun e' he' hk => hnew (hk ▸ List.mem_map_of_mem he')
  have hkeys : (l.map fun e => (⟨key e, val e⟩ : Sigma fun _ : α => β)).NodupKeys := by
    rw [List.NodupKeys, List.keys, List.map_map]
    exact hnd
  have hl : Lists key val l (⟨_, Multiset.coe_nodupKeys.mpr hkeys⟩ : Finmap fun _ : α => β) := rfl
  exact ⟨_, hl, Finmap.ext (Eq.trans h (hl.insert hne).symm), hne⟩

theorem erase (h : Lists key val (e :: l) m) : Lists key val l (m.erase (key e)) := by
  obtain ⟨m', hl, rfl, hne⟩ := h.of_cons
  have heq : (m'.insert (key e) (val e)).erase (key e) = m' := by
    apply Finmap.ext_lookup
    intro a
    by_cases ha : a = key e
    · rw [ha, Finmap.lookup_erase, hl.lookup_eq_none hne]
    · rw [Finmap.lookup_erase_ne ha, Finmap.lookup_insert_of_ne _ ha]
  rw [heq]
  exact hl

/-- Another entry for the same key takes the place of the first one. -/
theorem replace (h : Lists key val (e :: l) m) (hk : key e' = key e) :
    Lists key val (e' :: l) (m.insert (key e') (val e')) := by
  obtain ⟨m', hl, rfl, hne⟩ := h.of_cons
  rw [hk, Finmap.insert_insert, ← hk]
  exact hl.insert (hk ▸ hne)

end Lists

end KeyedList
