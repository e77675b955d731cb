import Mathlib.Data.List.Perm.Basic

/-!
A system of components kept in a list, one of which takes a step while the
others stand still: what all components satisfy, and what they hold together.
-/

namespace Components

variable {α β : Type*} {l : List α} {i : Nat} {a b : α}

theorem forall_set {p : α → Prop} (hl : ∀ c ∈ l, p c) (hb : p b) : ∀ c ∈ l.set i b, p c := by
  intro c hc
  rcases List.mem_or_eq_of_mem_set hc with hc | rfl
  · exact hl c hc
  · exact hb

/-- A component with `p` other than the one that steps is still there. -/
theorem exists_set {p : α → Prop} (hi : l[i]? = some a) (hl : ∃ c ∈ l, p c) (hab : p a → p b) :
    ∃ c ∈ l.set i b, p c := by
  obtain ⟨c, hc, hpc⟩ := hl
  obtain ⟨j, hj, rfl⟩ := List.mem_iff_getElem.mp hc
  obtain ⟨hlt, rfl⟩ := List.getElem?_eq_some_iff.mp hi
  by_cases hij : i = j
  · subst hij
    exact ⟨b, List.mem_set hlt b, hab hpc⟩
  · refine ⟨l[j], List.mem_iff_getElem.mpr ⟨j, by rwa [List.length_set], ?_⟩, hpc⟩
    exact List.getElem_set_ne hij _

theorem mem_of_getElem?_set (hi : l[i]? = some a) : b ∈ l.set i b := by
  obtain ⟨hlt, _⟩ := List.getElem?_eq_some_iff.mp hi
  exact List.mem_set hlt b

/-- What the components hold together, with one of them set apart. -/
theorem flatMap_perm (f : α → List β) (hi : l[i]? = some a) :
    (l.flatMap f).Perm (f a ++ (l.eraseIdx i).flatMap f) := by
  obtain ⟨hlt, rfl⟩ := List.getElem?_eq_some_iff.mp hi
  exact ((List.getElem_cons_eraseIdx_perm hlt).symm.flatMap_right f).trans
    (.of_eq List.flatMap_cons)

theorem flatMap_set_perm (f : α → List β) (hi : l[i]? = some a) :
    ((l.set i b).flatMap f).Perm (f b ++ (l.eraseIdx i).flatMap f) := by
  obtain ⟨hlt, rfl⟩ := List.getElem?_eq_some_iff.mp hi
  exact ((List.set_perm_cons_eraseIdx hlt b).flatMap_right f).trans (.of_eq List.flatMap_cons)

/-- What one component gives out by its step, the system gives out. -/
theorem flatMap_set_gives (f : α → List β) (out : List β) (hi : l[i]? = some a)
    (hab : f a = out ++ f b) : (l.flatMap f).Perm (out ++ (l.set i b).flatMap f) := by
  refine (flatMap_perm f hi).trans ?_
  rw [hab, List.append_assoc]
  exact (flatMap_set_perm f hi).symm.append_left out

/-- What one component takes in, the system takes in. -/
theorem flatMap_set_takes (f : α → List β) (new : List β) (hi : l[i]? = some a)
    (hab : f b = new ++ f a) : ((l.set i b).flatMap f).Perm (new ++ l.flatMap f) := by
  refine (flatMap_set_perm f hi).trans ?_
  rw [hab, List.append_assoc]
  exact (flatMap_perm f hi).symm.append_left new

end Components
