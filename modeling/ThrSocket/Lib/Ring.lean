import Mathlib.Data.List.Cycle

/-!
Doubly linked rings. A list of nodes is a ring of two partial functions `next`
and `prev` when each node and its successor, and the last node and the first,
point at each other. Splicing a node in between the last one and the first, and
unlinking the first one, change four links and two.
-/

section

variable {α : Type*}

def Linked (next prev : α → Option α) (a b : α) : Prop := next a = some b ∧ prev b = some a

def IsRing (next prev : α → Option α) (l : List α) : Prop :=
  Cycle.Chain (Linked next prev) (l : Cycle α)

structure Spliced (next prev next' prev' : α → Option α) (z x h : α) : Prop where
  back : Linked next' prev' z x
  front : Linked next' prev' x h
  next_eq : ∀ a, a ≠ z → a ≠ x → next' a = next a
  prev_eq : ∀ a, a ≠ h → a ≠ x → prev' a = prev a

structure Unlinked (next prev next' prev' : α → Option α) (z x h : α) : Prop where
  closed : Linked next' prev' z h
  next_eq : ∀ a, a ≠ z → a ≠ x → next' a = next a
  prev_eq : ∀ a, a ≠ h → a ≠ x → prev' a = prev a

variable {next prev next' prev' : α → Option α} {l : List α} {a b h x z : α}

theorem Spliced.of_updates [DecidableEq α] (hz : z ≠ x) (hh : h ≠ x)
    (hnext : next' = Function.update (Function.update next x (some h)) z (some x))
    (hprev : prev' = Function.update (Function.update prev x (some z)) h (some x)) :
    Spliced next prev next' prev' z x h where
  back := by simp [Linked, hnext, hprev, hh.symm]
  front := by simp [Linked, hnext, hprev, hz.symm]
  next_eq a ha hx := by simp [hnext, ha, hx]
  prev_eq a ha hx := by simp [hprev, ha, hx]

theorem Unlinked.of_updates [DecidableEq α] (hz : z ≠ x) (hh : h ≠ x)
    (hnext : next' = Function.update (Function.update next z (some h)) x none)
    (hprev : prev' = Function.update (Function.update prev h (some z)) x none) :
    Unlinked next prev next' prev' z x h where
  closed := by simp [Linked, hnext, hprev, hz, hh]
  next_eq a ha hx := by simp [hnext, ha, hx]
  prev_eq a ha hx := by simp [hprev, ha, hx]

namespace IsRing

theorem nil : IsRing next prev [] := Cycle.Chain.nil _

theorem singleton_iff : IsRing next prev [a] ↔ next a = some a ∧ prev a = some a :=
  Cycle.chain_singleton _ a

/-- The ring has no first node. -/
theorem rotate_iff : IsRing next prev (a :: l) ↔ IsRing next prev (l ++ [a]) := by
  unfold IsRing
  rw [Cycle.coe_cons_eq_coe_append]

theorem append_iff (hl : l.getLast? = some z) :
    IsRing next prev l ↔ l.IsChain (Linked next prev) ∧ ∀ a ∈ l.head?, Linked next prev z a := by
  have hne : l ≠ [] := by
    rintro rfl
    cases hl
  rw [IsRing]
  rw [Cycle.chain_ne_nil _ hne, List.isChain_cons, List.getLast_of_mem_getLast? hl, and_comm]

theorem last_first (hr : IsRing next prev l) (hz : l.getLast? = some z) (hh : l.head? = some h) :
    Linked next prev z h :=
  ((append_iff hz).mp hr).2 h hh

/-- The first node points at the second, or at itself where there is none. -/
theorem first_next (hr : IsRing next prev (x :: l)) :
    ∃ b, (l ++ [x]).head? = some b ∧ Linked next prev x b := by
  have hne : l ++ [x] ≠ [] := List.append_ne_nil_of_right_ne_nil _ (by simp)
  obtain ⟨b, hb⟩ := Option.ne_none_iff_exists'.mp (mt List.head?_eq_none_iff.mp hne)
  exact ⟨b, hb, last_first (rotate_iff.mp hr) (List.getLast?_concat ..) hb⟩

end IsRing

/-- Links between nodes of which neither is rewired stay. -/
theorem isChain_linked_frame (hl : l.IsChain (Linked next prev))
    (hnext : ∀ a ∈ l.dropLast, next' a = next a) (hprev : ∀ a ∈ l.tail, prev' a = prev a) :
    l.IsChain (Linked next' prev') := by
  induction l with
  | nil => exact .nil
  | cons a l ih =>
      cases l with
      | nil => exact .singleton a
      | cons b l =>
          obtain ⟨hab, hbl⟩ := List.isChain_cons_cons.mp hl
          refine List.isChain_cons_cons.mpr ⟨⟨?_, ?_⟩, ih hbl ?_ ?_⟩
          · exact (hnext a List.mem_cons_self).trans hab.1
          · exact (hprev b List.mem_cons_self).trans hab.2
          · exact fun c hc => hnext c (List.mem_cons_of_mem a hc)
          · exact fun c hc => hprev c (List.mem_cons_of_mem b hc)

theorem ne_last_of_mem_dropLast (hnodup : l.Nodup) (hz : l.getLast? = some z)
    (ha : a ∈ l.dropLast) : a ≠ z := by
  obtain ⟨l, rfl⟩ := List.getLast?_eq_some_iff.mp hz
  rw [List.dropLast_concat] at ha
  rintro rfl
  exact List.disjoint_of_nodup_append hnodup ha List.mem_cons_self

theorem ne_first_of_mem_tail (hnodup : l.Nodup) (hh : l.head? = some h) (ha : a ∈ l.tail) :
    a ≠ h := by
  obtain ⟨l, rfl⟩ := List.head?_eq_some_iff.mp hh
  rintro rfl
  exact (List.nodup_cons.mp hnodup).1 ha

theorem isChain_linked_ends (hnodup : l.Nodup) (hz : l.getLast? = some z) (hh : l.head? = some h)
    (hx : x ∉ l) (hnext : ∀ a, a ≠ z → a ≠ x → next' a = next a)
    (hprev : ∀ a, a ≠ h → a ≠ x → prev' a = prev a) (hl : l.IsChain (Linked next prev)) :
    l.IsChain (Linked next' prev') := by
  refine isChain_linked_frame hl (fun a ha => hnext a ?_ ?_) fun a ha => hprev a ?_ ?_
  · exact ne_last_of_mem_dropLast hnodup hz ha
  · exact ne_of_mem_of_not_mem (List.mem_of_mem_dropLast ha) hx
  · exact ne_first_of_mem_tail hnodup hh ha
  · exact ne_of_mem_of_not_mem (List.mem_of_mem_tail ha) hx

namespace IsRing

/-- A node spliced in between the last and the first becomes the first. -/
theorem splice (hr : IsRing next prev l) (hnodup : l.Nodup) (hx : x ∉ l)
    (hz : l.getLast? = some z) (hh : l.head? = some h)
    (hs : Spliced next prev next' prev' z x h) : IsRing next' prev' (x :: l) := by
  have hchain := isChain_linked_ends hnodup hz hh hx hs.next_eq hs.prev_eq
    ((append_iff hz).mp hr).1
  have hlast : (x :: l).getLast? = some z := by
    rw [List.getLast?_cons, hz, Option.getD_some]
  refine (append_iff hlast).mpr ⟨List.isChain_cons.mpr ⟨?_, hchain⟩, ?_⟩
  · intro b hb
    rw [Option.mem_def, hh] at hb
    cases hb
    exact hs.front
  · intro b hb
    cases hb
    exact hs.back

/-- What is left of a ring when its first node is taken out. -/
theorem unlink (hr : IsRing next prev (x :: l)) (hnodup : (x :: l).Nodup)
    (hz : l.getLast? = some z) (hh : l.head? = some h)
    (hu : Unlinked next prev next' prev' z x h) : IsRing next' prev' l := by
  have hlast : (x :: l).getLast? = some z := by
    rw [List.getLast?_cons, hz, Option.getD_some]
  obtain ⟨hx, hnodup'⟩ := List.nodup_cons.mp hnodup
  have hchain := isChain_linked_ends hnodup' hz hh hx hu.next_eq hu.prev_eq
    ((append_iff hlast).mp hr).1.tail
  refine (append_iff hz).mpr ⟨hchain, fun b hb => ?_⟩
  rw [Option.mem_def, hh] at hb
  cases hb
  exact hu.closed

/-- On the nodes of a ring the two links are inverse to each other. -/
theorem inverse (hr : IsRing next prev l) (ha : a ∈ l) :
    (∃ b ∈ l, next a = some b ∧ prev b = some a) ∧
      ∃ b ∈ l, prev a = some b ∧ next b = some a := by
  obtain ⟨pre, post, rfl⟩ := List.append_of_mem ha
  have hperm : ∀ b, b ∈ a :: (post ++ pre) ↔ b ∈ pre ++ a :: post := by
    intro b
    simp only [List.mem_cons, List.mem_append]
    tauto
  have hring : IsRing next prev (a :: (post ++ pre)) := by
    rw [IsRing] at hr ⊢
    have hrot : (↑(pre ++ a :: post) : Cycle α) = ↑(a :: (post ++ pre)) :=
      Cycle.coe_eq_coe.mpr (List.IsRotated.symm (by
        simpa using @List.isRotated_append _ (a :: post) pre))
    rw [← hrot]
    exact hr
  constructor
  · obtain ⟨b, hb, hlink⟩ := first_next hring
    refine ⟨b, (hperm b).mp ?_, hlink⟩
    have := List.mem_of_head? hb
    simp only [List.mem_append, List.mem_cons, List.not_mem_nil, or_false] at this ⊢
    tauto
  · obtain ⟨b, hb⟩ : ∃ b, (a :: (post ++ pre)).getLast? = some b :=
      ⟨_, List.getLast?_eq_getLast_of_ne_nil (List.cons_ne_nil _ _)⟩
    have hlink := last_first hring hb rfl
    exact ⟨b, (hperm b).mp (List.mem_of_getLast? hb), hlink.2, hlink.1⟩

end IsRing

end
