import Mathlib.Logic.Function.Basic

/-!
Heaps of blocks of one type under explicit allocation. An address is given out
once and names a block until the block is released; a reallocation may move
the block, and whether the k-th one does is up to the allocator.
-/

structure BlockHeap (β : Type*) where
  get : Nat → Option β
  next : Nat
  reallocs : Nat
  fresh : ∀ p, next ≤ p → get p = none

namespace BlockHeap

variable {β : Type*}

def empty : BlockHeap β := ⟨fun _ => none, 0, 0, fun _ _ => rfl⟩

def alloc (h : BlockHeap β) (b : β) : BlockHeap β × Nat :=
  (⟨Function.update h.get h.next (some b), h.next + 1, h.reallocs, fun p hp => by
      rw [Function.update_of_ne (by omega)]
      exact h.fresh p (by omega)⟩, h.next)

theorem lt_next {h : BlockHeap β} {p : Nat} {b : β} (hp : h.get p = some b) : p < h.next := by
  by_contra hle
  rw [h.fresh p (by omega)] at hp
  cases hp

def set (h : BlockHeap β) (p : Nat) (b : β) : Option (BlockHeap β) :=
  match hp : h.get p with
  | none => none
  | some _ =>
      some ⟨Function.update h.get p (some b), h.next, h.reallocs, fun q hq => by
        rw [Function.update_of_ne (by have := lt_next hp; omega)]
        exact h.fresh q hq⟩

def free (h : BlockHeap β) (p : Nat) : BlockHeap β :=
  ⟨Function.update h.get p none, h.next, h.reallocs, fun q hq => by
    rw [Function.update_apply, h.fresh q hq, ite_self]⟩

/-- The block at `p` becomes `b`, at a new address if the allocator moves it. -/
def realloc (moves : Nat → Bool) (h : BlockHeap β) (p : Nat) (b : β) :
    Option (BlockHeap β × Nat) :=
  match h.get p with
  | none => none
  | some _ =>
      let h' := { h with reallocs := h.reallocs + 1 }
      if moves h.reallocs then some ((h'.free p).alloc b) else (h'.set p b).map (·, p)

section

variable {h h' : BlockHeap β} {p p' q : Nat} {b b₀ : β}

theorem alloc_get_self (h : BlockHeap β) (b : β) : (h.alloc b).1.get (h.alloc b).2 = some b :=
  Function.update_self ..

theorem alloc_get_of_some (hq : h.get q = some b₀) : (h.alloc b).1.get q = some b₀ := by
  have := lt_next hq
  rw [← hq]
  exact Function.update_of_ne (by omega) ..

theorem set_of_some (hp : h.get p = some b₀) :
    ∃ h', h.set p b = some h' ∧ h'.get = Function.update h.get p (some b) := by
  rw [set]
  split
  · rename_i hn
    rw [hp] at hn
    cases hn
  · exact ⟨_, rfl, rfl⟩

/-- A block is as it was last written, whatever the memory held at first. -/
theorem alloc_set (h : BlockHeap β) (b b' : β) :
    (h.alloc b).1.set (h.alloc b).2 b' = some (h.alloc b').1 := by
  rw [set]
  split
  · rename_i hn
    rw [alloc_get_self] at hn
    cases hn
  · simp [alloc]

theorem set_of_ne (hset : h.set p b = some h') (hq : q ≠ p) : h'.get q = h.get q := by
  rw [set] at hset
  split at hset
  · cases hset
  · cases hset
    exact Function.update_of_ne hq ..

theorem free_of_ne (hq : q ≠ p) : (h.free p).get q = h.get q := Function.update_of_ne hq ..

/-- Another block stays as it is, and the block that was resized is not put in its place. -/
theorem realloc_of_ne {moves : Nat → Bool} (hr : h.realloc moves p b = some (h', p'))
    (hq : h.get q = some b₀) (hne : q ≠ p) : h'.get q = some b₀ ∧ q ≠ p' := by
  rw [realloc] at hr
  split at hr
  · cases hr
  · dsimp only at hr
    split at hr
    · cases hr
      have hlt : q < h.next := lt_next hq
      exact ⟨alloc_get_of_some ((free_of_ne hne).trans hq), Nat.ne_of_lt hlt⟩
    · obtain ⟨h₁, hset, heq⟩ := Option.map_eq_some_iff.mp hr
      cases heq
      exact ⟨(set_of_ne hset hne).trans hq, hne⟩

/-- Where the allocator moves the block, the old address names nothing. -/
theorem realloc_moved_stale {moves : Nat → Bool} (hm : moves h.reallocs = true)
    (hr : h.realloc moves p b = some (h', p')) : h'.get p = none := by
  rw [realloc] at hr
  split at hr
  · cases hr
  · rename_i hp
    have hlt := lt_next hp
    rw [if_pos hm] at hr
    cases hr
    simp only [free]
    rw [Function.update_of_ne (by omega), Function.update_self]

end

end BlockHeap
