import Mathlib.Data.Set.Insert
import ThrSocket.Lib.Machine

/-!
Walks over a collection that grows meanwhile. A walk has its elements ahead in some
order; a new element gets in among them or is left behind. Up to its end the walk
visits every element that was there at first, and none twice.
-/

/-- A collection and what of it a walk has still ahead. -/
structure Cursor (α : Type*) where
  members : Set α
  ahead : List α

namespace Cursor

variable {α ι ο : Type*}

inductive Inserted (x : α) : List α → List α → Prop
  | behind (l : List α) : Inserted x l l
  | among (l₁ l₂ : List α) : Inserted x (l₁ ++ l₂) (l₁ ++ x :: l₂)

inductive Step : Cursor α → Option (Option α) → Cursor α → Prop
  | visit (m : Set α) (x : α) (l : List α) : Step ⟨m, x :: l⟩ (some (some x)) ⟨m, l⟩
  | finish (m : Set α) : Step ⟨m, []⟩ (some none) ⟨m, []⟩
  | keep (c : Cursor α) : Step c none c
  | grow {m : Set α} {x : α} {l l' : List α} (new : x ∉ m) (h : Inserted x l l') :
      Step ⟨m, l⟩ none ⟨insert x m, l'⟩

section

variable {x : α} {l l' : List α}

theorem Inserted.append_right (h : Inserted x l l') (r : List α) :
    Inserted x (l ++ r) (l' ++ r) := by
  cases h with
  | behind => exact .behind _
  | among l₁ l₂ =>
      rw [List.append_assoc, List.append_assoc]
      exact .among l₁ (l₂ ++ r)

theorem Inserted.append_left (h : Inserted x l l') (r : List α) :
    Inserted x (r ++ l) (r ++ l') := by
  cases h with
  | behind => exact .behind _
  | among l₁ l₂ =>
      rw [← List.append_assoc, ← List.append_assoc]
      exact .among (r ++ l₁) l₂

theorem Inserted.subset (h : Inserted x l l') : l ⊆ l' := by
  cases h with
  | behind => exact List.Subset.refl _
  | among l₁ l₂ => exact (List.sublist_cons_self x l₂).append_left l₁ |>.subset

theorem Inserted.mem (h : Inserted x l l') {y : α} (hy : y ∈ l') : y = x ∨ y ∈ l := by
  cases h with
  | behind => exact .inr hy
  | among l₁ l₂ =>
      rw [List.mem_append, List.mem_cons] at hy
      rw [List.mem_append]
      tauto

theorem Inserted.nodup (h : Inserted x l l') (hx : x ∉ l) (hl : l.Nodup) : l'.Nodup := by
  cases h with
  | behind => exact hl
  | among l₁ l₂ => exact List.perm_middle.nodup_iff.mpr (List.nodup_cons.mpr ⟨hx, hl⟩)

/-- A new element in front of one of several lists. -/
theorem inserted_flatten {ls : List (List α)} {i : Nat} {c : List α} (h : ls[i]? = some c) (x : α) :
    Inserted x ls.flatten (ls.set i (x :: c)).flatten := by
  obtain ⟨hi, rfl⟩ := List.getElem?_eq_some_iff.mp h
  have hins := Inserted.among (x := x) (ls.take i).flatten (ls[i] ++ (ls.drop (i + 1)).flatten)
  rw [List.set_eq_take_append_cons_drop, if_pos hi, List.flatten_append, List.flatten_cons]
  conv in ls.flatten => rw [← List.take_append_drop i ls, List.drop_eq_getElem_cons hi]
  rw [List.flatten_append, List.flatten_cons]
  exact hins

theorem inserted_drop {ls : List (List α)} {i : Nat} {c : List α} (h : ls[i]? = some c) (x : α)
    (k : Nat) : Inserted x (ls.drop k).flatten ((ls.set i (x :: c)).drop k).flatten := by
  rw [List.drop_set]
  split_ifs with hik
  · exact .behind _
  · refine inserted_flatten ?_ x
    rw [List.getElem?_drop, Nat.add_sub_cancel' (Nat.not_lt.mp hik), h]

end

def visits (see : ο → Option (Option α)) (os : List ο) : List α :=
  os.filterMap fun o => (see o).join

structure Sound (c : Cursor α) : Prop where
  mem : ∀ x ∈ c.ahead, x ∈ c.members
  nodup : c.ahead.Nodup

theorem Sound.step {c c' : Cursor α} {o : Option (Option α)} (h : c.Sound) (hs : Step c o c') :
    c'.Sound := by
  cases hs with
  | visit m x l =>
      exact ⟨fun y hy => h.mem y (List.mem_cons_of_mem _ hy), (List.nodup_cons.mp h.nodup).2⟩
  | finish m => exact h
  | keep => exact h
  | grow new hins =>
      refine ⟨fun y hy => ?_, hins.nodup (fun hx => new (h.mem _ hx)) h.nodup⟩
      exact (hins.mem hy).imp id (h.mem y)

structure Covers (c : Cursor α) (vs : List α) (ended : Prop) (c' : Cursor α) : Prop where
  nodup : vs.Nodup
  members : ∀ x ∈ c.members, x ∈ c'.members
  visited : ∀ x ∈ vs, x ∈ c'.members
  passed : ∀ x ∈ c.members, x ∉ c.ahead → x ∉ vs
  all : ended → ∀ x ∈ c.ahead, x ∈ vs

theorem Covers.step {c c₁ c' : Cursor α} {o : Option (Option α)} {vs : List α} {ended : Prop}
    (h : Covers c₁ vs ended c') (hc : c.Sound) (hs : Step c o c₁) :
    Covers c (o.join.toList ++ vs) (o = some none ∨ ended) c' := by
  cases hs with
  | visit m x l =>
      have hx : x ∉ l := (List.nodup_cons.mp hc.nodup).1
      have hxm : x ∈ m := hc.mem x List.mem_cons_self
      refine ⟨List.nodup_cons.mpr ⟨h.passed x hxm hx, h.nodup⟩, h.members, ?_, ?_, ?_⟩
      · intro y hy
        rcases List.mem_cons.mp hy with rfl | hy
        · exact h.members _ hxm
        · exact h.visited y hy
      · intro y hm hy hv
        rcases List.mem_cons.mp hv with rfl | hv
        · exact hy List.mem_cons_self
        · exact h.passed y hm (fun hl => hy (List.mem_cons_of_mem _ hl)) hv
      · intro hend y hy
        rcases List.mem_cons.mp hy with rfl | hy
        · exact List.mem_cons_self
        · exact List.mem_cons_of_mem _ (h.all (hend.resolve_left (by simp)) y hy)
  | finish m =>
      exact ⟨h.nodup, h.members, h.visited, h.passed, fun _ y hy => by cases hy⟩
  | keep =>
      exact ⟨h.nodup, h.members, h.visited, h.passed, fun hend =>
        h.all (hend.resolve_left (by simp))⟩
  | grow new hins =>
      refine ⟨h.nodup, fun y hy => h.members y (.inr hy), h.visited, ?_, ?_⟩
      · intro y hm hy
        refine h.passed y (.inr hm) fun hl => ?_
        rcases hins.mem hl with rfl | hold
        · exact new hm
        · exact hy hold
      · exact fun hend y hy => h.all (hend.resolve_left (by simp)) y (hins.subset hy)

/-- A walk visits nothing twice, and at its end it has visited all that was ahead of it. -/
theorem covers_run {see : ο → Option (Option α)} {c c' : Cursor α} {is : List ι} {os : List ο}
    (h : Machine.SpecRun (fun c (_ : ι) o c' => Step c (see o) c') c is os c') (hc : c.Sound) :
    Covers c (visits see os) (∃ o ∈ os, see o = some none) c' := by
  -- from the end of the run back: what the rest covers, and one step in front of it
  induction h with
  | nil c =>
      refine ⟨List.nodup_nil, fun x hx => hx, (fun x hx => by cases hx),
        (fun x _ _ hx => by cases hx), ?_⟩
      rintro ⟨o, ho, -⟩
      cases ho
  | @cons c c₁ c' i o is os first rest ih =>
      have hcov := (ih (hc.step first)).step hc first
      have hvisits : visits see (o :: os) = (see o).join.toList ++ visits see os := by
        rw [visits, List.filterMap_cons]
        cases (see o).join with
        | none => rfl
        | some x => rfl
      rw [hvisits]
      exact ⟨hcov.nodup, hcov.members, hcov.visited, hcov.passed, fun hend => hcov.all (by
        simpa using hend)⟩

end Cursor
