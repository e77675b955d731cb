import ThrSocket.Lib.Follows

/-!
Two machines on the same labels. In lockstep both are defined on a list of labels or
neither is, their outputs are the same and their states stay related. A guard on the
single step that makes this so, and is needed for it, does the same for whole runs.
-/

namespace Machine

variable {σ β ι ο : Type*}

section

variable {α γ α' γ' : Type*} {S T : α → γ → Prop}

theorem rel_some_iff {x : α} {y : γ} : Option.Rel S (some x) (some y) ↔ S x y :=
  ⟨fun h => by cases h; assumption, .some⟩

theorem not_rel_none {y : γ} : ¬ Option.Rel S none (some y) := by
  intro h
  cases h

theorem not_rel_some {x : α} : ¬ Option.Rel S (some x) none := by
  intro h
  cases h

variable {x : Option α} {y : Option γ}

theorem rel_cases (h : Option.Rel S x y) :
    x = none ∧ y = none ∨ ∃ u v, x = some u ∧ y = some v ∧ S u v := by
  cases h with
  | none => exact .inl ⟨rfl, rfl⟩
  | some h => exact .inr ⟨_, _, rfl, rfl, h⟩

theorem rel_mono (h : Option.Rel S x y) (himp : ∀ u v, y = some v → S u v → T u v) :
    Option.Rel T x y := by
  cases h with
  | none => exact .none
  | some h => exact .some (himp _ _ rfl h)

theorem rel_map {T : α' → γ' → Prop} {f : α → α'} {g : γ → γ'} (h : Option.Rel S x y)
    (hmap : ∀ u v, S u v → T (f u) (g v)) : Option.Rel T (x.map f) (y.map g) := by
  cases h with
  | none => exact .none
  | some h => exact .some (hmap _ _ h)

end

def Lockstep (R : σ → β → Prop) (step : σ → ι → Option (σ × ο)) (step' : β → ι → Option (β × ο))
    (a : σ) (b : β) (is : List ι) : Prop :=
  Option.Rel (SameOutput R) (run step a is) (run step' b is)

section

variable {R : σ → β → Prop} {G : β → ι → Prop} {step : σ → ι → Option (σ × ο)}
  {step' : β → ι → Option (β × ο)} {a : σ} {b : β} {i : ι} {is : List ι}

theorem rel_push {o : ο} {x : Option (σ × List ο)} {y : Option (β × List ο)} :
    Option.Rel (SameOutput R) (x.map fun r => (r.1, o :: r.2)) (y.map fun r => (r.1, o :: r.2)) ↔
      Option.Rel (SameOutput R) x y := by
  cases x with
  | none =>
      cases y with
      | none => exact Iff.rfl
      | some y => exact iff_of_false not_rel_none not_rel_none
  | some x =>
      cases y with
      | none => exact iff_of_false not_rel_some not_rel_some
      | some y =>
          rw [Option.map_some, Option.map_some, rel_some_iff, rel_some_iff, SameOutput, SameOutput,
            List.cons.injEq]
          exact and_congr_right fun _ => and_iff_right rfl

theorem lockstep_cons {a' : σ} {b' : β} {o : ο} (ha : step a i = some (a', o))
    (hb : step' b i = some (b', o)) :
    Lockstep R step step' a b (i :: is) ↔ Lockstep R step step' a' b' is := by
  rw [Lockstep, run, run, ha, hb]
  exact rel_push

/-- One step on its own. -/
theorem Lockstep.first (h : Lockstep R step step' a b [i]) :
    Option.Rel (SameOutput R) (step a i) (step' b i) := by
  rw [Lockstep, run, run] at h
  cases ha : step a i with
  | none =>
      cases hb : step' b i with
      | none => exact .none
      | some y =>
          rw [ha, hb] at h
          exact absurd h not_rel_none
  | some x =>
      cases hb : step' b i with
      | none =>
          rw [ha, hb] at h
          exact absurd h not_rel_some
      | some y =>
          rw [ha, hb] at h
          have hsame := rel_some_iff.mp h
          exact .some ⟨hsame.1, (List.cons_eq_cons.mp hsame.2).1⟩

theorem Lockstep.mono {R' : σ → β → Prop} (h : Lockstep R step step' a b is)
    (hR : ∀ a b, R a b → R' a b) : Lockstep R' step step' a b is :=
  rel_mono h fun _ _ _ hsame => ⟨hR _ _ hsame.1, hsame.2⟩

/-- An invariant of the second machine holds of the states reached in lockstep. -/
theorem Lockstep.and_invariant (h : Lockstep R step step' a b is) (Inv : β → Prop)
    (keeps : ∀ {b i b' o}, Inv b → step' b i = some (b', o) → Inv b') (hb : Inv b) :
    Lockstep (fun a b => R a b ∧ Inv b) step step' a b is :=
  rel_mono h fun _ _ hrun hsame =>
    ⟨⟨hsame.1, invariant_run Inv (G := fun _ _ => True) (fun hb _ => keeps hb) hb
      (along_of_forall (L := fun _ => True) (fun _ _ _ => trivial) fun _ _ => trivial) hrun⟩,
      hsame.2⟩

/-- Machines that keep together in each guarded step keep together in guarded runs. -/
theorem lockstep_run
    (sim : ∀ {a b i}, R a b → G b i → Option.Rel (SameOutput R) (step a i) (step' b i))
    (hR : R a b) (hG : Along step' G b is) : Lockstep R step step' a b is := by
  induction is generalizing a b with
  | nil => exact .some ⟨hR, rfl⟩
  | cons i is ih =>
      cases rel_cases (sim hR hG.1) with
      | inl hnone =>
          rw [Lockstep, run, run, hnone.1, hnone.2]
          exact .none
      | inr hsome =>
          obtain ⟨⟨a', o⟩, ⟨b', o'⟩, ha, hb, hR', rfl⟩ := hsome
          exact (lockstep_cons ha hb).mpr (ih hR' (hG.2 b' o hb))

/-- Where a step that keeps together meets the guard, the guard holds along a run whose
beginnings all keep together. -/
theorem along_of_lockstep
    (needs : ∀ {a b i}, R a b → Option.Rel (SameOutput R) (step a i) (step' b i) → G b i)
    (hR : R a b) (h : ∀ n, Lockstep R step step' a b (is.take n)) : Along step' G b is := by
  induction is generalizing a b with
  | nil => trivial
  | cons i is ih =>
      have hstep := (h 1).first
      refine ⟨needs hR hstep, fun b' o hb => ?_⟩
      cases rel_cases hstep with
      | inl hnone => cases hb.symm.trans hnone.2
      | inr hsome =>
          obtain ⟨⟨a', o'⟩, y, ha, hy, hR', ho⟩ := hsome
          cases hb.symm.trans hy
          cases ho
          exact ih hR' fun n => (lockstep_cons ha hb).mp (h (n + 1))

end

end Machine
