import Mathlib.Tactic.Common

/-!
Machines that take one labelled step at a time and may be undefined on a label.
A property of the single step is carried to all steps of a run by an invariant,
under a guard that the labels of the run are assumed to meet; a relation to a
second machine is carried to whole runs in the same way.
-/

namespace Machine

variable {σ ι ο β : Type*}

/-- The state after a list of labels, with the outputs on the way. -/
def run (step : σ → ι → Option (σ × ο)) : σ → List ι → Option (σ × List ο)
  | s, [] => some (s, [])
  | s, i :: is =>
      match step s i with
      | none => none
      | some (s', o) => (run step s' is).map fun r => (r.1, o :: r.2)

/-- `P` holds of every state and label at which the run takes a step. -/
def Along (step : σ → ι → Option (σ × ο)) (P : σ → ι → Prop) : σ → List ι → Prop
  | _, [] => True
  | s, i :: is => P s i ∧ ∀ s' o, step s i = some (s', o) → Along step P s' is

/-- Labels of kind `L` can take the machine to a state with `Q`. -/
def Leads (step : σ → ι → Option (σ × ο)) (L : ι → Prop) (Q : σ → Prop) (s : σ) : Prop :=
  ∃ is t os, (∀ i ∈ is, L i) ∧ run step s is = some (t, os) ∧ Q t

def emitted {κ : Type*} (step : σ → ι → Option (σ × ο)) (emit : σ → ι → List κ) :
    σ → List ι → List κ
  | _, [] => []
  | s, i :: is =>
      match step s i with
      | none => []
      | some (s', _) => emit s i ++ emitted step emit s' is

def project {ι' : Type*} (step : σ → ι → Option (σ × ο)) (part : σ → ι → Option ι') (s : σ)
    (is : List ι) : List ι' :=
  emitted step (fun s i => (part s i).toList) s is

/-- A run that a specification allows, given as a relation of its states. -/
inductive SpecRun (spec : β → ι → ο → β → Prop) : β → List ι → List ο → β → Prop
  | nil (b : β) : SpecRun spec b [] [] b
  | cons {b b' b'' : β} {i : ι} {o : ο} {is : List ι} {os : List ο} (first : spec b i o b')
      (rest : SpecRun spec b' is os b'') : SpecRun spec b (i :: is) (o :: os) b''

/-- Along a given run, a decidable property can be evaluated. -/
instance decidableAlong (step : σ → ι → Option (σ × ο)) (P : σ → ι → Prop)
    [∀ s i, Decidable (P s i)] : (s : σ) → (is : List ι) → Decidable (Along step P s is)
  | _, [] => isTrue trivial
  | s, i :: is =>
      match h : step s i with
      | none =>
          decidable_of_iff (P s i) ⟨fun hP => ⟨hP, fun s' o hs => by simp [h] at hs⟩, And.left⟩
      | some (s', o) =>
          have := decidableAlong step P s' is
          decidable_of_iff (P s i ∧ Along step P s' is)
            ⟨fun hP => ⟨hP.1, fun s'' o' hs => by rw [h] at hs; cases hs; exact hP.2⟩,
              fun hA => ⟨hA.1, hA.2 s' o h⟩⟩

section

variable {step : σ → ι → Option (σ × ο)}

theorem run_cons_eq_some {s t : σ} {i : ι} {is : List ι} {os : List ο} :
    run step s (i :: is) = some (t, os) ↔
      ∃ s' o os', step s i = some (s', o) ∧ run step s' is = some (t, os') ∧ os = o :: os' := by
  rw [run]
  cases h : step s i with
  | none => simp
  | some r =>
      obtain ⟨s', o⟩ := r
      simp only [Option.map_eq_some_iff, Prod.mk.injEq, Option.some.injEq]
      constructor
      · rintro ⟨⟨t', os'⟩, hr, rfl, rfl⟩
        exact ⟨s', o, os', ⟨rfl, rfl⟩, hr, rfl⟩
      · rintro ⟨_, _, os', ⟨rfl, rfl⟩, hr, rfl⟩
        exact ⟨(t, os'), hr, rfl, rfl⟩

theorem run_cons {s s' t : σ} {i : ι} {o : ο} {is : List ι} {os : List ο}
    (hstep : step s i = some (s', o)) (hrun : run step s' is = some (t, os)) :
    run step s (i :: is) = some (t, o :: os) :=
  run_cons_eq_some.mpr ⟨s', o, os, hstep, hrun, rfl⟩

theorem run_cons_inv {s t : σ} {i : ι} {is : List ι} {os : List ο}
    (hrun : run step s (i :: is) = some (t, os)) :
    ∃ s' o os', step s i = some (s', o) ∧ run step s' is = some (t, os') ∧ os = o :: os' :=
  run_cons_eq_some.mp hrun

/-- An invariant kept by every guarded step, with an account of the outputs. -/
theorem run_tracks {R : σ → β → Prop} {G : σ → ι → Prop} (acc : β → ο → β)
    (keeps : ∀ {s b i s' o}, R s b → G s i → step s i = some (s', o) → R s' (acc b o))
    {s t : σ} {b : β} {is : List ι} {os : List ο} (hs : R s b) (hG : Along step G s is)
    (hrun : run step s is = some (t, os)) : R t (os.foldl acc b) := by
  induction is generalizing s b os with
  | nil =>
      cases hrun
      exact hs
  | cons i is ih =>
      obtain ⟨s', o, os', hstep, htail, rfl⟩ := run_cons_inv hrun
      rw [List.foldl_cons]
      exact ih (keeps hs hG.1 hstep) (hG.2 s' o hstep) htail

/-- The same where every guarded step is defined: so is every guarded run. -/
theorem run_total_tracks {R : σ → β → Prop} {G : σ → ι → Prop} (acc : β → ο → β)
    (takes : ∀ {s b i}, R s b → G s i → ∃ s' o, step s i = some (s', o) ∧ R s' (acc b o))
    {s : σ} {b : β} {is : List ι} (hs : R s b) (hG : Along step G s is) :
    ∃ t os, run step s is = some (t, os) ∧ R t (os.foldl acc b) := by
  induction is generalizing s b with
  | nil => exact ⟨s, [], rfl, hs⟩
  | cons i is ih =>
      obtain ⟨s', o, hstep, hs'⟩ := takes hs hG.1
      obtain ⟨t, os, hrun, ht⟩ := ih hs' (hG.2 s' o hstep)
      exact ⟨t, o :: os, run_cons hstep hrun, ht⟩

/-- Where every guarded step is defined and keeps the invariant, what holds of each single
output holds of all outputs. -/
theorem run_total_outputs (Inv : σ → Prop) {G : σ → ι → Prop} {P : ο → Prop}
    (takes : ∀ {s i}, Inv s → G s i → ∃ s' o, step s i = some (s', o) ∧ P o ∧ Inv s')
    {s : σ} {is : List ι} (hs : Inv s) (hG : Along step G s is) :
    ∃ t os, run step s is = some (t, os) ∧ (∀ o ∈ os, P o) ∧ Inv t := by
  induction is generalizing s with
  | nil => exact ⟨s, [], rfl, by simp, hs⟩
  | cons i is ih =>
      obtain ⟨s', o, hstep, ho, hs'⟩ := takes hs hG.1
      obtain ⟨t, os, hrun, hos, ht⟩ := ih hs' (hG.2 s' o hstep)
      refine ⟨t, o :: os, run_cons hstep hrun, ?_, ht⟩
      intro o' ho'
      exact (List.mem_cons.mp ho').elim (fun heq => heq ▸ ho) (hos o')

theorem invariant_run (Inv : σ → Prop) {G : σ → ι → Prop}
    (keeps : ∀ {s i s' o}, Inv s → G s i → step s i = some (s', o) → Inv s')
    {s t : σ} {is : List ι} {os : List ο} (hs : Inv s) (hG : Along step G s is)
    (hrun : run step s is = some (t, os)) : Inv t :=
  run_tracks (fun b _ => b) (R := fun s (_ : Unit) => Inv s) (b := ())
    (fun hinv hg hstep => keeps hinv hg hstep) hs hG hrun

/-- An invariant kept by every guarded step makes `P` hold along guarded runs. -/
theorem along_of_invariant (Inv : σ → Prop) {G P : σ → ι → Prop}
    (keeps : ∀ {s i s' o}, Inv s → G s i → step s i = some (s', o) → Inv s')
    (shows : ∀ {s i}, Inv s → G s i → P s i) {s : σ} {is : List ι} (hs : Inv s)
    (hG : Along step G s is) : Along step P s is := by
  induction is generalizing s with
  | nil => trivial
  | cons i is ih =>
      exact ⟨shows hs hG.1, fun s' o hstep => ih (keeps hs hG.1 hstep) (hG.2 s' o hstep)⟩

/-- Where an invariant that guarded steps keep makes `P` and the guard the same, they
hold along the same runs, here for runs with labels of kind `L`. -/
theorem along_iff_of_invariant_on (Inv : σ → Prop) {L : ι → Prop} {G P : σ → ι → Prop}
    (keeps : ∀ {s i s' o}, Inv s → L i → G s i → step s i = some (s', o) → Inv s')
    (same : ∀ {s i}, Inv s → L i → (P s i ↔ G s i)) {s : σ} {is : List ι} (hs : Inv s)
    (his : ∀ i ∈ is, L i) : Along step P s is ↔ Along step G s is := by
  induction is generalizing s with
  | nil => exact Iff.rfl
  | cons i is ih =>
      have hi := his i List.mem_cons_self
      have hrest : ∀ j ∈ is, L j := fun j hj => his j (List.mem_cons_of_mem _ hj)
      constructor
      · rintro ⟨hP, htail⟩
        have hG := (same hs hi).mp hP
        exact ⟨hG, fun s' o hstep => (ih (keeps hs hi hG hstep) hrest).mp (htail s' o hstep)⟩
      · rintro ⟨hG, htail⟩
        exact ⟨(same hs hi).mpr hG,
          fun s' o hstep => (ih (keeps hs hi hG hstep) hrest).mpr (htail s' o hstep)⟩

theorem along_iff_of_invariant (Inv : σ → Prop) {G P : σ → ι → Prop}
    (keeps : ∀ {s i s' o}, Inv s → G s i → step s i = some (s', o) → Inv s')
    (same : ∀ {s i}, Inv s → (P s i ↔ G s i)) {s : σ} {is : List ι} (hs : Inv s) :
    Along step P s is ↔ Along step G s is :=
  along_iff_of_invariant_on Inv (L := fun _ => True) (fun hs _ => keeps hs) (fun hs _ => same hs) hs
    fun _ _ => trivial

theorem along_of_forall {L : ι → Prop} {P : σ → ι → Prop} (h : ∀ s i, L i → P s i) {s : σ}
    {is : List ι} (his : ∀ i ∈ is, L i) : Along step P s is := by
  induction is generalizing s with
  | nil => trivial
  | cons i is ih =>
      exact ⟨h s i (his i List.mem_cons_self),
        fun s' o _ => ih fun j hj => his j (List.mem_cons_of_mem _ hj)⟩

theorem along_mono {P Q : σ → ι → Prop} (h : ∀ s i, P s i → Q s i) {s : σ} {is : List ι}
    (hP : Along step P s is) : Along step Q s is :=
  along_of_invariant (fun _ => True) (fun _ _ _ => trivial) (fun _ => h _ _) trivial hP

/-- A machine that takes the same steps with other outputs. -/
theorem along_of_step {ο' : Type*} {step' : σ → ι → Option (σ × ο')}
    (h : ∀ {s i s' o}, step' s i = some (s', o) → ∃ o', step s i = some (s', o'))
    {P : σ → ι → Prop} {s : σ} {is : List ι} (hP : Along step P s is) : Along step' P s is := by
  induction is generalizing s with
  | nil => trivial
  | cons i is ih =>
      refine ⟨hP.1, fun s' o hstep => ?_⟩
      obtain ⟨o', hstep'⟩ := h hstep
      exact ih (hP.2 s' o' hstep')

theorem run_of_step {ο' : Type*} {step' : σ → ι → Option (σ × ο')} (f : ο' → ο)
    (h : ∀ {s i s' o}, step' s i = some (s', o) → step s i = some (s', f o)) {s t : σ}
    {is : List ι} {os : List ο'} (hrun : run step' s is = some (t, os)) :
    run step s is = some (t, os.map f) := by
  induction is generalizing s os with
  | nil =>
      cases hrun
      rfl
  | cons i is ih =>
      obtain ⟨s', o, os', hstep, htail, rfl⟩ := run_cons_inv hrun
      exact run_cons (h hstep) (ih htail)

theorem along_and {P Q : σ → ι → Prop} {s : σ} {is : List ι} (hP : Along step P s is)
    (hQ : Along step Q s is) : Along step (fun s i => P s i ∧ Q s i) s is := by
  induction is generalizing s with
  | nil => trivial
  | cons i is ih =>
      exact ⟨⟨hP.1, hQ.1⟩, fun s' o hstep => ih (hP.2 s' o hstep) (hQ.2 s' o hstep)⟩

theorem along_take {P : σ → ι → Prop} {s : σ} {is : List ι} (h : Along step P s is) (n : Nat) :
    Along step P s (is.take n) := by
  induction is generalizing s n with
  | nil =>
      rw [List.take_nil]
      trivial
  | cons i is ih =>
      cases n with
      | zero => trivial
      | succ n => exact ⟨h.1, fun s' o hstep => ih (h.2 s' o hstep) n⟩

/-- The guard holds along a run if a step against it always ends in a state that
the run is known not to reach. -/
theorem along_of_prefixes (Inv : σ → Prop) {G : σ → ι → Prop} (bad : σ → Prop)
    (keeps : ∀ {s i s' o}, Inv s → G s i → step s i = some (s', o) → Inv s')
    (breaks : ∀ {s i}, Inv s → ¬ G s i → ∃ s' o, step s i = some (s', o) ∧ bad s')
    {s : σ} {is : List ι} (hs : Inv s)
    (hsafe : ∀ n t os, run step s (is.take n) = some (t, os) → ¬ bad t) : Along step G s is := by
  induction is generalizing s with
  | nil => trivial
  | cons i is ih =>
      have hG : G s i := by
        by_contra hG
        obtain ⟨s', o, hstep, hbad⟩ := breaks hs hG
        exact hsafe 1 s' [o] (run_cons hstep rfl) hbad
      refine ⟨hG, fun s' o hstep => ih (keeps hs hG hstep) fun n t os hrun => ?_⟩
      exact hsafe (n + 1) t (o :: os) (run_cons hstep hrun)

theorem run_append_eq_some {s t u : σ} {is js : List ι} {os os' : List ο}
    (h₁ : run step s is = some (t, os)) (h₂ : run step t js = some (u, os')) :
    run step s (is ++ js) = some (u, os ++ os') := by
  induction is generalizing s os with
  | nil =>
      cases h₁
      exact h₂
  | cons i is ih =>
      obtain ⟨s', o, os₁, hstep, htail, rfl⟩ := run_cons_inv h₁
      exact run_cons hstep (ih htail)

theorem leads_here {L : ι → Prop} {Q : σ → Prop} {s : σ} (h : Q s) : Leads step L Q s :=
  ⟨[], s, [], by simp, rfl, h⟩

theorem leads_step {L : ι → Prop} {Q : σ → Prop} {s s' : σ} {i : ι} {o : ο} (hL : L i)
    (hstep : step s i = some (s', o)) (h : Leads step L Q s') : Leads step L Q s := by
  obtain ⟨is, t, os, his, hrun, hQ⟩ := h
  refine ⟨i :: is, t, o :: os, ?_, run_cons hstep hrun, hQ⟩
  intro j hj
  rcases List.mem_cons.mp hj with rfl | hj
  · exact hL
  · exact his j hj

theorem leads_trans {L : ι → Prop} {Q R : σ → Prop} {s : σ} (h : Leads step L Q s)
    (hQR : ∀ t, Q t → Leads step L R t) : Leads step L R s := by
  obtain ⟨is, t, os, his, hrun, hQ⟩ := h
  obtain ⟨js, u, os', hjs, hrun', hR⟩ := hQR t hQ
  refine ⟨is ++ js, u, os ++ os', ?_, run_append_eq_some hrun hrun', hR⟩
  intro i hi
  exact (List.mem_append.mp hi).elim (his i) (hjs i)

/-- What one part of a machine can do alone, the whole machine can do. -/
theorem leads_lift {σ' ι' ο' : Type*} {step' : σ' → ι' → Option (σ' × ο')} {L : ι → Prop}
    {L' : ι' → Prop} {Q : σ → Prop} {Q' : σ' → Prop} (f : σ → σ')
    (sim : ∀ s i s₁ o, L i → step s i = some (s₁, o) →
      ∃ i' o', L' i' ∧ step' (f s) i' = some (f s₁, o'))
    (hQ : ∀ s, Q s → Q' (f s)) {s : σ} (h : Leads step L Q s) : Leads step' L' Q' (f s) := by
  obtain ⟨is, t, os, his, hrun, ht⟩ := h
  induction is generalizing s os with
  | nil =>
      cases hrun
      exact leads_here (hQ _ ht)
  | cons i is ih =>
      obtain ⟨s₁, o, os', hstep, htail, rfl⟩ := run_cons_inv hrun
      obtain ⟨i', o', hi', hstep'⟩ := sim s i s₁ o (his i List.mem_cons_self) hstep
      exact leads_step hi' hstep' (ih os' (fun j hj => his j (List.mem_cons_of_mem _ hj)) htail)

/-- A relation to the states of a specification that every guarded step keeps,
the outputs being those the specification allows, is kept by guarded runs. -/
theorem run_refines (spec : β → ι → ο → β → Prop) {R : σ → β → Prop} {G : σ → ι → Prop}
    (sim : ∀ {s b i s' o}, R s b → G s i → step s i = some (s', o) →
      ∃ b', spec b i o b' ∧ R s' b')
    {s t : σ} {b : β} {is : List ι} {os : List ο} (hR : R s b) (hG : Along step G s is)
    (hrun : run step s is = some (t, os)) : ∃ b', SpecRun spec b is os b' ∧ R t b' := by
  induction is generalizing s b os with
  | nil =>
      cases hrun
      exact ⟨b, .nil b, hR⟩
  | cons i is ih =>
      obtain ⟨s', o, os', hstep, htail, rfl⟩ := run_cons_inv hrun
      obtain ⟨b', hspec, hR'⟩ := sim hR hG.1 hstep
      obtain ⟨b'', hspecs, hR''⟩ := ih hR' (hG.2 s' o hstep) htail
      exact ⟨b'', .cons hspec hspecs, hR''⟩

/-- The same where every guarded step is defined: so is every guarded run. -/
theorem run_total_refines (spec : β → ι → ο → β → Prop) {R : σ → β → Prop} {G : σ → ι → Prop}
    (sim : ∀ {s b i}, R s b → G s i →
      ∃ s' o b', step s i = some (s', o) ∧ spec b i o b' ∧ R s' b')
    {s : σ} {b : β} {is : List ι} (hR : R s b) (hG : Along step G s is) :
    ∃ t os b', run step s is = some (t, os) ∧ SpecRun spec b is os b' ∧ R t b' := by
  induction is generalizing s b with
  | nil => exact ⟨s, [], b, rfl, .nil b, hR⟩
  | cons i is ih =>
      obtain ⟨s', o, b', hstep, hspec, hR'⟩ := sim hR hG.1
      obtain ⟨t, os, b'', hrun, hspecs, hR''⟩ := ih hR' (hG.2 s' o hstep)
      exact ⟨t, o :: os, b'', run_cons hstep hrun, .cons hspec hspecs, hR''⟩

/-- A part that takes its own labels alone, and does not notice the others, runs alone as it
does in the whole, with the same outputs of the kind that is kept. -/
theorem run_project {σ' ι' ο' κ : Type*} {step' : σ' → ι' → Option (σ' × ο')} (f : σ → σ')
    {part : σ → ι → Option ι'} {keep : ο → Option κ} {keep' : ο' → Option κ}
    (skips : ∀ {s i s' o}, part s i = none → step s i = some (s', o) → f s' = f s ∧ keep o = none)
    (takes : ∀ {s i j s' o}, part s i = some j → step s i = some (s', o) →
      ∃ o', step' (f s) j = some (f s', o') ∧ keep' o' = keep o)
    {s t : σ} {is : List ι} {os : List ο} (hrun : run step s is = some (t, os)) :
    ∃ os', run step' (f s) (project step part s is) = some (f t, os') ∧
      os'.filterMap keep' = os.filterMap keep := by
  induction is generalizing s os with
  | nil =>
      cases hrun
      exact ⟨[], rfl, rfl⟩
  | cons i is ih =>
      obtain ⟨s', o, os₁, hstep, htail, rfl⟩ := run_cons_inv hrun
      obtain ⟨os', hrest, hkeep⟩ := ih htail
      rw [project, emitted, hstep]
      dsimp only
      cases hpart : part s i with
      | none =>
          obtain ⟨hsame, hnone⟩ := skips hpart hstep
          rw [← hsame]
          exact ⟨os', hrest, by rw [hkeep, List.filterMap_cons_none hnone]⟩
      | some j =>
          obtain ⟨o', hstep', heq⟩ := takes hpart hstep
          refine ⟨o' :: os', run_cons hstep' hrest, ?_⟩
          rw [List.filterMap_cons, List.filterMap_cons, heq, hkeep]

/-- Each step of a machine is one run of another, made of what the step gives out: so is each
run of it. -/
theorem run_emitted {σ' ι' ο' : Type*} {step' : σ' → ι' → Option (σ' × ο')} {R : σ → σ' → Prop}
    {G : σ → ι → Prop} {P : ο' → Prop} (emit : σ → ι → List ι')
    (sim : ∀ {s b i s' o}, R s b → G s i → step s i = some (s', o) →
      ∃ b' ps, run step' b (emit s i) = some (b', ps) ∧ (∀ p ∈ ps, P p) ∧ R s' b')
    {s t : σ} {b : σ'} {is : List ι} {os : List ο} (hR : R s b) (hG : Along step G s is)
    (hrun : run step s is = some (t, os)) :
    ∃ b' ps, run step' b (emitted step emit s is) = some (b', ps) ∧ (∀ p ∈ ps, P p) ∧ R t b' := by
  induction is generalizing s b os with
  | nil =>
      cases hrun
      exact ⟨b, [], rfl, by simp, hR⟩
  | cons i is ih =>
      obtain ⟨s', o, os₁, hstep, htail, rfl⟩ := run_cons_inv hrun
      obtain ⟨b₁, ps, hfirst, hps, hR₁⟩ := sim hR hG.1 hstep
      obtain ⟨b', ps', hrest, hps', hR'⟩ := ih hR₁ (hG.2 s' o hstep) htail
      rw [emitted, hstep]
      refine ⟨b', ps ++ ps', run_append_eq_some hfirst hrest, ?_, hR'⟩
      intro p hp
      exact (List.mem_append.mp hp).elim (hps p) (hps' p)

end

end Machine
