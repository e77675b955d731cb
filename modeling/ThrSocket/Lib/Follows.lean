import Mathlib.Algebra.GroupWithZero.Nat
import Mathlib.Algebra.BigOperators.Group.List.Basic
import ThrSocket.Lib.Machine

/-!
Partial computations against total ones. A partial computation follows a total one
where it ends in a related value; where it is undefined it needs an excuse. For the runs
of a machine the excuse is a size that the labels have taken to a limit.
-/

namespace Machine

variable {α β γ δ σ ι κ ο : Type*}

inductive Follows (R : α → β → Prop) (E : Prop) : Option α → β → Prop
  | holds {x : α} {y : β} (related : R x y) : Follows R E (some x) y
  | excused {y : β} (excuse : E) : Follows R E none y

def runAll (spec : β → κ → β × ο) : β → List κ → β × List ο
  | b, [] => (b, [])
  | b, k :: ks => ((runAll spec (spec b k).1 ks).1, (spec b k).2 :: (runAll spec (spec b k).1 ks).2)

def SameOutput (R : σ → β → Prop) {ο : Type*} (x : σ × ο) (y : β × ο) : Prop :=
  R x.1 y.1 ∧ x.2 = y.2

variable {R : α → β → Prop} {S : γ → δ → Prop} {E E' : Prop} {m : Option α} {y : β}

theorem Follows.bind {f : α → Option γ} {z : δ} (h : Follows R E m y) (hE : E → E')
    (hnext : ∀ x, R x y → Follows S E' (f x) z) : Follows S E' (m.bind f) z := by
  cases h with
  | holds hR => exact hnext _ hR
  | excused he => exact .excused (hE he)

theorem Follows.map {f : α → γ} {z : δ} (h : Follows R E m y) (hmap : ∀ x, R x y → S (f x) z) :
    Follows S E (m.map f) z := by
  cases h with
  | holds hR => exact .holds (hmap _ hR)
  | excused he => exact .excused he

theorem Follows.related {x : α} (h : Follows R E (some x) y) : R x y := by
  cases h with
  | holds hR => exact hR

theorem Follows.defined (h : Follows R E m y) (hE : ¬ E) : ∃ x, m = some x := by
  cases h with
  | holds => exact ⟨_, rfl⟩
  | excused he => exact absurd he hE

/-- Where each label follows the specification unless it takes the size to the limit, so does
a list of labels. -/
theorem run_follows {R : σ → β → Prop} {step : σ → ι → Option (σ × ο)} {spec : β → κ → β × ο}
    {forget : ι → κ} {size : β → Nat} {cost : κ → Nat} {limit : Nat}
    (sim : ∀ {s b i}, R s b →
      Follows (SameOutput R) (limit ≤ size b + cost (forget i)) (step s i) (spec b (forget i)))
    (grows : ∀ {s b} k, R s b → size (spec b k).1 ≤ size b + cost k)
    {s : σ} {b : β} (hR : R s b) (is : List ι) :
    Follows (SameOutput R) (limit ≤ size b + ((is.map forget).map cost).sum) (run step s is)
      (runAll spec b (is.map forget)) := by
  induction is generalizing s b with
  | nil => exact .holds ⟨hR, rfl⟩
  | cons i is ih =>
      have hgrows := grows (forget i) hR
      have hstep := sim (i := i) hR
      rw [run, List.map_cons, runAll, List.map_cons, List.sum_cons]
      generalize step s i = m at hstep
      cases hstep with
      | excused hlong => exact .excused (by omega)
      | holds hsame =>
          obtain ⟨hR', hout⟩ := hsame
          have htail := ih hR'
          dsimp only
          generalize run step _ is = m' at htail
          cases htail with
          | excused hlong => exact .excused (by omega)
          | holds hrest => exact .holds ⟨hrest.1, List.cons_eq_cons.mpr ⟨hout, hrest.2⟩⟩

end Machine
