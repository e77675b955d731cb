import Mathlib.Data.List.Perm.Basic
import ThrSocket.Lib.Machine

/-!
Accounts of things that are taken over, kept for a while and given up again. An
account settles when nothing is given up that was not held, and nothing held is
forgotten: what was held and what was taken over since is, up to the order, what
was given up since and what is held now.
-/

/-- What an event takes over, and what it gives up. -/
structure Ledger (ε α : Type*) where
  gains : ε → List α
  losses : ε → List α

namespace Ledger

variable {ε α : Type*} (A : Ledger ε α)

def Settles (held : List α) (es : List ε) (held' : List α) : Prop :=
  (held ++ es.flatMap A.gains).Perm (es.flatMap A.losses ++ held')

variable {A} {held held' held'' : List α} {es es' : List ε}

theorem Settles.nil (h : held.Perm held') : A.Settles held [] held' := by
  rw [Settles, List.flatMap_nil, List.flatMap_nil, List.append_nil]
  exact h

theorem Settles.append (h : A.Settles held es held') (h' : A.Settles held' es' held'') :
    A.Settles held (es ++ es') held'' := by
  rw [Settles, List.flatMap_append, List.flatMap_append, ← List.append_assoc,
    List.append_assoc (es.flatMap A.losses)]
  apply (h.append_right _).trans
  rw [List.append_assoc]
  exact h'.append_left _

/-- What was taken over once is not given up twice, nor given up and held. -/
theorem Settles.nodup (h : A.Settles [] es held) (hgains : (es.flatMap A.gains).Nodup) :
    (es.flatMap A.losses ++ held).Nodup :=
  (List.Perm.nodup_iff h).mp hgains

/-- Where every guarded step is defined and settles, so does every guarded run. -/
theorem run_settles {σ ι ο : Type*} {step : σ → ι → Option (σ × ο)} (Inv : σ → Prop)
    {G : σ → ι → Prop} (stock : σ → List α) (events : ο → List ε)
    (takes : ∀ {s i}, Inv s → G s i → ∃ s' o, step s i = some (s', o) ∧
      A.Settles (stock s) (events o) (stock s') ∧ Inv s')
    {s : σ} {is : List ι} (hs : Inv s) (hG : Machine.Along step G s is) :
    ∃ t os, Machine.run step s is = some (t, os) ∧
      A.Settles (stock s) (os.flatMap events) (stock t) ∧ Inv t := by
  induction is generalizing s with
  | nil => exact ⟨s, [], rfl, .nil (.refl _), hs⟩
  | cons i is ih =>
      obtain ⟨s', o, hstep, hsettles, hs'⟩ := takes hs hG.1
      obtain ⟨t, os, hrun, hrest, ht⟩ := ih hs' (hG.2 s' o hstep)
      refine ⟨t, o :: os, Machine.run_cons hstep hrun, ?_, ht⟩
      rw [List.flatMap_cons]
      exact hsettles.append hrest

end Ledger
