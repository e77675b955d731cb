import Mathlib.Tactic.Common

/-!
Computations that leave a trace of events and may get stuck. A stuck computation
keeps the events it has caused until then.
-/

structure Traced (ε α : Type) where
  events : List ε
  result : Option α

namespace Traced

variable {ε α β : Type}

instance : Monad (Traced ε) where
  pure a := ⟨[], some a⟩
  bind x f :=
    match x.result with
    | none => ⟨x.events, none⟩
    | some a => ⟨x.events ++ (f a).events, (f a).result⟩

def emit (e : ε) : Traced ε Unit := ⟨[e], some ()⟩

def emits (es : List ε) : Traced ε Unit := ⟨es, some ()⟩

def stuck : Traced ε α := ⟨[], none⟩

def ofOption (a : Option α) : Traced ε α := ⟨[], a⟩

def All (P : ε → Prop) (x : Traced ε α) : Prop := ∀ e ∈ x.events, P e

section

variable {x : Traced ε α} {f : α → Traced ε β}

@[simp] theorem pure_events (a : α) : (pure a : Traced ε α).events = [] := rfl
@[simp] theorem pure_result (a : α) : (pure a : Traced ε α).result = some a := rfl
@[simp] theorem emit_events (e : ε) : (emit e).events = [e] := rfl
@[simp] theorem emit_result (e : ε) : (emit e).result = some () := rfl
@[simp] theorem emits_events (es : List ε) : (emits es).events = es := rfl
@[simp] theorem emits_result (es : List ε) : (emits es).result = some () := rfl
@[simp] theorem stuck_events : (stuck : Traced ε α).events = [] := rfl
@[simp] theorem stuck_result : (stuck : Traced ε α).result = none := rfl
@[simp] theorem ofOption_events (a : Option α) : (ofOption a : Traced ε α).events = [] := rfl
@[simp] theorem ofOption_result (a : Option α) : (ofOption a : Traced ε α).result = a := rfl

/-- A step that ends, and what follows it. -/
theorem bind_of_result {a : α} (h : x.result = some a) :
    x >>= f = ⟨x.events ++ (f a).events, (f a).result⟩ := by
  change (match x.result with
    | none => (⟨x.events, none⟩ : Traced ε β)
    | some a => ⟨x.events ++ (f a).events, (f a).result⟩) = _
  rw [h]

theorem bind_of_stuck (h : x.result = none) : x >>= f = ⟨x.events, none⟩ := by
  change (match x.result with
    | none => (⟨x.events, none⟩ : Traced ε β)
    | some a => ⟨x.events ++ (f a).events, (f a).result⟩) = _
  rw [h]

theorem bind_result : (x >>= f).result = x.result.bind fun a => (f a).result := by
  cases h : x.result with
  | none => rw [bind_of_stuck h, Option.bind_none]
  | some a => rw [bind_of_result h, Option.bind_some]

theorem bind_result_eq_some {b : β} :
    (x >>= f).result = some b ↔ ∃ a, x.result = some a ∧ (f a).result = some b := by
  rw [bind_result, Option.bind_eq_some_iff]

theorem mem_bind_events {e : ε} :
    e ∈ (x >>= f).events ↔ e ∈ x.events ∨ ∃ a, x.result = some a ∧ e ∈ (f a).events := by
  cases h : x.result with
  | none => simp [bind_of_stuck h]
  | some a => simp [bind_of_result h]

theorem bind_assoc {γ : Type} (g : β → Traced ε γ) :
    x >>= f >>= g = x >>= fun a => f a >>= g := by
  cases hx : x.result with
  | none =>
      rw [bind_of_stuck (f := f) hx, bind_of_stuck (f := fun a => f a >>= g) hx]
      exact bind_of_stuck rfl
  | some a =>
      rw [bind_of_result (f := f) hx, bind_of_result (f := fun a => f a >>= g) hx]
      cases hf : (f a).result with
      | none => rw [bind_of_stuck (f := g) hf, bind_of_stuck rfl]
      | some b => rw [bind_of_result (f := g) hf, bind_of_result rfl, List.append_assoc]

theorem emit_bind (e : ε) (f : Unit → Traced ε β) :
    emit e >>= f = ⟨e :: (f ()).events, (f ()).result⟩ := rfl

variable {P : ε → Prop}

theorem all_pure (a : α) : All P (pure a : Traced ε α) := by simp [All]

theorem all_stuck : All P (stuck : Traced ε α) := by simp [All]

theorem all_ofOption (a : Option α) : All P (ofOption a : Traced ε α) := by simp [All]

theorem all_emit {e : ε} (h : P e) : All P (emit e) := by
  intro e' he
  rw [List.mem_singleton.mp he]
  exact h

theorem all_emits {es : List ε} (h : ∀ e ∈ es, P e) : All P (emits es) := h

theorem all_bind (hx : All P x) (hf : ∀ a, x.result = some a → All P (f a)) :
    All P (x >>= f) := by
  intro e he
  rcases mem_bind_events.mp he with he | ⟨a, ha, he⟩
  · exact hx e he
  · exact hf a ha e he

def After (P : ε → Prop) (x y : Traced ε α) : Prop :=
  ∃ pre, (∀ e ∈ pre, P e) ∧ x = ⟨pre ++ y.events, y.result⟩

theorem After.refl (x : Traced ε α) : After P x x := ⟨[], by simp, rfl⟩

theorem After.trans {x y z : Traced ε α} (h : After P x y) (h' : After P y z) : After P x z := by
  obtain ⟨pre, hpre, rfl⟩ := h
  obtain ⟨pre', hpre', rfl⟩ := h'
  refine ⟨pre ++ pre', fun e he => ?_, by rw [List.append_assoc]⟩
  rcases List.mem_append.mp he with he | he
  · exact hpre e he
  · exact hpre' e he

theorem after_emit {e : ε} (h : P e) (f : Unit → Traced ε α) : After P (emit e >>= f) (f ()) := by
  refine ⟨[e], fun e' he => ?_, rfl⟩
  rw [List.mem_singleton.mp he]
  exact h

theorem After.all_iff {x y : Traced ε α} (h : After P x y) : All P x ↔ All P y := by
  obtain ⟨pre, hpre, rfl⟩ := h
  constructor
  · exact fun hall e he => hall e (List.mem_append_right pre he)
  · intro hall e he
    rcases List.mem_append.mp he with he | he
    · exact hpre e he
    · exact hall e he

theorem After.result_eq {x y : Traced ε α} (h : After P x y) : x.result = y.result := by
  obtain ⟨pre, -, rfl⟩ := h
  rfl

theorem after_bind {a : α} (hx : All P x) (h : x.result = some a) : After P (x >>= f) (f a) :=
  ⟨x.events, hx, bind_of_result h⟩

theorem After.bind {y : Traced ε α} (h : After P x y) (f : α → Traced ε β) :
    After P (x >>= f) (y >>= f) := by
  obtain ⟨pre, hpre, rfl⟩ := h
  refine ⟨pre, hpre, ?_⟩
  cases hy : y.result with
  | none => rw [bind_of_stuck (x := y) hy, bind_of_stuck rfl]
  | some a => rw [bind_of_result (x := y) hy, bind_of_result rfl, List.append_assoc]

theorem After.bind_pure {a : α} (h : After P x (pure a)) (f : α → Traced ε β) :
    After P (x >>= f) (f a) := h.bind f

end

end Traced
