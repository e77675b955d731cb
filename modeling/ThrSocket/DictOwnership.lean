import ThrSocket.DictEntries
import ThrSocket.DictMap
import ThrSocket.Lib.Ledger
import ThrSocket.Lib.Traced

/-!
The calls of dict.c once more, with the calls of `key_destroy` and
`value_destroy` that they make. Which of the callbacks are there is a parameter;
what they do is not. From `dict_create` to `dict_destroy` every key and value that
is stored is destroyed once, unless `dict_del_no_free` leaves it to its caller.
-/

namespace ThrSocket

open Traced (emit emits ofOption)

/-- Which of the destroy callbacks are not NULL. -/
structure DestroyOpts where
  keyDestroy : Bool
  valueDestroy : Bool

inductive DictEvent (K V : Type)
  /-- DICT_SET_KEY -/
  | setKey (k : K)
  /-- DICT_SET_VALUE -/
  | setValue (v : V)
  | keyDestroy (k : K)
  | valueDestroy (v : V)
  /-- an entry is unlinked, its key and its value are left to the caller -/
  | left (k : K) (v : V)

variable {K V : Type}

namespace DestroyOpts

def destroyKey (c : DestroyOpts) (e : DictEntry K V) : List (DictEvent K V) :=
  if c.keyDestroy then [.keyDestroy e.key] else []

def destroyValue (c : DestroyOpts) (e : DictEntry K V) : List (DictEvent K V) :=
  if c.valueDestroy then [.valueDestroy e.value] else []

def destroyEntry (c : DestroyOpts) (e : DictEntry K V) : List (DictEvent K V) :=
  c.destroyKey e ++ c.destroyValue e

end DestroyOpts

namespace Owned

abbrev M (K V : Type) := Traced (DictEvent K V)

def tableClear (c : DestroyOpts) (t : DictTable K V) : M K V (List (Detached K V)) := do
  emits (t.entries.flatMap fun chain => chain.flatMap c.destroyEntry)
  pure t.tableClear

def dictClear (c : DestroyOpts) (d : Dict K V) : M K V (Dict K V) := do
  let kept0 ← tableClear c d.dt0
  let kept1 ← tableClear c d.dt1
  pure { d with dt0 := {}, dt1 := {}, rehashidx := none, detached := kept0 ++ kept1 ++ d.detached }

/-- What is left is the entries that iterators still refer to. -/
def dictDestroy (c : DestroyOpts) (d : Dict K V) : M K V (List (Detached K V)) := do
  let kept0 ← tableClear c d.dt0
  let kept1 ← tableClear c d.dt1
  pure (kept0 ++ kept1 ++ d.detached)

variable [DecidableEq K] (o : DictOpts K V)

def dictAdd (d : Dict K V) (key : K) (val : V) : M K V (Dict K V × Int) := do
  let d ← ofOption (dictTryRehash o d)
  let (d, idx) ← ofOption (dictKeyIndex o d key)
  match idx with
  | none => pure (d, -1)
  | some idx => do
      let entry : DictEntry K V := ⟨d.nextAddr, o.setKey key, o.setValue val, 1⟩
      let d := { d with nextAddr := d.nextAddr + 1 }
      emit (.setKey entry.key)
      emit (.setValue entry.value)
      if d.rehashing then do
        let dt1 ← ofOption (d.dt1.push idx entry)
        pure ({ d with dt1 := dt1 }, 1)
      else do
        let dt0 ← ofOption (d.dt0.push idx entry)
        pure ({ d with dt0 := dt0 }, 1)

def dictReplace (c : DestroyOpts) (d : Dict K V) (key : K) (val : V) : M K V (Dict K V × Int) := do
  let (d, r) ← ofOption (dictFind o d key)
  match r with
  | some e => do
      emits (c.destroyValue e)
      emit (.setValue (o.setValue val))
      pure (d.modify e.addr fun e => { e with value := o.setValue val }, 0)
  | none => dictAdd o d key val

def unlink (c : DestroyOpts) (flag : Bool) (t : DictTable K V) (key : K) :
    M K V (Option (DictTable K V × List (Detached K V))) := do
  let chain ← ofOption t.entries[t.index o key]?
  match chain.span fun e => !o.compare e.key key with
  | (_, []) => pure none
  | (before, e :: behind) => do
      emits (if flag then c.destroyEntry e else [.left e.key e.value])
      pure (some
        ({ t with
            entries := t.entries.set (t.index o key) (before ++ behind)
            used := u32 (t.used + (2 ^ 32 - 1)) },
          unlinked e (behind.head?.map (·.addr))))

def dictDelInternal (c : DestroyOpts) (d : Dict K V) (key : K) (flag : Bool) :
    M K V (Dict K V × Int) :=
  if d.dt0.size = 0 then pure (d, 0)
  else do
    let d ← ofOption (dictTryRehash o d)
    match ← unlink o c flag d.dt0 key with
    | some (dt0, kept) => pure ({ d with dt0 := dt0, detached := kept ++ d.detached }, 1)
    | none =>
        if !d.rehashing then pure (d, 0)
        else
          match ← unlink o c flag d.dt1 key with
          | some (dt1, kept) => pure ({ d with dt1 := dt1, detached := kept ++ d.detached }, 1)
          | none => pure (d, 0)

def dictDel (c : DestroyOpts) (d : Dict K V) (key : K) : M K V (Dict K V × Int) :=
  dictDelInternal o c d key true

def dictDelNoFree (c : DestroyOpts) (d : Dict K V) (key : K) : M K V (Dict K V × Int) :=
  dictDelInternal o c d key false

end Owned

namespace Owned

section

variable [DecidableEq K] {o : DictOpts K V} {c : DestroyOpts} {d d' : Dict K V} {key : K} {val : V}

theorem dictAdd_result :
    (dictAdd o d key val).result = ThrSocket.dictAdd o d key val := by
  rw [dictAdd, ThrSocket.dictAdd, Traced.bind_result]
  apply congrArg (Option.bind (dictTryRehash o d))
  funext d₁
  rw [Traced.bind_result]
  apply congrArg (Option.bind (dictKeyIndex o d₁ key))
  funext r
  obtain ⟨d₂, idx⟩ := r
  cases idx with
  | none => rfl
  | some idx =>
      simp only [Traced.emit_bind]
      split
      · rw [Traced.bind_result]
        rfl
      · rw [Traced.bind_result]
        rfl

theorem dictReplace_result :
    (dictReplace o c d key val).result = ThrSocket.dictReplace o d key val := by
  rw [dictReplace, ThrSocket.dictReplace, Traced.bind_result]
  apply congrArg (Option.bind (dictFind o d key))
  funext r
  obtain ⟨d₁, e⟩ := r
  cases e with
  | none => exact dictAdd_result
  | some e => rfl

theorem unlink_result {flag : Bool} {t : DictTable K V} :
    (unlink o c flag t key).result = t.unlink o key := by
  rw [unlink, DictTable.unlink, Traced.bind_result]
  apply congrArg (Option.bind t.entries[t.index o key]?)
  funext chain
  cases chain.span fun e => !o.compare e.key key with
  | mk before rest =>
      cases rest with
      | nil => rfl
      | cons e behind => rfl

theorem dictDelInternal_result {flag : Bool} :
    (dictDelInternal o c d key flag).result = ThrSocket.dictDelInternal o d key := by
  rw [dictDelInternal, ThrSocket.dictDelInternal]
  split
  · rfl
  · rw [Traced.bind_result]
    apply congrArg (Option.bind (dictTryRehash o d))
    funext d₁
    rw [Traced.bind_result, unlink_result]
    apply congrArg (Option.bind (d₁.dt0.unlink o key))
    funext r
    cases r with
    | some r => rfl
    | none =>
        simp only
        split
        · rfl
        · rw [Traced.bind_result, unlink_result]
          apply congrArg (Option.bind (d₁.dt1.unlink o key))
          funext r
          cases r with
          | some r => rfl
          | none => rfl

theorem dictAdd_events {rs : Int} (h : ThrSocket.dictAdd o d key val = some (d', rs)) :
    (dictAdd o d key val).events =
      if rs = 1 then [.setKey (o.setKey key), .setValue (o.setValue val)] else [] := by
  rw [← dictAdd_result] at h
  rw [dictAdd] at h ⊢
  obtain ⟨d₁, htry, h⟩ := Traced.bind_result_eq_some.mp h
  rw [Traced.bind_of_result htry]
  obtain ⟨⟨d₂, idx⟩, hidx, h⟩ := Traced.bind_result_eq_some.mp h
  rw [Traced.bind_of_result hidx]
  cases idx with
  | none =>
      cases h
      rfl
  | some idx =>
      simp only [Traced.emit_bind, Traced.ofOption_events, List.nil_append] at h ⊢
      split at h
      next hbusy =>
        rw [if_pos hbusy]
        obtain ⟨dt, hpush, h⟩ := Traced.bind_result_eq_some.mp h
        rw [Traced.bind_of_result hpush]
        cases h
        rfl
      next hidle =>
        rw [if_neg hidle]
        obtain ⟨dt, hpush, h⟩ := Traced.bind_result_eq_some.mp h
        rw [Traced.bind_of_result hpush]
        cases h
        rfl

theorem unlink_cases {flag : Bool} {t : DictTable K V}
    {r : Option (DictTable K V × List (Detached K V))}
    (h : (unlink o c flag t key).result = some r) :
    (r = none ∧ (unlink o c flag t key).events = []) ∨
      ∃ e next t', r = some (t', unlinked e next) ∧ t.Without e next t' ∧
        (unlink o c flag t key).events =
          if flag then c.destroyEntry e else [.left e.key e.value] := by
  rw [unlink] at h ⊢
  obtain ⟨chain, hchain, h⟩ := Traced.bind_result_eq_some.mp h
  rw [Traced.bind_of_result hchain]
  obtain ⟨hspan, -⟩ | ⟨before, e, behind, hspan, rfl, -⟩ :=
    span_cases (fun e => !o.compare e.key key) chain
  · rw [hspan] at h ⊢
    cases h
    exact .inl ⟨rfl, rfl⟩
  · rw [hspan] at h ⊢
    cases h
    refine .inr ⟨e, _, _, rfl, .mk hchain rfl, ?_⟩
    simp [Traced.bind_of_result]

theorem dictDelInternal_cases {flag : Bool} {rs : Int}
    (h : (dictDelInternal o c d key flag).result = some (d', rs)) :
    (d' = d ∧ (dictDelInternal o c d key flag).events = []) ∨
      ∃ d₁, dictTryRehash o d = some d₁ ∧
        (d' = d₁ ∧ (dictDelInternal o c d key flag).events = [] ∨
          ∃ e next, Taken d₁ e next d' ∧ (dictDelInternal o c d key flag).events =
            if flag then c.destroyEntry e else [.left e.key e.value]) := by
  rw [dictDelInternal] at h ⊢
  split at h
  next h0 =>
    rw [if_pos h0]
    cases h
    exact .inl ⟨rfl, rfl⟩
  next h0 =>
    rw [if_neg h0]
    obtain ⟨d₁, htry, h⟩ := Traced.bind_result_eq_some.mp h
    rw [Traced.bind_of_result htry]
    refine .inr ⟨d₁, htry, ?_⟩
    obtain ⟨r₀, hr₀, h⟩ := Traced.bind_result_eq_some.mp h
    simp only [Traced.bind_of_result hr₀, Traced.ofOption_events, List.nil_append]
    obtain ⟨rfl, hevents⟩ | ⟨e, next, t', rfl, hwithout, hevents⟩ := unlink_cases hr₀
    · simp only [hevents, List.nil_append]
      simp only at h
      split at h
      next hidle =>
        rw [if_pos hidle]
        cases h
        exact .inl ⟨rfl, rfl⟩
      next hbusy =>
        rw [if_neg hbusy]
        obtain ⟨r₁, hr₁, h⟩ := Traced.bind_result_eq_some.mp h
        simp only [Traced.bind_of_result hr₁]
        obtain ⟨rfl, hevents₁⟩ | ⟨e, next, t', rfl, hwithout, hevents₁⟩ := unlink_cases hr₁
        · cases h
          exact .inl ⟨rfl, by simp [hevents₁]⟩
        · cases h
          exact .inr ⟨e, next, .second hwithout, by simp [hevents₁]⟩
    · cases h
      exact .inr ⟨e, next, .first hwithout, by simp [hevents]⟩

end

end Owned

namespace DestroyOpts

variable (c : DestroyOpts)

def ownedKey (k : K) : List (K ⊕ V) := if c.keyDestroy then [.inl k] else []

def ownedValue (v : V) : List (K ⊕ V) := if c.valueDestroy then [.inr v] else []

def owned (k : K) (v : V) : List (K ⊕ V) := c.ownedKey k ++ c.ownedValue v

/-- What the dict has to destroy of what is in it. -/
def held (d : Dict K V) : List (K ⊕ V) := d.all.flatMap fun e => c.owned e.key e.value

def ledger : Ledger (DictEvent K V) (K ⊕ V) where
  gains
    | .setKey k => c.ownedKey k
    | .setValue v => c.ownedValue v
    | _ => []
  losses
    | .keyDestroy k => [.inl k]
    | .valueDestroy v => [.inr v]
    | .left k v => c.owned k v
    | _ => []

variable {c}

theorem gains_destroyEntry (e : DictEntry K V) :
    (c.destroyEntry e).flatMap c.ledger.gains = [] := by
  rw [destroyEntry, destroyKey, destroyValue]
  cases c.keyDestroy <;> cases c.valueDestroy <;> rfl

theorem losses_destroyEntry (e : DictEntry K V) :
    (c.destroyEntry e).flatMap c.ledger.losses = c.owned e.key e.value := by
  rw [destroyEntry, destroyKey, destroyValue, owned, ownedKey, ownedValue]
  cases c.keyDestroy <;> cases c.valueDestroy <;> rfl

theorem gains_stored (k : K) (v : V) :
    ([.setKey k, .setValue v] : List (DictEvent K V)).flatMap c.ledger.gains = c.owned k v := by
  rw [List.flatMap_cons, List.flatMap_singleton, owned]
  rfl

end DestroyOpts

section

open DestroyOpts

variable {c : DestroyOpts} {d d' : Dict K V}

theorem held_perm (h : d'.all.Perm d.all) : (c.held d').Perm (c.held d) := h.flatMap_right _

theorem held_cons {e : DictEntry K V} (h : d'.all.Perm (e :: d.all)) :
    (c.held d').Perm (c.owned e.key e.value ++ c.held d) := h.flatMap_right _

theorem RefsOnly.held (h : RefsOnly d d') : c.held d' = c.held d := by
  obtain ⟨g, hall, hg⟩ := h.all
  rw [DestroyOpts.held, hall, List.flatMap_map, DestroyOpts.held]
  apply congrArg (List.flatMap · d.all)
  funext e
  rw [(hg e).1, (hg e).2.1]

/-- An entry leaves the dict: it is destroyed or left to the caller. -/
theorem settles_taken {e : DictEntry K V} (h : d.all.Perm (e :: d'.all)) (flag : Bool) :
    c.ledger.Settles (c.held d) (if flag then c.destroyEntry e else [.left e.key e.value])
      (c.held d') := by
  rw [Ledger.Settles]
  cases flag with
  | true =>
      rw [if_pos rfl, gains_destroyEntry, losses_destroyEntry, List.append_nil]
      exact held_cons h
  | false =>
      rw [if_neg Bool.false_ne_true, List.flatMap_singleton, List.flatMap_singleton]
      rw [show c.ledger.gains (.left e.key e.value) = [] from rfl, List.append_nil]
      exact held_cons h

/-- An entry is given another value. -/
theorem settles_stored {e : DictEntry K V} {rest : List (DictEntry K V)} {v : V}
    (h : d.all.Perm (e :: rest)) (h' : d'.all.Perm ({ e with value := v } :: rest)) :
    c.ledger.Settles (c.held d) (c.destroyValue e ++ [.setValue v]) (c.held d') := by
  have hgains : (c.destroyValue e ++ [DictEvent.setValue v]).flatMap c.ledger.gains =
      c.ownedValue v := by
    rw [destroyValue, List.flatMap_append, List.flatMap_singleton]
    cases c.valueDestroy <;> rfl
  have hlosses : (c.destroyValue e ++ [DictEvent.setValue v]).flatMap c.ledger.losses =
      c.ownedValue e.value := by
    rw [destroyValue, List.flatMap_append, List.flatMap_singleton, ownedValue]
    cases c.valueDestroy <;> rfl
  rw [Ledger.Settles, hgains, hlosses]
  apply List.Perm.trans ((h.flatMap_right _).append_right _)
  apply List.Perm.trans _ ((h'.flatMap_right _).append_left _).symm
  rw [List.flatMap_cons, List.flatMap_cons, owned, owned, List.append_assoc, List.append_assoc,
    List.append_assoc]
  -- the old value comes to the front, and the new one to its place
  apply List.perm_append_comm_assoc _ _ _ |>.trans
  apply List.Perm.append_left
  apply List.Perm.append_left
  exact List.perm_append_comm

/-- `_table_clear` destroys what is in a table. -/
theorem tableClear_eq (t : DictTable K V) :
    Owned.tableClear c t = ⟨t.chained.flatMap c.destroyEntry, some t.tableClear⟩ := by
  rw [Owned.tableClear, Traced.bind_of_result (Traced.emits_result _), DictTable.chained,
    List.flatten_eq_flatMap, List.flatMap_assoc, Traced.pure_events, List.append_nil]
  rfl

theorem dictClear_eq (d : Dict K V) :
    Owned.dictClear c d = ⟨d.all.flatMap c.destroyEntry, some (dictClear d)⟩ := by
  rw [Owned.dictClear, tableClear_eq, tableClear_eq, Dict.all, List.flatMap_append]
  simp [Traced.bind_of_result, dictClear]

theorem dictDestroy_events (d : Dict K V) :
    (Owned.dictDestroy c d).events = d.all.flatMap c.destroyEntry := by
  rw [Owned.dictDestroy, tableClear_eq, tableClear_eq, Dict.all, List.flatMap_append]
  simp [Traced.bind_of_result]

/-- All that is in the dict is destroyed. -/
theorem settles_cleared (d : Dict K V) :
    c.ledger.Settles (c.held d) (d.all.flatMap c.destroyEntry) [] := by
  rw [Ledger.Settles, List.flatMap_assoc, List.flatMap_assoc]
  simp only [gains_destroyEntry, losses_destroyEntry, List.append_nil]
  rw [List.flatMap_eq_nil_iff.mpr fun _ _ => rfl, List.append_nil]
  exact .refl _

variable [DecidableEq K] {o : DictOpts K V} {key : K} {val : V} {rs : Int}

theorem settles_add (ho : o.Lawful) (h : DictInv o d) (hb : d.all.length ≤ 2 ^ 29)
    (hadd : dictAdd o d key val = some (d', rs)) :
    c.ledger.Settles (c.held d) (Owned.dictAdd o d key val).events (c.held d') := by
  obtain ⟨d₁, rs₁, hadd₁, -, hres⟩ := dictAdd_spec ho h hb key val
  cases hadd.symm.trans hadd₁
  rw [Owned.dictAdd_events hadd]
  cases hres with
  | present _ perm => exact .nil (held_perm perm).symm
  | inserted _ e key_eq value_eq _ perm =>
      rw [if_pos rfl, Ledger.Settles]
      apply List.Perm.trans _ (held_cons perm).symm
      rw [key_eq, value_eq, gains_stored]
      exact List.perm_append_comm

theorem settles_replace (ho : o.Lawful) (h : DictInv o d) (hb : d.all.length ≤ 2 ^ 29)
    (hrep : dictReplace o d key val = some (d', rs)) :
    c.ledger.Settles (c.held d) (Owned.dictReplace o c d key val).events (c.held d') := by
  obtain ⟨d₁, r, hfind, hinv₁, hre, hr⟩ := dictFind_spec ho h (by omega) key
  have hsame : (c.held d).Perm (c.held d₁) := held_perm hre.perm.symm
  rw [Owned.dictReplace, Traced.bind_of_result hfind]
  simp only [dictReplace, hfind, Option.bind_eq_bind, Option.bind_some] at hrep
  cases r with
  | none =>
      exact .append (.nil hsame) (settles_add ho hinv₁ (hre.perm.length_eq ▸ hb) hrep)
  | some e =>
      have hmem : e ∈ d₁.all := by
        obtain ⟨e', he', hmem, -⟩ := hr.resolve_right fun hnone => by cases hnone.1
        cases he'
        exact hmem
      obtain ⟨rest, hp, hp'⟩ :=
        hinv₁.modify_perm (f := fun e => { e with value := o.setValue val }) hmem
      cases hrep
      exact .append (.nil hsame) (settles_stored hp hp')

theorem settles_del (h : DictInv o d) (hb : d.all.length < 2 ^ 32) {flag : Bool}
    (hdel : dictDelInternal o d key = some (d', rs)) :
    c.ledger.Settles (c.held d) (Owned.dictDelInternal o c d key flag).events (c.held d') := by
  rw [← Owned.dictDelInternal_result (c := c)] at hdel
  obtain ⟨hsame, hevents⟩ | ⟨d₁, htry, hend⟩ := Owned.dictDelInternal_cases hdel
  · rw [hevents, hsame]
    exact .nil (.refl _)
  · obtain ⟨d₂, htry₂, -, hre⟩ := dictTryRehash_spec h hb
    cases htry.symm.trans htry₂
    have hsame : c.ledger.Settles (c.held d) [] (c.held d₁) := .nil (held_perm hre.perm.symm)
    obtain ⟨heq, hevents⟩ | ⟨e, next, htaken, hevents⟩ := hend
    · rw [hevents, heq]
      exact hsame
    · rw [hevents]
      exact hsame.append (settles_taken htaken.perm flag)

end

def DictSys.ownedStep [DecidableEq K] (o : DictOpts K V) (c : DestroyOpts) (s : DictSys K V) :
    DictOp K V → Traced (DictEvent K V) (DictSys K V × DictOut K V)
  | .add key val => do
      let (d, rs) ← Owned.dictAdd o s.d key val
      pure ({ s with d := d }, .rs rs)
  | .replace key val => do
      let (d, rs) ← Owned.dictReplace o c s.d key val
      pure ({ s with d := d }, .rs rs)
  | .del key => do
      let (d, rs) ← Owned.dictDel o c s.d key
      pure ({ s with d := d }, .rs rs)
  | .delNoFree key => do
      let (d, rs) ← Owned.dictDelNoFree o c s.d key
      pure ({ s with d := d }, .rs rs)
  | .clear => do
      let d ← Owned.dictClear c s.d
      pure ({ s with d := d }, .done)
  | op => ofOption (s.step o op)

namespace DictSys

variable [DecidableEq K] {o : DictOpts K V} {c : DestroyOpts} {s s' : DictSys K V}

theorem ownedStep_result (op : DictOp K V) : (s.ownedStep o c op).result = s.step o op := by
  cases op with
  | add key val =>
      rw [ownedStep, Traced.bind_result, Owned.dictAdd_result]
      rfl
  | replace key val =>
      rw [ownedStep, Traced.bind_result, Owned.dictReplace_result]
      rfl
  | del key =>
      rw [ownedStep, Traced.bind_result, Owned.dictDel, Owned.dictDelInternal_result]
      rfl
  | delNoFree key =>
      rw [ownedStep, Traced.bind_result, Owned.dictDelNoFree, Owned.dictDelInternal_result]
      rfl
  | clear =>
      rw [ownedStep, Traced.bind_result, dictClear_eq]
      rfl
  | find key => rfl
  | expand size => rfl
  | getIterator => rfl
  | next i => rfl
  | destroy i => rfl
  | used => rfl

omit [DecidableEq K] in
/-- A call on the dict alone, with its events. -/
theorem bind_settles {x : Traced (DictEvent K V) (Dict K V × Int)} {out : DictOut K V}
    (h : ∀ d' rs, x.result = some (d', rs) → c.ledger.Settles (c.held s.d) x.events (c.held d'))
    (hstep : (x >>= fun r => (pure ({ s with d := r.1 }, .rs r.2) :
      Traced (DictEvent K V) (DictSys K V × DictOut K V))).result = some (s', out)) :
    c.ledger.Settles (c.held s.d) (x >>= fun r => (pure ({ s with d := r.1 }, .rs r.2) :
      Traced (DictEvent K V) (DictSys K V × DictOut K V))).events (c.held s'.d) := by
  obtain ⟨⟨d', rs⟩, hx, hstep⟩ := Traced.bind_result_eq_some.mp hstep
  rw [Traced.bind_of_result hx]
  cases hstep
  simp only [Traced.pure_events, List.append_nil]
  exact h d' rs hx

theorem ownedStep_settles {ho : o.Lawful} {m : AbsMap ho} (h : Refines ho s m) {op : DictOp K V}
    (hg : s.Guarded op) {out : DictOut K V}
    (hstep : (s.ownedStep o c op).result = some (s', out)) :
    c.ledger.Settles (c.held s.d) (s.ownedStep o c op).events (c.held s'.d) := by
  obtain ⟨hb, hallowed⟩ := hg
  cases op with
  | add key val =>
      refine bind_settles (fun d' rs hadd => ?_) hstep
      rw [Owned.dictAdd_result] at hadd
      exact settles_add ho h.inv hb hadd
  | replace key val =>
      refine bind_settles (fun d' rs hrep => ?_) hstep
      rw [Owned.dictReplace_result] at hrep
      exact settles_replace ho h.inv hb hrep
  | del key =>
      refine bind_settles (fun d' rs hdel => ?_) hstep
      rw [Owned.dictDel, Owned.dictDelInternal_result] at hdel
      exact settles_del h.inv (by omega) hdel
  | delNoFree key =>
      refine bind_settles (fun d' rs hdel => ?_) hstep
      rw [Owned.dictDelNoFree, Owned.dictDelInternal_result] at hdel
      exact settles_del h.inv (by omega) hdel
  | clear =>
      rw [ownedStep, dictClear_eq] at hstep ⊢
      cases hstep
      rw [Traced.bind_of_result rfl, Traced.pure_events, List.append_nil]
      exact settles_cleared s.d
  | find key =>
      obtain ⟨d', r, hfind, -, hre, -⟩ := dictFind_spec ho h.inv (by omega) key
      simp only [ownedStep, step, hfind, Traced.ofOption_result, Option.bind_eq_bind,
        Option.bind_some] at hstep
      cases hstep
      exact .nil (held_perm hre.perm.symm)
  | expand size =>
      obtain ⟨d', rs, hexp, -, hre, -⟩ := dictExpand_spec h.inv _ hallowed
      simp only [ownedStep, step, hexp, Traced.ofOption_result, Option.bind_eq_bind,
        Option.bind_some] at hstep
      cases hstep
      exact .nil (held_perm hre.perm.symm)
  | getIterator =>
      cases hstep
      exact .nil (.refl _)
  | next i =>
      obtain ⟨iter, hi⟩ := Option.isSome_iff_exists.mp hallowed
      replace hi := Option.join_eq_some_iff.mp hi
      obtain ⟨d', iter', r, hnext, -, hrefs, -⟩ := dictIteratorNext_spec h.inv (h.ref.focus hi)
        (h.idx iter (List.mem_of_getElem? hi))
      simp only [ownedStep, step, hi, hnext, Traced.ofOption_result, Option.bind_eq_bind,
        Option.bind_some] at hstep
      cases hstep
      exact .nil (by rw [hrefs.held])
  | destroy i =>
      obtain ⟨iter, hi⟩ := Option.isSome_iff_exists.mp hallowed
      replace hi := Option.join_eq_some_iff.mp hi
      obtain ⟨d', hdestroy, -, hrefs, -⟩ := dictIteratorDestroy_spec h.inv (h.ref.focus hi)
      simp only [ownedStep, step, hi, hdestroy, Traced.ofOption_result, Option.bind_eq_bind,
        Option.bind_some] at hstep
      cases hstep
      exact .nil (by rw [hrefs.held])
  | used =>
      cases hstep
      exact .nil (.refl _)

def ownedCall (o : DictOpts K V) (c : DestroyOpts) (s : DictSys K V) (op : DictOp K V) :
    Option (DictSys K V × DictOut K V × List (DictEvent K V)) :=
  (s.ownedStep o c op).result.map fun r => (r.1, r.2, (s.ownedStep o c op).events)

theorem step_of_ownedCall {op : DictOp K V} {r : DictOut K V × List (DictEvent K V)}
    (h : s.ownedCall o c op = some (s', r)) : s.step o op = some (s', r.1) := by
  rw [ownedCall, ownedStep_result] at h
  obtain ⟨⟨s₁, out⟩, hstep, heq⟩ := Option.map_eq_some_iff.mp h
  cases heq
  exact hstep

end DictSys

/-- From `dict_create` on, what has been stored and not given up again is what is in the dict, so
nothing is destroyed twice or destroyed and still there, and `dict_destroy` leaves nothing. -/
theorem dict_destroys_owned [DecidableEq K] {o : DictOpts K V} (ho : o.Lawful) (c : DestroyOpts)
    {ops : List (DictOp K V)} (hg : Machine.Along (DictSys.step o) DictSys.Guarded {} ops) :
    ∃ s outs, Machine.run (DictSys.ownedCall o c) {} ops = some (s, outs) ∧
      Machine.run (DictSys.step o) {} ops = some (s, outs.map (·.1)) ∧
      c.ledger.Settles [] (outs.flatMap (·.2)) (c.held s.d) ∧
      (((outs.flatMap (·.2)).flatMap c.ledger.gains).Nodup →
        ((outs.flatMap (·.2)).flatMap c.ledger.losses ++ c.held s.d).Nodup) ∧
      c.ledger.Settles [] (outs.flatMap (·.2) ++ (Owned.dictDestroy c s.d).events) [] := by
  obtain ⟨s, outs, hrun, hsettles, -⟩ := Ledger.run_settles (A := c.ledger)
    (fun s : DictSys K V => ∃ m, Refines ho s m) (fun s => c.held s.d) (·.2) (fun h hg => by
      obtain ⟨m, h⟩ := h
      obtain ⟨s', out, m', hstep, -, h'⟩ := DictSys.step_refines ho h hg
      rw [← DictSys.ownedStep_result (c := c)] at hstep
      refine ⟨s', (out, _), ?_, DictSys.ownedStep_settles h hg hstep, m', h'⟩
      rw [DictSys.ownedCall, hstep]
      rfl)
    ⟨∅, refines_create ho⟩ (Machine.along_of_step
      (fun hstep => ⟨_, DictSys.step_of_ownedCall (c := c) hstep⟩) hg)
  refine ⟨s, outs, hrun, Machine.run_of_step _ DictSys.step_of_ownedCall hrun, hsettles,
    hsettles.nodup, hsettles.append ?_⟩
  rw [dictDestroy_events]
  exact settles_cleared s.d

theorem dict_destroys_owned_lastDigit :
    ∃ s outs, Machine.run (DictSys.ownedCall lastDigit ⟨true, true⟩) {} lastDigitCalls =
        some (s, outs) ∧
      Machine.run (DictSys.step lastDigit) {} lastDigitCalls = some (s, outs.map (·.1)) ∧
      (DestroyOpts.mk true true).ledger.Settles [] (outs.flatMap (·.2))
        ((DestroyOpts.mk true true).held s.d) ∧
      (((outs.flatMap (·.2)).flatMap (DestroyOpts.mk true true).ledger.gains).Nodup →
        ((outs.flatMap (·.2)).flatMap (DestroyOpts.mk true true).ledger.losses ++
          (DestroyOpts.mk true true).held s.d).Nodup) ∧
      (DestroyOpts.mk true true).ledger.Settles []
        (outs.flatMap (·.2) ++ (Owned.dictDestroy ⟨true, true⟩ s.d).events) [] :=
  dict_destroys_owned lastDigit_lawful ⟨true, true⟩ (by decide)

end ThrSocket
