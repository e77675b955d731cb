import ThrSocket.Clist

/-!
`clist_walk_remove`. A ring has no end, so a walk that comes to no NULL goes round
until it has removed the last item; where the callback keeps one it goes round for ever.
-/

namespace ThrSocket
namespace Clist
open ClistHeap

variable {α : Type}

/-- Where the loop stands: its variables, the data that the callback has seen, and
whether the loop was left by its `break`. -/
structure Walk (α : Type) where
  cl : Clist α
  item : Option Nat
  count : Nat := 0
  called : List (Option α) := []
  broke : Bool := false

def Walk.Ended (w : Walk α) : Prop := w.broke = true ∨ (w.item = none ∧ w.cl.count = w.count)

instance (w : Walk α) : Decidable w.Ended :=
  inferInstanceAs (Decidable (_ ∨ (_ ∧ _)))

/-- `count++` of an int, which must not overflow. -/
def intSucc (n : Nat) : Option Nat := if n + 1 < 2 ^ 31 then some (n + 1) else none

/-- The body of `if(--cl->count)` and its `else`. -/
def walkUnlink (cl : Clist α) (item : Nat) (next : Option Nat) : Option (Clist α) := do
  let cl := { cl with count := cl.count - 1 }
  if cl.count ≠ 0 then
    let it ← cl.items.get item
    let items ← setNext cl.items it.prev next
    let it ← items.get item
    let items ← setPrev items next it.prev
    some { cl with items := items }
  else some { cl with head := none }

def walkRemoveRound (cb : Option α → Bool) (w : Walk α) : Option (Walk α) := do
  let item ← w.item
  let it ← w.cl.items.get item
  let w := { w with called := w.called ++ [it.data] }
  if cb it.data then some { w with item := it.next }
  else
    let next := it.next
    let cl ← walkUnlink w.cl item next
    let count ← intSucc w.count
    let items ← clistItemDestroy cl.items item
    let w := { w with cl := { cl with items := items }, count := count }
    if next = some item then some { w with broke := true } else some { w with item := next }

def walkRemoveRounds (cb : Option α → Bool) : Nat → Walk α → Option (Walk α)
  | 0, w => some w
  | n + 1, w =>
      if w.Ended then some w else (walkRemoveRound cb w).bind (walkRemoveRounds cb n)

def walkStart (cl : Clist α) : Walk α := { cl := cl, item := cl.head }

/-- The walk over the list of the nodes `l` ends: each element was shown to the callback once, in
order, those for which it returned 0 are gone, and the others are the list. -/
def WalkFilters (cb : Option α → Bool) (cl : Clist α) (l : List (Nat × Option α)) : Prop :=
  ∃ n w, walkRemoveRounds cb n (walkStart cl) = some w ∧ w.Ended ∧ w.called = l.map Prod.snd ∧
    Holds w.cl (l.filter fun e => cb e.2) ∧ w.count = (l.filter fun e => !cb e.2).length

variable {cb : Option α → Bool} {l : List (Nat × Option α)} {x : Nat} {d : Option α}

/-- What is left of the ring starts at `item`; `head` may point at an item that was freed. -/
structure Walk.On (w : Walk α) (l : List (Nat × Option α)) : Prop where
  nodup : (l.map Prod.fst).Nodup
  ring : IsRing (nextOf w.cl.items) (prevOf w.cl.items) (l.map Prod.fst)
  live : ∀ p d, dataOf w.cl.items p = some d ↔ (p, d) ∈ l
  item : w.item = (l.map Prod.fst).head?
  size : w.cl.count = l.length
  inside : w.broke = false

theorem walkStart_on {cl : Clist α} (hcl : Holds cl l) : (walkStart cl).On l where
  nodup := hcl.nodup
  ring := hcl.ring
  live := hcl.live
  item := hcl.head
  size := hcl.count
  inside := rfl

theorem Walk.On.not_ended {w : Walk α} (hw : w.On l) (hl : l ≠ []) : ¬ w.Ended := by
  rintro (hbroke | ⟨hitem, -⟩)
  · rw [hw.inside] at hbroke
    cases hbroke
  · rw [hw.item, List.head?_eq_none_iff, List.map_eq_nil_iff] at hitem
    exact hl hitem

/-- The first item points at the next one of the ring, or at itself. -/
theorem Walk.On.first {w : Walk α} (hw : w.On ((x, d) :: l)) :
    ∃ it, w.cl.items.get x = some it ∧ it.data = d ∧ it.next = (l.map Prod.fst ++ [x]).head? := by
  obtain ⟨it, hget, hdata⟩ := live_of_dataOf ((hw.live x d).mpr List.mem_cons_self)
  obtain ⟨b, hb, hlink⟩ := IsRing.first_next hw.ring
  refine ⟨it, hget, hdata, ?_⟩
  rw [hb, ← hlink.1]
  simp [nextOf, hget]

/-- Writing the link that an item has, to whatever item, leaves that item with it. -/
theorem setNext_same {h h' : ClistHeap α} {it : ClistItem α} {p : Option Nat}
    (hget : h.get x = some it) (hset : setNext h p it.next = some h') :
    ∃ it', h'.get x = some it' ∧ it'.next = it.next := by
  obtain ⟨y, rfl, hset⟩ := Option.bind_eq_some_iff.mp hset
  obtain ⟨ity, hgety, hset⟩ := Option.bind_eq_some_iff.mp hset
  obtain ⟨h'', hset', hupdate⟩ := BlockHeap.set_of_some (b := { ity with next := it.next }) hgety
  cases hset'.symm.trans hset
  by_cases hxy : x = y
  · subst hxy
    exact ⟨_, (congrFun hupdate x).trans (Function.update_self ..), rfl⟩
  · exact ⟨it, by rw [hupdate, Function.update_of_ne hxy, hget], rfl⟩

/-- Unlinking and freeing is what `POP` does. -/
theorem walkUnlink_pop {cl : Clist α} {it : ClistItem α} (hget : cl.items.get x = some it) :
    ((walkUnlink cl x it.next).bind fun cl =>
      (clistItemDestroy cl.items x).bind fun items => some { cl with items := items }) =
      cl.pop x := by
  by_cases hcount : cl.count - 1 = 0
  · simp [walkUnlink, pop, hcount]
  · simp only [walkUnlink, pop, hcount, hget, ne_eq, not_false_eq_true, if_true,
      Option.bind_eq_bind, Option.bind_some]
    cases hset : setNext cl.items it.prev it.next with
    | none => rfl
    | some items =>
        obtain ⟨it', hget', hnext⟩ := setNext_same hget hset
        simp only [Option.bind_some, hget', hnext]
        cases setPrev items it.next it'.prev with
        | none => rfl
        | some items => rfl

/-- An item that is kept goes to the end of the ring. -/
theorem walkRemoveRound_keep {w : Walk α} (hw : w.On ((x, d) :: l)) (hcb : cb d = true) :
    ∃ w', walkRemoveRound cb w = some w' ∧ w'.On (l ++ [(x, d)]) ∧ w'.count = w.count := by
  obtain ⟨it, hget, hdata, hnext⟩ := hw.first
  have hperm := List.perm_append_singleton (x, d) l
  refine ⟨{ w with item := it.next, called := w.called ++ [d] }, ?_, ⟨?_, ?_, ?_, ?_, ?_, ?_⟩, rfl⟩
  · simp [walkRemoveRound, hw.item, hget, hdata, hcb]
  · exact (hperm.map Prod.fst).nodup_iff.mpr hw.nodup
  · rw [List.map_append]
    exact IsRing.rotate_iff.mp hw.ring
  · exact fun p d' => (hw.live p d').trans hperm.mem_iff.symm
  · rw [List.map_append]
    exact hnext
  · rw [hperm.length_eq]
    exact hw.size
  · exact hw.inside

/-- An item that is removed leaves the rest of the ring, or ends the walk. -/
theorem walkRemoveRound_remove {w : Walk α} (hw : w.On ((x, d) :: l)) (hcb : cb d = false)
    (hcount : w.count + 1 < 2 ^ 31) :
    ∃ w', walkRemoveRound cb w = some w' ∧ w'.count = w.count + 1 ∧
      w'.called = w.called ++ [d] ∧ (l ≠ [] → w'.On l) ∧
      (l = [] → w'.broke = true ∧ Holds w'.cl []) := by
  obtain ⟨it, hget, rfl, hnext⟩ := hw.first
  obtain ⟨⟨items, head, size⟩, item, count, called, broke⟩ := w
  obtain ⟨hnodup, hring, hlive, hitem, hsize, hinside⟩ := hw
  dsimp only at hring hlive hitem hsize hinside hget hcount
  subst hitem hsize hinside
  obtain ⟨items', hpop, hring', hlive'⟩ := pop_ring hnodup hring hlive head
  generalize hhead : (if l = [] then none else head) = head' at hpop
  rw [← walkUnlink_pop hget] at hpop
  obtain ⟨cl₁, hunlink, hpop⟩ := Option.bind_eq_some_iff.mp hpop
  obtain ⟨items₁, hdestroy, hpop⟩ := Option.bind_eq_some_iff.mp hpop
  obtain ⟨items₂, head₁, size₁⟩ := cl₁
  cases hpop
  have hround : walkRemoveRound cb ⟨⟨items, head, l.length + 1⟩, some x, count, called, false⟩ =
      some (if it.next = some x then
          ⟨⟨items', head₁, l.length⟩, some x, count + 1, called ++ [it.data], true⟩
        else ⟨⟨items', head₁, l.length⟩, it.next, count + 1, called ++ [it.data], false⟩) := by
    simp only [walkRemoveRound, Option.bind_eq_bind, Option.bind_some, hget, hcb, hunlink, intSucc,
      hcount, hdestroy, Bool.false_eq_true, if_false, if_true]
    split_ifs <;> rfl
  cases l with
  | nil =>
      have hself : it.next = some x := hnext
      rw [if_pos hself] at hround
      exact ⟨_, hround, rfl, rfl, fun hne => absurd rfl hne,
        fun _ => ⟨rfl, List.nodup_nil, hring', hlive', hhead.symm, rfl⟩⟩
  | cons e l =>
      have hne : it.next ≠ some x := by
        rw [hnext]
        intro heq
        cases heq
        exact (List.nodup_cons.mp hnodup).1 List.mem_cons_self
      rw [if_neg hne] at hround
      exact ⟨_, hround, rfl, rfl,
        fun _ => ⟨(List.nodup_cons.mp hnodup).2, hring', hlive', hnext, rfl, rfl⟩,
        fun heq => by cases heq⟩

/-- A round counts an item that it removes, if the counter has room for it. -/
theorem walkRemoveRound_count {w w' : Walk α} (h : walkRemoveRound cb w = some w') :
    ∃ it, w.item.bind w.cl.items.get = some it ∧
      ((cb it.data = true ∧ w'.count = w.count) ∨
        (cb it.data = false ∧ w.count + 1 < 2 ^ 31 ∧ w'.count = w.count + 1)) := by
  obtain ⟨item, hitem, h⟩ := Option.bind_eq_some_iff.mp h
  obtain ⟨it, hget, h⟩ := Option.bind_eq_some_iff.mp h
  refine ⟨it, by rw [hitem, Option.bind_some, hget], ?_⟩
  cases hcb : cb it.data with
  | true =>
      simp only [hcb, if_true] at h
      cases h
      exact .inl ⟨rfl, rfl⟩
  | false =>
      simp only [hcb, Bool.false_eq_true, if_false] at h
      obtain ⟨cl, -, h⟩ := Option.bind_eq_some_iff.mp h
      obtain ⟨count, hcount, h⟩ := Option.bind_eq_some_iff.mp h
      obtain ⟨items, -, h⟩ := Option.bind_eq_some_iff.mp h
      obtain ⟨hroom, hsucc⟩ := Option.ite_none_right_eq_some.mp hcount
      cases hsucc
      refine .inr ⟨rfl, hroom, ?_⟩
      split_ifs at h <;> cases h <;> rfl

theorem walkRemoveRounds_ended {w : Walk α} (hw : w.Ended) (n : Nat) :
    walkRemoveRounds cb n w = some w := by
  cases n with
  | zero => rfl
  | succ n => rw [walkRemoveRounds, if_pos hw]

theorem walkRemoveRounds_succ {w : Walk α} (hw : ¬ w.Ended) (n : Nat) :
    walkRemoveRounds cb (n + 1) w = (walkRemoveRound cb w).bind (walkRemoveRounds cb n) := by
  rw [walkRemoveRounds, if_neg hw]

/-- Where the callback removes every item that is left, the walk ends with the last one. -/
theorem walkRemoveRounds_remove (hcb : ∀ e ∈ l, cb e.2 = false) (hne : l ≠ []) {w : Walk α}
    (hw : w.On l) (hcount : w.count + l.length < 2 ^ 31) :
    ∃ w', walkRemoveRounds cb l.length w = some w' ∧ w'.Ended ∧
      w'.called = w.called ++ l.map Prod.snd ∧ Holds w'.cl [] ∧
      w'.count = w.count + l.length := by
  induction l generalizing w with
  | nil => exact absurd rfl hne
  | cons e l ih =>
      obtain ⟨x, d⟩ := e
      rw [List.length_cons] at hcount
      obtain ⟨w₁, hround, hcount₁, hcalled₁, hrest, hlast⟩ :=
        walkRemoveRound_remove hw (hcb _ List.mem_cons_self) (by omega)
      rw [List.length_cons, walkRemoveRounds_succ (hw.not_ended hne), hround, Option.bind_some,
        List.map_cons]
      by_cases hl : l = []
      · obtain ⟨hbroke, hnone⟩ := hlast hl
        subst hl
        exact ⟨w₁, rfl, .inl hbroke, hcalled₁, hnone, hcount₁⟩
      · obtain ⟨w', hrounds, hended, hcalled, hholds, hcount'⟩ :=
          ih (fun e he => hcb e (List.mem_cons_of_mem _ he)) hl (hrest hl) (by omega)
        refine ⟨w', hrounds, hended, ?_, hholds, by omega⟩
        rw [hcalled, hcalled₁, List.append_assoc]
        rfl

def Keeping (cb : Option α → Bool) (w : Walk α) : Prop :=
  ∃ l, w.On l ∧ ∃ e ∈ l, cb e.2 = true

theorem Keeping.not_ended {w : Walk α} (hw : Keeping cb w) : ¬ w.Ended := by
  obtain ⟨l, hon, e, he, -⟩ := hw
  exact hon.not_ended (List.ne_nil_of_mem he)

theorem Keeping.round {w w' : Walk α} (hw : Keeping cb w)
    (hround : walkRemoveRound cb w = some w') : Keeping cb w' := by
  obtain ⟨l, hon, e, he, hcb⟩ := hw
  cases l with
  | nil => cases he
  | cons f l =>
      obtain ⟨x, d⟩ := f
      cases hd : cb d with
      | true =>
          obtain ⟨w'', hround', hon', -⟩ := walkRemoveRound_keep hon hd
          cases hround'.symm.trans hround
          exact ⟨_, hon', e, (List.perm_append_singleton _ l).mem_iff.mpr he, hcb⟩
      | false =>
          have hel : e ∈ l := by
            refine (List.mem_cons.mp he).resolve_left ?_
            rintro rfl
            rw [hd] at hcb
            cases hcb
          obtain ⟨it, hit, hcounted⟩ := walkRemoveRound_count hround
          obtain ⟨it', hget, rfl, -⟩ := hon.first
          rw [hon.item, List.map_cons, List.head?_cons, Option.bind_some, hget] at hit
          cases hit
          rw [hd] at hcounted
          obtain ⟨-, hroom, -⟩ := hcounted.resolve_left (fun h => Bool.false_ne_true h.1)
          obtain ⟨w'', hround', -, -, hrest, -⟩ := walkRemoveRound_remove hon hd hroom
          cases hround'.symm.trans hround
          exact ⟨l, hrest (List.ne_nil_of_mem hel), e, hel, hcb⟩

/-- What every round keeps, up to the end of the walk. -/
theorem walkRemoveRounds_keeps {P : Walk α → Prop}
    (round : ∀ {w w'}, P w → walkRemoveRound cb w = some w' → P w') {n : Nat} {w w' : Walk α}
    (hw : P w) (hrounds : walkRemoveRounds cb n w = some w') : P w' := by
  induction n generalizing w with
  | zero =>
      cases hrounds
      exact hw
  | succ n ih =>
      by_cases hended : w.Ended
      · rw [walkRemoveRounds_ended hended] at hrounds
        cases hrounds
        exact hw
      · rw [walkRemoveRounds_succ hended] at hrounds
        obtain ⟨w₁, hround, hrounds⟩ := Option.bind_eq_some_iff.mp hrounds
        exact ih (round hw hround) hrounds

/-- `clist_walk_remove` filters a list if and only if it removes the whole of it, and can count
that far. -/
theorem walkFilters_iff (cb : Option α → Bool) {cl : Clist α} {l : List (Nat × Option α)}
    (hcl : Holds cl l) :
    WalkFilters cb cl l ↔ (∀ e ∈ l, cb e.2 = false) ∧ l.length < 2 ^ 31 := by
  constructor
  · rintro ⟨n, w, hrounds, hended, -, -, hcount⟩
    have hall : ∀ e ∈ l, cb e.2 = false := by
      intro e he
      by_contra hkept
      have hkeeping : Keeping cb (walkStart cl) :=
        ⟨l, walkStart_on hcl, e, he, Bool.eq_true_of_not_eq_false hkept⟩
      exact (walkRemoveRounds_keeps Keeping.round hkeeping hrounds).not_ended hended
    have hzero : (walkStart cl).count < 2 ^ 31 := Nat.two_pow_pos 31
    have hroom : w.count < 2 ^ 31 := by
      refine walkRemoveRounds_keeps (P := fun w => w.count < 2 ^ 31) ?_ hzero hrounds
      intro w w' hw hround
      obtain ⟨it, -, ⟨-, hsame⟩ | ⟨-, hroom, hmore⟩⟩ := walkRemoveRound_count hround
      · omega
      · omega
    rw [hcount, List.filter_eq_self.mpr (by simpa using hall)] at hroom
    exact ⟨hall, hroom⟩
  · rintro ⟨hall, hroom⟩
    have hkept : l.filter (fun e => cb e.2) = [] :=
      List.filter_eq_nil_iff.mpr fun e he => by simp [hall e he]
    have hremoved : l.filter (fun e => !cb e.2) = l := List.filter_eq_self.mpr (by simpa using hall)
    rw [WalkFilters, hkept, hremoved]
    by_cases hl : l = []
    · subst hl
      refine ⟨0, walkStart cl, rfl, .inr ⟨hcl.head, hcl.count⟩, rfl, hcl, rfl⟩
    · obtain ⟨w, hrounds, hended, hcalled, hholds, hcount⟩ :=
        walkRemoveRounds_remove hall hl (walkStart_on hcl) (by simpa [walkStart] using hroom)
      refine ⟨l.length, w, hrounds, hended, ?_, hholds, ?_⟩
      · exact hcalled.trans (List.nil_append _)
      · exact hcount.trans (Nat.zero_add _)

theorem walkFilters_pair : ∃ (cl : Clist Nat) (l : List (Nat × Option Nat)), Holds cl l ∧
    l.map Prod.snd = [some 1, some 2] ∧ WalkFilters (fun _ => false) cl l := by
  obtain ⟨cl₁, x, -, -, h₁⟩ := rpush_holds (@create_holds Nat) (some 1)
  obtain ⟨cl₂, y, -, -, h₂⟩ := rpush_holds h₁ (some 2)
  exact ⟨cl₂, _, h₂, rfl, (walkFilters_iff _ h₂).mpr ⟨fun _ _ => rfl, by simp⟩⟩

/-- A walk over items that are all kept goes round and round. -/
theorem walkRemoveRounds_keep (hcb : ∀ d, cb d = true) (hne : l ≠ []) {w : Walk α} (hw : w.On l)
    (n : Nat) : ∃ w', walkRemoveRounds cb n w = some w' ∧ ¬ w'.Ended := by
  induction n generalizing l w with
  | zero => exact ⟨w, rfl, hw.not_ended hne⟩
  | succ n ih =>
      obtain ⟨⟨x, d⟩, l, rfl⟩ := List.exists_cons_of_ne_nil hne
      obtain ⟨w₁, hround, hw₁, -⟩ := walkRemoveRound_keep hw (hcb d)
      rw [walkRemoveRounds_succ (hw.not_ended hne), hround]
      exact ih (List.append_ne_nil_of_right_ne_nil _ (List.cons_ne_nil _ _)) hw₁

/-- One item that is kept, and the walk never ends. -/
theorem walk_forever : ∃ (cl : Clist Nat) (l : List (Nat × Option Nat)), Holds cl l ∧
    l.map Prod.snd = [some 7] ∧
    (∀ n, ∃ w, walkRemoveRounds (fun _ => true) n (walkStart cl) = some w ∧ ¬ w.Ended) ∧
    ¬ WalkFilters (fun _ => true) cl l := by
  obtain ⟨cl, x, -, -, hcl⟩ := rpush_holds (@create_holds Nat) (some 7)
  have hforever := walkRemoveRounds_keep (show ∀ d, (fun _ => true) d = true from fun _ => rfl)
    (List.cons_ne_nil _ _) (walkStart_on hcl)
  refine ⟨cl, _, hcl, rfl, hforever, ?_⟩
  rintro ⟨n, w, hrounds, hended, -⟩
  obtain ⟨w', hrounds', hended'⟩ := hforever n
  cases hrounds.symm.trans hrounds'
  exact hended' hended

end Clist
end ThrSocket
