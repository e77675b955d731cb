import ThrSocket.Lib.BlockHeap
import ThrSocket.Lib.Machine
import ThrSocket.Lib.Ring

/-!
clist.c on a heap of items. A pointer is an address or NULL; reading or writing
through NULL or through an address that was freed is undefined: the result is
`none`.
-/

namespace ThrSocket

structure ClistItem (α : Type) where
  prev : Option Nat
  next : Option Nat
  data : Option α
deriving Repr

abbrev ClistHeap (α : Type) := BlockHeap (ClistItem α)

namespace ClistHeap

variable {α : Type}

def setNext (h : ClistHeap α) (p q : Option Nat) : Option (ClistHeap α) := do
  let p ← p
  let item ← h.get p
  h.set p { item with next := q }

def setPrev (h : ClistHeap α) (p q : Option Nat) : Option (ClistHeap α) := do
  let p ← p
  let item ← h.get p
  h.set p { item with prev := q }

def setData (h : ClistHeap α) (p : Nat) (d : Option α) : Option (ClistHeap α) := do
  let item ← h.get p
  h.set p { item with data := d }

def nextOf (h : ClistHeap α) (p : Nat) : Option Nat := (h.get p).bind ClistItem.next

def prevOf (h : ClistHeap α) (p : Nat) : Option Nat := (h.get p).bind ClistItem.prev

def dataOf (h : ClistHeap α) (p : Nat) : Option (Option α) := (h.get p).map ClistItem.data

def clistItemCreate (h : ClistHeap α) : ClistHeap α × Nat := h.alloc ⟨none, none, none⟩

def clistItemDestroy (h : ClistHeap α) (p : Nat) : Option (ClistHeap α) := do
  let _ ← h.get p
  some (h.free p)

variable {h : ClistHeap α} {p : Nat} {d : Option α}

theorem live_of_dataOf (hp : dataOf h p = some d) : ∃ item, h.get p = some item ∧ item.data = d :=
  Option.map_eq_some_iff.mp hp

/-- An item is written field by field. -/
theorem views_update {h' : ClistHeap α} (item : ClistItem α)
    (hget : h'.get = Function.update h.get p (some item)) :
    nextOf h' = Function.update (nextOf h) p item.next ∧
      prevOf h' = Function.update (prevOf h) p item.prev ∧
      dataOf h' = Function.update (dataOf h) p (some item.data) := by
  refine ⟨?_, ?_, ?_⟩ <;> funext q <;> by_cases hq : q = p <;>
    simp [nextOf, prevOf, dataOf, hget, hq]

theorem setNext_of_live (hp : dataOf h p = some d) (q : Option Nat) :
    ∃ h', setNext h (some p) q = some h' ∧ nextOf h' = Function.update (nextOf h) p q ∧
      prevOf h' = prevOf h ∧ dataOf h' = dataOf h := by
  obtain ⟨item, hitem, rfl⟩ := live_of_dataOf hp
  obtain ⟨h', hset, hget⟩ := BlockHeap.set_of_some (b := { item with next := q }) hitem
  obtain ⟨hn, hp', hd⟩ := views_update _ hget
  refine ⟨h', ?_, hn, ?_, ?_⟩
  · simp [setNext, hitem, hset]
  · rw [hp']
    exact Function.update_eq_self_iff.mpr (by simp [prevOf, hitem])
  · rw [hd]
    exact Function.update_eq_self_iff.mpr hp.symm

theorem setPrev_of_live (hp : dataOf h p = some d) (q : Option Nat) :
    ∃ h', setPrev h (some p) q = some h' ∧ nextOf h' = nextOf h ∧
      prevOf h' = Function.update (prevOf h) p q ∧ dataOf h' = dataOf h := by
  obtain ⟨item, hitem, rfl⟩ := live_of_dataOf hp
  obtain ⟨h', hset, hget⟩ := BlockHeap.set_of_some (b := { item with prev := q }) hitem
  obtain ⟨hn, hp', hd⟩ := views_update _ hget
  refine ⟨h', ?_, ?_, hp', ?_⟩
  · simp [setPrev, hitem, hset]
  · rw [hn]
    exact Function.update_eq_self_iff.mpr (by simp [nextOf, hitem])
  · rw [hd]
    exact Function.update_eq_self_iff.mpr hp.symm

/-- A new item, its data set. -/
theorem create_setData (h : ClistHeap α) (d : Option α) :
    ∃ h', setData (clistItemCreate h).1 (clistItemCreate h).2 d = some h' ∧
      dataOf h (clistItemCreate h).2 = none ∧
      nextOf h' = Function.update (nextOf h) (clistItemCreate h).2 none ∧
      prevOf h' = Function.update (prevOf h) (clistItemCreate h).2 none ∧
      dataOf h' = Function.update (dataOf h) (clistItemCreate h).2 (some d) := by
  have hget : (clistItemCreate h).1.get (clistItemCreate h).2 = some ⟨none, none, none⟩ :=
    BlockHeap.alloc_get_self h _
  obtain ⟨h', hset, hget'⟩ := BlockHeap.set_of_some (b := ⟨none, none, d⟩) hget
  have hupdate : h'.get =
      Function.update h.get (clistItemCreate h).2 (some ⟨none, none, d⟩) := by
    rw [hget']
    exact Function.update_idem ..
  refine ⟨h', ?_, ?_, views_update _ hupdate⟩
  · simp [setData, hget, hset]
  · simp [dataOf, clistItemCreate, BlockHeap.alloc, h.fresh]

theorem destroy_of_live (hp : dataOf h p = some d) :
    ∃ h', clistItemDestroy h p = some h' ∧ nextOf h' = Function.update (nextOf h) p none ∧
      prevOf h' = Function.update (prevOf h) p none ∧
      dataOf h' = Function.update (dataOf h) p none := by
  obtain ⟨item, hitem, rfl⟩ := live_of_dataOf hp
  refine ⟨h.free p, ?_, ?_⟩
  · simp [clistItemDestroy, hitem]
  · refine ⟨?_, ?_, ?_⟩ <;> funext q <;> by_cases hq : q = p <;>
      simp [nextOf, prevOf, dataOf, BlockHeap.free, hq]

end ClistHeap

structure Clist (α : Type) where
  items : ClistHeap α
  head : Option Nat
  count : Nat

inductive ClistOp (α : Type)
  | lpush (data : Option α)
  | rpush (data : Option α)
  | lpop
  | rpop

namespace ClistOp

variable {α : Type}

def isPop : ClistOp α → Bool
  | .lpush _ | .rpush _ => false
  | .lpop | .rpop => true

def pushesNull : ClistOp α → Bool
  | .lpush data | .rpush data => data.isNone
  | .lpop | .rpop => false

end ClistOp

namespace Clist
open ClistHeap

variable {α : Type}

def create : Clist α := ⟨.empty, none, 0⟩

def push (cl : Clist α) (item : Nat) : Option (Clist α) :=
  match cl.head with
  | some head => do
      let hd ← cl.items.get head
      let hprev := hd.prev
      let items ← setNext cl.items (some item) (some head)
      let items ← setPrev items (some item) hprev
      let items ← setPrev items (some head) (some item)
      let items ← setNext items hprev (some item)
      some { cl with items := items }
  | none => do
      let items ← setPrev cl.items (some item) (some item)
      let items ← setNext items (some item) (some item)
      some { cl with items := items, head := some item }

def lpush (cl : Clist α) (data : Option α) : Option (Clist α) := do
  let (items, item) := clistItemCreate cl.items
  let items ← setData items item data
  let cl ← push { cl with items := items } item
  some { cl with head := some item, count := cl.count + 1 }

def rpush (cl : Clist α) (data : Option α) : Option (Clist α) := do
  let (items, item) := clistItemCreate cl.items
  let items ← setData items item data
  let cl ← push { cl with items := items } item
  some { cl with count := cl.count + 1 }

def pop (cl : Clist α) (item : Nat) : Option (Clist α) := do
  let cl := { cl with count := cl.count - 1 }
  if cl.count ≠ 0 then
    let it ← cl.items.get item
    let items ← setNext cl.items it.prev it.next
    let it ← items.get item
    let items ← setPrev items it.next it.prev
    let items ← clistItemDestroy items item
    some { cl with items := items }
  else
    let items ← clistItemDestroy cl.items item
    some { cl with items := items, head := none }

def rpop (cl : Clist α) : Option (Clist α × Option α) :=
  if cl.count = 0 then some (cl, none)
  else do
    let head ← cl.head
    let hd ← cl.items.get head
    let item ← hd.prev
    let it ← cl.items.get item
    let cl ← cl.pop item
    some (cl, it.data)

def lpop (cl : Clist α) : Option (Clist α × Option α) :=
  if cl.count = 0 then some (cl, none)
  else do
    let item ← cl.head
    let it ← cl.items.get item
    let cl ← pop { cl with head := it.next } item
    some (cl, it.data)

def step (cl : Clist α) : ClistOp α → Option (Clist α × Option α)
  | .lpush data => (cl.lpush data).map (·, none)
  | .rpush data => (cl.rpush data).map (·, none)
  | .lpop => cl.lpop
  | .rpop => cl.rpop

/-- The nodes of the list, with what they hold: one ring from the head, and no other item is
allocated. -/
structure Holds (cl : Clist α) (l : List (Nat × Option α)) : Prop where
  nodup : (l.map Prod.fst).Nodup
  ring : IsRing (nextOf cl.items) (prevOf cl.items) (l.map Prod.fst)
  live : ∀ p d, dataOf cl.items p = some d ↔ (p, d) ∈ l
  head : cl.head = (l.map Prod.fst).head?
  count : cl.count = l.length

theorem create_holds : Holds (create : Clist α) [] where
  nodup := List.nodup_nil
  ring := IsRing.nil
  live p d := by simp [create, dataOf, BlockHeap.empty]
  head := rfl
  count := rfl

variable {cl : Clist α} {l : List (Nat × Option α)} {x : Nat} {d : Option α}

theorem Holds.live_of_mem (hcl : Holds cl l) (hx : x ∈ l.map Prod.fst) :
    ∃ d, dataOf cl.items x = some d := by
  obtain ⟨⟨p, d⟩, he, rfl⟩ := List.mem_map.mp hx
  exact ⟨d, (hcl.live p d).mpr he⟩

theorem Holds.dead (hcl : Holds cl l) (hx : dataOf cl.items x = none) : x ∉ l.map Prod.fst := by
  intro hmem
  obtain ⟨d, hd⟩ := hcl.live_of_mem hmem
  rw [hx] at hd
  cases hd

/-- The macro `PUSH` puts a new item in between the last item and the head. -/
theorem push_ring {items : ClistHeap α} (hcl : Holds cl l) (hx : dataOf cl.items x = none)
    (hnext : nextOf items = Function.update (nextOf cl.items) x none)
    (hprev : prevOf items = Function.update (prevOf cl.items) x none)
    (hdata : dataOf items = Function.update (dataOf cl.items) x (some d)) :
    ∃ cl', push { cl with items := items } x = some cl' ∧
      IsRing (nextOf cl'.items) (prevOf cl'.items) (x :: l.map Prod.fst) ∧
      dataOf cl'.items = Function.update (dataOf cl.items) x (some d) ∧
      cl'.head = (l.map Prod.fst ++ [x]).head? ∧ cl'.count = cl.count := by
  have hxl := hcl.dead hx
  have hlive : dataOf items x = some d := by rw [hdata, Function.update_self]
  cases l with
  | nil =>
      obtain ⟨h₁, he₁, hn₁, hp₁, hd₁⟩ := setPrev_of_live hlive (some x)
      obtain ⟨h₂, he₂, hn₂, hp₂, hd₂⟩ := setNext_of_live (hd₁.symm ▸ hlive) (some x)
      refine ⟨⟨h₂, some x, cl.count⟩, ?_, IsRing.singleton_iff.mpr ⟨?_, ?_⟩, ?_, rfl, rfl⟩
      · simp [push, hcl.head, he₁, he₂]
      · rw [hn₂, Function.update_self]
      · rw [hp₂, hp₁, Function.update_self]
      · rw [hd₂, hd₁, hdata]
  | cons e l =>
      obtain ⟨h, dh⟩ := e
      obtain ⟨z, hz⟩ : ∃ z, (h :: l.map Prod.fst).getLast? = some z :=
        ⟨_, List.getLast?_eq_getLast_of_ne_nil (List.cons_ne_nil _ _)⟩
      have hzx : z ≠ x := ne_of_mem_of_not_mem (List.mem_of_getLast? hz) hxl
      have hhx : h ≠ x := ne_of_mem_of_not_mem List.mem_cons_self hxl
      obtain ⟨dz, hdz⟩ := hcl.live_of_mem (List.mem_of_getLast? hz)
      have hliveh : dataOf items h = some dh := by
        rw [hdata, Function.update_of_ne hhx]
        exact (hcl.live h dh).mpr List.mem_cons_self
      have hlivez : dataOf items z = some dz := by
        rw [hdata, Function.update_of_ne hzx, hdz]
      obtain ⟨hd, hget, -⟩ := live_of_dataOf hliveh
      have hprevh : hd.prev = some z := by
        have hlink := (IsRing.last_first hcl.ring hz rfl).2
        rw [← Function.update_of_ne hhx none (prevOf cl.items), ← hprev, prevOf, hget] at hlink
        exact hlink
      obtain ⟨h₁, he₁, hn₁, hp₁, hd₁⟩ := setNext_of_live hlive (some h)
      obtain ⟨h₂, he₂, hn₂, hp₂, hd₂⟩ := setPrev_of_live (hd₁.symm ▸ hlive) (some z)
      have hsame₂ : dataOf h₂ = dataOf items := hd₂.trans hd₁
      obtain ⟨h₃, he₃, hn₃, hp₃, hd₃⟩ := setPrev_of_live (hsame₂.symm ▸ hliveh) (some x)
      have hsame₃ : dataOf h₃ = dataOf items := hd₃.trans hsame₂
      obtain ⟨h₄, he₄, hn₄, hp₄, hd₄⟩ := setNext_of_live (hsame₃.symm ▸ hlivez) (some x)
      have hnext₄ : nextOf h₄ = Function.update (Function.update (nextOf cl.items) x (some h)) z
          (some x) := by
        rw [hn₄, hn₃, hn₂, hn₁, hnext, Function.update_idem]
      have hprev₄ : prevOf h₄ = Function.update (Function.update (prevOf cl.items) x (some z)) h
          (some x) := by
        rw [hp₄, hp₃, hp₂, hp₁, hprev, Function.update_idem]
      refine ⟨{ cl with items := h₄ }, ?_, ?_, ?_, hcl.head, rfl⟩
      · simp [push, hcl.head, hget, hprevh, he₁, he₂, he₃, he₄]
      · exact hcl.ring.splice hcl.nodup hxl hz rfl (.of_updates hzx hhx hnext₄ hprev₄)
      · rw [hd₄, hsame₃, hdata]

theorem live_insert {data data' : Nat → Option (Option α)} (hx : x ∉ l.map Prod.fst)
    (hlive : ∀ p d, data p = some d ↔ (p, d) ∈ l)
    (hdata : data' = Function.update data x (some d)) (p : Nat) (d' : Option α) :
    data' p = some d' ↔ (p, d') ∈ (x, d) :: l := by
  rw [hdata]
  by_cases hp : p = x
  · subst hp
    have hno : (p, d') ∉ l := fun h => hx (List.mem_map.mpr ⟨_, h, rfl⟩)
    simp [hno, eq_comm]
  · simp [hp, hlive]

theorem live_remove {data data' : Nat → Option (Option α)} (hx : x ∉ l.map Prod.fst)
    (hlive : ∀ p d', data p = some d' ↔ (p, d') ∈ (x, d) :: l)
    (hdata : data' = Function.update data x none) (p : Nat) (d' : Option α) :
    data' p = some d' ↔ (p, d') ∈ l := by
  rw [hdata]
  by_cases hp : p = x
  · subst hp
    have hno : (p, d') ∉ l := fun h => hx (List.mem_map.mpr ⟨_, h, rfl⟩)
    simp [hno]
  · simp [hp, hlive]

theorem lpush_holds (hcl : Holds cl l) (d : Option α) :
    ∃ cl' x, cl.lpush d = some cl' ∧ x ∉ l.map Prod.fst ∧ Holds cl' ((x, d) :: l) := by
  obtain ⟨items, hset, hx, hnext, hprev, hdata⟩ := create_setData cl.items d
  obtain ⟨cl', hpush, hring, hdata', _, hcount⟩ := push_ring hcl hx hnext hprev hdata
  have hxl := hcl.dead hx
  refine ⟨{ cl' with head := some (clistItemCreate cl.items).2, count := cl'.count + 1 },
    (clistItemCreate cl.items).2, ?_, hxl, ?_⟩
  · simp [lpush, hset, hpush]
  · exact {
      nodup := List.nodup_cons.mpr ⟨hxl, hcl.nodup⟩
      ring := hring
      live := live_insert hxl hcl.live hdata'
      head := rfl
      count := by simp [hcount, hcl.count] }

theorem rpush_holds (hcl : Holds cl l) (d : Option α) :
    ∃ cl' x, cl.rpush d = some cl' ∧ x ∉ l.map Prod.fst ∧ Holds cl' (l ++ [(x, d)]) := by
  obtain ⟨items, hset, hx, hnext, hprev, hdata⟩ := create_setData cl.items d
  obtain ⟨cl', hpush, hring, hdata', hhead, hcount⟩ := push_ring hcl hx hnext hprev hdata
  have hxl := hcl.dead hx
  refine ⟨{ cl' with count := cl'.count + 1 }, (clistItemCreate cl.items).2, ?_, hxl, ?_⟩
  · simp [rpush, hset, hpush]
  · exact {
      nodup := by
        rw [List.map_append]
        exact List.Nodup.append hcl.nodup (List.nodup_singleton _)
          (List.disjoint_singleton.mpr hxl)
      ring := by
        rw [List.map_append]
        exact IsRing.rotate_iff.mp hring
      live := fun p d' => (live_insert hxl hcl.live hdata' p d').trans
        (List.perm_append_singleton (_, d) l).mem_iff.symm
      head := by rw [hhead, List.map_append, List.map_singleton]
      count := by simp [hcount, hcl.count] }

/-- The macro `POP` takes an item out of the ring and releases it; it is seen here as the first
of the ring. -/
theorem pop_ring {items : ClistHeap α} (hnodup : (x :: l.map Prod.fst).Nodup)
    (hring : IsRing (nextOf items) (prevOf items) (x :: l.map Prod.fst))
    (hlive : ∀ p d', dataOf items p = some d' ↔ (p, d') ∈ (x, d) :: l) (head : Option Nat) :
    ∃ items', pop ⟨items, head, l.length + 1⟩ x =
        some ⟨items', if l = [] then none else head, l.length⟩ ∧
      IsRing (nextOf items') (prevOf items') (l.map Prod.fst) ∧
      ∀ p d', dataOf items' p = some d' ↔ (p, d') ∈ l := by
  have hlivex : dataOf items x = some d := (hlive x d).mpr List.mem_cons_self
  obtain ⟨hxl, hnodup'⟩ := List.nodup_cons.mp hnodup
  cases l with
  | nil =>
      obtain ⟨h₁, he₁, -, -, hd₁⟩ := destroy_of_live hlivex
      refine ⟨h₁, ?_, IsRing.nil, live_remove hxl hlive hd₁⟩
      simp [pop, he₁]
  | cons e l =>
      obtain ⟨h, dh⟩ := e
      obtain ⟨z, hz⟩ : ∃ z, (h :: l.map Prod.fst).getLast? = some z :=
        ⟨_, List.getLast?_eq_getLast_of_ne_nil (List.cons_ne_nil _ _)⟩
      have hzmem : z ∈ h :: l.map Prod.fst := List.mem_of_getLast? hz
      have hzx : z ≠ x := ne_of_mem_of_not_mem hzmem hxl
      have hhx : h ≠ x := ne_of_mem_of_not_mem List.mem_cons_self hxl
      have hlast : (x :: h :: l.map Prod.fst).getLast? = some z := by
        rw [List.getLast?_cons, hz, Option.getD_some]
      have hprevx : prevOf items x = some z := (IsRing.last_first hring hlast rfl).2
      have hnextx : nextOf items x = some h := by
        obtain ⟨b, hb, hlink⟩ := IsRing.first_next hring
        cases hb
        exact hlink.1
      obtain ⟨it, hget, -⟩ := live_of_dataOf hlivex
      have hitprev : it.prev = some z := by simpa [prevOf, hget] using hprevx
      have hitnext : it.next = some h := by simpa [nextOf, hget] using hnextx
      obtain ⟨⟨z', dz⟩, hze, rfl⟩ : ∃ e ∈ (h, dh) :: l, e.1 = z := List.mem_map.mp hzmem
      have hlivez := (hlive z' dz).mpr (List.mem_cons_of_mem _ hze)
      obtain ⟨h₁, he₁, hn₁, hp₁, hd₁⟩ := setNext_of_live hlivez (some h)
      obtain ⟨it', hget', -⟩ := live_of_dataOf (hd₁.symm ▸ hlivex)
      have hitprev' : it'.prev = some z' := by
        have : prevOf h₁ x = some z' := by rw [hp₁, hprevx]
        simpa [prevOf, hget'] using this
      have hitnext' : it'.next = some h := by
        have : nextOf h₁ x = some h := by rw [hn₁, Function.update_of_ne hzx.symm, hnextx]
        simpa [nextOf, hget'] using this
      have hliveh : dataOf h₁ h = some dh := by
        rw [hd₁]
        exact (hlive h dh).mpr (List.mem_cons_of_mem _ List.mem_cons_self)
      obtain ⟨h₂, he₂, hn₂, hp₂, hd₂⟩ := setPrev_of_live hliveh (some z')
      have hsame₂ : dataOf h₂ = dataOf items := hd₂.trans hd₁
      obtain ⟨h₃, he₃, hn₃, hp₃, hd₃⟩ := destroy_of_live (hsame₂.symm ▸ hlivex)
      refine ⟨h₃, ?_, ?_, live_remove hxl hlive (by rw [hd₃, hsame₂])⟩
      · simp [pop, hget, hitprev, hitnext, he₁, hget', hitprev', hitnext', he₂, he₃]
      · exact hring.unlink hnodup hz rfl
          (.of_updates hzx hhx (by rw [hn₃, hn₂, hn₁]) (by rw [hp₃, hp₂, hp₁]))

theorem lpop_holds (hcl : Holds cl ((x, d) :: l)) :
    ∃ cl', cl.lpop = some (cl', d) ∧ Holds cl' l := by
  obtain ⟨items, head, count⟩ := cl
  obtain ⟨hnodup, hring, hlive, hhead, hcount⟩ := hcl
  dsimp only at hring hlive hhead hcount
  rw [List.map_cons] at hnodup hring hhead
  subst hhead hcount
  obtain ⟨it, hget, hdata⟩ := live_of_dataOf ((hlive x d).mpr List.mem_cons_self)
  have hitnext : it.next = (l.map Prod.fst ++ [x]).head? := by
    obtain ⟨b, hb, hlink⟩ := IsRing.first_next hring
    rw [hb, ← hlink.1]
    simp [nextOf, hget]
  obtain ⟨items', hpop, hring', hlive'⟩ := pop_ring hnodup hring hlive it.next
  refine ⟨⟨items', if l = [] then none else it.next, l.length⟩, ?_,
    ⟨(List.nodup_cons.mp hnodup).2, hring', hlive', ?_, rfl⟩⟩
  · simp [lpop, hget, hpop, hdata]
  · cases l with
    | nil => rfl
    | cons e l => exact hitnext

theorem rpop_holds (hcl : Holds cl (l ++ [(x, d)])) :
    ∃ cl', cl.rpop = some (cl', d) ∧ Holds cl' l := by
  obtain ⟨items, head, count⟩ := cl
  obtain ⟨hnodup, hring, hlive, hhead, hcount⟩ := hcl
  dsimp only at hring hlive hhead hcount
  rw [List.map_append, List.map_singleton] at hnodup hring hhead
  rw [List.length_append, List.length_singleton] at hcount
  subst hcount
  have hperm : ∀ e, e ∈ l ++ [(x, d)] ↔ e ∈ (x, d) :: l := fun e =>
    (List.perm_append_singleton (x, d) l).mem_iff
  have hnodup' : (x :: l.map Prod.fst).Nodup :=
    (List.perm_append_singleton x _).nodup_iff.mp hnodup
  have hring' : IsRing (nextOf items) (prevOf items) (x :: l.map Prod.fst) :=
    IsRing.rotate_iff.mpr hring
  have hlive' : ∀ p d', dataOf items p = some d' ↔ (p, d') ∈ (x, d) :: l := fun p d' =>
    (hlive p d').trans (hperm _)
  obtain ⟨it, hget, hdata⟩ := live_of_dataOf ((hlive' x d).mpr List.mem_cons_self)
  obtain ⟨h, hh⟩ : ∃ h, (l.map Prod.fst ++ [x]).head? = some h :=
    Option.ne_none_iff_exists'.mp
      (mt List.head?_eq_none_iff.mp (List.append_ne_nil_of_right_ne_nil _ (by simp)))
  have hprevh : prevOf items h = some x :=
    (IsRing.last_first hring (List.getLast?_concat ..) hh).2
  obtain ⟨hd, hgeth, hprev⟩ := Option.bind_eq_some_iff.mp hprevh
  obtain ⟨items', hpop, hring'', hlive''⟩ := pop_ring hnodup' hring' hlive' head
  refine ⟨⟨items', if l = [] then none else head, l.length⟩, ?_,
    ⟨(List.nodup_cons.mp hnodup').2, hring'', hlive'', ?_, rfl⟩⟩
  · have hhd : head = some h := hhead.trans hh
    rw [hhd] at hpop ⊢
    simp [rpop, hgeth, hprev, hget, hdata, hpop]
  · rw [hhead]
    cases l with
    | nil => rfl
    | cons e l => rfl

/-- What an operation does to the sequence of the nodes, and what it returns. A push takes a node
that is not in the sequence; a pop returns the data of the node at its end and takes that node
out. -/
inductive DequeStep : List (Nat × Option α) → ClistOp α → Option α → List (Nat × Option α) → Prop
  | lpush (l : List (Nat × Option α)) (x : Nat) (d : Option α) (fresh : x ∉ l.map Prod.fst) :
      DequeStep l (.lpush d) none ((x, d) :: l)
  | rpush (l : List (Nat × Option α)) (x : Nat) (d : Option α) (fresh : x ∉ l.map Prod.fst) :
      DequeStep l (.rpush d) none (l ++ [(x, d)])
  | lpop_empty : DequeStep [] .lpop none []
  | lpop (l : List (Nat × Option α)) (x : Nat) (d : Option α) : DequeStep ((x, d) :: l) .lpop d l
  | rpop_empty : DequeStep [] .rpop none []
  | rpop (l : List (Nat × Option α)) (x : Nat) (d : Option α) : DequeStep (l ++ [(x, d)]) .rpop d l

theorem step_refines (op : ClistOp α) (hcl : Holds cl l) :
    ∃ cl' o l', step cl op = some (cl', o) ∧ DequeStep l op o l' ∧ Holds cl' l' := by
  cases op with
  | lpush d =>
      obtain ⟨cl', x, he, hx, hcl'⟩ := lpush_holds hcl d
      exact ⟨cl', none, _, by rw [step, he]; rfl, .lpush l x d hx, hcl'⟩
  | rpush d =>
      obtain ⟨cl', x, he, hx, hcl'⟩ := rpush_holds hcl d
      exact ⟨cl', none, _, by rw [step, he]; rfl, .rpush l x d hx, hcl'⟩
  | lpop =>
      cases l with
      | nil => exact ⟨cl, none, [], by simp [step, lpop, hcl.count], .lpop_empty, hcl⟩
      | cons e l =>
          obtain ⟨x, d⟩ := e
          obtain ⟨cl', he, hcl'⟩ := lpop_holds hcl
          exact ⟨cl', d, l, he, .lpop l x d, hcl'⟩
  | rpop =>
      rcases List.eq_nil_or_concat' l with rfl | ⟨l, ⟨x, d⟩, rfl⟩
      · exact ⟨cl, none, [], by simp [step, rpop, hcl.count], .rpop_empty, hcl⟩
      · obtain ⟨cl', he, hcl'⟩ := rpop_holds hcl
        exact ⟨cl', d, l, he, .rpop l x d, hcl'⟩

theorem run_refines (ops : List (ClistOp α)) (hcl : Holds cl l) :
    ∃ cl' os l', Machine.run step cl ops = some (cl', os) ∧
      Machine.SpecRun DequeStep l ops os l' ∧ Holds cl' l' :=
  Machine.run_total_refines DequeStep (G := fun _ _ => True) (fun hcl _ => step_refines _ hcl) hcl
    (Machine.along_of_forall (L := fun _ => True) (fun _ _ _ => trivial) fun _ _ => trivial)

def NullOnEmpty (cl : Clist α) (op : ClistOp α) : Prop :=
  op.isPop = true → ∀ cl' o, step cl op = some (cl', o) → (o = none ↔ cl.count = 0)

theorem nullOnEmpty_of_holds {op : ClistOp α} (hcl : Holds cl l) (hnull : ∀ e ∈ l, e.2 ≠ none) :
    NullOnEmpty cl op := by
  intro hpop cl' o hstep
  obtain ⟨cl'', o', l', hstep', hspec, -⟩ := step_refines op hcl
  obtain ⟨-, rfl⟩ := Prod.mk.inj (Option.some.inj (hstep'.symm.trans hstep))
  rw [hcl.count, List.length_eq_zero_iff]
  cases hspec with
  | lpush | rpush => cases hpop
  | lpop_empty | rpop_empty => simp
  | lpop _ x => simpa using hnull (x, o') List.mem_cons_self
  | rpop l x => simpa using hnull (x, o') (List.mem_append_right _ List.mem_cons_self)

/-- Where no NULL is pushed, the list holds none. -/
theorem nonnull_step {op : ClistOp α} {o : Option α} {l' : List (Nat × Option α)}
    (hspec : DequeStep l op o l') (hop : op.pushesNull = false) (hnull : ∀ e ∈ l, e.2 ≠ none) :
    ∀ e ∈ l', e.2 ≠ none := by
  have hdata : ∀ x d, Option.isNone d = false → ∀ e ∈ (x, d) :: l, e.2 ≠ none := by
    intro x d hd e he
    rcases List.mem_cons.mp he with rfl | he
    · rintro rfl
      cases hd
    · exact hnull e he
  cases hspec with
  | lpush _ x d => exact hdata x d hop
  | rpush _ x d =>
      exact fun e he => hdata x d hop e ((List.perm_append_singleton (x, d) l).mem_iff.mp he)
  | lpop_empty | rpop_empty => exact hnull
  | lpop => exact fun e he => hnull e (List.mem_cons_of_mem _ he)
  | rpop => exact fun e he => hnull e (List.mem_append_left _ he)

theorem nullOnEmpty_along {ops : List (ClistOp α)} (hops : ∀ op ∈ ops, op.pushesNull = false) :
    Machine.Along step NullOnEmpty (create : Clist α) ops := by
  refine Machine.along_of_invariant (G := fun _ op => op.pushesNull = false)
    (fun cl => ∃ l, Holds cl l ∧ ∀ e ∈ l, e.2 ≠ none) ?_ ?_ ⟨[], create_holds, by simp⟩
    (Machine.along_of_forall (L := fun op : ClistOp α => op.pushesNull = false)
      (fun _ _ h => h) hops)
  · rintro cl op cl' o ⟨l, hcl, hnull⟩ hop hstep
    obtain ⟨cl'', o', l', hstep', hspec, hcl'⟩ := step_refines op hcl
    obtain ⟨rfl, rfl⟩ := Prod.mk.inj (Option.some.inj (hstep'.symm.trans hstep))
    exact ⟨l', hcl', nonnull_step hspec hop hnull⟩
  · rintro cl op ⟨l, hcl, hnull⟩ -
    exact nullOnEmpty_of_holds hcl hnull

/-- A NULL that was pushed is given back by a list that is not empty. -/
theorem lpop_null : ¬ Machine.Along step NullOnEmpty (create : Clist Nat) [.lpush none, .lpop] := by
  rintro ⟨-, h⟩
  obtain ⟨cl, x, hpush, -, hcl⟩ := lpush_holds (@create_holds Nat) none
  have hlpop := (h cl none (by rw [step, hpush]; rfl)).1 rfl
  obtain ⟨cl', hpop, -⟩ := lpop_holds hcl
  have hcount := (hlpop cl' none hpop).mp rfl
  rw [hcl.count] at hcount
  cases hcount

end Clist

end ThrSocket
