import ThrSocket.Clist
import ThrSocket.Lib.Critical

/-!
The operations of clist.c that `fired_queue` is used with, one access to memory at a time.
Made in a row, the accesses are the operations of the list.
-/

namespace ThrSocket.ClistAccess

open Critical ClistHeap

variable {α : Type}

def head : Prog (Clist α) (Option Nat) := .read fun cl => some cl.head

def count : Prog (Clist α) Nat := .read fun cl => some cl.count

def setHead (p : Option Nat) : Prog (Clist α) Unit := .write fun cl => some { cl with head := p }

def setCount (n : Nat) : Prog (Clist α) Unit := .write fun cl => some { cl with count := n }

def field {τ : Type} (f : ClistItem α → τ) (p : Option Nat) : Prog (Clist α) τ :=
  .read fun cl => p.bind fun p => (cl.items.get p).map f

def onItems (f : ClistHeap α → Option (ClistHeap α)) : Prog (Clist α) Unit :=
  .write fun cl => (f cl.items).map fun items => { cl with items := items }

def jmallocItem (junk : Nat → ClistItem α) : Prog (Clist α) Nat :=
  .access (fun cl =>
    let (items, item) := cl.items.alloc (junk cl.items.next)
    some (item, { cl with items := items })) .ret

def clistItemCreate (junk : Nat → ClistItem α) : Prog (Clist α) Nat := do
  let item ← jmallocItem junk
  onItems fun h => setNext h (some item) none
  onItems fun h => setPrev h (some item) none
  onItems fun h => setData h item none
  return item

def push (item : Nat) : Prog (Clist α) Unit := do
  let hd ← head
  if hd.isSome then
    let hd ← head
    let hprev ← field ClistItem.prev hd
    let hd ← head
    onItems fun h => setNext h (some item) hd
    onItems fun h => setPrev h (some item) hprev
    let hd ← head
    onItems fun h => setPrev h hd (some item)
    onItems fun h => setNext h hprev (some item)
  else
    onItems fun h => setPrev h (some item) (some item)
    onItems fun h => setNext h (some item) (some item)
    setHead (some item)

def clistLpush (junk : Nat → ClistItem α) (data : Option α) : Prog (Clist α) Unit := do
  let item ← clistItemCreate junk
  onItems fun h => setData h item data
  push item
  setHead (some item)
  let n ← count
  setCount (n + 1)

def pop (item : Option Nat) : Prog (Clist α) Unit := do
  let n ← count
  setCount (n - 1)
  if n - 1 ≠ 0 then
    let next ← field ClistItem.next item
    let prev ← field ClistItem.prev item
    onItems fun h => setNext h prev next
    let prev ← field ClistItem.prev item
    let next ← field ClistItem.next item
    onItems fun h => setPrev h next prev
  else
    setHead none
  onItems fun h => item.bind h.clistItemDestroy

def clistRpop : Prog (Clist α) (Option α) := do
  let n ← count
  if n = 0 then
    return none
  else
    let hd ← head
    let item ← field ClistItem.prev hd
    let data ← field ClistItem.data item
    pop item
    return data

section

variable (cl : Clist α)

@[simp] theorem exec_head : head.exec cl = some (cl.head, cl) := by simp [head]

@[simp] theorem exec_count : count.exec cl = some (cl.count, cl) := by simp [count]

@[simp] theorem exec_setHead (p : Option Nat) :
    (setHead p).exec cl = some ((), { cl with head := p }) := by simp [setHead]

@[simp] theorem exec_setCount (n : Nat) :
    (setCount n).exec cl = some ((), { cl with count := n }) := by simp [setCount]

@[simp] theorem exec_field {τ : Type} (f : ClistItem α → τ) (p : Option Nat) :
    (field f p).exec cl = p.bind fun p => (cl.items.get p).map fun item => (f item, cl) := by
  cases p <;> simp [field, Function.comp_def]

@[simp] theorem exec_onItems (f : ClistHeap α → Option (ClistHeap α)) :
    (onItems f).exec cl = (f cl.items).map fun items => ((), { cl with items := items }) := by
  simp [onItems, Function.comp_def]

end

theorem exec_clistItemCreate (junk : Nat → ClistItem α) (cl : Clist α) :
    (clistItemCreate junk).exec cl = some ((ClistHeap.clistItemCreate cl.items).2,
      { cl with items := (ClistHeap.clistItemCreate cl.items).1 }) := by
  have hget : ∀ b : ClistItem α, (cl.items.alloc b).1.get cl.items.next = some b :=
    BlockHeap.alloc_get_self cl.items
  have hset : ∀ b b' : ClistItem α,
      (cl.items.alloc b).1.set cl.items.next b' = some (cl.items.alloc b').1 :=
    BlockHeap.alloc_set cl.items
  have hitem : ∀ b : ClistItem α, (cl.items.alloc b).2 = cl.items.next := fun _ => rfl
  simp [clistItemCreate, jmallocItem, ClistHeap.clistItemCreate, setNext, setPrev, setData, hitem,
    hget, hset]

theorem exec_push (cl : Clist α) (item : Nat) :
    (push item).exec cl = (cl.push item).map ((), ·) := by
  cases hhead : cl.head with
  | none => simp [push, Clist.push, hhead, Option.map_eq_bind, Option.bind_assoc]
  | some hd => simp [push, Clist.push, hhead, Option.map_eq_bind, Option.bind_assoc]

theorem exec_clistLpush (junk : Nat → ClistItem α) (cl : Clist α) (data : Option α) :
    (clistLpush junk data).exec cl = (cl.lpush data).map ((), ·) := by
  simp [clistLpush, exec_clistItemCreate, exec_push, Clist.lpush, Option.map_eq_bind,
    Option.bind_assoc]

/-- A value that is read twice is the same. -/
theorem bind_twice {β γ : Type} (o : Option β) (f : β → β → Option γ) :
    (o.bind fun a => o.bind fun b => f a b) = o.bind fun a => f a a := by
  cases o <;> rfl

theorem exec_pop (cl : Clist α) (item : Nat) :
    (pop (some item)).exec cl = (cl.pop item).map ((), ·) := by
  by_cases hn : cl.count - 1 = 0
  · simp [pop, Clist.pop, hn, Option.map_eq_bind, Option.bind_assoc]
  · simp [pop, Clist.pop, hn, Option.map_eq_bind, Option.bind_assoc, bind_twice]

theorem exec_clistRpop (cl : Clist α) :
    clistRpop.exec cl = cl.rpop.map fun x => (x.2, x.1) := by
  by_cases hn : cl.count = 0
  · simp [clistRpop, Clist.rpop, hn]
  · simp only [clistRpop, Clist.rpop, hn, if_false, Prog.exec_bind, exec_count, exec_head,
      exec_field, Option.map_eq_bind, Option.bind_assoc, Option.bind_some, Option.bind_eq_bind]
    refine Option.bind_congr fun head _ => Option.bind_congr fun hd _ => ?_
    cases hprev : hd.prev with
    | none => simp [hprev]
    | some item => simp [hprev, exec_pop, Option.map_eq_bind, Option.bind_assoc]

end ThrSocket.ClistAccess
