import Mathlib.Algebra.Group.Nat.Defs
import Mathlib.Tactic.Common

/-!
The hash table of dict.c with incremental rehashing: up to two tables, of
which every call moves one bucket while no iterator is under way. A chain is the
list of its entries in order; an entry keeps the address it was allocated at,
which is how an iterator refers to it. A read outside an array or through the
address of a released entry is undefined: the result is `none`. The destroy
callbacks, which act on the memory behind a key or a value, are left out.
-/

namespace ThrSocket

structure DictOpts (K V : Type) where
  hash : K → UInt32
  keyDup : Option (K → K) := none
  valueDup : Option (V → V) := none
  keyCompare : Option (K → K → Bool) := none

structure DictEntry (K V : Type) where
  addr : Nat
  key : K
  value : V
  ref : Nat

/-- An array that is not allocated has no buckets; an allocated one is never empty. -/
structure DictTable (K V : Type) where
  entries : List (List (DictEntry K V)) := []
  size : Nat := 0
  mask : Nat := 0
  used : Nat := 0

/-- An entry that is in no chain any more but is kept for an iterator, with its
`next`, which nothing resets. -/
structure Detached (K V : Type) where
  entry : DictEntry K V
  next : Option Nat

/-- The index -1 of a dict that is not rehashing is `none`. -/
structure Dict (K V : Type) where
  dt0 : DictTable K V := {}
  dt1 : DictTable K V := {}
  rehashidx : Option Nat := none
  iterators : Int := 0
  detached : List (Detached K V) := []
  nextAddr : Nat := 0

structure DictIterator where
  dtIdx : Nat := 0
  idx : Int := -1
  entry : Option Nat := none

variable {K V : Type}

def u32 (n : Nat) : Nat := n % 2 ^ 32

def intMax : Nat := 2 ^ 31 - 1

def dictInitSize : Nat := 8

namespace DictOpts

variable (o : DictOpts K V)

def setKey (k : K) : K :=
  match o.keyDup with
  | some dup => dup k
  | none => k

def setValue (v : V) : V :=
  match o.valueDup with
  | some dup => dup v
  | none => v

def compare [DecidableEq K] (k1 k2 : K) : Bool :=
  match o.keyCompare with
  | some cmp => cmp k1 k2
  | none => k1 = k2

end DictOpts

def Dict.rehashing (d : Dict K V) : Bool := d.rehashidx.isSome

def Dict.dictUsed (d : Dict K V) : Nat := u32 (d.dt0.used + d.dt1.used)

def Dict.dt (d : Dict K V) (i : Nat) : DictTable K V := if i = 0 then d.dt0 else d.dt1

/-- The loop of `_pow_size`. After the 32nd doubling `s` is 0 for good, and the
loop does not end. -/
def powSizeLoop (size : Nat) : Nat → Nat → Option Nat
  | 0, _ => none
  | fuel + 1, s => if s < size then powSizeLoop size fuel (u32 (s * 2)) else some s

def powSize (size : Nat) : Option Nat :=
  if dictInitSize > intMax then some intMax else powSizeLoop size 33 dictInitSize

def cellIn (a : Nat) : List (DictEntry K V) → Option (DictEntry K V × Option Nat)
  | [] => none
  | e :: chain => if e.addr = a then some (e, chain.head?.map (·.addr)) else cellIn a chain

def DictTable.modify (t : DictTable K V) (a : Nat) (f : DictEntry K V → DictEntry K V) :
    DictTable K V :=
  { t with entries := t.entries.map fun chain => chain.map fun e => if e.addr = a then f e else e }

namespace Dict

/-- The entry at an address and its `next`, as long as the entry is not released. -/
def cell (d : Dict K V) (a : Nat) : Option (DictEntry K V × Option Nat) :=
  match (d.dt0.entries ++ d.dt1.entries).findSome? (cellIn a) with
  | some c => some c
  | none => (d.detached.find? (·.entry.addr = a)).map fun x => (x.entry, x.next)

def modify (d : Dict K V) (a : Nat) (f : DictEntry K V → DictEntry K V) : Dict K V :=
  { d with
    dt0 := d.dt0.modify a f
    dt1 := d.dt1.modify a f
    detached := d.detached.map fun x =>
      if x.entry.addr = a then { x with entry := f x.entry } else x }

def entryIncr (d : Dict K V) (a : Nat) : Option (Dict K V) :=
  match d.cell a with
  | none => none
  | some _ => some (d.modify a fun e => { e with ref := e.ref + 1 })

/-- ENTRY_DECR of an iterator. The last reference to a chained entry is never its. -/
def entryDecr (d : Dict K V) (a : Nat) : Option (Dict K V) :=
  match d.cell a with
  | none => none
  | some (e, _) =>
      if e.ref - 1 ≠ 0 then some (d.modify a fun e => { e with ref := e.ref - 1 })
      else if d.detached.any (·.entry.addr = a) then
        some { d with detached := d.detached.filter (·.entry.addr ≠ a) }
      else none

end Dict

/-- ENTRY_DECR of an entry just taken out of its chain. -/
def unlinked (e : DictEntry K V) (next : Option Nat) : List (Detached K V) :=
  if e.ref - 1 = 0 then [] else [⟨{ e with ref := e.ref - 1 }, next⟩]

/-- `_table_clear` on one chain: what is left of it. -/
def clearChain : List (DictEntry K V) → List (Detached K V)
  | [] => []
  | e :: chain => unlinked e (chain.head?.map (·.addr)) ++ clearChain chain

def DictTable.tableClear (t : DictTable K V) : List (Detached K V) := t.entries.flatMap clearChain

def DictTable.push (t : DictTable K V) (idx : Nat) (e : DictEntry K V) :
    Option (DictTable K V) := do
  let chain ← t.entries[idx]?
  some { t with entries := t.entries.set idx (e :: chain), used := u32 (t.used + 1) }

section

variable (o : DictOpts K V)

def DictTable.index (t : DictTable K V) (key : K) : Nat := (o.hash key).toNat &&& t.mask

def DictTable.search [DecidableEq K] (t : DictTable K V) (key : K) :
    Option (Option (DictEntry K V)) := do
  let chain ← t.entries[t.index o key]?
  some (chain.find? fun e => o.compare e.key key)

def DictTable.unlink [DecidableEq K] (t : DictTable K V) (key : K) :
    Option (Option (DictTable K V × List (Detached K V))) := do
  let chain ← t.entries[t.index o key]?
  match chain.span fun e => !o.compare e.key key with
  | (_, []) => some none
  | (before, e :: behind) =>
      some (some
        ({ t with
            entries := t.entries.set (t.index o key) (before ++ behind)
            used := u32 (t.used + (2 ^ 32 - 1)) },
          unlinked e (behind.head?.map (·.addr))))

/-- The chain of one bucket of `dt[0]` pushed entry by entry into `dt[1]`. -/
def rehashChain : List (DictEntry K V) → DictTable K V → DictTable K V →
    Option (DictTable K V × DictTable K V)
  | [], dt0, dt1 => some (dt0, dt1)
  | e :: chain, dt0, dt1 => do
      let dt1 ← dt1.push (dt1.index o e.key) e
      rehashChain chain { dt0 with used := u32 (dt0.used + (2 ^ 32 - 1)) } dt1

/-- `while(entries[rehashidx] == NULL) rehashidx++` -/
def scanBucket (entries : List (List (DictEntry K V))) (rehashidx : Nat) : Option Nat :=
  ((entries.drop rehashidx).findIdx? fun chain => !chain.isEmpty).map (rehashidx + ·)

def dictRehash : Nat → Dict K V → Option (Dict K V × Int)
  | n, d =>
      match d.rehashidx with
      | none => some (d, 0)
      | some rehashidx =>
          match n with
          | 0 => some (d, 1)
          | n + 1 =>
              if d.dt0.used = 0 then
                some ({ d with dt0 := d.dt1, dt1 := {}, rehashidx := none }, 0)
              else do
                let i ← scanBucket d.dt0.entries rehashidx
                let chain ← d.dt0.entries[i]?
                let (dt0, dt1) ← rehashChain o chain d.dt0 d.dt1
                dictRehash n
                  { d with
                    dt0 := { dt0 with entries := dt0.entries.set i [] }
                    dt1 := dt1
                    rehashidx := some (i + 1) }

def dictTryRehash (d : Dict K V) : Option (Dict K V) :=
  if d.rehashing && d.iterators == 0 then (dictRehash o 1 d).map (·.1) else some d

end

def dictExpand (d : Dict K V) (size : Nat) : Option (Dict K V × Int) :=
  if d.rehashing || d.dt0.size > size then some (d, -1)
  else do
    let realsize ← powSize size
    let dt : DictTable K V :=
      { entries := List.replicate realsize [], size := realsize
        mask := u32 (realsize + (2 ^ 32 - 1)), used := 0 }
    if d.dt0.entries.isEmpty then some ({ d with dt0 := dt }, 0)
    else some ({ d with dt1 := dt, rehashidx := some 0 }, 0)

def dictTryExpand (d : Dict K V) : Option (Dict K V × Int) :=
  if d.rehashing then some (d, 0)
  else if d.dt0.size = 0 then dictExpand d dictInitSize
  else if d.dt0.used ≥ d.dt0.size then dictExpand d (u32 (d.dt0.used * 2))
  else some (d, 0)

def dictCreate : Dict K V := {}

section

variable [DecidableEq K] (o : DictOpts K V)

/-- `_dict_key_index`: the bucket for a new key in the table that takes new entries. -/
def dictKeyIndex (d : Dict K V) (key : K) : Option (Dict K V × Option Nat) := do
  let (d, rs) ← dictTryExpand d
  if rs < 0 then some (d, none)
  else
    match ← d.dt0.search o key with
    | some _ => some (d, none)
    | none =>
        if !d.rehashing then some (d, some (d.dt0.index o key))
        else
          match ← d.dt1.search o key with
          | some _ => some (d, none)
          | none => some (d, some (d.dt1.index o key))

def dictAdd (d : Dict K V) (key : K) (val : V) : Option (Dict K V × Int) := do
  let d ← dictTryRehash o d
  let (d, idx) ← dictKeyIndex o d key
  match idx with
  | none => some (d, -1)
  | some idx =>
      let entry : DictEntry K V := ⟨d.nextAddr, o.setKey key, o.setValue val, 1⟩
      let d := { d with nextAddr := d.nextAddr + 1 }
      if d.rehashing then
        let dt1 ← d.dt1.push idx entry
        some ({ d with dt1 := dt1 }, 1)
      else
        let dt0 ← d.dt0.push idx entry
        some ({ d with dt0 := dt0 }, 1)

def dictFind (d : Dict K V) (key : K) : Option (Dict K V × Option (DictEntry K V)) :=
  if d.dt0.size = 0 then some (d, none)
  else do
    let d ← dictTryRehash o d
    match ← d.dt0.search o key with
    | some e => some (d, some e)
    | none =>
        if !d.rehashing then some (d, none)
        else do
          let r ← d.dt1.search o key
          some (d, r)

def dictReplace (d : Dict K V) (key : K) (val : V) : Option (Dict K V × Int) := do
  let (d, r) ← dictFind o d key
  match r with
  | some e => some (d.modify e.addr fun e => { e with value := o.setValue val }, 0)
  | none => dictAdd o d key val

def dictDelInternal (d : Dict K V) (key : K) : Option (Dict K V × Int) :=
  if d.dt0.size = 0 then some (d, 0)
  else do
    let d ← dictTryRehash o d
    match ← d.dt0.unlink o key with
    | some (dt0, kept) => some ({ d with dt0 := dt0, detached := kept ++ d.detached }, 1)
    | none =>
        if !d.rehashing then some (d, 0)
        else
          match ← d.dt1.unlink o key with
          | some (dt1, kept) => some ({ d with dt1 := dt1, detached := kept ++ d.detached }, 1)
          | none => some (d, 0)

def dictDel (d : Dict K V) (key : K) : Option (Dict K V × Int) := dictDelInternal o d key

def dictDelNoFree (d : Dict K V) (key : K) : Option (Dict K V × Int) := dictDelInternal o d key

end

def dictClear (d : Dict K V) : Dict K V :=
  { d with
    dt0 := {}, dt1 := {}, rehashidx := none
    detached := d.dt0.tableClear ++ d.dt1.tableClear ++ d.detached }

def dictGetIterator : DictIterator := {}

/-- The first half of a round of `dict_iterator_next`: where the iterator stands
then, and whether it has come to the end. -/
def dictIteratorMove (d : Dict K V) (iter : DictIterator) :
    Option (Dict K V × DictIterator × Bool) :=
  match iter.entry with
  | none => do
      let d := if iter.dtIdx = 0 ∧ iter.idx = -1 then { d with iterators := d.iterators + 1 } else d
      let iter := { iter with idx := iter.idx + 1 }
      if iter.idx ≥ ((d.dt iter.dtIdx).size : Int) then
        if iter.dtIdx = 0 ∧ d.rehashing then
          let chain ← d.dt1.entries[0]?
          some (d, { dtIdx := 1, idx := 0, entry := chain.head?.map (·.addr) }, false)
        else some (d, iter, true)
      else
        let chain ← (d.dt iter.dtIdx).entries[iter.idx.toNat]?
        some (d, { iter with entry := chain.head?.map (·.addr) }, false)
  | some a => do
      let d ← d.entryDecr a
      let (_, next) ← d.cell a
      some (d, { iter with entry := next }, false)

def dictIteratorLoop : Nat → Dict K V → DictIterator →
    Option (Dict K V × DictIterator × Option (DictEntry K V))
  | 0, _, _ => none
  | fuel + 1, d, iter => do
      let (d, iter, atEnd) ← dictIteratorMove d iter
      if atEnd then some (d, iter, none)
      else
        match iter.entry with
        | none => dictIteratorLoop fuel d iter
        | some a => do
            let d ← d.entryIncr a
            let (e, _) ← d.cell a
            some (d, iter, some e)

/-- A round that does not return goes on to another bucket. -/
def dictIteratorNext (d : Dict K V) (iter : DictIterator) :
    Option (Dict K V × DictIterator × Option (DictEntry K V)) :=
  dictIteratorLoop (d.dt0.size + d.dt1.size + 3) d iter

def dictIteratorDestroy (d : Dict K V) (iter : DictIterator) : Option (Dict K V) :=
  let d :=
    if ¬ (iter.idx = -1 ∧ iter.dtIdx = 0) then { d with iterators := d.iterators - 1 } else d
  match iter.entry with
  | none => some d
  | some a => d.entryDecr a

end ThrSocket
