import Mathlib.Algebra.Order.BigOperators.Group.Finset
import ThrSocket.Lib.BlockHeap
import ThrSocket.SpinLock

/-!
obj.c between threads, one access to memory at a time. The lock and the counter of an object are
in the object itself, which the thread that drops the last reference releases. Which thread has
a reference is not written anywhere in the code: `refs` keeps that account beside the state.
-/

namespace ThrSocket

open Critical

inductive ObjType
  | str
  | dict
deriving DecidableEq, Repr

structure ObjBlock (L : LockProc) where
  ref : Int
  type : ObjType
  priv : Nat
  lock : L.Word

inductive ObjCall
  | incr
  | decr
deriving DecidableEq, Repr

inductive ObjPos (L : LockProc)
  | lock (call : ObjCall) (pc : L.Pc)
  | read (call : ObjCall)
  | write (call : ObjCall) (ref : Int)
  /-- OBJ_UNLOCK and the value returned, in `obj_incr` -/
  | unlock
  | result
  /-- `o->ref == 0`, and what follows where it is -/
  | test
  | type
  | destroy (type : ObjType)
  | unlockLast
  | lockDestroy
  | free
  /-- OBJ_UNLOCK where references are left -/
  | unlockLeft

/-- What an access comes to: the object after it, and where the thread is. -/
inductive ObjMove (L : LockProc)
  | go (o : ObjBlock L) (pos : ObjPos L)
  | counted (o : ObjBlock L) (pos : ObjPos L)
  | destroyed (type : ObjType) (pos : ObjPos L)
  | finish (o : ObjBlock L) (call : ObjCall) (r : Int)
  | freed
  | overflow

def INT_MAX : Int := 2147483647

variable {L : LockProc}

def objMove : ObjPos L → ObjBlock L → ObjMove L
  | .lock call pc, o =>
      match L.acquire pc o.lock with
      | (some pc, w) => .go { o with lock := w } (.lock call pc)
      | (none, w) => .go { o with lock := w } (.read call)
  | .read call, o => .go o (.write call o.ref)
  | .write .incr ref, o =>
      if ref < INT_MAX then .counted { o with ref := ref + 1 } .unlock else .overflow
  | .write .decr ref, o => .go { o with ref := ref - 1 } .test
  | .unlock, o => .go { o with lock := L.release o.lock } .result
  | .result, o => .finish o .incr o.ref
  | .test, o => .go o (if o.ref = 0 then .type else .unlockLeft)
  | .type, o => .go o (.destroy o.type)
  | .destroy type, _ => .destroyed type .unlockLast
  | .unlockLast, o => .go { o with lock := L.release o.lock } .lockDestroy
  | .lockDestroy, o => .go { o with lock := L.free } .free
  | .free, _ => .freed
  | .unlockLeft, o => .finish { o with lock := L.release o.lock } .decr 0

structure ObjSys (L : LockProc) (ι : Type) where
  objs : BlockHeap (ObjBlock L)
  privs : BlockHeap ObjType
  threads : ι → Option (Nat × ObjPos L)
  refs : ι → Nat → Nat

inductive ObjLabel (ι : Type)
  | create (i : ι) (type : ObjType)
  /-- the thread `i` hands one of its references to the thread `j` -/
  | give (i j : ι) (p : Nat)
  | call (i : ι) (call : ObjCall) (p : Nat)
  | tick (i : ι)

inductive ObjObs (ι : Type)
  | quiet
  | created (i : ι) (p : Nat)
  | returned (i : ι) (p : Nat) (call : ObjCall) (r : Int)
deriving DecidableEq

namespace ObjSys

variable {ι : Type} [DecidableEq ι]

def start : ObjSys L ι := ⟨.empty, .empty, fun _ => none, fun _ _ => 0⟩

def setThread (s : ObjSys L ι) (i : ι) (t : Option (Nat × ObjPos L)) : ObjSys L ι :=
  { s with threads := Function.update s.threads i t }

def setRefs (s : ObjSys L ι) (i : ι) (p n : Nat) : ObjSys L ι :=
  { s with refs := Function.update s.refs i (Function.update (s.refs i) p n) }

def objCreate (s : ObjSys L ι) (i : ι) (type : ObjType) : ObjSys L ι × Nat :=
  let (privs, priv) := s.privs.alloc type
  let (objs, p) := s.objs.alloc ⟨1, type, priv, L.free⟩
  ({ s with objs := objs, privs := privs }.setRefs i p (s.refs i p + 1), p)

/-- A call of `obj_decr` takes the reference from the thread, `o->ref++` gives it one. Freed
memory may not be accessed, and a payload is destroyed by the function for its type. -/
def step (s : ObjSys L ι) : ObjLabel ι → Option (ObjSys L ι × ObjObs ι)
  | .create i type =>
      let (s, p) := s.objCreate i type
      some (s, .created i p)
  | .give i j p =>
      let s := s.setRefs i p (s.refs i p - 1)
      some (s.setRefs j p (s.refs j p + 1), .quiet)
  | .call i .incr p => some (s.setThread i (some (p, .lock .incr L.start)), .quiet)
  | .call i .decr p =>
      some ((s.setRefs i p (s.refs i p - 1)).setThread i (some (p, .lock .decr L.start)), .quiet)
  | .tick i =>
      match s.threads i with
      | none => some (s, .quiet)
      | some (p, pos) => do
          let o ← s.objs.get p
          match objMove pos o with
          | .go o pos =>
              let objs ← s.objs.set p o
              some ({ s with objs := objs }.setThread i (some (p, pos)), .quiet)
          | .counted o pos =>
              let objs ← s.objs.set p o
              some (({ s with objs := objs }.setRefs i p (s.refs i p + 1)).setThread i
                (some (p, pos)), .quiet)
          | .destroyed type pos =>
              if s.privs.get o.priv = some type then
                some ({ s with privs := s.privs.free o.priv }.setThread i (some (p, pos)), .quiet)
              else none
          | .finish o call r =>
              let objs ← s.objs.set p o
              some ({ s with objs := objs }.setThread i none, .returned i p call r)
          | .freed =>
              some ({ s with objs := s.objs.free p }.setThread i none, .returned i p .decr 1)
          | .overflow => none

end ObjSys

namespace ObjPos

def Inside : ObjPos L → Prop
  | .lock .. | .result | .lockDestroy | .free => False
  | _ => True

def drops : ObjPos L → Nat
  | .lock .decr _ | .read .decr | .write .decr _ => 1
  | _ => 0

def Ending : ObjPos L → Prop
  | .test | .type | .destroy _ | .unlockLast | .lockDestroy | .free => True
  | _ => False

def Past : ObjPos L → Prop
  | .unlockLast | .lockDestroy | .free => True
  | _ => False

def Fits (o : ObjBlock L) (refs : Nat) : ObjPos L → Prop
  | .lock .incr _ | .read .incr => 1 ≤ refs
  | .write .incr ref => 1 ≤ refs ∧ ref = o.ref
  | .unlock | .result => 2 ≤ refs
  | .lock .decr _ | .read .decr | .test => True
  | .write .decr ref => ref = o.ref
  | .type | .unlockLast | .lockDestroy | .free => o.ref = 0
  | .destroy t => o.ref = 0 ∧ t = o.type
  | .unlockLeft => o.ref ≠ 0

end ObjPos

namespace ObjInv

variable {ι : Type}

def weight (pos : ι → Option (ObjPos L)) (refs : ι → Nat) (i : ι) : Nat :=
  refs i + ((pos i).map ObjPos.drops).getD 0

def Holder (lock : L.Word) (pos : ι → Option (ObjPos L)) : Prop :=
  ∃ holder : Option ι, lock = (if holder = none then L.free else L.held) ∧
    ∀ i, (∃ x, pos i = some x ∧ x.Inside) ↔ holder = some i

end ObjInv

/-- The counter is the number of references; who takes it to 0 is alone with the object. -/
structure ObjInv {ι : Type} [Fintype ι] (o : ObjBlock L) (pos : ι → Option (ObjPos L))
    (refs : ι → Nat) (privs : BlockHeap ObjType) : Prop where
  count : o.ref = ((∑ i, ObjInv.weight pos refs i : Nat) : Int)
  holder : ObjInv.Holder o.lock pos
  fits : ∀ i x, pos i = some x → x.Fits o (refs i)
  last : o.ref = 0 → ∃ i x, pos i = some x ∧ x.Ending ∧ ∀ j ≠ i, pos j = none
  priv : privs.get o.priv = some o.type ∨ ∃ i x, pos i = some x ∧ x.Past
  gone : ∀ i x, pos i = some x → x.Past → privs.get o.priv = none

namespace ObjInv

variable {ι : Type} [Fintype ι] [DecidableEq ι] {o o' : ObjBlock L} {pos : ι → Option (ObjPos L)}
  {refs : ι → Nat} {privs : BlockHeap ObjType} {i : ι} {x x' : ObjPos L} {y : Option (ObjPos L)}

/-- One thread changes. -/
theorem sum_change {f g : ι → Nat} (i : ι) (h : ∀ j ≠ i, g j = f j) :
    ∑ j, g j + f i = ∑ j, f j + g i := by
  have hrest : ∑ j ∈ Finset.univ.erase i, g j = ∑ j ∈ Finset.univ.erase i, f j :=
    Finset.sum_congr rfl fun j hj => h j (Finset.ne_of_mem_erase hj)
  rw [← Finset.add_sum_erase _ g (Finset.mem_univ i), ← Finset.add_sum_erase _ f
    (Finset.mem_univ i), hrest]
  omega

theorem alone (h : ObjInv o pos refs privs) (hi : pos i = some x) (hzero : o.ref = 0) :
    x.Ending ∧ ∀ j ≠ i, pos j = none := by
  obtain ⟨k, z, hk, hz, hnone⟩ := h.last hzero
  have hik : i = k := by
    by_contra hne
    rw [hnone i hne] at hi
    cases hi
  subst hik
  rw [hk] at hi
  cases hi
  exact ⟨hz, hnone⟩

omit [DecidableEq ι] in
theorem refs_zero (h : ObjInv o pos refs privs) (hzero : o.ref = 0) (j : ι) : refs j = 0 := by
  have hsum : ∑ k, weight pos refs k = 0 := by exact_mod_cast h.count.symm.trans hzero
  have hj := Finset.sum_eq_zero_iff.mp hsum j (Finset.mem_univ j)
  rw [weight] at hj
  omega

omit [DecidableEq ι] in
theorem ref_ge (h : ObjInv o pos refs privs) (j : ι) : (weight pos refs j : Int) ≤ o.ref := by
  rw [h.count]
  exact_mod_cast Finset.single_le_sum (fun k _ => Nat.zero_le (weight pos refs k))
    (Finset.mem_univ j)

theorem fits_congr (href : o'.ref = o.ref) (htype : o'.type = o.type) {n : Nat} :
    x.Fits o' n ↔ x.Fits o n := by
  cases x with
  | lock call _ | read call => cases call <;> exact Iff.rfl
  | write call ref => cases call <;> simp [ObjPos.Fits, href]
  | _ => simp [ObjPos.Fits, href, htype]

omit [Fintype ι] in
theorem Holder.same {lock : L.Word} (h : Holder lock pos)
    (hy : (∃ z, y = some z ∧ z.Inside) ↔ ∃ z, pos i = some z ∧ z.Inside) :
    Holder lock (Function.update pos i y) := by
  obtain ⟨holder, hlock, hinside⟩ := h
  refine ⟨holder, hlock, fun j => ?_⟩
  by_cases hj : j = i
  · subst hj
    rw [Function.update_self, hy]
    exact hinside j
  · rw [Function.update_of_ne hj]
    exact hinside j

omit [Fintype ι] in
theorem Holder.enter (h : Holder (L := L) L.free pos) (hx : x'.Inside) :
    Holder L.held (Function.update pos i (some x')) := by
  obtain ⟨holder, hlock, hinside⟩ := h
  have hnone : holder = none := by
    by_contra hne
    rw [if_neg hne] at hlock
    exact L.held_ne hlock.symm
  subst hnone
  refine ⟨some i, rfl, fun j => ?_⟩
  by_cases hj : j = i
  · subst hj
    simp [hx]
  · rw [Function.update_of_ne hj, hinside j]
    exact iff_of_false (by simp) (by simpa using Ne.symm hj)

omit [Fintype ι] in
theorem Holder.leave {lock : L.Word} (h : Holder lock pos) (hi : pos i = some x) (hx : x.Inside)
    (hy : ∀ z, y = some z → ¬ z.Inside) : Holder (L := L) L.free (Function.update pos i y) := by
  obtain ⟨holder, -, hinside⟩ := h
  obtain rfl := (hinside i).mp ⟨x, hi, hx⟩
  refine ⟨none, rfl, fun j => ?_⟩
  by_cases hj : j = i
  · subst hj
    rw [Function.update_self]
    exact iff_of_false (fun ⟨z, hz, hin⟩ => hy z hz hin) (by simp)
  · rw [Function.update_of_ne hj, hinside j]
    exact iff_of_false (by simpa using Ne.symm hj) (by simp)

/-- A thread goes on, or leaves the object, and the counter stays. -/
theorem go (h : ObjInv o pos refs privs) (hi : pos i = some x) (href : o'.ref = o.ref)
    (htype : o'.type = o.type) (hpriv : o'.priv = o.priv)
    (hdrops : (y.map ObjPos.drops).getD 0 = x.drops)
    (hholder : Holder o'.lock (Function.update pos i y))
    (hfits : ∀ z, y = some z → z.Fits o (refs i))
    (hlast : o.ref = 0 → ∃ z, y = some z ∧ z.Ending)
    (hpast : x.Past → ∃ z, y = some z ∧ z.Past) (hnot : ∀ z, y = some z → z.Past → x.Past) :
    ObjInv o' (Function.update pos i y) refs privs where
  count := by
    rw [href, h.count]
    congr 1
    refine Finset.sum_congr rfl fun j _ => ?_
    by_cases hj : j = i
    · subst hj
      simp [weight, hi, hdrops]
    · simp [weight, hj]
  holder := hholder
  fits j z hz := by
    rw [fits_congr href htype]
    by_cases hj : j = i
    · subst hj
      rw [Function.update_self] at hz
      exact hfits z hz
    · rw [Function.update_of_ne hj] at hz
      exact h.fits j z hz
  last hzero := by
    rw [href] at hzero
    obtain ⟨z, hz, hending⟩ := hlast hzero
    refine ⟨i, z, (Function.update_self ..).trans hz, hending, fun j hj => ?_⟩
    rw [Function.update_of_ne hj]
    exact (h.alone hi hzero).2 j hj
  priv := by
    rw [hpriv, htype]
    refine h.priv.imp_right ?_
    rintro ⟨k, z, hk, hz⟩
    by_cases hki : k = i
    · subst hki
      rw [hi] at hk
      cases hk
      obtain ⟨z', hz', hpast'⟩ := hpast hz
      exact ⟨k, z', (Function.update_self ..).trans hz', hpast'⟩
    · exact ⟨k, z, (Function.update_of_ne hki ..).trans hk, hz⟩
  gone j z hz hpast := by
    rw [hpriv]
    by_cases hj : j = i
    · subst hj
      rw [Function.update_self] at hz
      exact h.gone j x hi (hnot z hz hpast)
    · rw [Function.update_of_ne hj] at hz
      exact h.gone j z hz hpast

theorem goTo (h : ObjInv o pos refs privs) (hi : pos i = some x) (href : o'.ref = o.ref)
    (htype : o'.type = o.type) (hpriv : o'.priv = o.priv) (hdrops : x'.drops = x.drops)
    (hholder : Holder o'.lock (Function.update pos i (some x')))
    (hfits : x'.Fits o (refs i)) (hlast : o.ref = 0 → x'.Ending) (hpast : x'.Past ↔ x.Past) :
    ObjInv o' (Function.update pos i (some x')) refs privs := by
  refine h.go hi href htype hpriv hdrops hholder ?_ ?_ ?_ ?_
  · rintro z ⟨⟩
    exact hfits
  · exact fun hzero => ⟨x', rfl, hlast hzero⟩
  · exact fun hx => ⟨x', rfl, hpast.mpr hx⟩
  · rintro z ⟨⟩
    exact hpast.mp

theorem goAway (h : ObjInv o pos refs privs) (hi : pos i = some x) (href : o'.ref = o.ref)
    (htype : o'.type = o.type) (hpriv : o'.priv = o.priv) (hdrops : x.drops = 0)
    (hholder : Holder o'.lock (Function.update pos i none)) (hcounted : o.ref ≠ 0)
    (hpast : ¬ x.Past) : ObjInv o' (Function.update pos i none) refs privs := by
  refine h.go hi href htype hpriv hdrops.symm hholder ?_ ?_ ?_ ?_
  · rintro z ⟨⟩
  · exact fun hzero => absurd hzero hcounted
  · exact fun hx => absurd hx hpast
  · rintro z ⟨⟩

omit [DecidableEq ι] in
theorem zero_of_past (h : ObjInv o pos refs privs) (hi : pos i = some x) (hx : x.Past) :
    o.ref = 0 := by
  have hfits := h.fits i x hi
  cases x <;> first | exact hfits | cases hx

omit [DecidableEq ι] in
theorem not_inside (h : ObjInv o pos refs privs) (hi : pos i = some x) (hx : x.Inside) {j : ι}
    (hj : j ≠ i) {z : ObjPos L} (hz : pos j = some z) : ¬ z.Inside := by
  obtain ⟨holder, -, hinside⟩ := h.holder
  intro hin
  have hholder := (hinside i).mp ⟨x, hi, hx⟩
  rw [(hinside j).mp ⟨z, hz, hin⟩] at hholder
  exact hj (Option.some.inj hholder)

/-- A thread outside the lock of a counted object knows nothing about the counter. -/
theorem fits_outside (hx : ¬ x.Inside) (href : o.ref ≠ 0) {n : Nat} (h : x.Fits o n) :
    x.Fits o' n := by
  cases x with
  | lock call pc => cases call <;> exact h
  | result => exact h
  | lockDestroy | free => exact absurd h href
  | _ => exact absurd trivial hx

/-- `o->ref++` -/
theorem incr {ref : Int} (h : ObjInv o pos refs privs) (hi : pos i = some (.write .incr ref)) :
    ObjInv { o with ref := ref + 1 } (Function.update pos i (some .unlock))
      (Function.update refs i (refs i + 1)) privs := by
  obtain ⟨hrefs, rfl⟩ := h.fits i _ hi
  have hf : weight pos refs i = refs i := by simp [weight, hi, ObjPos.drops]
  have hge := h.ref_ge i
  have hpos : o.ref ≠ 0 := by omega
  refine ⟨?_, h.holder.same (by simp [hi, ObjPos.Inside]), ?_, ?_, .inl ?_, ?_⟩
  · have hsum := sum_change (f := weight pos refs)
      (g := weight (Function.update pos i (some .unlock)) (Function.update refs i (refs i + 1))) i
      fun j hj => by simp [weight, hj]
    have hg : weight (Function.update pos i (some .unlock)) (Function.update refs i (refs i + 1)) i
        = refs i + 1 := by simp [weight, ObjPos.drops]
    have hcount := h.count
    rw [hg, hf] at hsum
    dsimp only
    omega
  · intro j z hz
    by_cases hj : j = i
    · subst hj
      rw [Function.update_self] at hz
      cases hz
      simp only [ObjPos.Fits, Function.update_self]
      omega
    · rw [Function.update_of_ne hj] at hz ⊢
      exact fits_outside (h.not_inside hi trivial hj hz) hpos (h.fits j z hz)
  · intro hzero
    dsimp only at hzero
    omega
  · refine h.priv.resolve_right ?_
    rintro ⟨k, z, hk, hz⟩
    exact hpos (h.zero_of_past hk hz)
  · intro j z hz hpast
    by_cases hj : j = i
    · subst hj
      rw [Function.update_self] at hz
      cases hz
      cases hpast
    · rw [Function.update_of_ne hj] at hz
      exact absurd (h.zero_of_past hz hpast) hpos

/-- `o->ref--` -/
theorem decr {ref : Int} (h : ObjInv o pos refs privs) (hi : pos i = some (.write .decr ref)) :
    ObjInv { o with ref := ref - 1 } (Function.update pos i (some .test)) refs privs := by
  obtain rfl := h.fits i _ hi
  have hf : weight pos refs i = refs i + 1 := by simp [weight, hi, ObjPos.drops]
  have hge := h.ref_ge i
  have hpos : o.ref ≠ 0 := by omega
  have hsum := sum_change (f := weight pos refs)
    (g := weight (Function.update pos i (some .test)) refs) i fun j hj => by simp [weight, hj]
  have hg : weight (Function.update pos i (some .test)) refs i = refs i := by
    simp [weight, ObjPos.drops]
  have hcount := h.count
  rw [hg, hf] at hsum
  have houtside : ∀ j ≠ i, ∀ z, pos j = some z → z.Fits o (refs j) ∧ ¬ z.Inside := fun j hj z hz =>
    ⟨h.fits j z hz, h.not_inside hi trivial hj hz⟩
  refine ⟨?_, h.holder.same (by simp [hi, ObjPos.Inside]), ?_, ?_, .inl ?_, ?_⟩
  · dsimp only
    omega
  · intro j z hz
    by_cases hj : j = i
    · subst hj
      rw [Function.update_self] at hz
      cases hz
      trivial
    · rw [Function.update_of_ne hj] at hz
      exact fits_outside (houtside j hj z hz).2 hpos (houtside j hj z hz).1
  · intro hzero
    refine ⟨i, .test, Function.update_self .., trivial, fun j hj => ?_⟩
    rw [Function.update_of_ne hj]
    cases hz : pos j with
    | none => rfl
    | some z =>
        exfalso
        dsimp only at hzero
        have hjsum : ∑ k, weight (Function.update pos i (some .test)) refs k = 0 := by omega
        have hj0 := Finset.sum_eq_zero_iff.mp hjsum j (Finset.mem_univ j)
        rw [weight, Function.update_of_ne hj, hz] at hj0
        obtain ⟨hfits, hout⟩ := houtside j hj z hz
        cases z with
        | lock call pc =>
            cases call <;> simp [ObjPos.Fits, ObjPos.drops] at hfits hj0
            omega
        | result =>
            simp only [ObjPos.Fits] at hfits
            omega
        | lockDestroy | free => exact hpos hfits
        | _ => exact hout trivial
  · refine h.priv.resolve_right ?_
    rintro ⟨k, z, hk, hz⟩
    exact hpos (h.zero_of_past hk hz)
  · intro j z hz hpast
    by_cases hj : j = i
    · subst hj
      rw [Function.update_self] at hz
      cases hz
      cases hpast
    · rw [Function.update_of_ne hj] at hz
      exact absurd (h.zero_of_past hz hpast) hpos

/-- The payload is still there when it is destroyed, and no other object has it. -/
theorem destroy {t : ObjType} (h : ObjInv o pos refs privs) (hi : pos i = some (.destroy t)) :
    privs.get o.priv = some t ∧
      ObjInv o (Function.update pos i (some .unlockLast)) refs (privs.free o.priv) := by
  obtain ⟨hzero, rfl⟩ := h.fits i _ hi
  have hpriv : privs.get o.priv = some o.type := by
    refine h.priv.resolve_right ?_
    rintro ⟨k, z, hk, hz⟩
    by_cases hki : k = i
    · subst hki
      rw [hi] at hk
      cases hk
      cases hz
    · rw [(h.alone hi hzero).2 k hki] at hk
      cases hk
  have hother : ∀ j ≠ i, pos j = none := (h.alone hi hzero).2
  have hself : ∀ j z, Function.update pos i (some .unlockLast) j = some z →
      j = i ∧ z = .unlockLast := by
    intro j z hz
    by_cases hj : j = i
    · subst hj
      rw [Function.update_self] at hz
      exact ⟨rfl, (Option.some.inj hz).symm⟩
    · rw [Function.update_of_ne hj, hother j hj] at hz
      cases hz
  refine ⟨hpriv, ?_, h.holder.same (by simp [hi, ObjPos.Inside]), ?_, ?_, ?_, ?_⟩
  · rw [h.count]
    congr 1
    refine Finset.sum_congr rfl fun j _ => ?_
    by_cases hj : j = i
    · subst hj
      simp [weight, hi, ObjPos.drops]
    · simp [weight, hj]
  · intro j z hz
    obtain ⟨rfl, rfl⟩ := hself j z hz
    exact hzero
  · intro _
    refine ⟨i, .unlockLast, Function.update_self .., trivial, fun j hj => ?_⟩
    rw [Function.update_of_ne hj]
    exact hother j hj
  · exact .inr ⟨i, .unlockLast, Function.update_self .., trivial⟩
  · exact fun _ _ _ _ => Function.update_self ..

/-- What each access does to an object that threads share. -/
def Moved (o : ObjBlock L) (pos : ι → Option (ObjPos L)) (refs : ι → Nat)
    (privs : BlockHeap ObjType) (i : ι) : ObjMove L → Prop
  | .go o' x' => ObjInv o' (Function.update pos i (some x')) refs privs ∧ o'.priv = o.priv
  | .counted o' x' => ObjInv o' (Function.update pos i (some x'))
      (Function.update refs i (refs i + 1)) privs ∧ o'.priv = o.priv
  | .destroyed t x' => privs.get o.priv = some t ∧
      ObjInv o (Function.update pos i (some x')) refs (privs.free o.priv)
  | .finish o' call r => ObjInv o' (Function.update pos i none) refs privs ∧ o'.priv = o.priv ∧
      (call = .incr → 2 ≤ r)
  | .freed => (∀ j, refs j = 0) ∧ (∀ j ≠ i, pos j = none) ∧ privs.get o.priv = none
  | .overflow => False

theorem moved (h : ObjInv o pos refs privs) (hi : pos i = some x)
    (hmax : ∀ ref, x = .write .incr ref → ref < INT_MAX) :
    Moved o pos refs privs i (objMove x o) := by
  have hstay : ∀ z : ObjPos L, (z.Inside ↔ x.Inside) →
      Holder o.lock (Function.update pos i (some z)) := fun z hz => h.holder.same (by simp [hi, hz])
  have hending : o.ref = 0 → x.Ending := fun hzero => (h.alone hi hzero).1
  have hfits := h.fits i x hi
  cases x with
  | lock call pc =>
      rw [objMove]
      cases hacquire : L.acquire pc o.lock with
      | mk next w =>
          cases next with
          | some pc' =>
              obtain rfl := L.waits hacquire
              refine ⟨h.goTo hi rfl rfl rfl ?_ (hstay _ Iff.rfl) ?_ hending Iff.rfl, rfl⟩
              · cases call <;> rfl
              · cases call <;> exact hfits
          | none =>
              obtain ⟨hfree, rfl⟩ := L.taken hacquire
              have hholder := h.holder
              rw [hfree] at hholder
              refine ⟨h.goTo hi rfl rfl rfl ?_ (hholder.enter trivial) ?_ hending Iff.rfl, rfl⟩
              · cases call <;> rfl
              · cases call <;> exact hfits
  | read call =>
      refine ⟨h.goTo hi rfl rfl rfl ?_ (hstay _ Iff.rfl) ?_ hending Iff.rfl, rfl⟩
      · cases call <;> rfl
      · cases call with
        | incr => exact ⟨hfits, rfl⟩
        | decr => exact rfl
  | write call ref =>
      cases call with
      | incr =>
          rw [objMove, if_pos (hmax ref rfl)]
          exact ⟨h.incr hi, rfl⟩
      | decr => exact ⟨h.decr hi, rfl⟩
  | unlock =>
      have hholder := h.holder.leave (y := some .result) hi trivial (by rintro z ⟨⟩; exact id)
      rw [← L.freed o.lock] at hholder
      exact ⟨h.goTo hi rfl rfl rfl rfl hholder hfits hending Iff.rfl, rfl⟩
  | result =>
      have hge := h.ref_ge i
      rw [weight] at hge
      simp only [ObjPos.Fits] at hfits
      refine ⟨h.goAway hi rfl rfl rfl rfl ?_ (by omega) id, rfl, fun _ => by omega⟩
      exact h.holder.same (by simp [hi, ObjPos.Inside])
  | test =>
      rw [objMove]
      by_cases hzero : o.ref = 0
      · rw [if_pos hzero]
        exact ⟨h.goTo hi rfl rfl rfl rfl (hstay _ Iff.rfl) hzero (fun _ => trivial) Iff.rfl, rfl⟩
      · rw [if_neg hzero]
        exact ⟨h.goTo hi rfl rfl rfl rfl (hstay _ Iff.rfl) hzero (absurd · hzero) Iff.rfl, rfl⟩
  | type =>
      exact ⟨h.goTo hi rfl rfl rfl rfl (hstay _ Iff.rfl) ⟨hfits, rfl⟩ hending Iff.rfl, rfl⟩
  | destroy t => exact h.destroy hi
  | unlockLast =>
      have hholder := h.holder.leave (y := some .lockDestroy) hi trivial
        (by rintro z ⟨⟩; exact id)
      rw [← L.freed o.lock] at hholder
      exact ⟨h.goTo hi rfl rfl rfl rfl hholder hfits hending Iff.rfl, rfl⟩
  | lockDestroy =>
      have hnone : ∀ j, Function.update pos i (some .free) j ≠ none → j = i := by
        intro j hj
        by_contra hne
        rw [Function.update_of_ne hne] at hj
        exact hj ((h.alone hi hfits).2 j hne)
      refine ⟨h.goTo hi rfl rfl rfl rfl ⟨none, rfl, fun j => ?_⟩ hfits hending Iff.rfl, rfl⟩
      refine iff_of_false ?_ (by simp)
      rintro ⟨z, hz, hin⟩
      obtain rfl := hnone j (by rw [hz]; simp)
      rw [Function.update_self] at hz
      cases hz
      exact hin
  | free =>
      exact ⟨h.refs_zero hfits, (h.alone hi hfits).2, h.gone i _ hi trivial⟩
  | unlockLeft =>
      have hholder := h.holder.leave (y := none) hi trivial (by rintro z ⟨⟩)
      rw [← L.freed o.lock] at hholder
      exact ⟨h.goAway hi rfl rfl rfl rfl hholder hfits id, rfl, by rintro ⟨⟩⟩

/-- A thread calls with a reference of its own. -/
theorem enter (h : ObjInv o pos refs privs) (hi : pos i = none) {n : Nat}
    (hweight : n + x.drops = refs i) (hpos : 0 < refs i) (hx : ¬ x.Inside) (hfits : x.Fits o n)
    (hpast : ¬ x.Past) :
    ObjInv o (Function.update pos i (some x)) (Function.update refs i n) privs where
  count := by
    rw [h.count]
    congr 1
    refine Finset.sum_congr rfl fun j _ => ?_
    by_cases hj : j = i
    · subst hj
      simp [weight, hi, hweight]
    · simp [weight, hj]
  holder := h.holder.same (by simp [hi, hx])
  fits j z hz := by
    by_cases hj : j = i
    · subst hj
      rw [Function.update_self] at hz ⊢
      cases hz
      exact hfits
    · rw [Function.update_of_ne hj] at hz ⊢
      exact h.fits j z hz
  last hzero := by
    have := h.refs_zero hzero i
    omega
  priv := by
    refine h.priv.imp_right ?_
    rintro ⟨k, z, hk, hz⟩
    have hki : k ≠ i := by
      rintro rfl
      rw [hi] at hk
      cases hk
    exact ⟨k, z, (Function.update_of_ne hki ..).trans hk, hz⟩
  gone j z hz hp := by
    by_cases hj : j = i
    · subst hj
      rw [Function.update_self] at hz
      cases hz
      exact absurd hp hpast
    · rw [Function.update_of_ne hj] at hz
      exact h.gone j z hz hp

omit [Fintype ι] [DecidableEq ι] in
theorem fits_mono {m n : Nat} (hmn : m ≤ n) (h : x.Fits o m) : x.Fits o n := by
  cases x with
  | lock call _ | read call =>
      cases call with
      | incr => exact Nat.le_trans h hmn
      | decr => trivial
  | write call ref =>
      cases call with
      | incr => exact ⟨Nat.le_trans h.1 hmn, h.2⟩
      | decr => exact h
  | unlock | result => exact Nat.le_trans h hmn
  | _ => exact h

omit [DecidableEq ι] in
/-- References change hands between threads: who gives one is not in a call. -/
theorem handOver (h : ObjInv o pos refs privs) {refs' : ι → Nat} (hsum : ∑ j, refs' j = ∑ j, refs j)
    (hle : ∀ j, pos j ≠ none → refs j ≤ refs' j) : ObjInv o pos refs' privs where
  count := by
    have hcount := h.count
    simp only [weight, Finset.sum_add_distrib] at hcount ⊢
    rw [hsum]
    exact hcount
  holder := h.holder
  fits j z hz := fits_mono (hle j (by rw [hz]; simp)) (h.fits j z hz)
  last := h.last
  priv := h.priv
  gone := h.gone

omit [DecidableEq ι] in
/-- Of the payloads only its own matters to an object. -/
theorem privs_congr (h : ObjInv o pos refs privs) {privs' : BlockHeap ObjType}
    (hget : privs'.get o.priv = privs.get o.priv) : ObjInv o pos refs privs' :=
  ⟨h.count, h.holder, h.fits, h.last, hget ▸ h.priv, hget ▸ h.gone⟩

end ObjInv

namespace ObjSys

variable {ι : Type} [Fintype ι] [DecidableEq ι]

def pos (s : ObjSys L ι) (p : Nat) (i : ι) : Option (ObjPos L) :=
  (s.threads i).bind fun t => if t.1 = p then some t.2 else none

structure Inv (s : ObjSys L ι) : Prop where
  objs : ∀ p o, s.objs.get p = some o → ObjInv o (s.pos p) (fun i => s.refs i p) s.privs
  dead : ∀ p, s.objs.get p = none → ∀ i, s.pos p i = none ∧ s.refs i p = 0
  apart : ∀ p q o o', s.objs.get p = some o → s.objs.get q = some o' → o.priv = o'.priv → p = q
  bound : ∀ p o, s.objs.get p = some o → o.priv < s.privs.next
  privs : ∀ v, s.privs.get v ≠ none → ∃ p o, s.objs.get p = some o ∧ o.priv = v

/-- A thread calls and gives away references that it has, not in the middle of a call, and no
counter is at its limit. -/
def Client (s : ObjSys L ι) : ObjLabel ι → Prop
  | .create i _ => s.threads i = none
  | .give i _ p | .call i _ p => s.threads i = none ∧ 0 < s.refs i p
  | .tick i => ∀ p ref, s.threads i = some (p, .write .incr ref) → ref < INT_MAX

instance (s : ObjSys L ι) : DecidablePred (Client s)
  | .create i _ => decidable_of_iff ((s.threads i).isNone = true) Option.isNone_iff_eq_none
  | .give i _ p | .call i _ p =>
      decidable_of_iff ((s.threads i).isNone = true ∧ 0 < s.refs i p)
        (and_congr_left' Option.isNone_iff_eq_none)
  | .tick i =>
      match h : s.threads i with
      | some (p, .write .incr ref) =>
          decidable_of_iff (ref < INT_MAX) (by simp [Client, h])
      | none | some (_, .lock ..) | some (_, .read _) | some (_, .write .decr _)
      | some (_, .unlock) | some (_, .result) | some (_, .test) | some (_, .type)
      | some (_, .destroy _) | some (_, .unlockLast) | some (_, .lockDestroy) | some (_, .free)
      | some (_, .unlockLeft) => .isTrue (by simp [Client, h])

variable {s s' : ObjSys L ι} {p : Nat} {o : ObjBlock L} {i : ι}

omit [DecidableEq ι] in
theorem start_inv : Inv (start : ObjSys L ι) where
  objs p o h := by cases h
  dead _ _ _ := ⟨rfl, rfl⟩
  apart p q o o' h := by cases h
  bound p o h := by cases h
  privs v h := absurd rfl h

omit [DecidableEq ι] in
/-- The steps that concern one object leave the others as they are. -/
theorem Inv.change (h : Inv s) (ho : s.objs.get p = some o) (r : Option (ObjBlock L))
    (hobjs : s'.objs.get = Function.update s.objs.get p r)
    (hpos : ∀ q ≠ p, s'.pos q = s.pos q) (hrefs : ∀ q ≠ p, ∀ j, s'.refs j q = s.refs j q)
    (hprivs : ∀ v ≠ o.priv, s'.privs.get v = s.privs.get v)
    (hnext : s'.privs.next = s.privs.next)
    (hsome : ∀ o', r = some o' → o'.priv = o.priv ∧
      ObjInv o' (s'.pos p) (fun j => s'.refs j p) s'.privs)
    (hnone : r = none → (∀ j, s'.pos p j = none ∧ s'.refs j p = 0) ∧ s'.privs.get o.priv = none) :
    Inv s' := by
  have hget : ∀ q o', s'.objs.get q = some o' →
      (q = p ∧ r = some o') ∨ (q ≠ p ∧ s.objs.get q = some o') := by
    intro q o' hq
    rw [hobjs] at hq
    by_cases hqp : q = p
    · subst hqp
      rw [Function.update_self] at hq
      exact .inl ⟨rfl, hq⟩
    · rw [Function.update_of_ne hqp] at hq
      exact .inr ⟨hqp, hq⟩
  have hold : ∀ q o', s'.objs.get q = some o' → ∃ o₀, s.objs.get q = some o₀ ∧
      o₀.priv = o'.priv := by
    intro q o' hq
    obtain ⟨rfl, hr⟩ | ⟨-, hq⟩ := hget q o' hq
    · exact ⟨o, ho, (hsome o' hr).1.symm⟩
    · exact ⟨o', hq, rfl⟩
  refine ⟨fun q o' hq => ?_, fun q hq j => ?_, fun q q' o₁ o₂ hq hq' heq => ?_,
    fun q o' hq => ?_, fun v hv => ?_⟩
  · obtain ⟨rfl, hr⟩ | ⟨hqp, hq⟩ := hget q o' hq
    · exact (hsome o' hr).2
    · have hne : o'.priv ≠ o.priv := fun heq => hqp (h.apart q p o' o hq ho heq)
      rw [hpos q hqp, funext fun j => hrefs q hqp j]
      exact (h.objs q o' hq).privs_congr (hprivs _ hne)
  · by_cases hqp : q = p
    · subst hqp
      rw [hobjs, Function.update_self] at hq
      exact (hnone hq).1 j
    · rw [hobjs, Function.update_of_ne hqp] at hq
      rw [hpos q hqp, hrefs q hqp]
      exact h.dead q hq j
  · obtain ⟨o₁', hq, heq₁⟩ := hold q o₁ hq
    obtain ⟨o₂', hq', heq₂⟩ := hold q' o₂ hq'
    exact h.apart q q' o₁' o₂' hq hq' (heq₁.trans (heq.trans heq₂.symm))
  · obtain ⟨o₀, hq, heq⟩ := hold q o' hq
    rw [← heq, hnext]
    exact h.bound q o₀ hq
  · by_cases hvo : v = o.priv
    · subst hvo
      cases r with
      | none => exact absurd (hnone rfl).2 hv
      | some o' =>
          exact ⟨p, o', by rw [hobjs, Function.update_self], (hsome o' rfl).1⟩
    · rw [hprivs v hvo] at hv
      obtain ⟨q, o', hq, rfl⟩ := h.privs v hv
      have hqp : q ≠ p := by
        rintro rfl
        rw [ho] at hq
        cases hq
        exact hvo rfl
      exact ⟨q, o', by rw [hobjs, Function.update_of_ne hqp, hq], rfl⟩

omit [Fintype ι] in
theorem pos_setThread (s : ObjSys L ι) (i : ι) (t : Option (Nat × ObjPos L)) (q : Nat) :
    (s.setThread i t).pos q =
      Function.update (s.pos q) i (t.bind fun t => if t.1 = q then some t.2 else none) := by
  funext j
  by_cases hj : j = i
  · subst hj
    simp [pos, setThread]
  · simp [pos, setThread, hj]

omit [Fintype ι] in
theorem pos_setThread_self (s : ObjSys L ι) (i : ι) (p : Nat) (x : ObjPos L) :
    (s.setThread i (some (p, x))).pos p = Function.update (s.pos p) i (some x) := by
  rw [pos_setThread, Option.bind_some, if_pos rfl]

omit [Fintype ι] in
/-- A thread that stays on its object is on no other one. -/
theorem pos_setThread_ne (hi : ∀ t, s.threads i = some t → t.1 = p) {t : Option (Nat × ObjPos L)}
    (ht : ∀ u, t = some u → u.1 = p) {q : Nat} (hq : q ≠ p) :
    (s.setThread i t).pos q = s.pos q := by
  rw [pos_setThread]
  refine Function.update_eq_self_iff.mpr ?_
  have hnone : ∀ u : Option (Nat × ObjPos L), (∀ v, u = some v → v.1 = p) →
      (u.bind fun v => if v.1 = q then some v.2 else none) = none := by
    intro u hu
    cases u with
    | none => rfl
    | some v =>
        rw [Option.bind_some, if_neg]
        rw [hu v rfl]
        exact Ne.symm hq
  rw [hnone t ht, pos, hnone _ hi]

omit [Fintype ι] in
theorem setRefs_apply (s : ObjSys L ι) (i : ι) (p n : Nat) :
    (fun j => (s.setRefs i p n).refs j p) = Function.update (fun j => s.refs j p) i n := by
  funext j
  by_cases hj : j = i
  · subst hj
    simp [setRefs]
  · simp [setRefs, hj]

omit [Fintype ι] in
theorem setRefs_of_ne (s : ObjSys L ι) (i : ι) {p q : Nat} (n : Nat) (hq : q ≠ p) (j : ι) :
    (s.setRefs i p n).refs j q = s.refs j q := by
  by_cases hj : j = i
  · subst hj
    simp [setRefs, hq]
  · simp [setRefs, hj]

def Sees : ObjObs ι → Prop
  | .returned _ _ .incr r => 2 ≤ r
  | _ => True

theorem tick_inv (h : Inv s) (hG : Client s (.tick i)) :
    ∃ s' obs, step s (.tick i) = some (s', obs) ∧ Sees obs ∧ Inv s' := by
  cases ht : s.threads i with
  | none => exact ⟨s, .quiet, by rw [step, ht], trivial, h⟩
  | some t =>
      obtain ⟨p, x⟩ := t
      have hi : s.pos p i = some x := by simp [pos, ht]
      have hlive : ∃ o, s.objs.get p = some o := by
        cases hget : s.objs.get p with
        | none =>
            rw [(h.dead p hget i).1] at hi
            cases hi
        | some o => exact ⟨o, rfl⟩
      obtain ⟨o, ho⟩ := hlive
      have hmoved := (h.objs p o ho).moved hi fun ref hx => hG p ref (hx ▸ ht)
      have hon : ∀ t, s.threads i = some t → t.1 = p := by
        rw [ht]
        rintro t ⟨⟩
        rfl
      have hset : ∀ o' : ObjBlock L, ∃ objs, s.objs.set p o' = some objs ∧
          objs.get = Function.update s.objs.get p (some o') := fun o' => BlockHeap.set_of_some ho
      cases hmove : objMove x o with
      | go o' x' =>
          rw [hmove] at hmoved
          obtain ⟨objs, hobjs, hget⟩ := hset o'
          refine ⟨{ s with objs := objs }.setThread i (some (p, x')), .quiet, ?_, trivial,
            h.change ho (some o') hget (fun q hq => ?_) (fun _ _ _ => rfl) (fun _ _ => rfl) rfl
              ?_ (by rintro ⟨⟩)⟩
          · rw [step, ht]
            simp [ho, hmove, hobjs]
          · exact pos_setThread_ne (s := { s with objs := objs }) hon (by rintro u ⟨⟩; rfl) hq
          · rintro _ ⟨⟩
            rw [pos_setThread_self]
            exact hmoved.symm
      | counted o' x' =>
          rw [hmove] at hmoved
          obtain ⟨objs, hobjs, hget⟩ := hset o'
          refine ⟨({ s with objs := objs }.setRefs i p (s.refs i p + 1)).setThread i (some (p, x')),
            .quiet, ?_, trivial, h.change ho (some o') hget (fun q hq => ?_) (fun q hq j => ?_)
              (fun _ _ => rfl) rfl ?_ (by rintro ⟨⟩)⟩
          · rw [step, ht]
            simp [ho, hmove, hobjs]
          · exact pos_setThread_ne (s := { s with objs := objs }.setRefs i p (s.refs i p + 1))
              (t := some (p, x')) hon (by rintro u ⟨⟩; rfl) hq
          · exact setRefs_of_ne { s with objs := objs } i _ hq j
          · rintro _ ⟨⟩
            refine ⟨hmoved.2, ?_⟩
            rw [pos_setThread_self]
            exact setRefs_apply s i p (s.refs i p + 1) ▸ hmoved.1
      | destroyed t x' =>
          rw [hmove] at hmoved
          refine ⟨{ s with privs := s.privs.free o.priv }.setThread i (some (p, x')), .quiet, ?_,
            trivial, h.change ho (some o) (Function.update_eq_self_iff.mpr ho.symm).symm
              (fun q hq => ?_) (fun _ _ _ => rfl) (fun v hv => ?_) rfl ?_ (by rintro ⟨⟩)⟩
          · rw [step, ht]
            simp [ho, hmove, hmoved.1]
          · exact pos_setThread_ne (s := { s with privs := s.privs.free o.priv }) hon
              (by rintro u ⟨⟩; rfl) hq
          · exact Function.update_of_ne hv ..
          · rintro _ ⟨⟩
            rw [pos_setThread_self]
            exact ⟨rfl, hmoved.2⟩
      | finish o' call r =>
          rw [hmove] at hmoved
          obtain ⟨objs, hobjs, hget⟩ := hset o'
          refine ⟨{ s with objs := objs }.setThread i none, .returned i p call r, ?_, ?_,
            h.change ho (some o') hget (fun q hq => ?_) (fun _ _ _ => rfl) (fun _ _ => rfl) rfl
              ?_ (by rintro ⟨⟩)⟩
          · rw [step, ht]
            simp [ho, hmove, hobjs]
          · cases call with
            | incr => exact hmoved.2.2 rfl
            | decr => trivial
          · exact pos_setThread_ne (s := { s with objs := objs }) hon (by rintro u ⟨⟩) hq
          · rintro _ ⟨⟩
            rw [pos_setThread]
            exact ⟨hmoved.2.1, hmoved.1⟩
      | freed =>
          rw [hmove] at hmoved
          obtain ⟨hrefs, hnone, hgone⟩ := hmoved
          refine ⟨{ s with objs := s.objs.free p }.setThread i none, .returned i p .decr 1, ?_,
            trivial, h.change ho none rfl (fun q hq => ?_) (fun _ _ _ => rfl) (fun _ _ => rfl) rfl
              (by rintro _ ⟨⟩) fun _ => ⟨fun j => ⟨?_, hrefs j⟩, hgone⟩⟩
          · rw [step, ht]
            simp [ho, hmove]
          · exact pos_setThread_ne (s := { s with objs := s.objs.free p }) hon (by rintro u ⟨⟩) hq
          · rw [pos_setThread]
            by_cases hj : j = i
            · subst hj
              rw [Function.update_self]
              rfl
            · rw [Function.update_of_ne hj]
              exact hnone j hj
      | overflow =>
          rw [hmove] at hmoved
          exact hmoved.elim

omit [DecidableEq ι] in
theorem Inv.live (h : Inv s) (hrefs : 0 < s.refs i p) : ∃ o, s.objs.get p = some o := by
  cases hget : s.objs.get p with
  | none =>
      rw [(h.dead p hget i).2] at hrefs
      cases hrefs
  | some o => exact ⟨o, rfl⟩

theorem call_inv (h : Inv s) {call : ObjCall} (hG : Client s (.call i call p)) :
    ∃ s', step s (.call i call p) = some (s', .quiet) ∧ Inv s' := by
  obtain ⟨hidle, hrefs⟩ := hG
  obtain ⟨o, ho⟩ := h.live hrefs
  have hi : s.pos p i = none := by simp [pos, hidle]
  have hon : ∀ t, s.threads i = some t → t.1 = p := by
    rw [hidle]
    rintro t ⟨⟩
  have hsame : s.objs.get = Function.update s.objs.get p (some o) :=
    (Function.update_eq_self_iff.mpr ho.symm).symm
  cases call with
  | incr =>
      refine ⟨_, rfl, h.change ho (some o) hsame (fun q hq => ?_) (fun _ _ _ => rfl)
        (fun _ _ => rfl) rfl ?_ (by rintro ⟨⟩)⟩
      · exact pos_setThread_ne hon (by rintro u ⟨⟩; rfl) hq
      · rintro _ ⟨⟩
        have henter := (h.objs p o ho).enter (x := .lock .incr L.start) hi rfl hrefs id hrefs id
        rw [Function.update_eq_self] at henter
        rw [pos_setThread_self]
        exact ⟨rfl, henter⟩
  | decr =>
      refine ⟨_, rfl, h.change ho (some o) hsame (fun q hq => ?_) (fun q hq j => ?_)
        (fun _ _ => rfl) rfl ?_ (by rintro ⟨⟩)⟩
      · exact pos_setThread_ne (s := s.setRefs i p (s.refs i p - 1))
          (t := some (p, .lock .decr L.start)) hon (by rintro u ⟨⟩; rfl) hq
      · exact setRefs_of_ne s i _ hq j
      · rintro _ ⟨⟩
        have henter := (h.objs p o ho).enter (x := .lock .decr L.start) hi
          (n := s.refs i p - 1) (Nat.sub_add_cancel hrefs) hrefs id trivial id
        rw [pos_setThread_self]
        exact ⟨rfl, setRefs_apply s i p (s.refs i p - 1) ▸ henter⟩

omit [Fintype ι] in
theorem setRefs_self (s : ObjSys L ι) (i : ι) (p n : Nat) : (s.setRefs i p n).refs i p = n := by
  simp [setRefs]

omit [Fintype ι] in
theorem setRefs_other (s : ObjSys L ι) {i k : ι} (p n : Nat) (hk : k ≠ i) :
    (s.setRefs i p n).refs k p = s.refs k p := by
  simp [setRefs, hk]

theorem sum_setRefs (s : ObjSys L ι) (i : ι) (p n : Nat) :
    ∑ k, (s.setRefs i p n).refs k p + s.refs i p = ∑ k, s.refs k p + n := by
  rw [ObjInv.sum_change i fun k hk => setRefs_other s p n hk, setRefs_self]

theorem give_inv (h : Inv s) {j : ι} (hG : Client s (.give i j p)) :
    ∃ s', step s (.give i j p) = some (s', .quiet) ∧ Inv s' := by
  obtain ⟨hidle, hrefs⟩ := hG
  obtain ⟨o, ho⟩ := h.live hrefs
  refine ⟨_, rfl, h.change ho (some o) (Function.update_eq_self_iff.mpr ho.symm).symm
    (fun _ _ => rfl) (fun q hq k => ?_) (fun _ _ => rfl) rfl ?_ (by rintro ⟨⟩)⟩
  · rw [setRefs_of_ne _ _ _ hq, setRefs_of_ne _ _ _ hq]
  · rintro _ ⟨⟩
    refine ⟨rfl, (h.objs p o ho).handOver ?_ ?_⟩
    · have hfirst := sum_setRefs s i p (s.refs i p - 1)
      have hthen := sum_setRefs (s.setRefs i p (s.refs i p - 1)) j p
        ((s.setRefs i p (s.refs i p - 1)).refs j p + 1)
      omega
    · intro k hk
      have hki : k ≠ i := by
        rintro rfl
        exact hk (by rw [pos, hidle]; rfl)
      have hfirst := setRefs_other s p (s.refs i p - 1) hki
      by_cases hkj : k = j
      · subst hkj
        rw [setRefs_self]
        omega
      · rw [setRefs_other _ _ _ hkj]
        omega

/-- A new object belongs to the thread that has created it. -/
theorem create_objInv {privs : BlockHeap ObjType} (pos : ι → Option (ObjPos L))
    (hpos : ∀ j, pos j = none) {type : ObjType} {priv : Nat} (hpriv : privs.get priv = some type) :
    ObjInv ⟨1, type, priv, L.free⟩ pos (Function.update (fun _ => 0) i 1) privs where
  count := by
    have hsum : ∑ j, ObjInv.weight pos (Function.update (fun _ => 0) i 1) j = 1 := by
      have hchange := ObjInv.sum_change (f := fun _ => 0)
        (g := ObjInv.weight pos (Function.update (fun _ => 0) i 1)) i
        fun j hj => by simp [ObjInv.weight, hpos, hj]
      simpa [ObjInv.weight, hpos] using hchange
    rw [hsum]
    rfl
  holder := by
    refine ⟨none, rfl, fun j => iff_of_false ?_ (by simp)⟩
    rintro ⟨z, hz, -⟩
    rw [hpos] at hz
    cases hz
  fits j z hz := by
    rw [hpos] at hz
    cases hz
  last hzero := by
    cases hzero
  priv := .inl hpriv
  gone j z hz := by
    rw [hpos] at hz
    cases hz

theorem create_inv (h : Inv s) (i : ι) (type : ObjType) :
    Inv (s.objCreate i type).1 := by
  have hfresh : s.objs.get s.objs.next = none := s.objs.fresh _ (Nat.le_refl _)
  have hdead := h.dead _ hfresh
  have hnext : s.privs.next < s.privs.next + 1 := Nat.lt_succ_self _
  have hget : ∀ q o, (s.objs.alloc ⟨1, type, s.privs.next, L.free⟩).1.get q = some o →
      (q = s.objs.next ∧ o = ⟨1, type, s.privs.next, L.free⟩) ∨
        (q ≠ s.objs.next ∧ s.objs.get q = some o) := by
    intro q o hq
    by_cases hqn : q = s.objs.next
    · subst hqn
      rw [show (s.objs.alloc _).1.get s.objs.next = some _ from BlockHeap.alloc_get_self ..] at hq
      exact .inl ⟨rfl, (Option.some.inj hq).symm⟩
    · exact .inr ⟨hqn, (Function.update_of_ne hqn ..).symm.trans hq⟩
  have hprivs : ∀ v ≠ s.privs.next, (s.privs.alloc type).1.get v = s.privs.get v := fun v hv =>
    Function.update_of_ne hv ..
  have hrefs : ∀ q ≠ s.objs.next, ∀ j, (s.objCreate i type).1.refs j q = s.refs j q :=
    fun q hq j => setRefs_of_ne _ i _ hq j
  refine ⟨fun q o hq => ?_, fun q hq j => ?_, fun q q' o o' hq hq' heq => ?_, fun q o hq => ?_,
    fun v hv => ?_⟩
  · obtain ⟨rfl, rfl⟩ | ⟨hqn, hq⟩ := hget q o hq
    · have hzero : (fun j => (s.objCreate i type).1.refs j s.objs.next) =
          Function.update (fun _ => 0) i 1 := by
        funext j
        by_cases hj : j = i
        · subst hj
          rw [Function.update_self]
          refine (setRefs_self _ j _ _).trans ?_
          rw [(hdead j).2]
        · rw [Function.update_of_ne hj]
          exact (setRefs_other _ _ _ hj).trans (hdead j).2
      rw [hzero]
      exact create_objInv _ (fun j => (hdead j).1) (BlockHeap.alloc_get_self ..)
    · rw [funext (hrefs q hqn)]
      exact (h.objs q o hq).privs_congr (hprivs _ (Nat.ne_of_lt (h.bound q o hq)))
  · have hqn : q ≠ s.objs.next := by
      rintro rfl
      cases (BlockHeap.alloc_get_self ..).symm.trans hq
    rw [hrefs q hqn]
    exact h.dead q ((Function.update_of_ne hqn ..).symm.trans hq) j
  · obtain ⟨rfl, rfl⟩ | ⟨-, hq⟩ := hget q o hq
    · obtain ⟨rfl, -⟩ | ⟨-, hq'⟩ := hget q' o' hq'
      · rfl
      · exact absurd heq (Nat.ne_of_gt (h.bound q' o' hq'))
    · obtain ⟨rfl, rfl⟩ | ⟨-, hq'⟩ := hget q' o' hq'
      · exact absurd heq (Nat.ne_of_lt (h.bound q o hq))
      · exact h.apart q q' o o' hq hq' heq
  · obtain ⟨-, rfl⟩ | ⟨-, hq⟩ := hget q o hq
    · exact hnext
    · exact Nat.lt_succ_of_lt (h.bound q o hq)
  · by_cases hvn : v = s.privs.next
    · subst hvn
      exact ⟨s.objs.next, _, BlockHeap.alloc_get_self .., rfl⟩
    · obtain ⟨q, o, hq, rfl⟩ := h.privs v (hprivs v hvn ▸ hv)
      exact ⟨q, o, BlockHeap.alloc_get_of_some hq, rfl⟩

theorem step_inv (h : Inv s) {l : ObjLabel ι} (hG : Client s l) :
    ∃ s' obs, step s l = some (s', obs) ∧ Sees obs ∧ Inv s' := by
  cases l with
  | create i type =>
      exact ⟨_, _, rfl, trivial, create_inv h i type⟩
  | give i j p =>
      obtain ⟨s', hstep, hs'⟩ := give_inv h hG
      exact ⟨s', _, hstep, trivial, hs'⟩
  | call i call p =>
      obtain ⟨s', hstep, hs'⟩ := call_inv h hG
      exact ⟨s', _, hstep, trivial, hs'⟩
  | tick i => exact tick_inv h hG

end ObjSys

/-- Whatever the order of the accesses: who has a reference has the object and its payload, no
access is to freed memory, and with no call open the counter of each object is the number of
references to it, and an object without references is gone with its payload. -/
theorem obj_refs_safe (build : LockBuild) {ι : Type} [Fintype ι] [DecidableEq ι]
    {ls : List (ObjLabel ι)}
    (hG : Machine.Along ObjSys.step ObjSys.Client (ObjSys.start : ObjSys build.LOCK_T ι) ls) :
    ∃ s os, Machine.run ObjSys.step (ObjSys.start : ObjSys build.LOCK_T ι) ls = some (s, os) ∧
      (∀ i p, 0 < s.refs i p → ∃ o, s.objs.get p = some o ∧
        s.privs.get o.priv = some o.type) ∧
      (∀ i p r, .returned i p .incr r ∈ os → 2 ≤ r) ∧
      ((∀ i, s.threads i = none) →
        (∀ p o, s.objs.get p = some o → o.ref = ((∑ i, s.refs i p : Nat) : Int) ∧ 0 < o.ref) ∧
        (∀ p, s.objs.get p = none ↔ ∀ i, s.refs i p = 0) ∧
        ∀ v, s.privs.get v ≠ none ↔ ∃ p o, s.objs.get p = some o ∧ o.priv = v) := by
  obtain ⟨s, os, hrun, hsees, h⟩ := Machine.run_total_outputs ObjSys.Inv (P := ObjSys.Sees)
    (fun hs hl => ObjSys.step_inv hs hl) ObjSys.start_inv hG
  have hcounted : ∀ i p o, 0 < s.refs i p → s.objs.get p = some o → o.ref ≠ 0 := by
    intro i p o hrefs ho hzero
    have := (h.objs p o ho).refs_zero hzero i
    omega
  refine ⟨s, os, hrun, fun i p hrefs => ?_, fun i p r hr => hsees _ hr, fun hidle => ?_⟩
  · obtain ⟨o, ho⟩ := h.live hrefs
    refine ⟨o, ho, (h.objs p o ho).priv.resolve_right ?_⟩
    rintro ⟨j, x, hj, hx⟩
    exact hcounted i p o hrefs ho ((h.objs p o ho).zero_of_past hj hx)
  · have hpos : ∀ p i, s.pos p i = none := fun p i => by simp [ObjSys.pos, hidle]
    have hcount : ∀ p o, s.objs.get p = some o →
        o.ref = ((∑ i, s.refs i p : Nat) : Int) ∧ 0 < o.ref := by
      intro p o ho
      have hinv := h.objs p o ho
      have hne : o.ref ≠ 0 := by
        intro hzero
        obtain ⟨i, x, hi, -⟩ := hinv.last hzero
        rw [hpos] at hi
        cases hi
      have heq := hinv.count
      simp only [ObjInv.weight, hpos, Option.map_none, Option.getD_none, Nat.add_zero] at heq
      exact ⟨heq, by omega⟩
    refine ⟨hcount, fun p => ⟨fun hdead i => (h.dead p hdead i).2, fun hrefs => ?_⟩, fun v =>
      ⟨h.privs v, ?_⟩⟩
    · cases ho : s.objs.get p with
      | none => rfl
      | some o =>
          obtain ⟨heq, hlt⟩ := hcount p o ho
          simp only [hrefs, Finset.sum_const_zero] at heq
          omega
    · rintro ⟨p, o, ho, rfl⟩
      have hpriv : s.privs.get o.priv = some o.type := by
        refine (h.objs p o ho).priv.resolve_right ?_
        rintro ⟨j, x, hj, -⟩
        rw [hpos] at hj
        cases hj
      rw [hpriv]
      simp

/-- A thread takes a second reference and hands it to another one; both drop theirs at once, and
the one that has waited for the lock releases the object. -/
def handedOver : List (ObjLabel Bool) :=
  [.create false .str, .call false .incr 0] ++ List.replicate 6 (.tick false) ++
    [.give false true 0, .call false .decr 0, .call true .decr 0,
      .tick false, .tick true, .tick false, .tick true] ++
    List.replicate 4 (.tick false) ++ List.replicate 12 (.tick true)

theorem obj_refs_safe_handed :
    ∃ s os, Machine.run ObjSys.step (ObjSys.start : ObjSys (LockBuild.spin 2).LOCK_T Bool)
        handedOver = some (s, os) ∧
      .returned false 0 .incr 2 ∈ os ∧ .returned false 0 .decr 0 ∈ os ∧
      .returned true 0 .decr 1 ∈ os ∧ s.objs.get 0 = none ∧
      ∀ v, s.privs.get v ≠ none ↔ ∃ p o, s.objs.get p = some o ∧ o.priv = v := by
  obtain ⟨s, os, hrun, -, -, hidle⟩ := @obj_refs_safe (.spin 2) Bool _ _ handedOver
    (by decide +kernel)
  have hend : (Machine.run ObjSys.step (ObjSys.start : ObjSys (LockBuild.spin 2).LOCK_T Bool)
      handedOver).map (fun r => ((r.1.threads false).isNone, (r.1.threads true).isNone,
        r.1.refs false 0, r.1.refs true 0, r.2.filter (· ≠ .quiet))) =
      some (true, true, 0, 0, [.created false 0, .returned false 0 .incr 2,
        .returned false 0 .decr 0, .returned true 0 .decr 1]) := by
    decide +kernel
  rw [hrun] at hend
  simp only [Option.map_some, Option.some.injEq, Prod.mk.injEq] at hend
  obtain ⟨hfalse, htrue, hrefs, hrefs', hos⟩ := hend
  have hmem : ∀ obs ∈ os.filter (· ≠ ObjObs.quiet), obs ∈ os :=
    fun obs h => List.mem_of_mem_filter h
  rw [hos] at hmem
  obtain ⟨-, hgone, hprivs⟩ := hidle fun i => by
    cases i with
    | false => exact Option.isNone_iff_eq_none.mp hfalse
    | true => exact Option.isNone_iff_eq_none.mp htrue
  refine ⟨s, os, hrun, hmem _ (by decide), hmem _ (by decide), hmem _ (by decide), ?_, hprivs⟩
  rw [hgone]
  intro i
  cases i with
  | false => exact hrefs
  | true => exact hrefs'

end ThrSocket
