import ThrSocket.Jmalloc

/-!
The blocks under the pointers of jmalloc.c. `malloc` and `realloc` give as many
bytes as they are asked for; the four bytes of the header are among them, and
`jrealloc` does not ask for these.
-/

namespace ThrSocket

/-- The memory, with the size of the block that `malloc` or `realloc` made for each pointer. -/
structure JBlocks where
  audit : Audit := {}
  sizes : List (Nat × Nat) := []

namespace JBlocks

/-- `*((uint32_t*)ptr) = s` at the start of a block of `size` bytes. -/
def headerFits (size : Nat) : Bool := memPrefixSize.toNat ≤ size

/-- The blocks after an operation: `jmalloc` calls `malloc(s + MEM_PREFIX_SIZE)`,
`jrealloc` calls `realloc(real_ptr, s)`. -/
def resize (sizes : List (Nat × Nat)) : JmLabel → Option (List (Nat × Nat))
  | .jmalloc s ptr =>
      let size := (s.s + memPrefixSize).toNat
      if headerFits size then some ((ptr, size) :: sizes) else none
  | .jrealloc ptr s newPtr =>
      let size := s.s.toNat
      let sizes := match ptr with
        | none => sizes
        | some p => sizes.eraseP (·.1 = p)
      if headerFits size then some ((newPtr, size) :: sizes) else none
  | .jfree ptr => some (sizes.eraseP (·.1 = ptr))

def step (b : JBlocks) (label : JmLabel) : Option (JBlocks × Unit) :=
  (b.audit.step label).bind fun a =>
    (resize b.sizes label).map fun sizes => (⟨a.1, sizes⟩, ())

def Inside (b : JBlocks) (ptr k : Nat) : Prop :=
  ∃ size, b.sizes.lookup ptr = some size ∧ memPrefixSize.toNat + k < size

/-- Under every pointer there is the size last asked for, behind a header that holds it. -/
def AsPromised (b : JBlocks) : Prop :=
  ∀ ptr s, b.audit.live.lookup ptr = some s →
    b.audit.mem.headers.lookup ptr = some s.s.toUInt32 ∧ ∀ k < s.s.toNat, b.Inside ptr k

/-- The pointer that is handed to `jrealloc` or `jfree` is live. -/
def OnLive (b : JBlocks) : JmLabel → Prop
  | .jrealloc (some p) _ _ | .jfree p => (b.audit.live.lookup p).isSome
  | .jrealloc none _ _ | .jmalloc _ _ => True

instance (b : JBlocks) : (label : JmLabel) → Decidable (b.OnLive label)
  | .jrealloc (some p) _ _ | .jfree p =>
      inferInstanceAs (Decidable ((b.audit.live.lookup p).isSome = true))
  | .jrealloc none _ _ | .jmalloc _ _ => inferInstanceAs (Decidable True)

def isRealloc : JmLabel → Bool
  | .jrealloc .. => true
  | _ => false

/-- Each operation of the run is carried out, and all pointers are as promised after it. -/
def KeepsPromise (labels : List JmLabel) : Prop :=
  ∀ n ≤ labels.length, ∃ b os, Machine.run step {} (labels.take n) = some (b, os) ∧ b.AsPromised

structure Roomy (b : JBlocks) : Prop where
  sound : b.audit.Sound
  sizes : b.sizes = b.audit.live.map fun e => (e.1, memPrefixSize.toNat + e.2.s.toNat)

variable {b b' : JBlocks}

theorem lookup_sizes (live : Requests) (p : Nat) :
    (live.map fun e => (e.1, memPrefixSize.toNat + e.2.s.toNat)).lookup p =
      (live.lookup p).map fun s => memPrefixSize.toNat + s.s.toNat := by
  induction live with
  | nil => rfl
  | cons e live ih =>
      rw [List.map_cons, List.lookup_cons, List.lookup_cons, ih]
      cases p == e.1 <;> rfl

theorem Roomy.asPromised (hb : b.Roomy) : b.AsPromised := by
  intro ptr s hs
  refine ⟨by rw [Audit.lookup_of_sound hb.sound, hs, Option.map_some], fun k hk => ?_⟩
  refine ⟨memPrefixSize.toNat + s.s.toNat, ?_, Nat.add_lt_add_left hk _⟩
  rw [hb.sizes, lookup_sizes, hs, Option.map_some]

theorem jmalloc_size (s : ReqSize) :
    (s.s + memPrefixSize).toNat = memPrefixSize.toNat + s.s.toNat := by
  have := s.small
  rw [UInt64.toNat_add, memPrefixSize]
  simp only [UInt64.reduceToNat]
  omega

theorem step_of_audit {label : JmLabel} {a : Audit} {sizes : List (Nat × Nat)}
    (haudit : b.audit.step label = some (a, ())) (hsizes : resize b.sizes label = some sizes) :
    b.step label = some (⟨a, sizes⟩, ()) := by
  rw [step, haudit, Option.bind_some, hsizes, Option.map_some]

/-- Without `jrealloc` an operation on live pointers is defined and keeps the blocks roomy. -/
theorem Roomy.takes (hb : b.Roomy) {label : JmLabel} (hlive : b.OnLive label)
    (hlabel : isRealloc label = false) : ∃ b', b.step label = some (b', ()) ∧ b'.Roomy := by
  cases label with
  | jrealloc => cases hlabel
  | jmalloc s ptr =>
      have hfits : headerFits (s.s + memPrefixSize).toNat = true := by
        rw [jmalloc_size]
        exact decide_eq_true (Nat.le_add_right _ _)
      have haudit : b.audit.step (.jmalloc s ptr) =
          some (⟨b.audit.mem.jmalloc s.s ptr, b.audit.live.update (.jmalloc s ptr)⟩, ()) := rfl
      refine ⟨_, step_of_audit haudit (if_pos hfits), Audit.sound_step hb.sound haudit, ?_⟩
      rw [jmalloc_size, hb.sizes]
      rfl
  | jfree p =>
      obtain ⟨old, hp⟩ := Option.isSome_iff_exists.mp hlive
      have hfree := Audit.jfree_eq hb.sound hp
      refine ⟨_, step_of_audit hfree rfl, Audit.sound_step hb.sound hfree, ?_⟩
      rw [hb.sizes, List.eraseP_map]
      rfl

/-- The block of a `jrealloc` is four bytes short. -/
theorem jrealloc_short {ptr : Option Nat} {s : ReqSize} {newPtr : Nat}
    (hstep : b.step (.jrealloc ptr s newPtr) = some (b', ())) : ¬ b'.AsPromised := by
  obtain ⟨⟨audit, _⟩, haudit, hstep⟩ := Option.bind_eq_some_iff.mp hstep
  obtain ⟨sizes, hsizes, hstep⟩ := Option.map_eq_some_iff.mp hstep
  cases hstep
  obtain ⟨mem, -, haudit⟩ := Option.map_eq_some_iff.mp haudit
  cases haudit
  obtain ⟨hfits, hsizes⟩ := Option.ite_none_right_eq_some.mp hsizes
  cases hsizes
  have hprefix : memPrefixSize.toNat = 4 := rfl
  have hsize : 4 ≤ s.s.toNat := of_decide_eq_true hfits
  have hlive : (b.audit.live.update (.jrealloc ptr s newPtr)).lookup newPtr = some s := by
    cases ptr <;> exact List.lookup_cons_self
  intro hpromise
  -- the last byte that was asked for
  obtain ⟨size, hlookup, hinside⟩ := (hpromise newPtr s hlive).2 (s.s.toNat - 1) (by omega)
  rw [List.lookup_cons_self] at hlookup
  cases hlookup
  omega

theorem roomy_init : Roomy {} := ⟨rfl, rfl⟩

theorem Roomy.run_take (hb : b.Roomy) {labels : List JmLabel}
    (hlive : Machine.Along step OnLive b labels) :
    (∀ n ≤ labels.length, ∃ b' os,
      Machine.run step b (labels.take n) = some (b', os) ∧ b'.AsPromised) ↔
      ∀ label ∈ labels, isRealloc label = false := by
  induction labels generalizing b with
  | nil =>
      simp only [List.not_mem_nil, false_implies, implies_true, iff_true]
      intro n _
      rw [List.take_nil]
      exact ⟨b, [], rfl, hb.asPromised⟩
  | cons label labels ih =>
      constructor
      · intro hkeeps
        have hlabel : isRealloc label = false := by
          by_contra hrealloc
          obtain ⟨b₁, os, hrun, hpromise⟩ := hkeeps 1 (Nat.le_add_left 1 _)
          obtain ⟨b', o, os', hstep, hrest, -⟩ := Machine.run_cons_eq_some.mp hrun
          cases hrest
          cases label with
          | jrealloc => exact jrealloc_short hstep hpromise
          | jmalloc | jfree => exact hrealloc rfl
        obtain ⟨b', hstep, hb'⟩ := hb.takes hlive.1 hlabel
        refine List.forall_mem_cons.mpr ⟨hlabel, (ih hb' (hlive.2 b' () hstep)).mp fun n hn => ?_⟩
        obtain ⟨b₁, os, hrun, hpromise⟩ := hkeeps (n + 1) (Nat.succ_le_succ hn)
        obtain ⟨b'', o, os', hstep', hrest, -⟩ := Machine.run_cons_eq_some.mp hrun
        cases hstep.symm.trans hstep'
        exact ⟨b₁, os', hrest, hpromise⟩
      · intro hlabels n hn
        obtain ⟨hlabel, hlabels⟩ := List.forall_mem_cons.mp hlabels
        obtain ⟨b', hstep, hb'⟩ := hb.takes hlive.1 hlabel
        cases n with
        | zero => exact ⟨b, [], rfl, hb.asPromised⟩
        | succ n =>
            obtain ⟨b₁, os, hrun, hpromise⟩ :=
              (ih hb' (hlive.2 b' () hstep)).mpr hlabels n (Nat.le_of_succ_le_succ hn)
            exact ⟨b₁, () :: os,
              Machine.run_cons_eq_some.mpr ⟨b', (), os, hstep, hrun, rfl⟩, hpromise⟩

/-- In a sequence of calls on live pointers, every block is as large as promised at every moment
if and only if `jrealloc` is not among them. -/
theorem blocks_asPromised_iff (labels : List JmLabel)
    (hlive : Machine.Along step OnLive {} labels) :
    KeepsPromise labels ↔ ∀ label ∈ labels, isRealloc label = false :=
  roomy_init.run_take hlive

def firstAppend : List JmLabel :=
  [.jmalloc ⟨9, by decide⟩ 1000, .jrealloc (some 1000) ⟨11, by decide⟩ 1000]

theorem blocks_asPromised_string : KeepsPromise [.jmalloc ⟨9, by decide⟩ 1000, .jfree 1000] :=
  (blocks_asPromised_iff _ (by decide)).mpr (by decide)

/-- The NUL behind the appended byte, nine bytes behind the pointer, is outside. -/
theorem firstAppend_outside : ¬ KeepsPromise firstAppend := by
  intro hkeeps
  obtain ⟨b, os, hrun, hpromise⟩ := hkeeps 2 (Nat.le_refl 2)
  cases hrun
  obtain ⟨size, hsize, hinside⟩ := (hpromise 1000 ⟨11, by decide⟩ rfl).2 9 (by decide)
  cases hsize
  exact absurd hinside (by decide)

end JBlocks

end ThrSocket
