import ThrSocket.EventLoop

/-!
The event table is indexed within its MAX_EVENTS slots, in every build and over
every run, unless a call is made for the descriptor MAX_EVENTS: the guards let
it through, and its slot is the first one behind the table.
-/

namespace ThrSocket
open Cevents TrackedEvents

section

variable {B A : Type}

def Cevents.MaxfdValid (s : Cevents B) : Prop := 0 ≤ s.maxfd ∧ s.maxfd < maxEvents

def Rejected (impl : Impl B) (s : Cevents B) (op : EventOp) : Prop :=
  ∃ s' o, step impl s op = some (s', o) ∧ o.rs = -1

/-- Unless J_ERR is returned the descriptor is an index of the table, and `maxfd` is one after
the call. -/
def OpInBounds (impl : Impl B) (t : TrackedEvents B) (op : EventOp) : Prop :=
  (¬ Rejected impl t.table op → op.fd < maxEvents) ∧
    ∀ t' o, t.opStep impl op = some (t', o) → t'.table.MaxfdValid

/-- `cevts->fired` has room for the entries, and each has a descriptor of the table. -/
def FiredInBounds (_ : TrackedEvents B) (_ : Procs) (fired : List CeventFired) : Prop :=
  fired.length ≤ maxEvents ∧ ∀ f ∈ fired, f.fd < maxEvents

/-- In every state and at every call of the run. -/
def IndexedInBounds (be : EventBackend B A) (t : TrackedEvents B) (calls : List (EventCall A)) :
    Prop :=
  t.table.MaxfdValid ∧
    Machine.Along (callStep be) (CallMeets be (OpInBounds be.impl) FiredInBounds) t calls

/-- No call is for the descriptor MAX_EVENTS, in an event procedure neither. -/
def OffLimit (be : EventBackend B A) (t : TrackedEvents B) (calls : List (EventCall A)) : Prop :=
  Machine.Along (callStep be)
    (CallMeets be (fun _ op => op.fd ≠ maxEvents) fun _ _ _ => True) t calls

variable {impl : Impl B} {s : Cevents B} {t t' : TrackedEvents B} {op : EventOp}

/-- Which calls are on a descriptor of the table, unless they are rejected. -/
theorem index_valid_iff :
    (¬ Rejected impl s op → op.fd < maxEvents) ↔ op.fd ≠ maxEvents := by
  constructor
  · intro h hlimit
    have hlt : op.fd < maxEvents := h fun ⟨s', o, hstep, _⟩ => by
      rw [step_limit impl s hlimit] at hstep
      cases hstep
    omega
  · intro hne hrej
    by_contra hlt
    exact hrej ⟨s, _, step_rejects impl s (by omega), rfl⟩

structure BoundsInv (be : EventBackend B A) (t : TrackedEvents B) : Prop where
  maxfd : t.table.MaxfdValid
  holds : ∀ fd, be.Holds t.table.privData fd → fd < maxEvents

theorem maxfdValid_of_moves {maxfd : Int} {events : Nat → CeventSlot} {b : B}
    (h : MovesMaxfd s op maxfd) (hlt : op.fd < maxEvents) (hs : s.MaxfdValid) :
    (⟨maxfd, events, b⟩ : Cevents B).MaxfdValid := by
  obtain ⟨hlow, hhigh⟩ := hs
  rcases h with ⟨-, hfd⟩ | ⟨hle, hsame | hnonneg⟩
  · exact ⟨by dsimp only; omega, by dsimp only; omega⟩
  · exact ⟨by dsimp only; omega, by dsimp only; omega⟩
  · exact ⟨hnonneg, by dsimp only; omega⟩

theorem adds_eq_or (op : EventOp) : op.adds = [op.fd] ∨ op.adds = [] := by
  cases op
  · exact .inl rfl
  · exact .inr rfl

theorem BoundsInv.opStep {be : EventBackend B A} (hbe : be.Lawful) {o : Ret} (ht : BoundsInv be t)
    (hne : op.fd ≠ maxEvents) (h : t.opStep be.impl op = some (t', o)) : BoundsInv be t' := by
  obtain ⟨s', hstep, rfl⟩ := opStep_eq_some.mp h
  by_cases hlt : op.fd < maxEvents
  · have holds : ∀ {b rs}, be.impl.call t.table op = some (b, rs) →
        ∀ fd, be.Holds b fd → fd < maxEvents := by
      intro b rs hcall fd hfd
      rcases hbe.call_holds hcall hfd with hold | hadd
      · exact ht.holds fd hold
      · rcases adds_eq_or op with heq | heq <;> rw [heq] at hadd
        · rwa [List.mem_singleton.mp hadd]
        · cases hadd
    cases step_effect hstep with
    | same => exact ⟨ht.maxfd, ht.holds⟩
    | refused hcall => exact ⟨ht.maxfd, holds hcall⟩
    | changed _ _ hcall hmaxfd => exact ⟨maxfdValid_of_moves hmaxfd hlt ht.maxfd, holds hcall⟩
  · rw [step_rejects be.impl t.table (by omega)] at hstep
    cases hstep
    exact ⟨ht.maxfd, ht.holds⟩

theorem BoundsInv.fired {be : EventBackend B A} (hbe : be.Lawful) {answer : A} {procs : Procs}
    {fired : List CeventFired} (ht : BoundsInv be t)
    (hans : be.Answers t.table.privData answer)
    (h : be.pollImpl t.table answer = some fired) : FiredInBounds t procs fired := by
  obtain ⟨hlen, hfired⟩ := hbe.reports hans h
  exact ⟨hlen, fun f hf => (hfired f hf).elim (ht.holds f.fd) And.left⟩

theorem EventBackend.Lawful.indexedInBounds {be : EventBackend B A} (hbe : be.Lawful)
    {calls : List (EventCall A)} (ht : BoundsInv be t)
    (hans : Machine.Along (callStep be) (Answered be) t calls) (hoff : OffLimit be t calls) :
    IndexedInBounds be t calls :=
  ⟨ht.maxfd, along_calls (BoundsInv be) (fun ht hne h => ht.opStep hbe hne h)
    (fun ht hne => ⟨index_valid_iff.mpr hne, fun _ _ h => (ht.opStep hbe hne h).maxfd⟩)
    (fun ht hans h => ht.fired hbe hans h) ht hans hoff⟩

theorem offLimit_of_indexedInBounds {be : EventBackend B A} {calls : List (EventCall A)}
    (h : IndexedInBounds be t calls) : OffLimit be t calls :=
  Machine.along_mono (fun _ _ hcall => hcall.mono (fun _ _ hop => index_valid_iff.mp hop.1)
    fun _ _ _ _ => trivial) h.2

end

/-- For every content of the memory of `cevents_create`, and every run after it. -/
theorem cevents_indexedInBounds_iff (build : EventBuild) (mem : CeventsMem)
    {calls : List (EventCall build.Answer)}
    (hans : Machine.Along (callStep build.backend) (Answered build.backend)
      (build.backend.start mem) calls) :
    IndexedInBounds build.backend (build.backend.start mem) calls ↔
      (0 ≤ mem.maxfd ∧ mem.maxfd < maxEvents) ∧
        OffLimit build.backend (build.backend.start mem) calls := by
  have hmaxfd : (build.backend.start mem).table.MaxfdValid ↔
      0 ≤ mem.maxfd ∧ mem.maxfd < maxEvents := by
    rw [EventBackend.start_eq]
    rfl
  constructor
  · intro h
    exact ⟨hmaxfd.mp h.1, offLimit_of_indexedInBounds h⟩
  · rintro ⟨hmem, hoff⟩
    refine build.lawful.indexedInBounds ⟨hmaxfd.mpr hmem, fun fd hfd => ?_⟩ hans hoff
    rw [EventBackend.start_eq] at hfd
    exact absurd hfd (build.lawful.created fd)

/-- A descriptor is added, reported as readable, and deleted. -/
theorem cevents_indexedInBounds_seven :
    let calls : List (EventCall EventBuild.epoll.Answer) :=
      [.op (.add 7 .read none none), .poll [(7, ⟨true, false⟩)] fun _ _ => ⟨[], 0⟩,
        .op (.del 7 .read)]
    IndexedInBounds Epoll.backend (Epoll.backend.start zeroMem) calls ↔
      (0 ≤ zeroMem.maxfd ∧ zeroMem.maxfd < maxEvents) ∧
        OffLimit Epoll.backend (Epoll.backend.start zeroMem) calls := by
  refine cevents_indexedInBounds_iff .epoll zeroMem ⟨trivial, fun t o h => ⟨?_, ?_⟩⟩
  · cases h
    refine ⟨by decide, fun ev hev => ?_⟩
    rw [List.mem_singleton.mp hev]
    rfl
  · exact fun t' o' _ => ⟨trivial, fun _ _ _ => trivial⟩

/-- The descriptor with the number of slots is not rejected, and it is no index. -/
theorem cevents_add_maxEvents :
    let t := Epoll.backend.start zeroMem
    let op := EventOp.add 204800 .read none none
    t.table.MaxfdValid ∧ step Epoll.impl t.table op = none ∧ ¬ Rejected Epoll.impl t.table op ∧
      ¬ op.fd < maxEvents ∧ ¬ IndexedInBounds Epoll.backend t [.op op] := by
  have hnone : step Epoll.impl (Epoll.backend.start zeroMem).table
      (.add 204800 .read none none) = none := step_limit _ _ rfl
  refine ⟨⟨by decide, by decide⟩, hnone, ?_, by decide, fun h => ?_⟩
  · rintro ⟨s', o, hstep, -⟩
    rw [hnone] at hstep
    cases hstep
  · exact index_valid_iff.mp h.2.1.1 rfl

end ThrSocket
