import ThrSocket.SpinLock

/-!
log.c: a message is formatted by its thread and written under the lock of the log. What the k-th
`write` to the log comes to is an input.
-/

namespace ThrSocket

open Critical

inductive LogLevel
  | trace
  | debug
  | info
  | warn
  | err
deriving DecidableEq, Repr

namespace LogLevel

def toNat : LogLevel → Nat
  | .trace => 0
  | .debug => 1
  | .info => 2
  | .warn => 3
  | .err => 4

end LogLevel

structure LogCall where
  level : LogLevel
  text : List UInt8
deriving DecidableEq

/-- The bytes in the file behind `logfd`, and the number of `write` calls so far. -/
structure LogFile where
  out : List UInt8
  writes : Nat

namespace LogFile

def write (w : Nat → Int) (ptr : List UInt8) (f : LogFile) : Int × LogFile :=
  let wn := min (w f.writes) ptr.length
  if wn < 0 then (-1, { f with writes := f.writes + 1 })
  else (wn, ⟨f.out ++ ptr.take wn.toNat, f.writes + 1⟩)

end LogFile

/-- The loop of `log_write`; every round that goes on writes at least one byte. -/
def logWriteLoop (w : Nat → Int) : Nat → List UInt8 → Int → Prog LogFile Int
  | 0, _, count => return count
  | fuel + 1, ptr, count =>
      if ptr = [] then return count
      else do
        let wn ← .access (fun f => some (f.write w ptr)) .ret
        if wn = 0 then return count
        else if wn = -1 then return -1
        else logWriteLoop w fuel (ptr.drop wn.toNat) (count + wn)

def logWrite (w : Nat → Int) (ptr : List UInt8) : Prog LogFile Int :=
  logWriteLoop w ptr.length ptr 0

/-- What `log_print` does under the lock. -/
def logBody (w : Nat → Int) (call : LogCall) : Prog LogFile Int := logWrite w call.text

def logPrint {ι : Type} (topLevel : Int) (l : Critical.Label ι LogCall) :
    Option (Critical.Label ι LogCall) :=
  match l with
  | .call _ call => if (call.level.toNat : Int) < topLevel then none else some l
  | .tick _ => some l

/-- Some `write` fails, or writes nothing. -/
def WriteFails (w : Nat → Int) : Prop := ∃ k, w k ≤ 0

def LogSpec (w : Nat → Int) (out : List UInt8) (call : LogCall) (r : Int) (out' : List UInt8) :
    Prop :=
  ∃ k ≤ call.text.length, out' = out ++ call.text.take k ∧
    ((k = call.text.length ∧ r = call.text.length) ∨ (WriteFails w ∧ (r = -1 ∨ r = k)))

/-- A `write` of some bytes fails, or writes nothing, or writes the first of them. -/
theorem LogFile.write_cases (w : Nat → Int) {ptr : List UInt8} (hptr : ptr ≠ []) (f : LogFile) :
    (w f.writes ≤ 0 ∧ ∃ wn, (wn = -1 ∨ wn = 0) ∧
        f.write w ptr = (wn, { f with writes := f.writes + 1 })) ∨
      ∃ n, 0 < n ∧ n ≤ ptr.length ∧
        f.write w ptr = ((n : Int), ⟨f.out ++ ptr.take n, f.writes + 1⟩) := by
  have hlen : 0 < ptr.length := List.length_pos_iff.mpr hptr
  by_cases hneg : w f.writes < 0
  · refine .inl ⟨by omega, -1, .inl rfl, ?_⟩
    rw [LogFile.write, if_pos (by omega)]
  · have hwrite : f.write w ptr = (min (w f.writes) ptr.length,
        ⟨f.out ++ ptr.take (min (w f.writes) ptr.length).toNat, f.writes + 1⟩) := by
      rw [LogFile.write, if_neg (by omega)]
    have hmin : min (w f.writes) ptr.length =
        ((min (w f.writes) ptr.length).toNat : Int) := by omega
    by_cases hzero : w f.writes = 0
    · have hnone : min (w f.writes) (ptr.length : Int) = 0 := by omega
      refine .inl ⟨by omega, 0, .inr rfl, ?_⟩
      rw [hwrite, hnone]
      simp
    · refine .inr ⟨(min (w f.writes) ptr.length).toNat, by omega, by omega, ?_⟩
      rw [hwrite, ← hmin]

theorem exec_logWriteLoop (w : Nat → Int) {fuel : Nat} {ptr : List UInt8}
    (hfuel : ptr.length ≤ fuel) (count : Int) (f : LogFile) :
    ∃ k n r, (logWriteLoop w fuel ptr count).exec f = some (r, ⟨f.out ++ ptr.take k, n⟩) ∧
      k ≤ ptr.length ∧ ((k = ptr.length ∧ r = count + ptr.length) ∨
        (WriteFails w ∧ (r = -1 ∨ r = count + k))) := by
  induction fuel generalizing ptr count f with
  | zero =>
      obtain rfl := List.length_eq_zero_iff.mp (Nat.le_zero.mp hfuel)
      exact ⟨0, f.writes, count, by simp [logWriteLoop], Nat.le_refl _, .inl (by simp)⟩
  | succ fuel ih =>
      by_cases hptr : ptr = []
      · subst hptr
        exact ⟨0, f.writes, count, by simp [logWriteLoop], Nat.le_refl _, .inl (by simp)⟩
      · rw [logWriteLoop, if_neg hptr]
        obtain ⟨hfail, wn, hwn, hwrite⟩ | ⟨n, hpos, hle, hwrite⟩ := f.write_cases w hptr
        · cases hwn with
          | inl herr =>
              subst herr
              refine ⟨0, f.writes + 1, -1, ?_, Nat.zero_le _, .inr ⟨⟨_, hfail⟩, .inl rfl⟩⟩
              simp [hwrite]
          | inr hzero =>
              subst hzero
              refine ⟨0, f.writes + 1, count, ?_, Nat.zero_le _, .inr ⟨⟨_, hfail⟩, .inr ?_⟩⟩
              · simp [hwrite]
              · simp
        · have hdrop : (ptr.drop n).length ≤ fuel := by
            rw [List.length_drop]
            omega
          obtain ⟨k, m, r, hexec, hk, hend⟩ := ih hdrop (count + n)
            ⟨f.out ++ ptr.take n, f.writes + 1⟩
          rw [List.length_drop] at hk hend
          refine ⟨n + k, m, r, ?_, by omega, ?_⟩
          · have hne : ¬ ((n : Int) = 0) := by omega
            have hne' : ¬ ((n : Int) = -1) := by omega
            simp only [Prog.exec_bind, Prog.exec_access, hwrite, Option.bind_some, hne, hne',
              if_false, Int.toNat_natCast, hexec, List.take_add, List.append_assoc]
          · obtain ⟨rfl, rfl⟩ | ⟨hfail, hr⟩ := hend
            · exact .inl ⟨by omega, by omega⟩
            · exact .inr ⟨hfail, by omega⟩

theorem logBody_meets (w : Nat → Int) :
    Meets (logBody w) (fun f out => f.out = out) (LogSpec w) := by
  rintro f _ call rfl
  obtain ⟨k, n, r, hexec, hk, hend⟩ := exec_logWriteLoop w (Nat.le_refl call.text.length) 0 f
  refine ⟨r, _, _, hexec, ⟨k, hk, rfl, ?_⟩, rfl⟩
  simpa using hend

/-- What each of the calls has left in the file. -/
theorem logSpec_run {w : Nat → Int} {out out' : List UInt8} {cs : List LogCall} {rs : List Int}
    (h : Machine.SpecRun (LogSpec w) out cs rs out') :
    ∃ pieces : List (List UInt8), List.Forall₂ (fun p c => p <+: c.text) pieces cs ∧
      out' = out ++ pieces.flatten ∧ (¬ WriteFails w → pieces = cs.map LogCall.text) := by
  induction h with
  | nil => exact ⟨[], .nil, by simp, fun _ => rfl⟩
  | cons first _ ih =>
      obtain ⟨k, hk, rfl, hend⟩ := first
      obtain ⟨pieces, hpieces, rfl, hall⟩ := ih
      refine ⟨_ :: pieces, .cons (List.take_prefix k _) hpieces, by simp, fun hw => ?_⟩
      obtain ⟨rfl, -⟩ | ⟨hfail, -⟩ := hend
      · rw [hall hw, List.take_length, List.map_cons]
      · exact absurd hfail hw

/-- The lines of the log are not mixed up, whatever the threads and the outcomes of `write`: with
no thread in the log, the file is made of one piece for each message in the order of the
UNLOCKs, the whole message unless some `write` fails, and messages below `top_level` leave
nothing. -/
theorem log_lines_whole (build : LockBuild) (w : Nat → Int) (topLevel : Int) {ι : Type}
    [DecidableEq ι] (ls : List (Critical.Label ι LogCall)) :
    ∃ (s : State build.LOCK_T ι LogFile LogCall Int) (os : _) (pieces : List (List UInt8)),
      Machine.run (Critical.step (logBody w)) (.start ⟨[], 0⟩) (ls.filterMap (logPrint topLevel)) =
        some (s, os) ∧
      (∀ c ∈ calls os, topLevel ≤ c.level.toNat) ∧
      List.Forall₂ (fun p c => p <+: c.text) pieces (calls os) ∧
      ((∀ i, ¬ (s.threads i).Inside) → s.mem.out = pieces.flatten) ∧
      (¬ WriteFails w → pieces = (calls os).map LogCall.text) := by
  have hprinted : ∀ i c, Critical.Label.call i c ∈ ls.filterMap (logPrint topLevel) →
      topLevel ≤ c.level.toNat := by
    intro i c hmem
    obtain ⟨l, -, hl⟩ := List.mem_filterMap.mp hmem
    cases l with
    | tick j => cases hl
    | call j c' =>
        rw [logPrint] at hl
        split at hl
        · cases hl
        · cases hl
          omega
  obtain ⟨s, os, out, holder, hrun, hspec, h⟩ := run_linear (L := build.LOCK_T) (logBody_meets w)
    (start_linear (m := ⟨[], 0⟩) rfl) (ls.filterMap (logPrint topLevel))
  obtain ⟨pieces, hpieces, hout, hall⟩ := logSpec_run hspec
  refine ⟨s, os, pieces, hrun, run_calls hprinted (fun _ _ hop => by cases hop) hrun, hpieces,
    fun hfree => ?_, hall⟩
  cases holder with
  | none => exact h.holds.trans (hout.trans (List.nil_append _))
  | some i => exact absurd ((h.exclusion.inside_iff i).mpr rfl) (hfree i)

end ThrSocket
