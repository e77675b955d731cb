import ThrSocket.HandlerTrace

/-!
The arity table against what the handlers read. Each handler reads `io->argv`
below `io->argc` if it is called with the arguments its entry asks for, but
`get_command` reads one argument more than its entry asks for.
-/

namespace ThrSocket

/-- A read of `io->argv[i]` has `i < io->argc`. -/
def Access.ArgvBelow (argc : Nat) : Access → Prop
  | .argv i => i < argc
  | _ => True

def IndexFound (env : HandlerEnv) (ctx : DbCtx) (argv : List Bytes) : Prop :=
  ∃ ctx' calls tab name, openTable env.mysql ctx argv = some (ctx', calls, some tab) ∧
    argv[4]? = some name ∧ 0 ≤ thrsOpenIndex (env.keys tab) env.idxnum₀ name ∧
    (thrsOpenIndex (env.keys tab) env.idxnum₀ name).toNat < (env.keys tab).length

namespace Handler

open Traced

variable {argv : List Bytes} {env : HandlerEnv} {ctx : DbCtx} {tab : Table}

theorem argvBelow_outside (argc : Nat) : Outside (Access.ArgvBelow argc) :=
  ⟨fun _ => trivial, trivial, fun _ => trivial, fun _ _ _ => trivial, trivial, fun _ => trivial⟩

theorem argvBelow_insertCommand (h : 5 ≤ argv.length) :
    All (Access.ArgvBelow argv.length) (insertCommand env ctx argv) := by
  have hargv : ∀ i < argv.length, Access.ArgvBelow argv.length (.argv i) := fun i hi => hi
  refine all_bind (all_openTable (hargv 1 (by omega)) (hargv 2 (by omega)) fun _ _ => trivial)
    fun r _ => ?_
  obtain ⟨ctx', tab⟩ := r
  cases tab with
  | none => exact all_bind (all_emit trivial) fun _ _ => all_pure _
  | some tab =>
      refine all_bind (all_readArgv (hargv 3 (by omega))) fun fieldstr _ => ?_
      refine all_bind (all_thrsParseFields (fun _ _ => trivial) (fun _ => trivial) _ _ _)
        fun p _ => ?_
      exact all_insertParsed (argvBelow_outside _) (fun _ _ => trivial) (by omega) hargv
        fun _ _ _ => trivial

theorem argvBelow_getCommand (h : 6 ≤ argv.length)
    (hkey : argv.length = 6 → ¬ IndexFound env ctx argv) :
    All (Access.ArgvBelow argv.length) (getCommand env ctx argv) := by
  have hargv : ∀ i < 6, Access.ArgvBelow argv.length (.argv i) := fun i hi =>
    Nat.lt_of_lt_of_le hi h
  refine all_bind (all_openTable (hargv 1 (by omega)) (hargv 2 (by omega)) fun _ _ => trivial)
    fun r hr => ?_
  obtain ⟨ctx', tab⟩ := r
  obtain ⟨calls, hopen⟩ := openTable_result_iff.mp hr
  cases tab with
  | none => exact all_bind (all_emit trivial) fun _ _ => all_pure _
  | some tab =>
      refine all_bind (all_readArgv (hargv 4 (by omega))) fun name hname => ?_
      rw [readArgv_result] at hname
      simp only
      split
      · exact all_bind (all_emit trivial) fun _ _ => all_pure _
      · rename_i hidx
        refine all_getLocked (argvBelow_outside _) (fun _ _ => trivial) (fun _ => trivial)
          (fun _ _ => trivial) (fun _ _ => trivial) fun hlt => ⟨hargv 3 (by omega), ?_⟩
        by_contra hlen
        have h6 : argv.length = 6 := by
          rw [Access.ArgvBelow] at hlen
          omega
        exact hkey h6 ⟨ctx', calls, tab, name, hopen, hname, by omega, hlt⟩

/-- With six arguments the key of the request lies behind them. -/
theorem not_argvBelow_getCommand (hlen : argv.length = 6) (hfound : IndexFound env ctx argv) :
    ¬ All (Access.ArgvBelow argv.length) (getCommand env ctx argv) := by
  obtain ⟨ctx', calls, tab, name, hopen, hname, hidx, hlt⟩ := hfound
  have hread : Access.argv 6 ∈ (getCommand env ctx argv).events := by
    refine mem_bind_events.mpr (.inr ⟨(ctx', some tab), ?_, ?_⟩)
    · exact openTable_result_iff.mpr ⟨calls, hopen⟩
    · refine mem_bind_events.mpr (.inr ⟨name, by rw [readArgv_result, hname], ?_⟩)
      simp only
      rw [if_neg (by omega)]
      refine mem_bind_events.mpr (.inr ⟨(), rfl, ?_⟩)
      rw [if_pos hlt]
      exact mem_bind_events.mpr (.inl List.mem_cons_self)
  intro hall
  have hbelow : 6 < argv.length := hall _ hread
  omega

end Handler

/-- For every entry of the table, every argument vector it admits and every behaviour
of the data base. -/
theorem arity_protects_iff {cmd : Command} (hcmd : cmd ∈ commands) {argv : List Bytes}
    (hargs : cmd.argsErr argv.length = false) (env : HandlerEnv) (ctx : DbCtx) :
    (cmd.call.run env ctx argv).All (Access.ArgvBelow argv.length) ↔
      ¬ (cmd.call = .getCommand ∧ argv.length = 6 ∧ IndexFound env ctx argv) := by
  simp only [commands, List.mem_cons, List.not_mem_nil, or_false] at hcmd
  rcases hcmd with rfl | rfl | rfl
  · refine iff_of_true ?_ (by simp)
    exact Traced.all_bind (Traced.all_emit trivial) fun _ _ => Traced.all_pure _
  · have hlen : 5 ≤ argv.length := by
      simp only [Command.argsErr, Bool.and_eq_false_imp] at hargs
      simpa using hargs
    exact iff_of_true (Handler.argvBelow_insertCommand hlen) (by simp)
  · have hlen : 6 ≤ argv.length := by
      simp only [Command.argsErr, Bool.and_eq_false_imp] at hargs
      simpa using hargs
    constructor
    · rintro hall ⟨-, h6, hfound⟩
      exact Handler.not_argvBelow_getCommand h6 hfound hall
    · intro hnot
      exact Handler.argvBelow_getCommand hlen fun h6 hfound => hnot ⟨rfl, h6, hfound⟩

def oneColumn : Table := ⟨[ascii "a"], false⟩

def oneColumnEnv (lock : Bool) (rs₀ : Int) : HandlerEnv where
  mysql := ⟨fun _ _ => some oneColumn, lock, fun _ => ⟨0, 0⟩⟩
  keys _ := [ascii "PRIMARY"]
  indexNextSame := 0
  rs₀ := rs₀
  idxnum₀ := 0

def getEntry : Command := ⟨ascii "get", .getCommand, .ge, 6⟩

theorem getEntry_mem : getEntry ∈ commands := by simp [commands, getEntry]

/-- With the key as a seventh argument nothing is read behind the arguments. -/
theorem arity_protects_seven :
    (getEntry.call.run (oneColumnEnv true 0) {} [ascii "get", ascii "db", ascii "t", ascii "a",
      ascii "0", ascii "=", ascii "1"]).All (Access.ArgvBelow 7) :=
  (arity_protects_iff getEntry_mem (by decide) (oneColumnEnv true 0) {}).mpr fun h => by
    have hlen := h.2.1
    simp at hlen

/-- Six arguments are let through, and the key is read from `argv[6]`. -/
theorem arity_reads_behind :
    getEntry ∈ commands ∧ getEntry.argsErr 6 = false ∧
      Access.argv 6 ∈ (getEntry.call.run (oneColumnEnv true 0) {} [ascii "get", ascii "db",
        ascii "t", ascii "a", ascii "0", ascii "="]).events ∧
      ¬ (getEntry.call.run (oneColumnEnv true 0) {} [ascii "get", ascii "db", ascii "t",
        ascii "a", ascii "0", ascii "="]).All (Access.ArgvBelow 6) := by
  have hread : Access.argv 6 ∈ (getEntry.call.run (oneColumnEnv true 0) {} [ascii "get",
      ascii "db", ascii "t", ascii "a", ascii "0", ascii "="]).events := by
    decide +kernel
  refine ⟨getEntry_mem, rfl, hread, fun hall => ?_⟩
  have hbelow : 6 < 6 := hall _ hread
  omega

end ThrSocket
