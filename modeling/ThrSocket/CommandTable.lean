import Mathlib.Data.List.Nodup
import ThrSocket.DictLoad
import ThrSocket.DictOps
import ThrSocket.Handler

/-!
The dict of the commands. `regist_commands` builds it once; from then on every
worker searches it in `process_commond`, and no lock is taken for that. A search
in a dict that is being rehashed moves a bucket, so what has to be shown is that
the table of commands never is: its lookups write nothing, and find what a walk
along `commands` would find.
-/

namespace ThrSocket
open CString

def commandKeyCompare (k1 k2 : Bytes) : Bool := k1.length == k2.length && k1 == k2

def commandOpts : DictOpts Bytes Command where
  hash := dictGenericHash
  keyCompare := some commandKeyCompare

/-- The loop of `regist_commands` over the commands that are left. -/
def registCommands : List Command → Dict Bytes Command → Option (Dict Bytes Command)
  | [], d => some d
  | cmd :: cs, d => do
      let (d, _) ← dictAdd commandOpts d cmd.name cmd
      registCommands cs d

/-- `process_commond` with the dict `svr->commands` that it searches. -/
def Conn.processCommondIn (c : Conn) (commands : Dict Bytes Command) (db : Backend) (w : Writes) :
    Option (Dict Bytes Command × Conn × Int) :=
  match c.io.argv with
  | none => none
  | some ⟨_, []⟩ => none
  | some ⟨cap, name :: args⟩ =>
      if cstrTolower (view name) = ascii "quit" then
        some (commands, ({ c with io := { c.io with closeAfterWrite := true } }.replyObj
          (.str sharedOk) w).1, 0)
      else do
        let lower := cstrTolower name
        let c := c.setArgv ⟨cap, lower :: args⟩
        let (commands, cmdEntry) ← dictFind commandOpts commands lower
        match cmdEntry with
        | some e =>
            let cmd := e.value
            if cmd.argsErr (args.length + 1) then
              some (commands, c.replyStr (wrongArguments lower) w)
            else some (commands, (c.reply (cmd.call.reply db (lower :: args)) w).1, 0)
        | none => some (commands, c.replyStr (unknownCommand lower) w)

theorem commandKeyCompare_iff {k1 k2 : Bytes} : commandKeyCompare k1 k2 = true ↔ k1 = k2 := by
  rw [commandKeyCompare, Bool.and_eq_true, beq_iff_eq, beq_iff_eq]
  exact ⟨fun h => h.2, fun h => ⟨congrArg _ h, h⟩⟩

theorem commandOpts_compare {k1 k2 : Bytes} : commandOpts.compare k1 k2 = true ↔ k1 = k2 :=
  commandKeyCompare_iff

theorem commandOpts_lawful : commandOpts.Lawful where
  equiv := by
    simp only [commandOpts_compare]
    exact eq_equivalence
  hash h := congrArg _ (commandOpts_compare.mp h)
  dup k := commandOpts_compare.mpr rfl

section

variable {K V : Type} {o : DictOpts K V} {d d' : Dict K V}

theorem Rehashed.eq_of_idle (h : Rehashed o d d') (hidle : d.rehashidx = none) : d' = d := by
  cases h with
  | skipped _ => rfl
  | ended busy _ _ => cases hidle.symm.trans busy
  | moved busy _ _ _ _ _ => cases hidle.symm.trans busy

theorem scanBucket_le {entries : List (List (DictEntry K V))} {r i : Nat}
    (h : scanBucket entries r = some i) : r ≤ i := by
  obtain ⟨k, -, rfl⟩ := Option.map_eq_some_iff.mp h
  exact Nat.le_add_right r k

/-- A rehash that is under way is taken further. -/
theorem Rehashed.ne_of_busy (h : Rehashed o d d') (halone : d.iterators = 0)
    (hbusy : d.rehashidx ≠ none) : d' ≠ d := by
  intro heq
  have hidx : d'.rehashidx = d.rehashidx := congrArg Dict.rehashidx heq
  cases h with
  | skipped h =>
      cases h with
      | inl hnone => exact hbusy hnone
      | inr hiter => exact hiter halone
  | ended _ _ _ => exact hbusy hidx.symm
  | moved busy _ _ scan _ _ =>
      -- the scan starts at `rehashidx` and the bucket it stops at is left behind
      have hscan := scanBucket_le scan
      have hnext := Option.some.inj (hidx.trans busy)
      omega

variable [DecidableEq K]

/-- A search writes nothing. -/
theorem dictFind_idle (ho : o.Lawful) (h : DictInv o d) (hb : d.all.length < 2 ^ 32)
    (hidle : d.rehashidx = none) (key : K) :
    ∃ r, dictFind o d key = some (d, r) ∧
      ((∃ e, r = some e ∧ e ∈ d.all ∧ o.compare e.key key = true) ∨
        (r = none ∧ ¬ d.Holds o key)) := by
  obtain ⟨d', r, hfind, -, -, hr⟩ := dictFind_spec ho h hb key
  have hsame : d' = d := by
    cases dictFind_cases hfind with
    | inl h0 => exact h0.2.1
    | inr hre => exact hre.2.1.eq_of_idle hidle
  subst hsame
  exact ⟨r, hfind, hr⟩

/-- A search moves a bucket, or ends the rehash. -/
theorem dictFind_busy (ho : o.Lawful) (h : DictInv o d) (hb : d.all.length < 2 ^ 32)
    (halone : d.iterators = 0) (hbusy : d.rehashidx ≠ none) (key : K) :
    ∃ d' r, dictFind o d key = some (d', r) ∧ d' ≠ d := by
  obtain ⟨d', r, hfind, -, -, -⟩ := dictFind_spec ho h hb key
  refine ⟨d', r, hfind, ?_⟩
  cases dictFind_cases hfind with
  | inl h0 =>
      obtain ⟨i, hi⟩ := Option.ne_none_iff_exists'.mp hbusy
      exact absurd h0.1 (h.busy hi).1
  | inr hre => exact hre.2.1.ne_of_busy halone hbusy

/-- No search writes iff no rehash is under way. -/
theorem dictFind_writes_iff (ho : o.Lawful) (h : DictInv o d) (hb : d.all.length < 2 ^ 32)
    (halone : d.iterators = 0) [Inhabited K] :
    (∀ key, ∃ r, dictFind o d key = some (d, r)) ↔ d.rehashidx = none := by
  apply Iff.intro
  · intro hread
    apply Classical.byContradiction
    intro hbusy
    obtain ⟨d', r', hfind', hwritten⟩ := dictFind_busy ho h hb halone hbusy default
    obtain ⟨r, hfind⟩ := hread default
    cases hfind'.symm.trans hfind
    exact hwritten rfl
  · intro hidle key
    obtain ⟨r, hfind, -⟩ := dictFind_idle ho h hb hidle key
    exact ⟨r, hfind⟩

/-- While the table has a bucket for it, an entry is added without a rehash. -/
theorem dictAdd_idle {key : K} {val : V} {rs : Int} (hidle : d.rehashidx = none)
    (hlength : d.dt0.entries.length = d.dt0.size)
    (hroom : d.dt0.size = 0 ∨ d.dt0.size = dictInitSize ∧ d.dt0.used < dictInitSize)
    (hadd : dictAdd o d key val = some (d', rs)) :
    d'.rehashidx = none ∧ d'.dt0.size = dictInitSize := by
  obtain ⟨d₁, d₂, n, hre, hexp, hend⟩ := dictAdd_cases hadd
  obtain rfl := hre.eq_of_idle hidle
  have hexpanded : d₂.rehashidx = none ∧ d₂.dt0.size = dictInitSize := by
    rw [dictTryExpand, if_neg (by simp [Dict.rehashing, hidle])] at hexp
    cases hroom with
    | inl hzero =>
        rw [if_pos hzero] at hexp
        cases dictExpand_cases hexp with
        | refused hno => exact absurd hidle (hno.resolve_right (by omega))
        | first _ _ pow =>
            cases (show powSize dictInitSize = some dictInitSize from rfl).symm.trans pow
            exact ⟨hidle, rfl⟩
        | second _ nonempty _ _ =>
            exact absurd (List.length_eq_zero_iff.mp (hlength.trans hzero)) nonempty
    | inr hfree =>
        rw [if_neg (by rw [hfree.1]; decide), if_neg (by omega)] at hexp
        cases hexp
        exact ⟨hidle, hfree.1⟩
  cases hend with
  | inl hsame => exact hsame ▸ hexpanded
  | inr hpush =>
      cases hpush.2 with
      | first _ push =>
          obtain ⟨chain, -, rfl⟩ := DictTable.push_eq_some.mp push
          exact hexpanded
      | second busy _ => cases hexpanded.1.symm.trans busy

/-- An entry more than the table has buckets begins a rehash. -/
theorem dictAdd_full {key : K} {val : V} {rs : Int} (hidle : d.rehashidx = none)
    (hlength : d.dt0.entries.length = d.dt0.size) (hsize : d.dt0.size ≠ 0)
    (hfull : d.dt0.size ≤ d.dt0.used) (hsmall : d.dt0.used ≤ 2 ^ 29)
    (hadd : dictAdd o d key val = some (d', rs)) : d'.rehashidx = some 0 := by
  obtain ⟨d₁, d₂, n, hre, hexp, hend⟩ := dictAdd_cases hadd
  obtain rfl := hre.eq_of_idle hidle
  have hexpanded : d₂.rehashidx = some 0 := by
    rw [dictTryExpand, if_neg (by simp [Dict.rehashing, hidle]), if_neg hsize, if_pos hfull]
      at hexp
    cases dictExpand_cases hexp with
    | refused hno =>
        rw [u32_of_lt (by omega)] at hno
        exact absurd hidle (hno.resolve_right (by omega))
    | first _ empty _ =>
        rw [empty, List.length_nil] at hlength
        exact absurd hlength.symm hsize
    | second _ _ _ _ => rfl
  cases hend with
  | inl hsame => exact hsame ▸ hexpanded
  | inr hpush =>
      cases hpush.2 with
      | first idle _ => cases hexpanded.symm.trans idle
      | second _ _ => exact hexpanded

end

structure Registered (cs : List Command) (d : Dict Bytes Command) : Prop where
  inv : DictInv commandOpts d
  load : Load 1 1 d
  entries : (d.all.map fun e => (e.key, e.value)).Perm (cs.map fun cmd => (cmd.name, cmd))

namespace Registered

variable {cs : List Command} {d d' : Dict Bytes Command} {cmd : Command}

theorem length (h : Registered cs d) : d.all.length = cs.length := by
  have hlen := h.entries.length_eq
  rw [List.length_map, List.length_map] at hlen
  exact hlen

theorem mem (h : Registered cs d) {e : DictEntry Bytes Command} (he : e ∈ d.all) :
    e.value ∈ cs ∧ e.value.name = e.key := by
  obtain ⟨cmd, hcmd, heq⟩ := List.mem_map.mp
    (h.entries.mem_iff.mp (List.mem_map.mpr ⟨e, he, rfl⟩))
  obtain ⟨hname, rfl⟩ := Prod.mk.inj heq
  exact ⟨hcmd, hname⟩

theorem holds (h : Registered cs d) (hmem : cmd ∈ cs) :
    ∃ e ∈ d.all, e.key = cmd.name ∧ e.value = cmd := by
  obtain ⟨e, he, heq⟩ := List.mem_map.mp
    (h.entries.mem_iff.mpr (List.mem_map.mpr ⟨cmd, hmem, rfl⟩))
  obtain ⟨hkey, hvalue⟩ := Prod.mk.inj heq
  exact ⟨e, he, hkey, hvalue⟩

/-- What a search in the dict finds is what a walk along the commands finds. -/
theorem found (h : Registered cs d) (hnames : (cs.map Command.name).Nodup) {key : Bytes}
    {r : Option (DictEntry Bytes Command)}
    (hr : (∃ e, r = some e ∧ e ∈ d.all ∧ commandOpts.compare e.key key = true) ∨
      (r = none ∧ ¬ d.Holds commandOpts key)) :
    r.map (·.value) = cs.find? fun cmd => cmd.name = key := by
  cases hr with
  | inl hsome =>
      obtain ⟨e, rfl, he, hkey⟩ := hsome
      obtain ⟨hmem, hname⟩ := h.mem he
      have heq : e.value.name = key := hname.trans (commandOpts_compare.mp hkey)
      cases hfind : cs.find? fun cmd => cmd.name = key with
      | none =>
          have hno := List.find?_eq_none.mp hfind e.value hmem
          exact absurd (decide_eq_true heq) hno
      | some cmd =>
          have hcmd : cmd.name = key := by simpa using List.find?_some hfind
          have hsame := List.inj_on_of_nodup_map hnames (List.mem_of_find?_eq_some hfind) hmem
            (hcmd.trans heq.symm)
          rw [hsame, Option.map_some]
  | inr hnone =>
      obtain ⟨rfl, hno⟩ := hnone
      rw [Option.map_none, eq_comm, List.find?_eq_none]
      intro cmd hmem hcmd
      obtain ⟨e, he, hkey, -⟩ := h.holds hmem
      exact hno ⟨e, he, commandOpts_compare.mpr (hkey.trans (of_decide_eq_true hcmd))⟩

theorem perm (h : Registered cs d) {cs' : List Command} (hperm : cs.Perm cs') :
    Registered cs' d where
  inv := h.inv
  load := h.load
  entries := h.entries.trans (hperm.map _)

/-- A command with a name of its own is added. -/
theorem add (h : Registered cs d) (hroom : cs.length ≤ 2 ^ 29)
    (hnew : cmd.name ∉ cs.map Command.name) :
    ∃ d' rs, dictAdd commandOpts d cmd.name cmd = some (d', rs) ∧ Registered (cmd :: cs) d' := by
  obtain ⟨d', rs, hadd, hinv, hres⟩ :=
    dictAdd_spec commandOpts_lawful h.inv (h.length ▸ hroom) cmd.name cmd
  refine ⟨d', rs, hadd, hinv, (carried_add h.load (h.length ▸ hroom) hadd).load, ?_⟩
  cases hres with
  | present holds _ =>
      obtain ⟨e, he, hkey⟩ := holds
      obtain ⟨hmem, hname⟩ := h.mem he
      have heq : e.value.name = cmd.name := hname.trans (commandOpts_compare.mp hkey)
      exact absurd (List.mem_map.mpr ⟨e.value, hmem, heq⟩) hnew
  | inserted _ e key_eq value_eq _ perm =>
      refine (perm.map _).trans ?_
      rw [List.map_cons, List.map_cons, key_eq, value_eq]
      exact h.entries.cons _

/-- Up to the size of the first table there is nothing to rehash. -/
theorem registCommands_idle {more : List Command} (h : Registered cs d)
    (hidle : d.rehashidx = none) (hsize : d.dt0.size = 0 ∨ d.dt0.size = dictInitSize)
    (hnames : ((more.reverse ++ cs).map Command.name).Nodup)
    (hroom : more.length + cs.length ≤ dictInitSize) :
    ∃ d', registCommands more d = some d' ∧ Registered (more.reverse ++ cs) d' ∧
      d'.rehashidx = none ∧ (d'.dt0.size = 0 ∨ d'.dt0.size = dictInitSize) := by
  induction more generalizing cs d with
  | nil => exact ⟨d, rfl, h, hidle, hsize⟩
  | cons cmd more ih =>
      rw [List.reverse_cons, List.append_assoc, List.singleton_append] at hnames ⊢
      rw [List.length_cons] at hroom
      have hlen := d.length_all
      have hused := h.inv.dt0.used
      have hnew : cmd.name ∉ cs.map Command.name := by
        rw [List.map_append, List.nodup_append] at hnames
        exact (List.nodup_cons.mp hnames.2.1).1
      have hfit : dictInitSize = 8 := rfl
      obtain ⟨d₁, rs, hadd, h₁⟩ := h.add (by omega) hnew
      obtain ⟨hidle₁, hsize₁⟩ := dictAdd_idle hidle h.inv.dt0.length
        (hsize.imp_right fun hs => ⟨hs, by rw [h.length] at hlen; omega⟩) hadd
      obtain ⟨d', hrest, h', hidle'⟩ := ih h₁ hidle₁ (.inr hsize₁) hnames
        (by rw [List.length_cons]; omega)
      refine ⟨d', ?_, h', hidle'⟩
      simp only [registCommands, hadd, Option.bind_eq_bind, Option.bind_some]
      exact hrest

end Registered

theorem registered_create : Registered [] dictCreate where
  inv := dictInv_create commandOpts
  load := load_create
  entries := .refl _

theorem registCommands_small {cs : List Command} (hnames : (cs.map Command.name).Nodup)
    (hroom : cs.length ≤ dictInitSize) :
    ∃ d, registCommands cs dictCreate = some d ∧ Registered cs d ∧ d.rehashidx = none ∧
      (d.dt0.size = 0 ∨ d.dt0.size = dictInitSize) := by
  have hnodup : ((cs.reverse ++ []).map Command.name).Nodup := by
    rw [List.append_nil, List.map_reverse]
    exact List.nodup_reverse.mpr hnames
  obtain ⟨d, hd, h, hidle, hsize⟩ :=
    registered_create.registCommands_idle rfl (.inl rfl) hnodup (by simpa using hroom)
  rw [List.append_nil] at h
  exact ⟨d, hd, h.perm (List.reverse_perm cs), hidle, hsize⟩

theorem Registered.registCommands {cs more : List Command} {d : Dict Bytes Command}
    (h : Registered cs d) (hnames : ((more.reverse ++ cs).map Command.name).Nodup)
    (hroom : more.length + cs.length ≤ 2 ^ 29) :
    ∃ d', ThrSocket.registCommands more d = some d' ∧ Registered (more.reverse ++ cs) d' := by
  induction more generalizing cs d with
  | nil => exact ⟨d, rfl, h⟩
  | cons cmd more ih =>
      rw [List.reverse_cons, List.append_assoc, List.singleton_append] at hnames ⊢
      rw [List.length_cons] at hroom
      have hnew : cmd.name ∉ cs.map Command.name := by
        rw [List.map_append, List.nodup_append] at hnames
        exact (List.nodup_cons.mp hnames.2.1).1
      obtain ⟨d₁, rs, hadd, h₁⟩ := h.add (by omega) hnew
      obtain ⟨d', hrest, h'⟩ := ih h₁ hnames (by rw [List.length_cons]; omega)
      refine ⟨d', ?_, h'⟩
      simp only [ThrSocket.registCommands, hadd, Option.bind_eq_bind, Option.bind_some]
      exact hrest

theorem registCommands_registered {cs : List Command} (hnames : (cs.map Command.name).Nodup)
    (hlen : cs.length ≤ 2 ^ 29) :
    ∃ d, registCommands cs dictCreate = some d ∧ Registered cs d := by
  have hnodup : ((cs.reverse ++ []).map Command.name).Nodup := by
    rw [List.append_nil, List.map_reverse]
    exact List.nodup_reverse.mpr hnames
  obtain ⟨d, hd, h⟩ := registered_create.registCommands hnodup (by simpa using hlen)
  rw [List.append_nil] at h
  exact ⟨d, hd, h.perm (List.reverse_perm cs)⟩

theorem registCommands_append (cs cs' : List Command) (d : Dict Bytes Command) :
    registCommands (cs ++ cs') d = (registCommands cs d).bind (registCommands cs') := by
  induction cs generalizing d with
  | nil => rfl
  | cons cmd cs ih =>
      rw [List.cons_append, registCommands, registCommands]
      cases dictAdd commandOpts d cmd.name cmd with
      | none => rfl
      | some r => exact ih r.1

/-- The ninth command begins the rehash. -/
theorem registCommands_nine {cs : List Command} {d : Dict Bytes Command}
    (hnames : (cs.map Command.name).Nodup) (hlen : cs.length = dictInitSize + 1)
    (hd : registCommands cs dictCreate = some d) : d.rehashidx = some 0 := by
  have hfit : dictInitSize = 8 := rfl
  obtain ⟨cs, cmd, rfl⟩ : ∃ cs' cmd, cs = cs' ++ [cmd] := by
    refine (List.eq_nil_or_concat' cs).resolve_left ?_
    intro hnil
    rw [hnil] at hlen
    cases hlen
  rw [List.length_append, List.length_singleton] at hlen
  rw [List.map_append, List.nodup_append] at hnames
  obtain ⟨d₈, hd₈, h, hidle, -⟩ := registCommands_small hnames.1 (by omega)
  have hnew : cmd.name ∉ cs.map Command.name := fun hmem =>
    hnames.2.2 cmd.name hmem cmd.name (List.mem_singleton_self _) rfl
  obtain ⟨d', rs, hadd, -⟩ := h.add (by omega) hnew
  have hsame : d' = d := by
    rw [registCommands_append, hd₈, Option.bind_some] at hd
    simp only [registCommands, hadd, Option.bind_eq_bind, Option.bind_some] at hd
    exact Option.some.inj hd
  subst hsame
  have hcount := h.length
  have hused := h.inv.dt0.used
  rw [h.inv.all_of_idle hidle] at hcount
  have hne : d₈.dt0.size ≠ 0 := by
    intro hzero
    have hnil := congrArg List.length (h.inv.all_of_empty hzero)
    rw [h.length, List.length_nil] at hnil
    omega
  have hsize : d₈.dt0.size = dictInitSize := by
    obtain ⟨d₈', hd₈', -, -, hsize⟩ := registCommands_small hnames.1 (by omega)
    cases hd₈.symm.trans hd₈'
    exact hsize.resolve_left hne
  exact dictAdd_full hidle h.inv.dt0.length hne (by omega) (by omega) hadd

/-- A lookup in the table of commands writes nothing, which is what lets the workers search it
without a lock, as long as the dict is not being rehashed: with up to eight commands it is not,
with a ninth it is, and then the lookup of any key changes the dict. -/
theorem command_lookups_write_iff {cs : List Command} (hnames : (cs.map Command.name).Nodup)
    (hlen : cs.length ≤ 2 ^ 29) :
    ∃ d, registCommands cs dictCreate = some d ∧
      ((∀ key, ∃ r, dictFind commandOpts d key = some (d, r)) ↔ d.rehashidx = none) ∧
      (cs.length ≤ dictInitSize → d.rehashidx = none) ∧
      (cs.length = dictInitSize + 1 → d.rehashidx = some 0) ∧
      (d.rehashidx ≠ none →
        ∀ key, ∃ d' r, dictFind commandOpts d key = some (d', r) ∧ d' ≠ d) := by
  obtain ⟨d, hd, h⟩ := registCommands_registered hnames hlen
  have hsmall : d.all.length < 2 ^ 32 := by
    rw [h.length]
    omega
  refine ⟨d, hd, dictFind_writes_iff commandOpts_lawful h.inv hsmall h.load.alone, ?_,
    fun hnine => registCommands_nine hnames hnine hd,
    fun hbusy => dictFind_busy commandOpts_lawful h.inv hsmall h.load.alone hbusy⟩
  intro hroom
  obtain ⟨d', hd', -, hidle, -⟩ := registCommands_small hnames hroom
  cases hd.symm.trans hd'
  exact hidle

def nineCommands : List Command := (List.range 9).map fun k => ⟨[k.toUInt8], .pong, .eq, 1⟩

theorem command_lookups_write_iff_nine :
    ∃ d, registCommands nineCommands dictCreate = some d ∧ d.rehashidx = some 0 ∧
      ∀ key, ∃ d' r, dictFind commandOpts d key = some (d', r) ∧ d' ≠ d := by
  obtain ⟨d, hd, -, -, hnine, hbusy⟩ :=
    @command_lookups_write_iff nineCommands (by decide) (by decide)
  have hidx : d.rehashidx = some 0 := hnine rfl
  exact ⟨d, hd, hidx, hbusy (by rw [hidx]; exact Option.some_ne_none 0)⟩

/-- `process_commond` on the dict that `regist_commands` has built leaves the dict as it is and
does what it does on `commands`. -/
theorem commands_searched_shared :
    ∃ d, registCommands commands dictCreate = some d ∧
      ∀ (c : Conn) (db : Backend) (w : Writes),
        c.processCommondIn d db w = (c.processCommond db w).map fun r => (d, r) := by
  have hnames : (commands.map Command.name).Nodup := by decide
  obtain ⟨d, hd, h, hidle, -⟩ := registCommands_small hnames (by decide)
  refine ⟨d, hd, fun c db w => ?_⟩
  have hlen : d.all.length = 3 := h.length
  rw [Conn.processCommondIn, Conn.processCommond]
  cases hargv : c.io.argv with
  | none => rfl
  | some argv =>
      obtain ⟨cap, objs⟩ := argv
      cases objs with
      | nil => rfl
      | cons name args =>
          obtain ⟨r, hfind, hr⟩ :=
            dictFind_idle commandOpts_lawful h.inv (by omega) hidle (cstrTolower name)
          have hfound := h.found hnames hr
          simp only [hfind, ← hfound, Option.bind_eq_bind, Option.bind_some]
          split_ifs with hquit
          · rfl
          · cases r with
            | none => rfl
            | some e =>
                simp only [Option.map_some]
                split_ifs with hargs
                · rfl
                · rfl

end ThrSocket
