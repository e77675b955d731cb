import ThrSocket.Server

/-!
What `process_commond` answers when it calls no command: one error line, or not.
The name of the command is copied into the answer as the client has sent it, and
`snprintf` cuts the answer off, its line end included.
-/

namespace ThrSocket
open CString

/-- The answer on the paths that call no command, before `strlen` is taken of it. -/
def errorText (name : Bytes) (argc : Nat) : Option Bytes :=
  if cstrTolower (view name) = ascii "quit" then none
  else
    match commands.find? fun cmd => cmd.name = cstrTolower name with
    | some cmd => if cmd.argsErr argc then some (wrongArguments (cstrTolower name)) else none
    | none => some (unknownCommand (cstrTolower name))

def CrlfAt (bs : Bytes) (k : Nat) : Prop := bs[k]? = some 13 ∧ bs[k + 1]? = some 10

structure OneErrorLine (bs : Bytes) : Prop where
  err : ascii "-ERR " <+: bs
  terminated : CrlfAt bs (bs.length - 2)
  single : ∀ k, CrlfAt bs k → k + 2 = bs.length

/-- With `before` bytes in front, the name and the end of the line fit into the 1023
bytes and the name has no CRLF, or the text is cut off just behind its first one. -/
def FitsOneLine (before : Nat) (name : Bytes) : Prop :=
  (before + name.length + 3 ≤ 1023 ∧ ∀ k, ¬ CrlfAt name k) ∨
    (CrlfAt name (1021 - before) ∧ ∀ k < 1021 - before, ¬ CrlfAt name k)

theorem processCommond_of_errorText {c : Conn} {cap : Nat} {name buf : Bytes} {args : List Bytes}
    (db : Backend) (w : Writes) (hargv : c.io.argv = some ⟨cap, name :: args⟩)
    (htext : errorText name (args.length + 1) = some buf) :
    c.processCommond db w =
      some (((c.setArgv ⟨cap, cstrTolower name :: args⟩).append (view buf)).replyInner w) := by
  rw [errorText] at htext
  rw [Conn.processCommond, hargv]
  simp only
  by_cases hquit : cstrTolower (view name) = ascii "quit"
  · rw [if_pos hquit] at htext
    cases htext
  · rw [if_neg hquit] at htext ⊢
    cases hfind : commands.find? fun cmd => cmd.name = cstrTolower name with
    | some cmd =>
        rw [hfind] at htext
        obtain ⟨hargs, htext⟩ := Option.ite_none_right_eq_some.mp htext
        cases htext
        exact (if_pos hargs).trans rfl
    | none =>
        rw [hfind] at htext
        cases htext
        rfl

theorem tolower_eq_iff {c : UInt8} (b : UInt8) (hb : b < 65) : tolower c = b ↔ c = b := by
  rw [tolower]
  split
  · rename_i h
    constructor
    · rintro rfl
      exfalso
      have := h.1
      have := h.2
      simp only [UInt8.le_iff_toNat_le, UInt8.lt_iff_toNat_lt, UInt8.toNat_add] at *
      simp only [UInt8.reduceToNat] at *
      omega
    · rintro rfl
      exact absurd h.1 (by simpa using hb)
  · rfl

theorem view_cstrTolower (name : Bytes) : view (cstrTolower name) = cstrTolower (view name) := by
  unfold view cstrTolower
  induction name with
  | nil => rfl
  | cons c cs ih =>
      rw [List.map_cons, List.takeWhile_cons, List.takeWhile_cons, ih]
      by_cases hc : c = 0
      · subst hc
        rfl
      · have hlow : tolower c ≠ 0 := fun h => hc ((tolower_eq_iff 0 (by decide)).mp h)
        simp [hc, hlow]

theorem crlfAt_cstrTolower (name : Bytes) (k : Nat) :
    CrlfAt (cstrTolower name) k ↔ CrlfAt name k := by
  have hbyte (i : Nat) (b : UInt8) (hb : b < 65) :
      (cstrTolower name)[i]? = some b ↔ name[i]? = some b := by
    rw [cstrTolower, List.getElem?_map]
    cases name[i]? with
    | none => rfl
    | some c => simp [tolower_eq_iff b hb]
  rw [CrlfAt, CrlfAt, hbyte k 13 (by decide), hbyte (k + 1) 10 (by decide)]

theorem fitsOneLine_cstrTolower (before : Nat) (name : Bytes) :
    FitsOneLine before (cstrTolower name) ↔ FitsOneLine before name := by
  have hlen : (cstrTolower name).length = name.length := List.length_map _
  simp only [FitsOneLine, crlfAt_cstrTolower, hlen]

theorem crlfAt_append_end (name : Bytes) (j : Nat) :
    CrlfAt (name ++ [39, 13, 10]) j ↔ CrlfAt name j ∨ j = name.length + 1 := by
  unfold CrlfAt
  by_cases hlt : j + 1 < name.length
  · rw [List.getElem?_append_left (by omega), List.getElem?_append_left hlt]
    have : j ≠ name.length + 1 := by omega
    simp [this]
  · have hnone : name[j + 1]? = none := List.getElem?_eq_none (by omega)
    by_cases hj : j < name.length
    · have hlast : j + 1 = name.length := by omega
      have : j ≠ name.length + 1 := by omega
      simp [hlast, this]
    · obtain ⟨i, rfl⟩ : ∃ i, j = name.length + i := ⟨j - name.length, by omega⟩
      rw [List.getElem?_append_right (by omega), List.getElem?_append_right (by omega), hnone,
        Nat.add_sub_cancel_left, show name.length + i + 1 - name.length = i + 1 by omega]
      match i with
      | 0 => simp
      | 1 => simp
      | 2 => simp
      | i + 3 => simp

/-- The text ends in a CRLF, and its others are those of the name. -/
theorem crlfAt_text {before name : Bytes} (hcr : 13 ∉ before) (k : Nat) :
    CrlfAt (before ++ name ++ [39, 13, 10]) k ↔
      (∃ j, k = before.length + j ∧ CrlfAt name j) ∨ k = before.length + name.length + 1 := by
  rw [List.append_assoc]
  by_cases hk : k < before.length
  · constructor
    · intro h
      rw [CrlfAt, List.getElem?_append_left hk] at h
      exact absurd (List.mem_of_getElem? h.1) hcr
    · rintro (⟨j, rfl, -⟩ | rfl) <;> omega
  · obtain ⟨j, rfl⟩ : ∃ j, k = before.length + j := ⟨k - before.length, by omega⟩
    have hshift (i : Nat) : (before ++ (name ++ [39, 13, 10]))[before.length + i]? =
        (name ++ [39, 13, 10])[i]? := by
      rw [List.getElem?_append_right (by omega), Nat.add_sub_cancel_left]
    rw [CrlfAt, hshift j, Nat.add_assoc, hshift (j + 1)]
    refine (crlfAt_append_end name j).trans (or_congr ⟨fun h => ⟨j, rfl, h⟩, ?_⟩ (by omega))
    rintro ⟨i, hi, h⟩
    rwa [Nat.add_left_cancel hi]

theorem crlfAt_take {bs : Bytes} {n k : Nat} : CrlfAt (bs.take n) k ↔ k + 1 < n ∧ CrlfAt bs k := by
  unfold CrlfAt
  by_cases hk : k + 1 < n
  · rw [List.getElem?_take_of_lt (by omega), List.getElem?_take_of_lt hk]
    simp [hk]
  · rw [List.getElem?_take_eq_none (show n ≤ k + 1 by omega)]
    simp [hk]

/-- `snprintf` of a text around the name is one error line in exactly these cases. -/
theorem oneErrorLine_take_iff {before name : Bytes} (herr : ascii "-ERR " <+: before)
    (hcr : 13 ∉ before) (hshort : before.length ≤ 1000) :
    OneErrorLine ((before ++ name ++ [39, 13, 10]).take 1023) ↔
      FitsOneLine before.length name := by
  have hprefix : ascii "-ERR " <+: (before ++ name ++ [39, 13, 10]).take 1023 := by
    have h5 : (ascii "-ERR ").length ≤ 1023 := by decide
    rw [List.prefix_take_iff]
    exact ⟨herr.trans (by simp), h5⟩
  have hlen : (before ++ name ++ [39, 13, 10]).length = before.length + name.length + 3 := by
    simp
    omega
  by_cases hfits : before.length + name.length + 3 ≤ 1023
  · rw [List.take_of_length_le (by rw [hlen]; exact hfits)] at hprefix ⊢
    constructor
    · intro h
      refine .inl ⟨hfits, fun j hj => ?_⟩
      have hat := h.single (before.length + j) ((crlfAt_text hcr _).mpr (.inl ⟨j, rfl, hj⟩))
      have : name[j + 1]? = some 10 := hj.2
      have hlt := (List.getElem?_eq_some_iff.mp this).1
      rw [hlen] at hat
      omega
    · rintro (⟨-, hnone⟩ | ⟨hat, -⟩)
      · refine ⟨ hprefix, ?_, fun k hk => ?_⟩
        · rw [crlfAt_text hcr, hlen]
          exact .inr (by omega)
        · rcases (crlfAt_text hcr k).mp hk with ⟨j, -, hj⟩ | rfl
          · exact absurd hj (hnone j)
          · rw [hlen]
      · have hlt := (List.getElem?_eq_some_iff.mp hat.2).1
        omega
  · have hcut : ((before ++ name ++ [39, 13, 10]).take 1023).length = 1023 := by
      rw [List.length_take, hlen]
      omega
    constructor
    · intro h
      have hend := h.terminated
      rw [hcut, crlfAt_take, crlfAt_text hcr] at hend
      obtain ⟨-, ⟨j, hj, hat⟩ | hend⟩ := hend
      · have hj : j = 1021 - before.length := by omega
        subst hj
        refine .inr ⟨hat, fun k hk hk' => ?_⟩
        have := h.single (before.length + k)
          (crlfAt_take.mpr ⟨by omega, (crlfAt_text hcr _).mpr (.inl ⟨k, rfl, hk'⟩)⟩)
        omega
      · omega
    · rintro (⟨h, -⟩ | ⟨hat, hnone⟩)
      · exact absurd h hfits
      · refine ⟨ hprefix, ?_, fun k hk => ?_⟩
        · rw [hcut, crlfAt_take, crlfAt_text hcr]
          exact ⟨by omega, .inl ⟨_, by omega, hat⟩⟩
        · rw [hcut]
          obtain ⟨hk1, hk2⟩ := crlfAt_take.mp hk
          rcases (crlfAt_text hcr k).mp hk2 with ⟨j, rfl, hj⟩ | rfl
          · have : ¬ j < 1021 - before.length := fun hlt => hnone j hlt hj
            omega
          · omega

theorem view_formatName {before after : Bytes} (name : Bytes) (hbefore : 0 ∉ before)
    (hafter : 0 ∉ after) :
    view (formatName before name after) = (before ++ view name ++ after).take 1023 := by
  refine view_eq_self fun h => ?_
  have hmem := List.mem_of_mem_take h
  simp only [List.mem_append, hbefore, hafter, zero_notMem_view, or_self] at hmem

theorem fitsOneLine_of_no_cr {before : Nat} {name : Bytes} (hlen : before + name.length + 3 ≤ 1023)
    (hcr : 13 ∉ name) : FitsOneLine before name :=
  .inl ⟨hlen, fun _ h => hcr (List.mem_of_getElem? h.1)⟩

theorem oneErrorLine_unknownCommand (name : Bytes) :
    OneErrorLine (view (unknownCommand name)) ↔ FitsOneLine 22 (view name) := by
  have hcr : 13 ∉ ascii "-ERR unknown command '" := by decide
  rw [unknownCommand, view_formatName name (by decide) (by decide)]
  exact oneErrorLine_take_iff (by decide) hcr (by decide)

theorem oneErrorLine_wrongArguments (name : Bytes) :
    OneErrorLine (view (wrongArguments name)) ↔ FitsOneLine 41 (view name) := by
  have hcr : 13 ∉ ascii "-ERR wrong number arguments for command '" := by decide
  rw [wrongArguments, view_formatName name (by decide) (by decide)]
  exact oneErrorLine_take_iff (by decide) hcr (by decide)

/-- The names in the table always fit. -/
theorem command_name_fits {cmd : Command} (h : cmd ∈ commands) {before : Nat}
    (hbefore : before ≤ 41) : FitsOneLine before (view cmd.name) := by
  have hname : (view cmd.name).length ≤ 6 ∧ 13 ∉ view cmd.name := by
    simp only [commands, List.mem_cons, List.not_mem_nil, or_false] at h
    rcases h with rfl | rfl | rfl <;> decide
  exact fitsOneLine_of_no_cr (by omega) hname.2

theorem oneErrorLine_errorText_iff {name buf : Bytes} {argc : Nat}
    (htext : errorText name argc = some buf) :
    OneErrorLine (view buf) ↔ FitsOneLine 22 (view name) := by
  have hlower : FitsOneLine 22 (view (cstrTolower name)) ↔ FitsOneLine 22 (view name) := by
    rw [view_cstrTolower, fitsOneLine_cstrTolower]
  rw [errorText] at htext
  split at htext
  · cases htext
  · split at htext
    · rename_i cmd hfind
      rw [Option.ite_none_right_eq_some] at htext
      cases htext.2
      have hname : cmd.name = cstrTolower name := by simpa using List.find?_some hfind
      have hmem := List.mem_of_find?_eq_some hfind
      rw [oneErrorLine_wrongArguments, ← hlower, ← hname]
      exact iff_of_true (command_name_fits hmem (by omega)) (command_name_fits hmem (by omega))
    · cases htext
      rw [oneErrorLine_unknownCommand, hlower]

/-- For every command that is not called, the bytes appended to the reply buffer are
one error line if and only if the name in it fits. -/
theorem processCommond_oneErrorLine_iff {c : Conn} {cap : Nat} {name buf : Bytes}
    {args : List Bytes} (db : Backend) (w : Writes) (hargv : c.io.argv = some ⟨cap, name :: args⟩)
    (htext : errorText name (args.length + 1) = some buf) :
    c.processCommond db w =
        some (((c.setArgv ⟨cap, cstrTolower name :: args⟩).append (view buf)).replyInner w) ∧
      (OneErrorLine (view buf) ↔ FitsOneLine 22 (view name)) :=
  ⟨processCommond_of_errorText db w hargv htext, oneErrorLine_errorText_iff htext⟩

def connOf (argv : List Bytes) : Conn :=
  { io := { cioCreate with argv := some ⟨argv.length, argv⟩ } }

theorem processCommond_oneErrorLine_unknown :
    OneErrorLine (view (unknownCommand (ascii "set"))) ↔ FitsOneLine 22 (ascii "set") :=
  (processCommond_oneErrorLine_iff (c := connOf [ascii "SET"])
    ⟨fun _ => .cstr sharedPong, fun _ => .cstr sharedPong⟩ (fun _ => .eagain) rfl rfl).2.trans
    (fitsOneLine_cstrTolower 22 (ascii "SET")).symm

/-- A name with a line end in it is answered with two lines. -/
theorem processCommond_two_lines :
    (connOf [ascii "a\r\nb"]).processCommond
        ⟨fun _ => .cstr sharedPong, fun _ => .cstr sharedPong⟩ (fun _ => .eagain) =
      some (((connOf [ascii "a\r\nb"]).append
        (ascii "-ERR unknown command 'a\r\nb'\r\n")).replyInner fun _ => .eagain) ∧
    ¬ OneErrorLine (ascii "-ERR unknown command 'a\r\nb'\r\n") := by
  refine ⟨rfl, fun h => ?_⟩
  have hend := h.single 23 ⟨rfl, rfl⟩
  exact absurd hend (by decide)

end ThrSocket
