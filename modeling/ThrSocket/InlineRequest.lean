import ThrSocket.Calls

/-!
Inline requests. The parser splits the whole buffer at its spaces, not only the
first line, and cuts two bytes off the last piece: the CRLF, if nothing has
come in behind it.
-/

namespace ThrSocket
open CString

/-- What holds no separator goes to the last piece. -/
theorem splitOn_append {s t : Bytes} {c : UInt8} (h : c ∉ t) :
    ∃ ps p, s.splitOn c = ps ++ [p] ∧ (s ++ t).splitOn c = ps ++ [p ++ t] := by
  induction s with
  | nil => exact ⟨[], [], rfl, List.splitOn_eq_singleton h⟩
  | cons x s ih =>
      obtain ⟨ps, p, hs, hst⟩ := ih
      rw [List.cons_append, List.splitOn_cons_eq_if_modifyHead, List.splitOn_cons_eq_if_modifyHead,
        hs, hst]
      by_cases hx : (x == c) = true
      · rw [if_pos hx, if_pos hx]
        exact ⟨[] :: ps, p, rfl, rfl⟩
      · rw [if_neg hx, if_neg hx]
        cases ps with
        | nil => exact ⟨[], x :: p, rfl, rfl⟩
        | cons p₀ ps => exact ⟨(x :: p₀) :: ps, p, rfl, rfl⟩

theorem intercalate_concat (c : UInt8) (ps : List Bytes) (p : Bytes) :
    [c].intercalate (ps ++ [p]) = ps.flatMap (· ++ [c]) ++ p := by
  induction ps with
  | nil => simp
  | cons p₀ ps ih =>
      rw [List.flatMap_cons, List.append_assoc, ← ih]
      cases ps <;> simp

/-- The arguments of an inline request: the pieces of the buffer, the last of them
without its last two bytes. -/
theorem parseInline_argv {r : Req} {rbuf : Bytes} {k : Nat}
    (hlen : rbuf.length ≤ maxCommandLenLimit) (hk : strstr crlf rbuf = some k)
    {ps : List Bytes} {p : Bytes} (hps : rbuf.splitOn 32 = ps ++ [p]) :
    let argv := ps ++ [p.take (p.length - 2)]
    parseInline r rbuf = (.complete, { r with argv := some ⟨argv.length, argv⟩ }, rbuf) := by
  have hsplit : cstrSplit rbuf (ascii " ") = ps ++ [p] := by
    rw [← hps]
    exact cstrSplit_singleton rbuf 32
  simp only [parseInline, if_neg (Nat.not_lt.mpr hlen), hk, hsplit, List.dropLast_concat,
    List.getLast?_concat, Option.map_some, Option.toList_some, cstrRange_neg_two]

/-- The arguments are the pieces of the first line, which ends at `k`, exactly when
nothing stands behind its CRLF. -/
theorem pieces_iff {rbuf : Bytes} {k : Nat} (hk : strstr crlf rbuf = some k) {ps : List Bytes}
    {p : Bytes} (hps : rbuf.splitOn 32 = ps ++ [p]) :
    ps ++ [p.take (p.length - 2)] = (rbuf.take k).splitOn 32 ↔ rbuf.length = k + 2 := by
  have hle : k + 2 ≤ rbuf.length := strstr_le hk
  constructor
  · intro h
    -- both lists joined again, and their lengths
    have hwhole : ([32].intercalate (rbuf.splitOn 32)).length = rbuf.length :=
      congrArg List.length (List.intercalate_splitOn 32)
    have hline : ([32].intercalate ((rbuf.take k).splitOn 32)).length = (rbuf.take k).length :=
      congrArg List.length (List.intercalate_splitOn 32)
    rw [hps, intercalate_concat, List.length_append] at hwhole
    rw [← h, intercalate_concat, List.length_append, List.length_take, List.length_take] at hline
    omega
  · intro h
    obtain ⟨rest, hsplit⟩ := strstr_split hk
    have hrest : rest = [] := by
      have hlen := congrArg List.length hsplit
      simp only [List.length_append, List.length_take, crlf, List.length_cons, List.length_nil]
        at hlen
      exact List.length_eq_zero_iff.mp (by omega)
    rw [hrest, List.append_nil] at hsplit
    obtain ⟨ps', p', hline, hwhole⟩ :=
      splitOn_append (s := rbuf.take k) (t := crlf) (c := 32) (by decide)
    rw [← hsplit, hps] at hwhole
    obtain ⟨rfl, hp⟩ := List.append_inj' hwhole rfl
    cases hp
    rw [hline, List.length_append]
    congr 2
    exact List.take_left

def InlineArgs (mask : EvMask) (w : Writes) (rbuf : Bytes) (k : Nat) : Prop :=
  let res := ((freshConn mask).receive rbuf).tryProcessCommand w
  let pieces := (rbuf.take k).splitOn 32
  res.2 = 0 ∧ res.1.io.argv = some ⟨pieces.length, pieces⟩

/-- For every buffer that holds a CRLF and no multi-bulk request. -/
theorem tryProcessCommand_inline_iff (mask : EvMask) (w : Writes) {rbuf : Bytes} {k : Nat}
    (hlen : rbuf.length ≤ maxCommandLenLimit) (hstar : rbuf.head? ≠ some 42)
    (hk : strstr crlf rbuf = some k) :
    InlineArgs mask w rbuf k ↔ rbuf.length = k + 2 := by
  have hbuf : ((freshConn mask).receive rbuf).io.rbuf = rbuf := List.nil_append _
  have hreq : ((freshConn mask).receive rbuf).io.toReq = {} := rfl
  obtain ⟨ps, p, hps⟩ : ∃ ps p, rbuf.splitOn 32 = ps ++ [p] :=
    ⟨_, _, (List.dropLast_concat_getLast (List.splitOn_ne_nil 32 rbuf)).symm⟩
  have hempty : ¬ rbuf.length = 0 := by
    have hle : k + 2 ≤ rbuf.length := strstr_le hk
    omega
  have hkind : ¬ (({} : Req).reqtype = .mbulk ∨ rbuf.getD 0 0 = 42) := by
    cases rbuf with
    | nil => exact absurd rfl hempty
    | cons c rbuf => simpa using hstar
  rw [← pieces_iff hk hps, InlineArgs, Conn.tryProcessCommand, hbuf, hreq, parseCommand,
    if_neg hempty, if_neg hkind, parseInline_argv hlen hk hps]
  constructor
  · rintro ⟨-, hargv⟩
    exact congrArg Argv.objs (Option.some.inj hargv)
  · intro h
    exact ⟨rfl, by rw [← h]; rfl⟩

theorem tryProcessCommand_inline_ping :
    InlineArgs cevRead (fun _ => .eagain) (ascii "get  ping\r\n") 9 ↔
      (ascii "get  ping\r\n").length = 9 + 2 :=
  tryProcessCommand_inline_iff cevRead (fun _ => .eagain) (by decide) (by decide) (by decide)

/-- Two lines in one buffer: the argument is both of them. -/
theorem tryProcessCommand_inline_two_lines :
    let rbuf := ascii "ping\r\nping\r\n"
    rbuf.length ≤ maxCommandLenLimit ∧ 0 ∉ rbuf ∧ rbuf.head? ≠ some 42 ∧
      strstr crlf rbuf = some 4 ∧
      (((freshConn cevRead).receive rbuf).tryProcessCommand fun _ => .eagain).1.io.argv =
        some ⟨1, [ascii "ping\r\nping"]⟩ ∧
      ¬ InlineArgs cevRead (fun _ => .eagain) rbuf 4 := by
  refine ⟨by decide, by decide, by decide, by decide, by decide, ?_⟩
  rintro ⟨-, hargv⟩
  revert hargv
  decide

end ThrSocket
