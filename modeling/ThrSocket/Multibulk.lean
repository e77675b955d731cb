import ThrSocket.RequestParser

/-!
The multi-bulk format as a client writes it, and what one pass of the parser's
loop does to it: a whole group is consumed and stored, an incomplete one stops
the loop. The runs over many groups are inductions over these passes.
-/

namespace ThrSocket
open CString Decimal

def bulkHeader (p : Bytes) : Bytes := 36 :: (numeral p.length ++ crlf)

def bulkGroup (p : Bytes) : Bytes := bulkHeader p ++ (p ++ crlf)

def encodeBulks (ps : List Bytes) : Bytes := ps.flatMap bulkGroup

def countHeader (n : Nat) : Bytes := 42 :: (numeral n ++ crlf)

/-- `*n CRLF ($len CRLF payload CRLF)^n` -/
def encodeRequest (ps : List Bytes) : Bytes := countHeader ps.length ++ encodeBulks ps

def ValidPayload (p : Bytes) : Prop := 1 ≤ p.length ∧ p.length ≤ maxCommandLenLimit

instance (p : Bytes) : Decidable (ValidPayload p) := inferInstanceAs (Decidable (_ ∧ _))

structure ValidRequest (ps : List Bytes) : Prop where
  pos : 1 ≤ ps.length
  le : ps.length ≤ 1024
  payload : ∀ p ∈ ps, ValidPayload p

@[simp] theorem encodeBulks_nil : encodeBulks [] = [] := rfl

@[simp] theorem encodeBulks_cons (p : Bytes) (ps : List Bytes) :
    encodeBulks (p :: ps) = bulkGroup p ++ encodeBulks ps := rfl

@[simp] theorem encodeBulks_append (ps qs : List Bytes) :
    encodeBulks (ps ++ qs) = encodeBulks ps ++ encodeBulks qs := by
  simp [encodeBulks]

@[simp] theorem crlf_length : crlf.length = 2 := rfl

@[simp] theorem bulkHeader_length (p : Bytes) :
    (bulkHeader p).length = (numeral p.length).length + 3 := by
  simp [bulkHeader]

@[simp] theorem countHeader_length (n : Nat) :
    (countHeader n).length = (numeral n).length + 3 := by
  simp [countHeader]

@[simp] theorem bulkGroup_length (p : Bytes) :
    (bulkGroup p).length = (bulkHeader p).length + p.length + 2 := by
  simp [bulkGroup, Nat.add_assoc]

theorem not_mem_line {c : UInt8} (hc : c = 42 ∨ c = 36) {ds : Bytes} (hds : AllDigits ds) :
    0 ∉ c :: ds ∧ 13 ∉ c :: ds := by
  have h0 := hds.not_mem (c := 0) (by decide)
  have h13 := hds.not_mem (c := 13) (by decide)
  rcases hc with rfl | rfl <;> simp [h0, h13]

/-- A header line ends at its own CRLF, whatever follows. -/
theorem strstr_line {c : UInt8} (hc : c = 42 ∨ c = 36) {ds : Bytes} (hds : AllDigits ds)
    (t : Bytes) : strstr crlf (c :: (ds ++ (crlf ++ t))) = some (ds.length + 1) := by
  obtain ⟨h0, h13⟩ := not_mem_line hc hds
  have h := strstr_skip [10] h0 h13 (crlf ++ t)
  have hhere : strstr [13, 10] (crlf ++ t) = some 0 := by
    simp [crlf, strstr, List.isPrefixOf]
  rw [hhere] at h
  simpa [crlf] using h

/-- A header line without its last byte shows no CRLF. -/
theorem strstr_partial_line {c : UInt8} (hc : c = 42 ∨ c = 36) {ds : Bytes} (hds : AllDigits ds)
    {w : Bytes} (hw : w <+: c :: (ds ++ crlf)) (hlt : w.length < ds.length + 3) :
    strstr crlf w = none := by
  obtain ⟨h0, h13⟩ := not_mem_line hc hds
  have hw : w <+: (c :: ds) ++ [13, 10] := hw
  have hshort : w <+: (c :: ds) ++ [13] := by
    refine List.prefix_of_prefix_length_le hw ⟨[10], by simp⟩ ?_
    simp only [List.length_append, List.length_cons, List.length_nil]
    omega
  rcases List.prefix_concat_iff.mp hshort with rfl | hin
  · have h := strstr_skip [10] h0 h13 [13]
    rw [show strstr [13, 10] [13] = none from by decide] at h
    exact h
  · have h0' : 0 ∉ w := fun hm => h0 (hin.subset hm)
    have h13' : 13 ∉ w := fun hm => h13 (hin.subset hm)
    have h := strstr_skip [10] h0' h13' []
    rw [List.append_nil] at h
    exact h

theorem numeral_length_small {n : Nat} (h : n ≤ maxCommandLenLimit) :
    (numeral n).length ≤ 5 := by
  refine (numeral_length_le_iff (by omega)).mpr ?_
  rw [maxCommandLenLimit] at h
  omega

theorem bulkCountLine_header {n : Nat} (h1 : 1 ≤ n) (h2 : n ≤ 1024) (t : Bytes) :
    bulkCountLine (countHeader n ++ t) = .ok (n, (countHeader n).length) := by
  have hbuf : countHeader n ++ t = 42 :: (numeral n ++ (crlf ++ t)) := by simp [countHeader]
  have hnum : str2ll (numeral n ++ (crlf ++ t)) (numeral n).length = some (n : Int) :=
    str2ll_numeral h1 (by omega) _
  rw [bulkCountLine, hbuf, strstr_line (.inl rfl) (allDigits_numeral n) t]
  simp only [List.getD_cons_zero, ne_eq, not_true_eq_false, if_false, List.drop_one,
    List.tail_cons, Nat.add_sub_cancel, hnum]
  rw [if_neg (by omega)]
  simp

theorem bulkLenLine_header {rbuf p t : Bytes} {pos : Nat} (hp : ValidPayload p)
    (h : rbuf.drop pos = bulkHeader p ++ t) :
    bulkLenLine rbuf pos = .ok (p.length, pos + (bulkHeader p).length) := by
  have hbuf : rbuf.drop pos = 36 :: (numeral p.length ++ (crlf ++ t)) := by
    simp [h, bulkHeader]
  have hpos : rbuf.getD pos 0 = 36 := by
    have := congrArg (·.getD 0 0) hbuf
    simpa [List.getD_eq_getElem?_getD] using this
  have hdrop : rbuf.drop (pos + 1) = numeral p.length ++ (crlf ++ t) := by
    rw [← List.drop_drop, hbuf]
    rfl
  have hle := hp.2
  rw [maxCommandLenLimit] at hle
  have hnum : str2ll (numeral p.length ++ (crlf ++ t)) (numeral p.length).length =
      some (p.length : Int) := str2ll_numeral hp.1 (by omega) _
  have hpos' := hp.1
  rw [bulkLenLine, hbuf, strstr_line (.inr rfl) (allDigits_numeral p.length) t]
  simp only [hpos, hdrop, Nat.add_sub_cancel, hnum]
  rw [if_neg (by simp), if_neg (by rw [maxCommandLenLimit]; omega)]
  simp [Nat.add_assoc]

/-- With the length known, a whole payload is stored and its terminator skipped. -/
theorem bulkLoop_payload {rbuf p t : Bytes} {n pos : Nat} (argv : Option Argv)
    (hp : ValidPayload p) (h : rbuf.drop pos = p ++ (crlf ++ t)) :
    bulkLoop rbuf (n + 1) p.length pos argv =
      bulkLoop rbuf n 0 (pos + p.length + 2) (argv.map (·.push p)) := by
  have hlen := congrArg List.length h
  simp only [List.length_drop, List.length_append, crlf_length] at hlen
  have hne : p.length ≠ 0 := by have := hp.1; omega
  rw [bulkLoop, if_neg hne]
  simp only
  rw [if_neg (by omega), h, List.take_left]

theorem bulkLoop_group {rbuf p t : Bytes} {n pos : Nat} {argv : Option Argv}
    (hp : ValidPayload p) (h : rbuf.drop pos = bulkGroup p ++ t) :
    bulkLoop rbuf (n + 1) 0 pos argv =
      bulkLoop rbuf n 0 (pos + (bulkGroup p).length) (argv.map (·.push p)) := by
  have hhead : rbuf.drop pos = bulkHeader p ++ (p ++ (crlf ++ t)) := by
    simp [h, bulkGroup]
  have hrest : rbuf.drop (pos + (bulkHeader p).length) = p ++ (crlf ++ t) := by
    rw [← List.drop_drop, hhead, List.drop_left]
  have hne : p.length ≠ 0 := by have := hp.1; omega
  have hpass := bulkLoop_payload (n := n) argv hp hrest
  rw [bulkLoop, if_neg hne] at hpass
  rw [bulkLoop, if_pos rfl, bulkLenLine_header hp hhead, hpass]
  simp [Nat.add_assoc]

def Argv.pushAll (a : Argv) (ps : List Bytes) : Argv := { a with objs := a.objs ++ ps }

@[simp] theorem Argv.pushAll_nil (a : Argv) : a.pushAll [] = a := by simp [Argv.pushAll]

@[simp] theorem Argv.push_pushAll (a : Argv) (p : Bytes) (ps : List Bytes) :
    (a.push p).pushAll ps = a.pushAll (p :: ps) := by
  simp [Argv.pushAll, Argv.push]

/-- The loop consumes any number of whole groups, whatever follows them. -/
theorem bulkLoop_groups {rbuf t : Bytes} {qs : List Bytes} (hq : ∀ p ∈ qs, ValidPayload p)
    {m pos : Nat} (argv : Option Argv) (h : rbuf.drop pos = encodeBulks qs ++ t) :
    bulkLoop rbuf (qs.length + m) 0 pos argv =
      bulkLoop rbuf m 0 (pos + (encodeBulks qs).length) (argv.map (·.pushAll qs)) := by
  induction qs generalizing pos argv with
  | nil => simp
  | cons p qs ih =>
      have hgroup : rbuf.drop pos = bulkGroup p ++ (encodeBulks qs ++ t) := by
        simpa using h
      have hrest : rbuf.drop (pos + (bulkGroup p).length) = encodeBulks qs ++ t := by
        rw [← List.drop_drop, hgroup, List.drop_left]
      have hn : (p :: qs).length + m = qs.length + m + 1 := by simp; omega
      rw [hn, bulkLoop_group (hq p (by simp)) hgroup,
        ih (fun q hm => hq q (by simp [hm])) _ hrest]
      simp [Nat.add_assoc, Function.comp_def]

end ThrSocket
