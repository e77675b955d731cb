import ThrSocket.DictDelete
import ThrSocket.Lib.Cursor

/-!
A walk over the dict with lookups, insertions and replacements in between. While
the iterator is under way nothing is moved between the tables, so an insertion
puts one entry at the head of a chain: ahead of the iterator or behind it.
-/

namespace ThrSocket

open Cursor (Inserted)

variable {K V : Type}

structure Walk (K V : Type) where
  d : Dict K V
  iter : DictIterator

inductive WalkOp (K V : Type)
  | next
  | find (key : K)
  | add (key : K) (val : V)
  | replace (key : K) (val : V)

def Walk.step [DecidableEq K] (o : DictOpts K V) (w : Walk K V) :
    WalkOp K V → Option (Walk K V × Option (Option (DictEntry K V)))
  | .next => do
      let (d, iter, r) ← dictIteratorNext w.d w.iter
      some (⟨d, iter⟩, some r)
  | .find key => do
      let (d, _) ← dictFind o w.d key
      some (⟨d, w.iter⟩, none)
  | .add key val => do
      let (d, _) ← dictAdd o w.d key val
      some (⟨d, w.iter⟩, none)
  | .replace key val => do
      let (d, _) ← dictReplace o w.d key val
      some (⟨d, w.iter⟩, none)

def returned (outs : List (Option (Option (DictEntry K V)))) : List (DictEntry K V) :=
  outs.filterMap Option.join

/-- The call returns, `dict_iterator_next` with nothing but an entry of the dict. -/
def CallSound [DecidableEq K] (o : DictOpts K V) (w : Walk K V) : WalkOp K V → Prop
  | .next => NextSafe w.d w.iter
  | .find key => (dictFind o w.d key).isSome
  | .add key val => w.d.all.length ≤ 2 ^ 29 → (dictAdd o w.d key val).isSome
  | .replace key val => w.d.all.length ≤ 2 ^ 29 → (dictReplace o w.d key val).isSome

section

variable {d d' : Dict K V} {iter : DictIterator} {t t' : DictTable K V}

/-- What is ahead in the table of the iterator. -/
def DictIterator.aheadIn (ls : List (List (Nat × K))) (iter : DictIterator) : List (Nat × K) :=
  (match iter.entry with
    | none => []
    | some a => behindAddr a ((ls[iter.idx.toNat]?).getD [])) ++
    (ls.drop (iter.idx + 1).toNat).flatten

theorem ahead_eq (d : Dict K V) (iter : DictIterator) :
    iter.ahead d = iter.aheadIn (d.dt iter.dtIdx).idents ++
      if iter.dtIdx = 0 then d.dt1.idents.flatten else [] :=
  (List.append_assoc _ _ _).symm

theorem DictTable.idents_push {idx : Nat} {e : DictEntry K V} (h : t.push idx e = some t') :
    ∃ c, t.idents[idx]? = some c ∧ t'.idents = t.idents.set idx (e.ident :: c) := by
  obtain ⟨chain, hchain, rfl⟩ := DictTable.push_eq_some.mp h
  refine ⟨chain.map (·.ident), DictTable.getElem?_idents hchain, ?_⟩
  rw [DictTable.idents, List.map_set]
  rfl

/-- A chain with a new head, and the others. -/
theorem getD_set {ls : List (List (Nat × K))} {i : Nat} {c : List (Nat × K)}
    (h : ls[i]? = some c) (x : Nat × K) (n : Nat) :
    ((ls.set i (x :: c))[n]?).getD [] = (ls[n]?).getD [] ∨
      ((ls.set i (x :: c))[n]?).getD [] = x :: (ls[n]?).getD [] := by
  by_cases hin : i = n
  · subst hin
    obtain ⟨hi, rfl⟩ := List.getElem?_eq_some_iff.mp h
    exact .inr (by simp [hi])
  · exact .inl (by rw [List.getElem?_set_ne hin])

theorem behindAddr_cons {a : Nat} {x : Nat × K} (hne : x.1 ≠ a) (c : List (Nat × K)) :
    behindAddr a (x :: c) = behindAddr a c := by
  unfold behindAddr
  rw [List.dropWhile_cons_of_pos (by simpa using hne)]

theorem aheadIn_push {idx : Nat} {e : DictEntry K V} (h : t.push idx e = some t')
    (hne : iter.entry ≠ some e.addr) :
    Inserted e.ident (iter.aheadIn t.idents) (iter.aheadIn t'.idents) := by
  obtain ⟨c, hc, hset⟩ := DictTable.idents_push h
  rw [hset]
  unfold DictIterator.aheadIn
  have hins := Cursor.inserted_drop hc e.ident (iter.idx + 1).toNat
  cases hentry : iter.entry with
  | none => exact hins.append_left []
  | some a =>
      have ha : e.ident.1 ≠ a := fun heq => hne (hentry.trans (congrArg some heq.symm))
      simp only
      rcases getD_set hc e.ident iter.idx.toNat with heq | heq
      · rw [heq]
        exact hins.append_left _
      · rw [heq, behindAddr_cons ha]
        exact hins.append_left _

theorem stands_push {idx : Nat} {e : DictEntry K V} (h : t.push idx e = some t') {n a : Nat}
    (ha : a ∈ ((t.idents[n]?).getD []).map (·.1)) : a ∈ ((t'.idents[n]?).getD []).map (·.1) := by
  obtain ⟨c, hc, hset⟩ := DictTable.idents_push h
  rw [hset]
  rcases getD_set hc e.ident n with heq | heq
  · rwa [heq]
  · rw [heq]
    exact List.mem_cons_of_mem _ ha

theorem pushed_ahead {e : DictEntry K V} (h : Pushed d e d') (iter : DictIterator)
    (hne : iter.entry ≠ some e.addr) :
    Inserted e.ident (iter.ahead d) (iter.ahead d') ∧ (iter.Stands d → iter.Stands d') := by
  rw [ahead_eq, ahead_eq]
  unfold DictIterator.Stands DictIterator.bucket Dict.dt
  cases h with
  | first _ push =>
      split_ifs
      · exact ⟨(aheadIn_push push hne).append_right _, fun hs a ha => stands_push push (hs a ha)⟩
      · exact ⟨.behind _, id⟩
  | second _ push =>
      split_ifs
      · obtain ⟨c, hc, hset⟩ := DictTable.idents_push push
        exact ⟨(hset ▸ Cursor.inserted_flatten hc e.ident).append_left _, id⟩
      · exact ⟨(aheadIn_push push hne).append_right _, fun hs a ha => stands_push push (hs a ha)⟩

theorem map_ident_congr (h : ∀ i, (d'.dt i).idents = (d.dt i).idents) :
    d'.all.map (·.ident) = d.all.map (·.ident) := by
  have h0 : d'.dt0.idents = d.dt0.idents := h 0
  have h1 : d'.dt1.idents = d.dt1.idents := h 1
  rw [Dict.all, Dict.all, List.map_append, List.map_append, ← DictTable.flatten_idents,
    ← DictTable.flatten_idents, ← DictTable.flatten_idents, ← DictTable.flatten_idents, h0, h1]

theorem idents_of_empty (h : t.chained = []) : ∀ c ∈ t.idents, c = [] := by
  have hflat : t.idents.flatten = [] := by rw [DictTable.flatten_idents, h, List.map_nil]
  exact List.flatten_eq_nil_iff.mp hflat

theorem getD_of_empty (h : t.chained = []) (n : Nat) : (t.idents[n]?).getD [] = [] := by
  cases hc : t.idents[n]? with
  | none => rfl
  | some c => exact idents_of_empty h c (List.mem_of_getElem? hc)

theorem aheadIn_of_empty (h : t.chained = []) (iter : DictIterator) :
    iter.aheadIn t.idents = [] := by
  have hlater : (t.idents.drop (iter.idx + 1).toNat).flatten = [] :=
    List.flatten_eq_nil_iff.mpr fun c hc => idents_of_empty h c (List.mem_of_mem_drop hc)
  rw [DictIterator.aheadIn, hlater, List.append_nil]
  cases iter.entry with
  | none => rfl
  | some a =>
      simp only [getD_of_empty h]
      rfl

theorem aheadIn_empty (h : t.chained = []) (h' : t'.chained = []) (iter : DictIterator) :
    iter.aheadIn t'.idents = iter.aheadIn t.idents := by
  rw [aheadIn_of_empty h, aheadIn_of_empty h']

theorem not_stands_empty (h : t.chained = []) {n a : Nat} :
    a ∉ ((t.idents[n]?).getD []).map (·.1) := by
  rw [getD_of_empty h]
  exact List.not_mem_nil

/-- A new table, which is empty in the place of an empty one. -/
theorem expanded_ahead (hd : DictShape d) {size : Nat} {rs : Int} (h : Expanded d size d' rs) :
    iter.ahead d' = iter.ahead d ∧ (iter.Stands d → iter.Stands d') := by
  rw [ahead_eq, ahead_eq]
  unfold DictIterator.Stands DictIterator.bucket Dict.dt
  cases h with
  | refused _ => exact ⟨rfl, id⟩
  | first idle empty pow =>
      have hnil : d.dt0.chained = [] := List.flatten_eq_nil_iff.mpr (by simp [empty])
      split_ifs
      · exact ⟨congrArg (· ++ _) (aheadIn_empty hnil (chained_freshTable _) iter),
          fun hs a ha => absurd (hs a ha) (not_stands_empty hnil)⟩
      · exact ⟨rfl, id⟩
  | second idle nonempty le pow =>
      have hnil : d.dt1.chained = [] := by
        rw [hd.idle idle]
        rfl
      split_ifs
      · refine ⟨congrArg (iter.aheadIn d.dt0.idents ++ ·) ?_, id⟩
        rw [DictTable.flatten_idents, DictTable.flatten_idents, chained_freshTable, hnil]
      · exact ⟨congrArg (· ++ _) (aheadIn_empty hnil (chained_freshTable _) iter),
          fun hs a ha => absurd (hs a ha) (not_stands_empty hnil)⟩

end

def Walk.cursor (w : Walk K V) : Cursor (Nat × K) :=
  ⟨{x | x ∈ w.d.all.map (·.ident)}, w.iter.ahead w.d⟩

def seen (out : Option (Option (DictEntry K V))) : Option (Option (Nat × K)) :=
  out.map fun r => r.map (·.ident)

/-- An iterator that can be moved. The entries have `p` references of other iterators, and `n`
iterators are under way when this one is. -/
structure Walking (p : Nat → Nat) (n : Int) (w : Walk K V) : Prop where
  counted : Counted w.d (standing p w.iter.entry)
  valid : w.iter.Valid
  stands : w.iter.Stands w.d
  iterators : w.d.iterators + (if w.iter.Started then 0 else 1) = n
  others : 0 < n

namespace Walking

variable {p : Nat → Nat} {n : Int} {w : Walk K V}

theorem cursor_sound (h : Walking p n w) (hahead : w.iter.ahead w.d = w.d.all.map (·.ident)) :
    w.cursor.Sound := by
  have hnodup : ((w.d.all.map (·.ident)).map (·.1)).Nodup := by
    rw [List.map_map]
    exact h.counted.nodup_all
  have hcursor : w.cursor.ahead = w.d.all.map (·.ident) := hahead
  constructor
  · intro x hx
    rwa [hcursor] at hx
  · rw [hcursor]
    exact hnodup.of_map _

theorem next (h : Walking p n w) :
    ∃ d' iter' r, dictIteratorNext w.d w.iter = some (d', iter', r) ∧
      (∀ e, r = some e → e ∈ d'.all) ∧ Walking p n ⟨d', iter'⟩ ∧ iter'.Started ∧
      Cursor.Step w.cursor (some (r.map (·.ident))) (Walk.cursor ⟨d', iter'⟩) := by
  obtain ⟨d', iter', r, hnext, hland, hreach⟩ := h.counted.next_stands h.valid h.stands
  refine ⟨d', iter', r, hnext, hreach.mem, ⟨hland.counted, hland.valid, hreach.stands, ?_,
    h.others⟩, hland.started, ?_⟩
  · simp only [if_pos hland.started]
    rw [hland.iterators, Int.add_zero]
    exact h.iterators
  · have hmembers := map_ident_congr hland.same.idents
    unfold Walk.cursor
    simp only [hmembers]
    have hahead := hreach.ahead
    cases r with
    | some e =>
        rw [hahead]
        exact .visit _ _ _
    | none =>
        rw [hreach.last rfl] at hahead ⊢
        rw [List.nil_eq_append_iff.mp hahead |>.2]
        exact .finish _

theorem busy (h : Walking p n w) (hs : w.iter.Started) : w.d.iterators ≠ 0 := by
  have := h.iterators
  have := h.others
  rw [if_pos hs] at *
  omega

theorem rehashed (h : Walking p n w) (hs : w.iter.Started) {o : DictOpts K V} {d' : Dict K V}
    (hre : Rehashed o w.d d') : d' = w.d := by
  cases hre with
  | skipped _ => rfl
  | ended _ alone _ => exact absurd alone (h.busy hs)
  | moved _ alone _ _ _ _ => exact absurd alone (h.busy hs)

/-- Another dict under the iterator. -/
theorem withDict (h : Walking p n w) {d' : Dict K V}
    (hd : Counted d' (standing p w.iter.entry) ∧ d'.iterators = w.d.iterators)
    (hstands : w.iter.Stands d') : Walking p n ⟨d', w.iter⟩ where
  counted := hd.1
  valid := h.valid
  stands := hstands
  iterators := hd.2 ▸ h.iterators
  others := h.others

theorem keep {d' : Dict K V} (hall : d'.all.map (·.ident) = w.d.all.map (·.ident))
    (hahead : w.iter.ahead d' = w.iter.ahead w.d) :
    Cursor.Step w.cursor none (Walk.cursor ⟨d', w.iter⟩) := by
  have heq : Walk.cursor ⟨d', w.iter⟩ = w.cursor := by
    unfold Walk.cursor
    simp only [hall, hahead]
  rw [heq]
  exact .keep _

section

variable [DecidableEq K] {o : DictOpts K V}

theorem found (h : Walking p n w) (hs : w.iter.Started) {d' : Dict K V} {key : K}
    {r : Option (DictEntry K V)} (hfind : dictFind o w.d key = some (d', r)) : d' = w.d := by
  obtain ⟨-, rfl, -⟩ | ⟨-, hre, -⟩ := dictFind_cases hfind
  · rfl
  · exact h.rehashed hs hre

theorem added (h : Walking p n w) (hs : w.iter.Started) {d' : Dict K V} {key : K} {val : V}
    {rs : Int} (hadd : dictAdd o w.d key val = some (d', rs)) :
    Walking p n ⟨d', w.iter⟩ ∧ Cursor.Step w.cursor none (Walk.cursor ⟨d', w.iter⟩) := by
  have hd := h.counted.added (fun h0 => absurd h0 (h.busy hs)) hadd
  obtain ⟨d₁, d₂, m, hre, hexp, hend⟩ := dictAdd_cases hadd
  cases h.rehashed hs hre
  have hcounted := (h.counted.tryExpanded hexp).1
  have hgrown : w.iter.ahead d₂ = w.iter.ahead w.d ∧ (w.iter.Stands w.d → w.iter.Stands d₂) := by
    obtain ⟨rfl, -⟩ | ⟨-, size, hgrown, -⟩ := dictTryExpand_cases hexp
    · exact ⟨rfl, id⟩
    · exact expanded_ahead h.counted.shape hgrown
  have hall := (h.counted.shape.tryExpanded hexp).2
  rcases hend with rfl | ⟨-, hpush⟩
  · exact ⟨h.withDict hd (hgrown.2 h.stands), keep (hall ▸ rfl) hgrown.1⟩
  · -- the iterator stands on an old address, and the new entry has another
    have hfresh : ∀ a ∈ d₂.addrs, a ≠ (d₂.newEntry o key val).addr :=
      fun a ha heq => Nat.lt_irrefl _ (heq ▸ hcounted.fresh a ha)
    have hne : w.iter.entry ≠ some (d₂.newEntry o key val).addr := by
      intro heq
      refine hfresh _ (hcounted.parked _ ?_) rfl
      rw [heq, standing_self]
      omega
    obtain ⟨hins, hstands⟩ := pushed_ahead hpush w.iter hne
    refine ⟨h.withDict hd (hstands (hgrown.2 h.stands)), ?_⟩
    have hmembers : (Walk.cursor ⟨d', w.iter⟩).members =
        insert (d₂.newEntry o key val).ident w.cursor.members := by
      ext x
      have := (hpush.perm.map (·.ident)).mem_iff (a := x)
      rw [List.map_cons, List.mem_cons, hall] at this
      exact this
    have hnew : (d₂.newEntry o key val).ident ∉ w.cursor.members := by
      intro hmem
      obtain ⟨e, he, heq⟩ := List.mem_map.mp hmem
      exact hfresh e.addr (Counted.mem_addrs.mpr (.inl ⟨e, hall ▸ he, rfl⟩))
        (congrArg Prod.fst heq)
    rw [hgrown.1] at hins
    have hstep := Cursor.Step.grow hnew hins
    rw [← hmembers] at hstep
    exact hstep

theorem replaced (h : Walking p n w) (hs : w.iter.Started) {d' : Dict K V} {key : K} {val : V}
    {rs : Int} (hreplace : dictReplace o w.d key val = some (d', rs)) :
    Walking p n ⟨d', w.iter⟩ ∧ Cursor.Step w.cursor none (Walk.cursor ⟨d', w.iter⟩) := by
  obtain ⟨d₁, r, hfind, hend⟩ := dictReplace_cases hreplace
  cases h.found hs hfind
  rcases hend with ⟨e, -, rfl⟩ | ⟨-, hadd⟩
  · have hidents : ∀ i,
        ((w.d.modify e.addr fun e => { e with value := o.setValue val }).dt i).idents =
          (w.d.dt i).idents := by
      intro i
      unfold Dict.dt
      split_ifs
      · exact w.d.dt0.map_modify fun _ => rfl
      · exact w.d.dt1.map_modify fun _ => rfl
    refine ⟨h.withDict ⟨h.counted.modifyValue _ _, rfl⟩ fun a ha => ?_,
      keep (map_ident_congr hidents) (ahead_congr hidents w.iter)⟩
    rw [bucket_congr hidents]
    exact h.stands a ha
  · exact h.added hs hadd

theorem callSound (h : Walking p n w) (hs : w.iter.Started) (op : WalkOp K V) :
    CallSound o w op := by
  cases op with
  | next =>
      obtain ⟨d', iter', r, hnext, hmem, -⟩ := h.next
      exact ⟨d', iter', r, hnext, hmem⟩
  | find key =>
      obtain ⟨d', r, hfind⟩ := h.counted.shape.find_defined (o := o) key
      exact Option.isSome_iff_exists.mpr ⟨_, hfind⟩
  | add key val =>
      intro hroom
      obtain ⟨d', rs, hadd⟩ := h.counted.shape.add_defined (o := o) hroom key val
      exact Option.isSome_iff_exists.mpr ⟨_, hadd⟩
  | replace key val =>
      intro hroom
      obtain ⟨d₁, r, hfind⟩ := h.counted.shape.find_defined (o := o) key
      cases h.found hs hfind
      rw [dictReplace, hfind, Option.bind_eq_bind, Option.bind_some]
      cases r with
      | some e => rfl
      | none =>
          obtain ⟨d', rs, hadd⟩ := h.counted.shape.add_defined (o := o) hroom key val
          exact Option.isSome_iff_exists.mpr ⟨_, hadd⟩

/-- A call on the walk is a step of the cursor. -/
theorem step (h : Walking p n w) (hs : w.iter.Started) {op : WalkOp K V} {w' : Walk K V}
    {out : Option (Option (DictEntry K V))} (hstep : w.step o op = some (w', out)) :
    Walking p n w' ∧ w'.iter.Started ∧ Cursor.Step w.cursor (seen out) w'.cursor := by
  cases op with
  | next =>
      obtain ⟨⟨d', iter', r⟩, hnext, heq⟩ := Option.bind_eq_some_iff.mp hstep
      cases heq
      obtain ⟨d'', iter'', r', hnext', -, hw, hst, hstep'⟩ := h.next
      cases hnext.symm.trans hnext'
      exact ⟨hw, hst, hstep'⟩
  | find key =>
      obtain ⟨⟨d', r⟩, hfind, heq⟩ := Option.bind_eq_some_iff.mp hstep
      cases heq
      cases h.found hs hfind
      exact ⟨h, hs, .keep _⟩
  | add key val =>
      obtain ⟨⟨d', rs⟩, hadd, heq⟩ := Option.bind_eq_some_iff.mp hstep
      cases heq
      obtain ⟨hw, hcursor⟩ := h.added hs hadd
      exact ⟨hw, hs, hcursor⟩
  | replace key val =>
      obtain ⟨⟨d', rs⟩, hreplace, heq⟩ := Option.bind_eq_some_iff.mp hstep
      cases heq
      obtain ⟨hw, hcursor⟩ := h.replaced hs hreplace
      exact ⟨hw, hs, hcursor⟩

end

end Walking

theorem Sound.walking {s : DictSys K V} (h : Sound s) :
    Walking (parkedOn s.iters) (s.d.iterators + 1) ⟨s.d, dictGetIterator⟩ where
  counted := (standing_none (parkedOn s.iters)).symm ▸ h.counted
  valid := valid_fresh
  stands := fun a ha => by cases ha
  iterators := by rw [if_neg]; exact fun hst => hst ⟨rfl, rfl⟩
  others := by
    have := h.iterators
    omega

section

variable [DecidableEq K] {o : DictOpts K V}

/-- A walk refines the cursor over the entries there were at its start. -/
theorem walk_refines {p : Nat → Nat} {n : Int} {d : Dict K V}
    (h : Walking p n ⟨d, dictGetIterator⟩) {rest : List (WalkOp K V)} {w : Walk K V}
    {outs : List (Option (Option (DictEntry K V)))}
    (hwalk : Machine.run (Walk.step o) ⟨d, dictGetIterator⟩ (.next :: rest) = some (w, outs)) :
    Walking p n w ∧ w.iter.Started ∧
      Machine.SpecRun (fun c (_ : WalkOp K V) out c' => Cursor.Step c (seen out) c')
        (Walk.cursor ⟨d, dictGetIterator⟩) (.next :: rest) outs w.cursor ∧
      Machine.Along (Walk.step o) (CallSound o) ⟨d, dictGetIterator⟩ (.next :: rest) := by
  -- the iterator is counted from its first step on, and no call rehashes behind that
  obtain ⟨w₁, out, outs', hfirst, hrest, rfl⟩ := Machine.run_cons_eq_some.mp hwalk
  obtain ⟨d', iter', r, hnext, hmem, hw, hst, hcursor⟩ := h.next
  have hstep : Walk.step o ⟨d, dictGetIterator⟩ .next = some (⟨d', iter'⟩, some r) := by
    simp only [Walk.step, hnext, Option.bind_eq_bind, Option.bind_some]
  cases hfirst.symm.trans hstep
  have hany : Machine.Along (Walk.step o) (fun _ _ => True) ⟨d', iter'⟩ rest :=
    Machine.along_of_forall (L := fun _ => True) (fun _ _ _ => trivial) fun _ _ => trivial
  obtain ⟨c', hspec, ⟨hw', hst'⟩, rfl⟩ := Machine.run_refines
    (fun c (_ : WalkOp K V) out c' => Cursor.Step c (seen out) c')
    (R := fun w c => (Walking p n w ∧ w.iter.Started) ∧ c = w.cursor)
    (fun hR _ hstep => by
      obtain ⟨⟨hw, hst⟩, rfl⟩ := hR
      obtain ⟨hw', hst', hcursor⟩ := hw.step hst hstep
      exact ⟨_, hcursor, ⟨hw', hst'⟩, rfl⟩) ⟨⟨hw, hst⟩, rfl⟩ hany hrest
  refine ⟨hw', hst', .cons hcursor hspec, ⟨d', iter', r, hnext, hmem⟩, fun w₂ out₂ hstep₂ => ?_⟩
  cases hstep.symm.trans hstep₂
  exact Machine.along_of_invariant (fun w => Walking p n w ∧ w.iter.Started)
    (fun hR _ hstep => (hR.1.step hR.2 hstep).imp_right And.left)
    (fun hR _ => hR.1.callSound hR.2 _) ⟨hw, hst⟩ hany

/-- While lookups, insertions and replacements go on, an iterator returns no entry twice and
nothing but entries of the dict; at its end it has returned each entry there was at its first
step, and its destruction leaves the count of iterators as it was. -/
theorem dictIterator_exact (o : DictOpts K V) {ops : List (DictOp K V)} {s : DictSys K V}
    {os : List (DictOut K V)} (hreach : Machine.run (DictSys.step o) {} ops = some (s, os))
    {rest : List (WalkOp K V)} {w : Walk K V} {outs : List (Option (Option (DictEntry K V)))}
    (hwalk : Machine.run (Walk.step o) ⟨s.d, dictGetIterator⟩ (.next :: rest) = some (w, outs)) :
    Machine.Along (Walk.step o) (CallSound o) ⟨s.d, dictGetIterator⟩ (.next :: rest) ∧
      ((returned outs).map (·.addr)).Nodup ∧
      (∀ e ∈ returned outs, ∃ e' ∈ w.d.all, e'.addr = e.addr ∧ e'.key = e.key) ∧
      (some none ∈ outs → ∀ e ∈ s.d.all, ((returned outs).map (·.ident)).count e.ident = 1) ∧
      ∃ d', dictIteratorDestroy w.d w.iter = some d' ∧ d'.iterators = s.d.iterators := by
  have hstart := (sound_create.run hreach).walking
  obtain ⟨hw, hst, hspec, hsound⟩ := walk_refines hstart hwalk
  have hcov := Cursor.covers_run hspec (hstart.cursor_sound (ahead_fresh s.d))
  have hvisits : Cursor.visits seen outs = (returned outs).map (·.ident) := by
    rw [Cursor.visits, returned, List.map_filterMap]
    refine List.filterMap_congr fun out _ => ?_
    cases out with
    | none => rfl
    | some r => cases r <;> rfl
  rw [hvisits] at hcov
  have hin : ∀ e ∈ returned outs, ∃ e' ∈ w.d.all, e'.ident = e.ident := fun e he =>
    List.mem_map.mp (hcov.visited _ (List.mem_map_of_mem he))
  refine ⟨hsound, ?_, fun e he => ?_, fun hend e he => ?_, ?_⟩
  · have hall : ((w.d.all.map (·.ident)).map Prod.fst).Nodup := by
      rw [List.map_map]
      exact hw.counted.nodup_all
    have hinj := List.inj_on_of_nodup_map hall
    have hnodup := hcov.nodup.map_on fun x hx y hy heq =>
      hinj (hcov.visited x hx) (hcov.visited y hy) heq
    rwa [List.map_map] at hnodup
  · obtain ⟨e', he', heq⟩ := hin e he
    exact ⟨e', he', congrArg Prod.fst heq, congrArg Prod.snd heq⟩
  · refine List.count_eq_one_of_mem hcov.nodup (hcov.all ⟨_, hend, rfl⟩ _ ?_)
    have hahead : (Walk.cursor ⟨s.d, dictGetIterator⟩).ahead = s.d.all.map (·.ident) :=
      ahead_fresh s.d
    rw [hahead]
    exact List.mem_map_of_mem he
  · obtain ⟨d', hdestroy, -, -, hiters⟩ := hw.counted.destroyed
    refine ⟨d', hdestroy, ?_⟩
    have := hw.iterators
    rw [if_pos hst] at hiters this
    omega

end

def eightAdds : List (DictOp Nat Nat) := (List.range 8).map fun k => .add k k

def growingWalk : List (WalkOp Nat Nat) :=
  [.find 0, .next, .add 8 8, .next, .replace 2 0, .replace 9 9] ++ List.replicate 9 .next

theorem dictIterator_exact_growing :
    ∃ s os w outs, Machine.run (DictSys.step lastDigit) {} eightAdds = some (s, os) ∧
      Machine.run (Walk.step lastDigit) ⟨s.d, dictGetIterator⟩ (.next :: growingWalk) =
        some (w, outs) ∧
      w.d.rehashing = true ∧
      Machine.Along (Walk.step lastDigit) (CallSound lastDigit) ⟨s.d, dictGetIterator⟩
        (.next :: growingWalk) ∧
      ((returned outs).map (·.addr)).Nodup ∧
      (∀ e ∈ returned outs, ∃ e' ∈ w.d.all, e'.addr = e.addr ∧ e'.key = e.key) ∧
      (some none ∈ outs → ∀ e ∈ s.d.all, ((returned outs).map (·.ident)).count e.ident = 1) ∧
      ∃ d', dictIteratorDestroy w.d w.iter = some d' ∧ d'.iterators = s.d.iterators := by
  have hruns : ((Machine.run (DictSys.step lastDigit) {} eightAdds).bind fun r =>
      (Machine.run (Walk.step lastDigit) ⟨r.1.d, dictGetIterator⟩ (.next :: growingWalk)).map
        fun q => q.1.d.rehashing) = some true := by decide
  obtain ⟨⟨s, os⟩, hreach, hruns⟩ := Option.bind_eq_some_iff.mp hruns
  obtain ⟨⟨w, outs⟩, hwalk, hbusy⟩ := Option.map_eq_some_iff.mp hruns
  exact ⟨s, os, w, outs, hreach, hwalk, hbusy, dictIterator_exact lastDigit hreach hwalk⟩

end ThrSocket
