import Mathlib
import Tabc.Automaton.Table
import Tabc.Proofs.Core.Steps

/-!
# What the rows of a parse table hold

A row is filled by letting each item of its state ask for its actions. For one terminal it is a fold over
the items, `asking`; other terminals do not matter.
-/

open List hiding set

namespace Tabc.Automaton

open Tabc.Grammar Tabc.Core
open Option (map_some)
open EStateM (run_bind run_get run_modify)

namespace Filling

/-- The action on a terminal and the item that put it there. -/
def present (f : Filling) (s : Nat) : Option (Move × Item) := (f.entry? s).bind fun e => e.move.map (·, e.item)

theorem bind_move_eq (f : Filling) (s : Nat) : (f.entry? s).bind Entry.move = (f.present s).map Prod.fst := by
  unfold present
  cases f.entry? s with
  | none => rfl
  | some e => cases hm : e.move <;> simp [hm]

variable {f f' : Filling} {s state : Nat} {i : Item}
  {change : Option (Move × Item) → Option (Move × Item)} {g : Rules} {u : Unit}
  {ahead : List (Nat × SymbolSet)}

theorem getD_item_eq (h : f.present s = some (m, i)) (j : Item) : ((f.entry? s).map Entry.item).getD j = i := by
  obtain ⟨e, he, hm⟩ := Option.bind_eq_some_iff.1 h
  obtain ⟨m', -, hmi⟩ := Option.map_eq_some_iff.1 hm
  rw [he]
  exact (Prod.mk.inj hmi).2

theorem find?_replace (entries : List Entry) (s : Nat) (m : Option Move) (i : Item) (x : Nat) :
    (entries.map fun e => if e.symbol == s then ⟨s, m, i⟩ else e).find? (fun e => e.symbol == x) =
      if x = s then (entries.find? fun e => e.symbol == s).map fun _ => ⟨s, m, i⟩
      else entries.find? fun e => e.symbol == x := by
  induction entries with
  | nil => simp
  | cons e entries ih =>
    rw [map_cons, find?_cons, find?_cons, find?_cons, ih]
    by_cases he : e.symbol = s <;> by_cases hx : x = s <;> simp [he, hx] <;> grind

theorem find_put (f : Filling) (s : Nat) (m : Option Move) (i : Item) (x : Nat) :
    Filling.entry? (f.put s m i) x = if x = s then some ⟨s, m, i⟩ else f.entry? x := by
  unfold put entry?
  cases hold : f.row.entries.find? fun e => e.symbol == s with
  | some e => rw [Option.isSome_some, if_pos rfl, find?_replace, hold, map_some]
  | none =>
    rw [if_neg (by simp), find?_append]
    by_cases hx : x = s
    · rw [hx, hold]
      simp
    · simp [hx, Ne.symm hx]

@[simp] theorem present_put (f : Filling) (s : Nat) (m : Option Move) (i : Item) (x : Nat) :
    (f.put s m i).present x = if x = s then m.map (·, i) else f.present x := by
  unfold present
  rw [find_put]
  split <;> rfl

@[simp] theorem present_count (f : Filling) (r : Nat) (d : Int) (x : Nat) : (f.count r d).present x = f.present x := rfl

@[simp] theorem present_propose (f : Filling) (s : Nat) (i : Item) (m : Move) (x : Nat) :
    (f.propose s i m).present x = f.present x := rfl

@[simp] theorem present_note (f : Filling) (state s : Nat) (c : Choice) (x : Nat) :
    (f.noteShiftReduce state s c).present x = f.present x := rfl

/-- The rule is stronger than the terminal, or as strong and grouped to the left. -/
def reduceWins (g : Rules) (s rule : Nat) : Bool :=
  (g.precOf s).level < (g.rule rule).prec.level ||
    ((g.precOf s).level == (g.rule rule).prec.level && (g.rule rule).prec.assoc == .left)

/-- The terminal is stronger than the rule, or as strong and grouped to the right. -/
def shiftWins (g : Rules) (s rule : Nat) : Bool :=
  (g.precOf s).level > (g.rule rule).prec.level ||
    ((g.precOf s).level == (g.rule rule).prec.level && (g.rule rule).prec.assoc == .right)

/-- Neither may come next to the other. -/
def clashes (g : Rules) (s rule : Nat) : Bool :=
  (g.precOf s).level == (g.rule rule).prec.level && (g.rule rule).prec.assoc == .nonassoc

/-- What a complete item makes of the action on a terminal. -/
def reducing (g : Rules) (i : Item) (s : Nat) : Option (Move × Item) → Option (Move × Item)
  | none => some (.reduce i.rule, i)
  | some (.shift j, it) =>
    if reduceWins g s i.rule then some (.reduce i.rule, i)
    else if clashes g s i.rule then none else some (.shift j, it)
  | some (.reduce old, it) =>
    if (g.rule old).line > (g.rule i.rule).line then some (.reduce i.rule, i)
    else some (.reduce old, it)
  | some (.accept, it) => some (.accept, it)

/-- What an item before a terminal makes of the action on it. -/
def shifting (g : Rules) (i : Item) (s target : Nat) : Option (Move × Item) → Option (Move × Item)
  | none => some (.shift target, i)
  | some (.shift j, it) => some (.shift j, it)
  | some (.reduce r, it) =>
    if shiftWins g s it.rule then some (.shift target, i)
    else if clashes g s it.rule then none else some (.reduce r, it)
  | some (.accept, it) => some (.accept, it)

/-- The action on one terminal changes, by a given function. -/
def Changes (s : Nat) (change : Option (Move × Item) → Option (Move × Item)) (f f' : Filling) : Prop :=
  ∀ x, f'.present x = if x = s then change (f.present s) else f.present x

theorem Changes.of_put {m : Option Move} (h : ∀ x, f'.present x = (f.put s m i).present x)
    (hc : change (f.present s) = m.map (·, i)) : Changes s change f f' := by
  intro x
  rw [h, present_put, hc]

theorem Changes.of_same (h : ∀ x, f'.present x = f.present x)
    (hc : change (f.present s) = f.present s) : Changes s change f f' := by
  intro x
  rw [h]
  split
  · rename_i hx
    rw [hx, hc]
  · rfl

/-- A complete item is refused only where the parser accepts. -/
theorem run_reduce (g : Rules) (state : Nat) (i : Item) (s : Nat) (f : Filling) :
    ((∃ it, f.present s = some (.accept, it)) ∧ ∃ x f', (reduce g state i s).run f = .error x f') ∨
      ∃ f', (reduce g state i s).run f = .ok () f' ∧ Changes s (reducing g i s) f f' := by
  unfold reduce
  simp only [run_bind, run_modify, run_get]
  have hsame := present_propose f s i (.reduce i.rule)
  generalize f.propose s i (.reduce i.rule) = f1 at hsame ⊢
  rw [bind_move_eq, hsame]
  cases hp : f.present s with
  | none =>
    refine .inr ⟨_, rfl, .of_put (m := some (.reduce i.rule)) (i := i) (by simp [hsame]) ?_⟩
    rw [hp]
    rfl
  | some mi =>
    obtain ⟨m, it⟩ := mi
    have hp1 : f1.present s = some (m, it) := (hsame s).trans hp
    cases m with
    | accept => exact .inl ⟨⟨it, rfl⟩, _, _, rfl⟩
    | shift j =>
      right
      by_cases hred : reduceWins g s i.rule = true
      · rw [if_pos (by simpa [reduceWins] using hred)]
        refine ⟨_, rfl, .of_put (m := some (.reduce i.rule)) (i := i) (fun x => ?_) ?_⟩
        · split <;> simp [hsame]
        · rw [hp, reducing, if_pos hred]
          rfl
      · rw [if_neg (by simpa [reduceWins] using hred)]
        by_cases hcl : clashes g s i.rule = true
        · rw [if_pos (by simpa [clashes] using hcl)]
          refine ⟨_, rfl, .of_put (m := none) (i := it) (by simp [hsame]) ?_⟩
          rw [hp, reducing, if_neg hred, if_pos hcl]
          rfl
        · rw [if_neg (by simpa [clashes] using hcl)]
          refine ⟨_, rfl, .of_same (fun x => ?_) ?_⟩
          · split <;> simp [hsame]
          · rw [hp, reducing, if_neg hred, if_neg hcl]
    | reduce old =>
      right
      dsimp only [map_some]
      by_cases hline : (g.rule old).line > (g.rule i.rule).line
      · simp only [hline, if_true]
        refine ⟨_, rfl, .of_put (m := some (.reduce i.rule)) (i := i) (fun x => ?_) ?_⟩
        · change (f1.put s (some (.reduce i.rule)) i).present x = _
          simp [hsame]
        · rw [hp, reducing, if_pos hline]
          rfl
      · simp only [hline, if_false]
        refine ⟨_, rfl, .of_same hsame ?_⟩
        rw [hp, reducing, if_neg hline]

/-- A shift is refused where the parser accepts or shifts to another state. -/
theorem run_shift (g : Rules) (state : Nat) (i : Item) (s target : Nat) (f : Filling) :
    ((∃ m it, f.present s = some (m, it) ∧ (m = .accept ∨ ∃ j, m = .shift j ∧ j ≠ target)) ∧
      ∃ x f', (shift g state i s target).run f = .error x f') ∨
    ∃ f', (shift g state i s target).run f = .ok () f' ∧ Changes s (shifting g i s target) f f' := by
  unfold shift
  simp only [run_bind, run_modify, run_get]
  have hsame := present_propose f s i (.shift target)
  generalize f.propose s i (.shift target) = f1 at hsame ⊢
  rw [bind_move_eq, hsame]
  cases hp : f.present s with
  | none =>
    refine .inr ⟨_, rfl, .of_put (m := some (.shift target)) (i := i) (by simp [hsame]) ?_⟩
    rw [hp]
    rfl
  | some mi =>
    obtain ⟨m, it⟩ := mi
    have hp1 : f1.present s = some (m, it) := (hsame s).trans hp
    cases m with
    | accept => exact .inl ⟨⟨_, it, rfl, .inl rfl⟩, _, _, rfl⟩
    | shift j =>
      dsimp only [map_some]
      by_cases hj : j = target
      · rw [if_pos (beq_iff_eq.2 hj)]
        exact .inr ⟨_, rfl, .of_same hsame (by rw [hp]; rfl)⟩
      · rw [if_neg (by simpa using hj)]
        exact .inl ⟨⟨_, it, rfl, .inr ⟨j, rfl, hj⟩⟩, _, _, rfl⟩
    | reduce old =>
      right
      rw [getD_item_eq hp1]
      by_cases hsh : shiftWins g s it.rule = true
      · rw [if_pos (by simpa [shiftWins] using hsh)]
        refine ⟨_, rfl, .of_put (m := some (.shift target)) (i := i) (fun x => ?_) ?_⟩
        · split <;> simp [hsame]
        · rw [hp, shifting, if_pos hsh]
          rfl
      · rw [if_neg (by simpa [shiftWins] using hsh)]
        by_cases hcl : clashes g s it.rule = true
        · rw [if_pos (by simpa [clashes] using hcl)]
          refine ⟨_, rfl, .of_put (m := none) (i := it) (by simp [hsame]) ?_⟩
          rw [hp, shifting, if_neg hsh, if_pos hcl]
          rfl
        · rw [if_neg (by simpa [clashes] using hcl)]
          refine ⟨_, rfl, .of_same (fun x => ?_) ?_⟩
          · split <;> simp [hsame]
          · rw [hp, shifting, if_neg hsh, if_neg hcl]

def asking (g : Rules) (q : ItemSet) (ahead : List (Nat × SymbolSet)) (s : Nat)
    (present : Option (Move × Item)) (i : Item) : Option (Move × Item) :=
  match i.next? g with
  | none =>
    if i.rule = 0 then if s = g.endMark then some (.accept, i) else present
    else match ahead.lookup i.rule with
      | none => present
      | some set => set.toList.foldl (fun p x => if x = s then reducing g i s p else p) present
  | some x =>
    if g.isTerminal x = true ∧ x = s then match q.goto? s with
      | some target => shifting g i s target present
      | none => present
    else present

theorem run_forM_reduce {ss : List Nat} (h : (ss.forM (reduce g state i)).run f = .ok u f') (s : Nat) :
    f'.present s = ss.foldl (fun p x => if x = s then reducing g i s p else p) (f.present s) := by
  induction ss generalizing f with
  | nil =>
    cases h
    rfl
  | cons x ss ih =>
    obtain ⟨_, f1, hx, hss⟩ := of_run_bind h
    rcases run_reduce g state i x f with ⟨-, _, _, herr⟩ | ⟨f2, hok, hchange⟩
    · rw [herr] at hx
      cases hx
    rw [hok] at hx
    cases hx
    rw [foldl_cons, ih hss, hchange s]
    by_cases hsx : s = x
    · rw [hsx]
    · rw [if_neg hsx, if_neg (Ne.symm hsx)]

theorem run_item (h : (item g q state ahead i).run f = .ok u f') (s : Nat) :
    f'.present s = asking g q ahead s (f.present s) i := by
  unfold item at h
  unfold asking
  cases hnext : i.next? g with
  | none =>
    simp only [hnext] at h ⊢
    by_cases hzero : i.rule = 0
    · rw [if_pos (by simpa using hzero)] at h
      rw [if_pos hzero]
      cases h
      exact present_put _ _ _ _ _
    · rw [if_neg (by simpa using hzero)] at h
      rw [if_neg hzero]
      cases hahead : ahead.lookup i.rule with
      | none =>
        simp only [hahead] at h
        cases h
      | some set =>
        simp only [hahead] at h
        exact run_forM_reduce h s
  | some x =>
    simp only [hnext] at h ⊢
    by_cases hterm : g.isTerminal x = true
    · rw [if_pos hterm] at h
      cases hgoto : q.goto? x with
      | none =>
        simp only [hgoto] at h
        cases h
        by_cases hx : x = s
        · rw [if_pos ⟨hterm, hx⟩, ← hx, hgoto]
        · rw [if_neg fun h => hx h.2]
      | some target =>
        simp only [hgoto] at h
        rcases run_shift g state i x target f with ⟨-, _, _, herr⟩ | ⟨f1, hok, hchange⟩
        · rw [herr] at h
          cases h
        rw [hok] at h
        cases h
        rw [hchange s]
        by_cases hx : x = s
        · rw [if_pos hx.symm, if_pos ⟨hterm, hx⟩, ← hx, hgoto]
        · rw [if_neg (Ne.symm hx), if_neg fun h => hx h.2]
    · rw [if_neg hterm] at h
      cases h
      rw [if_neg fun h => hterm h.1]

theorem run_items {is : List Item} (h : (is.forM (item g q state ahead)).run f = .ok u f') (s : Nat) :
    f'.present s = is.foldl (asking g q ahead s) (f.present s) := by
  induction is generalizing f with
  | nil =>
    cases h
    rfl
  | cons i is ih =>
    obtain ⟨_, f1, hi, his⟩ := of_run_bind h
    rw [foldl_cons, ih his, run_item hi s]

end Filling

inductive Asked (g : Rules) (q : ItemSet) : Nat → Move → Item → Prop
  | shift {s j : Nat} {i : Item} (hi : i ∈ q.items) (hnext : i.next? g = some s)
    (hterm : g.isTerminal s = true) (hgoto : q.goto? s = some j) : Asked g q s (.shift j) i
  | reduce (s : Nat) {i : Item} (hi : i ∈ q.items) (hnext : i.next? g = none) (hrule : i.rule ≠ 0) :
    Asked g q s (.reduce i.rule) i
  | accept {i : Item} (hi : i ∈ q.items) (hnext : i.next? g = none) (hrule : i.rule = 0) : Asked g q g.endMark .accept i

namespace Asked

open Filling

variable {g : Rules} {q : ItemSet} {s : Nat} {i : Item}

variable {present : Option (Move × Item)} {m : Move} {it : Item} {ahead : List (Nat × SymbolSet)}

theorem reducing (hi : i ∈ q.items) (hnext : i.next? g = none) (hrule : i.rule ≠ 0)
    (h : ∀ m it, present = some (m, it) → Asked g q s m it)
    (hm : Filling.reducing g i s present = some (m, it)) : Asked g q s m it := by
  have hnew : some (Move.reduce i.rule, i) = some (m, it) → Asked g q s m it := by
    intro heq
    cases heq
    exact .reduce s hi hnext hrule
  unfold Filling.reducing at hm
  split at hm
  · exact hnew hm
  · split at hm
    · exact hnew hm
    · split at hm
      · cases hm
      · exact h m it hm
  · split at hm
    · exact hnew hm
    · exact h m it hm
  · exact h m it hm

theorem shifting (hi : i ∈ q.items) (hnext : i.next? g = some s)
    (hterm : g.isTerminal s = true) (hgoto : q.goto? s = some target)
    (h : ∀ m it, present = some (m, it) → Asked g q s m it)
    (hm : Filling.shifting g i s target present = some (m, it)) : Asked g q s m it := by
  have hnew : some (Move.shift target, i) = some (m, it) → Asked g q s m it := by
    intro heq
    cases heq
    exact .shift hi hnext hterm hgoto
  unfold Filling.shifting at hm
  split at hm
  · exact hnew hm
  · exact h m it hm
  · split at hm
    · exact hnew hm
    · split at hm
      · cases hm
      · exact h m it hm
  · exact h m it hm

theorem asking (hi : i ∈ q.items) (h : ∀ m it, present = some (m, it) → Asked g q s m it)
    (hm : Filling.asking g q ahead s present i = some (m, it)) : Asked g q s m it := by
  unfold Filling.asking at hm
  split at hm
  · rename_i hnext
    split at hm
    · rename_i hrule
      split at hm
      · rename_i hs
        cases hm
        rw [hs]
        exact .accept hi hnext hrule
      · exact h m it hm
    · rename_i hrule
      split at hm
      · exact h m it hm
      rename_i set _
      generalize set.toList = xs at hm
      induction xs generalizing present with
      | nil => exact h m it hm
      | cons x xs ih =>
        rw [foldl_cons] at hm
        refine ih (fun m' it' hm' => ?_) hm
        split at hm'
        · exact reducing hi hnext hrule h hm'
        · exact h m' it' hm'
  · rename_i x hnext
    split at hm
    · rename_i hx
      split at hm
      · rename_i target hgoto
        exact shifting hi (hx.2 ▸ hnext) (hx.2 ▸ hx.1) hgoto h hm
      · exact h m it hm
    · exact h m it hm

theorem goto (h : Asked g q s (.shift j) i) : g.isTerminal s = true ∧ q.goto? s = some j := by
  cases h with
  | shift _ _ hterm hgoto => exact ⟨hterm, hgoto⟩

theorem complete (h : Asked g q s (.reduce r) i) : i ∈ q.items ∧ i.next? g = none ∧ i.rule = r ∧ r ≠ 0 := by
  cases h with
  | reduce _ hi hnext hrule => exact ⟨hi, hnext, rfl, hrule⟩

theorem start (h : Asked g q s .accept i) : i ∈ q.items ∧ i.next? g = none ∧ i.rule = 0 ∧ s = g.endMark := by
  cases h with
  | accept hi hnext hrule => exact ⟨hi, hnext, hrule, rfl⟩

theorem fold (is : List Item) (his : ∀ i ∈ is, i ∈ q.items) (h : ∀ m it, present = some (m, it) → Asked g q s m it)
    (hm : is.foldl (Filling.asking g q ahead s) present = some (m, it)) : Asked g q s m it := by
  induction is generalizing present with
  | nil => exact h m it hm
  | cons i is ih =>
    refine ih (fun j hj => his j (.tail _ hj)) (fun m' it' hm' => ?_) hm
    exact asking (his i (.head _)) h hm'

end Asked

structure Row.Of (g : Rules) (q : ItemSet) (ahead : List (Nat × SymbolSet)) (row : Row) : Prop where
  move? : ∀ s, row.move? s = (q.items.foldl (Filling.asking g q ahead s) none).map Prod.fst
  gotos : row.gotos = Automaton.gotos g q

namespace Row.Of

variable {g : Rules} {q : ItemSet} {ahead : List (Nat × SymbolSet)} {row : Row}

theorem asked (h : row.Of g q ahead) (hm : row.move? s = some m) : ∃ i, Asked g q s m i := by
  rw [h.move? s] at hm
  obtain ⟨⟨m', i⟩, hfold, rfl⟩ := Option.map_eq_some_iff.1 hm
  exact ⟨i, .fold q.items (fun _ hi => hi) (by simp) hfold⟩

theorem exists_of_defaulted? (hr : row.defaulted? = some r) : ∃ s, row.move? s = some (.reduce r) := by
  unfold Row.defaulted? at hr
  split at hr
  · rename_i s r' i hentries
    cases hr
    refine ⟨s, ?_⟩
    unfold Row.move?
    rw [hentries]
    simp
  · cases hr

theorem goto? (h : row.Of g q ahead) (hs : row.goto? s = some j) : q.goto? s = some j := by
  unfold Row.goto? at hs
  rw [h.gotos] at hs
  obtain ⟨l1, l2, hl, -⟩ := lookup_eq_some_iff.1 hs
  have hmem : (s, j) ∈ Automaton.gotos g q := by
    rw [hl]
    simp
  simp only [Automaton.gotos, mem_filterMap] at hmem
  obtain ⟨x, -, hx⟩ := hmem
  split at hx
  · obtain ⟨j', hj', heq⟩ := Option.map_eq_some_iff.1 hx
    cases heq
    exact hj'
  · cases hx

end Row.Of

variable {g : Rules} {t : Table}

theorem run_addRow (h : (Table.addRow g q ahead).run t = .ok u t') :
    ∃ row : Row, t'.rows = t.rows.push row ∧ row.Of g q ahead := by
  unfold Table.addRow at h
  rw [run_bind, run_get] at h
  dsimp only at h
  split at h
  · rename_i f hf
    cases h
    refine ⟨{ f.row with gotos := gotos g q }, rfl, fun s => ?_, rfl⟩
    have hpresent := Filling.run_items hf s
    change (f.entry? s).bind Entry.move = _
    rw [Filling.bind_move_eq, hpresent]
    rfl
  · obtain ⟨_, _, _, hx⟩ := of_run_bind h
    cases hx

theorem run_addRows {ahead : Array (List (Nat × SymbolSet))} {qs : List (ItemSet × Nat)} {t' : Table}
    (h : (qs.forM fun (q, i) => Table.addRow g q (ahead.getD i [])).run t = .ok u t') :
    t'.rows.size = t.rows.size + qs.length ∧
    (∀ (k : Nat) (row : Row), t.rows[k]? = some row → t'.rows[k]? = some row) ∧
    ∀ (k : Nat) (q : ItemSet) (i : Nat), qs[k]? = some (q, i) →
      ∃ row : Row, t'.rows[t.rows.size + k]? = some row ∧ row.Of g q (ahead.getD i []) := by
  induction qs generalizing t with
  | nil =>
    cases h
    simp
  | cons p qs ih =>
    obtain ⟨_, t1, hrow, hrest⟩ := of_run_bind h
    obtain ⟨row, hpush, hof⟩ := run_addRow hrow
    obtain ⟨hsize, hkeep, hnew⟩ := ih hrest
    rw [hpush, Array.size_push] at hsize hnew
    refine ⟨by rw [length_cons]; omega, fun k r hk => hkeep k r ?_, ?_⟩
    · rw [hpush, Array.getElem?_push_lt (Array.getElem?_eq_some_iff.1 hk).1]
      exact (Array.getElem?_eq_getElem (Array.getElem?_eq_some_iff.1 hk).1).symm.trans hk
    intro k q' i' hk
    cases k with
    | zero =>
      cases hk
      refine ⟨row, hkeep _ _ ?_, hof⟩
      rw [hpush, Nat.add_zero, Array.getElem?_push_size]
    | succ k =>
      obtain ⟨row', hrow', hof'⟩ := hnew k q' i' hk
      exact ⟨row', by rw [← hrow']; congr 1; omega, hof'⟩

/-- The states from which the table of a grammar is built. -/
def states (g : Rules) : List ItemSet := itemSets g (stateBound g)

theorem rows_of_build (h : Table.build g reduced = .ok t) :
    t.rows.size = (states g).length ∧ ∀ (i : Nat) (q : ItemSet), (states g)[i]? = some q → ∃ row : Row,
      t.rows[i]? = some row ∧ row.Of g q ((lookaheads g (states g).toArray).getD i []) := by
  unfold Table.build at h
  split at h
  · rename_i hfill
    cases h
    obtain ⟨hsize, -, hrows⟩ := run_addRows hfill
    refine ⟨by simpa [Table.empty, states] using hsize, fun i q hq => ?_⟩
    obtain ⟨row, hrow, hof⟩ := hrows i q i (by simpa [states] using hq)
    exact ⟨row, by simpa [Table.empty] using hrow, hof⟩
  · cases h

end Tabc.Automaton
