import Tabc.Proofs.Automaton.Walks
import Tabc.Proofs.Automaton.Exploration

/-!
# Terminals that are looked for

`Follows g t a` says without sets that the terminal `a` may come after the transition `t`. Whatever may come
after the head of a rule is in its lookahead set where it ends (`mem_lookahead`).
-/

open List

namespace Tabc.Automaton

open Array (getD_eq_getD_getElem? size_modify)
open Tabc.Grammar

variable {g : Rules}

structure NumberedBy (ts : Array Transition) (state : Nat) (found : List Nat)
    (row : List (Nat × Nat)) : Prop where
  number : ∀ s ∈ found, ∃ n, row.lookup s = some n
  transition : ∀ s n, row.lookup s = some n → ts[n]? = some ⟨state, s⟩

theorem pushAll (state : Nat) (found : List Nat) (ts : Array Transition) :
    found.foldl (fun ts s => ts.push ⟨state, s⟩) ts = ts ++ (found.map (Transition.mk state)).toArray := by
  induction found generalizing ts with
  | nil => simp
  | cons s found ih =>
    simp

variable {found members : List Nat} {s n state a r x y count i : Nat} {m : Moves}
  {links : List (List (Nat × Nat) × List Nat)} {row : List (Nat × SymbolSet)}
  {table : Array (List (Nat × SymbolSet))} {q : ItemSet}

theorem lookup_zipIdx (h : ((found.zipIdx).map fun (s, i) => (s, k + i)).lookup s = some n) :
    ∃ i, n = k + i ∧ found[i]? = some s := by
  obtain ⟨l1, l2, hl, -⟩ := lookup_eq_some_iff.1 h
  have hmem : (s, n) ∈ (found.zipIdx).map fun (s, i) => (s, k + i) := by
    rw [hl]
    simp
  obtain ⟨⟨s', i⟩, hi, heq⟩ := mem_map.1 hmem
  obtain ⟨rfl, rfl⟩ := Prod.mk.inj heq
  exact ⟨i, rfl, (mem_zipIdx_iff_getElem?.1 hi)⟩

theorem numberedBy_new (state : Nat) (found : List Nat) (ts : Array Transition) :
    NumberedBy (found.foldl (fun ts s => ts.push ⟨state, s⟩) ts) state found
      (found.zipIdx.map fun (s, i) => (s, ts.size + i)) := by
  constructor
  · intro s hs
    obtain ⟨i, hi⟩ := getElem?_of_mem hs
    rw [← Option.isSome_iff_exists, lookup_isSome_iff]
    refine ⟨(s, ts.size + i), mem_map.2 ⟨(s, i), ?_, rfl⟩, by simp⟩
    exact mem_zipIdx_iff_getElem?.2 hi
  · intro s n h
    obtain ⟨i, rfl, hi⟩ := lookup_zipIdx h
    rw [pushAll, Array.getElem?_append_right (by omega), Nat.add_sub_cancel_left]
    simp [hi]

theorem NumberedBy.grow {ts : Array Transition} {state' : Nat} {found' : List Nat}
    {row : List (Nat × Nat)} (h : NumberedBy ts state found row) :
    NumberedBy (found'.foldl (fun ts s => ts.push ⟨state', s⟩) ts) state found row := by
  refine ⟨h.number, fun s n hn => ?_⟩
  have hget := h.transition s n hn
  rw [pushAll, Array.getElem?_append_left (Array.getElem?_eq_some_iff.1 hget).1]
  exact hget

def numberNext (g : Rules) (acc : Array Transition × Array (List (Nat × Nat)))
    (p : ItemSet × Nat) : Array Transition × Array (List (Nat × Nat)) :=
  ((leaving g p.1).foldl (fun ts s => ts.push ⟨p.2, s⟩) acc.1,
    acc.2.push ((leaving g p.1).zipIdx.map fun (s, k) => (s, acc.1.size + k)))

structure AllNumbered (g : Rules) (done : List ItemSet)
    (acc : Array Transition × Array (List (Nat × Nat))) : Prop where
  size : acc.2.size = done.length
  rows : ∀ (k : Nat) (p : ItemSet), done[k]? = some p → NumberedBy acc.1 k (leaving g p) (acc.2.getD k [])

theorem AllNumbered.next (h : AllNumbered g done acc) (q : ItemSet) :
    AllNumbered g (done ++ [q]) (numberNext g acc (q, done.length)) := by
  refine ⟨by simp [numberNext, h.size], fun k p hk => ?_⟩
  unfold numberNext
  have hsize := h.size
  rw [getElem?_append] at hk
  split at hk
  · rw [getD_eq_getD_getElem?, Array.getElem?_push_lt (by omega),
      ← Array.getElem?_eq_getElem (by omega), ← getD_eq_getD_getElem?]
    exact (h.rows k p hk).grow
  · rw [getElem?_singleton] at hk
    split at hk
    · have hk' : k = done.length := by omega
      cases hk
      rw [hk', ← hsize, getD_eq_getD_getElem?, Array.getElem?_push_size]
      exact numberedBy_new _ _ _
    · cases hk

theorem allNumbered_of (g : Rules) (states : Array ItemSet) :
    AllNumbered g states.toList ((Moves.of g states).transitions, (Moves.of g states).numbers) := by
  have hfold : ∀ (qs done : List ItemSet) (acc : Array Transition × Array (List (Nat × Nat))), AllNumbered g done acc →
      AllNumbered g (done ++ qs) ((qs.zipIdx done.length).foldl (numberNext g) acc) := by
    intro qs
    induction qs with
    | nil => simp
    | cons q qs ih =>
      intro done acc h
      rw [zipIdx_cons, append_cons]
      have := ih (done ++ [q]) _ (h.next q)
      rwa [length_append] at this
  exact hfold states.toList [] (#[], #[]) ⟨rfl, by simp⟩

section

variable {states : Array ItemSet} {i n s : Nat} {q : ItemSet}

theorem exists_number? (hq : states[i]? = some q) (hs : s ∈ leaving g q) :
    ∃ n, (Moves.of g states).number? i s = some n :=
  ((allNumbered_of g states).rows i q (by simpa using hq)).number s hs

theorem transition_of_number? (h : (Moves.of g states).number? i s = some n) :
    (Moves.of g states).transitions[n]? = some ⟨i, s⟩ := by
  have hall := allNumbered_of g states
  cases hq : states[i]? with
  | some q => exact (hall.rows i q (by simpa using hq)).transition s n h
  | none =>
    have hlen : (Moves.of g states).numbers.size ≤ i := by
      have := hall.size
      rw [Array.getElem?_eq_none_iff] at hq
      simp at this
      omega
    unfold Moves.number? at h
    rw [getD_eq_getD_getElem?, Array.getElem?_eq_none hlen] at h
    cases h

end

theorem good_directReads (g : Rules) (m : Moves) (t : Transition) : (directReads g m t).Good := by
  unfold directReads
  have hgood := (SymbolSet.good_empty.foldl_insert
    ((m.items (m.goto t.state t.symbol)).filterMap fun i => (i.next? g).filter g.isTerminal)).1
  split
  · exact hgood.insert _
  · exact hgood

theorem mem_directReads {t : Transition} {i : Item} (hi : i ∈ m.items (m.goto t.state t.symbol))
    (ha : i.next? g = some a) (hterm : g.isTerminal a = true) : a ∈ (directReads g m t).toList := by
  have hmem : a ∈ (m.items (m.goto t.state t.symbol)).filterMap fun i => (i.next? g).filter g.isTerminal :=
    mem_filterMap.2 ⟨i, hi, by rw [ha]; simp [hterm]⟩
  obtain ⟨hgood, hset⟩ := SymbolSet.good_empty.foldl_insert
    ((m.items (m.goto t.state t.symbol)).filterMap fun i => (i.next? g).filter g.isTerminal)
  unfold directReads
  split
  · exact (SymbolSet.mem_insert hgood).2 (.inr ((hset a).2 (.inr hmem)))
  · exact (hset a).2 (.inr hmem)

theorem endMark_mem_directReads (g : Rules) (m : Moves) : g.endMark ∈ (directReads g m ⟨0, g.start⟩).toList := by
  unfold directReads
  rw [if_pos (by simp)]
  exact (SymbolSet.mem_insert (SymbolSet.good_empty.foldl_insert _).1).2 (.inl rfl)

def Moves.along (m : Moves) (state : Nat) (ss : List Nat) : Nat := ss.foldl m.goto state

theorem follow_spec (g : Rules) (m : Moves) (ss : List Nat) (state : Nat) (found : List Nat) :
    (follow g m ss state found).2 = m.along state ss ∧ ∀ n ∈ found, n ∈ (follow g m ss state found).1 := by
  induction ss generalizing state found with
  | nil => exact ⟨rfl, fun _ hn => hn⟩
  | cons s ss ih =>
    unfold follow
    refine ⟨(ih _ _).1, fun n hn => (ih _ _).2 n ?_⟩
    split
    · split
      · exact mem_append_left _ hn
      · exact hn
    · exact hn

theorem mem_follow (hn : m.number? (m.along state ss) s = some n) : n ∈ (follow g m (ss ++ [s]) state found).1 := by
  induction ss generalizing state found with
  | nil =>
    have hnum : m.number? state s = some n := hn
    simp [follow, hnum]
  | cons s' ss ih =>
    exact ih hn

/-- What one item adds to the places where the rules of a transition end. -/
def lookbackNext (g : Rules) (m : Moves) (t : Transition) (acc : List (Nat × Nat) × List Nat)
    (p : Item) : List (Nat × Nat) × List Nat :=
  let rule := g.rule p.rule
  if p.rule == 0 || rule.head != t.symbol then acc else
    let (includes, last) := follow g m (rule.body.drop p.dot) t.state acc.2
    let complete := (m.items last).filter fun r =>
      r.rule != 0 && r.isFinal g && (g.rule r.rule).head == t.symbol && (g.rule r.rule).body == (p.shown g).tail
    (acc.1 ++ complete.map fun r => (last, r.rule), includes)

theorem lookback_eq (g : Rules) (m : Moves) (t : Transition) :
    lookback g m t = (m.items t.state).foldl (lookbackNext g m t) ([], []) := rfl

theorem lookbackNext_mono (g : Rules) (m : Moves) (t : Transition) (acc : List (Nat × Nat) × List Nat) (p : Item) :
    (∀ x ∈ acc.1, x ∈ (lookbackNext g m t acc p).1) ∧ ∀ n ∈ acc.2, n ∈ (lookbackNext g m t acc p).2 := by
  unfold lookbackNext
  dsimp only
  split
  · exact ⟨fun _ h => h, fun _ h => h⟩
  · exact ⟨fun x hx => mem_append_left _ hx, (follow_spec g m _ _ _).2⟩

theorem lookback_mono (g : Rules) (m : Moves) (t : Transition) (items : List Item) (acc : List (Nat × Nat) × List Nat) :
    (∀ x ∈ acc.1, x ∈ (items.foldl (lookbackNext g m t) acc).1) ∧
      ∀ n ∈ acc.2, n ∈ (items.foldl (lookbackNext g m t) acc).2 := by
  induction items generalizing acc with
  | nil => exact ⟨fun _ h => h, fun _ h => h⟩
  | cons p items ih =>
    rw [foldl_cons]
    obtain ⟨hback, hincl⟩ := lookbackNext_mono g m t acc p
    obtain ⟨hback', hincl'⟩ := ih (lookbackNext g m t acc p)
    exact ⟨fun x hx => hback' x (hback x hx), fun n hn => hincl' n (hincl n hn)⟩

theorem mem_lookback (hr : r ≠ 0) (hbegin : (⟨r, 0⟩ : Item) ∈ m.items state)
    (hend : (⟨r, (g.rule r).body.length⟩ : Item) ∈ m.items (m.along state (g.rule r).body)) :
    (m.along state (g.rule r).body, r) ∈ (lookback g m ⟨state, (g.rule r).head⟩).1 := by
  obtain ⟨before, after, hitems⟩ := append_of_mem hbegin
  rw [lookback_eq, hitems, foldl_append]
  refine (lookback_mono g m _ after _).1 _ ?_
  generalize before.foldl (lookbackNext g m ⟨state, (g.rule r).head⟩) ([], []) = acc
  have hlast := (follow_spec g m (g.rule r).body state acc.2).1
  unfold lookbackNext
  rw [if_neg (by simp [hr])]
  dsimp only
  rw [drop_zero, hlast]
  refine mem_append_right _ (mem_map.2 ⟨_, mem_filter.2 ⟨hend, ?_⟩, rfl⟩)
  simp [hr, Item.isFinal, Item.shown]

theorem mem_includes (hr : r ≠ 0) (hbegin : (⟨r, 0⟩ : Item) ∈ m.items state)
    (hbody : (g.rule r).body = ss ++ [s]) (hn : m.number? (m.along state ss) s = some n) :
    n ∈ (lookback g m ⟨state, (g.rule r).head⟩).2 := by
  obtain ⟨before, after, hitems⟩ := append_of_mem hbegin
  rw [lookback_eq, hitems, foldl_append]
  refine (lookback_mono g m _ after _).2 _ ?_
  generalize before.foldl (lookbackNext g m ⟨state, (g.rule r).head⟩) ([], []) = acc
  unfold lookbackNext
  rw [if_neg (by simp [hr])]
  rw [hbody]
  exact mem_follow hn

theorem getD_modify {α : Type} (xs : Array α) (i j : Nat) (f : α → α) (d : α) :
    (xs.modify i f).getD j d = if i = j ∧ j < xs.size then f (xs.getD j d) else xs.getD j d := by
  rw [getD_eq_getD_getElem?, Array.getElem?_modify]
  by_cases hij : i = j
  · subst hij
    by_cases hi : i < xs.size <;> simp [hi]
  · simp [hij]

def enterAll (x : Nat) (ys : List Nat) (table : Array (List Nat)) : Array (List Nat) :=
  ys.foldl (fun table y => table.modify y (· ++ [x])) table

theorem mem_enterAll {ys : List Nat} {table : Array (List Nat)} (hy : y < table.size) :
    n ∈ (enterAll x ys table).getD y [] ↔ n ∈ table.getD y [] ∨ (n = x ∧ y ∈ ys) := by
  unfold enterAll
  induction ys generalizing table with
  | nil => simp
  | cons y' ys ih =>
    rw [foldl_cons, ih (by rw [size_modify]; exact hy), getD_modify]
    by_cases hyy : y' = y
    · simp [hyy, hy]
      tauto
    · simp [hyy, Ne.symm hyy]

theorem size_enterAll (x : Nat) (ys : List Nat) (table : Array (List Nat)) :
    (enterAll x ys table).size = table.size := by
  unfold enterAll
  induction ys generalizing table with
  | nil => rfl
  | cons y ys ih => rw [foldl_cons, ih, size_modify]

/-- The transitions that include each transition, as `lookaheads` collects them. -/
def includesOf (links : List (List (Nat × Nat) × List Nat)) (count : Nat) : Array (List Nat) :=
  links.zipIdx.foldl (fun table p => enterAll p.2 p.1.2 table) (Array.replicate count [])

theorem mem_includesOf (hy : y < count) :
    x ∈ (includesOf links count).getD y [] ↔ ∃ link, links[x]? = some link ∧ y ∈ link.2 := by
  have hfold : ∀ (ps : List ((List (Nat × Nat) × List Nat) × Nat)) (table : Array (List Nat)),
      y < table.size → (x ∈ (ps.foldl (fun table p => enterAll p.2 p.1.2 table) table).getD y [] ↔
        x ∈ table.getD y [] ∨ ∃ link, (link, x) ∈ ps ∧ y ∈ link.2) := by
    intro ps
    induction ps with
    | nil => simp
    | cons p ps ih =>
      intro table hsize
      obtain ⟨link, n⟩ := p
      rw [foldl_cons, ih _ (by rw [size_enterAll]; exact hsize), mem_enterAll hsize]
      simp only [mem_cons, Prod.mk.injEq]
      constructor
      · rintro ((h | ⟨rfl, h⟩) | ⟨link', h, h'⟩)
        · exact .inl h
        · exact .inr ⟨link, .inl ⟨rfl, rfl⟩, h⟩
        · exact .inr ⟨link', .inr h, h'⟩
      · rintro (h | ⟨link', ⟨rfl, rfl⟩ | h, h'⟩)
        · exact .inl (.inl h)
        · exact .inl (.inr ⟨rfl, h'⟩)
        · exact .inr ⟨link', h, h'⟩
  have hempty : x ∉ (Array.replicate count ([] : List Nat)).getD y [] := by
    rw [getD_eq_getD_getElem?, Array.getElem?_replicate]
    split <;> simp
  unfold includesOf
  rw [hfold _ _ (by simpa using hy)]
  simp only [hempty, false_or, mem_zipIdx_iff_getElem?]

def Holds (row : List (Nat × SymbolSet)) (rule : Nat) (members : List Nat) : Prop :=
  ∃ set, row.lookup rule = some set ∧ ∀ a ∈ members, a ∈ set.toList

def GoodRow (row : List (Nat × SymbolSet)) : Prop := ∀ p ∈ row, p.2.Good

def addTo (row : List (Nat × SymbolSet)) (rule : Nat) (set : SymbolSet) : List (Nat × SymbolSet) :=
  match row.lookup rule with
  | some old => row.map fun (r, s) => if r == rule then (r, old.union set) else (r, s)
  | none => row ++ [(rule, SymbolSet.empty.union set)]

theorem lookup_replace (r : Nat) :
    (row.map fun (r, s) => if r == rule then (r, new) else (r, s)).lookup r =
      if r = rule then (row.lookup r).map fun _ => new else row.lookup r := by
  induction row with
  | nil => simp
  | cons p row ih =>
    obtain ⟨r', s⟩ := p
    have hhead : (if r' == rule then (r', new) else (r', s)) = (r', if r' == rule then new else s) := by split <;> rfl
    rw [map_cons]
    dsimp only
    rw [hhead, lookup_cons, lookup_cons]
    by_cases hr : r = r'
    · subst hr
      by_cases hrule : r = rule <;> simp [hrule]
    · rw [beq_eq_false_iff_ne.2 hr]
      exact ih

theorem good_of_lookup (h : GoodRow row) {set : SymbolSet} (hl : row.lookup rule = some set) : set.Good := by
  obtain ⟨l1, l2, rfl, -⟩ := lookup_eq_some_iff.1 hl
  exact h (rule, set) (by simp)

theorem goodRow_addTo (h : GoodRow row) (rule : Nat) (set : SymbolSet) : GoodRow (addTo row rule set) := by
  unfold addTo
  split
  · rename_i old hold
    intro p hp
    obtain ⟨⟨r, s⟩, hmem, rfl⟩ := mem_map.1 hp
    dsimp only
    split
    · exact (good_of_lookup h hold).union set
    · exact h _ hmem
  · intro p hp
    rcases mem_append.1 hp with hp | hp
    · exact h p hp
    · rw [mem_singleton.1 hp]
      exact SymbolSet.good_empty.union set

theorem holds_addTo (h : GoodRow row) (rule : Nat) (set : SymbolSet) : Holds (addTo row rule set) rule set.toList := by
  unfold addTo
  cases hold : row.lookup rule with
  | some old =>
    refine ⟨old.union set, ?_, fun a ha => ?_⟩
    · rw [lookup_replace, if_pos rfl, hold]
      rfl
    · exact (SymbolSet.mem_union (good_of_lookup h hold) set a).2 (.inr ha)
  | none =>
    refine ⟨SymbolSet.empty.union set, ?_, fun a ha => ?_⟩
    · rw [lookup_append, hold]
      simp
    · exact (SymbolSet.mem_union SymbolSet.good_empty set a).2 (.inr ha)

theorem Holds.addTo (h : GoodRow row) (hr : Holds row r members) (rule : Nat) (set : SymbolSet) :
    Holds (addTo row rule set) r members := by
  obtain ⟨old, hold, hmem⟩ := hr
  unfold Automaton.addTo
  cases hrule : row.lookup rule with
  | some old' =>
    by_cases hrr : r = rule
    · subst hrr
      obtain rfl : old' = old := Option.some.inj (hrule.symm.trans hold)
      refine ⟨old'.union set, ?_, fun a ha => ?_⟩
      · rw [lookup_replace, if_pos rfl, hold]
        rfl
      · exact (SymbolSet.mem_union (good_of_lookup h hrule) set a).2 (.inl (hmem a ha))
    · refine ⟨old, ?_, hmem⟩
      rw [lookup_replace, if_neg hrr, hold]
  | none =>
    refine ⟨old, ?_, hmem⟩
    rw [lookup_append, hold]
    rfl

theorem addLookahead_eq (table : Array (List (Nat × SymbolSet))) (state rule : Nat) (set : SymbolSet) :
    addLookahead table state rule set = table.modify state fun row => addTo row rule set := rfl

structure Filled (count : Nat) (table : Array (List (Nat × SymbolSet))) : Prop where
  size : table.size = count
  good : ∀ i, GoodRow (table.getD i [])

theorem Filled.add (h : Filled count table) (state rule : Nat) (set : SymbolSet) :
    Filled count (addLookahead table state rule set) := by
  rw [addLookahead_eq]
  refine ⟨by rw [size_modify]; exact h.size, fun i => ?_⟩
  rw [getD_modify]
  split
  · exact goodRow_addTo (h.good i) rule set
  · exact h.good i

theorem Filled.holds_add (h : Filled count table) (hr : Holds (table.getD i []) r members)
    (state rule : Nat) (set : SymbolSet) :
    Holds ((addLookahead table state rule set).getD i []) r members := by
  rw [addLookahead_eq, getD_modify]
  split
  · exact hr.addTo (h.good i) rule set
  · exact hr

/-- Adds the set of a transition to all places where its rules end. -/
def addAll (back : List (Nat × Nat)) (set : SymbolSet) (table : Array (List (Nat × SymbolSet))) :
    Array (List (Nat × SymbolSet)) := back.foldl (fun table (state, rule) => addLookahead table state rule set) table

theorem filled_addAll (h : Filled count table) (back : List (Nat × Nat)) (set : SymbolSet) :
    Filled count (addAll back set table) ∧
    (∀ i r members, Holds (table.getD i []) r members → Holds ((addAll back set table).getD i []) r members) ∧
    ∀ p ∈ back, p.1 < count → Holds ((addAll back set table).getD p.1 []) p.2 set.toList := by
  unfold addAll
  induction back generalizing table with
  | nil => exact ⟨h, fun _ _ _ hr => hr, by simp⟩
  | cons p back ih =>
    obtain ⟨state, rule⟩ := p
    obtain ⟨hfilled, hkeep, hnew⟩ := ih (h.add state rule set)
    rw [foldl_cons]
    refine ⟨hfilled, fun i r members hr => hkeep i r members (h.holds_add hr state rule set), ?_⟩
    intro p hp hlt
    rcases mem_cons.1 hp with rfl | hp
    · refine hkeep _ _ _ ?_
      rw [addLookahead_eq, getD_modify, if_pos ⟨rfl, by rw [h.size]; exact hlt⟩]
      exact holds_addTo (h.good _) rule set
    · exact hnew p hp hlt

theorem holds_addLinks (sets : Nat → SymbolSet) (hx : links[x]? = some link) (hp : p ∈ link.1) (hlt : p.1 < count) :
    Holds ((links.zipIdx.foldl (fun table l => addAll l.1.1 (sets l.2) table)
      (Array.replicate count [])).getD p.1 []) p.2 (sets x).toList := by
  have hfold : ∀ (ls : List ((List (Nat × Nat) × List Nat) × Nat))
      (table : Array (List (Nat × SymbolSet))), Filled count table →
      (∀ i r members, Holds (table.getD i []) r members →
        Holds ((ls.foldl (fun table l => addAll l.1.1 (sets l.2) table) table).getD i []) r members) ∧
      ∀ l ∈ ls, ∀ p ∈ l.1.1, p.1 < count →
        Holds ((ls.foldl (fun table l => addAll l.1.1 (sets l.2) table) table).getD p.1 []) p.2 (sets l.2).toList := by
    intro ls
    induction ls with
    | nil => exact fun table _ => ⟨fun _ _ _ hr => hr, by simp⟩
    | cons l ls ih =>
      intro table h
      obtain ⟨hfilled, hkeep, hnew⟩ := filled_addAll h l.1.1 (sets l.2)
      obtain ⟨hkeep', hnew'⟩ := ih _ hfilled
      refine ⟨fun i r members hr => hkeep' i r members (hkeep i r members hr), ?_⟩
      intro l' hl' p hp hlt
      rcases mem_cons.1 hl' with rfl | hl'
      · exact hkeep' _ _ _ (hnew p hp hlt)
      · exact hnew' l' hl' p hp hlt
  have hfirst : Filled count (Array.replicate count []) := by
    refine ⟨by simp, fun i => ?_⟩
    rw [getD_eq_getD_getElem?, Array.getElem?_replicate]
    split <;> simp [GoodRow]
  exact (hfold links.zipIdx _ hfirst).2 (link, x) (mem_zipIdx_iff_getElem?.2 hx) p hp hlt

def automaton (g : Rules) : Moves := Moves.of g (states g).toArray

/-- The terminal `a` may come after the transition from a state by `s`. -/
inductive Follows (g : Rules) : Nat → Nat → Nat → Prop
  | read {state s a : Nat} {i : Item} (hi : i ∈ (automaton g).items ((automaton g).goto state s))
    (ha : i.next? g = some a) (hterm : g.isTerminal a = true) : Follows g state s a
  | finish : Follows g 0 g.start g.endMark
  | inherit {state r s a : Nat} {ss : List Nat} (hr : r ≠ 0)
    (hbegin : (⟨r, 0⟩ : Item) ∈ (automaton g).items state) (hbody : (g.rule r).body = ss ++ [s])
    (h : Follows g state (g.rule r).head a) : Follows g ((automaton g).along state ss) s a

structure Proper (g : Rules) : Prop where
  size : 0 < g.rules.size
  heads : ∀ r < g.rules.size, r ≠ 0 → g.isNonterminal (g.rule r).head = true

theorem items_automaton (hq : (states g)[i]? = some q) : (automaton g).items i = q.items := by
  have hget : ((states g).toArray.getD i default) = q := by
    simp [hq]
  exact congrArg ItemSet.items hget

theorem goto_automaton (hq : (states g)[i]? = some q) : (automaton g).goto i s = (q.goto? s).getD 0 := by
  have hget : ((states g).toArray.getD i default) = q := by
    simp [hq]
  exact congrArg (fun q : ItemSet => (q.goto? s).getD 0) hget

theorem exists_of_mem_items {x : Item} (hx : x ∈ (automaton g).items i) :
    ∃ q, (states g)[i]? = some q ∧ x ∈ q.items := by
  cases hq : (states g)[i]? with
  | some q => exact ⟨q, rfl, items_automaton hq ▸ hx⟩
  | none =>
    have hget : ((states g).toArray.getD i default) = default := by
      simp [hq]
    have hnil : (automaton g).items i = [] := congrArg ItemSet.items hget
    rw [hnil] at hx
    cases hx

theorem exists_number_of_begin (hg : Proper g) (hr : r ≠ 0) (hbegin : (⟨r, 0⟩ : Item) ∈ (automaton g).items state) :
    ∃ n, (automaton g).number? state (g.rule r).head = some n := by
  obtain ⟨q, hq, hx⟩ := exists_of_mem_items hbegin
  have hex := explored_all hg.size
  rcases hex.begins (mem_of_getElem? hq) hx with hzero | ⟨i, hi, s, hs, hrule⟩
  · exact absurd hzero hr
  obtain ⟨hlt, -, rfl⟩ := mem_rulesOf.1 hrule
  refine exists_number? (by simpa using hq) ?_
  unfold leaving
  rw [mem_distinct, mem_filterMap]
  exact ⟨i, hi, by rw [hs]; simp [hg.heads r hlt hr]⟩

/-- The places where the rules of each transition end. -/
def linksOf (g : Rules) : List (List (Nat × Nat) × List Nat) :=
  (automaton g).transitions.toList.map (lookback g (automaton g))

theorem linksOf_number (h : (automaton g).number? state s = some n) :
    (linksOf g)[n]? = some (lookback g (automaton g) ⟨state, s⟩) := by
  have ht := transition_of_number? h
  unfold linksOf
  rw [getElem?_map, Array.getElem?_toList]
  exact congrArg (Option.map (lookback g (automaton g))) ht

/-- The relation by which a transition ends where another one ends. -/
def includedIn (g : Rules) (x : Nat) : List Nat := (includesOf (linksOf g) (automaton g).transitions.size).getD x []

/-- The walk over the transitions by nullable symbols. -/
def readWalk (g : Rules) : Walk :=
  Walk.close (fun x => reads g (automaton g) ((automaton g).transitions.getD x default))
    (automaton g).transitions.size (Array.range (automaton g).transitions.size)
    ((automaton g).transitions.map (directReads g (automaton g)))

/-- The walk over the transitions that end together. -/
def followWalk (g : Rules) : Walk :=
  Walk.close (includedIn g) (automaton g).transitions.size (readWalk g).slot (readWalk g).sets

theorem lookaheads_eq (g : Rules) :
    lookaheads g (states g).toArray =
      (linksOf g).zipIdx.foldl (fun table l => addAll l.1.1 ((followWalk g).set l.2) table)
        (Array.replicate (states g).toArray.size []) := by
  unfold lookaheads
  dsimp only
  rw [Array.toList_map]
  rfl

theorem number?_lt (h : (automaton g).number? state s = some n) : n < (automaton g).transitions.size :=
  (Array.getElem?_eq_some_iff.1 (transition_of_number? h)).1

theorem reads_lt (x y : Nat) (hy : y ∈ reads g (automaton g) ((automaton g).transitions.getD x default)) :
    y < (automaton g).transitions.size := by
  obtain ⟨i, -, hi⟩ := mem_filterMap.1 hy
  obtain ⟨s, -, hs⟩ := Option.bind_eq_some_iff.1 hi
  split at hs
  · exact number?_lt hs
  · cases hs

theorem includedIn_lt (x y : Nat) (hy : y ∈ includedIn g x) : y < (automaton g).transitions.size := by
  unfold includedIn at hy
  by_cases hx : x < (automaton g).transitions.size
  · obtain ⟨link, hlink, -⟩ := (mem_includesOf hx).1 hy
    simpa [linksOf] using (List.getElem?_eq_some_iff.1 hlink).1
  -- beyond the last transition there is nothing
  have hsize : ∀ (ps : List ((List (Nat × Nat) × List Nat) × Nat)) (table : Array (List Nat)),
      (ps.foldl (fun table p => enterAll p.2 p.1.2 table) table).size = table.size := by
    intro ps
    induction ps with
    | nil => exact fun _ => rfl
    | cons p ps ih =>
      intro table
      rw [foldl_cons, ih]
      exact size_enterAll _ _ _
  rw [getD_eq_getD_getElem?, Array.getElem?_eq_none] at hy
  · cases hy
  unfold includesOf
  rw [hsize, Array.size_replicate]
  omega

theorem good_directReads_all (i : Nat) :
    (((automaton g).transitions.map (directReads g (automaton g))).getD i .empty).Good := by
  rw [getD_eq_getD_getElem?, Array.getElem?_map]
  cases (automaton g).transitions[i]? with
  | none => exact SymbolSet.good_empty
  | some t => exact good_directReads g _ t

theorem getD_range (hx : x < n) : (Array.range n).getD x 0 = x := by
  simp [hx]

theorem readWalk_between (g : Rules) :
    Walk.Between (.initial (fun x => reads g (automaton g) ((automaton g).transitions.getD x default))
      (automaton g).transitions.size (Array.range (automaton g).transitions.size)
      ((automaton g).transitions.map (directReads g (automaton g))))
      (readWalk g) (List.range (automaton g).transitions.size) :=
  Walk.between_close reads_lt (by simp) (fun x hx => by rw [getD_range hx]; simpa using hx) good_directReads_all

theorem mem_readWalk {t : Transition} (ht : (automaton g).transitions[x]? = some t)
    (ha : a ∈ (directReads g (automaton g) t).toList) : a ∈ ((readWalk g).set x).toList := by
  have hx : x < (automaton g).transitions.size := (Array.getElem?_eq_some_iff.1 ht).1
  refine (readWalk_between g).sound.start x hx a ?_
  dsimp only [Walk.Net.initial]
  rw [getD_range hx, getD_eq_getD_getElem?, Array.getElem?_map, ht]
  exact ha

theorem mem_followWalk (hx : x < (automaton g).transitions.size)
    (hreach : Relation.ReflTransGen (Walk.Links (includedIn g)) x y)
    (ha : a ∈ ((readWalk g).set y).toList) : a ∈ ((followWalk g).set x).toList := by
  have hsound := (readWalk_between g).sound
  exact Walk.mem_set_close includedIn_lt hsound.slots hsound.slot_lt hsound.good hx hreach ha

theorem Follows.mem_set (hg : Proper g) (h : Follows g state s a)
    (hn : (automaton g).number? state s = some n) : a ∈ ((followWalk g).set n).toList := by
  suffices hlink : ∃ y t, Relation.ReflTransGen (Walk.Links (includedIn g)) n y ∧
      (automaton g).transitions[y]? = some t ∧ a ∈ (directReads g (automaton g) t).toList by
    obtain ⟨y, t, hreach, ht, ha⟩ := hlink
    exact mem_followWalk (number?_lt hn) hreach (mem_readWalk ht ha)
  induction h generalizing n with
  | read hi ha hterm => exact ⟨n, _, .refl, transition_of_number? hn, mem_directReads hi ha hterm⟩
  | finish => exact ⟨n, _, .refl, transition_of_number? hn, endMark_mem_directReads g _⟩
  | inherit hr hbegin hbody _ ih =>
    obtain ⟨n', hn'⟩ := exists_number_of_begin hg hr hbegin
    obtain ⟨y, t, hreach, ht, ha⟩ := ih hn'
    refine ⟨y, t, .head ?_ hreach, ht, ha⟩
    exact (mem_includesOf (number?_lt hn)).2 ⟨_, linksOf_number hn', mem_includes hr hbegin hbody hn⟩

theorem mem_lookahead (hg : Proper g) (hr : r ≠ 0) (hbegin : (⟨r, 0⟩ : Item) ∈ (automaton g).items state)
    (hend : (⟨r, (g.rule r).body.length⟩ : Item) ∈ (automaton g).items ((automaton g).along state (g.rule r).body)) :
    ∃ set, ((lookaheads g (states g).toArray).getD ((automaton g).along state (g.rule r).body) []).lookup r = some set ∧
      ∀ a, Follows g state (g.rule r).head a → a ∈ set.toList := by
  obtain ⟨n, hn⟩ := exists_number_of_begin hg hr hbegin
  obtain ⟨q, hq, -⟩ := exists_of_mem_items hend
  have hlt : (automaton g).along state (g.rule r).body < (states g).toArray.size := by
    simpa using (List.getElem?_eq_some_iff.1 hq).1
  rw [lookaheads_eq]
  obtain ⟨set, hset, hmem⟩ := holds_addLinks (followWalk g).set (linksOf_number hn) (mem_lookback hr hbegin hend) hlt
  exact ⟨set, hset, fun a ha => hmem a (ha.mem_set hg hn)⟩

/-- A complete rule of a state began in some state from which its body leads there. -/
theorem exists_begin (hg : Proper g) {d j : Nat} (hx : (⟨r, d⟩ : Item) ∈ (automaton g).items j) :
    ∃ state, (⟨r, 0⟩ : Item) ∈ (automaton g).items state ∧ (automaton g).along state ((g.rule r).body.take d) = j := by
  have hex := explored_all hg.size
  induction d generalizing j with
  | zero => exact ⟨j, hx, rfl⟩
  | succ d ih =>
    obtain ⟨q, hq, hx⟩ := exists_of_mem_items hx
    have hk := hex.mem_kernel (mem_of_getElem? hq) hx (Nat.succ_pos d)
    cases j with
    | zero =>
      obtain ⟨q', hq', hk'⟩ := hex.first
      obtain rfl : q = q' := Option.some.inj (hq.symm.trans hq')
      rw [hk', mem_singleton] at hk
      exact absurd (congrArg Item.dot hk) (Nat.succ_ne_zero d)
    | succ j =>
      obtain ⟨i, p, -, hp, hf⟩ := hex.entered j q hq
      have hgoto : p.goto? q.entry = some (j + 1) := hex.goto?_of_follows hp hq hf
      rw [hf.2.1] at hk
      obtain ⟨y, hy, hnext, hadv⟩ := mem_gotoKernel.1 hk
      obtain rfl : y = ⟨r, d⟩ := by
        cases y
        simp only [Item.advance, Item.mk.injEq] at hadv ⊢
        omega
      obtain ⟨state, hbegin, halong⟩ := ih (items_automaton hp ▸ hy)
      refine ⟨state, hbegin, ?_⟩
      have hbody : (g.rule r).body[d]? = some q.entry := hnext
      rw [take_add_one, hbody]
      unfold Moves.along at halong ⊢
      rw [foldl_append, halong]
      change (automaton g).goto i q.entry = j + 1
      rw [goto_automaton hp, hgoto]
      rfl

theorem exists_lookahead (hg : Proper g) (hq : (states g)[j]? = some q) {i : Item}
    (hi : i ∈ q.items) (hfinal : i.next? g = none) (hr : i.rule ≠ 0) :
    ∃ set, ((lookaheads g (states g).toArray).getD j []).lookup i.rule = some set := by
  have hdot : i.dot = (g.rule i.rule).body.length := by
    refine le_antisymm ?_ (List.getElem?_eq_none_iff.1 hfinal)
    exact (mem_allItems.1 (((explored_all hg.size).tidy hg.size j hq).known i hi)).2
  have hx : (⟨i.rule, i.dot⟩ : Item) ∈ (automaton g).items j := items_automaton hq ▸ hi
  obtain ⟨state, hbegin, halong⟩ := exists_begin hg hx
  rw [hdot] at hx halong
  rw [take_length] at halong
  rw [← halong] at hx ⊢
  obtain ⟨set, hset, -⟩ := mem_lookahead hg hr hbegin hx
  exact ⟨set, hset⟩

end Tabc.Automaton
