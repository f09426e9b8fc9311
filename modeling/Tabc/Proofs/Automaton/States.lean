import Mathlib
import Tabc.Automaton.Items

/-!
# What the states of the automaton are

`Explored g states n` says what the first `n` states, which are expanded, have to do with the others. A
stack of the machine is a `Path` of moves, and an item of the top state has the symbols before its position
on top of the stack (`Path.spells`).
-/

open List

namespace Tabc.Automaton

open Tabc.Grammar

theorem testBit_or_shiftLeft (n i j : Nat) : (n ||| (1 <<< i)).testBit j = (n.testBit j || decide (j = i)) := by
  rw [Nat.testBit_or, Nat.one_shiftLeft, Nat.testBit_two_pow]
  simp [eq_comm]

variable {g : Rules} {s seen i n : Nat} {x : Item} {kernel items : List Item}
  {states : List ItemSet} {p q : ItemSet} {is ss : List Nat}

theorem mem_rulesOf : r ∈ g.rulesOf s ↔ r < g.rules.size ∧ r ≠ 0 ∧ (g.rule r).head = s := by
  simp [Rules.rulesOf]

theorem mem_predict (h : x ∈ (predict g seen s).1) : x.dot = 0 ∧ x.rule ∈ g.rulesOf s := by
  suffices hfold : ∀ (rules : List Nat) (acc : List Item × Nat), (∀ r ∈ rules, r ∈ g.rulesOf s) →
      (∀ y ∈ acc.1, y.dot = 0 ∧ y.rule ∈ g.rulesOf s) →
      ∀ y ∈ (rules.foldl (fun p r => if p.2.testBit r then (p.1, p.2) else (p.1 ++ [⟨r, 0⟩], p.2 ||| (1 <<< r))) acc).1,
        y.dot = 0 ∧ y.rule ∈ g.rulesOf s by exact hfold _ ([], seen) (fun _ hr => hr) (by simp) x h
  intro rules
  induction rules with
  | nil => exact fun acc _ hacc => hacc
  | cons r rules ih =>
    rintro ⟨items, seen⟩ hr hacc
    refine ih _ (fun r' hr' => hr r' (.tail _ hr')) ?_
    dsimp only
    split
    · exact hacc
    intro y hy
    rcases mem_append.1 hy with hy | hy
    · exact hacc y hy
    · rw [mem_singleton.1 hy]
      exact ⟨rfl, hr r (.head _)⟩

theorem mem_closeQueue_of_mem (h : x ∈ queue) : x ∈ closeQueue g fuel queue seen := by
  induction fuel generalizing queue seen with
  | zero => exact h
  | succ fuel ih =>
    cases queue with
    | nil => exact h
    | cons i queue =>
      unfold closeQueue
      rcases mem_cons.1 h with rfl | h
      · split <;> exact (.head _)
      split
      · exact .tail _ (ih h)
      · exact .tail _ (ih (mem_append_left _ h))

theorem mem_closeQueue (h : x ∈ closeQueue g fuel queue seen) :
    x ∈ queue ∨ (x.dot = 0 ∧ ∃ i ∈ closeQueue g fuel queue seen, ∃ s, i.next? g = some s ∧ x.rule ∈ g.rulesOf s) := by
  induction fuel generalizing queue seen with
  | zero => exact .inl h
  | succ fuel ih =>
    cases queue with
    | nil => exact .inl h
    | cons i queue =>
      unfold closeQueue at h ⊢
      cases hnext : i.next? g with
      | none =>
        simp only [hnext] at h ⊢
        rcases mem_cons.1 h with rfl | h
        · exact .inl (.head _)
        rcases ih h with h | ⟨hdot, j, hj, hrule⟩
        · exact .inl (.tail _ h)
        · exact .inr ⟨hdot, j, .tail _ hj, hrule⟩
      | some s =>
        simp only [hnext] at h ⊢
        rcases mem_cons.1 h with rfl | h
        · exact .inl (.head _)
        rcases ih h with h | ⟨hdot, j, hj, hrule⟩
        · rcases mem_append.1 h with h | h
          · exact .inl (.tail _ h)
          · obtain ⟨hdot, hrule⟩ := mem_predict h
            exact .inr ⟨hdot, i, .head _, s, hnext, hrule⟩
        · exact .inr ⟨hdot, j, .tail _ hj, hrule⟩

theorem kernel_subset_closure (h : x ∈ kernel) : x ∈ closure g kernel := mem_closeQueue_of_mem h

theorem mem_closure (h : x ∈ closure g kernel) :
    x ∈ kernel ∨ (x.dot = 0 ∧ ∃ i ∈ closure g kernel, ∃ s, i.next? g = some s ∧ x.rule ∈ g.rulesOf s) :=
  mem_closeQueue h

theorem mem_gotoKernel : x ∈ gotoKernel g items s ↔ ∃ i ∈ items, i.next? g = some s ∧ x = i.advance := by
  simp only [gotoKernel, mem_map, mem_filter, beq_iff_eq]
  exact ⟨fun ⟨i, ⟨hi, hs⟩, hx⟩ => ⟨i, hi, hs, hx.symm⟩, fun ⟨i, hi, hs, hx⟩ => ⟨i, ⟨hi, hs⟩, hx.symm⟩⟩

theorem dot_pos_of_mem_gotoKernel (h : x ∈ gotoKernel g items s) : 0 < x.dot := by
  obtain ⟨i, _, _, rfl⟩ := mem_gotoKernel.1 h
  exact Nat.succ_pos _

theorem mem_distinct {x : Nat} : x ∈ distinct xs ↔ x ∈ xs := by
  -- the mask has the members of the list so far
  suffices hfold : ∀ (xs : List Nat) (acc : List Nat × Nat), (∀ y, acc.2.testBit y = true ↔ y ∈ acc.1) →
      ∀ y, y ∈ (xs.foldl (fun p x =>
        if Nat.testBit p.2 x then (p.1, p.2) else (x :: p.1, p.2 ||| (1 <<< x))) acc).1 ↔
        y ∈ acc.1 ∨ y ∈ xs by
    unfold distinct
    rw [mem_reverse]
    exact (hfold xs ([], 0) (by simp) x).trans (by simp)
  intro xs
  induction xs with
  | nil => simp
  | cons x xs ih =>
    rintro ⟨ys, seen⟩ hacc y
    rw [foldl_cons, mem_cons]
    by_cases hx : seen.testBit x = true
    · rw [if_pos hx, ih _ hacc]
      have hmem : x ∈ ys := (hacc x).1 hx
      constructor
      · rintro (h | h)
        · exact .inl h
        · exact .inr (.inr h)
      · rintro (h | rfl | h)
        · exact .inl h
        · exact .inl hmem
        · exact .inr h
    · rw [if_neg hx, ih]
      · simp only [mem_cons]
        tauto
      · intro z
        rw [testBit_or_shiftLeft, mem_cons, ← hacc z]
        simp [or_comm]

theorem mem_symbols : s ∈ symbols g items ↔ ∃ i ∈ items, s ∈ (g.rule i.rule).body := by simp [symbols, mem_distinct]

theorem mem_symbols_of_gotoKernel (h : gotoKernel g items s ≠ []) : s ∈ symbols g items := by
  obtain ⟨x, hx⟩ := exists_mem_of_ne_nil _ h
  obtain ⟨i, hi, hs, -⟩ := mem_gotoKernel.1 hx
  exact mem_symbols.2 ⟨i, hi, mem_of_getElem? hs⟩

/-- A state that the exploration adds on a symbol. -/
def ItemSet.Follows (g : Rules) (items : List Item) (s : Nat) (q : ItemSet) : Prop :=
  q.entry = s ∧ q.kernel = gotoKernel g items s ∧ q.kernel ≠ []

/-- No two states have the same entry and kernel. -/
def Apart (states : List ItemSet) : Prop :=
  ∀ ⦃i j : Nat⦄ ⦃p q : ItemSet⦄, states[i]? = some p → states[j]? = some q → p.entry = q.entry →
    p.kernel = q.kernel → i = j

/-- What is known of the states when the first `n` of them are expanded. -/
structure Explored (g : Rules) (states : List ItemSet) (n : Nat) : Prop where
  first : ∃ q : ItemSet, states[0]? = some q ∧ q.kernel = [⟨0, 0⟩]
  closed : ∀ q ∈ states, q.items = closure g q.kernel
  entered : ∀ (j : Nat) (q : ItemSet), states[j + 1]? = some q →
    ∃ (i : Nat) (p : ItemSet), i ≤ j ∧ states[i]? = some p ∧ q.Follows g p.items q.entry
  moves : ∀ q ∈ states, ∀ m ∈ q.moves, ∃ q' : ItemSet, states[m.2]? = some q' ∧ q'.Follows g q.items m.1
  apart : Apart states
  expanded : ∀ i < n, ∀ q : ItemSet, states[i]? = some q → ∀ s, gotoKernel g q.items s ≠ [] → ∃ j, (s, j) ∈ q.moves

inductive Enters (g : Rules) (items : List Item) (states : List ItemSet) (s : Nat) :
    List ItemSet × Option Nat → Prop
  | nowhere (h : gotoKernel g items s = []) : Enters g items states s (states, none)
  | known {j : Nat} {q : ItemSet} (hq : states[j]? = some q) (h : q.Follows g items s) :
    Enters g items states s (states, some j)
  | added (hne : gotoKernel g items s ≠ [])
    (hnew : ∀ q ∈ states, ¬(q.entry = s ∧ q.kernel = gotoKernel g items s)) :
    Enters g items states s
      (states ++ [⟨s, gotoKernel g items s, closure g (gotoKernel g items s), []⟩], some states.length)

theorem enters (g : Rules) (items : List Item) (states : List ItemSet) (s : Nat) :
    Enters g items states s (enter g items states s) := by
  unfold enter
  split
  · rename_i h
    exact .nowhere h
  rename_i hne
  split
  · rename_i j hj
    obtain ⟨hlt, hq, -⟩ := findIdx?_eq_some_iff_getElem.1 hj
    simp only [Bool.and_eq_true, beq_iff_eq] at hq
    exact .known (getElem?_eq_getElem hlt) ⟨hq.1, hq.2, by rw [hq.2]; exact hne⟩
  · rename_i hnone
    refine .added hne fun q hq ⟨hs, hk⟩ => ?_
    have := findIdx?_eq_none_iff.1 hnone q hq
    simp [hs, hk] at this

def followAll (g : Rules) (items : List Item) (ss : List Nat)
    (acc : List ItemSet × List (Nat × Nat)) : List ItemSet × List (Nat × Nat) :=
  ss.foldl (fun (states, moves) s =>
    match enter g items states s with
    | (states, some j) => (states, (s, j) :: moves)
    | (states, none) => (states, moves)) acc

structure Following (g : Rules) (before : List ItemSet) (n : Nat) (p : ItemSet) (done : List Nat)
    (acc : List ItemSet × List (Nat × Nat)) : Prop where
  explored : Explored g acc.1 n
  kept : before <+: acc.1
  reached : ∀ m ∈ acc.2, ∃ q : ItemSet, acc.1[m.2]? = some q ∧ q.Follows g p.items m.1
  complete : ∀ s ∈ done, gotoKernel g p.items s ≠ [] → ∃ j, (s, j) ∈ acc.2

theorem getElem?_append_of_some {α : Type} {xs ys : List α} {x : α} (h : xs[i]? = some x) :
    (xs ++ ys)[i]? = some x := by
  rw [getElem?_append_left (List.getElem?_eq_some_iff.1 h).1]
  exact h

/-- One state more keeps what is known, if it is new and follows some state. -/
theorem Explored.add {k : Nat} (h : Explored g states n) (hn : n ≤ states.length)
    (hp : states[k]? = some p) (hne : gotoKernel g p.items s ≠ [])
    (hnew : ∀ q ∈ states, ¬(q.entry = s ∧ q.kernel = gotoKernel g p.items s)) :
    Explored g (states ++ [⟨s, gotoKernel g p.items s, closure g (gotoKernel g p.items s), []⟩]) n := by
  have hlast : ∀ {j q}, (states ++
      [(⟨s, gotoKernel g p.items s, closure g (gotoKernel g p.items s), []⟩ : ItemSet)])[j]? = some q →
      states[j]? = some q ∨ (j = states.length ∧
        q = ⟨s, gotoKernel g p.items s, closure g (gotoKernel g p.items s), []⟩) := by
    intro j q hq
    rw [getElem?_append] at hq
    split at hq
    · exact .inl hq
    rw [getElem?_singleton] at hq
    split at hq
    · exact .inr ⟨by omega, (Option.some.inj hq).symm⟩
    · exact absurd hq (by simp)
  constructor
  · obtain ⟨q, hq, hk⟩ := h.first
    exact ⟨q, getElem?_append_of_some hq, hk⟩
  · intro q hq
    rcases mem_append.1 hq with hq | hq
    · exact h.closed q hq
    · rw [mem_singleton.1 hq]
  · intro j q hq
    rcases hlast hq with hq | ⟨hj, rfl⟩
    · obtain ⟨i, p', hi, hp', hf⟩ := h.entered j q hq
      exact ⟨i, p', hi, getElem?_append_of_some hp', hf⟩
    · have hk := (List.getElem?_eq_some_iff.1 hp).1
      exact ⟨k, p, by omega, getElem?_append_of_some hp, rfl, rfl, hne⟩
  · intro q hq m hm
    rcases mem_append.1 hq with hq | hq
    · obtain ⟨q', hq', hf⟩ := h.moves q hq m hm
      exact ⟨q', getElem?_append_of_some hq', hf⟩
    · rw [mem_singleton.1 hq] at hm
      exact absurd hm (by simp)
  · intro i j q q' hq hq' hs hk
    rcases hlast hq with hq | ⟨rfl, rfl⟩ <;> rcases hlast hq' with hq' | ⟨rfl, rfl⟩
    · exact h.apart hq hq' hs hk
    · exact absurd ⟨hs, hk⟩ (hnew q (mem_of_getElem? hq))
    · exact absurd ⟨hs.symm, hk.symm⟩ (hnew q' (mem_of_getElem? hq'))
    · rfl
  · intro i hi q hq
    rcases hlast hq with hq | ⟨rfl, -⟩
    · exact h.expanded i hi q hq
    · omega

theorem following_followAll {k : Nat} (hn : n ≤ before.length)
    (hp : before[k]? = some p) (ss done : List Nat) (acc : List ItemSet × List (Nat × Nat))
    (h : Following g before n p done acc) :
    Following g before n p (done ++ ss) (followAll g p.items ss acc) := by
  induction ss generalizing done acc with
  | nil => simpa [followAll] using h
  | cons s ss ih =>
    obtain ⟨states, moves⟩ := acc
    obtain ⟨added, rfl⟩ := h.kept
    have hp' : (before ++ added)[k]? = some p := getElem?_append_of_some hp
    have hlen : n ≤ (before ++ added).length := by simp; omega
    have hstep := enters g p.items (before ++ added) s
    rw [append_cons]
    unfold followAll
    rw [foldl_cons]
    dsimp only
    generalize enter g p.items (before ++ added) s = r at hstep
    cases hstep with
    | nowhere hnil =>
      refine ih _ _ ⟨h.explored, h.kept, h.reached, ?_⟩
      intro s' hs' hne
      rcases mem_append.1 hs' with hs' | hs'
      · exact h.complete s' hs' hne
      · rw [mem_singleton.1 hs'] at hne
        exact absurd hnil hne
    | @known j q hq hf =>
      refine ih _ _ ⟨h.explored, h.kept, ?_, ?_⟩
      · intro m hm
        rcases mem_cons.1 hm with rfl | hm
        · exact ⟨q, hq, hf⟩
        · exact h.reached m hm
      · intro s' hs' hne
        rcases mem_append.1 hs' with hs' | hs'
        · obtain ⟨j', hj'⟩ := h.complete s' hs' hne
          exact ⟨j', .tail _ hj'⟩
        · exact ⟨j, mem_singleton.1 hs' ▸ (.head _)⟩
    | added hne hnew =>
      refine ih _ _ ⟨h.explored.add hlen hp' hne hnew, ?_, ?_, ?_⟩
      · exact h.kept.trans (prefix_append _ _)
      · intro m hm
        rcases mem_cons.1 hm with rfl | hm
        · exact ⟨_, getElem?_concat_length, rfl, rfl, hne⟩
        · obtain ⟨q, hq, hf⟩ := h.reached m hm
          exact ⟨q, getElem?_append_of_some hq, hf⟩
      · intro s' hs' hne'
        rcases mem_append.1 hs' with hs' | hs'
        · obtain ⟨j', hj'⟩ := h.complete s' hs' hne'
          exact ⟨j', .tail _ hj'⟩
        · rw [mem_singleton.1 hs']
          exact ⟨_, .head _⟩

theorem expand_eq (hp : states[n]? = some p) :
    expand g states n = (followAll g p.items (symbols g p.items) (states, [])).1.set n
        { p with moves := (followAll g p.items (symbols g p.items) (states, [])).2.reverse } := by
  unfold expand
  rw [hp]
  rfl

/-- The moves of one state are not read by anything else that is known. -/
theorem Explored.setMoves {moves : List (Nat × Nat)} (h : Explored g states n) (hp : states[n]? = some p)
    (hmoves : ∀ m ∈ moves, ∃ q : ItemSet, states[m.2]? = some q ∧ q.Follows g p.items m.1)
    (hall : ∀ s, gotoKernel g p.items s ≠ [] → ∃ j, (s, j) ∈ moves) :
    Explored g (states.set n { p with moves := moves }) (n + 1) := by
  have hlt : n < states.length := (List.getElem?_eq_some_iff.1 hp).1
  -- a state of the new list is a state of the old one, but for its moves
  have hold : ∀ {j : Nat} {q : ItemSet}, (states.set n { p with moves := moves })[j]? = some q →
      ∃ q', states[j]? = some q' ∧ q.entry = q'.entry ∧ q.kernel = q'.kernel ∧ q.items = q'.items ∧
        (j = n ∧ q' = p ∧ q.moves = moves ∨ j ≠ n ∧ q = q') := by
    intro j q hq
    rw [getElem?_set] at hq
    by_cases hj : n = j
    · subst hj
      rw [if_pos rfl, if_pos hlt] at hq
      rw [← Option.some.inj hq]
      exact ⟨p, hp, rfl, rfl, rfl, .inl ⟨rfl, rfl, rfl⟩⟩
    · rw [if_neg hj] at hq
      exact ⟨q, hq, rfl, rfl, rfl, .inr ⟨fun hn => hj hn.symm, rfl⟩⟩
  have hnew : ∀ {j : Nat} {q : ItemSet}, states[j]? = some q →
      ∃ q', (states.set n { p with moves := moves })[j]? = some q' ∧ q'.entry = q.entry ∧
        q'.kernel = q.kernel ∧ q'.items = q.items := by
    intro j q hq
    rw [getElem?_set]
    by_cases hj : n = j
    · subst hj
      rw [if_pos rfl, if_pos hlt]
      rw [hp] at hq
      rw [← Option.some.inj hq]
      exact ⟨_, rfl, rfl, rfl, rfl⟩
    · rw [if_neg hj]
      exact ⟨q, hq, rfl, rfl, rfl⟩
  have hfollows : ∀ {j : Nat} {q : ItemSet} {items : List Item} {s : Nat}, states[j]? = some q →
      q.Follows g items s → ∃ q' : ItemSet,
        (states.set n { p with moves := moves })[j]? = some q' ∧ q'.Follows g items s := by
    intro j q items s hq hf
    obtain ⟨q', hq', he, hk, -⟩ := hnew hq
    exact ⟨q', hq', he.trans hf.1, hk.trans hf.2.1, hk ▸ hf.2.2⟩
  constructor
  · obtain ⟨q, hq, hk⟩ := h.first
    obtain ⟨q', hq', -, hk', -⟩ := hnew hq
    exact ⟨q', hq', hk'.trans hk⟩
  · intro q hq
    obtain ⟨j, hj⟩ := getElem?_of_mem hq
    obtain ⟨q', hq', -, hk, hi, -⟩ := hold hj
    rw [hi, hk]
    exact h.closed q' (mem_of_getElem? hq')
  · intro j q hq
    obtain ⟨q', hq', he, hk, -⟩ := hold hq
    obtain ⟨i, p', hij, hp', hf⟩ := h.entered j q' hq'
    obtain ⟨p'', hp'', -, -, hi⟩ := hnew hp'
    refine ⟨i, p'', hij, hp'', rfl, ?_, ?_⟩
    · rw [hk, he, hi]
      exact hf.2.1
    · rw [hk]
      exact hf.2.2
  · intro q hq m hm
    obtain ⟨j, hj⟩ := getElem?_of_mem hq
    obtain ⟨q', hq', -, -, hi, ⟨-, rfl, hmv⟩ | ⟨-, rfl⟩⟩ := hold hj
    · obtain ⟨r, hr, hf⟩ := hmoves m (hmv ▸ hm)
      rw [hi]
      exact hfollows hr hf
    · obtain ⟨r, hr, hf⟩ := h.moves q (mem_of_getElem? hq') m hm
      exact hfollows hr hf
  · intro i j q r hq hr hs hk
    obtain ⟨q', hq', he, hk', -⟩ := hold hq
    obtain ⟨r', hr', he', hk'', -⟩ := hold hr
    exact h.apart hq' hr' (he ▸ he' ▸ hs) (hk' ▸ hk'' ▸ hk)
  · intro i hi q hq s hs
    obtain ⟨q', hq', -, -, hit, ⟨-, rfl, hmv⟩ | ⟨hne, rfl⟩⟩ := hold hq
    · rw [hmv]
      exact hall s (hit ▸ hs)
    · exact h.expanded i (by omega) q hq' s hs

theorem Explored.expand (h : Explored g states n) (hn : n < states.length) :
    Explored g (expand g states n) (n + 1) ∧ states.length ≤ (expand g states n).length := by
  obtain ⟨p, hp⟩ : ∃ p, states[n]? = some p := ⟨_, getElem?_eq_getElem hn⟩
  have hf := following_followAll hn.le hp (symbols g p.items) [] (states, []) ⟨h, prefix_rfl, by simp, by simp⟩
  rw [nil_append] at hf
  rw [expand_eq hp, length_set]
  obtain ⟨added, hadded⟩ := hf.kept
  refine ⟨hf.explored.setMoves (hadded ▸ getElem?_append_of_some hp) ?_ ?_, hf.kept.length_le⟩
  · exact fun m hm => hf.reached m (mem_reverse.1 hm)
  intro s hs
  obtain ⟨j, hj⟩ := hf.complete s (mem_symbols_of_gotoKernel hs) hs
  exact ⟨j, mem_reverse.2 hj⟩

theorem Explored.explore (fuel : Nat) (h : Explored g states n) (hn : n ≤ states.length) :
    ∃ n', Explored g (explore g fuel states n) n' ∧ (n' = n + fuel ∨ n' = (explore g fuel states n).length) := by
  induction fuel generalizing states n with
  | zero => exact ⟨n, h, .inl rfl⟩
  | succ fuel ih =>
    unfold Automaton.explore
    split
    · rename_i hlt
      obtain ⟨hex, hlen⟩ := h.expand hlt
      obtain ⟨n', hn', heq⟩ := ih hex (by omega)
      exact ⟨n', hn', heq.imp_left (by omega)⟩
    · exact ⟨n, h, .inr (by omega)⟩

theorem explored_initial (g : Rules) : Explored g [⟨g.dotMark, [⟨0, 0⟩], closure g [⟨0, 0⟩], []⟩] 0 := by
  constructor
  · exact ⟨_, rfl, rfl⟩
  · simp
  · simp
  · simp
  · intro i j p q hp hq _ _
    have hi := (List.getElem?_eq_some_iff.1 hp).1
    have hj := (List.getElem?_eq_some_iff.1 hq).1
    simp only [length_singleton] at hi hj
    omega
  · omega

theorem explored_itemSets (g : Rules) (limit : Nat) :
    ∃ n, Explored g (itemSets g limit) n ∧ (n = limit ∨ n = (itemSets g limit).length) := by
  obtain ⟨n, h, heq⟩ := (explored_initial g).explore limit (Nat.zero_le _)
  exact ⟨n, h, heq.imp_left (by omega)⟩

/-- A stack of states, top first, that moves by the symbols of another stack lead to. -/
inductive Path (states : List ItemSet) : List Nat → List Nat → Prop
  | start : Path states [0] []
  | move {i j s : Nat} {below ss : List Nat} {q : ItemSet} (h : Path states (i :: below) ss)
    (hq : states[i]? = some q) (hs : q.goto? s = some j) : Path states (j :: i :: below) (s :: ss)

theorem Path.exists_cons (h : Path states is ss) : ∃ i below, is = i :: below := by
  cases h <;> exact ⟨_, _, rfl⟩

theorem mem_moves_of_goto? (h : q.goto? s = some j) : (s, j) ∈ q.moves := by
  obtain ⟨l1, l2, hl, -⟩ := lookup_eq_some_iff.1 h
  rw [hl]
  simp

namespace Explored

variable {g : Rules} {states : List ItemSet} {n : Nat}

variable {q : ItemSet}

variable (h : Explored g states n)

include h

theorem goto? (hq : states[i]? = some q)
    (hs : q.goto? s = some j) : ∃ q' : ItemSet, states[j]? = some q' ∧ q'.Follows g q.items s :=
  h.moves q (mem_of_getElem? hq) (s, j) (mem_moves_of_goto? hs)

theorem mem_kernel (hq : q ∈ states) (hx : x ∈ q.items) (hdot : 0 < x.dot) : x ∈ q.kernel := by
  rw [h.closed q hq] at hx
  rcases mem_closure hx with hx | ⟨hzero, -⟩
  · exact hx
  · omega

theorem begins (hq : q ∈ states) (hx : (⟨r, 0⟩ : Item) ∈ q.items) :
    r = 0 ∨ ∃ i ∈ q.items, ∃ s, i.next? g = some s ∧ r ∈ g.rulesOf s := by
  have hitems := h.closed q hq
  rw [hitems] at hx
  rcases mem_closure hx with hx | ⟨-, i, hi, hs⟩
  · left
    obtain ⟨j, hj⟩ := getElem?_of_mem hq
    cases j with
    | zero =>
      obtain ⟨q', hq', hk⟩ := h.first
      obtain rfl : q = q' := Option.some.inj (hj.symm.trans hq')
      rw [hk, mem_singleton] at hx
      exact congrArg Item.rule hx
    | succ j =>
      obtain ⟨_, p, _, _, _, hk, _⟩ := h.entered j q hj
      rw [hk] at hx
      exact absurd (dot_pos_of_mem_gotoKernel hx) (lt_irrefl 0)
  · exact .inr ⟨i, hitems ▸ hi, hs⟩

theorem goto?_ne_zero (hq : states[i]? = some q) : q.goto? s ≠ some 0 := by
  intro hs
  obtain ⟨q', hq', -, hk, -⟩ := h.goto? hq hs
  obtain ⟨q'', hq'', hk'⟩ := h.first
  obtain rfl : q' = q'' := Option.some.inj (hq'.symm.trans hq'')
  have hmem : (⟨0, 0⟩ : Item) ∈ gotoKernel g q.items s := by
    rw [← hk, hk']
    exact (.head _)
  exact absurd (dot_pos_of_mem_gotoKernel hmem) (lt_irrefl 0)

end Explored

/-- What the rule `r` with position `d` in the top state says of a stack: the symbols before the
position are on top, and below them is a state in which the rule begins. -/
structure Spelled (g : Rules) (states : List ItemSet) (r d : Nat) (is ss : List Nat) : Prop where
  symbols : ss.take d = ((g.rule r).body.take d).reverse
  length : d ≤ (g.rule r).body.length
  below : ∃ q, states[(is.drop d).headD 0]? = some q ∧ (⟨r, 0⟩ : Item) ∈ q.items
  path : Path states (is.drop d) (ss.drop d)

theorem Path.spells (h : Explored g states n) (hp : Path states (i :: is) ss)
    (hq : states[i]? = some q) (hx : (⟨r, d⟩ : Item) ∈ q.items) :
    Spelled g states r d (i :: is) ss := by
  induction d generalizing i is ss q with
  | zero => exact ⟨by simp, Nat.zero_le _, ⟨q, by simpa using hq, hx⟩, by simpa using hp⟩
  | succ d ih =>
    have hk := h.mem_kernel (mem_of_getElem? hq) hx (Nat.succ_pos d)
    cases hp with
    | start =>
      -- the first state has no item with a moved position
      obtain ⟨q', hq', hk'⟩ := h.first
      obtain rfl : q = q' := Option.some.inj (hq.symm.trans hq')
      rw [hk', mem_singleton] at hk
      exact absurd (congrArg Item.dot hk) (Nat.succ_ne_zero d)
    | @move i' _ s below ss q' hp hq' hs =>
      obtain ⟨q'', hq'', -, hkernel, -⟩ := h.goto? hq' hs
      obtain rfl : q = q'' := Option.some.inj (hq.symm.trans hq'')
      rw [hkernel] at hk
      obtain ⟨y, hy, hnext, hadv⟩ := mem_gotoKernel.1 hk
      obtain rfl : y = ⟨r, d⟩ := by
        cases y
        simp only [Item.advance, Item.mk.injEq] at hadv ⊢
        omega
      have hbody : (g.rule r).body[d]? = some s := hnext
      have htake : (g.rule r).body.take (d + 1) = (g.rule r).body.take d ++ [s] := by
        rw [take_add_one, hbody]
        rfl
      obtain ⟨hsym, hlen, hbelow, hpath⟩ := ih hp hq' hy
      refine ⟨?_, (List.getElem?_eq_some_iff.1 hbody).1, hbelow, hpath⟩
      rw [take_succ_cons, htake, reverse_concat, hsym]

theorem Path.eq_of_zero (h : Explored g states n) (hp : Path states (0 :: is) ss) : is = [] ∧ ss = [] := by
  cases hp with
  | start => exact ⟨rfl, rfl⟩
  | move _ hq hs => exact absurd hs (h.goto?_ne_zero hq)

theorem Explored.eq_zero_of_mem (h : Explored g states n) (hq : states[i]? = some q)
    (hx : (⟨0, 0⟩ : Item) ∈ q.items) : i = 0 := by
  obtain _ | i := i
  · rfl
  obtain ⟨_, p, _, _, _, hk, _⟩ := h.entered i q hq
  rw [h.closed q (mem_of_getElem? hq)] at hx
  rcases mem_closure hx with hx | ⟨-, _, _, _, _, hrule⟩
  · rw [hk] at hx
    exact absurd (dot_pos_of_mem_gotoKernel hx) (lt_irrefl 0)
  · exact absurd rfl (mem_rulesOf.1 hrule).2.1

end Tabc.Automaton
