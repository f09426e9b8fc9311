import Tabc.Proofs.Automaton.States
import Tabc.Proofs.Automaton.Rows

/-!
# The exploration finishes

No two states have the same kernel of distinct items, so `stateBound` is never reached and every state is
expanded (`explored_all`). A kernel then stands for its state (`stateOf`).
-/

open List

namespace Tabc.Automaton

open Tabc.Grammar

structure Predicted (seen : Nat) (found : List Item) (seen' : Nat) : Prop where
  nodup : found.Nodup
  unseen : ∀ x ∈ found, x.dot = 0 ∧ seen.testBit x.rule = false ∧ seen'.testBit x.rule = true
  mono : ∀ r, seen.testBit r = true → seen'.testBit r = true

theorem predicted (g : Rules) (seen s : Nat) : Predicted seen (predict g seen s).1 (predict g seen s).2 := by
  suffices hfold : ∀ (rules : List Nat) (acc : List Item × Nat), Predicted seen acc.1 acc.2 → Predicted seen
        (rules.foldl (fun p r => if p.2.testBit r then (p.1, p.2) else (p.1 ++ [⟨r, 0⟩], p.2 ||| (1 <<< r))) acc).1
        (rules.foldl (fun p r => if p.2.testBit r then (p.1, p.2) else (p.1 ++ [⟨r, 0⟩], p.2 ||| (1 <<< r))) acc).2 by
    exact hfold _ ([], seen) ⟨by simp, by simp, fun _ h => h⟩
  intro rules
  induction rules with
  | nil => exact fun acc h => h
  | cons r rules ih =>
    rintro ⟨items, now⟩ h
    refine ih _ ?_
    dsimp only at h ⊢
    split
    · exact h
    rename_i hr
    have hbit := testBit_or_shiftLeft now r
    have hnot : seen.testBit r = false := by
      rw [Bool.eq_false_iff]
      exact fun hs => hr (h.mono r hs)
    refine ⟨?_, fun x hx => ?_, fun r' hr' => ?_⟩
    · refine nodup_append.2 ⟨h.nodup, by simp, fun x hx y hy hxy => ?_⟩
      rw [mem_singleton.1 hy] at hxy
      rw [hxy] at hx
      exact hr (h.unseen _ hx).2.2
    · rcases mem_append.1 hx with hx | hx
      · obtain ⟨hdot, hold, hnew⟩ := h.unseen x hx
        exact ⟨hdot, hold, by rw [hbit, hnew]; rfl⟩
      · rw [mem_singleton.1 hx]
        exact ⟨rfl, hnot, by rw [hbit]; simp⟩
    · rw [hbit, h.mono r' hr']
      rfl

def Marked (seen : Nat) (queue : List Item) : Prop := ∀ x ∈ queue, x.dot = 0 → x.rule = 0 ∨ seen.testBit x.rule = true

variable {g : Rules} {q : ItemSet} {k : List Item}

theorem nodup_closeQueue (hnodup : queue.Nodup) (hmark : Marked seen queue) :
    (closeQueue g fuel queue seen).Nodup ∧ ∀ x ∈ closeQueue g fuel queue seen,
      x ∈ queue ∨ (x.dot = 0 ∧ x.rule ≠ 0 ∧ seen.testBit x.rule = false) := by
  induction fuel generalizing queue seen with
  | zero => exact ⟨hnodup, fun x hx => .inl hx⟩
  | succ fuel ih =>
    cases queue with
    | nil => exact ⟨by simp [closeQueue], by simp [closeQueue]⟩
    | cons i queue =>
      obtain ⟨hi, hqueue⟩ := nodup_cons.1 hnodup
      have hmarkq : Marked seen queue := fun x hx => hmark x (.tail _ hx)
      -- the first item is not found again
      have hagain : ¬(i.dot = 0 ∧ i.rule ≠ 0 ∧ seen.testBit i.rule = false) := by
        rintro ⟨hdot, hrule, hseen⟩
        rcases hmark i (.head _) hdot with hzero | hbit
        · exact hrule hzero
        · rw [hseen] at hbit
          cases hbit
      unfold closeQueue
      cases hnext : i.next? g with
      | none =>
        obtain ⟨hrest, hmem⟩ := ih hqueue hmarkq
        refine ⟨nodup_cons.2 ⟨fun h => ?_, hrest⟩, fun x hx => ?_⟩
        · exact (hmem i h).elim hi hagain
        rcases mem_cons.1 hx with rfl | hx
        · exact .inl (.head _)
        · exact (hmem x hx).imp_left (mem_cons_of_mem _)
      | some s =>
        dsimp only
        have hp := predicted g seen s
        have hrules := fun x (hx : x ∈ (predict g seen s).1) => (mem_predict hx).2
        generalize (predict g seen s).1 = found at hp hrules
        generalize (predict g seen s).2 = seen' at hp
        have hsplit : ∀ x ∈ found, x.dot = 0 ∧ x.rule ≠ 0 ∧ seen.testBit x.rule = false :=
          fun x hx => ⟨(hp.unseen x hx).1, (mem_rulesOf.1 (hrules x hx)).2.1, (hp.unseen x hx).2.1⟩
        have hboth : (queue ++ found).Nodup := by
          refine nodup_append.2 ⟨hqueue, hp.nodup, fun x hx y hy hxy => ?_⟩
          obtain ⟨hdot, hrule, hseen⟩ := hsplit y hy
          rw [← hxy] at hdot hrule hseen
          rcases hmarkq x hx hdot with hzero | hbit
          · exact hrule hzero
          · rw [hseen] at hbit
            cases hbit
        have hmark' : Marked seen' (queue ++ found) := by
          intro x hx hdot
          rcases mem_append.1 hx with hx | hx
          · exact (hmarkq x hx hdot).imp_right (hp.mono _)
          · exact .inr (hp.unseen x hx).2.2
        obtain ⟨hrest, hmem⟩ := ih hboth hmark'
        have hold : ∀ x ∈ closeQueue g fuel (queue ++ found) seen',
            x ∈ queue ∨ (x.dot = 0 ∧ x.rule ≠ 0 ∧ seen.testBit x.rule = false) := by
          intro x hx
          rcases hmem x hx with hx | ⟨hdot, hrule, hseen⟩
          · exact (mem_append.1 hx).imp_right (hsplit x)
          refine .inr ⟨hdot, hrule, ?_⟩
          rw [Bool.eq_false_iff] at hseen ⊢
          exact fun h => hseen (hp.mono _ h)
        refine ⟨nodup_cons.2 ⟨fun h => (hold i h).elim hi hagain, hrest⟩, fun x hx => ?_⟩
        rcases mem_cons.1 hx with rfl | hx
        · exact .inl (.head _)
        · exact (hold x hx).imp_left (mem_cons_of_mem _)

theorem advance_injective : Function.Injective Item.advance := by
  rintro ⟨r, d⟩ ⟨r', d'⟩ h
  simpa [Item.advance] using h

def allItems (g : Rules) : List Item :=
  (List.range g.rules.size).flatMap fun r => (List.range ((g.rule r).body.length + 1)).map (Item.mk r)

theorem mem_allItems : x ∈ allItems g ↔ x.rule < g.rules.size ∧ x.dot ≤ (g.rule x.rule).body.length := by
  cases x
  simp [allItems]

/-- What a state keeps of its kernel: distinct items of the grammar, moved but for the first. -/
structure Tidy (g : Rules) (q : ItemSet) : Prop where
  nodup : q.kernel.Nodup
  begins : ∀ x ∈ q.kernel, x.dot = 0 → x.rule = 0
  known : ∀ x ∈ q.items, x ∈ allItems g

theorem Explored.tidy {states : List ItemSet} {n : Nat} (h : Explored g states n)
    (hsize : 0 < g.rules.size) (i : Nat) (hq : states[i]? = some q) : Tidy g q := by
  -- closing a kernel adds only rules of the grammar
  have hitems : ∀ {q : ItemSet}, q ∈ states → (∀ x ∈ q.kernel, x ∈ allItems g) → ∀ x ∈ q.items, x ∈ allItems g := by
    intro q hq hk x hx
    rw [h.closed q hq] at hx
    rcases mem_closure hx with hx | ⟨hdot, _, _, _, _, hrule⟩
    · exact hk x hx
    · rw [mem_allItems, hdot]
      exact ⟨(mem_rulesOf.1 hrule).1, Nat.zero_le _⟩
  induction i using Nat.strong_induction_on generalizing q with
  | _ i ih =>
    cases i with
    | zero =>
      obtain ⟨q', hq', hk⟩ := h.first
      obtain rfl : q = q' := Option.some.inj (hq.symm.trans hq')
      refine ⟨by rw [hk]; simp, by rw [hk]; simp, hitems (mem_of_getElem? hq) ?_⟩
      rw [hk]
      intro x hx
      rw [mem_singleton.1 hx, mem_allItems]
      exact ⟨hsize, Nat.zero_le _⟩
    | succ j =>
      obtain ⟨i, p, hij, hp, -, hk, -⟩ := h.entered j q hq
      have hp' := ih i (by omega) hp
      refine ⟨?_, ?_, hitems (mem_of_getElem? hq) ?_⟩
      · rw [hk]
        refine (List.Nodup.filter _ ?_).map advance_injective
        rw [h.closed p (mem_of_getElem? hp)]
        exact (nodup_closeQueue hp'.nodup fun x hx hdot => .inl (hp'.begins x hx hdot)).1
      · intro x hx hdot
        rw [hk] at hx
        exact absurd (dot_pos_of_mem_gotoKernel hx) (by omega)
      · intro x hx
        rw [hk] at hx
        obtain ⟨y, hy, hnext, rfl⟩ := mem_gotoKernel.1 hx
        have hy' := mem_allItems.1 (hp'.known y hy)
        rw [mem_allItems]
        exact ⟨hy'.1, (List.getElem?_eq_some_iff.1 hnext).1⟩

theorem length_allItems (g : Rules) : (allItems g).length = g.rules.foldl (fun n r => n + r.body.length + 1) 0 := by
  have hfold : ∀ (rs : List Rule) (n : Nat),
      rs.foldl (fun n r => n + r.body.length + 1) n = n + (rs.map fun r => r.body.length + 1).sum := by
    intro rs
    induction rs with
    | nil => simp
    | cons r rs ih =>
      intro n
      rw [foldl_cons, ih, map_cons, sum_cons]
      omega
  have hrules : g.rules.toList = (List.range g.rules.size).map g.rule := by
    refine ext_getElem (by simp) fun i hi hi' => ?_
    rw [Array.length_toList] at hi
    simp [Rules.rule, hi]
  rw [← Array.foldl_toList, hfold, hrules]
  simp [allItems, length_flatMap, Function.comp_def]

def placed (us : List Item) (n : Nat) (k : List Item) : Fin n → Option { x // x ∈ us } := fun i =>
  k[i.val]?.bind fun x => if h : x ∈ us then some ⟨x, h⟩ else none

theorem placed_injective {n : Nat} (hk : ∀ x ∈ k, x ∈ us)
    (hk' : ∀ x ∈ k', x ∈ us) (hn : k.length ≤ n) (hn' : k'.length ≤ n)
    (h : placed us n k = placed us n k') : k = k' := by
  have hget : ∀ {k : List Item}, (∀ x ∈ k, x ∈ us) → ∀ i : Fin n, k[i.val]? = (placed us n k i).map Subtype.val := by
    intro k hk i
    unfold placed
    cases hi : k[i.val]? with
    | none => rfl
    | some x =>
      rw [Option.bind_some, dif_pos (hk x (mem_of_getElem? hi))]
      rfl
  refine ext_getElem? fun i => ?_
  by_cases hi : i < n
  · rw [hget hk ⟨i, hi⟩, hget hk' ⟨i, hi⟩, h]
  · rw [getElem?_eq_none (by omega), getElem?_eq_none (by omega)]

theorem entry_of_mem_kernel (h : q.Follows g items q.entry)
    (hx : x ∈ q.kernel) : (g.rule x.rule).body[x.dot - 1]? = some q.entry := by
  rw [h.2.1] at hx
  obtain ⟨i, -, hnext, rfl⟩ := mem_gotoKernel.1 hx
  exact hnext

namespace Explored

variable {g : Rules} {states : List ItemSet} {n : Nat}

theorem eq_of_kernel_eq (h : Explored g states n) {i j : Nat}
    (hp : states[i]? = some p) (hq : states[j]? = some q) (hk : p.kernel = q.kernel) : i = j := by
  obtain ⟨q0, hq0, hk0⟩ := h.first
  -- the first kernel has the only item that was not moved
  have hzero : ∀ {i : Nat} {p : ItemSet}, states[i]? = some p → p.kernel = [⟨0, 0⟩] → i = 0 := by
    intro i p hp hk
    obtain _ | i := i
    · rfl
    obtain ⟨_, r, _, _, _, hkr, _⟩ := h.entered i p hp
    have hmem : (⟨0, 0⟩ : Item) ∈ gotoKernel g r.items p.entry := by
      rw [← hkr, hk]
      exact (.head _)
    exact absurd (dot_pos_of_mem_gotoKernel hmem) (lt_irrefl 0)
  cases i with
  | zero =>
    obtain rfl : p = q0 := Option.some.inj (hp.symm.trans hq0)
    exact (hzero hq (hk.symm.trans hk0)).symm
  | succ i =>
    cases j with
    | zero =>
      obtain rfl : q = q0 := Option.some.inj (hq.symm.trans hq0)
      exact hzero hp (hk.trans hk0)
    | succ j =>
      obtain ⟨_, _, _, _, hf⟩ := h.entered i p hp
      obtain ⟨_, _, _, _, hf'⟩ := h.entered j q hq
      obtain ⟨x, hx⟩ := exists_mem_of_ne_nil _ hf.2.2
      have he := entry_of_mem_kernel hf hx
      rw [entry_of_mem_kernel hf' (hk ▸ hx)] at he
      exact h.apart hp hq (Option.some.inj he).symm hk

theorem length_le (h : Explored g states n) (hsize : 0 < g.rules.size) :
    states.length ≤ ((allItems g).length + 1) ^ (allItems g).length := by
  set us := allItems g
  have hmem : ∀ {i : Nat} {q : ItemSet}, states[i]? = some q → ∀ x ∈ q.kernel, x ∈ us := by
    intro i q hq x hx
    refine (h.tidy hsize i hq).known x ?_
    rw [h.closed q (mem_of_getElem? hq)]
    exact kernel_subset_closure hx
  have hlen : ∀ {i : Nat} {q : ItemSet}, states[i]? = some q → q.kernel.length ≤ us.length :=
    fun hq => ((h.tidy hsize _ hq).nodup.subperm fun x hx => hmem hq x hx).length_le
  -- the kernels are different lists of at most as many items as there are
  have hinj : Function.Injective fun i : Fin states.length => placed us us.length states[i].kernel := by
    intro i j hij
    have hi := getElem?_eq_getElem i.isLt
    have hj := getElem?_eq_getElem j.isLt
    have hk := placed_injective (hmem hi) (hmem hj) (hlen hi) (hlen hj) hij
    exact Fin.ext (h.eq_of_kernel_eq hi hj hk)
  have hcard := Fintype.card_le_of_injective _ hinj
  rw [Fintype.card_fin, Fintype.card_fun, Fintype.card_fin, Fintype.card_option] at hcard
  have hus' : Fintype.card { x // x ∈ us } ≤ us.length := by
    rw [Fintype.card_of_subtype us.toFinset (by simp)]
    exact toFinset_card_le us
  exact hcard.trans (Nat.pow_le_pow_left (by omega) _)

theorem goto?_of_follows (h : Explored g states states.length) {i j s : Nat}
    (hp : states[i]? = some p) (hq : states[j]? = some q) (hf : q.Follows g p.items s) :
    p.goto? s = some j := by
  obtain ⟨j1, hj1⟩ := h.expanded i (List.getElem?_eq_some_iff.1 hp).1 p hp s (hf.2.1 ▸ hf.2.2)
  obtain ⟨j2, hj2⟩ : ∃ j2, p.goto? s = some j2 := by
    unfold ItemSet.goto?
    rw [← Option.isSome_iff_exists, lookup_isSome_iff]
    exact ⟨(s, j1), hj1, by simp⟩
  obtain ⟨q2, hq2, -, hk2, -⟩ := h.goto? hp hj2
  rw [hj2, h.eq_of_kernel_eq hq2 hq (hk2.trans hf.2.1.symm)]

theorem mono (h : Explored g states n) (hm : m ≤ n) : Explored g states m :=
  ⟨h.first, h.closed, h.entered, h.moves, h.apart, fun i hi => h.expanded i (by omega)⟩

end Explored

theorem explored_all (hsize : 0 < g.rules.size) : Explored g (states g) (states g).length := by
  obtain ⟨n, h, hn⟩ := explored_itemSets g (stateBound g)
  refine h.mono ?_
  rcases hn with hn | hn
  · have hlen := h.length_le hsize
    have hbound : stateBound g = ((allItems g).length + 1) ^ ((allItems g).length + 1) := by
      rw [length_allItems]
      rfl
    rw [hn, hbound]
    exact hlen.trans (Nat.pow_le_pow_right (Nat.succ_pos _) (Nat.le_succ _))
  · exact hn.ge

def stateOf (g : Rules) (k : List Item) : Nat := (states g).findIdx fun q => q.kernel == k

def Reached (g : Rules) (k : List Item) : Prop := ∃ q ∈ states g, q.kernel = k

theorem reached_first (g : Rules) : Reached g [⟨0, 0⟩] := by
  obtain ⟨n, h, -⟩ := explored_itemSets g (stateBound g)
  obtain ⟨q, hq, hk⟩ := h.first
  exact ⟨q, mem_of_getElem? hq, hk⟩

theorem stateOf_first (g : Rules) : stateOf g [⟨0, 0⟩] = 0 := by
  obtain ⟨n, h, -⟩ := explored_itemSets g (stateBound g)
  obtain ⟨q, hq, hk⟩ := h.first
  have hq' : (states g)[0]? = some q := hq
  unfold stateOf
  cases hs : states g with
  | nil =>
    rw [hs] at hq'
    cases hq'
  | cons q' qs =>
    rw [hs] at hq'
    obtain rfl : q' = q := Option.some.inj hq'
    rw [findIdx_cons, hk]
    rfl

theorem Reached.state (h : Reached g k) :
    ∃ q, (states g)[stateOf g k]? = some q ∧ q.kernel = k ∧ q.items = closure g k := by
  obtain ⟨n, hex, -⟩ := explored_itemSets g (stateBound g)
  obtain ⟨q, hq, hk⟩ := h
  have hlt : stateOf g k < (states g).length := findIdx_lt_length_of_exists ⟨q, hq, by simpa using hk⟩
  have hget : (states g)[stateOf g k].kernel = k := beq_iff_eq.1 (findIdx_getElem (w := hlt))
  refine ⟨_, getElem?_eq_getElem hlt, hget, ?_⟩
  conv_rhs => rw [← hget]
  exact hex.closed _ (getElem_mem hlt)

theorem Reached.goto? (hsize : 0 < g.rules.size) (h : Reached g k)
    (hk' : gotoKernel g (closure g k) s = k') (hne : k' ≠ [])
    (hq : (states g)[stateOf g k]? = some q) : q.goto? s = some (stateOf g k') ∧ Reached g k' := by
  have hex := explored_all hsize
  obtain ⟨q1, hq1, hkernel, hitems⟩ := h.state
  obtain rfl : q = q1 := Option.some.inj (hq.symm.trans hq1)
  rw [← hitems] at hk'
  obtain ⟨j, hj⟩ := hex.expanded _ (List.getElem?_eq_some_iff.1 hq).1 q hq s (by rw [hk']; exact hne)
  obtain ⟨q', hq', hs, hkq, hne'⟩ := hex.moves q (mem_of_getElem? hq) _ hj
  have hreached : Reached g k' := ⟨q', mem_of_getElem? hq', hkq.trans hk'⟩
  obtain ⟨q2, hq2, hk2, -⟩ := hreached.state
  have hfollows := hex.goto?_of_follows hq hq' ⟨hs, hkq, hne'⟩
  refine ⟨?_, hreached⟩
  rw [hfollows, hex.eq_of_kernel_eq hq' hq2 ((hkq.trans hk').trans hk2.symm)]

end Tabc.Automaton
