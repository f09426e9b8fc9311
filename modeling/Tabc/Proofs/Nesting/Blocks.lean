import Mathlib
import Tabc.Syntax.Nesting

/-!
# Blocks of statements

`treesOf` nests statements by their tabs. A walk that keeps the open blocks gives each statement the innermost
one with fewer tabs (`blockOwners`), and trees assembled with these owners are the nested ones if every
statement with tabs has an open block above it (`assemble_blockOwners`).
-/

open List

namespace Tabc

variable {e : Edition}

/-- The trees of some statements: one with a body takes all that follow and are further indented. -/
def treesOf (e : Edition) : List Statement → List Node
  | [] => []
  | s :: rest =>
    if s.node.isCompound then
      s.node.withBody (bodyOf e (treesOf e (rest.takeWhile (s.tabs < ·.tabs)))) ::
        treesOf e (rest.dropWhile (s.tabs < ·.tabs))
    else s.node :: treesOf e rest
termination_by l => l.length
decreasing_by
  · exact Nat.lt_succ_of_le (takeWhile_sublist _).length_le
  · exact Nat.lt_succ_of_le (dropWhile_suffix _).length_le
  · exact Nat.lt_succ_self _

@[simp] theorem treesOf_nil (e : Edition) : treesOf e [] = [] := by rw [treesOf]

/-- The statements up to one that is not further indented. -/
abbrev deeper (t : Nat) (l : List Statement) : List Statement := l.takeWhile (t < ·.tabs)

abbrev beyond (t : Nat) (l : List Statement) : List Statement := l.dropWhile (t < ·.tabs)

/-- A statement with the body that its tabs give it. -/
def treeOf (e : Edition) (s : Statement) (rest : List Statement) : Node :=
  if s.node.isCompound then
    s.node.withBody (bodyOf e (treesOf e (deeper s.tabs rest)))
  else s.node

def behind (s : Statement) (rest : List Statement) : List Statement :=
  if s.node.isCompound then beyond s.tabs rest else rest

theorem treesOf_cons (e : Edition) (s : Statement) (rest : List Statement) :
    treesOf e (s :: rest) = treeOf e s rest :: treesOf e (behind s rest) := by
  rw [treesOf]
  unfold treeOf behind
  split <;> rfl

variable {t t' : Nat} (l : List Statement)

theorem deeper_deeper (h : t ≤ t') : deeper t' (deeper t l) = deeper t' l := by
  induction l with
  | nil => rfl
  | cons s l ih =>
    by_cases hs' : t' < s.tabs
    · have hs : t < s.tabs := by omega
      simp [deeper, hs, hs', ih]
    · by_cases hs : t < s.tabs <;> simp [deeper, hs, hs']

theorem beyond_deeper (h : t ≤ t') : beyond t' (deeper t l) = deeper t (beyond t' l) := by
  induction l with
  | nil => rfl
  | cons s l ih =>
    by_cases hs' : t' < s.tabs
    · have hs : t < s.tabs := by omega
      simp [beyond, deeper, hs, hs', ih]
    · by_cases hs : t < s.tabs <;> simp [beyond, deeper, hs, hs']

theorem beyond_beyond (h : t ≤ t') : beyond t (beyond t' l) = beyond t l := by
  induction l with
  | nil => rfl
  | cons s l ih =>
    by_cases hs' : t' < s.tabs
    · have hs : t < s.tabs := by omega
      simp [beyond, hs, hs', ih]
    · simp [beyond, hs']

def above (t : Nat) (blocks : List Owner) : List Owner := blocks.dropWhile (t ≤ ·.tabs)

def entered (index : Nat) (s : Statement) (blocks : List Owner) : List Owner :=
  if s.node.isCompound then ⟨index, s.tabs⟩ :: above s.tabs blocks else above s.tabs blocks

def blockOwners : List Owner → Nat → List Statement → List (Option Nat)
  | _, _, [] => []
  | blocks, index, s :: rest =>
    (above s.tabs blocks).head?.map Owner.index :: blockOwners (entered index s blocks) (index + 1) rest

/-- Every statement with tabs has an open block above it. -/
def Housed : List Owner → Nat → List Statement → Prop
  | _, _, [] => True
  | blocks, index, s :: rest =>
    (s.tabs = 0 ∨ above s.tabs blocks ≠ []) ∧ Housed (entered index s blocks) (index + 1) rest

/-- Inner blocks come later and are further indented; all come before a place. -/
structure Blocks (index : Nat) (blocks : List Owner) : Prop where
  before : ∀ b ∈ blocks, b.index < index
  inner : blocks.Pairwise fun b c => c.index < b.index ∧ c.tabs < b.tabs

theorem above_zero (blocks : List Owner) : above 0 blocks = [] := by simp [above]

theorem above_cons_of_le (h : t ≤ b.tabs) (bs : List Owner) : above t (b :: bs) = above t bs := by
  simp [above, h]

theorem above_cons_of_lt (h : b.tabs < t) (bs : List Owner) : above t (b :: bs) = b :: bs := by
  simp [above, h]

variable {blocks : List Owner} {index i : Nat} {s : Statement} {rest : List Statement}
  {trees : List Node × List (Nat × Node)}

theorem tabs_lt_of_above (h : above t blocks = c :: bs) : c.tabs < t := by
  have hc := head?_dropWhile_not (fun b : Owner => decide (t ≤ b.tabs)) blocks
  unfold above at h
  rw [h] at hc
  simpa using hc

theorem Blocks.above (h : Blocks index blocks) (t : Nat) : Blocks index (above t blocks) where
  before b hb := h.before b ((dropWhile_suffix _).subset hb)
  inner := h.inner.sublist (dropWhile_sublist _)

theorem Blocks.entered (h : Blocks index blocks) (s : Statement) : Blocks (index + 1) (entered index s blocks) := by
  have habove := h.above s.tabs
  have hmono : Blocks (index + 1) (Tabc.above s.tabs blocks) :=
    ⟨fun b hb => Nat.lt_succ_of_lt (habove.before b hb), habove.inner⟩
  unfold Tabc.entered
  split
  · refine ⟨?_, pairwise_cons.2 ⟨fun b hb => ⟨habove.before b hb, ?_⟩, habove.inner⟩⟩
    · intro b hb
      rcases mem_cons.1 hb with rfl | hb
      · exact Nat.lt_succ_self _
      · exact hmono.before b hb
    · cases hc : Tabc.above s.tabs blocks with
      | nil => rw [hc] at hb; cases hb
      | cons c bs =>
        have hlt := tabs_lt_of_above hc
        rw [hc] at hb habove
        rcases mem_cons.1 hb with rfl | hb
        · exact hlt
        · exact ((pairwise_cons.1 habove.inner).1 b hb).2.trans hlt
  · exact hmono

/-- The trees that the block at a place gets from the statements to come. -/
def share (e : Edition) (i : Nat) : List Owner → List Statement → List Node
  | [], _ => []
  | b :: bs, l => if b.index = i then treesOf e (deeper b.tabs l) else share e i bs (beyond b.tabs l)

/-- The statements to come after all open blocks are closed. -/
def remainder : List Owner → List Statement → List Statement
  | [], l => l
  | b :: bs, l => remainder bs (beyond b.tabs l)

theorem share_of_not_mem (h : ∀ b ∈ blocks, b.index ≠ i) (l : List Statement) : share e i blocks l = [] := by
  induction blocks generalizing l with
  | nil => rfl
  | cons b bs ih =>
    rw [share, if_neg (h b mem_cons_self)]
    exact ih (fun c hc => h c (.tail _ hc)) _

theorem share_above (h : Blocks index blocks) (s : Statement) (rest : List Statement) :
    share e i blocks (s :: rest) = share e i (above s.tabs blocks) (s :: rest) := by
  induction blocks with
  | nil => rfl
  | cons b bs ih =>
    obtain ⟨hb, hbs⟩ := pairwise_cons.1 h.inner
    by_cases hclosed : s.tabs ≤ b.tabs
    · have hnot : ¬b.tabs < s.tabs := by omega
      rw [above_cons_of_le hclosed, share, ← ih ⟨fun c hc => h.before c (mem_cons_of_mem _ hc), hbs⟩]
      split
      · rw [share_of_not_mem fun c hc => by have := (hb c hc).1; omega]
        simp [hnot]
      · simp [hnot]
    · rw [above_cons_of_lt (by omega)]

theorem remainder_above (blocks : List Owner) (s : Statement) (rest : List Statement) :
    remainder blocks (s :: rest) = remainder (above s.tabs blocks) (s :: rest) := by
  induction blocks with
  | nil => rfl
  | cons b bs ih =>
    by_cases hclosed : s.tabs ≤ b.tabs
    · have hnot : ¬b.tabs < s.tabs := by omega
      rw [above_cons_of_le hclosed, ← ih, remainder]
      simp [hnot]
    · rw [above_cons_of_lt (by omega)]

theorem share_entered (hi : i ≠ index) (blocks : List Owner) (s : Statement) (rest : List Statement) :
    share e i (entered index s blocks) rest = share e i (above s.tabs blocks) (behind s rest) := by
  unfold entered behind
  split
  · rw [share, if_neg hi.symm]
  · rfl

theorem remainder_entered (index : Nat) (blocks : List Owner) (s : Statement) (rest : List Statement) :
    remainder (entered index s blocks) rest = remainder (above s.tabs blocks) (behind s rest) := by
  unfold entered behind
  split <;> rfl

theorem treeOf_deeper (h : t ≤ s.tabs) (rest : List Statement) : treeOf e s (deeper t rest) = treeOf e s rest := by
  unfold treeOf
  rw [deeper_deeper rest h]

theorem behind_deeper (h : t ≤ s.tabs) (rest : List Statement) :
    behind s (deeper t rest) = deeper t (behind s rest) := by
  unfold behind
  split
  · exact beyond_deeper rest h
  · rfl

theorem beyond_behind (h : t ≤ s.tabs) (rest : List Statement) : beyond t (behind s rest) = beyond t rest := by
  unfold behind
  split
  · exact beyond_beyond rest h
  · rfl

/-- The trees at the top level and in each open block are the nested ones. -/
structure Gathered (e : Edition) (blocks : List Owner) (l : List Statement)
    (trees : List Node × List (Nat × Node)) : Prop where
  roots : trees.1 = treesOf e (remainder blocks l)
  owned : ∀ i, (trees.2.filter (·.1 == i)).map Prod.snd = share e i blocks l

theorem Gathered.node (h : Gathered e (entered index s blocks) rest trees) :
    (if s.node.isCompound then
      s.node.withBody (bodyOf e ((trees.2.filter fun (i, _) => i == index).map Prod.snd))
    else s.node) = treeOf e s rest := by
  unfold treeOf
  split
  · rename_i hs
    rw [h.owned index]
    simp [entered, hs, share]
  · rfl

/-- What is owned after a statement has been taken out of the trees and given to its owner. -/
theorem filter_passed {trees : List (Nat × Node)} (h : i ≠ index) :
    (trees.filter fun (j, _) => j != index).filter (·.1 == i) = trees.filter (·.1 == i) := by
  rw [filter_filter]
  refine filter_congr fun x _ => ?_
  by_cases hx : x.1 = i
  · simp [hx, h]
  · simp [hx]

section

variable (hb : Blocks index blocks) (h : Gathered e (entered index s blocks) rest trees)

include hb h

theorem Gathered.cons_root (hs : s.tabs = 0) :
    Gathered e blocks (s :: rest) (treeOf e s rest :: trees.1, trees.2.filter fun (i, _) => i != index) := by
  have habove : above s.tabs blocks = [] := by rw [hs, above_zero]
  refine ⟨?_, fun i => ?_⟩
  · rw [remainder_above, h.roots, remainder_entered, habove, remainder, remainder, treesOf_cons]
  rw [share_above hb, habove, share]
  by_cases hi : i = index
  · simp [hi]
  · rw [filter_passed hi, h.owned i, share_entered hi, habove, share]

/-- A statement with tabs becomes part of the innermost block above it. -/
theorem Gathered.cons_owned (habove : above s.tabs blocks = c :: bs) :
    Gathered e blocks (s :: rest) (trees.1, (c.index, treeOf e s rest) :: trees.2.filter fun (i, _) => i != index) := by
  have hc : c.tabs < s.tabs := tabs_lt_of_above habove
  have hdeeper : deeper c.tabs (s :: rest) = s :: deeper c.tabs rest := takeWhile_cons_of_pos (by simpa using hc)
  have hbeyond : beyond c.tabs (s :: rest) = beyond c.tabs (behind s rest) := by
    rw [beyond_behind hc.le]
    exact dropWhile_cons_of_pos (by simpa using hc)
  refine ⟨?_, fun i => ?_⟩
  · rw [h.roots, remainder_entered, remainder_above blocks s, habove, remainder, remainder, hbeyond]
  rw [share_above hb, habove, share]
  by_cases hi : i = index
  · have hbefore : ∀ b ∈ c :: bs, b.index ≠ i := by
      rw [hi, ← habove]
      exact fun b hb' => ((hb.above s.tabs).before b hb').ne
    obtain ⟨hci, hbs⟩ := forall_mem_cons.1 hbefore
    rw [share_of_not_mem hbs]
    simp [hi, hi ▸ hci]
  · have hshare := h.owned i
    rw [share_entered hi, habove, share] at hshare
    rw [filter_cons, filter_passed hi]
    by_cases hci : c.index = i
    · rw [if_pos hci] at hshare ⊢
      simp only [hci, beq_self_eq_true, if_true, map_cons]
      rw [hshare, hdeeper, treesOf_cons, treeOf_deeper hc.le, behind_deeper hc.le]
    · rw [if_neg hci] at hshare ⊢
      rw [if_neg (by simpa using hci), hshare, hbeyond]

end

theorem gathered_nil (e : Edition) (blocks : List Owner) : Gathered e blocks [] ([], []) := by
  induction blocks with
  | nil => exact ⟨(treesOf_nil e).symm, fun _ => rfl⟩
  | cons b bs ih =>
    refine ⟨ih.roots, fun i => ?_⟩
    rw [share]
    split
    · exact (treesOf_nil e).symm
    · exact ih.owned i

theorem assemble_blockOwners (hb : Blocks index blocks) {l : List Statement} (hl : Housed blocks index l) :
    Gathered e blocks l (assemble e (l.zip (blockOwners blocks index l)) index) := by
  induction l generalizing index blocks with
  | nil => exact gathered_nil e blocks
  | cons s rest ih =>
    obtain ⟨hs, hrest⟩ := hl
    have hG := ih (hb.entered s) hrest
    rw [blockOwners, zip_cons_cons, assemble]
    dsimp only
    rw [hG.node]
    rcases Nat.eq_zero_or_pos s.tabs with h0 | hpos
    · have hroot := hG.cons_root hb h0
      rw [h0, above_zero]
      exact hroot
    · obtain ⟨c, bs, habove⟩ : ∃ c bs, above s.tabs blocks = c :: bs :=
        exists_cons_of_ne_nil (hs.resolve_left hpos.ne')
      have howned := hG.cons_owned hb habove
      rw [habove, if_neg (by simpa using hpos.ne')]
      exact howned

end Tabc
