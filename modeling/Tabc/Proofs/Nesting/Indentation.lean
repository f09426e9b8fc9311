import Tabc.Proofs.Nesting.Outlines

/-!
# Well-indented statements

`levelTrees t` gives the trees of the statements with exactly `t` tabs, each with the following statements of
one tab more as its body. The forest of well-indented statements is this one at level zero
(`forest_eq_levelTrees`).
-/

open List

namespace Tabc

variable {e : Edition} {t : Nat}

def Follows (s s' : Statement) : Prop := if s.node.isCompound then s'.tabs = s.tabs + 1 else s'.tabs ≤ s.tabs

instance : DecidableRel Follows := fun s s' =>
  inferInstanceAs (Decidable (if s.node.isCompound then s'.tabs = s.tabs + 1 else s'.tabs ≤ s.tabs))

/-- Indentation goes up by one after a statement with a body and never elsewhere. -/
structure WellIndented (l : List Statement) : Prop where
  first : ∀ s ∈ l.head?, s.tabs = 0
  steps : l.IsChain Follows

def levelTrees (e : Edition) (t : Nat) : List Statement → List Node
  | [] => []
  | s :: rest =>
    if s.tabs = t then
      (if s.node.isCompound then
        s.node.withBody (bodyOf e (levelTrees e (s.tabs + 1) (rest.takeWhile (s.tabs < ·.tabs))))
      else s.node) :: levelTrees e t rest
    else levelTrees e t rest
termination_by l => l.length
decreasing_by
  · exact Nat.lt_succ_of_le (takeWhile_sublist _).length_le
  · exact Nat.lt_succ_self _
  · exact Nat.lt_succ_self _

theorem levelTrees_of_deeper (h : ∀ s ∈ l, t < s.tabs) : levelTrees e t (l ++ l') = levelTrees e t l' := by
  induction l with
  | nil => rfl
  | cons s l ih => rw [cons_append, levelTrees, if_neg (h s mem_cons_self).ne', ih fun s' hs' => h s' (.tail _ hs')]

theorem levelTrees_beyond (l : List Statement) : levelTrees e t (beyond t l) = levelTrees e t l := by
  conv_rhs => rw [← takeWhile_append_dropWhile (p := (t < ·.tabs)) (l := l)]
  refine (levelTrees_of_deeper fun s hs => ?_).symm
  simpa using mem_takeWhile_imp hs

/-- Nesting by tabs and by levels agree where indentation goes up by one only. -/
theorem treesOf_eq_levelTrees (hsteps : l.IsChain Follows)
    (hfirst : ∀ s ∈ l.head?, s.tabs = t) (hle : ∀ s ∈ l, t ≤ s.tabs) :
    treesOf e l = levelTrees e t l := by
  induction l using treesOf.induct generalizing t with
  | case1 => rw [treesOf, levelTrees]
  | case2 s rest hs ihbody ihrest =>
    obtain rfl : s.tabs = t := hfirst s rfl
    have hrest : rest.IsChain Follows := hsteps.tail
    have hle' : ∀ r ∈ rest, s.tabs ≤ r.tabs := fun r hr => hle r (.tail _ hr)
    have hbody : ∀ r ∈ (deeper s.tabs rest).head?, r.tabs = s.tabs + 1 := by
      intro r hr
      rw [head?_takeWhile] at hr
      have hfollows := hsteps.rel_head? (Option.mem_filter_iff.1 hr).1
      rwa [Follows, if_pos hs] at hfollows
    have hdeeper : ∀ r ∈ deeper s.tabs rest, s.tabs + 1 ≤ r.tabs := fun r hr => by simpa using mem_takeWhile_imp hr
    have hnext : ∀ r ∈ (beyond s.tabs rest).head?, r.tabs = s.tabs := by
      intro r hr
      have hnot := head?_dropWhile_not (fun r : Statement => decide (s.tabs < r.tabs)) rest
      rw [Option.mem_def.1 hr] at hnot
      have hmem : r ∈ rest := (dropWhile_suffix _).subset (mem_of_mem_head? hr)
      have := hle' r hmem
      simp only [decide_eq_false_iff_not] at hnot
      omega
    have htake : (deeper s.tabs rest).IsChain Follows := by
      rw [← takeWhile_append_dropWhile (l := rest)] at hrest
      exact hrest.left_of_append
    rw [treesOf, if_pos hs, levelTrees, if_pos rfl, if_pos hs, ← levelTrees_beyond rest, ihbody htake hbody hdeeper,
      ihrest (hrest.suffix (dropWhile_suffix _)) hnext fun r hr => hle' r ((dropWhile_suffix _).subset hr)]
  | case3 s rest hs ih =>
    obtain rfl : s.tabs = t := hfirst s rfl
    have hnext : ∀ r ∈ rest.head?, r.tabs = s.tabs := by
      intro r hr
      have hfollows := hsteps.rel_head? hr
      rw [Follows, if_neg hs] at hfollows
      exact hfollows.antisymm (hle r (.tail _ (mem_of_mem_head? hr)))
    rw [treesOf, if_neg hs, levelTrees, if_pos rfl, if_neg hs, ih hsteps.tail hnext fun r hr => hle r (.tail _ hr)]

theorem sheltered_of_steps (h : (s :: l).IsChain Follows) : Sheltered (expectedAfter expected s) (opensAfter s) l := by
  induction l generalizing s expected with
  | nil => trivial
  | cons r l ih =>
    obtain ⟨hfollows, hsteps⟩ := isChain_cons_cons.1 h
    refine ⟨?_, ih hsteps⟩
    unfold Follows at hfollows
    unfold expectedAfter opensAfter
    by_cases hs : s.node.isCompound <;> by_cases h0 : s.tabs = 0 <;> simp_all

theorem WellIndented.sheltered (h : WellIndented l) : Sheltered 0 false l := by
  cases l with
  | nil => trivial
  | cons s l => exact ⟨.inl (h.first s rfl), sheltered_of_steps h.steps⟩

/-- The forest of well-indented statements: those without tabs are roots, and the body of a statement
consists of the following ones with one tab more, up to the next that is not further indented. -/
theorem forest_eq_levelTrees {l : List Statement} (h : WellIndented l) : forest .fourth l = levelTrees .fourth 0 l := by
  rw [forest_eq_treesOf (by decide) h.sheltered]
  exact treesOf_eq_levelTrees h.steps h.first fun s _ => Nat.zero_le s.tabs

/-- A loop and a statement after it inside a condition, which has an alternative. -/
def outlined : List Statement :=
  [⟨1, 0, .ifThen (.ident "a") .none⟩, ⟨2, 1, .whileDo (.ident "b") .none⟩, ⟨3, 2, .ret (.ident "x")⟩,
    ⟨4, 1, .ret (.ident "y")⟩, ⟨5, 0, .elseThen .none⟩, ⟨6, 1, .ret (.ident "z")⟩]

theorem forest_eq_levelTrees_outlined :
    WellIndented outlined ∧ forest .fourth outlined = levelTrees .fourth 0 outlined :=
  have h : WellIndented outlined := ⟨by simp [outlined], by decide⟩
  ⟨h, forest_eq_levelTrees h⟩

example : forest .fourth outlined =
    [.ifThen (.ident "a") (.block [.whileDo (.ident "b") (.block [.ret (.ident "x")]), .ret (.ident "y")]),
      .elseThen (.block [.ret (.ident "z")])] := rfl

end Tabc
