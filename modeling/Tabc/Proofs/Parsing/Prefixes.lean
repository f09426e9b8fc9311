import Tabc.Proofs.Automaton.Actions
import Tabc.Proofs.Parsing.Derivations

/-!
# What the parser does after a prefix

A state of the parse table is known by symbols that lead to it (`stateAfter`), and its kernel is computed from
the clauses alone. So questions about one state are answered without the table (`action_of_shifts`,
`action_of_reduces`, `goto_of_viable`), by the part of what may follow a symbol that is needed (`MayFollow`).
-/

open List

namespace Tabc

open Automaton
open Automaton Grammar

variable {e : Edition} {ss : List Symbol}

theorem started (e : Edition) : Started (grammar e) where
  size := by rw [size_rules]; omega
  heads := by cases e <;> decide +kernel
  body := rfl
  alone := by cases e <;> decide +kernel
  ends := by cases e <;> rfl

def kernelAfter (e : Edition) (ss : List Symbol) : List Item := walk (grammar e) [⟨0, 0⟩] (ss.map Symbol.code)

def itemsAfter (e : Edition) (ss : List Symbol) : List Item := closure (grammar e) (kernelAfter e ss)

def stateAfter (e : Edition) (ss : List Symbol) : Nat := stateOf (grammar e) (kernelAfter e ss)

theorem kernelAfter_concat (e : Edition) (ss : List Symbol) (s : Symbol) :
    kernelAfter e (ss ++ [s]) = gotoKernel (grammar e) (itemsAfter e ss) s.code := by
  simp [kernelAfter, itemsAfter, walk]

theorem kernelAfter_append (e : Edition) (ss ss' : List Symbol) :
    kernelAfter e (ss ++ ss') = walk (grammar e) (kernelAfter e ss) (ss'.map Symbol.code) := by simp [kernelAfter, walk]

theorem kernelAfter_congr (h : kernelAfter e ss = kernelAfter e ss')
    (more : List Symbol) : kernelAfter e (ss ++ more) = kernelAfter e (ss' ++ more) := by
  rw [kernelAfter_append, kernelAfter_append, h]

theorem stateAfter_congr (h : kernelAfter e ss = kernelAfter e ss') : stateAfter e ss = stateAfter e ss' := by
  unfold stateAfter
  rw [h]

@[simp] theorem stateAfter_nil (e : Edition) : stateAfter e [] = 0 := stateOf_first (grammar e)

/-- Symbols that some text begins with, as far as the states know. -/
def Viable (e : Edition) (ss : List Symbol) : Prop := kernelAfter e ss ≠ []

instance : Decidable (Viable e ss) := inferInstanceAs (Decidable (kernelAfter e ss ≠ []))

theorem Viable.of_concat (h : Viable e (ss ++ [s])) : Viable e ss := by
  intro hnil
  refine h ?_
  rw [kernelAfter_concat, itemsAfter, hnil, closure_nil]
  rfl

theorem viable_of_mem (h : i ∈ itemsAfter e ss) : Viable e ss := by
  intro hnil
  rw [itemsAfter, hnil, closure_nil] at h
  cases h

theorem Viable.reached (h : Viable e ss) : Reached (grammar e) (kernelAfter e ss) := by
  induction ss using List.reverseRecOn with
  | nil => exact reached_first (grammar e)
  | append_singleton ss s ih =>
    obtain ⟨q, hq, -, -⟩ := (ih h.of_concat).state
    exact ((ih h.of_concat).goto? (started e).size (kernelAfter_concat e ss s).symm h hq).2

theorem Viable.row (h : Viable e ss) : ∃ q, (states (grammar e))[stateAfter e ss]? = some q ∧
    q.items = itemsAfter e ss ∧ (rowOf e (stateAfter e ss)).Of (grammar e) q
      ((lookaheads (grammar e) (states (grammar e)).toArray).getD (stateAfter e ss) []) := by
  obtain ⟨t, ht⟩ := exists_build (started e) (Array.replicate (grammar e).rules.size 0)
  obtain ⟨q, row, hq, hitems, hrow, hof⟩ := exists_row ht h.reached
  refine ⟨q, hq, hitems, ?_⟩
  have hget : rowOf e (stateAfter e ss) = row := by
    unfold rowOf
    rw [parseTable_eq]
    unfold buildTable
    simp only [ht]
    rw [Array.getD_eq_getD_getElem?]
    change (t.rows[stateOf (grammar e) (kernelAfter e ss)]?).getD default = row
    rw [hrow]
    rfl
  rw [hget]
  exact hof

def predicts (e : Edition) (ss : List Symbol) (head : Phrase) : Bool :=
  (List.range (clauses e).length).all fun i =>
    (clauses e)[i]?.map Clause.head != some head || (itemsAfter e ss).contains ⟨i + 1, 0⟩

theorem mem_of_predicts (hc : (clauses e)[i]? = some c)
    (h : predicts e ss c.head = true) : (⟨i + 1, 0⟩ : Item) ∈ itemsAfter e ss := by
  have hi := all_eq_true.1 h i (mem_range.2 (List.getElem?_eq_some_iff.1 hc).1)
  simpa [hc] using hi

def shifts (e : Edition) (ss : List Symbol) (k : TokenKind) : Bool :=
  (grammar e).isTerminal k.code && !(kernelAfter e (ss ++ [.tok k])).isEmpty &&
    (itemsAfter e ss).all fun i => (i.next? (grammar e)).isSome ||
      i.rule != 0 && Automaton.Filling.shiftWins (grammar e) k.code i.rule

theorem viable_of_shifts (h : shifts e ss k = true) :
    (grammar e).isTerminal k.code = true ∧ Viable e (ss ++ [.tok k]) := by
  unfold shifts at h
  simp only [Bool.and_eq_true, Bool.not_eq_true', isEmpty_eq_false_iff] at h
  exact h.1

def MayFollow (e : Edition) (ss : List Symbol) (s a : Symbol) : Prop :=
  FollowsIn (grammar e) (kernelAfter e ss) s.code a.code

namespace MayFollow

variable {s a : Symbol}

theorem read (h : shifts e (ss ++ [s]) k = true) : MayFollow e ss s (.tok k) := by
  obtain ⟨hk, h⟩ := viable_of_shifts h
  obtain ⟨x, hx⟩ := exists_mem_of_ne_nil _ h
  rw [kernelAfter_concat] at hx
  obtain ⟨i, hi, hnext, -⟩ := mem_gotoKernel.1 hx
  rw [itemsAfter, kernelAfter_concat] at hi
  exact FollowsIn.read (started e).size h.of_concat.of_concat.reached hi hnext hk

theorem finish (e : Edition) : MayFollow e [] (.phrase .program) .eof := by
  change Automaton.Follows (grammar e) (stateAfter e []) _ _
  rw [stateAfter_nil]
  exact .finish

theorem inherit (hc : c ∈ clauses e) (hpredicts : predicts e ss c.head = true)
    (mid : List Symbol) (hbody : c.body = mid ++ [s]) (h : MayFollow e ss (.phrase c.head) a) :
    MayFollow e (ss ++ mid) s a := by
  obtain ⟨i, hc⟩ := mem_iff_getElem?.1 hc
  have hbegin := mem_of_predicts hc hpredicts
  unfold MayFollow at h ⊢
  rw [kernelAfter_append]
  refine FollowsIn.inherit (started e).size (viable_of_mem hbegin).reached
    (Nat.succ_ne_zero i) hbegin ?_ ?_
  · rw [rule_succ hc, hbody]
    simp
  · rw [rule_succ hc]
    exact h

end MayFollow

theorem action_of_shifts (h : shifts e ss k = true) :
    (machine e).action (stateAfter e ss) (.tok k) = some (.shift (stateAfter e (ss ++ [.tok k]))) := by
  obtain ⟨hterm, hviable⟩ := viable_of_shifts h
  unfold shifts at h
  simp only [Bool.and_eq_true, all_eq_true, Bool.or_eq_true, bne_iff_ne] at h
  obtain ⟨q, hq, hitems, hof⟩ := hviable.of_concat.row
  obtain ⟨hgoto, -⟩ := hviable.of_concat.reached.goto? (started e).size
    (kernelAfter_concat e ss (.tok k)).symm hviable hq
  have hbefore : ∃ i ∈ itemsAfter e ss, i.next? (grammar e) = some k.code := by
    obtain ⟨x, hx⟩ := exists_mem_of_ne_nil _ hviable
    rw [kernelAfter_concat] at hx
    obtain ⟨i, hi, hnext, -⟩ := mem_gotoKernel.1 hx
    exact ⟨i, hi, hnext⟩
  obtain ⟨it, hit⟩ := (Automaton.Filling.foldl_asking_shift ((lookaheads (grammar e) (states (grammar e)).toArray).getD
      (stateAfter e ss) []) hterm hgoto (itemsAfter e ss)
    (fun i hi hnone => (h.2 i hi).resolve_left (by simp [hnone])) none).2
    (fun m it h => by cases h) hbefore
  change (rowOf e (stateAfter e ss)).move? k.code = _
  rw [hof.move?, hitems, hit]
  rfl

/-- After some symbols one rule is complete and takes a symbol from the items before it. -/
def reduces (e : Edition) (ss : List Symbol) (a : Symbol) : Bool :=
  match (itemsAfter e ss).filter fun i => (i.next? (grammar e)).isNone with
  | [i] => (itemsAfter e ss).all fun x =>
    x.next? (grammar e) != some a.code || Automaton.Filling.reduceWins (grammar e) a.code i.rule
  | _ => false

theorem only_of_reduces (h : reduces e ss a = true) (hi : i ∈ itemsAfter e ss) (hnext : i.next? (grammar e) = none) :
    (∀ x ∈ itemsAfter e ss, x.next? (grammar e) = none → x = i) ∧
      ∀ x ∈ itemsAfter e ss, x.next? (grammar e) = some a.code →
        Automaton.Filling.reduceWins (grammar e) a.code i.rule = true := by
  unfold reduces at h
  split at h
  · rename_i j hj
    have hmem : ∀ x, x ∈ itemsAfter e ss → x.next? (grammar e) = none → x = j := by
      intro x hx hnone
      have hx' : x ∈ (itemsAfter e ss).filter fun i => (i.next? (grammar e)).isNone :=
        mem_filter.2 ⟨hx, Option.isNone_iff_eq_none.2 hnone⟩
      rw [hj] at hx'
      exact mem_singleton.1 hx'
    obtain rfl := hmem i hi hnext
    refine ⟨hmem, fun x hx hsome => ?_⟩
    have hx' := all_eq_true.1 h x hx
    simpa [hsome] using hx'
  · cases h

/-- A rule that begins after some symbols is reduced after its body, before what may follow. -/
theorem action_of_reduces (hc : c ∈ clauses e) (hpredicts : predicts e ss c.head = true)
    (hfollow : MayFollow e ss (.phrase c.head) a)
    (h : reduces e (ss ++ c.body) a = true) : ∃ i, (clauses e)[i]? = some c ∧
      (machine e).action (stateAfter e (ss ++ c.body)) a = some (.reduce (i + 1)) := by
  obtain ⟨i, hc⟩ := mem_iff_getElem?.1 hc
  refine ⟨i, hc, ?_⟩
  have hbegin := mem_of_predicts hc hpredicts
  have hrule := rule_succ hc
  have hbody : ((grammar e).rule (i + 1)).body = c.body.map Symbol.code := by rw [hrule]
  obtain ⟨hreach, halong, hdone⟩ := along_body (started e).size (viable_of_mem hbegin).reached hbegin le_rfl
  rw [take_length] at hreach halong hdone
  rw [hbody, ← kernelAfter_append] at hreach halong hdone
  rw [length_map] at hdone
  -- what is known to follow
  obtain ⟨set, hset, hmem⟩ := mem_lookahead (started e).toProper (Nat.succ_ne_zero i)
    (mem_items_stateOf (viable_of_mem hbegin).reached hbegin)
    (by rw [hbody, length_map, halong]; exact mem_items_stateOf hreach hdone)
  rw [hbody, halong] at hset
  have hset : ((lookaheads (grammar e) (states (grammar e)).toArray).getD
      (stateAfter e (ss ++ c.body)) []).lookup (i + 1) = some set := hset
  have ha : a.code ∈ set.toList := hmem a.code (by rw [hrule]; exact hfollow)
  obtain ⟨q, hq, hitems, hof⟩ := (viable_of_mem hdone).row
  have hnext : (⟨i + 1, c.body.length⟩ : Item).next? (grammar e) = none := by
    unfold Item.next?
    rw [hbody]
    simp
  obtain ⟨honly, hwin⟩ := only_of_reduces h hdone hnext
  change (rowOf e (stateAfter e (ss ++ c.body))).move? a.code = _
  rw [hof.move?, hitems, (Automaton.Filling.foldl_asking_reduce hnext
    (Nat.succ_ne_zero i) hset ha _ honly hwin none).2 (fun m it h => by cases h) hdone]
  rfl

theorem lookup_filterMap_self {xs : List Nat} {f : Nat → Option Nat} {s j : Nat} (hs : s ∈ xs)
    (hj : f s = some j) : (xs.filterMap fun x => (f x).map (x, ·)).lookup s = some j := by
  induction xs with
  | nil => cases hs
  | cons x xs ih =>
    by_cases hx : s = x
    · rw [filterMap_cons, ← hx, hj]
      simp
    have ih := ih (mem_of_ne_of_mem hx hs)
    rw [filterMap_cons]
    cases f x with
    | none => exact ih
    | some k =>
      rw [Option.map_some, lookup_cons, beq_false_of_ne hx]
      exact ih

theorem goto_of_viable (hp : (grammar e).isNonterminal p.code = true) (h : Viable e (ss ++ [.phrase p])) :
    (machine e).goto (stateAfter e ss) (.phrase p) = some (stateAfter e (ss ++ [.phrase p])) := by
  obtain ⟨q, hq, hitems, hof⟩ := h.of_concat.row
  obtain ⟨hgoto, -⟩ := h.of_concat.reached.goto? (started e).size (kernelAfter_concat e ss (.phrase p)).symm h hq
  change (rowOf e (stateAfter e ss)).goto? p.code = _
  unfold Row.goto?
  rw [hof.gotos]
  unfold gotos
  have hmem : p.code ∈ symbols (grammar e) q.items := by
    rw [hitems]
    exact mem_symbols_of_gotoKernel (by rw [← Symbol.code, ← kernelAfter_concat]; exact h)
  have hmap : (fun s => if (grammar e).isNonterminal s = true then (q.goto? s).map (s, ·) else none) =
      fun s => (if (grammar e).isNonterminal s = true then q.goto? s else none).map (s, ·) := by
    funext s
    split <;> rfl
  rw [hmap]
  refine lookup_filterMap_self hmem ?_
  rw [if_pos hp]
  exact hgoto

theorem action_accept (e : Edition) : (machine e).action (stateAfter e [.phrase .program]) .eof = some .accept := by
  have hitems : itemsAfter e [.phrase .program] = [⟨0, 1⟩] := by cases e <;> decide +kernel
  obtain ⟨q, hq, hq', hof⟩ := (viable_of_mem (by rw [hitems]; exact mem_singleton_self _) :
    Viable e [.phrase .program]).row
  change (rowOf e (stateAfter e [.phrase .program])).move? Symbol.eof.code = _
  rw [hof.move?, hq', hitems]
  rfl

theorem defaulted_of_action (h : (machine e).action state s = some m) :
    (machine e).defaulted state = none ∨ ∃ r, m = .reduce r ∧ (machine e).defaulted state = some r := by
  have h : (rowOf e state).move? s.code = some m := h
  change (rowOf e state).defaulted? = none ∨ ∃ r, m = .reduce r ∧ (rowOf e state).defaulted? = some r
  unfold Row.defaulted?
  split
  · rename_i x r it hentries
    right
    unfold Row.move? at h
    rw [hentries, find?_singleton] at h
    split at h
    · cases h
      exact ⟨r, rfl, rfl⟩
    · cases h
  · left
    rfl

end Tabc
