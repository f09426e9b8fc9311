import Tabc.Proofs.Writing.Unfolded

/-!
# Loops over a range

Without folding, the head of such a loop compares with `<` whatever the step is. So the loop goes through the
range exactly if the step is positive or the range ends where it begins (`range_loop_counts_iff`).
-/

namespace Tabc.Core

open Target Target.Writer
open EStateM (run_bind run_get run_pure run_modify)

/-- The head of a loop that counts by steps as long as it is below a number. -/
def countingHead (x : String) (start stop step : Int) : String :=
  "for (" ++ (x ++ " = " ++ (Atom.int start).plain ++ ";") ++ " " ++ x ++ " < " ++
    (Atom.int stop).plain ++ "; " ++ x ++ " += " ++ (Atom.int step).plain ++ ")\x7b"

/-- The values that counting by steps goes through, as long as `go` holds. -/
inductive Counting (go : Int → Prop) (step : Int) : Int → List Int → Prop
  | done {a : Int} (h : ¬ go a) : Counting go step a []
  | next {a : Int} {vs : List Int} (h : go a) (rest : Counting go step (a + step) vs) : Counting go step a (a :: vs)

/-- A number stands before the end of a range, which goes down if its step is negative. -/
def Before (stop step a : Int) : Prop := if 0 < step then a < stop else stop < a

variable {a b s : Int} {vs : List Int}

theorem exists_counts_before (hs : s ≠ 0) (a : Int) : ∃ vs, Counting (Before b s) s a vs := by
  induction hk : (if 0 < s then b - a else a - b).toNat using Nat.strong_induction_on generalizing a with
  | _ k ih =>
    by_cases h : Before b s a
    · have hless : (if 0 < s then b - (a + s) else a + s - b).toNat < k := by
        rw [Before] at h
        split_ifs at h hk ⊢ <;> omega
      obtain ⟨vs, hvs⟩ := ih _ hless (a + s) rfl
      exact ⟨a :: vs, .next h hvs⟩
    · exact ⟨[], .done h⟩

/-- Counting down from below, the loop never ends. -/
theorem Counting.le_of_neg (h : Counting (· < b) s a vs) (hs : s < 0) : b ≤ a := by
  induction h with
  | done h => exact not_lt.mp h
  | next _ _ ih => omega

theorem counts_lt_iff (hs : s ≠ 0) (h : Counting (Before b s) s a vs) : Counting (· < b) s a vs ↔ 0 < s ∨ a = b := by
  by_cases hpos : 0 < s
  · rw [show Before b s = (· < b) from funext fun _ => if_pos hpos] at h
    exact iff_of_true h (.inl hpos)
  rw [show Before b s = (b < ·) from funext fun _ => if_neg hpos] at h
  constructor
  · intro hcount
    have hle := hcount.le_of_neg (by omega)
    cases hcount with
    | done => cases h with | done h => omega
    | next hlt => omega
  · rintro (hpos' | rfl)
    · exact absurd hpos' hpos
    · cases h with
      | done => exact .done (lt_irrefl a)
      | next h => exact absurd h (lt_irrefl a)

variable {w : Writer} {x : String} {i j k : Nat} {n : Int}

/-- A register leads to this number. -/
def Finds (w : Writer) (r : Nat) (n : Int) : Prop :=
  contents w.temps (w.temps.length + 1) (.text (reg r)) = .ok (.atom (.int n))

theorem Finds.exists_find (h : Finds w i n) : ∃ u, (Target.Node.text (reg i)).find? w.temps = .ok (some u) := by
  have hfind : (Target.Node.text (reg i)).find? w.temps = .ok (w.temps.lookup (reg i)) := rfl
  rw [Finds, contents, hfind] at h
  cases hu : w.temps.lookup (reg i) with
  | some u => exact ⟨u, by rw [hfind, hu]⟩
  | none => rw [hu] at h; cases h

section Loop

variable (hx : Nice x) (hfree : w.temps.lookup x = none) (htrial : w.trial = false)
  (hvariants : w.variants = []) (hfolding : w.folding = false)
  (hlit : w.literals.lookup (reg i) = none) (hi : Finds w i a)

include hx hfree htrial hvariants hfolding hlit hi

theorem run_assign_start :
    ∃ held, (assign (.text (reg i)) (write (.ident x)) (write (.text (reg i)))).run w =
      .ok (.line (x ++ " = " ++ (Atom.int a).plain ++ ";")) { w with held, vars := put x (.atom (.int a)) w.vars } := by
  obtain ⟨held, hvalue⟩ := run_assignValue_unfolded hfolding x (.atom (.int a))
  obtain ⟨u, hu⟩ := hi.exists_find
  have hside : (assignSide x false (.text (reg i)) (write (.text (reg i)))).run w =
      (assignValue x (.atom (.int a)) "").run w := by
    rw [assignSide_text (reg_ne_placeholder i), assignRaw]
    simp only [run_bind, run_get, run_lift_ok hu, run_tempValue_of_contents hi, isList, Bool.false_and,
      Bool.false_eq_true, if_false]
  have heval := run_evalAssign (x := x) (run_lookUp_of_contents (w := { w with held }) hi (by simp)) hlit
    (evaluate_int _ a)
  exact ⟨held, run_assign_of_side hx.visible hfree htrial (reg_ne_blank i) (hside.trans hvalue) hvariants heval⟩

/-- What is written for a loop over a range whose bounds are numbers, and when that loop runs through it. -/
theorem range_loop_counts_iff (hj : Finds w j b) (hk : Finds w k s) (hs : s ≠ 0) (body : Target.Node) :
    (∃ held, ∀ ⦃p w'⦄, (write body).run { w with held, vars := put x (.atom (.int a)) w.vars } = .ok p w' →
      (write (.forRange (.ident x) (.range (.text (reg j)) (.text (reg i)) (.text (reg k))) body)).run w =
        .ok (.group [.line (countingHead x a b s), p, .line "\x7d"]) w') ∧
    ∃ vs, Counting (Before b s) s a vs ∧ (Counting (· < b) s a vs ↔ 0 < s ∨ a = b) := by
  obtain ⟨held, hfirst⟩ := run_assign_start hx hfree htrial hvariants hfolding hlit hi
  obtain ⟨vs, hvs⟩ := exists_counts_before hs a
  refine ⟨⟨held, fun p w' hbody => ?_⟩, vs, hvs, counts_lt_iff hs hvs⟩
  obtain ⟨u, hu⟩ := hj.exists_find
  obtain ⟨v, hv⟩ := hk.exists_find
  have hname : (Target.Node.ident x).nameText = .ok x := rfl
  refine run_reporting_ok ?_
  rw [forRange]
  simp only [run_bind, run_get, run_lift_ok hu, run_lift_ok hv, run_tempValue_of_contents hj,
    run_tempValue_of_contents hk, hfirst, run_lift_ok hname, hfolding, Bool.false_eq_true, if_false,
    forRange.frameLast, rangeHead, run_lineText, run_pure]
  rw [hfolding] at hbody
  rw [hbody]
  rfl

end Loop

/-- The writer before the loop over the range from 5 down to 0. -/
def downward : Writer := { Writer.fresh false with
  temps := [("_t1_", .text "_t4_"), ("_t2_", .atom (.int 0)), ("_t3_", .atom (.int (-1))), ("_t4_", .atom (.int 5))] }

theorem range_loop_counts_iff_countdown :
    countingHead "i" 5 0 (-1) = "for (i = 5; i < 0; i += -1)\x7b" ∧
      ∃ vs, Counting (Before 0 (-1)) (-1) 5 vs ∧ ¬ Counting (· < 0) (-1) 5 vs := by
  obtain ⟨-, vs, hvs, hiff⟩ := range_loop_counts_iff (w := downward) (x := "i") (i := 1) (j := 2) (k := 3)
    (by decide) rfl rfl rfl rfl rfl rfl rfl rfl (by decide) (.block [])
  exact ⟨rfl, vs, hvs, hiff.not.mpr (by decide)⟩

end Tabc.Core
