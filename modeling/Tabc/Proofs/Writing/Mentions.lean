import Tabc.Proofs.Writing.Straight

/-!
# Names in the output

Without folding, the output of a program of whole numbers mentions variables of the program only. The operand
of a sign is not looked up, so there a register stays.
-/

open List

namespace Tabc.Core

variable {x : String}

theorem Term.mem_vars_of_frozen {t : Term} {ρ : Store Int} (h : x ∈ (t.frozen ρ).vars) : x ∈ t.vars := by
  rw [Term.frozen] at h
  split at h
  · cases h
  · exact h

mutual

theorem Stmt.mem_vars_of_frozen : (s : Stmt) → {ρ : Store Int} → x ∈ (s.frozen ρ).vars → x ∈ s.vars
  | .assign _ _ _, _, h => mem_cons.2 ((mem_cons.1 h).imp_right Term.mem_vars_of_frozen)
  | .print _, _, h => h
  | .whileDo _ body, _, h => mem_append.2 ((mem_append.1 h).imp_right body.mem_vars_of_frozen)
  | .forRange _ _ _ _ body, _, h => mem_cons.2 ((mem_cons.1 h).imp_right fun h =>
      mem_append.2 ((mem_append.1 h).imp_right body.mem_vars_of_frozen))
  | .chain _ body rest, _, h => mem_append.2 ((mem_append.1 h).imp
      (fun h => mem_append.2 ((mem_append.1 h).imp_right body.mem_vars_of_frozen))
      rest.mem_vars_of_frozen)

theorem Block.mem_vars_of_frozen : (p : Block) → {ρ : Store Int} → x ∈ (p.frozen ρ).vars → x ∈ p.vars
  | .nil, _, h => h
  | .cons s rest, _, h => mem_append.2 ((mem_append.1 h).imp s.mem_vars_of_frozen rest.mem_vars_of_frozen)

theorem Tail.mem_vars_of_frozen : (t : Tail) → {ρ : Store Int} → x ∈ (t.frozen ρ).vars → x ∈ t.vars
  | .done, _, h | .otherwise .nil, _, h => h
  | .elif _ body rest, _, h => mem_append.2 ((mem_append.1 h).imp
      (fun h => mem_append.2 ((mem_append.1 h).imp_right body.mem_vars_of_frozen))
      rest.mem_vars_of_frozen)
  | .otherwise (.cons s rest), _, h => mem_append.2 ((mem_append.1 h).imp s.mem_vars_of_frozen rest.mem_vars_of_frozen)

end

/-- Without folding, a program of whole numbers, with sums, differences and products only, goes through all
stages, and the body of its output mentions variables of the program and no register. -/
theorem unfolded_output_mentions (known : Option ScopeTable) (p : Block) (hnum : p.numeric = true)
    (hscoped : p.scoped [] = true) (htidy : p.tidy = true) (hlegible : p.legible = true)
    (hfine : ∀ x ∈ p.vars, Fine x) :
    ∃ lines q, Compiles known false p lines ∧ readLines lines = some q ∧ ∀ x ∈ q.vars, x ∈ p.vars ∧ ¬ IsReg x := by
  obtain ⟨lines, hcompiles, hread⟩ := p.compiles_frozen known hnum hscoped htidy hlegible hfine
  refine ⟨lines, _, hcompiles, hread, fun x hx => ?_⟩
  have hmem : x ∈ p.vars := p.mem_vars_of_frozen hx
  exact ⟨hmem, (hfine x hmem).not_isReg⟩

theorem unfolded_output_mentions_settling :
    ∃ lines q, Compiles none false settling lines ∧ readLines lines = some q ∧
      ∀ x ∈ q.vars, x ∈ settling.vars ∧ ¬ IsReg x :=
  unfolded_output_mentions none settling (by decide) (by decide) (by decide) (by decide) (by decide)

/-- The operand of a sign is written as a register. -/
theorem unfolded_output_sign :
    ((attempt false (.cons (.assign "x" (some (.prim .int)) (.unary "-" (.const (.int 1)))) .nil)).toOption.any
      fun text => Text.occurs (reg 1).toList text.toList) = true := by
  decide +kernel

end Tabc.Core
