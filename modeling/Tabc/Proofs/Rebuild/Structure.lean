import Tabc.Proofs.Rebuild.Limits
import Tabc.Typing.Check

/-!
# Control structure through flattening and building

A program without printing and ranges comes back from its code exactly if the types that are asked for are
known, no further condition stands inside a last alternative, and no last alternative is empty
(`survives_iff`), given that chains inside an alternative are complete (`not_survives_misplaced`).
-/

namespace Tabc.Core

/-- Flattening a program and building its code succeed, and the tree has the loops, alternatives and
assignments of the program. -/
def Survives (known : Option ScopeTable) (p : Block) : Prop :=
  ∃ code tree s, Flat.ofProgram .fourth p.nodes = .ok code ∧
    (Target.Build.run .fourth known code).run (.fresh .fourth code) = .ok tree s ∧
    outline tree = p.untyped.nodes

theorem Block.outline_trees (p : Block) (hplain : p.plain = true) (hvars : ∀ x ∈ p.vars, ¬ IsReg x) :
    outline (.block (p.trees .empty 0)) = p.bare.nodes := by
  obtain ⟨ρ, hread, -⟩ := p.recoverAll_trees .empty 0 hplain (fun _ _ => rfl) hvars
  rw [outline, hread]

/-- The control structure of a program survives flattening and building exactly if the types that are
asked for are known, no further condition stands inside a last alternative, and no last alternative
is empty. -/
theorem survives_iff (known : Option ScopeTable) (p : Block) (hplain : p.plain = true)
    (htidy : p.tidy = true) (hvars : ∀ x ∈ p.vars, ¬ IsReg x) :
    Survives known p ↔ p.bound .empty = true ∧ p.legible = true ∧ p.solid = true := by
  have hcode := ofProgram_nodes p htidy
  constructor
  · rintro ⟨code, tree, s, hflat, hbuild, houtline⟩
    obtain rfl : p.code 0 0 = code := Except.ok.inj (hcode.symm.trans hflat)
    cases hgood : p.bound .empty && p.legible with
    | false => exact absurd hbuild (p.fails_code known hplain htidy hgood hvars tree s)
    | true =>
      rw [Bool.and_eq_true] at hgood
      obtain ⟨s', hrun⟩ := p.run_code known (p.rangeless_of_plain hplain) hgood.2 hgood.1 hvars
      obtain ⟨rfl, -⟩ := EStateM.Result.ok.inj (hrun.symm.trans hbuild)
      rw [p.outline_trees hplain hvars] at houtline
      exact ⟨hgood.1, hgood.2, p.nodes_bare_iff.mp houtline⟩
  · rintro ⟨hbound, hlegible, hsolid⟩
    obtain ⟨s, hrun⟩ := p.run_code known (p.rangeless_of_plain hplain) hlegible hbound hvars
    exact ⟨_, _, s, hcode, hrun, (p.outline_trees hplain hvars).trans (p.nodes_bare_iff.mpr hsolid)⟩

/-- A loop whose body is a chain of three alternatives, the last one a chain itself. -/
def nested : Block :=
  .cons (.assign "x" (some (.prim .int)) (.const (.int 0)))
  (.cons (.whileDo (.binary (.var "x") "<" (.const (.int 9))) (.cons (.chain (.binary (.var "x") "==" (.const (.int 1)))
      (.cons (.assign "x" none (.binary (.var "x") "+" (.const (.int 2)))) .nil)
      (.elif (.binary (.var "x") ">" (.const (.int 5)))
        (.cons (.assign "x" none (.binary (.var "x") "*" (.var "x"))) .nil)
        (.otherwise (.cons (.chain (.unary "!" (.binary (.var "x") "==" (.const (.int 3))))
          (.cons (.assign "x" none (.binary (.var "x") "+" (.const (.int 1)))) .nil)
          (.otherwise (.cons (.assign "x" none (.unary "-" (.unary "-" (.const (.int 7))))) .nil)))
          .nil)))) .nil)) .nil)

theorem survives_nested : Survives none nested := by
  have hvars : ∀ x ∈ nested.vars, ¬ IsReg x := by
    intro x hx hreg
    have hhead : ∀ x ∈ nested.vars, x.toList.head? ≠ some '_' := by decide
    exact hhead x hx hreg.head
  exact (survives_iff none nested rfl rfl hvars).mpr ⟨by decide, rfl, rfl⟩

/-- A chain with a last alternative, which is a chain that has none. -/
def misplaced : Block :=
  .cons (.assign "a" (some (.prim .bool)) (.const (.bool true)))
  (.cons (.assign "x" (some (.prim .int)) (.const (.int 0)))
  (.cons (.chain (.var "a") (.cons (.assign "x" none (.const (.int 1))) .nil)
    (.otherwise (.cons (.chain (.var "a") (.cons (.assign "x" none (.const (.int 2))) .nil) .done) .nil))) .nil))

def outlineLength (nodes : List Node) : Nat :=
  match (typecheck .fourth nodes).run (.fresh .fourth) with
  | .ok _ table => match Flat.ofProgram .fourth nodes with
    | .ok code => match (Target.Build.run .fourth (some table) code).run (.fresh .fourth code) with
      | .ok tree _ => (outline tree).length
      | .error .. => 0
    | .error _ => 0
  | .error .. => 0

theorem not_survives_misplaced : ∃ types table,
    (typecheck .fourth misplaced.nodes).run (.fresh .fourth) = .ok types table ∧ ¬ Survives (some table) misplaced := by
  -- the outline has three statements, the program has four
  have hlength : outlineLength misplaced.nodes = 3 := by decide +kernel
  unfold outlineLength at hlength
  cases hcheck : (typecheck .fourth misplaced.nodes).run (.fresh .fourth) with
  | error e table => simp only [hcheck] at hlength; cases hlength
  | ok types table =>
    refine ⟨types, table, rfl, ?_⟩
    rintro ⟨code, tree, s, hflat, hbuild, houtline⟩
    simp only [hcheck, hflat, hbuild, houtline] at hlength
    cases hlength

end Tabc.Core
