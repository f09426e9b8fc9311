import Tabc.Proofs.Rebuild.Calls
import Tabc.Proofs.Rebuild.Faults

/-!
# Calls as conditions of loops

Each instruction of the condition of a loop has to give statements, and the first one of a call gives none. So
an expression that can be assigned can be such a condition only if it is no call.
-/

namespace Tabc.Core

open Flat Target Target.Build

variable {known : Option ScopeTable} {s : Build} {σ : Scope} {Γ : Types} {Φ : Signatures}
  {x : String} {r : Nat} {a : Arg} {found : Prim × List Target.Node}

def Arg.assigned (a : Arg) (x : String) (r : Nat) : List Instr := a.code r ++ [.assign (.name x) (.name (a.operand r))]

/-- The code of a loop that assigns its own condition. -/
def Arg.looped (a : Arg) (x : String) (r n : Nat) : List Instr :=
  .label (.name (whileMark (n + 1))) :: a.code r ++ .branch (.name (mark (n + 2))) (.name (a.operand r)) ::
    a.assigned x (r + a.size) ++ [.goto (.name (whileMark (n + 1))), .label (.name (mark (n + 2)))]

theorem Arg.run_flatten_looped (a : Arg) (x : String) (type : Node) (f : Flat) :
    (flatten .fourth (.whileDo a.node (.block [.assign (.ident x) type a.node]))).run f = .ok .nothing
      { f with code := f.code ++ a.looped x f.registers f.labels, registers := f.registers + a.size + a.size,
               labels := f.labels + 2 } := by
  simp [flatten, flattenBody, flattenAll, a.run_flatten, Arg.looped, Arg.assigned, ← whileMark.eq_1, ← mark.eq_1]

theorem isSome_rebuilt {items : List Target.Node} {s' : Build} (h : Statements known s items s')
    (hq : s'.queue = []) : (rebuilt known s).isSome = true := by
  rw [rebuilt, run_of_statements h hq]
  rfl

theorem Arg.rebuilt_assigned (known : Option ScopeTable) (s : Build) (hserved : a.served = true)
    (hσ : Typed σ Γ r) (hΦ : Offers [σ] Φ) (htarget : a.target Γ Φ r = some found) (hx : ¬ IsReg x) :
    (rebuilt known (after s (a.assigned x r) σ)).isSome = true := by
  obtain ⟨s', σ', ⟨⟨items, hread, -⟩, hσ', -⟩, hval, -⟩ :=
    a.reads known hserved hσ hΦ htarget s [.assign (.name x) (.name (a.operand r))]
  obtain ⟨σ2, hassign, -⟩ := reads_assign hσ' hx rfl (.inr hval)
  exact isSome_rebuilt (hread.trans hassign.quiet) rfl

theorem Arg.rebuilt_looped_term {t : Term} (n : Nat) (hσ : Typed σ Γ r)
    (htarget : (Arg.term t).target Γ Φ r = some found) (hx : ¬ IsReg x) :
    (rebuilt known (after s ((Arg.term t).looped x r n) σ)).isSome = true := by
  have hknown : Γ.knows t.vars = true := by
    by_contra hk
    simp [Arg.target, hk] at htarget
  have hvars : ∀ y ∈ t.vars, (Γ y).isSome = true := List.all_eq_true.mp hknown
  have hplain : ∀ y ∈ t.vars, ¬ IsReg y := fun y hy => (hσ.plain y (hvars y hy)).1
  have hasked : Γ.knows t.asked = true := List.all_eq_true.mpr fun y hy => hvars y (t.asked_subset.1 hy)
  have hdirect : Γ.knows t.direct = true := List.all_eq_true.mpr fun y hy => hvars y (t.asked_subset.2 hy)
  obtain ⟨items, s', σ', hread, -, -⟩ := rebuilds_while hplain hasked
    (rebuilds_assign hx hplain hasked (by simp [hdirect])) (n + 1) (n + 2) s [] σ hσ
  rw [List.append_nil] at hread
  exact isSome_rebuilt hread rfl

theorem fails_whileHead_args (fuel : Nat) (head : List Target.Node) (o o' : Operand) (n : Int) :
    Fails (whileHead .fourth known fuel head (.args o o' n)) s := by
  intro made s' hrun
  obtain _ | fuel := fuel
  · cases hrun
  obtain ⟨made, s1, hmade, hrun⟩ := of_run_bind hrun
  rcases fuel with - | - | fuel
  · cases hmade
  · cases run_buildCore_of_buildInstr hmade
  have hcore := run_buildCore_of_buildInstr hmade
  cases hcore
  cases hrun

theorem Arg.rebuilt_looped_call (f : String) (args : Args) (n : Nat) :
    rebuilt known (after s ((Arg.call f args).looped x r n) σ) = none := by
  have hhalts : Halts known (after s ((Arg.call f args).looped x r n) σ) :=
    .of_core rfl fun fuel _ => by
      rw [buildCore_whileMark]
      exact .after_ok (run_pop rfl) (fails_whileHead_args _ _ _ _ _)
  unfold rebuilt
  split
  · next hrun =>
    exact absurd hrun ((fails_program hhalts (by simp [fuelFor])).bind _ _ _)
  · rfl

/-- An expression that can be assigned can be the condition of a loop just if it is no call. There are no strings
in it, and no calls under operators; other positions are not looked at. -/
theorem rebuilt_looped_iff (known : Option ScopeTable) (s : Build) (n : Nat) (hserved : a.served = true)
    (hσ : Typed σ Γ r) (hΦ : Offers [σ] Φ) (htarget : a.target Γ Φ r = some found) (hx : ¬ IsReg x) :
    (∀ f : Flat, f.registers = r → f.labels = n →
        (flatten .fourth (.whileDo a.node (.block [.assign (.ident x) .none a.node]))).run f = .ok .nothing
          { f with code := f.code ++ a.looped x r n, registers := r + a.size + a.size, labels := n + 2 }) ∧
      (rebuilt known (after s (a.assigned x r) σ)).isSome = true ∧
      ((rebuilt known (after s (a.looped x r n) σ)).isSome = true ↔ ∃ t, a = .term t) := by
  refine ⟨?_, a.rebuilt_assigned known s hserved hσ hΦ htarget hx, ?_⟩
  · rintro f rfl rfl
    exact a.run_flatten_looped x .none f
  · cases a with
    | term t => simp [Arg.rebuilt_looped_term n hσ htarget hx]
    | call f args => simp [Arg.rebuilt_looped_call]

theorem rebuilt_looped_prompt :
    let a : Arg := .call "input_int" (.cons (.term (.var "prompt")) .nil)
    (rebuilt none (after (.fresh .fourth []) (a.assigned "x" 0) promptScope)).isSome = true ∧
      (rebuilt none (after (.fresh .fourth []) (a.looped "x" 0 0) promptScope)).isSome = false := by
  obtain ⟨-, hassign, hloop⟩ := rebuilt_looped_iff none (.fresh .fourth []) 0
    (a := .call "input_int" (.cons (.term (.var "prompt")) .nil)) (x := "x") rfl
    (typed_builtins.bind_var (fun h => absurd h.head (by decide)) rfl rfl .str) offers_prompt rfl
    fun h => absurd h.head (by decide)
  exact ⟨hassign, by simpa [promptScope] using hloop⟩

/-- A number can be read into a variable, but a loop on the number that is read is lost. -/
theorem bare_call_fails_as_condition :
    (rebuilt none (.fresh .fourth ((Arg.call "input_int" .nil).assigned "x" 0))).isSome = true ∧
      (rebuilt none (.fresh .fourth ((Arg.call "input_int" .nil).looped "x" 0 0))).isSome = false := by
  decide +kernel

end Tabc.Core
