import Tabc.Proofs.Rebuild.Reading
import Tabc.Proofs.Rebuild.Trees

/-!
# Reading instructions back

What single instructions and the code of an expression become, in a scope of built-in functions, variables and
registers (`Typed`).
-/

namespace Tabc.Core

open ScopeTable
open Target Target.Build

variable {known : Option ScopeTable} {s : Build} {base σ : Scope} {outer : List Scope} {Γ : Types}
  {r : Nat} {q : List Instr} {x : String} {p : Prim}

theorem find?_bind (h : σ.find? x = none) (y : String) :
    (σ.bind x e).find? y = if y = x then some e else σ.find? y := by
  have hhas : σ.has x = false := by simp [Scope.has, h]
  rw [Scope.bind, hhas, if_neg (by simp), Scope.find?, List.lookup_append]
  by_cases hy : y = x
  · subst hy
    rw [show List.lookup y σ = none from h]
    simp [List.lookup]
  · have : (y == x) = false := by simpa using hy
    simp [List.lookup, this, hy, Scope.find?]

theorem scopes_setTop (t : ScopeTable) (σ : Scope) : (t.setTop σ).scopes = σ :: t.scopes.tail := by
  cases h : t.scopes <;> simp [setTop, h]

theorem top_setTop (t : ScopeTable) (σ : Scope) : (t.setTop σ).top = σ := by
  rw [ScopeTable.top, scopes_setTop]
  rfl

def targetVar (p : Prim) : Entry := .variable (.target (.prim p))

/-- A scope has the entries of another one and variables of these types, and no register above
`r`. -/
structure TypedOver (base σ : Scope) (Γ : Types) (r : Nat) : Prop where
  names : ∀ x, ¬ IsReg x → σ.find? x = (base.find? x).or ((Γ x).map targetVar)
  plain : ∀ x, (Γ x).isSome = true → ¬ IsReg x ∧ base.find? x = none
  regs : ∀ n, r < n → σ.find? (reg n) = none

abbrev Typed : Scope → Types → Nat → Prop := TypedOver builtins4

namespace TypedOver

variable (h : TypedOver base σ Γ r)

include h

theorem mono (hr : r ≤ r') : TypedOver base σ Γ r' := ⟨h.names, h.plain, fun n hn => h.regs n (by omega)⟩

theorem find?_known (hx : (Γ x).isSome = true) : σ.find? x = some (targetVar ((Γ x).getD .int)) := by
  obtain ⟨hreg, hfree⟩ := h.plain x hx
  obtain ⟨p, hp⟩ := Option.isSome_iff_exists.mp hx
  rw [h.names x hreg, hfree, hp]
  rfl

theorem has_iff (hx : ¬ IsReg x) (hbase : base.has x = builtins4.has x) : σ.has x = Γ.taken x := by
  rw [Types.taken, ← hbase, Scope.has, Scope.has, h.names x hx]
  cases base.find? x <;> cases Γ x <;> rfl

theorem bind_reg {n : Nat} (hn : r < n) (p : Prim) : TypedOver base (σ.bind (reg n) (targetVar p)) Γ n where
  names x hx := by rw [find?_bind (h.regs n hn), if_neg fun hxn => hx ⟨n, hxn⟩, h.names x hx]
  plain := h.plain
  regs k hk := by
    rw [find?_bind (h.regs n hn), if_neg fun hkn => by rw [reg_inj] at hkn; omega]
    exact h.regs k (by omega)

end TypedOver

/-- The state with another rest of the code and another scope inside these. -/
def inside (outer : List Scope) (s : Build) (q : List Instr) (σ : Scope) : Build :=
  { s with queue := q, table := { s.table with scopes := σ :: outer } }

abbrev after : Build → List Instr → Scope → Build := inside []

theorem run_declare (hx : σ.find? x = none) : (declare (.name x) (.prim p)).run (inside outer s q σ) =
    .ok () (inside outer s q (σ.bind x (targetVar p))) := by
  have hhas : σ.has x = false := by simp [Scope.has, hx]
  simp [declare, onTable, declareVariable, top, setTop, hhas, inside, targetVar]

theorem run_typeOf (hx : σ.find? x = some (targetVar p)) :
    (typeOf (.name x)).run (inside outer s q σ) = .ok (.prim p) (inside outer s q σ) := by
  simp [typeOf, onTable, lookupVariable, findIn, inside, hx, targetVar]

theorem run_isNew : (isNew (.name x)).run (inside outer s q σ) = .ok (!σ.has x) (inside outer s q σ) := by
  simp [isNew, top, inside]

variable {P : Instr → Made → Prop} {a : String}

theorem reads_of_core (made : Made) (hP : P i made) (hq : q'.length ≤ q.length) (hends : s'.ends = s.ends)
    (h : ∀ fuel, 4 * q.length ≤ fuel → (buildCore .fourth known (fuel + 2) i).run (inside outer s q σ) = .ok made (inside outer s' q' σ')) :
    Reads known P (inside outer s (i :: q) σ) (itemsOf made) (inside outer s' q' σ') := by
  have hdoes : Does known i (inside outer s q σ) made (inside outer s' q' σ') := by
    refine ⟨hq, hends, fun fuel hfuel => ?_⟩
    change 4 * q.length + 3 ≤ fuel at hfuel
    obtain ⟨k, rfl⟩ : ∃ k, fuel = k + 3 := ⟨fuel - 3, by omega⟩
    exact buildInstr_ok (h k (by omega))
  exact Reads.one rfl hdoes hP

theorem reads_stmts (hP : P i (.stmts items))
    (h : ∀ fuel, (buildCore .fourth known (fuel + 1) i).run (inside outer s q σ) = .ok (.stmts items) (inside outer s q σ')) :
    Reads known P (inside outer s (i :: q) σ) items (inside outer s q σ') :=
  reads_of_core (.stmts items) hP le_rfl rfl fun fuel _ => h (fuel + 1)

theorem reads_literal (a : Const) (hx : σ.find? x = none) :
    Computations known (inside outer s (.literal (.name x) a.atom :: q) σ)
      [declarationOf x a.prim, .assign (.ident x) (.atom a.atom)]
      (inside outer s q (σ.bind x (targetVar a.prim))) := by
  have ht : literalType .fourth (.literal (.name x) a.atom) a.atom = .ok (.prim a.prim) := by
    cases a <;> rfl
  refine reads_stmts ⟨rfl, _, rfl⟩ fun fuel => ?_
  rw [buildCore]
  simp [literal, ht, declared, run_declare hx, ident, declarationOf]

theorem arithmeticType_prim (a b : Prim) : arithmeticType .fourth (.prim a) (.prim b) = .prim (arithmetic a b) := by
  cases a <;> cases b <;> rfl

theorem reads_unary (hx : σ.find? x = none) (ha : op = "!" ∨ σ.find? a = some (targetVar p)) :
    Computations known (inside outer s (.unary (.name x) op (.name a) :: q) σ)
      [declarationOf x (unaryType op p), .unary (.ident x) (.type (.prim (unaryType op p))) op (.ident a)]
      (inside outer s q (σ.bind x (targetVar (unaryType op p)))) := by
  have hhas : σ.has x = false := by simp [Scope.has, hx]
  refine reads_stmts ⟨rfl, _, rfl⟩ fun fuel => ?_
  rw [buildCore]
  by_cases hop : op = "!"
  · simp [unary, unaryType, ident, run_isNew, hhas, hop, run_declare hx, declarationOf]
  · simp [unary, unaryType, ident, run_isNew, hhas, hop, run_declare hx, declarationOf,
      run_typeOf (ha.resolve_left hop)]

theorem reads_binary (hx : σ.find? x = none)
    (hab : isComparison op = true ∨ σ.find? a = some (targetVar u) ∧ σ.find? b = some (targetVar v)) :
    Computations known (inside outer s (.binary (.name x) (.name a) (.name b) op :: q) σ)
      [declarationOf x (binaryType op u v),
        .binary (.ident x) (.type (.prim (binaryType op u v))) op (.ident a) (.ident b)]
      (inside outer s q (σ.bind x (targetVar (binaryType op u v)))) := by
  have hhas : σ.has x = false := by simp [Scope.has, hx]
  refine reads_stmts ⟨rfl, _, rfl⟩ fun fuel => ?_
  rw [buildCore]
  by_cases hop : isComparison op = true
  · simp [Target.Build.binary, Target.Build.binaryType, binaryType, ident, run_isNew, hhas, hop,
      run_declare hx, declarationOf]
  obtain ⟨ha, hb⟩ := hab.resolve_left hop
  simp [Target.Build.binary, Target.Build.binaryType, binaryType, ident, run_isNew, hhas, hop,
    run_typeOf ha, run_typeOf hb, arithmeticType_prim, run_declare hx, declarationOf]

theorem find?_bind_self (h : σ.find? x = none) : (σ.bind x e).find? x = some e := by
  rw [find?_bind h, if_pos rfl]

/-- The code of an expression is read back to the operations that compute it. -/
theorem keeps_bind {n j : Nat} (hnew : σ.find? (reg j) = none) (hr : r < j) (hn : j ≤ r + n) (e : Entry) :
    Keeps r n σ.find? (σ.bind (reg j) e).find? := fun y hy => by rw [find?_bind hnew, if_neg fun h => hy ⟨j, hr, hn, h⟩]

theorem Term.computations (t : Term) (hσ : TypedOver base σ Γ r) (hvars : ∀ x ∈ t.vars, ¬ IsReg x)
    (hasked : Γ.knows t.asked = true) :
    ∃ σ', (∀ known outer s q,
        Computations known (inside outer s (t.code r ++ q) σ) (t.trees Γ r) (inside outer s q σ')) ∧
      TypedOver base σ' Γ (r + t.size) ∧
      (Γ.knows t.direct = true → σ'.find? (t.operand r) = some (targetVar (t.type Γ))) ∧
      Keeps r t.size σ.find? σ'.find? := by
  induction t generalizing σ r with
  | const a =>
    have hnew := hσ.regs (r + 1) (by omega)
    refine ⟨_, fun _ _ _ _ => reads_literal a hnew, hσ.bind_reg (by omega) _, fun _ => find?_bind_self hnew,
      keeps_bind hnew (Nat.lt_add_one r) le_rfl _⟩
  | var x =>
    refine ⟨σ, fun _ _ _ _ => .refl _, hσ, fun h => hσ.find?_known (x := x) ?_, .refl _⟩
    simpa [Types.knows, Term.direct] using h
  | unary op a ih =>
    rw [Term.asked, Types.knows_append, Bool.and_eq_true] at hasked
    obtain ⟨σ1, hread, hσ1, hval, hkeeps⟩ := ih hσ hvars hasked.1
    have hnew := hσ1.regs (r + a.size + 1) (by omega)
    have ha : op = "!" ∨ σ1.find? (a.operand r) = some (targetVar (a.type Γ)) := by
      by_cases hop : op = "!"
      · exact .inl hop
      · exact .inr (hval (by simpa [hop] using hasked.2))
    refine ⟨_, ?_, hσ1.bind_reg (Nat.lt_succ_self _) _, fun _ => find?_bind_self hnew,
      hkeeps.append (keeps_bind hnew (by omega) le_rfl _)⟩
    intro known outer s q
    rw [Term.code, List.append_assoc]
    exact (hread known outer s _).trans (reads_unary hnew ha)
  | binary a op b iha ihb =>
    rw [Term.asked, Types.knows_append, Types.knows_append, Bool.and_eq_true, Bool.and_eq_true] at hasked
    obtain ⟨hva, hvb⟩ := List.forall_mem_append.1 hvars
    obtain ⟨σ1, hread1, hσ1, hval1, hkeeps1⟩ := iha hσ hva hasked.1.1
    obtain ⟨σ2, hread2, hσ2, hval2, hkeeps2⟩ := ihb hσ1 hvb hasked.1.2
    have hval : isComparison op = true ∨ σ2.find? (a.operand r) = some (targetVar (a.type Γ)) ∧
        σ2.find? (b.operand (r + a.size)) = some (targetVar (b.type Γ)) := by
      by_cases hop : isComparison op = true
      · exact .inl hop
      rw [if_neg hop, Types.knows_append, Bool.and_eq_true] at hasked
      rw [hkeeps2 _ (a.not_taken_operand hva r b.size), hval1 hasked.2.1]
      exact .inr ⟨rfl, hval2 hasked.2.2⟩
    have hnew := hσ2.regs (r + a.size + b.size + 1) (by omega)
    refine ⟨σ2.bind (reg (r + a.size + b.size + 1)) (targetVar ((Term.binary a op b).type Γ)),
      ?_, ?_, fun _ => ?_, (hkeeps1.append hkeeps2).append (keeps_bind hnew (by omega) (by omega) _)⟩
    · intro known outer s q
      rw [Term.code, List.append_assoc, List.append_assoc]
      exact ((hread1 known outer s _).trans (hread2 known outer s _)).trans (reads_binary hnew hval)
    · have := hσ2.bind_reg (show _ < r + a.size + b.size + 1 by omega) ((Term.binary a op b).type Γ)
      simpa only [Term.size, Nat.add_assoc] using this
    · simpa only [Term.operand, Term.size, Nat.add_assoc] using find?_bind_self hnew

variable (hσ : TypedOver base σ Γ r) (hx : ¬ IsReg x) (hbase : base.has x = builtins4.has x)

include hσ hx hbase

theorem TypedOver.bind_var (hnew : Γ.taken x = false) (p : Prim) :
    TypedOver base (σ.bind x (targetVar p)) (Γ.assigned x p) r := by
  have hassigned : Γ.assigned x p = Function.update Γ x (some p) := by simp [Types.assigned, hnew]
  rw [Types.taken, ← hbase, Bool.or_eq_false_iff, Scope.has, Option.isSome_eq_false_iff,
    Option.isSome_eq_false_iff, Option.isNone_iff_eq_none, Option.isNone_iff_eq_none] at hnew
  have hfind : σ.find? x = none := by rw [hσ.names x hx, hnew.2, hnew.1]; rfl
  rw [hassigned]
  refine ⟨fun y hy => ?_, fun y hy => ?_, fun n hn => ?_⟩
  · rw [find?_bind hfind]
    by_cases hyx : y = x
    · subst hyx
      simp [hnew.2]
    · rw [if_neg hyx, Function.update_of_ne hyx, hσ.names y hy]
  · by_cases hyx : y = x
    · exact hyx ▸ ⟨hx, hnew.2⟩
    · rw [Function.update_of_ne hyx] at hy
      exact hσ.plain y hy
  · rw [find?_bind hfind, if_neg fun h => hx ⟨n, h.symm⟩, hσ.regs n hn]

theorem reads_assign (ha : Γ.taken x = true ∨ σ.find? a = some (targetVar p)) :
    ∃ σ', Operations known (inside outer s (.assign (.name x) (.name a) :: q) σ) (Γ.assignment x p a)
        (inside outer s q σ') ∧ TypedOver base σ' (Γ.assigned x p) r := by
  cases hnew : Γ.taken x with
  | true =>
    refine ⟨σ, reads_stmts ⟨rfl, _, rfl⟩ fun fuel => ?_, by simpa [Types.assigned, hnew] using hσ⟩
    rw [buildCore]
    simp [Target.Build.assign, ident, run_isNew, hσ.has_iff hx hbase, hnew, Types.assignment, Target.Node.ofOperand]
  | false =>
    have hfind : σ.find? x = none := by
      have := hσ.has_iff hx hbase
      simpa [hnew, Scope.has] using this
    have hval := ha.resolve_left (by simp [hnew])
    refine ⟨_, reads_stmts ⟨rfl, _, rfl⟩ fun fuel => ?_, hσ.bind_var hx hbase hnew p⟩
    have htype : (some <$> typeOf (.name a) : Target.BuildM (Option Ty)).run (inside outer s q σ) =
        .ok (some (.prim p)) (inside outer s q σ) := by simp [EStateM.run_map, run_typeOf hval]
    rw [buildCore]
    simp [Target.Build.assign, ident, run_isNew, hσ.has_iff hx hbase, hnew, Types.assignment,
      Target.Node.ofOperand, run_tryCatch_ok htype, run_declare hfind, declarationOf]

omit hσ hx hbase

theorem reads_goto (x : String) :
    ∃ s', Statements known (after s (.goto (.name x) :: q) σ) [] (after s' q σ) ∧ s'.parts = s.parts := by
  by_cases hseen : ∃ l ∈ s.seen, l.same (.name x) = true
  · refine ⟨s, reads_stmts trivial fun fuel => ?_, rfl⟩
    rw [buildCore, goto]
    simp [show (after s q σ).seen = s.seen from rfl, hseen]
  · refine ⟨{ s with waiting := .name x :: s.waiting }, ?_, rfl⟩
    refine reads_of_core (.stmts []) trivial le_rfl rfl fun fuel _ => ?_
    rw [buildCore, goto]
    simp [show (after s q σ).seen = s.seen from rfl, hseen]
    rfl

end Tabc.Core
