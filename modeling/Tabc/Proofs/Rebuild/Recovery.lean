import Tabc.Proofs.Rebuild.Statements

/-!
# From target trees back to programs

`outline` reads a target tree as a program, without declarations and registers. The tree of a core program has
the outline of the program, without types and empty last alternatives (`Block.recoverAll_trees`).
-/

open List

namespace Tabc.Core

open Function (update)

variable {Γ : Types} {r : Nat}

/-- What the registers stand for; any other name stands for itself. -/
abbrev Contents := String → Node

def constantNode : Atom → Node
  | .int n => .literal Prim.int.name (.int n)
  | .float x => .literal Prim.float.name (.float x)
  | .bool b => .literal Prim.bool.name (.bool b)
  | a => .atom a

mutual

/-- The statements that a target tree stands for. Declarations stand for none, and operations only
say what a register holds. -/
def recover : Target.Node → Contents → List Node × Contents
  | .declaration _ _, ρ => ([], ρ)
  | .assign (.ident x) (.atom (.text y)), ρ => ([.assign (.ident x) .none (ρ y)], ρ)
  | .assign (.ident x) (.atom a), ρ => ([], update ρ x (constantNode a))
  | .unary (.ident x) _ op (.ident a), ρ => ([], update ρ x (.unary op (ρ a)))
  | .binary (.ident x) _ op (.ident a) (.ident b), ρ => ([], update ρ x (.binary (ρ a) op (ρ b)))
  | .ifThen (.ident c) (.block items), ρ =>
    let (body, ρ') := recoverAll items ρ
    ([.ifThen (ρ c) (.block body)], ρ')
  | .elifThen (.ident c) (.block items), ρ =>
    let (body, ρ') := recoverAll items ρ
    ([.elifThen (ρ c) (.block body)], ρ')
  | .elseThen (.block items), ρ =>
    let (body, ρ') := recoverAll items ρ
    ([.elseThen (.block body)], ρ')
  | .whileDo (.ident c) (.block items), ρ =>
    let (body, ρ') := recoverAll items ρ
    ([.whileDo (ρ c) (.block body)], ρ')
  | _, ρ => ([.none], ρ)

def recoverAll : List Target.Node → Contents → List Node × Contents
  | [], ρ => ([], ρ)
  | n :: rest, ρ =>
    let (a, ρ1) := recover n ρ
    let (b, ρ2) := recoverAll rest ρ1
    (a ++ b, ρ2)

end

/-- The statements of a whole target program. -/
def outline : Target.Node → List Node
  | .block items => (recoverAll items .ident).1
  | _ => []

theorem recoverAll_append (a b : List Target.Node) (ρ : Contents) :
    recoverAll (a ++ b) ρ = ((recoverAll a ρ).1 ++ (recoverAll b (recoverAll a ρ).2).1,
      (recoverAll b (recoverAll a ρ).2).2) := by
  induction a generalizing ρ with
  | nil => rfl
  | cons n a ih => simp [recoverAll, ih]

mutual

/-- A statement without the types of its assignments. -/
def Stmt.untyped : Stmt → Stmt
  | .assign x _ value => .assign x none value
  | .print x => .print x
  | .whileDo cond body => .whileDo cond body.untyped
  | .forRange x start stop step body => .forRange x start stop step body.untyped
  | .chain cond body rest => .chain cond body.untyped rest.untyped

def Block.untyped : Block → Block
  | .nil => .nil
  | .cons s rest => .cons s.untyped rest.untyped

def Tail.untyped : Tail → Tail
  | .done => .done
  | .elif cond body rest => .elif cond body.untyped rest.untyped
  | .otherwise body => .otherwise body.untyped

end

mutual

/-- A statement without types and without empty last alternatives. -/
def Stmt.bare : Stmt → Stmt
  | .assign x _ value => .assign x none value
  | .print x => .print x
  | .whileDo cond body => .whileDo cond body.bare
  | .forRange x start stop step body => .forRange x start stop step body.bare
  | .chain cond body rest => .chain cond body.bare rest.bare

def Block.bare : Block → Block
  | .nil => .nil
  | .cons s rest => .cons s.bare rest.bare

def Tail.bare : Tail → Tail
  | .done => .done
  | .elif cond body rest => .elif cond body.bare rest.bare
  | .otherwise .nil => .done
  | .otherwise (.cons s rest) => .otherwise (.cons s.bare rest.bare)

end

mutual

/-- In a statement, every last alternative has statements. -/
def Stmt.solid : Stmt → Bool
  | .assign .. => true
  | .print _ => true
  | .whileDo _ body => body.solid
  | .forRange _ _ _ _ body => body.solid
  | .chain _ body rest => body.solid && rest.solid

def Block.solid : Block → Bool
  | .nil => true
  | .cons s rest => s.solid && rest.solid

def Tail.solid : Tail → Bool
  | .done => true
  | .elif _ body rest => body.solid && rest.solid
  | .otherwise .nil => false
  | .otherwise (.cons s rest) => s.solid && rest.solid

end

theorem Tail.length_bare_le : ∀ t : Tail, t.bare.nodes.length ≤ t.untyped.nodes.length
  | .done => le_rfl
  | .elif _ _ rest => Nat.succ_le_succ rest.length_bare_le
  | .otherwise .nil => Nat.zero_le _
  | .otherwise (.cons _ _) => le_rfl

theorem Stmt.length_bare_le (s : Stmt) : s.bare.nodes.length ≤ s.untyped.nodes.length := by
  cases s with
  | chain cond body rest => exact Nat.succ_le_succ rest.length_bare_le
  | _ => exact le_rfl

theorem Block.length_bare_le : ∀ p : Block, p.bare.nodes.length ≤ p.untyped.nodes.length
  | .nil => le_rfl
  | .cons s rest => by
    simp only [Block.bare, Block.untyped, Block.nodes, length_append]
    exact Nat.add_le_add s.length_bare_le rest.length_bare_le

section

attribute [local simp] Stmt.bare Stmt.untyped Stmt.solid Stmt.nodes Tail.bare Tail.untyped Tail.solid
  Tail.nodes Block.bare Block.untyped Block.solid

mutual

/-- A statement loses more than its types exactly if it has an empty last alternative. -/
theorem Stmt.nodes_bare_iff : ∀ s : Stmt, s.bare.nodes = s.untyped.nodes ↔ s.solid = true
  | .assign .. | .print _ => by simp
  | .whileDo _ body | .forRange _ _ _ _ body => by simp [body.nodes_bare_iff]
  | .chain _ body rest => by simp [body.nodes_bare_iff, rest.nodes_bare_iff]

theorem Block.nodes_bare_iff : ∀ p : Block, p.bare.nodes = p.untyped.nodes ↔ p.solid = true
  | .nil => by simp
  | .cons s rest => by
    simp only [Block.bare, Block.untyped, Block.nodes, Block.solid, Bool.and_eq_true, ← s.nodes_bare_iff,
      ← rest.nodes_bare_iff]
    refine ⟨fun h => append_inj h ?_, fun h => by rw [h.1, h.2]⟩
    -- no part gets longer, so none gets shorter
    have hlen := congrArg List.length h
    have hs := s.length_bare_le
    have hrest := rest.length_bare_le
    simp only [length_append] at hlen
    omega

theorem Tail.nodes_bare_iff : ∀ t : Tail, t.bare.nodes = t.untyped.nodes ↔ t.solid = true
  | .done => by simp
  | .elif _ body rest => by simp [body.nodes_bare_iff, rest.nodes_bare_iff]
  | .otherwise .nil => by simp
  | .otherwise (.cons s rest) => by
    have h := (Block.cons s rest).nodes_bare_iff
    simpa using h

end

end

attribute [local simp] recoverAll Tail.vars Stmt.vars Term.vars

/-- Names of variables stand for themselves. -/
def Plain (ρ : Contents) : Prop := ∀ x, ¬ IsReg x → ρ x = .ident x

theorem constantNode_atom (a : Const) : constantNode a.atom = (Term.const a).node := by
  cases a <;> rfl

theorem Plain.of_keeps {n : Nat} (h : Plain ρ) (hkeeps : Keeps r n ρ ρ') : Plain ρ' :=
  fun x hx => (hkeeps x fun ht => hx ht.isReg).trans (h x hx)

theorem Term.recoverAll_trees (t : Term) (hρ : Plain ρ) (hvars : ∀ x ∈ t.vars, ¬ IsReg x) :
    ∃ ρ', recoverAll (t.trees Γ r) ρ = ([], ρ') ∧ ρ' (t.operand r) = t.node ∧ Keeps r t.size ρ ρ' := by
  induction t generalizing ρ r with
  | const a =>
    refine ⟨update ρ (reg (r + 1)) (constantNode a.atom), ?_, ?_, .update ρ (Nat.lt_add_one r) le_rfl _⟩
    · cases a <;> rfl
    · exact (Function.update_self _ _ _).trans (constantNode_atom a)
  | var x => exact ⟨ρ, rfl, hρ x (hvars x (by simp)), .refl ρ⟩
  | unary op a ih =>
    obtain ⟨ρ1, hread, hval, hkeeps⟩ := ih hρ hvars
    refine ⟨update ρ1 (reg (r + a.size + 1)) (.unary op (ρ1 (a.operand r))), ?_, ?_,
      hkeeps.append (.update ρ1 (by omega) le_rfl _)⟩
    · rw [Term.trees, recoverAll_append, hread]
      rfl
    · rw [hval]
      exact Function.update_self _ _ _
  | binary a op b iha ihb =>
    obtain ⟨hva, hvb⟩ := forall_mem_append.1 hvars
    obtain ⟨ρ1, hread1, hval1, hkeeps1⟩ := iha hρ hva
    obtain ⟨ρ2, hread2, hval2, hkeeps2⟩ := ihb (hρ.of_keeps hkeeps1) hvb
    have hval : ρ2 (a.operand r) = a.node := by rw [hkeeps2 _ (a.not_taken_operand hva r b.size), hval1]
    refine ⟨update ρ2 (reg (r + a.size + b.size + 1))
      (.binary (ρ2 (a.operand r)) op (ρ2 (b.operand (r + a.size)))), ?_, ?_,
      (hkeeps1.append hkeeps2).append (.update ρ2 (by omega) (by omega) _)⟩
    · rw [Term.trees, recoverAll_append, recoverAll_append, hread1, hread2]
      rfl
    · rw [hval, hval2, Nat.add_assoc, Nat.add_assoc]
      exact Function.update_self _ _ _

theorem recoverAll_assignment (Γ : Types) (x : String) (t : Prim) (y : String) (ρ : Contents) :
    recoverAll (Γ.assignment x t y) ρ = ([.assign (.ident x) .none (ρ y)], ρ) := by
  unfold Types.assignment
  split <;> rfl

theorem Term.recoverAll_getLast (t : Term) (ρ : Contents) :
    ∃ ρ', recoverAll (t.trees Γ r).getLast?.toList ρ = ([], ρ') ∧ Keeps r t.size ρ ρ' := by
  cases t with
  | const a =>
    refine ⟨update ρ (reg (r + 1)) (constantNode a.atom), ?_, .update ρ (Nat.lt_add_one r) le_rfl _⟩
    cases a <;> rfl
  | var x => exact ⟨ρ, rfl, .refl ρ⟩
  | unary op a =>
    refine ⟨update ρ (reg (r + a.size + 1)) (.unary op (ρ (a.operand r))), ?_,
      .update ρ (by omega) (by simp only [Term.size]; omega) _⟩
    simp [Term.trees, recover]
  | binary a op b =>
    refine ⟨update ρ (reg (r + a.size + b.size + 1)) (.binary (ρ (a.operand r)) op (ρ (b.operand (r + a.size)))), ?_,
      .update ρ (by omega) (by simp only [Term.size]; omega) _⟩
    simp [Term.trees, recover]

/-- The conditions of the rest of a chain are computed. -/
def Tail.Ready (ρ : Contents) : Tail → Nat → Prop
  | .done, _ => True
  | .elif cond body rest, r => ρ (cond.operand r) = cond.node ∧ rest.Ready ρ (r + cond.size + body.regs)
  | .otherwise _, _ => True

theorem Tail.Ready.congr {r0 n : Nat} (hkeeps : Keeps r0 n ρ ρ') :
    ∀ {t : Tail} {r : Nat}, t.Ready ρ r → r0 + n ≤ r → (∀ x ∈ t.vars, ¬ IsReg x) → t.Ready ρ' r
  | .done, _, _, _, _ => trivial
  | .elif cond body rest, r, h, hr, hvars => by
    have hcond : ¬ Taken r0 n (cond.operand r) := by
      intro hy
      cases cond with
      | var x => exact hvars x (by simp) hy.isReg
      | const | unary | binary =>
        obtain ⟨k, -, hk, hyk⟩ := hy
        have hkr := reg_inj.mp hyk
        simp only [Term.size] at hkr
        omega
    refine ⟨(hkeeps _ hcond).trans h.1, congr hkeeps h.2 (by omega) fun x hx => ?_⟩
    exact hvars x (by simp [hx])
  | .otherwise _, _, _, _, _ => trivial

theorem Tail.recoverAll_heads : ∀ (t : Tail) (Γ : Types) (r : Nat) {ρ : Contents}, Plain ρ → (∀ x ∈ t.vars, ¬ IsReg x) →
    ∃ ρ', recoverAll (t.heads Γ r) ρ = ([], ρ') ∧ t.Ready ρ' r ∧ Keeps r t.regs ρ ρ'
  | .done, _, _, ρ, _, _ => ⟨ρ, rfl, trivial, .refl ρ⟩
  | .elif cond body rest, Γ, r, ρ, hρ, hvars => by
    have hcond : ∀ x ∈ cond.vars, ¬ IsReg x := fun x hx => hvars x (by simp [hx])
    obtain ⟨ρ1, hread1, hval, hkeeps1⟩ := cond.recoverAll_trees hρ hcond
    obtain ⟨ρ2, hread2, hready, hkeeps2⟩ := rest.recoverAll_heads (body.types Γ)
      (r + cond.size + body.regs) (hρ.of_keeps hkeeps1) (forall_mem_append.1 hvars).2
    have hkeep : ¬ Taken (r + cond.size + body.regs) rest.regs (cond.operand r) := fun h =>
      cond.not_taken_operand hcond r (body.regs + rest.regs) (h.mono (by omega) (by omega))
    refine ⟨ρ2, ?_, ⟨(hkeeps2 _ hkeep).trans hval, hready⟩, ?_⟩
    · rw [Tail.heads, recoverAll_append, hread1, hread2]
      rfl
    · rw [Tail.regs]
      exact (hkeeps1.mono le_rfl (by omega)).trans (hkeeps2.mono (by omega) (by omega))
  | .otherwise _, _, _, ρ, _, _ => ⟨ρ, rfl, trivial, .refl ρ⟩

mutual

theorem Stmt.recoverAll_trees : ∀ (s : Stmt) (Γ : Types) (r : Nat) {ρ : Contents},
    s.plain = true → Plain ρ → (∀ x ∈ s.vars, ¬ IsReg x) →
    ∃ ρ', recoverAll (s.trees Γ r) ρ = (s.bare.nodes, ρ') ∧ Keeps r s.regs ρ ρ'
  | .assign x type value, Γ, r, ρ, _, hρ, hvars => by
    obtain ⟨ρ1, hread, hval, hkeeps⟩ := value.recoverAll_trees (Γ := Γ) hρ (forall_mem_cons.1 hvars).2
    refine ⟨ρ1, ?_, hkeeps⟩
    simp [Stmt.trees, recoverAll_append, hread, recoverAll_assignment, hval, Stmt.bare, Stmt.nodes, typeNode]
  | .whileDo cond body, Γ, r, ρ, hplain, hρ, hvars => by
    obtain ⟨ρ1, hread1, hval, hkeeps1⟩ := cond.recoverAll_trees hρ (forall_mem_append.1 hvars).1
    obtain ⟨ρ2, hread2, hkeeps2⟩ := body.recoverAll_trees Γ (r + cond.size) hplain (hρ.of_keeps hkeeps1)
      (forall_mem_append.1 hvars).2
    obtain ⟨ρ3, hread3, hkeeps3⟩ := cond.recoverAll_getLast (Γ := Γ) ρ2
    refine ⟨ρ3, ?_, (hkeeps1.append hkeeps2).trans (hkeeps3.mono le_rfl (by omega))⟩
    rw [Stmt.trees, recoverAll_append, hread1]
    simp [recover, recoverAll_append, hread2, hread3, hval, Stmt.bare, Stmt.nodes]
  | .chain cond body rest, Γ, r, ρ, hplain, hρ, hvars => by
    simp only [Stmt.plain, Bool.and_eq_true] at hplain
    have hcond : ∀ x ∈ cond.vars, ¬ IsReg x := fun x hx => hvars x (by simp [hx])
    have hrest : ∀ x ∈ rest.vars, ¬ IsReg x := (forall_mem_append.1 hvars).2
    obtain ⟨ρ1, hread1, hval, hkeeps1⟩ := cond.recoverAll_trees hρ hcond
    have hρ1 := hρ.of_keeps hkeeps1
    obtain ⟨ρ2, hread2, hready, hkeeps2⟩ := rest.recoverAll_heads (body.types Γ) (r + cond.size + body.regs) hρ1 hrest
    have hρ2 := hρ1.of_keeps hkeeps2
    obtain ⟨ρ3, hread3, hkeeps3⟩ := body.recoverAll_trees Γ (r + cond.size) hplain.1 hρ2
      fun y hy => hvars y (by simp [hy])
    obtain ⟨ρ4, hread4, hkeeps4⟩ := rest.recoverAll_trees (body.types Γ)
      (r + cond.size + body.regs) hplain.2 (hρ2.of_keeps hkeeps3) hrest (hready.congr hkeeps3 le_rfl hrest)
    have hkeep : ¬ Taken (r + cond.size + body.regs) rest.regs (cond.operand r) := fun h =>
      cond.not_taken_operand hcond r (body.regs + rest.regs) (h.mono (by omega) (by omega))
    refine ⟨ρ4, ?_, ?_⟩
    · rw [Stmt.trees, recoverAll_append, recoverAll_append, hread1, hread2]
      simp [recover, hread3, hread4, hkeeps2 _ hkeep, hval, Stmt.bare, Stmt.nodes]
    rw [Stmt.regs]
    exact (hkeeps1.mono le_rfl (by omega)).trans ((hkeeps2.mono (by omega) (by omega)).trans
      ((hkeeps3.mono (by omega) (by omega)).trans (hkeeps4.mono (by omega) (by omega))))

theorem Block.recoverAll_trees : ∀ (p : Block) (Γ : Types) (r : Nat) {ρ : Contents},
    p.plain = true → Plain ρ → (∀ x ∈ p.vars, ¬ IsReg x) →
    ∃ ρ', recoverAll (p.trees Γ r) ρ = (p.bare.nodes, ρ') ∧ Keeps r p.regs ρ ρ'
  | .nil, _, _, ρ, _, _, _ => ⟨ρ, rfl, .refl ρ⟩
  | .cons s rest, Γ, r, ρ, hplain, hρ, hvars => by
    simp only [Block.plain, Bool.and_eq_true] at hplain
    obtain ⟨ρ1, hread1, hkeeps1⟩ := s.recoverAll_trees Γ r hplain.1 hρ (forall_mem_append.1 hvars).1
    obtain ⟨ρ2, hread2, hkeeps2⟩ := rest.recoverAll_trees (s.types Γ) (r + s.regs) hplain.2
      (hρ.of_keeps hkeeps1) (forall_mem_append.1 hvars).2
    refine ⟨ρ2, ?_, hkeeps1.append hkeeps2⟩
    rw [Block.trees, recoverAll_append, hread1, hread2]
    rfl

theorem Tail.recoverAll_trees : ∀ (t : Tail) (Γ : Types) (r : Nat) {ρ : Contents},
    t.plain = true → Plain ρ → (∀ x ∈ t.vars, ¬ IsReg x) → t.Ready ρ r →
    ∃ ρ', recoverAll (t.trees Γ r) ρ = (t.bare.nodes, ρ') ∧ Keeps r t.regs ρ ρ'
  | .done, _, _, ρ, _, _, _, _ => ⟨ρ, rfl, .refl ρ⟩
  | .elif cond body rest, Γ, r, ρ, hplain, hρ, hvars, hready => by
    simp only [Tail.plain, Bool.and_eq_true] at hplain
    have hrest : ∀ x ∈ rest.vars, ¬ IsReg x := (forall_mem_append.1 hvars).2
    obtain ⟨ρ1, hread1, hkeeps1⟩ := body.recoverAll_trees Γ (r + cond.size) hplain.1 hρ
      fun y hy => hvars y (by simp [hy])
    obtain ⟨ρ2, hread2, hkeeps2⟩ := rest.recoverAll_trees (body.types Γ)
      (r + cond.size + body.regs) hplain.2 (hρ.of_keeps hkeeps1) hrest (hready.2.congr hkeeps1 le_rfl hrest)
    refine ⟨ρ2, ?_, ?_⟩
    · simp [Tail.trees, recover, hread1, hread2, hready.1, Tail.bare, Tail.nodes]
    · rw [Tail.regs]
      exact (hkeeps1.mono (by omega) (by omega)).trans (hkeeps2.mono (by omega) (by omega))
  | .otherwise .nil, _, _, ρ, _, _, _, _ => ⟨ρ, rfl, .refl ρ⟩
  | .otherwise (.cons s rest), Γ, r, ρ, hplain, hρ, hvars, _ => by
    obtain ⟨ρ1, hread, hkeeps⟩ := (Block.cons s rest).recoverAll_trees Γ r hplain hρ hvars
    refine ⟨ρ1, ?_, hkeeps⟩
    rw [Block.trees] at hread
    simp [Tail.trees, recover, hread, Tail.bare, Block.bare, Tail.nodes]

end

def Types.empty : Types := fun _ => none

theorem builtins4_find?_reg (n : Nat) : ScopeTable.builtins4.find? (reg n) = none := by
  have hkeys : ∀ e ∈ ScopeTable.builtins4, e.1.toList.head? ≠ some '_' := by decide
  rw [Scope.find?, lookup_eq_none_iff]
  intro e he
  have hne : reg n ≠ e.1 := fun h => hkeys e he (IsReg.head ⟨n, h.symm⟩)
  simpa using hne

theorem typed_builtins : Typed ScopeTable.builtins4 Types.empty 0 where
  names x _ := by rw [show Types.empty x = none from rfl]; simp
  plain x h := by simp [Types.empty] at h
  regs n _ := builtins4_find?_reg n

/-- The code of a program is built to its trees. -/
theorem Block.run_code (known : Option ScopeTable) (p : Block) (hrange : p.rangeless = true)
    (hlegible : p.legible = true) (hbound : p.bound .empty = true) (hvars : ∀ x ∈ p.vars, ¬ IsReg x) :
    ∃ s, (Target.Build.run .fourth known (p.code 0 0)).run (.fresh .fourth (p.code 0 0)) =
      .ok (.block (p.trees .empty 0)) s := by
  have hrebuilds : Rebuilds known (p.code 0 0) .empty 0 (p.types .empty) (0 + p.regs)
    (p.trees .empty 0) := p.rebuilds .empty 0 0 hrange hlegible hbound hvars
  obtain ⟨items, s, σ, hread, -, hsettle⟩ := hrebuilds (.fresh .fourth (p.code 0 0)) []
    ScopeTable.builtins4 typed_builtins
  rw [List.append_nil] at hread
  refine ⟨after s [] σ, (run_of_statements hread rfl).trans ?_⟩
  rw [← hsettle.settle s.parts prefix_rfl]
  rfl

end Tabc.Core
