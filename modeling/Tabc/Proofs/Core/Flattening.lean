import Mathlib
import Tabc.Proofs.Core.Code

/-!
# Flattening core programs

Flattening gives the code of a core program (`ofProgram_nodes`), if every chain inside a further or last
alternative ends with a last alternative: else the place of its own label is on top of the stack.
-/

open List hiding flatten chains

namespace Tabc.Core

open Flat
open EStateM (run_bind run_pure)

@[simp] theorem run_emit (i : Instr) (s : Flat) :
    (emit i).run s = .ok () { s with code := s.code ++ [i] } := by simp [emit]

@[simp] theorem run_newRegister (s : Flat) :
    (newRegister .fourth).run s = .ok (reg (s.registers + 1)) { s with registers := s.registers + 1 } := by
  simp [newRegister, reg]

@[simp] theorem run_newLabel (what : String) (s : Flat) :
    (newLabel .fourth what).run s =
      .ok (labelName .fourth what (s.labels + 1)) { s with labels := s.labels + 1 } := by simp [newLabel]

/-- The code of the characters of a text, if `r` registers are taken. -/
def charCode : Nat → List Char → List Instr
  | _, [] => []
  | r, c :: rest => .char (.name (reg (r + 1))) (String.singleton c) :: charCode (r + 1) rest

theorem run_emitChars (cs : List Char) (f : Flat) :
    (Flat.emitChars .fourth cs).run f = .ok ()
      { f with code := f.code ++ charCode f.registers cs, registers := f.registers + cs.length } := by
  induction cs generalizing f with
  | nil => simp [Flat.emitChars, charCode]
  | cons c rest ih => simp [Flat.emitChars, ih, charCode, Nat.add_assoc, Nat.add_comm 1]

attribute [local simp] Term.node flatten Term.operand Term.code Term.size Nat.add_assoc in
theorem run_flatten_term (t : Term) (s : Flat) :
    (flatten .fourth t.node).run s = .ok (.name (t.operand s.registers))
      { s with code := s.code ++ t.code s.registers, registers := s.registers + t.size } := by
  induction t generalizing s with
  | const a => cases a <;> simp [emitLiteral, Const.prim, Prim.name, Const.atom]
  | var x => simp
  | unary op a ih => simp [ih]
  | binary a op b iha ihb => simp [iha, ihb]

theorem Term.given_node (t : Term) : t.node.given = true := by cases t <;> rfl

theorem run_flattenAll_append (xs ys : List Node) (s : Flat) :
    (flattenAll .fourth (xs ++ ys)).run s = match (flattenAll .fourth xs).run s with
      | .ok _ s' => (flattenAll .fourth ys).run s'
      | .error x s' => .error x s' := by
  induction xs generalizing s with
  | nil => simp [flattenAll]
  | cons x xs ih =>
    simp only [cons_append, flattenAll, run_bind]
    cases (flatten .fourth x).run s with
    | ok a s' => exact ih s'
    | error x s' => rfl

@[simp] theorem run_ofExcept_pure {ε σ α : Type} (a : α) (s : σ) :
    (MonadExcept.ofExcept (pure a : Except ε α) : EStateM ε σ α).run s = .ok a s := rfl

@[simp] theorem run_ofExcept_ok {ε σ α : Type} (a : α) (s : σ) :
    (MonadExcept.ofExcept (.ok a : Except ε α) : EStateM ε σ α).run s = .ok a s := rfl

theorem given_none : Node.none.given = false := rfl

theorem run_defaultBound (n : Int) (s : Flat) :
    (defaultBound .fourth n).run s = .ok (.name ((Term.const (.int n)).operand s.registers))
      { s with code := s.code ++ (Term.const (.int n)).code s.registers
               registers := s.registers + (Term.const (.int n)).size } := by
  simp [defaultBound, Term.operand, Term.code, Term.size, Const.atom]

theorem run_flatten_range (start : Option Term) (stop : Term) (step : Option Term) (s : Flat) :
    (flatten .fourth (.range stop.node (Term.node? start) (Term.node? step))).run s =
      .ok (.names [reg (s.registers + 1), reg (s.registers + 3), reg (s.registers + 2)]) { s with
          code := s.code ++ ((Term.bound 0 start).code (s.registers + 3) ++
            .loopStart (.name (reg (s.registers + 1))) (.name ((Term.bound 0 start).operand (s.registers + 3))) ::
            stop.code (s.registers + 3 + (Term.bound 0 start).size) ++
            .loopStop (.name (reg (s.registers + 2)))
              (.name (stop.operand (s.registers + 3 + (Term.bound 0 start).size))) ::
            (Term.bound 1 step).code (s.registers + 3 + (Term.bound 0 start).size + stop.size) ++
            [.loopStep (.name (reg (s.registers + 3)))
              (.name ((Term.bound 1 step).operand (s.registers + 3 + (Term.bound 0 start).size + stop.size)))])
          registers := s.registers + 3 + (Term.bound 0 start).size + stop.size + (Term.bound 1 step).size } := by
  cases start <;> cases step <;>
    simp [flatten, Term.node?, given_none, Term.given_node, run_flatten_term, run_defaultBound,
      Term.bound, Nat.add_assoc]

@[simp] theorem run_mark (label : String) (s : Flat) :
    (Flat.mark label).run s = .ok () { s with code := s.code ++ [.label (.name label)] } := by simp [Flat.mark]

@[simp] theorem run_jump (label : String) (s : Flat) :
    (jump label).run s = .ok () { s with code := s.code ++ [.goto (.name label)] } := by simp [jump]

@[simp] theorem run_unlessJump (label : String) (cond : Operand) (s : Flat) :
    (unlessJump label cond).run s = .ok () { s with code := s.code ++ [.branch (.name label) cond] } := by
  simp [unlessJump]

/-- The state after a piece of a program: its code is appended, registers and labels are counted on, and
the chains that stay open are put on the stacks. -/
def extended (f : Flat) (code : List Instr) (regs labels : Nat) (pending : List String) (spots : List Nat) : Flat :=
  ⟨f.code ++ code, f.registers + regs, f.labels + labels, pending ++ f.chains, spots ++ f.spots⟩

@[simp] theorem run_ident (x : String) (f : Flat) :
    (flatten .fourth (.ident x)).run f = .ok (.name x) f := by simp [flatten]

variable {items : List Node} {f : Flat} {code : List Instr} {r l : Nat} {stop : String}
  {chains : List String} {spots : List Nat}

theorem run_flatten_ifThen {cond : Term}
    (h : (flattenAll .fourth items).run ⟨f.code ++ cond.code f.registers ++
        [.branch (.name (mark (f.labels + 1))) (.name (cond.operand f.registers))],
        f.registers + cond.size, f.labels + 2, mark (f.labels + 2) :: f.chains, f.spots⟩ =
      .ok () ⟨code, r, l, stop :: chains, spots⟩) :
    (flatten .fourth (.ifThen cond.node (.block items))).run f = .ok .nothing
      ⟨code ++ [.goto (.name stop), .label (.name (mark (f.labels + 1))), .label (.name stop)], r, l,
        stop :: chains, (code.length + 2) :: spots⟩ := by
  simp only [List.append_assoc] at h
  simp [flatten, run_flatten_term, openChain, flattenBody, ← mark.eq_1, h, chainEnd, markChain]

theorem run_flatten_elifThen {cond : Term} {spot : Nat}
    (h : (flattenAll .fourth items).run ⟨cond.code f.registers ++
        [.elseBranch (.name (mark (f.labels + 1))) (.name (cond.operand f.registers))],
        f.registers + cond.size, f.labels + 1, f.chains, f.spots⟩ =
      .ok () ⟨code, r, l, stop :: chains, spot :: spots⟩) :
    (flatten .fourth (.elifThen cond.node (.block items))).run f = .ok .nothing
      ⟨f.code.take spot ++ (code ++ [.goto (.name stop), .label (.name (mark (f.labels + 1)))]) ++
        f.code.drop spot, r, l, stop :: chains, (spot + (code.length + 2)) :: spots⟩ := by
  simp [flatten, run_flatten_term, flattenBody, ← mark.eq_1, h, chainEnd, setAside, splice, moveSpot]

theorem run_flatten_elseThen {spot : Nat}
    (h : (flattenAll .fourth items).run ⟨[], f.registers, f.labels, f.chains, f.spots⟩ = .ok () ⟨code, r, l, stop :: chains, spot :: spots⟩) :
    (flatten .fourth (.elseThen (.block items))).run f = .ok .nothing
      ⟨f.code.take spot ++ code ++ f.code.drop spot, r, l, chains, spots⟩ := by
  simp [flatten, flattenBody, h, setAside, splice, closeChain]

section

attribute [local simp] extended Stmt.code Stmt.regs Stmt.labels Block.code Block.regs Block.labels Block.pending
  Tail.code Tail.regs Tail.labels Tail.pending Nat.add_assoc

mutual

theorem run_flattenAll_stmt : ∀ (s : Stmt) (f : Flat), s.tidy = true →
    ∃ spots, spots.length = (s.pending f.labels).length ∧ (flattenAll .fourth s.nodes).run f = .ok ()
        (extended f (s.code f.registers f.labels) s.regs s.labels (s.pending f.labels) spots)
  | .assign x type value, f, _ => by
    simp [Stmt.nodes, flattenAll, flatten, run_flatten_term, Stmt.pending]
  | .print x, f, _ => by
    simp [Stmt.nodes, flattenAll, flatten, flattenArgs, flattenArgsIn, flattenArgList, calleeName,
      Node.nameOf?, Node.text, Operand.ofNode, Stmt.pending]
  | .whileDo cond body, f, h => by
    choose spots hlen hrun using fun f => run_flattenAll_block body f h
    simp only [Stmt.nodes, flattenAll, flatten, flattenBody, run_bind, run_newLabel, run_mark,
      run_flatten_term, run_unlessJump, hrun, run_pure, run_jump]
    simp [Stmt.pending, hlen, whileMark, mark]
  | .forRange x start stop step body, f, h => by
    choose spots hlen hrun using fun f => run_flattenAll_block body f h
    rw [Stmt.nodes, flattenAll, flatten, flattenAll]
    simp only [flattenBody, run_bind, run_newLabel, run_mark,
      run_flatten_range, run_ident, run_emit, run_unlessJump, hrun, run_pure, run_jump, run_newRegister,
      Operand.part, getElem?_cons_zero, getElem?_cons_succ, run_ofExcept_pure]
    simp [Stmt.pending, hlen, rangeMark, mark]
  | .chain cond body rest, f, h => by
    simp only [Stmt.tidy, Bool.and_eq_true] at h
    let front := f.code ++ cond.code f.registers ++
      [.branch (.name (mark (f.labels + 1))) (.name (cond.operand f.registers))]
    let whole := front ++ body.code (f.registers + cond.size) (f.labels + 2)
    obtain ⟨spots, hlen, hrun⟩ := run_flattenAll_block body
      ⟨front, f.registers + cond.size, f.labels + 2, mark (f.labels + 2) :: f.chains, f.spots⟩ h.1
    simp only [extended] at hrun
    rw [show mark (f.labels + 2) :: f.chains = [mark (f.labels + 2)] ++ f.chains from rfl,
      ← List.append_assoc, Block.pending_append] at hrun
    simp only [cons_append, nil_append] at hrun
    have hif := run_flatten_ifThen hrun
    obtain ⟨spots', hlen', hrest⟩ := run_flattenAll_tail rest (body.chainEnd f.labels)
      (whole ++ [.goto (.name (body.chainEnd f.labels)), .label (.name (mark (f.labels + 1)))])
      (f.registers + cond.size + body.regs) (f.labels + 2 + body.labels)
      ((body.pending (f.labels + 2) ++ [mark (f.labels + 2)]).tail ++ f.chains) (whole.length + 2)
      (spots ++ f.spots) (by simp) h.2
    refine ⟨spots' ++ spots, ?_, ?_⟩
    · simp [Stmt.pending_chain, hlen', hlen]
    simp only [Stmt.nodes, flattenAll, run_bind, hif]
    simp only [whole, front, List.append_assoc, cons_append, nil_append] at hrest ⊢
    rw [hrest]
    simp [Stmt.pending_chain]

theorem run_flattenAll_block : ∀ (p : Block) (f : Flat), p.tidy = true →
    ∃ spots, spots.length = (p.pending f.labels).length ∧ (flattenAll .fourth p.nodes).run f = .ok ()
        (extended f (p.code f.registers f.labels) p.regs p.labels (p.pending f.labels) spots)
  | .nil, f, _ => ⟨[], rfl, by simp [Block.nodes, flattenAll]⟩
  | .cons s rest, f, h => by
    simp only [Block.tidy, Bool.and_eq_true] at h
    obtain ⟨spots, hlen, hs⟩ := run_flattenAll_stmt s f h.1
    obtain ⟨spots', hlen', hr⟩ := run_flattenAll_block rest
      (extended f (s.code f.registers f.labels) s.regs s.labels (s.pending f.labels) spots) h.2
    refine ⟨spots' ++ spots, ?_, ?_⟩
    · simp [hlen, hlen']
    rw [Block.nodes, run_flattenAll_append, hs]
    simp only [hr]
    simp

theorem run_flattenAll_tail : ∀ (t : Tail) (stop : String) (pre : List Instr) (r l : Nat)
    (chains : List String) (spot : Nat) (spots : List Nat), spot = pre.length → t.tidy = true →
    ∃ spots', spots'.length = (t.pending stop).length ∧
    (flattenAll .fourth t.nodes).run ⟨pre ++ [.label (.name stop)], r, l, stop :: chains, spot :: spots⟩ =
      .ok () ⟨pre ++ t.code stop r l ++ [.label (.name stop)], r + t.regs, l + t.labels,
        t.pending stop ++ chains, spots' ++ spots⟩
  | .done, _, _, _, _, _, spot, _, _, _ => by
    refine ⟨[spot], rfl, ?_⟩
    simp [Tail.nodes, flattenAll]
  | .elif cond body rest, stop, pre, r, l, chains, spot, spots, hspot, h => by
    simp only [Tail.tidy, Bool.and_eq_true] at h
    let front := cond.code r ++ [.elseBranch (.name (mark (l + 1))) (.name (cond.operand r))]
    let whole := front ++ body.code (r + cond.size) (l + 1)
    obtain ⟨spots1, hlen, hrun⟩ := run_flattenAll_block body
      ⟨front, r + cond.size, l + 1, stop :: chains, spot :: spots⟩ (body.tidy_of_closed h.1)
    rw [body.pending_eq_nil _ h.1, length_nil, length_eq_zero_iff] at hlen
    rw [body.pending_eq_nil _ h.1, hlen] at hrun
    have helif := run_flatten_elifThen (f := ⟨pre ++ [.label (.name stop)], r, l, stop :: chains, spot :: spots⟩) hrun
    obtain ⟨spots', hlen', hrest⟩ := run_flattenAll_tail rest stop
      (pre ++ whole ++ [.goto (.name stop), .label (.name (mark (l + 1)))]) (r + cond.size + body.regs)
      (l + 1 + body.labels) chains (spot + (whole.length + 2)) spots (by simp [hspot]) h.2
    refine ⟨spots', hlen', ?_⟩
    simp only [Tail.nodes, flattenAll, run_bind, helif]
    simp only [whole, front, List.append_assoc, cons_append, nil_append, hspot, take_left, drop_left] at hrest ⊢
    rw [hrest]
    simp
  | .otherwise body, stop, pre, r, l, chains, spot, spots, hspot, h => by
    obtain ⟨spots1, hlen, hrun⟩ := run_flattenAll_block body
      ⟨[], r, l, stop :: chains, spot :: spots⟩ (body.tidy_of_closed h)
    rw [body.pending_eq_nil _ h, length_nil, length_eq_zero_iff] at hlen
    rw [body.pending_eq_nil _ h, hlen] at hrun
    have helse := run_flatten_elseThen (f := ⟨pre ++ [.label (.name stop)], r, l, stop :: chains, spot :: spots⟩) hrun
    simp only [Tail.nodes, flattenAll, run_bind, helse]
    simp [hspot]

end

end

/-- Flattening a core program gives its code, if every chain inside a further or last alternative ends
with a last alternative. -/
theorem ofProgram_nodes (p : Block) (h : p.tidy = true) : Flat.ofProgram .fourth p.nodes = .ok (p.code 0 0) := by
  obtain ⟨spots, -, hrun⟩ := run_flattenAll_block p Flat.empty h
  rw [Flat.ofProgram, hrun]
  rfl

end Tabc.Core
