import Tabc.Code.Flatten
import Tabc.Proofs.Core.Syntax

/-!
# The code of core programs

`Block.code` gives the code of a core program as a whole. A chain without a last alternative leaves its label
on the stack of open chains (`Block.pending`), so the chain around it ends at the same label.
-/

namespace Tabc.Core

open Flat

def reg (n : Nat) : String := registerName .fourth n

/-- A label that says nothing. -/
def mark (n : Nat) : String := labelName .fourth "" n

/-- The label of a loop with a condition. -/
def whileMark (n : Nat) : String := labelName .fourth "WHILE" n

def rangeMark (n : Nat) : String := labelName .fourth "FORRANGE" n

namespace Term

/-- How many registers an expression takes. -/
def size : Term → Nat
  | .const _ => 1
  | .var _ => 0
  | .unary _ a => a.size + 1
  | .binary a _ b => a.size + b.size + 1

/-- The operand that holds the value of an expression, if `r` registers are taken. -/
def operand (t : Term) (r : Nat) : String :=
  match t with
  | .var x => x
  | t => reg (r + t.size)

/-- The code of an expression, if `r` registers are taken. -/
def code : Term → Nat → List Instr
  | .const a, r => [.literal (.name (reg (r + 1))) a.atom]
  | .var _, _ => []
  | .unary op a, r => a.code r ++ [.unary (.name (reg (r + a.size + 1))) op (.name (a.operand r))]
  | .binary a op b, r =>
    a.code r ++ b.code (r + a.size) ++
      [.binary (.name (reg (r + a.size + b.size + 1))) (.name (a.operand r)) (.name (b.operand (r + a.size))) op]

def bound (missing : Int) (t : Option Term) : Term := t.getD (.const (.int missing))

end Term

mutual

/-- How many registers a statement takes. -/
def Stmt.regs : Stmt → Nat
  | .assign _ _ value => value.size
  | .print _ => 3
  | .whileDo cond body => cond.size + body.regs
  | .forRange _ start stop step body =>
    3 + (Term.bound 0 start).size + stop.size + (Term.bound 1 step).size + 1 + body.regs
  | .chain cond body rest => cond.size + body.regs + rest.regs

def Block.regs : Block → Nat
  | .nil => 0
  | .cons s rest => s.regs + rest.regs

def Tail.regs : Tail → Nat
  | .done => 0
  | .elif cond body rest => cond.size + body.regs + rest.regs
  | .otherwise body => body.regs

end

mutual

/-- How many labels a statement takes. -/
def Stmt.labels : Stmt → Nat
  | .assign .. => 0
  | .print _ => 0
  | .whileDo _ body => 2 + body.labels
  | .forRange _ _ _ _ body => 2 + body.labels
  | .chain _ body rest => 2 + body.labels + rest.labels

def Block.labels : Block → Nat
  | .nil => 0
  | .cons s rest => s.labels + rest.labels

def Tail.labels : Tail → Nat
  | .done => 0
  | .elif _ body rest => 1 + body.labels + rest.labels
  | .otherwise body => body.labels

end

/-- The label that the rest of a chain leaves on the stack of open chains, if the chain ends there. -/
def Tail.pending : Tail → String → List String
  | .done, stop => [stop]
  | .elif _ _ rest, stop => rest.pending stop
  | .otherwise _, _ => []

mutual

/-- The labels that a statement leaves on the stack of open chains, the last one first, if `l` labels
are taken. -/
def Stmt.pending : Stmt → Nat → List String
  | .assign .., _ => []
  | .print _, _ => []
  | .whileDo _ body, l => body.pending (l + 2)
  | .forRange _ _ _ _ body, l => body.pending (l + 2)
  | .chain _ body rest, l =>
    rest.pending ((body.pending (l + 2)).headD (mark (l + 2))) ++ (body.pending (l + 2) ++ [mark (l + 2)]).tail

def Block.pending : Block → Nat → List String
  | .nil, _ => []
  | .cons s rest, l => rest.pending (l + s.labels) ++ s.pending l

end

/-- The label at the end of a chain with this first alternative, if `l` labels were taken before the
chain: the one that was left open last. -/
def Block.chainEnd (body : Block) (l : Nat) : String := (body.pending (l + 2)).headD (mark (l + 2))

mutual

/-- The code of a statement, if `r` registers and `l` labels are taken. -/
def Stmt.code : Stmt → Nat → Nat → List Instr
  | .assign x _ value, r, _ => value.code r ++ [.assign (.name x) (.name (value.operand r))]
  | .print x, r, _ =>
    [.args (.name (reg (r + 2))) (.name (reg (r + 1))) 1, .arg (.name x),
      .call (.name "print") (.name (reg (r + 1))), .result (.name (reg (r + 3)))]
  | .whileDo cond body, r, l =>
    .label (.name (whileMark (l + 1))) :: cond.code r ++ .branch (.name (mark (l + 2))) (.name (cond.operand r)) ::
      body.code (r + cond.size) (l + 2) ++
      [.goto (.name (whileMark (l + 1))), .label (.name (mark (l + 2)))]
  | .forRange x start stop step body, r, l =>
    let a := Term.bound 0 start
    let b := Term.bound 1 step
    let r1 := r + 3 + a.size
    let r2 := r1 + stop.size
    let r3 := r2 + b.size
    a.code (r + 3) ++ .loopStart (.name (reg (r + 1))) (.name (a.operand (r + 3))) ::
      stop.code r1 ++ .loopStop (.name (reg (r + 2))) (.name (stop.operand r1)) ::
      b.code r2 ++ .loopStep (.name (reg (r + 3))) (.name (b.operand r2)) ::
      .label (.name (rangeMark (l + 1))) :: .assign (.name x) (.name (reg (r + 1))) ::
      .binary (.name (reg (r3 + 1))) (.name x) (.name (reg (r + 2))) "<" ::
      .branch (.name (mark (l + 2))) (.name (reg (r3 + 1))) ::
      body.code (r3 + 1) (l + 2) ++
      [.goto (.name (rangeMark (l + 1))), .label (.name (mark (l + 2)))]
  | .chain cond body rest, r, l =>
    cond.code r ++ .branch (.name (mark (l + 1))) (.name (cond.operand r)) :: body.code (r + cond.size) (l + 2) ++
      .goto (.name (body.chainEnd l)) :: .label (.name (mark (l + 1))) ::
      rest.code (body.chainEnd l) (r + cond.size + body.regs) (l + 2 + body.labels) ++
      [.label (.name (body.chainEnd l))]

def Block.code : Block → Nat → Nat → List Instr
  | .nil, _, _ => []
  | .cons s rest, r, l => s.code r l ++ rest.code (r + s.regs) (l + s.labels)

def Tail.code : Tail → String → Nat → Nat → List Instr
  | .done, _, _, _ => []
  | .elif cond body rest, stop, r, l =>
    cond.code r ++ .elseBranch (.name (mark (l + 1))) (.name (cond.operand r)) :: body.code (r + cond.size) (l + 1) ++
      .goto (.name stop) :: .label (.name (mark (l + 1))) ::
      rest.code stop (r + cond.size + body.regs) (l + 1 + body.labels)
  | .otherwise body, _, r, l => body.code r l

end

theorem Tail.mem_pending {stop x : String} : ∀ {t : Tail}, x ∈ t.pending stop → x = stop
  | .done, h => List.mem_singleton.mp h
  | .elif _ _ rest, h => rest.mem_pending h
  | .otherwise _, h => by simp [Tail.pending] at h

theorem Tail.pending_eq_nil (stop : String) : ∀ t : Tail, t.closed = true → t.pending stop = []
  | .done, h => by simp [Tail.closed] at h
  | .elif _ _ rest, h => by
    simp only [Tail.closed, Bool.and_eq_true] at h
    exact rest.pending_eq_nil stop h.2
  | .otherwise _, _ => rfl

mutual

theorem Stmt.pending_eq_nil : ∀ (s : Stmt) (l : Nat), s.closed = true → s.pending l = []
  | .assign .., _, _ => rfl
  | .print _, _, _ => rfl
  | .whileDo _ body, _, h => body.pending_eq_nil _ h
  | .forRange _ _ _ _ body, _, h => body.pending_eq_nil _ h
  | .chain _ body rest, l, h => by
    simp only [Stmt.closed, Bool.and_eq_true] at h
    simp [Stmt.pending, body.pending_eq_nil _ h.1, rest.pending_eq_nil _ h.2]

theorem Block.pending_eq_nil : ∀ (p : Block) (l : Nat), p.closed = true → p.pending l = []
  | .nil, _, _ => rfl
  | .cons s rest, l, h => by
    simp only [Block.closed, Bool.and_eq_true] at h
    simp [Block.pending, s.pending_eq_nil _ h.1, rest.pending_eq_nil _ h.2]

end

mutual

theorem Stmt.tidy_of_closed : ∀ s : Stmt, s.closed = true → s.tidy = true
  | .assign .., _ => rfl
  | .print _, _ => rfl
  | .whileDo _ body, h => body.tidy_of_closed h
  | .forRange _ _ _ _ body, h => body.tidy_of_closed h
  | .chain _ body rest, h => by
    simp only [Stmt.closed, Bool.and_eq_true] at h
    simp [Stmt.tidy, body.tidy_of_closed h.1, rest.tidy_of_closed h.2]

theorem Block.tidy_of_closed : ∀ p : Block, p.closed = true → p.tidy = true
  | .nil, _ => rfl
  | .cons s rest, h => by
    simp only [Block.closed, Bool.and_eq_true] at h
    simp [Block.tidy, s.tidy_of_closed h.1, rest.tidy_of_closed h.2]

theorem Tail.tidy_of_closed : ∀ t : Tail, t.closed = true → t.tidy = true
  | .done, _ => rfl
  | .elif _ body rest, h => by
    simp only [Tail.closed, Bool.and_eq_true] at h
    simp [Tail.tidy, h.1, rest.tidy_of_closed h.2]
  | .otherwise body, h => h

end

/-- The open chains after the first alternative of a chain: the label at its end stands on top. -/
theorem Block.pending_append (body : Block) (l : Nat) :
    body.pending (l + 2) ++ [mark (l + 2)] = body.chainEnd l :: (body.pending (l + 2) ++ [mark (l + 2)]).tail := by
  unfold Block.chainEnd
  cases body.pending (l + 2) <;> rfl

theorem Stmt.pending_chain (cond : Term) (body : Block) (rest : Tail) (l : Nat) :
    (Stmt.chain cond body rest).pending l = rest.pending (body.chainEnd l) ++
      (body.pending (l + 2) ++ [mark (l + 2)]).tail := rfl

end Tabc.Core
