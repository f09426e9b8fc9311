import Tabc.Proofs.Rebuild.Reading

/-!
# Reading chains back

What continues a chain is the first further condition or the end of the chain in the code that is left, so
there must be no further condition inside a last alternative (`Block.legible`).
-/

open List

namespace Tabc.Core

open Target Target.Build

mutual

/-- A statement without a further condition anywhere. -/
def Stmt.elifFree : Stmt → Bool
  | .assign .. => true
  | .print _ => true
  | .whileDo _ body => body.elifFree
  | .forRange _ _ _ _ body => body.elifFree
  | .chain _ body rest => body.elifFree && rest.elifFree

def Block.elifFree : Block → Bool
  | .nil => true
  | .cons s rest => s.elifFree && rest.elifFree

def Tail.elifFree : Tail → Bool
  | .done => true
  | .elif .. => false
  | .otherwise body => body.elifFree

end

mutual

/-- In a statement, there is no further condition inside a last alternative. -/
def Stmt.legible : Stmt → Bool
  | .assign .. => true
  | .print _ => true
  | .whileDo _ body => body.legible
  | .forRange _ _ _ _ body => body.legible
  | .chain _ body rest => body.legible && rest.legible

def Block.legible : Block → Bool
  | .nil => true
  | .cons s rest => s.legible && rest.legible

def Tail.legible : Tail → Bool
  | .done => true
  | .elif _ body rest => body.legible && rest.legible
  | .otherwise body => body.legible && body.elifFree

end

/-- The instruction is a further condition. -/
def isElif : Instr → Bool
  | .elseBranch .. => true
  | _ => false

theorem Term.any_isElif (t : Term) (r : Nat) : (t.code r).any isElif = false := by
  induction t generalizing r with
  | const a => rfl
  | var x => rfl
  | unary op a ih => simp only [Term.code, any_append, ih]; rfl
  | binary a op b iha ihb => simp only [Term.code, any_append, iha, ihb]; rfl

section

attribute [local simp] Stmt.code Stmt.elifFree Term.any_isElif isElif Tail.code Tail.elifFree Block.code Block.elifFree

mutual

theorem Stmt.any_isElif : ∀ (s : Stmt) (r l : Nat), (s.code r l).any isElif = !s.elifFree
  | .assign x type value, r, l => by simp
  | .print x, r, l => rfl
  | .whileDo cond body, r, l => by simp [body.any_isElif]
  | .forRange x start stop step body, r, l => by simp [body.any_isElif]
  | .chain cond body rest, r, l => by simp [body.any_isElif, rest.any_isElif]

theorem Block.any_isElif : ∀ (p : Block) (r l : Nat), (p.code r l).any isElif = !p.elifFree
  | .nil, r, l => rfl
  | .cons s rest, r, l => by simp [s.any_isElif, rest.any_isElif]

theorem Tail.any_isElif : ∀ (t : Tail) (stop : String) (r l : Nat), (t.code stop r l).any isElif = !t.elifFree
  | .done, stop, r, l => rfl
  | .elif cond body rest, stop, r, l => by simp
  | .otherwise body, stop, r, l => body.any_isElif r l

end

end

attribute [local simp] openChainScope closeChainScope

section

variable {f stop : String} {i : Instr} {front q : List Instr}

theorem isMark_eq_false (h : labelOf? i ≠ some f) : isMark (.name f) i = false := by
  cases i with
  | label value =>
    cases value with
    | name x => simpa [isMark, Operand.same, labelOf?] using h
    | _ => rfl
  | _ => rfl

theorem before_eq (hi : isMark (.name f) i = false) (h : f ∉ labels front) (prev : Option Instr) :
    before (.name f) prev (front ++ i :: .label (.name f) :: q) = .ok (some i) := by
  induction front generalizing prev with
  | nil =>
    rw [nil_append, before, hi, before]
    simp [isMark, Operand.same]
    rfl
  | cons j front ih =>
    rw [labels_cons, mem_append, Option.mem_toList, not_or] at h
    rw [cons_append, before, isMark_eq_false h.1]
    exact ih h.2 _

theorem chainLabel_eq (h : f ∉ labels front) :
    chainLabel (.name f) (front ++ .goto (.name stop) :: .label (.name f) :: q) = .ok (.name stop) := by
  rw [chainLabel, before_eq rfl h]
  rfl

variable {n : Nat} {ends opened : List (Operand × Nat)}

theorem continuation_append (h : stop ∉ labels front) (helif : front.any isElif = false) (first : Bool) :
    continuation ((.name stop, n) :: ends) first (front ++ q) =
      continuation ((.name stop, n) :: ends) (first && front.isEmpty) q := by
  induction front generalizing first with
  | nil => simp
  | cons j front ih =>
    rw [labels_cons, mem_append, Option.mem_toList, not_or] at h
    rw [any_cons, Bool.or_eq_false_iff] at helif
    have hj : continuation ((.name stop, n) :: ends) first (j :: (front ++ q)) =
        continuation ((.name stop, n) :: ends) false (front ++ q) := by
      cases j with
      | label value =>
        have hne : value.same (.name stop) = false := isMark_eq_false h.1
        rw [continuation, hne, if_neg (by simp)]
      | elseBranch ifFalse cond => simp [isElif] at helif
      | _ => rw [continuation] <;> simp
    rw [cons_append, hj, ih h.2 helif.2]
    simp

/-- A chain continues with the first further condition in the code ahead. -/
theorem continuation_condition (h : stop ∉ labels front) (helif : front.any isElif = false) :
    continuation ((.name stop, n) :: ends) true (front ++ .elseBranch f' c :: q) = .ok (.condition f') := by
  rw [continuation_append h helif]
  rfl

/-- A chain continues with its last alternative, if there is no further condition in it. -/
theorem continuation_otherwise (hends : opened = (.name stop, n) :: ends) (hne : front ≠ [])
    (helif : front.any isElif = false) (h : stop ∉ labels front) :
    continuation opened true (front ++ .label (.name stop) :: q) = .ok .otherwise := by
  rw [hends, continuation_append h helif, continuation]
  simp [Operand.same, hne]
  rfl

theorem Term.continuation_eq (cond : Term) (r : Nat) (hends : opened = (.name stop, n) :: ends) :
    continuation opened true (cond.code r ++ .elseBranch f' c :: q) = .ok (.condition f') := by
  rw [hends]
  exact continuation_condition (by simp [labels_term]) (cond.any_isElif r)

end

variable {known : Option ScopeTable} {s s1 s2 : Build}

variable {fuel : Nat} {ends : List (Operand × Nat)} {rest : List Target.Node}

theorem run_chain {f stop : Operand} (hstop : chainLabel f s.queue = .ok stop)
    (hbody : (body .fourth known fuel f []).run { s with ends := (stop, 0) :: s.ends } = .ok items s1) :
    (chain .fourth known (fuel + 1) f (.name c)).run s =
      (do more .fourth known fuel [.ifThen (.ident c) (.block items)] (← pop)).run s1 := by
  rw [chain]
  simp [hstop, ident, hbody]

theorem run_more_finish {stop : String} {n : Nat} {q : List Instr}
    (hq : s.queue = .label (.name stop) :: q) (hends : s.ends = (.name stop, n) :: ends)
    (fuel : Nat) (items : List Target.Node) :
    (do more .fourth known (fuel + 1) items (← pop)).run s =
      .ok (.stmts items) { s with queue := q, ends := ends } := by
  simp only [EStateM.run_bind, run_pop hq]
  rw [more]
  simp [hends, continuation, Operand.same, endChain]

theorem run_more_otherwise (hnext : continuation s.ends true s.queue = .ok .otherwise)
    (hrest : (do otherwise .fourth known fuel [] (← pop)).run s = .ok rest s1)
    (hends : s1.ends = e :: ends) (items : List Target.Node) :
    (do more .fourth known (fuel + 1) items (← pop)).run s =
      .ok (.stmts (items ++ [.elseThen (.block rest)])) { s1 with ends := ends } := by
  cases hq : s.queue with
  | nil => rw [hq] at hnext; cases hnext
  | cons i q =>
    rw [hq] at hnext
    simp only [EStateM.run_bind, run_pop hq] at hrest ⊢
    rw [more]
    simp [hnext, hrest, endChain, hends]

/-- A further alternative of a chain. Its condition is computed in front of the chain. -/
theorem run_more_condition {f label : Operand} {front head : List Target.Node}
    (hnext : continuation s.ends true s.queue = .ok (.condition f))
    (hcond : (do condition .fourth known fuel [] (← pop)).run s = .ok (head, .name c) s1)
    (hends : s1.ends = (label, front.length) :: ends)
    (hbody : (body .fourth known fuel f []).run { s1 with ends := (label, front.length + head.length) :: ends } = .ok rest s2)
    (back : List Target.Node) :
    (do more .fourth known (fuel + 1) (front ++ back) (← pop)).run s =
      (do let items := front ++ head ++ (back ++ [Target.Node.elifThen (.ident c) (.block rest)])
          more .fourth known fuel items (← pop)).run s2 := by
  cases hq : s.queue with
  | nil => rw [hq] at hnext; cases hnext
  | cons i q =>
    rw [hq] at hnext
    simp only [EStateM.run_bind, run_pop hq] at hcond
    simp only [EStateM.run_bind, run_pop hq]
    rw [more]
    simp [hnext, hcond, insertCondition, hends, ident, hbody]

end Tabc.Core
