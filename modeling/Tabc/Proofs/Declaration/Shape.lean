import Tabc.Proofs.Declaration.Survey
import Tabc.Proofs.Rebuild.Chains

/-!
# The shape of code

`Tidy` says how the code of a program is put together, as far as reading it back needs: expressions are
complete (`Piece`), heads stand in one piece, and a chain is continued behind its branches (`Chained`,
`Ending`).
-/

open List

namespace Tabc.Declaration

open Tabc.Core
open Target.Build (hasWord functionName)

def isRegister : Operand → Bool
  | .name x => isTemporary x
  | _ => false

def computes : Instr → Bool
  | .literal reg _ | .binary reg _ _ _ | .unary reg _ _ | .loopStart reg _ | .loopStop reg _
  | .loopStep reg _ | .string reg _ | .index reg _ _ | .slice reg _ _ _ => isRegister reg
  | .char .. | .args .. | .arg _ | .length .. => true
  | _ => false

mutual

/-- Code that is read as one instruction with all that belongs to it, and computes a value. -/
inductive Piece : List Instr → Prop where
  | single {i : Instr} (h : computes i = true) : Piece [i]
  | call (name reg : Operand) {result : Operand} (h : isRegister result = true) : Piece [.call name reg, .result result]
  | collection {reg : Operand} (op : String) {n : Nat} {code : List Instr} (h : isRegister reg = true)
    (items : Elements n code) : Piece (.collection reg op n :: code)

inductive Elements : Nat → List Instr → Prop where
  | nil : Elements 0 []
  | element (value : Operand) {n : Nat} {code : List Instr} (h : Elements n code) :
    Elements (n + 1) (.element value :: code)
  | piece {p code : List Instr} {n : Nat} (hp : Piece p) (h : Elements (n + 1) code) : Elements (n + 1) (p ++ code)

end

inductive Computing : List Instr → Prop where
  | nil : Computing []
  | cons {p code : List Instr} (hp : Piece p) (h : Computing code) : Computing (p ++ code)

theorem Computing.append (ha : Computing a) (hb : Computing b) : Computing (a ++ b) := by
  induction ha with
  | nil => exact hb
  | cons hp _ ih =>
    rw [List.append_assoc]
    exact .cons hp ih

theorem Computing.piece (hp : Piece p) : Computing p := by simpa using Computing.cons hp .nil

/-- A label, a jump or a branch. -/
def directs : Instr → Bool
  | .label _ | .goto _ | .branch .. | .elseBranch .. => true
  | _ => false

mutual

theorem Piece.any_directs : Piece p → p.any directs = false
  | .single (i := i) h => by cases i <;> first | rfl | cases h
  | .call .. => rfl
  | .collection _ _ items => items.any_directs

theorem Elements.any_directs {n : Nat} : Elements n code → code.any directs = false
  | .nil => rfl
  | .element _ h => h.any_directs
  | .piece hp h => by rw [any_append, hp.any_directs, h.any_directs]; rfl

end

variable {code : List Instr} (h : Computing code)

include h

theorem Computing.directs_eq : ∀ i ∈ code, directs i = false := by
  suffices hany : code.any directs = false by simpa using hany
  induction h with
  | nil => rfl
  | cons hp _ ih => rw [any_append, hp.any_directs, ih]; rfl

theorem Computing.any_isElif : code.any isElif = false := by
  refine any_eq_false.2 fun i hi helif => ?_
  cases i with
  | elseBranch => cases h.directs_eq _ hi
  | _ => cases helif

theorem Computing.filterMap_eq (hf : ∀ i, directs i = false → f i = none) : code.filterMap f = [] :=
  filterMap_eq_nil_iff.2 fun i hi => hf i (h.directs_eq i hi)

theorem Computing.labels_eq : labels code = [] := h.filterMap_eq fun i hi => by cases i <;> first | rfl | cases hi

omit h

inductive LabelKind where
  | forRange
  | forEach
  | whileDo
  | function
  | plain
deriving DecidableEq

def labelKind (x : String) : LabelKind :=
  if hasWord "FORRANGE".toList x.toList then .forRange
  else if hasWord "FORLIST".toList x.toList then .forEach
  else if hasWord "WHILE".toList x.toList then .whileDo
  else if hasWord "FUNC".toList x.toList then .function
  else .plain

/-- What continues a chain that ends with a label: its end or its last alternative, which has no further
condition inside, or a further condition with its alternative. -/
inductive Ending (stop : String) : List Instr → Prop where
  | last {front : List Instr} (rest : List Instr) (hstop : labelKind stop = .plain)
    (h : front.any isElif = false) : Ending stop (front ++ .label (.name stop) :: rest)
  | further {cond : List Instr} (f : String) (c : Operand) (front : List Instr) {rest : List Instr}
    (hcond : Computing cond) (h : Ending stop rest) :
    Ending stop (cond ++ .elseBranch (.name f) c :: (front ++ .goto (.name stop) :: .label (.name f) :: rest))

/-- The code behind a branch to a label: the alternative, which ends with a jump and the label, and then
what continues the chain. -/
def Chained (f : String) (code : List Instr) : Prop :=
  ∃ front stop rest, code = front ++ .goto (.name stop) :: .label (.name f) :: rest ∧ Ending stop rest

theorem Ending.finish (hstop : labelKind stop = .plain) (rest : List Instr) :
    Ending stop (.label (.name stop) :: rest) :=
  have h : Ending stop ([] ++ .label (.name stop) :: rest) := .last rest hstop rfl
  h

theorem Ending.append (h : Ending stop code) (more : List Instr) : Ending stop (code ++ more) := by
  induction h with
  | last rest hstop hfront => simpa using Ending.last (rest ++ more) hstop hfront
  | further f c front hcond _ ih => simpa using Ending.further f c front hcond ih

theorem Chained.append (h : Chained f code) (more : List Instr) : Chained f (code ++ more) := by
  obtain ⟨front, stop, rest, rfl, hrest⟩ := h
  exact ⟨front, stop, rest ++ more, by simp, hrest.append more⟩

def stands : Instr → Bool
  | .assign .. | .append .. | .ret _ | .goto _ => true
  | .label (.name x) => labelKind x = .plain
  | _ => false

def isParam : Instr → Bool
  | .param reg _ => isRegister reg
  | _ => false

/-- Code of statements. The names of functions are taken. -/
inductive Tidy (taken : String → Prop) : List Instr → Prop where
  | nil : Tidy taken []
  | piece {p code : List Instr} (hp : Piece p) (h : Tidy taken code) : Tidy taken (p ++ code)
  | single {i : Instr} {code : List Instr} (hi : stands i = true) (h : Tidy taken code) : Tidy taken (i :: code)
  | loop {l : String} (hl : labelKind l = .whileDo) {cond : List Instr} (hcond : Computing cond)
    (done : String) (c : Operand) {code : List Instr} (h : Tidy taken code) :
    Tidy taken (.label (.name l) :: (cond ++ .branch (.name done) c :: code))
  | range {l : String} (hl : labelKind l = .forRange) (x start : Operand) {r : Operand}
    (hr : isRegister r = true) (a b : Operand) (op done : String) (c : Operand) {code : List Instr}
    (h : Tidy taken code) :
    Tidy taken (.label (.name l) :: .assign x start :: .binary r a b op :: .branch (.name done) c :: code)
  | each {l : String} (hl : labelKind l = .forEach) (v x coll idx : Operand) (done : String)
    (c : Operand) {code : List Instr} (h : Tidy taken code) :
    Tidy taken (.label (.name l) :: .loopVar v :: .index x coll idx :: .branch (.name done) c :: code)
  | function {l : String} (hl : labelKind l ≠ .plain) (hname : taken (functionName l)) (r : Operand)
    {ps : List Instr} (hps : ∀ p ∈ ps, isParam p = true) {code : List Instr} (h : Tidy taken code) :
    Tidy taken (.label (.name l) :: .params r ps.length :: (ps ++ code))
  | chain {f : String} (c : Operand) {code : List Instr} (hf : Chained f code) (h : Tidy taken code) :
    Tidy taken (.branch (.name f) c :: code)
  | further (f c : Operand) {code : List Instr} (h : Tidy taken code) : Tidy taken (.elseBranch f c :: code)

namespace Tidy

variable {taken : String → Prop} {a b : List Instr}

theorem append (ha : Tidy taken a) (hb : Tidy taken b) : Tidy taken (a ++ b) := by
  induction ha with
  | nil => exact hb
  | piece hp _ ih => simpa using piece hp ih
  | single hi _ ih => exact single hi ih
  | loop hl hcond done c _ ih => simpa using loop hl hcond done c ih
  | range hl x start hr a b op done c _ ih => exact range hl x start hr a b op done c ih
  | each hl v x coll idx done c _ ih => exact each hl v x coll idx done c ih
  | function hl hname r hps _ ih => simpa using function hl hname r hps ih
  | chain c hf _ ih => exact chain c (hf.append b) ih
  | further f c _ ih => exact further f c ih

theorem of_computing (ha : Computing a) : Tidy taken a := by
  induction ha with
  | nil => exact nil
  | cons hp _ ih => exact piece hp ih

end Tidy

end Tabc.Declaration
