import Tabc.Code.Instr
import Tabc.Syntax.Parts

/-!
# Flattening

`flatten` appends the code of a tree to the code that is there, and gives the operand that holds its value. A
condition that continues a chain goes in front of the label that ends the chain. For this the state has two
stacks, of these labels and of their places. Only the last alternative of a chain takes them off.
-/

namespace Tabc

open MonadExcept (ofExcept)

/-- The code so far, and what numbers and chains are in use. -/
structure Flat where
  code : List Instr
  registers : Nat
  labels : Nat
  chains : List String
  spots : List Nat
deriving Inhabited

abbrev FlatM := EStateM Fault Flat

namespace Flat

def empty : Flat := ⟨[], 0, 0, [], []⟩

def emit (i : Instr) : FlatM Unit := modify fun s => { s with code := s.code ++ [i] }

def registerName (e : Edition) (n : Nat) : String :=
  match e with
  | .fourth => s!"_t{n}_"
  | _ => s!"_t{n}"

def newRegister (e : Edition) : FlatM String := do
  modify fun s => { s with registers := s.registers + 1 }
  return registerName e (← get).registers

def resetRegisters : FlatM Unit := modify fun s => { s with registers := 0 }

def labelName (e : Edition) (what : String) (n : Nat) : String :=
  if what == "" then s!"L_{n}"
  else match e with
    | .first | .second => s!"L_{what}{n}"
    | _ => s!"L_{what}_{n}"

def newLabel (e : Edition) (what : String) : FlatM String := do
  modify fun s => { s with labels := s.labels + 1 }
  return labelName e what (← get).labels

def mark (label : String) : FlatM Unit := emit (.label (.name label))

def jump (label : String) : FlatM Unit := emit (.goto (.name label))

def unlessJump (label : String) (cond : Operand) : FlatM Unit := emit (.branch (.name label) cond)

def chainEnd : FlatM String := do
  match (← get).chains with
  | [] => throw .outOfRange
  | l :: _ => return l

def openChain (label : String) : FlatM Unit := modify fun s => { s with chains := label :: s.chains }

def markChain : FlatM Unit := do
  modify fun s => { s with spots := s.code.length :: s.spots }
  mark (← chainEnd)

def setAside : FlatM (List Instr) := do
  let code := (← get).code
  modify fun s => { s with code := [] }
  return code

/-- Puts the new code into the old one at the place of the innermost chain. -/
def splice (old : List Instr) : FlatM Nat := do
  let s ← get
  match s.spots with
  | [] => throw .outOfRange
  | spot :: _ =>
    set { s with code := old.take spot ++ s.code ++ old.drop spot }
    return s.code.length

def moveSpot (n : Nat) : FlatM Unit :=
  modify fun s => { s with spots := match s.spots with
    | [] => []
    | spot :: rest => (spot + n) :: rest }

def closeChain : FlatM Unit := do
  modify fun s => { s with spots := s.spots.tail }
  match (← get).chains with
  | [] => throw .outOfRange
  | _ :: rest => modify fun s => { s with chains := rest }

/-- The code of a text: its length, then its characters, each with a register of its own. -/
def emitChars (e : Edition) : List Char → FlatM Unit
  | [] => pure ()
  | c :: rest => do
    let reg ← newRegister e
    emit (.char (.name reg) (String.singleton c))
    emitChars e rest

def emitLiteral (e : Edition) (kind : String) (value : Atom) : FlatM Operand := do
  let reg ← newRegister e
  if kind == "str" then
    match value with
    | .text s =>
      emit (.string (.name reg) s.length)
      emitChars e s.toList
    | _ => throw .wrongKind
  else
    emit (.literal (.name reg) value)
  return .name reg

def emitParams (e : Edition) : List Node → FlatM Unit
  | [] => pure ()
  | p :: rest => do
    let reg ← newRegister e
    match p with
    | .param _ var => emit (.param (.name reg) (Operand.ofNode var))
    | _ => throw .noPart
    emitParams e rest

def functionWord (e : Edition) (name : Node) : Except Fault String :=
  match e with
  | .first | .second => pure (if name.given then name.plain e else "")
  | _ => do return "FUNC_" ++ (← name.nameText)

def emitHead (e : Edition) (name params : Node) : FlatM String := do
  let skip ← newLabel e ""
  jump skip
  mark (← newLabel e (← ofExcept (functionWord e name)))
  let reg ← newRegister e
  let items ← ofExcept params.parts
  emit (.params (.name reg) items.length)
  emitParams e items
  return skip

def calleeName (e : Edition) (callee : Node) : Except Fault Operand :=
  match e with
  | .first | .second => pure (Operand.ofNode callee)
  | _ => match callee.nameOf? with
    | some n => pure (Operand.ofNode n)
    | none => throw .noPart

def defaultBound (e : Edition) (value : Int) : FlatM Operand := do
  let reg ← newRegister e
  emit (.literal (.name reg) (.int value))
  return .name reg

mutual

/-- Appends the code of a tree and gives the operand that holds its value. -/
def flatten (e : Edition) : Node → FlatM Operand
  | .ident name => return .name name
  | .literal kind value => emitLiteral e kind value
  | .collection kind items => do
    let reg ← newRegister e
    emit (.collection (.name reg) (if kind == "list" then "LIST" else "TUPLE") items.length)
    flattenElements e items
    return .name reg
  | .binary left op right => do
    let l ← flatten e left
    let r ← flatten e right
    let reg ← newRegister e
    emit (.binary (.name reg) l r op)
    return .name reg
  | .unary op right => do
    let r ← flatten e right
    let reg ← newRegister e
    emit (.unary (.name reg) op r)
    return .name reg
  | .call callee args => do
    let call ← newRegister e
    let reg ← newRegister e
    flattenArgs e reg call args
    emit (.call (← ofExcept (calleeName e callee)) (.name call))
    let result ← newRegister e
    emit (.result (.name result))
    return .name result
  | .index obj idx => do
    let o ← flatten e obj
    let i ← flatten e idx
    let reg ← newRegister e
    emit (.index (.name reg) o i)
    return .name reg
  | .slice obj start stop => do
    let o ← flatten e obj
    let reg ← newRegister e
    let from' ← if start.given then flatten e start else pure .nothing
    let upto ← if stop.given then flatten e stop else pure .nothing
    emit (.slice (.name reg) o (if from'.present then from' else .nothing) (if upto.present then upto else .nothing))
    return .name reg
  | .assign left _ right => do
    let l ← flatten e left
    let r ← flatten e right
    emit (.assign l r)
    return Operand.ofNode left
  | .append obj value => do
    let o ← flatten e obj
    let v ← flatten e value
    emit (.append o v (.name "end"))
    return .nothing
  | .ret value => do
    let v ← flatten e value
    emit (.ret v)
    return .nothing
  | .ifThen cond body => do
    let c ← flatten e cond
    let otherwise ← newLabel e ""
    openChain (← newLabel e "")
    unlessJump otherwise c
    flattenBody e body
    jump (← chainEnd)
    mark otherwise
    markChain
    return .nothing
  | .elifThen cond body => do
    let old ← setAside
    let c ← flatten e cond
    let otherwise ← newLabel e ""
    emit (.elseBranch (.name otherwise) c)
    flattenBody e body
    jump (← chainEnd)
    mark otherwise
    moveSpot (← splice old)
    return .nothing
  | .elseThen body => do
    let old ← setAside
    flattenBody e body
    let _ ← splice old
    closeChain
    return .nothing
  | .whileDo cond body => do
    let again ← newLabel e "WHILE"
    let done ← newLabel e ""
    mark again
    let c ← flatten e cond
    unlessJump done c
    flattenBody e body
    jump again
    mark done
    return .nothing
  | .range stop start step => do
    let startReg ← newRegister e
    let stopReg ← newRegister e
    let stepReg ← newRegister e
    match e with
    | .first | .second =>
      if start.given then
        emit (.loopStart (.name startReg) (← flatten e start))
      else throw .noPart
      emit (.loopStop (.name stopReg) (← flatten e stop))
      if step.given then
        emit (.loopStep (.name stepReg) (← flatten e step))
      else emit (.loopStep (.name stepReg) (.const 1))
    | _ =>
      emit (.loopStart (.name startReg) (← if start.given then flatten e start else defaultBound e 0))
      emit (.loopStop (.name stopReg) (← flatten e stop))
      emit (.loopStep (.name stepReg) (← if step.given then flatten e step else defaultBound e 1))
    return .names [startReg, stepReg, stopReg]
  | .forRange var range body => do
    let bounds ← flatten e range
    match e with
    | .first | .second =>
      let v := Operand.ofNode var
      let again ← newLabel e "FOR"
      let done ← newLabel e ""
      emit (.assign v (← ofExcept (bounds.part 0)))
      mark again
      let cond ← newRegister e
      emit (.binary (.name cond) v (← ofExcept (bounds.part 2)) "<")
      unlessJump done (.name cond)
      flattenBody e body
      let start ← ofExcept (bounds.part 0)
      emit (.binary start v (← ofExcept (bounds.part 1)) "+")
      emit (.assign v start)
      jump again
      mark done
    | _ =>
      let again ← newLabel e "FORRANGE"
      let done ← newLabel e ""
      mark again
      emit (.assign (← flatten e var) (← ofExcept (bounds.part 0)))
      let cond ← newRegister e
      emit (.binary (.name cond) (← flatten e var) (← ofExcept (bounds.part 2)) "<")
      unlessJump done (.name cond)
      flattenBody e body
      jump again
      mark done
    return .nothing
  | .forEach var coll body => do
    let c ← flatten e coll
    match e with
    | .first | .second =>
      let here ← newRegister e
      emit (.assign (.name here) (.address c))
      let length ← newRegister e
      emit (.assign (.name length) (.contents (.name here)))
      emit (.binary (.name here) (.name here) (.const 1) "+")
      let stop ← newRegister e
      emit (.binary (.name stop) (.name here) (.name length) "+")
      let again ← newLabel e "FOR"
      let done ← newLabel e ""
      mark again
      let cond ← newRegister e
      emit (.binary (.name cond) (.name here) (.name stop) "<")
      unlessJump done (.name cond)
      emit (.assign (Operand.ofNode var) (.contents (.name here)))
      flattenBody e body
      emit (.binary (.name here) (.name here) (.const 1) "+")
      jump again
      mark done
    | _ =>
      let length ← newRegister e
      emit (.length (.name length) c)
      let idx ← newRegister e
      if e == .fourth then
        emit (.literal (.name idx) (.int 1))
      let again ← newLabel e "FORLIST"
      let done ← newLabel e ""
      mark again
      let cond ← newRegister e
      emit (.loopVar (← flatten e var))
      emit (.index (← flatten e var) c (.name idx))
      unlessJump done (.name cond)
      flattenBody e body
      jump again
      mark done
    return .nothing
  | .funDef name params body _ => do
    let skip ← emitHead e name params
    match e with
    | .first | .second => pure ()
    | _ => flattenBody e body
    mark skip
    return .nothing
  | _ => throw .noPart

def flattenBody (e : Edition) : Node → FlatM Unit
  | .block items => flattenAll e items
  | _ => throw .noPart

def flattenAll (e : Edition) : List Node → FlatM Unit
  | [] => pure ()
  | n :: rest => do
    let _ ← flatten e n
    flattenAll e rest

def flattenElements (e : Edition) : List Node → FlatM Unit
  | [] => pure ()
  | n :: rest => do
    let v ← flatten e n
    emit (.element v)
    flattenElements e rest

def flattenArgs (e : Edition) (reg call : String) : Node → FlatM Unit
  | .args items => flattenArgsIn e reg call items
  | .params items => flattenArgsIn e reg call items
  | .block items => do
    emit (.args (.name reg) (.name call) items.length)
    flattenArgList e items
  | _ => throw .noPart

def flattenArgsIn (e : Edition) (reg call : String) : Option (List Node) → FlatM Unit
  | some items => do
    emit (.args (.name reg) (.name call) items.length)
    flattenArgList e items
  | none => emit (.args (.name reg) (.name call) 0)

def flattenArgList (e : Edition) : List Node → FlatM Unit
  | [] => pure ()
  | n :: rest => do
    let v ← flatten e n
    emit (.arg v)
    flattenArgList e rest

end

def ofProgram (e : Edition) (nodes : List Node) : Except Fault (List Instr) :=
  match (flattenAll e nodes).run empty with
  | .ok _ s => pure s.code
  | .error fault _ => throw fault

end Flat

end Tabc
