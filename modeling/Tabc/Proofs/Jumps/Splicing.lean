import Tabc.Pipeline
import Tabc.Proofs.Jumps.Targets
import Tabc.Proofs.Parsing.Places

/-!
# Code that is set aside

The code of a further condition is made apart and put into the code that was set aside. `Logged.flatten`
flattens a tree and keeps a log of all that is passed to `emit`; without the log it is `flatten`. In the end the
code is what is in the log, in some order. A register may be defined once: taking one gives the right to it, and
defining it uses the right up (`Spends`).
-/

open List

namespace Tabc

/-- The register or variable that an instruction defines. -/
@[reducible]
def Instr.defined? : Instr → Option Operand
  | .literal reg _ | .string reg _ | .char reg _ | .collection reg _ _ | .loopStart reg _
  | .loopStop reg _ | .loopStep reg _ | .params reg _ | .param reg _ | .args reg _ _ | .result reg
  | .binary reg _ _ _ | .unary reg _ _ | .length reg _ | .index reg _ _ | .slice reg _ _ _ => some reg
  | _ => none

/-- How many instructions define a name. -/
def definitions (x : String) (code : List Instr) : Nat := code.countP fun i => i.defined?.any fun o => o.same (.name x)

namespace Flat

open Tabc.Core Core.Jumps

/-! ## Flattening with a log -/

/-- Steps of flattening that keep a log of the instructions passed to `emit`, the first one first. -/
abbrev LogM := StateT (List Instr) FlatM

namespace Logged

/-- Passes an instruction on and writes it into the log. Nothing else writes into it. -/
def emit (i : Instr) : LogM Unit := do
  Flat.emit i
  modify (· ++ [i])

/-- Passes on an instruction for a new register. -/
def define (i : Operand → Instr) : LogM Operand := do
  let reg ← newRegister .fourth
  emit (i (.name reg))
  return .name reg

/-- Passes on a label. -/
def mark (label : String) : LogM Unit := emit (.label (.name label))

/-- Passes on the label that ends the chain, and notes its place. -/
def markChain : LogM Unit := do
  let spot : FlatM Unit := modify fun s => { s with spots := s.code.length :: s.spots }
  spot
  mark (← chainEnd)

/-- Makes code apart and puts it into the code that was set aside. -/
def aside (x : LogM Unit) : LogM Nat := do
  let old ← setAside
  x
  splice old

/-- The characters of a text, each with a register of its own. -/
def emitChars : List Char → LogM Unit
  | [] => pure ()
  | c :: rest => do
    let reg ← newRegister .fourth
    emit (.char (.name reg) (String.singleton c))
    emitChars rest

/-- The code of a literal. -/
def emitLiteral (kind : String) (value : Atom) : LogM Operand := do
  let reg ← newRegister .fourth
  if kind == "str" then
    match value with
    | .text s =>
      emit (.string (.name reg) s.length)
      emitChars s.toList
    | _ => throw .wrongKind
  else
    emit (.literal (.name reg) value)
  return .name reg

/-- The parameters of a function, each with a register of its own. -/
def emitParams : List Node → LogM Unit
  | [] => pure ()
  | p :: rest => do
    let reg ← newRegister .fourth
    match p with
    | .param _ var => emit (.param (.name reg) (Operand.ofNode var))
    | _ => throw .noPart
    emitParams rest

/-- The head of a function; gives the label behind the function. -/
def emitHead (name params : Node) : LogM String := do
  let skip ← newLabel .fourth ""
  emit (.goto (.name skip))
  mark (← newLabel .fourth (← ofExcept (functionWord .fourth name)))
  let reg ← newRegister .fourth
  let items ← ofExcept params.parts
  emit (.params (.name reg) items.length)
  emitParams items
  return skip

mutual

/-- The steps of `flatten`, with a log. -/
def flatten : Node → LogM Operand
  | .ident name => return .name name
  | .literal kind value => emitLiteral kind value
  | .collection kind items => do
    let reg ← newRegister .fourth
    emit (.collection (.name reg) (if kind == "list" then "LIST" else "TUPLE") items.length)
    flattenEach .element items
    return .name reg
  | .binary left op right => do
    let l ← flatten left
    let r ← flatten right
    define (.binary · l r op)
  | .unary op right => do
    let r ← flatten right
    define (.unary · op r)
  | .call callee args => do
    let call ← newRegister .fourth
    let reg ← newRegister .fourth
    flattenArgs reg call args
    emit (.call (← ofExcept (calleeName .fourth callee)) (.name call))
    define .result
  | .index obj idx => do
    let o ← flatten obj
    let i ← flatten idx
    define (.index · o i)
  | .slice obj start stop => do
    let o ← flatten obj
    let reg ← newRegister .fourth
    let from' ← if start.given then flatten start else pure .nothing
    let upto ← if stop.given then flatten stop else pure .nothing
    emit (.slice (.name reg) o (if from'.present then from' else .nothing) (if upto.present then upto else .nothing))
    return .name reg
  | .assign left _ right => do
    let l ← flatten left
    emit (.assign l (← flatten right))
    return Operand.ofNode left
  | .append obj value => do
    let o ← flatten obj
    emit (.append o (← flatten value) (.name "end"))
    return .nothing
  | .ret value => do
    emit (.ret (← flatten value))
    return .nothing
  | .ifThen cond body => do
    let c ← flatten cond
    let otherwise ← newLabel .fourth ""
    openChain (← newLabel .fourth "")
    emit (.branch (.name otherwise) c)
    flattenBody body
    emit (.goto (.name (← chainEnd)))
    mark otherwise
    markChain
    return .nothing
  | .elifThen cond body => do
    moveSpot (← aside do
      let c ← flatten cond
      let otherwise ← newLabel .fourth ""
      emit (.elseBranch (.name otherwise) c)
      flattenBody body
      emit (.goto (.name (← chainEnd)))
      mark otherwise)
    return .nothing
  | .elseThen body => do
    let _ ← aside (flattenBody body)
    closeChain
    return .nothing
  | .whileDo cond body => do
    let again ← newLabel .fourth "WHILE"
    let done ← newLabel .fourth ""
    mark again
    emit (.branch (.name done) (← flatten cond))
    flattenBody body
    emit (.goto (.name again))
    mark done
    return .nothing
  | .range stop start step => do
    let startReg ← newRegister .fourth
    let stopReg ← newRegister .fourth
    let stepReg ← newRegister .fourth
    emit (.loopStart (.name startReg) (← if start.given then flatten start else define (.literal · (.int 0))))
    emit (.loopStop (.name stopReg) (← flatten stop))
    emit (.loopStep (.name stepReg) (← if step.given then flatten step else define (.literal · (.int 1))))
    return .names [startReg, stepReg, stopReg]
  | .forRange var range body => do
    let bounds ← flatten range
    let again ← newLabel .fourth "FORRANGE"
    let done ← newLabel .fourth ""
    mark again
    emit (.assign (← flatten var) (← ofExcept (bounds.part 0)))
    let cond ← newRegister .fourth
    emit (.binary (.name cond) (← flatten var) (← ofExcept (bounds.part 2)) "<")
    emit (.branch (.name done) (.name cond))
    flattenBody body
    emit (.goto (.name again))
    mark done
    return .nothing
  | .forEach var coll body => do
    let c ← flatten coll
    let length ← newRegister .fourth
    emit (.length (.name length) c)
    let idx ← newRegister .fourth
    emit (.literal (.name idx) (.int 1))
    let again ← newLabel .fourth "FORLIST"
    let done ← newLabel .fourth ""
    mark again
    let cond ← newRegister .fourth
    emit (.loopVar (← flatten var))
    emit (.index (← flatten var) c (.name idx))
    emit (.branch (.name done) (.name cond))
    flattenBody body
    emit (.goto (.name again))
    mark done
    return .nothing
  | .funDef name params body _ => do
    let skip ← emitHead name params
    flattenBody body
    mark skip
    return .nothing
  | _ => throw .noPart

/-- The code of a block. -/
def flattenBody : Node → LogM Unit
  | .block items => flattenAll items
  | _ => throw .noPart

/-- The code of statements. -/
def flattenAll : List Node → LogM Unit
  | [] => pure ()
  | n :: rest => do
    let _ ← flatten n
    flattenAll rest

/-- The code of elements or arguments, with an instruction `i` for each of them. -/
def flattenEach (i : Operand → Instr) : List Node → LogM Unit
  | [] => pure ()
  | n :: rest => do
    emit (i (← flatten n))
    flattenEach i rest

/-- The code of the arguments of a call. -/
def flattenArgs (reg call : String) : Node → LogM Unit
  | .args (some items) | .params (some items) | .block items => do
    emit (.args (.name reg) (.name call) items.length)
    flattenEach .arg items
  | .args none | .params none => emit (.args (.name reg) (.name call) 0)
  | _ => throw .noPart

end

end Logged

variable {α β : Type} {s s' : Flat} {l l' : List Instr} {x x' : LogM α} {y y' : FlatM α} {f : α → LogM β}
  {g : α → FlatM β} {ok : Prop} {owed owed' : List String} {i : Instr} {r : String}

/-! ## The log is the code, and registers are defined once -/

/-- From one state to another these instructions are passed on: they are in the code, wherever they were put, and
a register is defined only with a right to it, one for each time: those that are owed and those to the registers
that are taken; this last if the names are `ok`. -/
structure Spends (ok : Prop) (owed : List String) (s s' : Flat) (passed : List Instr) : Prop where
  code : s'.code.Perm (s.code ++ passed)
  registers : s.registers ≤ s'.registers
  count : ok → ∀ n, definitions (reg n) passed ≤
    owed.count (reg n) + if s.registers < n ∧ n ≤ s'.registers then 1 else 0

/-- A step never fails without saying anything. -/
def Loud (x : FlatM α) : Prop := ∀ ⦃s fault s'⦄, x.run s = .error fault s' → fault.isSilent = false

/-- The first step is the second one with a log; it spends what is owed and does not fail in silence. -/
structure Follows (ok : Prop) (owed : List String) (x : LogM α) (y : FlatM α) : Prop where
  erase : ∀ log, Prod.fst <$> x.run log = y
  spends : ∀ ⦃log s a log' s'⦄, (x.run log).run s = .ok (a, log') s' →
    ∃ passed, log' = log ++ passed ∧ Spends ok owed s s' passed
  loud : Loud y

namespace Loud

theorem pure (a : α) : Loud (pure a : FlatM α) := fun _ _ _ h => by cases h

theorem get : Loud (get : FlatM Flat) := fun _ _ _ h => by cases h

theorem modify (f : Flat → Flat) : Loud (modify f : FlatM Unit) := fun _ _ _ h => by cases h

theorem throw (h : fault.isSilent = false) : Loud (throw fault : FlatM α) := fun _ _ _ hrun => by cases hrun; exact h

theorem bind (hy : Loud y) (hg : ∀ a, Loud (g a)) : Loud (y >>= g) := by
  intro s fault s' h
  rw [EStateM.run_bind] at h
  split at h
  · exact hg _ h
  case h_2 hrun =>
    cases h
    exact hy hrun

end Loud

theorem erase_bind (hx : ∀ log, Prod.fst <$> x.run log = y) (hf : ∀ a log, Prod.fst <$> (f a).run log = g a)
    (log : List Instr) : Prod.fst <$> (x >>= f).run log = y >>= g := by
  rw [StateT.run_bind, map_bind]
  simp only [hf]
  rw [← hx log, bind_map_left]

/-- Splicing puts code between two parts of the other. -/
theorem perm_of_splice {n : Nat} (h : (splice old).run s = .ok n s') :
    s'.code.Perm (old ++ s.code) ∧ s'.registers = s.registers := by
  have h := of_run_bind_ok h rfl
  split at h
  · cases h
  · cases h
    exact ⟨perm_insert .., rfl⟩

/-- States with the same code and registers. -/
def Untouched (s s' : Flat) : Prop := s'.code = s.code ∧ s'.registers = s.registers

instance : Std.Refl Untouched := ⟨fun _ => ⟨rfl, rfl⟩⟩

instance : IsTrans Flat Untouched := ⟨fun _ _ _ h h' => ⟨h'.1.trans h.1, h'.2.trans h.2⟩⟩

theorem untouched_modify {g : Flat → Flat} (h : ∀ s, Untouched s (g s)) : Along Untouched (modify g : FlatM Unit) := by
  rintro s _ _ ⟨⟩
  exact h s

/-- No identifier is the name of a register, and a loop over a collection has an identifier as its variable. -/
def Named : Node → Prop
  | .ident x => ¬ IsReg x
  | .forEach var _ _ => ∃ x, var = .ident x
  | _ => True

theorem functionWord_loud (name : Node) (fault : Fault) (h : functionWord .fourth name = .error fault) :
    fault.isSilent = false := by
  unfold functionWord Node.nameText at h
  repeat' split at h
  all_goals cases h
  all_goals rfl

theorem parts_loud (n : Node) (fault : Fault) (h : n.parts = .error fault) : fault.isSilent = false := by
  cases n <;> cases h <;> rfl

theorem part_loud (o : Operand) (i : Nat) (fault : Fault) (h : o.part i = .error fault) : fault.isSilent = false := by
  unfold Operand.part at h
  repeat' split at h
  all_goals cases h
  all_goals rfl

theorem calleeName_loud (callee : Node) (fault : Fault) (h : calleeName .fourth callee = .error fault) :
    fault.isSilent = false := by
  unfold calleeName at h
  repeat' split at h
  all_goals cases h
  all_goals rfl

namespace Follows

theorem mono {ok' : Prop} (hok : ok' → ok) (howed : owed'.Subperm owed) (h : Follows ok owed' x y) :
    Follows ok' owed x y where
  erase := h.erase
  spends _ _ _ _ _ hrun := by
    obtain ⟨passed, hlog, hs⟩ := h.spends hrun
    have hle := fun n => howed.count_le (reg n)
    exact ⟨passed, hlog, hs.code, hs.registers, fun h n => (hs.count (hok h) n).trans (Nat.add_le_add_right (hle n) _)⟩
  loud := h.loud

theorem andThen (hx : Follows ok owed x y) (hf : ∀ a, Follows ok owed' (f a) (g a)) :
    Follows ok (owed ++ owed') (x >>= f) (y >>= g) where
  erase := erase_bind hx.erase fun a => (hf a).erase
  spends log s b log' s' hrun := by
    obtain ⟨⟨a, log1⟩, s1, h1, h2⟩ := of_run_bind hrun
    obtain ⟨passed, rfl, hs⟩ := hx.spends h1
    obtain ⟨passed', rfl, hs'⟩ := (hf a).spends h2
    refine ⟨passed ++ passed', List.append_assoc .., ?_, hs.registers.trans hs'.registers, fun hok n => ?_⟩
    · rw [← List.append_assoc]
      exact hs'.code.trans (hs.code.append_right _)
    · have h := hs.count hok n
      have h' := hs'.count hok n
      have hle := hs.registers
      have hle' := hs'.registers
      rw [definitions, countP_append, count_append]
      unfold definitions at h h'
      split at h <;> split at h' <;> split <;> omega
  loud := hx.loud.bind fun a => (hf a).loud

theorem bind (hx : Follows ok [] x y) (hf : ∀ a, Follows ok owed (f a) (g a)) : Follows ok owed (x >>= f) (y >>= g) :=
  andThen hx hf

theorem pure (a : α) : Follows ok owed (pure a) (pure a) where
  erase _ := rfl
  spends log s _ _ _ hrun := by
    cases hrun
    exact ⟨[], by simp, by simp, le_rfl, by simp [definitions]⟩
  loud := .pure a

theorem throw {fault : Fault} (h : fault.isSilent = false) : Follows ok owed (throw fault : LogM α) (throw fault) where
  erase _ := rfl
  spends _ _ _ _ _ hrun := by cases hrun
  loud := .throw h

theorem ofExcept {x : Except Fault α} (h : ∀ fault, x = .error fault → fault.isSilent = false) :
    Follows ok owed (MonadExcept.ofExcept x) (MonadExcept.ofExcept x) := by
  cases x with
  | ok a => exact .pure a
  | error fault => exact .throw (h fault rfl)

theorem lift (h : Along Untouched y) (hloud : Loud y) : Follows ok owed (liftM y) y where
  erase log := by simp
  spends log s a log' s' hrun := by
    obtain ⟨a, s1, h1, h2⟩ := of_run_bind hrun
    cases h2
    obtain ⟨hcode, hregs⟩ := h h1
    exact ⟨[], by simp, by simp [hcode], hregs.ge, by simp [definitions]⟩
  loud := hloud

/-- Taking a register gives the right to define it. -/
theorem take {f : String → LogM β} {g : String → FlatM β} (hf : ∀ r, Follows ok (r :: owed) (f r) (g r)) :
    Follows ok owed (liftM (newRegister .fourth) >>= f) (newRegister .fourth >>= g) where
  erase := erase_bind (fun _ => by simp) fun r => (hf r).erase
  spends log s b log' s' hrun := by
    obtain ⟨passed, rfl, hs⟩ := (hf (reg (s.registers + 1))).spends (of_run_bind_ok hrun rfl)
    have hle := hs.registers
    refine ⟨passed, rfl, hs.code, by simp only at hle; omega, fun hok n => ?_⟩
    have h := hs.count hok n
    have hreg : (reg (s.registers + 1) == reg n) = true ↔ s.registers + 1 = n := by rw [beq_iff_eq, reg_inj]
    dsimp only at hle h
    simp only [count_cons, hreg] at h
    split at h <;> split at h <;> split <;> omega
  loud := .bind (.bind (.modify _) fun _ => .bind .get fun _ => .pure _) fun r => (hf r).loud

/-- Passing an instruction on, with the rights that it uses up. -/
theorem emit (hi : ok → ∀ n, definitions (reg n) [i] ≤ owed.count (reg n)) :
    Follows ok owed (Logged.emit i) (Flat.emit i) where
  erase _ := rfl
  spends log s _ _ _ hrun := by
    cases hrun
    exact ⟨[i], rfl, .refl _, le_rfl, fun hok n => (hi hok n).trans (Nat.le_add_right ..)⟩
  loud := .modify _

theorem last (hi : i.defined? = some (.name r)) : Follows ok [r] (Logged.emit i) (Flat.emit i) :=
  .emit fun _ n => by simp [definitions, countP_cons, hi, Operand.same, count_cons]

/-- An instruction that defines nothing. -/
theorem plain (hi : i.defined? = none) : Follows ok owed (Logged.emit i) (Flat.emit i) :=
  .emit fun _ n => by simp [definitions, hi]

theorem pass {f : Unit → LogM β} {g : Unit → FlatM β} (hi : i.defined? = none)
    (hf : ∀ u, Follows ok owed (f u) (g u)) : Follows ok owed (Logged.emit i >>= f) (Flat.emit i >>= g) :=
  bind (plain hi) hf

/-- Defining a register uses the right to it up. -/
theorem spend {f : Unit → LogM β} {g : Unit → FlatM β} (hi : i.defined? = some (.name r))
    (hf : ∀ u, Follows ok owed (f u) (g u)) : Follows ok (r :: owed) (Logged.emit i >>= f) (Flat.emit i >>= g) :=
  andThen (last hi) hf

theorem define {i : Operand → Instr} (hi : ∀ o, (i o).defined? = some o) :
    Follows ok [] (Logged.define i) (do
      let reg ← newRegister .fourth
      Flat.emit (i (.name reg))
      Pure.pure (.name reg)) := .take fun _ => .spend (hi _) fun _ => .pure _

/-- Code that is made apart may define what it has a right to. -/
theorem aside {x : LogM Unit} {y : FlatM Unit} (h : Follows ok [] x y) :
    Follows ok [] (Logged.aside x) (do let old ← setAside; y; splice old) where
  erase := erase_bind (fun _ => by simp) fun _ => erase_bind h.erase fun _ _ => by simp
  spends log s n log' s' hrun := by
    obtain ⟨⟨_, log1⟩, s1, h1, h2⟩ := of_run_bind hrun
    obtain ⟨passed, rfl, hs⟩ := h.spends h1
    obtain ⟨_, s2, h3, h4⟩ := of_run_bind h2
    cases h4
    obtain ⟨hcode, hregs⟩ := perm_of_splice h3
    exact ⟨passed, rfl, hcode.trans (hs.code.append_left _), hregs ▸ hs.registers, fun hok n => hregs ▸ hs.count hok n⟩
  loud := by
    refine .bind (.bind .get fun _ => .bind (.modify _) fun _ => .pure _) fun _ => h.loud.bind fun _ => .bind .get fun s => ?_
    split
    · exact .throw rfl
    · exact .bind (.modify _) fun _ => .pure _

theorem choose {c : Prop} [Decidable c] (h : Follows ok [] x y) (h' : Follows ok [] x' y')
    (hf : ∀ a, Follows ok owed (f a) (g a)) :
    Follows ok owed (if c then x >>= f else x' >>= f) (if c then y >>= g else y' >>= g) := by
  split
  · exact h.bind hf
  · exact h'.bind hf

/-- What is under a tree is named as the tree is. -/
theorem part {m n : Node} (j : Nat) (hm : n.children[j]? = some m) (h : Follows (m.Throughout Named) owed x y) :
    Follows (n.Throughout Named) owed x y := h.mono (fun hn => hn.part j hm) (.refl _)

theorem sub {m n : Node} (j : Nat) (hm : n.children[j]? = some m) (h : Follows (m.Throughout Named) [] x y)
    (hf : ∀ a, Follows (n.Throughout Named) owed (f a) (g a)) : Follows (n.Throughout Named) owed (x >>= f) (y >>= g) :=
  .bind (h.part j hm) hf

/-- The items of a tree are named as the tree is. -/
theorem children {n : Node} (h : Follows (∀ m ∈ n.children, m.Throughout Named) owed x y) :
    Follows (n.Throughout Named) owed x y := h.mono (fun hn _ hm => hn.child hm) (.refl _)

theorem cons {n : Node} {rest : List Node} (h : Follows (n.Throughout Named) [] x y)
    (hf : ∀ a, Follows (∀ m ∈ rest, m.Throughout Named) owed (f a) (g a)) :
    Follows (∀ m ∈ n :: rest, m.Throughout Named) owed (x >>= f) (y >>= g) :=
  .bind (h.mono (fun h => h n (.head _)) (.refl _)) fun a => (hf a).mono (fun h m hm => h m (.tail _ hm)) (.refl _)

theorem modify {g : Flat → Flat} (h : ∀ s, Untouched s (g s)) : Follows ok [] (liftM (modify g : FlatM Unit)) (modify g) :=
  .lift (untouched_modify h) (.modify g)

theorem newLabel (what : String) : Follows ok [] (liftM (newLabel .fourth what)) (newLabel .fourth what) :=
  .lift (.bind (untouched_modify fun _ => ⟨rfl, rfl⟩) fun _ => .bind .get fun _ => .pure _)
    (.bind (.modify _) fun _ => .bind .get fun _ => .pure _)

theorem chainEnd : Follows ok [] (liftM chainEnd) chainEnd := by
  refine .lift (.bind .get fun s => ?_) (.bind .get fun s => ?_) <;> split
  · exact .throw _
  · exact .pure _
  · exact .throw rfl
  · exact .pure _

theorem closeChain : Follows ok [] (liftM closeChain) closeChain := by
  refine .lift (.bind (untouched_modify fun _ => ⟨rfl, rfl⟩) fun _ => .bind .get fun s => ?_)
    (.bind (.modify _) fun _ => .bind .get fun s => ?_) <;> split
  · exact .throw _
  · exact untouched_modify fun _ => ⟨rfl, rfl⟩
  · exact .throw rfl
  · exact .modify _

theorem markChain : Follows ok [] Logged.markChain markChain :=
  .bind (.modify fun _ => ⟨rfl, rfl⟩) fun _ => chainEnd.bind fun _ => .plain rfl

theorem emitChars : (cs : List Char) → Follows ok [] (Logged.emitChars cs) (emitChars .fourth cs)
  | [] => .pure _
  | _ :: rest => .take fun _ => .spend rfl fun _ => emitChars rest

theorem emitLiteral (kind : String) (value : Atom) :
    Follows ok [] (Logged.emitLiteral kind value) (emitLiteral .fourth kind value) := by
  refine .take fun r => ?_
  by_cases hkind : kind == "str"
  · rw [if_pos hkind, if_pos hkind]
    cases value with
    | text s => exact .spend rfl fun _ => (emitChars _).bind fun _ => .pure _
    | _ => exact .bind (.throw rfl) fun _ => .pure _
  · rw [if_neg hkind, if_neg hkind]
    exact .spend rfl fun _ => .pure _

theorem emitParams : (items : List Node) → Follows ok [] (Logged.emitParams items) (emitParams .fourth items)
  | [] => .pure _
  | p :: rest => .take fun r => by
    cases p with
    | param type var => exact .spend rfl fun _ => emitParams rest
    | _ => exact .bind (.throw rfl) fun _ => .mono id nil_subperm (emitParams rest)

theorem emitHead (name params : Node) : Follows ok [] (Logged.emitHead name params) (emitHead .fourth name params) :=
  (newLabel _).bind fun _ => .pass rfl fun _ => .bind (.ofExcept (functionWord_loud name)) fun _ =>
    (newLabel _).bind fun _ => .pass rfl fun _ => .take fun _ => .bind (.ofExcept (parts_loud params)) fun items =>
      .spend rfl fun _ => (emitParams items).bind fun _ => .pure _

/-- The place of an index is a variable if the loop is as it should be, and then no register. -/
theorem eachIndex {var coll body : Node} {k : Unit → LogM β} {k' : Unit → FlatM β}
    (hvar : Follows (var.Throughout Named) [] (Logged.flatten var) (flatten .fourth var)) (c idx : Operand)
    (hk : ∀ u, Follows ((.forEach var coll body : Node).Throughout Named) owed (k u) (k' u)) :
    Follows ((.forEach var coll body : Node).Throughout Named) owed
      (do let v ← Logged.flatten var; Logged.emit (.index v c idx) >>= k)
      (do let v ← flatten .fourth var; Flat.emit (.index v c idx) >>= k') := by
  by_cases h : (.forEach var coll body : Node).Throughout Named
  · obtain ⟨x, rfl⟩ := h.here
    have hx : ∀ n, x ≠ reg n := fun n hn => (h.part 0 rfl).here ⟨n, hn⟩
    rw [Logged.flatten, flatten, pure_bind]
    exact .bind (.emit fun _ n => by simp [definitions, Operand.same, hx n]) hk
  · exact .sub 0 rfl hvar fun _ => .bind (.emit fun h' => absurd h' h) hk

end Follows

theorem flatten_elifThen (cond body : Node) :
    flatten .fourth (.elifThen cond body) = (do
      let n ← (do
        let old ← setAside
        (do
          let c ← flatten .fourth cond
          let otherwise ← newLabel .fourth ""
          emit (.elseBranch (.name otherwise) c)
          flattenBody .fourth body
          jump (← chainEnd)
          mark otherwise)
        splice old)
      moveSpot n
      return .nothing) := by
  rw [flatten]
  simp only [bind_assoc]

theorem flatten_elseThen (body : Node) :
    flatten .fourth (.elseThen body) = (do
      let _ ← (do let old ← setAside; flattenBody .fourth body; splice old)
      closeChain
      return .nothing) := by
  rw [flatten]
  simp only [bind_assoc]

mutual

theorem follows_flatten : (n : Node) → Follows (n.Throughout Named) [] (Logged.flatten n) (flatten .fourth n)
  | .ident name => .pure _
  | .literal kind value => .emitLiteral kind value
  | .collection kind items => .take fun _ => .spend rfl fun _ =>
    .bind (.children (follows_flattenElements items)) fun _ => .pure _
  | .binary left op right | .index left right =>
    .sub 0 rfl (follows_flatten left) fun _ => .sub 1 rfl (follows_flatten right) fun _ => .define fun _ => rfl
  | .unary op right => .sub 0 rfl (follows_flatten right) fun _ => .define fun _ => rfl
  | .call callee args =>
    -- The right to the other register of a call is not used.
    .take fun call => .take fun reg => .andThen (.part 1 rfl (follows_flattenArgs reg call args)) fun _ =>
      .mono id nil_subperm (.bind (.ofExcept (calleeName_loud callee)) fun _ => .pass rfl fun _ => .define fun _ => rfl)
  | .slice obj start stop =>
    .sub 0 rfl (follows_flatten obj) fun _ => .take fun _ =>
      .choose (.part 1 rfl (follows_flatten start)) (.pure _) fun _ =>
        .choose (.part 2 rfl (follows_flatten stop)) (.pure _) fun _ => .spend rfl fun _ => .pure _
  | .assign left _ right | .append left right =>
    .sub 0 rfl (follows_flatten left) fun _ => .sub 1 rfl (follows_flatten right) fun _ => .pass rfl fun _ => .pure _
  | .ret value => .sub 0 rfl (follows_flatten value) fun _ => .pass rfl fun _ => .pure _
  | .ifThen cond body =>
    .sub 0 rfl (follows_flatten cond) fun _ => .bind (.newLabel _) fun _ => .bind (.newLabel _) fun _ =>
      .bind (.modify fun _ => ⟨rfl, rfl⟩) fun _ => .pass rfl fun _ => .sub 1 rfl (follows_flattenBody body) fun _ =>
        .bind .chainEnd fun _ => .pass rfl fun _ => .pass rfl fun _ => .bind .markChain fun _ => .pure _
  | .elifThen cond body => by
    rw [flatten_elifThen]
    refine .bind (.aside ?_) fun _ => .bind (.modify fun _ => ⟨rfl, rfl⟩) fun _ => .pure _
    exact .sub 0 rfl (follows_flatten cond) fun _ => .bind (.newLabel _) fun _ => .pass rfl fun _ =>
      .sub 1 rfl (follows_flattenBody body) fun _ => .bind .chainEnd fun _ => .pass rfl fun _ => .plain rfl
  | .elseThen body => by
    rw [flatten_elseThen]
    exact .bind (.aside (.part 0 rfl (follows_flattenBody body))) fun _ => .bind .closeChain fun _ => .pure _
  | .whileDo cond body =>
    .bind (.newLabel _) fun _ => .bind (.newLabel _) fun _ => .pass rfl fun _ => .sub 0 rfl (follows_flatten cond) fun _ =>
      .pass rfl fun _ => .sub 1 rfl (follows_flattenBody body) fun _ => .pass rfl fun _ => .pass rfl fun _ => .pure _
  | .range stop start step =>
    .take fun a => .take fun b => .take fun c => .mono id (reverse_perm [a, b, c]).symm.subperm <|
      .choose (.part 1 rfl (follows_flatten start)) (.define fun _ => rfl) fun _ => .spend rfl fun _ =>
        .sub 0 rfl (follows_flatten stop) fun _ => .spend rfl fun _ =>
          .choose (.part 2 rfl (follows_flatten step)) (.define fun _ => rfl) fun _ => .spend rfl fun _ => .pure _
  | .forRange var range body =>
    .sub 1 rfl (follows_flatten range) fun _ => .bind (.newLabel _) fun _ => .bind (.newLabel _) fun _ =>
      .pass rfl fun _ => .sub 0 rfl (follows_flatten var) fun _ => .bind (.ofExcept (part_loud _ _)) fun _ =>
        .pass rfl fun _ => .take fun _ => .sub 0 rfl (follows_flatten var) fun _ =>
          .bind (.ofExcept (part_loud _ _)) fun _ => .spend rfl fun _ => .pass rfl fun _ =>
            .sub 2 rfl (follows_flattenBody body) fun _ => .pass rfl fun _ => .pass rfl fun _ => .pure _
  | .forEach var coll body =>
    .sub 1 rfl (follows_flatten coll) fun _ => .take fun _ => .spend rfl fun _ => .take fun _ => .spend rfl fun _ =>
      .bind (.newLabel _) fun _ => .bind (.newLabel _) fun _ => .pass rfl fun _ => .take fun _ =>
        .mono id nil_subperm <| .sub 0 rfl (follows_flatten var) fun _ => .pass rfl fun _ =>
          .eachIndex (follows_flatten var) _ _ fun _ => .pass rfl fun _ => .sub 2 rfl (follows_flattenBody body) fun _ =>
            .pass rfl fun _ => .pass rfl fun _ => .pure _
  | .funDef name params body _ =>
    .bind (.emitHead name params) fun _ => .sub 2 rfl (follows_flattenBody body) fun _ => .pass rfl fun _ => .pure _
  | .atom _ | .list _ | .type _ | .shape _ | .expression _ | .param .. | .params _ | .args _ | .block _ => .throw rfl

theorem follows_flattenBody (n : Node) :
    Follows (n.Throughout Named) [] (Logged.flattenBody n) (flattenBody .fourth n) := by
  cases n with
  | block items => exact .children (follows_flattenAll items)
  | _ => exact .throw rfl

theorem follows_flattenAll : (items : List Node) →
    Follows (∀ m ∈ items, m.Throughout Named) [] (Logged.flattenAll items) (flattenAll .fourth items)
  | [] => .pure _
  | n :: rest => .cons (follows_flatten n) fun _ => follows_flattenAll rest

theorem follows_flattenElements : (items : List Node) →
    Follows (∀ m ∈ items, m.Throughout Named) [] (Logged.flattenEach .element items) (flattenElements .fourth items)
  | [] => .pure _
  | n :: rest => .cons (follows_flatten n) fun _ => .pass rfl fun _ => follows_flattenElements rest

theorem follows_flattenArgs (reg call : String) (n : Node) :
    Follows (n.Throughout Named) [reg] (Logged.flattenArgs reg call n) (flattenArgs .fourth reg call n) := by
  cases n with
  | args items | params items =>
    cases items with
    | none => exact .last rfl
    | some items => exact .spend rfl fun _ => .children (follows_flattenArgList items)
  | block items => exact .spend rfl fun _ => .children (follows_flattenArgList items)
  | _ => exact .throw rfl

theorem follows_flattenArgList : (items : List Node) →
    Follows (∀ m ∈ items, m.Throughout Named) [] (Logged.flattenEach .arg items) (flattenArgList .fourth items)
  | [] => .pure _
  | n :: rest => .cons (follows_flatten n) fun _ => .pass rfl fun _ => follows_flattenArgList rest

end

/-! ## Main result -/

/-- Flattening with a log is flattening, and however deep the chains of conditions are, the code is what was
passed on, each instruction as often as it was, in some order. With names as they should be, every register is
defined at most once. -/
theorem splicing_keeps_code (nodes : List Node) (code : List Instr) (h : ofProgram .fourth nodes = .ok code) :
    (∀ log, Prod.fst <$> (Logged.flattenAll nodes).run log = flattenAll .fourth nodes) ∧
      (∃ passed s, ((Logged.flattenAll nodes).run []).run empty = .ok ((), passed) s ∧ s.code = code ∧
        code.Perm passed) ∧
      ((∀ n ∈ nodes, n.Throughout Named) → ∀ n, definitions (registerName .fourth n) code ≤ 1) := by
  have hfollows := follows_flattenAll nodes
  obtain ⟨s, hrun, rfl⟩ : ∃ s, (flattenAll .fourth nodes).run empty = .ok () s ∧ s.code = code := by
    rw [ofProgram] at h
    split at h
    · exact ⟨_, by assumption, Except.ok.inj h⟩
    · cases h
  obtain ⟨passed, hlogged⟩ : ∃ passed, ((Logged.flattenAll nodes).run []).run empty = .ok ((), passed) s := by
    rw [← hfollows.erase []] at hrun
    obtain ⟨⟨_, passed⟩, _, hlogged, hs⟩ := of_run_bind hrun
    cases hs
    exact ⟨passed, hlogged⟩
  obtain ⟨_, rfl, hs⟩ := hfollows.spends hlogged
  refine ⟨hfollows.erase, ⟨_, s, hlogged, rfl, hs.code⟩, fun hok n => ?_⟩
  calc definitions (reg n) s.code = definitions (reg n) _ := hs.code.countP_eq _
    _ ≤ [].count (reg n) + if empty.registers < n ∧ n ≤ s.registers then 1 else 0 := hs.count hok n
    _ ≤ 1 := by split <;> simp

theorem splicing_keeps_code_ladder : ∃ code, ofProgram .fourth ladder = .ok code ∧
    (∃ passed s, ((Logged.flattenAll ladder).run []).run empty = .ok ((), passed) s ∧ code.Perm passed) ∧
    ∀ n, definitions (registerName .fourth n) code ≤ 1 := by
  have hok : (ofProgram .fourth ladder).isOk = true := by decide +kernel
  have hnames : ∀ n ∈ ladder, n.Throughout Named := by
    have hx : ¬ IsReg "x" := fun h => absurd h.head (by decide)
    have hf : ¬ IsReg "f" := fun h => absurd h.head (by decide)
    simp [ladder, Node.Throughout, Node.descendants, Node.descendantsAll, Node.descendantsOption, Named, hx, hf]
  cases hcode : ofProgram .fourth ladder with
  | ok code =>
    obtain ⟨-, ⟨passed, s, hrun, -, hperm⟩, hdefinitions⟩ := splicing_keeps_code ladder code hcode
    exact ⟨code, rfl, ⟨passed, s, hrun, hperm⟩, hdefinitions hnames⟩
  | error fault =>
    rw [hcode] at hok
    cases hok

end Flat

end Tabc
