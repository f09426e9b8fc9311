import Tabc.Code.Flatten
import Tabc.Proofs.Parsing.Places

/-!
# The code of the third and the fourth edition

Apart from loops over the elements of a collection and slices, the two editions differ in the names of
registers only (`ofProgram_third_fourth`).
-/

open List

namespace Tabc

/-- An instruction with other operands, in the order of its fields. Instructions that only loops over
collections and slices need stay as they are. -/
def Instr.withOperands : Instr → List Operand → Instr
  | .label _, [a] => .label a
  | .goto _, [a] => .goto a
  | .literal _ value, [a] => .literal a value
  | .binary _ _ _ op, [a, b, c] => .binary a b c op
  | .unary _ op _, [a, b] => .unary a op b
  | .call _ _, [a, b] => .call a b
  | .result _, [a] => .result a
  | .ret _, [a] => .ret a
  | .branch _ _, [a, b] => .branch a b
  | .elseBranch _ _, [a, b] => .elseBranch a b
  | .assign _ _, [a, b] => .assign a b
  | .collection _ op size, [a] => .collection a op size
  | .element _, [a] => .element a
  | .loopStart _ _, [a, b] => .loopStart a b
  | .loopStop _ _, [a, b] => .loopStop a b
  | .loopStep _ _, [a, b] => .loopStep a b
  | .string _ size, [a] => .string a size
  | .char _ value, [a] => .char a value
  | .params _ size, [a] => .params a size
  | .param _ _, [a, b] => .param a b
  | .args _ _ size, [a, b] => .args a b size
  | .arg _, [a] => .arg a
  | .append _ _ _, [a, b, c] => .append a b c
  | .index _ _ _, [a, b, c] => .index a b c
  | i, _ => i

namespace Flat

open Node (Throughout)

/-- An operand before registers have names. -/
inductive Slot where
  /-- What stands in the program, or a label. -/
  | given (o : Operand)
  | register (n : Nat)
  /-- The registers for the bounds of a range. -/
  | bounds (start step stop : Nat)

def Slot.operand (e : Edition) : Slot → Operand
  | .given o => o
  | .register n => .name (registerName e n)
  | .bounds start step stop => .names [registerName e start, registerName e step, registerName e stop]

/-- An instruction before registers have names. -/
structure Draft where
  instr : Instr
  slots : List Slot

def Draft.write (e : Edition) (d : Draft) : Instr := d.instr.withOperands (d.slots.map (Slot.operand e))

/-- Code of the third and of the fourth edition with a common draft. -/
def CodeAlike (code code' : List Instr) : Prop :=
  ∃ drafts : List Draft, code = drafts.map (Draft.write .third) ∧ code' = drafts.map (Draft.write .fourth)

theorem CodeAlike.append (h : CodeAlike a a') (h' : CodeAlike b b') : CodeAlike (a ++ b) (a' ++ b') := by
  obtain ⟨ds, rfl, rfl⟩ := h
  obtain ⟨ds', rfl, rfl⟩ := h'
  exact ⟨ds ++ ds', by simp, by simp⟩

theorem CodeAlike.splice (h : CodeAlike old old') (hnew : CodeAlike new new') (spot : Nat) :
    CodeAlike (old.take spot ++ new ++ old.drop spot) (old'.take spot ++ new' ++ old'.drop spot) := by
  obtain ⟨ds, rfl, rfl⟩ := h
  have htake : CodeAlike ((ds.map (Draft.write .third)).take spot)
      ((ds.map (Draft.write .fourth)).take spot) := ⟨ds.take spot, by simp, by simp⟩
  have hdrop : CodeAlike ((ds.map (Draft.write .third)).drop spot)
      ((ds.map (Draft.write .fourth)).drop spot) := ⟨ds.drop spot, by simp, by simp⟩
  exact (htake.append hnew).append hdrop

/-- States that differ in the code only, which has a common draft. -/
inductive Alike : Flat → Flat → Prop
  | intro {code code' : List Instr} (h : CodeAlike code code') (registers labels : Nat)
    (chains : List String) (spots : List Nat) :
    Alike ⟨code, registers, labels, chains, spots⟩ ⟨code', registers, labels, chains, spots⟩

variable {ι κ α β γ δ : Type} {u : ι → α} {v : ι → β} {u' : κ → γ} {v' : κ → δ}

/-- Two runs fail with one fault, or give values for the same draft in states alike. -/
inductive Ends (u : ι → α) (v : ι → β) : EStateM.Result Fault Flat α → EStateM.Result Fault Flat β → Prop
  | ok (i : ι) {s t : Flat} : Alike s t → Ends u v (.ok (u i) s) (.ok (v i) t)
  | error (fault : Fault) (s t : Flat) : Ends u v (.error fault s) (.error fault t)

/-- Two steps that end alike from states alike; `u` and `v` make the values of a draft. -/
def Together (u : ι → α) (v : ι → β) (x : FlatM α) (y : FlatM β) : Prop :=
  ∀ ⦃s t⦄, Alike s t → Ends u v (x.run s) (y.run t)

/-- Two steps that give operands. -/
abbrev Values := Together (Slot.operand .third) (Slot.operand .fourth)

/-- Two steps that give nothing. -/
abbrev Acts := Together (α := Unit) (β := Unit) id id

/-- No loop over a collection and no slice. -/
def isShared : Node → Bool
  | .forEach .. | .slice .. => false
  | _ => true

abbrev Shared : Node → Prop := Throughout (isShared · = true)

namespace Together

theorem pure (i : ι) : Together u v (pure (u i)) (pure (v i)) := fun _ _ h => .ok i h

theorem operand (o : Slot) : Values (Pure.pure (o.operand .third)) (Pure.pure (o.operand .fourth)) := .pure o

theorem throw (fault : Fault) : Together u v (throw fault) (throw fault) := fun s t _ => .error fault s t

theorem bind (hx : Together u v x y) (hf : ∀ i, Together u' v' (f (u i)) (g (v i))) :
    Together u' v' (x >>= f) (y >>= g) := by
  intro s t h
  rw [EStateM.run_bind, EStateM.run_bind]
  have hends := hx h
  generalize x.run s = o, y.run t = o' at hends
  cases hends with
  | ok i h' => exact hf i h'
  | error fault s' t' => exact .error fault s' t'

theorem throw_bind (fault : Fault) (f : α → FlatM γ) (g : β → FlatM δ) :
    Together u' v' (MonadExcept.throw fault >>= f) (MonadExcept.throw fault >>= g) := fun s t _ => .error fault s t

theorem ite {c : Prop} [Decidable c] (hx : Together u v x y)
    (hx' : Together u v x' y') : Together u v (if c then x else x') (if c then y else y') := by
  split
  · exact hx
  · exact hx'

theorem choice {c : Prop} [Decidable c] (hx : Together u v x y) (hx' : Together u v x' y')
    (hf : ∀ i, Together u' v' (f (u i)) (g (v i))) :
    Together u' v' (if c then x >>= f else x' >>= f) (if c then y >>= g else y' >>= g) :=
  .ite (hx.bind hf) (hx'.bind hf)

theorem ofExcept (h : (∃ i, x = .ok (u i) ∧ y = .ok (v i)) ∨ ∃ fault, x = .error fault ∧ y = .error fault) :
    Together u v (MonadExcept.ofExcept x) (MonadExcept.ofExcept y) := by
  obtain ⟨i, rfl, rfl⟩ | ⟨fault, rfl, rfl⟩ := h
  · exact .pure i
  · exact .throw fault

theorem same (x : Except Fault α) : Together (id : α → α) id (MonadExcept.ofExcept x) (MonadExcept.ofExcept x) := by
  cases x with
  | ok a => exact .pure a
  | error fault => exact .throw fault

theorem emit (d : Draft) : Acts (Flat.emit (d.write .third)) (Flat.emit (d.write .fourth)) := by
  rintro _ _ ⟨h, r, l, cs, ps⟩
  exact .ok () (.intro (h.append ⟨[d], rfl, rfl⟩) r l cs ps)

theorem newRegister : Together (registerName .third) (registerName .fourth)
    (Flat.newRegister .third) (Flat.newRegister .fourth) := by
  rintro _ _ ⟨h, r, l, cs, ps⟩
  exact .ok (r + 1) (.intro h (r + 1) l cs ps)

theorem newLabel (what : String) : Together (id : String → String) id (Flat.newLabel .third what)
    (Flat.newLabel .fourth what) := by
  rintro _ _ ⟨h, r, l, cs, ps⟩
  exact .ok (labelName .fourth what (l + 1)) (.intro h r (l + 1) cs ps)

variable (label : String)

theorem mark : Acts (Flat.mark label) (Flat.mark label) :=
  emit ⟨.label .nothing, [.given (.name label)]⟩

theorem jump : Acts (Flat.jump label) (Flat.jump label) :=
  emit ⟨.goto .nothing, [.given (.name label)]⟩

theorem unlessJump (cond : Slot) :
    Acts (Flat.unlessJump label (cond.operand .third)) (Flat.unlessJump label (cond.operand .fourth)) :=
  emit ⟨.branch .nothing .nothing, [.given (.name label), cond]⟩

theorem chainEnd : Together (id : String → String) id Flat.chainEnd Flat.chainEnd := by
  rintro _ _ ⟨h, r, l, cs, ps⟩
  cases cs with
  | nil => exact .error ..
  | cons c cs => exact .ok c (.intro h r l (c :: cs) ps)

theorem openChain : Acts (Flat.openChain label) (Flat.openChain label) := by
  rintro _ _ ⟨h, r, l, cs, ps⟩
  exact .ok () (.intro h r l (label :: cs) ps)

theorem markChain : Acts Flat.markChain Flat.markChain := by
  have hnote : Acts (modify fun s : Flat => { s with spots := s.code.length :: s.spots })
      (modify fun s : Flat => { s with spots := s.code.length :: s.spots }) := by
    rintro _ _ ⟨⟨ds, rfl, rfl⟩, r, l, cs, ps⟩
    have halike := Alike.intro ⟨ds, rfl, rfl⟩ r l cs (ds.length :: ps)
    exact .ok () (by simpa using halike)
  exact hnote.bind fun _ => chainEnd.bind fun label => mark label

theorem setAside : Together (fun ds : List Draft => ds.map (Draft.write .third))
    (fun ds => ds.map (Draft.write .fourth)) Flat.setAside Flat.setAside := by
  rintro _ _ ⟨⟨ds, rfl, rfl⟩, r, l, cs, ps⟩
  exact .ok ds (.intro ⟨[], rfl, rfl⟩ r l cs ps)

theorem splice (ds : List Draft) : Together (id : Nat → Nat) id
    (Flat.splice (ds.map (Draft.write .third))) (Flat.splice (ds.map (Draft.write .fourth))) := by
  rintro _ _ ⟨⟨new, rfl, rfl⟩, r, l, cs, ps⟩
  cases ps with
  | nil => exact .error ..
  | cons spot ps =>
    have halike := Alike.intro (CodeAlike.splice ⟨ds, rfl, rfl⟩ ⟨new, rfl, rfl⟩ spot) r l cs (spot :: ps)
    have hends := Ends.ok (u := (id : Nat → Nat)) (v := id) new.length halike
    simpa [Flat.splice] using hends

theorem moveSpot (n : Nat) : Acts (Flat.moveSpot n) (Flat.moveSpot n) := by
  rintro _ _ ⟨h, r, l, cs, ps⟩
  exact .ok () (.intro h r l cs _)

theorem closeChain : Acts Flat.closeChain Flat.closeChain := by
  rintro _ _ ⟨h, r, l, cs, ps⟩
  cases cs with
  | nil => exact .error ..
  | cons c cs => exact .ok () (.intro h r l cs ps.tail)

theorem emitChars : ∀ cs : List Char, Acts (Flat.emitChars .third cs) (Flat.emitChars .fourth cs)
  | [] => .pure ()
  | c :: rest => newRegister.bind fun n =>
    (emit ⟨.char .nothing (String.singleton c), [.register n]⟩).bind fun _ => emitChars rest

theorem emitLiteral (kind : String) (value : Atom) :
    Values (Flat.emitLiteral .third kind value) (Flat.emitLiteral .fourth kind value) := by
  refine newRegister.bind fun n => .ite ?_ ?_
  · cases value with
    | text s =>
      exact (emit ⟨.string .nothing s.length, [.register n]⟩).bind fun _ =>
        (emitChars s.toList).bind fun _ => operand (.register n)
    | _ => exact throw_bind ..
  · exact (emit ⟨.literal .nothing value, [.register n]⟩).bind fun _ => operand (.register n)

theorem emitParams : ∀ items : List Node, Acts (Flat.emitParams .third items) (Flat.emitParams .fourth items)
  | [] => .pure ()
  | p :: rest => by
    refine newRegister.bind fun n => ?_
    cases p with
    | param type var =>
      exact (emit ⟨.param .nothing .nothing, [.register n, .given (Operand.ofNode var)]⟩).bind fun _ => emitParams rest
    | _ => exact throw_bind ..

theorem emitHead (name params : Node) : Together (id : String → String) id
    (Flat.emitHead .third name params) (Flat.emitHead .fourth name params) := by
  refine (newLabel "").bind fun skip => (jump skip).bind fun _ => ?_
  refine (same (functionWord .fourth name)).bind fun what => (newLabel what).bind fun label => ?_
  refine (mark label).bind fun _ => newRegister.bind fun n => (same params.parts).bind fun items => ?_
  exact (emit ⟨.params .nothing items.length, [.register n]⟩).bind fun _ => (emitParams items).bind fun _ => .pure skip

theorem defaultBound (value : Int) : Values (Flat.defaultBound .third value) (Flat.defaultBound .fourth value) :=
  newRegister.bind fun n => (emit ⟨.literal .nothing (.int value), [.register n]⟩).bind fun _ => operand (.register n)

theorem part (bounds : Slot) (hi : i = 0 ∨ i = 2) :
    Values (MonadExcept.ofExcept ((bounds.operand .third).part i))
      (MonadExcept.ofExcept ((bounds.operand .fourth).part i)) := by
  refine .ofExcept ?_
  cases bounds with
  | given o =>
    cases hpart : o.part i with
    | ok o' => exact .inl ⟨.given o', hpart, hpart⟩
    | error fault => exact .inr ⟨fault, hpart, hpart⟩
  | register n =>
    have hthird : (registerName .third n).toList = '_' :: 't' :: Nat.toDigits 10 n := by simp [registerName]; rfl
    have hfourth : (registerName .fourth n).toList = '_' :: 't' :: (Nat.toDigits 10 n ++ ['_']) := by
      simp [registerName]; rfl
    obtain ⟨d, ds, hdigits⟩ := exists_cons_of_ne_nil (Nat.toDigits_ne_nil (n := n) (b := 10))
    rcases hi with rfl | rfl
    · exact .inl ⟨.given (.name "_"), by simp [Slot.operand, Operand.part, hthird]; rfl, by simp [Slot.operand, Operand.part, hfourth]; rfl⟩
    · exact .inl ⟨.given (.name (String.singleton d)), by simp [Slot.operand, Operand.part, hthird, hdigits]; rfl,
        by simp [Slot.operand, Operand.part, hfourth, hdigits]; rfl⟩
  | bounds start step stop =>
    rcases hi with rfl | rfl
    · exact .inl ⟨.register start, rfl, rfl⟩
    · exact .inl ⟨.register stop, rfl, rfl⟩

mutual

theorem tree : ∀ n : Node, Shared n → Values (flatten .third n) (flatten .fourth n)
  | .atom _, _ | .list _, _ | .type _, _ | .shape _, _ | .expression _, _ | .param _ _, _ | .params _, _
  | .args _, _ | .block _, _ => by
    exact .throw _
  | .ident name, _ => by
    exact operand (.given (.name name))
  | .literal kind value, _ => by
    exact emitLiteral kind value
  | .collection kind items, h => by
    refine newRegister.bind fun n => ?_
    exact (emit ⟨.collection .nothing _ items.length, [.register n]⟩).bind fun _ =>
      (elements items fun m hm => h.child hm).bind fun _ => operand (.register n)
  | .binary left op right, h => by
    have hl := tree left (h.part 0 rfl)
    have hr := tree right (h.part 1 rfl)
    refine hl.bind fun l => hr.bind fun r => newRegister.bind fun n => ?_
    exact (emit ⟨.binary .nothing .nothing .nothing op, [.register n, l, r]⟩).bind fun _ => operand (.register n)
  | .unary op right, h => by
    have hr := tree right (h.part 0 rfl)
    refine hr.bind fun r => newRegister.bind fun n => ?_
    exact (emit ⟨.unary .nothing op .nothing, [.register n, r]⟩).bind fun _ => operand (.register n)
  | .call callee args, h => by
    have ha := fun reg call => arguments reg call args (h.part 1 rfl)
    refine newRegister.bind fun call => newRegister.bind fun reg => (ha reg call).bind fun _ => ?_
    refine (same (calleeName .fourth callee)).bind fun name => ?_
    refine (emit ⟨.call .nothing .nothing, [.given name, .register call]⟩).bind fun _ => ?_
    exact newRegister.bind fun n => (emit ⟨.result .nothing, [.register n]⟩).bind fun _ => operand (.register n)
  | .index obj idx, h => by
    have ho := tree obj (h.part 0 rfl)
    have hi := tree idx (h.part 1 rfl)
    refine ho.bind fun o => hi.bind fun i => newRegister.bind fun n => ?_
    exact (emit ⟨.index .nothing .nothing .nothing, [.register n, o, i]⟩).bind fun _ => operand (.register n)
  | .assign left _ right, h => by
    have hl := tree left (h.part 0 rfl)
    have hr := tree right (h.part 1 rfl)
    exact hl.bind fun l => hr.bind fun r => (emit ⟨.assign .nothing .nothing, [l, r]⟩).bind fun _ =>
      operand (.given (Operand.ofNode left))
  | .append obj value, h => by
    have ho := tree obj (h.part 0 rfl)
    have hv := tree value (h.part 1 rfl)
    exact ho.bind fun o => hv.bind fun v =>
      (emit ⟨.append .nothing .nothing .nothing, [o, v, .given (.name "end")]⟩).bind fun _ => operand (.given .nothing)
  | .ret value, h => by
    have hv := tree value (h.part 0 rfl)
    exact hv.bind fun v => (emit ⟨.ret .nothing, [v]⟩).bind fun _ => operand (.given .nothing)
  | .ifThen cond body, h => by
    have hc := tree cond (h.part 0 rfl)
    have hb := inside body (h.part 1 rfl)
    refine hc.bind fun c => (newLabel "").bind fun otherwise => (newLabel "").bind fun done => ?_
    refine (openChain done).bind fun _ => (unlessJump otherwise c).bind fun _ => hb.bind fun _ => ?_
    exact chainEnd.bind fun done => (jump done).bind fun _ => (mark otherwise).bind fun _ =>
      markChain.bind fun _ => operand (.given .nothing)
  | .elifThen cond body, h => by
    have hc := tree cond (h.part 0 rfl)
    have hb := inside body (h.part 1 rfl)
    refine setAside.bind fun old => hc.bind fun c => (newLabel "").bind fun otherwise => ?_
    refine (emit ⟨.elseBranch .nothing .nothing, [.given (.name otherwise), c]⟩).bind fun _ => ?_
    refine hb.bind fun _ => chainEnd.bind fun done => (jump done).bind fun _ => ?_
    exact (mark otherwise).bind fun _ => (splice old).bind fun n => (moveSpot n).bind fun _ => operand (.given .nothing)
  | .elseThen body, h => by
    have hb := inside body (h.part 0 rfl)
    exact setAside.bind fun old => hb.bind fun _ => (splice old).bind fun _ => closeChain.bind fun _ =>
      operand (.given .nothing)
  | .whileDo cond body, h => by
    have hc := tree cond (h.part 0 rfl)
    have hb := inside body (h.part 1 rfl)
    refine (newLabel "WHILE").bind fun again => (newLabel "").bind fun done => (mark again).bind fun _ => ?_
    exact hc.bind fun c => (unlessJump done c).bind fun _ => hb.bind fun _ => (jump again).bind fun _ =>
      (mark done).bind fun _ => operand (.given .nothing)
  | .range stop start step, h => by
    have hstop := tree stop (h.part 0 rfl)
    have hstart := tree start (h.part 1 rfl)
    have hstep := tree step (h.part 2 rfl)
    refine newRegister.bind fun a => newRegister.bind fun b => newRegister.bind fun c => ?_
    refine choice hstart (defaultBound 0) fun v => ?_
    refine (emit ⟨.loopStart .nothing .nothing, [.register a, v]⟩).bind fun _ => hstop.bind fun v => ?_
    refine (emit ⟨.loopStop .nothing .nothing, [.register b, v]⟩).bind fun _ => ?_
    refine choice hstep (defaultBound 1) fun v => ?_
    refine (emit ⟨.loopStep .nothing .nothing, [.register c, v]⟩).bind fun _ => ?_
    exact operand (.bounds a c b)
  | .forRange var range body, h => by
    have hv := tree var (h.part 0 rfl)
    have hr := tree range (h.part 1 rfl)
    have hb := inside body (h.part 2 rfl)
    refine hr.bind fun bounds => (newLabel "FORRANGE").bind fun again => (newLabel "").bind fun done => ?_
    refine (mark again).bind fun _ => hv.bind fun v => (part bounds (.inl rfl)).bind fun first => ?_
    refine (emit ⟨.assign .nothing .nothing, [v, first]⟩).bind fun _ => newRegister.bind fun n => ?_
    refine hv.bind fun v => (part bounds (.inr rfl)).bind fun last => ?_
    refine (emit ⟨.binary .nothing .nothing .nothing "<", [.register n, v, last]⟩).bind fun _ => ?_
    exact (unlessJump done (.register n)).bind fun _ => hb.bind fun _ => (jump again).bind fun _ =>
      (mark done).bind fun _ => operand (.given .nothing)
  | .forEach .., h | .slice .., h => by cases h.here
  | .funDef name params body _, h => by
    have hb := inside body (h.part 2 rfl)
    exact (emitHead name params).bind fun skip => hb.bind fun _ => (mark skip).bind fun _ => operand (.given .nothing)

theorem inside : ∀ n : Node, Shared n → Acts (flattenBody .third n) (flattenBody .fourth n)
  | n, h => by
    cases n with
    | block items =>
      exact trees items fun m hm => h.child hm
    | _ =>
      exact .throw _

theorem trees : ∀ items : List Node, (∀ n ∈ items, Shared n) → Acts (flattenAll .third items) (flattenAll .fourth items)
  | [], _ => by
    exact .pure ()
  | n :: rest, h => by
    simp only [forall_mem_cons] at h
    exact (tree n h.1).bind fun _ => trees rest h.2

theorem elements : ∀ items : List Node, (∀ n ∈ items, Shared n) →
    Acts (flattenElements .third items) (flattenElements .fourth items)
  | [], _ => by
    exact .pure ()
  | n :: rest, h => by
    simp only [forall_mem_cons] at h
    exact (tree n h.1).bind fun v => (emit ⟨.element .nothing, [v]⟩).bind fun _ => elements rest h.2

theorem arguments (reg call : Nat) : ∀ n : Node, Shared n →
    Acts (flattenArgs .third (registerName .third reg) (registerName .third call) n)
      (flattenArgs .fourth (registerName .fourth reg) (registerName .fourth call) n)
  | n, h => by
    cases n with
    | args items | params items =>
      exact argumentsIn reg call items fun m hm => h.child hm
    | block items =>
      exact (emit ⟨.args .nothing .nothing items.length, [.register reg, .register call]⟩).bind fun _ =>
        argumentList items fun m hm => h.child hm
    | _ =>
      exact .throw _

theorem argumentsIn (reg call : Nat) : ∀ items : Option (List Node), (∀ n ∈ items.getD [], Shared n) →
    Acts (flattenArgsIn .third (registerName .third reg) (registerName .third call) items)
      (flattenArgsIn .fourth (registerName .fourth reg) (registerName .fourth call) items)
  | some items, h => by
    exact (emit ⟨.args .nothing .nothing items.length, [.register reg, .register call]⟩).bind fun _ =>
      argumentList items h
  | none, _ => by
    exact emit ⟨.args .nothing .nothing 0, [.register reg, .register call]⟩

theorem argumentList : ∀ items : List Node, (∀ n ∈ items, Shared n) →
    Acts (flattenArgList .third items) (flattenArgList .fourth items)
  | [], _ => by
    exact .pure ()
  | n :: rest, h => by
    simp only [forall_mem_cons] at h
    exact (tree n h.1).bind fun v => (emit ⟨.arg .nothing, [v]⟩).bind fun _ => argumentList rest h.2

end

end Together

/-- The third and the fourth edition fail on a program with the same fault, or give the same code up to
the names of the registers, if it has no loop over a collection and no slice. -/
theorem ofProgram_third_fourth (nodes : List Node) (h : ∀ n ∈ nodes, Shared n) :
    ∃ draft : Except Fault (List Draft), ofProgram .third nodes = draft.map (List.map (Draft.write .third)) ∧
      ofProgram .fourth nodes = draft.map (List.map (Draft.write .fourth)) := by
  have hends := Together.trees nodes h (s := empty) (t := empty) (.intro ⟨[], rfl, rfl⟩ 0 0 [] [])
  unfold ofProgram
  generalize (flattenAll .third nodes).run _ = o, (flattenAll .fourth nodes).run _ = o' at hends ⊢
  cases hends with
  | ok i halike =>
    obtain ⟨⟨drafts, rfl, rfl⟩, _, _, _, _⟩ := halike
    exact ⟨.ok drafts, rfl, rfl⟩
  | error fault s t => exact ⟨.error fault, rfl, rfl⟩

/-- A variable may have the name of a register: only the register is named by the edition. -/
theorem ofProgram_third_fourth_clash :
    (∀ n ∈ [Node.assign (.ident "_t1") .none (.unary "-" (.literal "int" (.int 2)))], Shared n) ∧
    ∃ draft : Except Fault (List Draft),
      ofProgram .third [.assign (.ident "_t1") .none (.unary "-" (.literal "int" (.int 2)))] =
        draft.map (List.map (Draft.write .third)) ∧
      ofProgram .fourth [.assign (.ident "_t1") .none (.unary "-" (.literal "int" (.int 2)))] =
        draft.map (List.map (Draft.write .fourth)) := ⟨by decide, ofProgram_third_fourth _ (by decide)⟩

end Flat

end Tabc
