import Mathlib
import Tabc.Proofs.Core.Steps
import Tabc.Target.Write

/-!
# What the steps of writing leave alone

`Quiet` says what a step leaves alone that only notes what names stand for, and `Keeps` that a step keeps to a
relation between states, any that quiet steps keep to (`Frame`).
-/

open List

namespace Tabc.Target.Writer

open Tabc.Core

/-- From one state to another neither the mode nor the flags nor the values of variables change, and list
variables may be declared. -/
structure Quiet (s s' : Writer) : Prop where
  folding : s'.folding = s.folding
  depth : s'.depth = s.depth
  declared : s'.declared = s.declared
  inLoop : s'.inLoop = s.inLoop
  trial : s'.trial = s.trial
  hasHead : s'.hasHead = s.hasHead
  decided : s'.decided = s.decided
  vars : s'.vars = s.vars
  lists : s.listsDeclared <+: s'.listsDeclared

/-- A relation between states that quiet steps keep to. -/
class Frame (R : Writer → Writer → Prop) : Prop where
  quiet : ∀ {s s'}, Quiet s s' → R s s'
  trans : ∀ {s s1 s'}, R s s1 → R s1 s' → R s s'

/-- A step that keeps to a relation where it comes to an end without a fault. -/
def KeepsFrom {α : Type} (R : Writer → Writer → Prop) (s : Writer) (act : WriterM α) : Prop :=
  ∀ ⦃a s'⦄, act.run s = .ok a s' → R s s'

def Keeps {α : Type} (R : Writer → Writer → Prop) (act : WriterM α) : Prop := ∀ s, KeepsFrom R s act

variable {R : Writer → Writer → Prop} {α β : Type} {s s' t : Writer} {x : WriterM α} {f : α → WriterM β}

attribute [grind ←] Quiet.mk
attribute [grind .] prefix_rfl prefix_append

theorem Quiet.refl (s : Writer) : Quiet s s := ⟨rfl, rfl, rfl, rfl, rfl, rfl, rfl, rfl, prefix_rfl⟩

theorem Keeps.update (h : ∀ s, R s (g s)) : Keeps R (modify g : WriterM Unit) := by
  intro s _ _ hrun
  cases hrun
  exact h s

theorem Keeps.get_bind {f : Writer → WriterM β} (hf : ∀ s, KeepsFrom R s (f s)) : Keeps R (get >>= f) := hf

theorem KeepsFrom.throw (e : Fault) : KeepsFrom R s (throw e : WriterM α) := fun _ _ hrun => by cases hrun

theorem KeepsFrom.lift_bind (hf : ∀ a, KeepsFrom R s (f a)) : KeepsFrom R s (Writer.lift act >>= f) := by
  cases act with
  | ok a => exact hf a
  | error e => exact .throw e

@[grind .]
theorem Keeps.throw (e : Fault) : Keeps R (throw e : WriterM α) := fun _ => .throw e

variable [Frame R]

namespace KeepsFrom

theorem of_quiet (h : x.run s = .ok a t) (ht : Quiet s t) : KeepsFrom R s x := by
  intro _ _ hrun
  cases h.symm.trans hrun
  exact Frame.quiet ht

theorem pure (a : α) : KeepsFrom R s (pure a) := of_quiet rfl (.refl s)

theorem bind (hx : KeepsFrom R s x) (hf : ∀ a, Keeps R (f a)) : KeepsFrom R s (x >>= f) := by
  intro _ _ hrun
  obtain ⟨a, s1, ha, hrun⟩ := of_run_bind hrun
  exact Frame.trans (hx ha) (hf a s1 hrun)

theorem set (h : Quiet s t) : KeepsFrom R s (set t : WriterM PUnit) := of_quiet rfl h

end KeepsFrom

namespace Keeps

@[grind .]
theorem pure (a : α) : Keeps R (pure a : WriterM α) := fun _ => .pure a

@[grind .]
theorem lift (act : Except Fault α) : Keeps R (lift act) := by
  cases act with
  | ok a => exact .pure a
  | error e => exact .throw e

theorem modify (h : ∀ s, Quiet s (g s)) : Keeps R (modify g : WriterM Unit) := update fun s => Frame.quiet (h s)

@[grind ←]
theorem bind (hx : Keeps R x) (hf : ∀ a, Keeps R (f a)) : Keeps R (x >>= f) := fun s => (hx s).bind hf

@[grind .]
theorem get : Keeps R (get : WriterM Writer) := fun s => .of_quiet rfl (.refl s)

theorem when {c : Prop} [Decidable c] {x : WriterM Unit} {f : Unit → WriterM β}
    (hx : Keeps R x) (hf : ∀ u, Keeps R (f u)) : Keeps R (if c then x >>= f else f ()) := by
  split
  · exact .bind hx hf
  · exact hf ()

@[grind ←]
theorem mapM (hg : ∀ a, Keeps R (g a)) (l : List α) : Keeps R (l.mapM g) := by
  induction l with
  | nil => exact .pure _
  | cons a l ih =>
    rw [mapM_cons]
    exact .bind (hg a) fun _ => .bind ih fun _ => .pure _

theorem forIn (hg : ∀ a b, Keeps R (g a b)) (l : List α) (b : β) : Keeps R (forIn l b g) := by
  induction l generalizing b with
  | nil => exact .pure _
  | cons a l ih =>
    rw [forIn_cons]
    refine .bind (hg a b) fun step => ?_
    cases step with
    | done b => exact .pure b
    | yield b => exact ih b

end Keeps

@[grind .]
theorem keeps_lineText (p : Piece) : Keeps R (lineText p) := by
  unfold lineText
  grind

variable (name : String)

@[grind .]
theorem keeps_isRegister : Keeps R (isRegister name) := by
  unfold isRegister
  grind

variable (v : Node)

@[grind .]
theorem keeps_setTemp : Keeps R (setTemp name v) :=
  .modify fun _ => ⟨rfl, rfl, rfl, rfl, rfl, rfl, rfl, rfl, prefix_rfl⟩

@[grind .]
theorem keeps_tempValue : Keeps R (tempValue v) := by
  unfold tempValue
  grind

@[grind .]
theorem keeps_lookUp : Keeps R (lookUp v) := by
  unfold lookUp
  grind

@[grind .]
theorem keeps_heldValue : Keeps R (heldValue v) := by
  unfold heldValue
  grind

@[grind .]
theorem keeps_hold : Keeps R (hold name v) := by
  refine .get_bind fun s => ?_
  have hput : ∀ h, KeepsFrom R s (set { s with held := put name h s.held } : WriterM PUnit) := fun h => .set (by grind)
  dsimp only
  split
  · split
    · exact .pure _
    · split
      · exact hput _
      · split
        · exact hput _
        · exact .pure _
  · split
    · exact hput _
    · exact .pure _

@[grind .]
theorem keeps_addVariant : Keeps R (addVariant name) :=
  .modify fun s => by split <;> exact ⟨rfl, rfl, rfl, rfl, rfl, rfl, rfl, rfl, prefix_rfl⟩

@[grind .]
theorem keeps_computeLiteral (wrap : String → String) (v : Node) :
    Keeps R (computeLiteral name wrap v) := by
  refine .get_bind fun s => ?_
  split
  · exact .pure _
  · split
    · exact .pure _
    · exact .bind (.set (by grind)) fun _ => .pure _
  · exact .pure _

theorem keeps_evalAssign (hid : Keeps R writeId) : Keeps R (evalAssign v writeId) := by
  refine .bind (keeps_lookUp v) fun _ => .bind hid fun p => .bind (keeps_lineText p) fun _ =>
    .bind (.get) fun _ => .bind (.lift _) fun found => ?_
  cases found with
  | some _ => exact .bind (.modify fun _ => by grind) fun _ => .pure _
  | none => exact keeps_computeLiteral _ _ _

@[grind .]
theorem keeps_assignValue (ending : String) : Keeps R (assignValue name v ending) := by
  unfold assignValue
  grind

theorem keeps_declareList : Keeps R (declareList name v) := by
  refine .bind (.modify fun _ => by grind) fun _ => .get_bind fun s => ?_
  have hset : ∀ (n : Node) (p : Piece),
      KeepsFrom R s (do set { s with listLengths := put name n s.listLengths }; pure p) := fun n p =>
    .bind (.set (by grind)) fun _ => .pure p
  split
  · split
    · split
      · exact .lift_bind fun n => hset n _
      · split
        · exact hset _ _
        · exact .throw _
    · exact .throw _
  · exact .throw _

@[grind .]
theorem keeps_assignText (text : String) : Keeps R (assignText name text) := by
  refine .get_bind fun s => ?_
  split
  · exact .bind (keeps_tempValue _ s) fun _ => keeps_assignValue _ _ _
  split
  · exact .bind (.set (by grind)) fun _ => .pure _
  · exact keeps_assignValue _ _ _ s

@[grind .]
theorem keeps_assignRaw : Keeps R (assignRaw name v) := by
  have hlast : ∀ v : Node, Keeps R (do
      let s ← get
      if isList s v && !s.tempLists.any (·.2 == some name) && !s.listsDeclared.contains name then
        return .done (← declareList name v)
      else assignValue name v "") := fun v => .bind (.get) fun s => by
    split
    · exact .bind (keeps_declareList name v) fun _ => .pure _
    · exact keeps_assignValue _ _ _
  refine .get_bind fun s => .lift_bind fun found => ?_
  split
  · exact .bind (keeps_tempValue v s) hlast
  split
  · split
    · refine .bind (.set (by grind)) fun _ => ?_
      split
      · exact .bind (.modify fun _ => by grind) fun _ => .pure _
      · exact .throw _
    · exact hlast _ s
  · exact hlast _ s

@[grind ←]
theorem keeps_assignSide (temp : Bool) (v : Node)
    (hv : Keeps R writeValue) : Keeps R (assignSide name temp v writeValue) := by
  have hrest : ∀ (v : Node) (done : Assigned) (act : WriterM Assigned), Keeps R act →
      Keeps R (if temp then do setTemp name v; pure done else act) := fun v done act hact => by
    split
    · exact .bind (keeps_setTemp name v) fun _ => .pure _
    · exact hact
  unfold assignSide
  split
  · exact .bind hv fun p => .bind (keeps_lineText p) fun _ => hrest _ _ _ (keeps_assignText _ _)
  · exact .bind hv fun p => .bind (keeps_lineText p) fun _ => hrest _ _ _ (keeps_assignText _ _)
  · exact .bind hv fun p => .bind (keeps_lineText p) fun _ =>
      .bind (.modify fun _ => by grind) fun _ => hrest _ _ _ (keeps_assignText _ _)
  · exact hrest _ _ _ (keeps_assignText _ _)
  · exact hrest _ _ _ (.bind (keeps_hold _ _) fun _ => .pure _)
  · exact hrest _ _ _ (keeps_assignRaw _ _)

/-- An assignment may also give its variable a value. -/
theorem keeps_assign (hid : ∀ s, writeId.run s = .ok (.line name) s) (hv : Keeps R writeValue)
    (hvar : ∀ w, Keeps R (setVar name w)) : Keeps R (assign v writeId writeValue) := by
  have hset : ∀ (p : Piece) w, Keeps R (do setVar name w; pure p) := fun p w => .bind (hvar w) fun _ => .pure p
  have hid' : Keeps R writeId := fun s => .of_quiet (hid s) (.refl s)
  intro s
  rw [KeepsFrom, assign, run_bind_of_ok (hid s)]
  refine (.bind (.get) fun _ => .bind (keeps_isRegister name) fun register =>
    .when (keeps_setTemp _ _) fun _ => .bind (.get) fun _ => ?_ : Keeps R _) s
  split
  · exact .when (keeps_addVariant name) fun _ => .pure _
  refine .bind (keeps_assignSide _ _ v hv) fun made => ?_
  split
  · exact .pure _
  refine .bind (.get) fun _ => ?_
  split
  · exact .pure _
  split
  · split
    · exact hset _ _
    · exact .bind (keeps_evalAssign _ hid') fun w => hset _ w
  · exact hset _ _

/-- The variables that change stand for themselves afterwards. -/
theorem keeps_forgetVariants (hself : ∀ x, Keeps R (setVar x (.text x))) : Keeps R forgetVariants := by
  refine .bind (.get) fun s => ?_
  refine .bind (.forIn (fun x _ => ?_) _ _) fun _ => .pure _
  refine .bind (.update fun s => Frame.trans (hself x s rfl) (Frame.quiet ?_)) fun _ => .pure _
  exact ⟨rfl, rfl, rfl, rfl, rfl, rfl, rfl, rfl, prefix_rfl⟩

end Tabc.Target.Writer
