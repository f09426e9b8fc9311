import Mathlib
import Tabc.Syntax.Node

/-!
# What trees are made of

The trees in a tree, properties that hold throughout a tree, and the places of a tree that are for names.
The callee of a call is no such place, it may be any expression.
-/

open List

namespace Tabc

namespace Node

/-- The trees that a tree is made of. Types are no trees. -/
def children : Node → List Node
  | .atom _ | .type _ | .shape _ | .literal _ _ | .ident _ => []
  | .list items | .collection _ items | .block items => items
  | .params items | .args items => items.getD []
  | .expression a | .unary _ a | .ret a | .elseThen a | .param _ a => [a]
  | .binary a _ b | .assign a _ b | .ifThen a b | .elifThen a b | .whileDo a b | .call a b
  | .append a b | .index a b => [a, b]
  | .range a b c | .forRange a b c | .forEach a b c | .slice a b c | .funDef a b c _ => [a, b, c]

mutual

def descendants : Node → List Node
  | .atom _ | .type _ | .shape _ | .literal _ _ | .ident _ => []
  | .list items | .collection _ items | .block items => descendantsAll items
  | .params items | .args items => descendantsOption items
  | .expression a | .unary _ a | .ret a | .elseThen a | .param _ a => a :: a.descendants
  | .binary a _ b | .assign a _ b | .ifThen a b | .elifThen a b | .whileDo a b | .call a b
  | .append a b | .index a b => a :: a.descendants ++ b :: b.descendants
  | .range a b c | .forRange a b c | .forEach a b c | .slice a b c | .funDef a b c _ =>
    a :: a.descendants ++ b :: b.descendants ++ c :: c.descendants

def descendantsAll : List Node → List Node
  | [] => []
  | n :: rest => n :: n.descendants ++ descendantsAll rest

def descendantsOption : Option (List Node) → List Node
  | some items => descendantsAll items
  | Option.none => []

end

theorem descendantsAll_eq_flatMap (items : List Node) :
    descendantsAll items = items.flatMap fun n => n :: n.descendants := by
  induction items with
  | nil => rfl
  | cons n rest ih => rw [descendantsAll, ih, flatMap_cons]

theorem descendants_eq_flatMap (n : Node) : n.descendants = n.children.flatMap fun m => m :: m.descendants := by
  cases n with
  | params items | args items =>
    cases items <;> simp [descendants, children, descendantsOption, descendantsAll_eq_flatMap]
  | _ => simp [descendants, children, descendantsAll_eq_flatMap]

/-- A property holds of a tree and of all trees in it. -/
def Throughout (P : Node → Prop) (n : Node) : Prop := ∀ m ∈ n :: n.descendants, P m

variable {P : Node → Prop} {m n : Node}

theorem throughout_iff : n.Throughout P ↔ P n ∧ ∀ m ∈ n.children, m.Throughout P := by
  rw [Throughout, forall_mem_cons, descendants_eq_flatMap]
  simp only [mem_flatMap, Throughout]
  exact and_congr_right fun _ => ⟨fun h m hm k hk => h k ⟨m, hm, hk⟩, fun h k ⟨m, hm, hk⟩ => h m hm k hk⟩

theorem Throughout.here (h : n.Throughout P) : P n := (throughout_iff.1 h).1

theorem Throughout.child (h : n.Throughout P) (hm : m ∈ n.children) : m.Throughout P := (throughout_iff.1 h).2 m hm

theorem Throughout.part (h : n.Throughout P) (i : Nat) (hm : n.children[i]? = some m) : m.Throughout P :=
  h.child (mem_of_getElem? hm)

theorem Throughout.and {Q : Node → Prop} (h : n.Throughout P) (h' : n.Throughout Q) :
    n.Throughout fun m => P m ∧ Q m := fun m hm => ⟨h m hm, h' m hm⟩

instance [DecidablePred P] : Decidable (n.Throughout P) := inferInstanceAs (Decidable (∀ m ∈ n :: n.descendants, P m))

def isIdent : Node → Bool
  | .ident _ => true
  | _ => false

/-- What stands at the places of a tree that are for names. The callee of a call is none of them. -/
def places : Node → List Node
  | .assign a _ _ | .forRange a _ _ | .forEach a _ _ | .param _ a | .funDef a _ _ _ => [a]
  | _ => []

def Placed (n : Node) : Prop := ∀ m ∈ n.places, m.isIdent = true

instance : DecidablePred Placed := fun n => inferInstanceAs (Decidable (∀ m ∈ n.places, m.isIdent = true))

end Node

end Tabc
