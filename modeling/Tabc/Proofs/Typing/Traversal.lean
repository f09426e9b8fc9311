import Mathlib
import Tabc.Proofs.Parsing.Places
import Tabc.Typing.Check

/-!
# Checking a tree and its parts

A property of checking a tree, which may compare it with checking the tree under other names, holds of all trees
if it holds of the steps that look at the table and is kept where steps are put together (`Rules`).
-/

open List

namespace Tabc

namespace Node

mutual

/-- The tree with other names. Types hold no names. -/
def rename (r : String → String) : Node → Node
  | .atom a => .atom a
  | .list items => .list (renameAll r items)
  | .type t => .type t
  | .shape t => .shape t
  | .expression value => .expression (value.rename r)
  | .literal kind value => .literal kind value
  | .collection kind items => .collection kind (renameAll r items)
  | .ident name => .ident (r name)
  | .binary left op right => .binary (left.rename r) op (right.rename r)
  | .unary op right => .unary op (right.rename r)
  | .assign left t right => .assign (left.rename r) t (right.rename r)
  | .ifThen cond body => .ifThen (cond.rename r) (body.rename r)
  | .elifThen cond body => .elifThen (cond.rename r) (body.rename r)
  | .elseThen body => .elseThen (body.rename r)
  | .whileDo cond body => .whileDo (cond.rename r) (body.rename r)
  | .range stop start step => .range (stop.rename r) (start.rename r) (step.rename r)
  | .forRange var bounds body => .forRange (var.rename r) (bounds.rename r) (body.rename r)
  | .forEach var coll body => .forEach (var.rename r) (coll.rename r) (body.rename r)
  | .param t var => .param t (var.rename r)
  | .params items => .params (renameOption r items)
  | .args items => .args (renameOption r items)
  | .funDef name ps body result => .funDef (name.rename r) (ps.rename r) (body.rename r) result
  | .ret value => .ret (value.rename r)
  | .call callee given => .call (callee.rename r) (given.rename r)
  | .block items => .block (renameAll r items)
  | .append obj value => .append (obj.rename r) (value.rename r)
  | .index obj idx => .index (obj.rename r) (idx.rename r)
  | .slice obj start stop => .slice (obj.rename r) (start.rename r) (stop.rename r)

def renameAll (r : String → String) : List Node → List Node
  | [] => []
  | n :: rest => n.rename r :: renameAll r rest

def renameOption (r : String → String) : Option (List Node) → Option (List Node)
  | some items => some (renameAll r items)
  | Option.none => Option.none

end

/-- The trees that a list of statements, of arguments or of parameters is made of, and the value of an
expression that stands alone. -/
def members : Node → List Node
  | .block items => items
  | .args (some items) => items
  | .params (some items) => items
  | .expression value => [value]
  | _ => []

/-- The trees that are checked when a tree is. -/
def checked : Node → List Node
  | .collection _ items => items
  | .unary _ a | .ret a | .assign _ _ a => [a]
  | .binary a _ b | .index a b | .append a b => [a, b]
  | .call _ a | .elseThen a | .funDef _ _ a _ | .forRange _ _ a => a.members
  | .ifThen a b | .elifThen a b | .whileDo a b | .forEach _ a b => a :: b.members
  | .range a b c => a.members ++ (b.members ++ c.members)
  | .slice a b c => a :: [b, c].filter given
  | _ => []

/-- The trees that a tree which neither declares nor reads a variable is made of, in the order of checking. -/
def steps : Node → List Node
  | .list items | .collection _ items => items
  | .unary _ a | .ret a | .call _ a => [a]
  | .binary a _ b | .index a b | .append a b => [a, b]
  | .ifThen a b | .elifThen a b | .whileDo a b => [a, .elseThen b]
  | .slice a b c => [a, b, c]
  | .range a b c => [b, a, c]
  | n => n.members

/-- A tree that only puts together what it is made of. -/
def passes : Node → Bool
  | .ident _ | .elseThen _ | .assign .. | .forEach .. | .forRange .. | .funDef .. => false
  | _ => true

variable {r : String → String} {m n : Node}

theorem mem_children_of_mem_members (h : m ∈ n.members) : m ∈ n.children := by
  unfold members at h
  split at h
  case h_1 | h_2 | h_3 | h_4 => exact h
  case h_5 => cases h

theorem sizeOf_lt_of_mem_children (h : m ∈ n.children) : sizeOf m < sizeOf n := by
  cases n with
  | params items | args items =>
    cases items with
    | none => cases h
    | some items =>
      have := sizeOf_lt_of_mem (show m ∈ items from h)
      simp
      omega
  | list items | collection _ items | block items =>
    have := sizeOf_lt_of_mem (show m ∈ items from h)
    simp
    omega
  | _ => simp only [children, mem_cons, not_mem_nil, or_false] at h <;> rcases h with rfl | rfl | rfl <;> simp <;> omega

theorem mem_children_of_mem_checked (h : m ∈ n.checked) : m ∈ n.children ∨ ∃ k ∈ n.children, m ∈ k.members := by
  cases n <;> simp_all [checked, children] <;> grind

theorem sizeOf_lt_of_mem_checked (h : m ∈ n.checked) : sizeOf m < sizeOf n := by
  rcases mem_children_of_mem_checked h with h | ⟨k, hk, h⟩
  · exact sizeOf_lt_of_mem_children h
  · exact (sizeOf_lt_of_mem_children (mem_children_of_mem_members h)).trans (sizeOf_lt_of_mem_children hk)

theorem Throughout.checked {P : Node → Prop} (h : n.Throughout P) (hm : m ∈ n.checked) : m.Throughout P := by
  rcases mem_children_of_mem_checked hm with hm | ⟨k, hk, hm⟩
  · exact h.child hm
  · exact (h.child hk).child (mem_children_of_mem_members hm)

theorem steps_of_not_given (h : n.given = false) : n.steps = [] ∧ n.passes = true := by
  cases n <;> simp_all [given, steps, passes, members]

theorem given_rename (n : Node) : (n.rename r).given = n.given := by
  cases n with
  | list items => cases items <;> rfl
  | _ => rfl

theorem isNone_rename (n : Node) : (n.rename r).isNone = n.isNone := by
  cases n <;> rfl

end Node

namespace Typing

open ScopeTable MonadExcept

/-- A part is checked if there is one. -/
def checkPart (given : Bool) (x : CheckM (Option Ty)) (rule : Option Ty → Except Fault Unit) : CheckM Unit :=
  if given then do ofExcept (rule (← x)) else pure ()

theorem check_slice (e : Edition) (known : Bool) (obj start stop : Node) :
    check e known (.slice obj start stop) = do
      let o ← check e known obj
      checkPart start.given (check e false start) place
      checkPart stop.given (check e false stop) place
      return o := by
  rw [check]
  congr 1
  funext o
  unfold checkPart
  split <;> split <;> simp

theorem check_range (e : Edition) (known : Bool) (stop start step : Node) :
    check e known (.range stop start step) = do
      ofExcept (bound e "range start" (← checkValue e known start))
      checkPart (!stop.isNone) (checkValue e known stop) (bound e "range stop")
      checkPart (!step.isNone) (checkValue e known step) (bound e "range step")
      return none := by
  rw [check]
  unfold checkPart
  split <;> split <;> simp

/-- A property `Q` of steps that check some trees, and of the same steps under other names, that the steps on the
table have and that is kept where steps are put together. -/
structure Rules (e : Edition) (r : String → String) (Good : Node → Prop)
    (Q : {α : Type} → List Node → CheckM α → CheckM α → Prop) : Prop where
  good {n m : Node} : Good n → m ∈ n.checked → Good m
  throw {α : Type} {ns : List Node} (fault fault' : Fault) : Q ns (throw fault : CheckM α) (throw fault')
  lift {α : Type} {x y : Except Fault α} (h : x.toOption = y.toOption) : Q [] (ofExcept x) (ofExcept y)
  bind {α β : Type} {ns ns' : List Node} {x y : CheckM α} {f g : α → CheckM β} (hx : Q ns x y)
    (hf : ∀ a, Q ns' (f a) (g a)) : Q (ns ++ ns') (x >>= f) (y >>= g)
  node {α : Type} {n : Node} {x y : CheckM α} (hn : n.passes = true) (h : Q n.steps x y) : Q [n] x y
  lookup (name : String) : Q [.ident name] (lookupVariable name) (lookupVariable (r name))
  callee {callee args : Node} {f g : String → CheckM (Option Ty)} (h : Good (.call callee args))
    (hf : ∀ name, Q [] (f name) (g (r name))) :
    Q [] (ofExcept callee.nameText >>= f) (ofExcept (callee.rename r).nameText >>= g)
  function (name : String) (types : List Held) : Q [] (lookupFunction e name types) (lookupFunction e (r name) types)
  ret {value : Node} (h : Good (.ret value)) (got : Option Ty) (tree tree' : String) :
    Q [] (do ofExcept (returned e (← get).expected got tree); return none : CheckM (Option Ty))
      (do ofExcept (returned e (← get).expected got tree'); return none)
  scope {n : Node} {x y : CheckM Unit} (h : Q [n] x y) :
    Q [.elseThen n] (do openScope; x; closeScope; return none : CheckM (Option Ty))
      (do openScope; y; closeScope; return none)
  assign {known : Bool} {left type right : Node} (h : Good (.assign left type right))
    (hright : Q [right] (check e known right) (check e known (right.rename r))) :
    Q [.assign left type right] (check e known (.assign left type right))
      (check e known (Node.rename r (.assign left type right)))
  forEach {known : Bool} {var coll body : Node} (h : Good (.forEach var coll body))
    (hcoll : Q [coll] (check e known coll) (check e known (coll.rename r)))
    (hbody : Q [body] (checkBody e known body) (checkBody e known (body.rename r))) :
    Q [.forEach var coll body] (check e known (.forEach var coll body))
      (check e known (Node.rename r (.forEach var coll body)))
  forRange {known : Bool} {var bounds body : Node} (h : Good (.forRange var bounds body))
    (hbody : Q [body] (checkBody e known body) (checkBody e known (body.rename r))) :
    Q [.forRange var bounds body] (check e known (.forRange var bounds body))
      (check e known (Node.rename r (.forRange var bounds body)))
  funDef {known : Bool} {name params body result : Node} (h : Good (.funDef name params body result))
    (hbody : Q [body] (checkBody e known body) (checkBody e known (body.rename r))) :
    Q [.funDef name params body result] (check e known (.funDef name params body result))
      (check e known (Node.rename r (.funDef name params body result)))

namespace Rules

variable {e : Edition} {r : String → String} {Good : Node → Prop}
  {Q : {α : Type} → List Node → CheckM α → CheckM α → Prop} (R : Rules e r Good Q) {known : Bool} {n : Node}
  {items : List Node}

include R

theorem pure {α : Type} (a : α) : Q [] (pure a : CheckM α) (pure a) := R.lift (x := .ok a) rfl

theorem except {α : Type} (x : Except Fault α) : Q [] (MonadExcept.ofExcept x : CheckM α) (MonadExcept.ofExcept x) :=
  R.lift rfl

theorem table (known : Bool) : Q [] (needTable known) (needTable known) := by
  cases known
  · exact R.throw _ _
  · exact R.pure _

theorem andThen {α β : Type} {ns : List Node} {x y : CheckM α} {f g : α → CheckM β} (hx : Q ns x y)
    (hf : ∀ a, Q [] (f a) (g a)) : Q ns (x >>= f) (y >>= g) := append_nil ns ▸ R.bind hx hf

section

variable (h : ∀ n ∈ items, Q [n] (check e known n) (check e known (n.rename r)))

include h

theorem all : Q items (checkAll e known items) (checkAll e known (Node.renameAll r items)) := by
  induction items with
  | nil => exact R.pure _
  | cons n rest ih =>
    obtain ⟨hn, hrest⟩ := forall_mem_cons.1 h
    exact R.bind hn fun _ => ih hrest

theorem elements (place : Nat) (first : Option Ty) :
    Q items (checkElements e known place first items) (checkElements e known place first (Node.renameAll r items)) := by
  induction items generalizing place first with
  | nil => exact R.pure _
  | cons n rest ih =>
    obtain ⟨hn, hrest⟩ := forall_mem_cons.1 h
    exact R.bind hn fun _ => R.bind (R.except _) fun first => ih hrest (place + 1) first

theorem types : Q items (checkTypes e known items) (checkTypes e known (Node.renameAll r items)) := by
  induction items with
  | nil => exact R.pure _
  | cons n rest ih =>
    obtain ⟨hn, hrest⟩ := forall_mem_cons.1 h
    exact R.bind hn fun _ => R.andThen (ih hrest) fun _ => R.pure _

end

section

variable (h : ∀ m ∈ n.members, Q [m] (check e known m) (check e known (m.rename r)))

include h

theorem args : Q [n] (checkArgs e known n) (checkArgs e known (n.rename r)) := by
  cases n with
  | args items | params items =>
    cases items with
    | none => exact R.node rfl (R.pure _)
    | some items => exact R.node rfl (R.types h)
  | block items => exact R.node rfl (R.types h)
  | _ => exact R.throw _ _

theorem body : Q [n] (checkBody e known n) (checkBody e known (n.rename r)) := by
  cases n with
  | block items => exact R.node rfl (R.all h)
  | _ => exact R.throw _ _

theorem inScope : Q [.elseThen n] (checkScope e known n) (checkScope e known (n.rename r)) := by
  cases n with
  | block items => exact R.bind (R.table known) fun _ => R.scope (R.body h)
  | _ => exact R.bind (R.table known) fun _ => R.scope (R.throw .noPart .noPart)

theorem value : Q [n] (checkValue e known n) (checkValue e known (n.rename r)) := by
  cases n with
  | expression value => exact R.node rfl (h value (.head _))
  | shape t => cases t <;> exact R.throw _ _
  | _ => exact R.throw _ _

end

theorem part {x y : CheckM (Option Ty)} {given : Bool} (h : given = true → Q [n] x y)
    (hn : given = false → n.given = false) (rule : Option Ty → Except Fault Unit) :
    Q [n] (checkPart given x rule) (checkPart given y rule) := by
  unfold checkPart
  split
  case isTrue hgiven => exact R.bind (h hgiven) fun _ => R.except _
  case isFalse hgiven =>
    obtain ⟨hsteps, hpasses⟩ := Node.steps_of_not_given (hn (by simpa using hgiven))
    exact R.node hpasses (hsteps ▸ R.pure _)

/-- The property holds of checking every good tree. -/
theorem holds (known : Bool) (n : Node) (h : Good n) : Q [n] (check e known n) (check e known (n.rename r)) := by
  have hpart (m : Node) (hm : m ∈ n.checked) (known : Bool) : Q [m] (check e known m) (check e known (m.rename r)) :=
    holds known m (R.good h hm)
  have hnone (m : Node) : (!m.isNone) = false → m.given = false := by
    unfold Node.isNone
    split <;> simp [Node.given]
  cases n with
  | literal kind value =>
    rw [Node.rename, check]
    split
    · exact R.node rfl (R.pure _)
    · exact R.throw _ _
  | ident name =>
    exact R.bind (R.table known) fun _ => R.bind (R.lookup name) fun _ => R.except _
  | collection kind items =>
    exact R.node rfl (R.andThen (R.elements (fun m hm => hpart m hm known) 0 none) fun _ => R.pure _)
  | binary left op right | index left right =>
    exact R.node rfl (R.bind (hpart left (.head _) known) fun _ =>
      R.bind (hpart right (.tail _ (.head _)) known) fun _ => R.except _)
  | unary op right =>
    exact R.node rfl (R.bind (hpart right (.head _) known) fun _ => R.except _)
  | call callee args =>
    exact R.node rfl (R.bind (R.args fun m hm => hpart m hm known) fun types => R.callee h fun name =>
      R.bind (R.table known) fun _ => R.bind (R.function name types) fun _ => R.except _)
  | slice obj start stop =>
    rw [Node.rename, check_slice, check_slice, Node.given_rename, Node.given_rename]
    exact R.node rfl (R.bind (hpart obj (.head _) known) fun _ =>
      R.bind (R.part (fun hs => hpart start (by simp [Node.checked, hs]) false) id _) fun _ =>
      R.bind (R.part (fun hs => hpart stop (by simp [Node.checked, hs]) false) id _) fun _ => R.pure _)
  | assign left type right => exact R.assign h (hpart right (.head _) known)
  | append obj value =>
    exact R.node rfl (R.bind (hpart obj (.head _) known) fun _ =>
      R.bind (hpart value (.tail _ (.head _)) known) fun _ => R.bind (R.except _) fun _ => R.pure _)
  | ret value =>
    exact R.node rfl (R.bind (hpart value (.head _) known) fun got => R.bind (R.table known) fun _ => R.ret h got _ _)
  | ifThen cond body | elifThen cond body | whileDo cond body =>
    exact R.node rfl (R.bind (hpart cond (.head _) known) fun _ => R.inScope fun m hm => hpart m (.tail _ hm) known)
  | elseThen body =>
    exact R.inScope fun m hm => hpart m hm known
  | range stop start step =>
    rw [Node.rename, check_range, check_range, Node.isNone_rename, Node.isNone_rename]
    have hvalue (k : Node) (hk : k ∈ [stop, start, step]) := R.value (n := k) fun m hm =>
      hpart m (by simp only [Node.checked, mem_append]; grind) known
    exact R.node rfl (R.bind (hvalue start (by simp)) fun _ => R.bind (R.except _) fun _ =>
      R.bind (R.part (fun _ => hvalue stop (by simp)) (hnone stop) _) fun _ =>
      R.bind (R.part (fun _ => hvalue step (by simp)) (hnone step) _) fun _ => R.pure _)
  | forEach var coll body =>
    exact R.forEach h (hpart coll (.head _) known) (R.body fun m hm => hpart m (.tail _ hm) known)
  | forRange var bounds body => exact R.forRange h (R.body fun m hm => hpart m hm known)
  | funDef name params body result => exact R.funDef h (R.body fun m hm => hpart m hm known)
  | _ =>
    exact R.throw _ _
termination_by sizeOf n
decreasing_by exact Node.sizeOf_lt_of_mem_checked hm

end Rules

end Typing

end Tabc
