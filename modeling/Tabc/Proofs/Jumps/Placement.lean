import Tabc.Proofs.Jumps.Targets
import Tabc.Typing.Check

/-!
# Alternatives without a chain

A further or last alternative takes the last chain that was begun and not closed, wherever that is. So
flattening fails exactly if the count of open chains runs out (`ofProgram_isOk_iff`).
-/

namespace Tabc.Core.Jumps

open Flat

/-- A statement. Further and last alternatives may stand anywhere. -/
inductive Loose where
  | assign (x : String) (type : Option Ty) (value : Term)
  | whileDo (cond : Term) (body : List Loose)
  | ifThen (cond : Term) (body : List Loose)
  | elifThen (cond : Term) (body : List Loose)
  | elseThen (body : List Loose)

namespace Loose

mutual

def node : Loose → Node
  | .assign x type value => .assign (.ident x) (typeNode type) value.node
  | .whileDo cond body => .whileDo cond.node (.block (nodes body))
  | .ifThen cond body => .ifThen cond.node (.block (nodes body))
  | .elifThen cond body => .elifThen cond.node (.block (nodes body))
  | .elseThen body => .elseThen (.block (nodes body))

def nodes : List Loose → List Node
  | [] => []
  | p :: rest => p.node :: nodes rest

end

mutual

/-- How many chains are open behind a statement, given how many are before it; none if an alternative has
no open chain that it could continue. -/
def tally : Loose → Nat → Option Nat
  | .assign _ _ _, k => some k
  | .whileDo _ body, k => tallyAll body k
  | .ifThen _ body, k => (tallyAll body k).bind fun k => some (k + 1)
  | .elifThen _ body, k => (tallyAll body k).bind fun k => if k = 0 then none else some k
  | .elseThen body, k => (tallyAll body k).bind Nat.ppred

def tallyAll : List Loose → Nat → Option Nat
  | [], k => some k
  | p :: rest, k => (tally p k).bind (tallyAll rest)

end

end Loose

variable {α β : Type} {a b c : Nat} {f g : Nat → Option Nat}

/-- A step fails exactly if the count of open chains does. Of the chains begun, `a` have no place yet
before it and `b` behind it, apart from those that surround both. -/
def Counts (a b : Nat) (f : Nat → Option Nat) (x : FlatM α) : Prop :=
  ∀ s d, s.chains.length = s.spots.length + (d + a) →
    (∃ v s', x.run s = .ok v s' ∧ f s.spots.length = some s'.spots.length ∧
      s'.chains.length = s'.spots.length + (d + b)) ∨
    ∃ fault s', x.run s = .error fault s' ∧ f s.spots.length = none

namespace Counts

theorem bind {x : FlatM α} {y : α → FlatM β} (hx : Counts a b f x) (hy : ∀ v, Counts b c g (y v)) :
    Counts a c (fun k => (f k).bind g) (x >>= y) := by
  intro s d hs
  rw [EStateM.run_bind]
  obtain ⟨v, s1, hrun, hf, hs1⟩ | ⟨fault, s1, hrun, hf⟩ := hx s d hs
  · simpa only [hrun, hf, Option.bind_some] using hy v s1 d hs1
  · simpa only [hrun, hf] using .inr ⟨fault, s1, rfl, rfl⟩

/-- The same inside a first alternative, whose chain has no place yet. -/
theorem inside {x : FlatM α} (h : Counts 0 0 f x) : Counts 1 1 f x := fun s d hs => h s (d + 1) hs

theorem still {x : FlatM α} (h : ∀ s, ∃ v s', x.run s = .ok v s' ∧ s'.chains = s.chains ∧ s'.spots = s.spots) :
    Counts a a some x := by
  intro s d hs
  obtain ⟨v, s', hrun, hchains, hspots⟩ := h s
  exact .inl ⟨v, s', hrun, by rw [hspots], by rw [hchains, hspots, hs]⟩

theorem pure (v : α) : Counts a a some (pure v : FlatM α) := still fun s => ⟨v, s, rfl, rfl, rfl⟩

theorem emit (i : Instr) : Counts a a some (emit i) := still fun s => ⟨(), _, run_emit i s, rfl, rfl⟩

theorem newLabel (what : String) : Counts a a some (newLabel .fourth what) :=
  still fun s => ⟨_, _, run_newLabel what s, rfl, rfl⟩

theorem setAside : Counts a a some setAside := still fun s => ⟨s.code, { s with code := [] }, rfl, rfl, rfl⟩

theorem term (t : Term) : Counts a a some (flatten .fourth t.node) :=
  still fun s => ⟨_, _, run_flatten_term t s, rfl, rfl⟩

theorem openChain (label : String) : Counts 0 1 some (openChain label) :=
  fun s d hs => .inl ⟨(), { s with chains := label :: s.chains }, rfl, rfl, by simp [hs]; omega⟩

theorem first (otherwise : String) : Counts 1 0 (fun k => some (k + 1))
    (do jump (← chainEnd); Flat.mark otherwise; markChain; return Operand.nothing) := by
  rintro ⟨code, r, l, chains, spots⟩ d hs
  cases chains with
  | nil => simp at hs
  | cons label rest => exact .inl ⟨_, _, rfl, rfl, by simpa [← Nat.add_assoc, Nat.add_right_comm] using hs⟩

theorem further (otherwise : String) (old : List Instr) :
    Counts 0 0 (fun k => if k = 0 then none else some k)
      (do jump (← chainEnd); Flat.mark otherwise; moveSpot (← splice old); return Operand.nothing) := by
  rintro ⟨code, r, l, chains, spots⟩ d hs
  cases spots with
  | nil =>
    -- Inside a first alternative the fault comes later, when the place is missing.
    cases chains with
    | nil | cons => exact .inr ⟨_, _, rfl, rfl⟩
  | cons spot spots =>
    cases chains with
    | nil => simp at hs; omega
    | cons label rest => exact .inl ⟨_, _, rfl, rfl, hs⟩

theorem last (old : List Instr) : Counts 0 0 Nat.ppred (do let _ ← splice old; closeChain; return Operand.nothing) := by
  rintro ⟨code, r, l, chains, spots⟩ d hs
  cases spots with
  | nil => exact .inr ⟨_, _, rfl, rfl⟩
  | cons spot spots =>
    cases chains with
    | nil => simp at hs; omega
    | cons label rest => exact .inl ⟨_, _, rfl, rfl, by simpa [Nat.add_right_comm] using hs⟩

end Counts

mutual

theorem Loose.counts : ∀ p : Loose, Counts 0 0 p.tally (flatten .fourth p.node)
  | .assign x type value => by
    exact (Counts.pure _).bind fun _ => (Counts.term value).bind fun _ => (Counts.emit _).bind fun _ => .pure _
  | .whileDo cond body => by
    have h : Counts 0 0 (fun k => (tallyAll body k).bind some) _ :=
      (Counts.newLabel "WHILE").bind fun again => (Counts.newLabel "").bind fun done =>
      (Counts.emit (.label (.name again))).bind fun _ => (Counts.term cond).bind fun c =>
      (Counts.emit (.branch (.name done) c)).bind fun _ => (counts_all body).bind fun _ =>
      (Counts.emit (.goto (.name again))).bind fun _ => (Counts.emit (.label (.name done))).bind fun _ =>
      .pure Operand.nothing
    simp only [Option.bind_fun_some] at h
    exact h
  | .ifThen cond body => by
    exact (Counts.term cond).bind fun c => (Counts.newLabel "").bind fun otherwise =>
      (Counts.newLabel "").bind fun done => (Counts.openChain done).bind fun _ =>
      (Counts.emit _).bind fun _ => (counts_all body).inside.bind fun _ => .first otherwise
  | .elifThen cond body => by
    exact Counts.setAside.bind fun old => (Counts.term cond).bind fun c => (Counts.newLabel "").bind fun l =>
      (Counts.emit _).bind fun _ => (counts_all body).bind fun _ => .further l old
  | .elseThen body => by
    exact Counts.setAside.bind fun old => (counts_all body).bind fun _ => .last old

theorem Loose.counts_all : ∀ p : List Loose, Counts 0 0 (tallyAll p) (flattenAll .fourth (nodes p))
  | [] => .pure ()
  | p :: rest => by
    exact p.counts.bind fun _ => counts_all rest

end

/-- A program has code exactly if the count of open chains never runs out. -/
theorem ofProgram_isOk_iff (p : List Loose) :
    (Flat.ofProgram .fourth (Loose.nodes p)).isOk = true ↔ (Loose.tallyAll p 0).isSome = true := by
  unfold Flat.ofProgram
  obtain ⟨v, s, hrun, htally, -⟩ | ⟨fault, s, hrun, htally⟩ := Loose.counts_all p empty 0 rfl
  · rw [hrun, show Loose.tallyAll p 0 = _ from htally]
    exact iff_of_true rfl rfl
  · rw [hrun, show Loose.tallyAll p 0 = _ from htally]
    exact iff_of_false Bool.noConfusion Bool.noConfusion

/-- A last alternative behind an assignment, which belongs to no chain. -/
def stranded : List Loose :=
  let set : Loose := .assign "a" (some (.prim .bool)) (.const (.bool true))
  [set, .ifThen (.var "a") [set], set, .elseThen [set]]

/-- It is accepted, because an earlier chain is still open. -/
theorem stranded_isOk : areStmts false (Loose.nodes stranded) = false ∧
    (∃ types table, (typecheck .fourth (Loose.nodes stranded)).run (.fresh .fourth) = .ok types table) ∧
    (Flat.ofProgram .fourth (Loose.nodes stranded)).isOk = true := by
  obtain ⟨types, table, hcheck, -⟩ := exists_of_outcome
    ((typecheck .fourth (Loose.nodes stranded)).run (.fresh .fourth)) (fun _ => true) (by decide +kernel)
  exact ⟨by decide, ⟨types, table, hcheck⟩, by decide +kernel⟩

end Tabc.Core.Jumps
