import Tabc.Proofs.Rebuild.Recovery
import Tabc.Proofs.Writing.Numeric

/-!
# Arguments of nested calls

An argument goes to the open call on top of a stack. A call without arguments never leaves it and takes what
is meant for the calls around it, so no argument may be one (`Arg.served`).
-/

open List hiding flatten

namespace Tabc.Core

open Flat Target Target.Build
open Target.Build (part)
open Target.Node (settleAll)

mutual

/-- An argument: an expression, or again a call. -/
inductive Arg where
  | term (t : Term)
  | call (f : String) (args : Args)

inductive Args where
  | nil
  | cons (a : Arg) (rest : Args)

end

def Args.count : Args → Nat
  | .nil => 0
  | .cons _ rest => rest.count + 1

mutual

def Arg.node : Arg → Node
  | .term t => t.node
  | .call f args => .call (.ident f) (.args args.nodes)

def Args.nodes : Args → Option (List Node)
  | .nil => none
  | .cons a rest => some (a.node :: rest.nodes.getD [])

end

mutual

/-- How many registers an argument takes: a call takes one for itself, one for its arguments and one
for its result. -/
def Arg.size : Arg → Nat
  | .term t => t.size
  | .call _ args => args.size + 3

def Args.size : Args → Nat
  | .nil => 0
  | .cons a rest => a.size + rest.size

end

def Arg.operand : Arg → Nat → String
  | .term t, r => t.operand r
  | .call _ args, r => reg (r + args.size + 3)

/-- The registers and variables that hold the values of arguments. -/
def Args.operands : Args → Nat → List String
  | .nil, _ => []
  | .cons a rest, r => a.operand r :: rest.operands (r + a.size)

mutual

def Arg.code : Arg → Nat → List Instr
  | .term t, r => t.code r
  | .call f args, r =>
    .args (.name (reg (r + 2))) (.name (reg (r + 1))) args.count :: args.code (r + 2) ++
      [.call (.name f) (.name (reg (r + 1))), .result (.name (reg (r + args.size + 3)))]

def Args.code : Args → Nat → List Instr
  | .nil, _ => []
  | .cons a rest, r => a.code r ++ .arg (.name (a.operand r)) :: rest.code (r + a.size)

end

/-- For the name of a function and the types of its arguments, the function that is called and the
type of its result. -/
abbrev Signatures := String → List Prim → Option (String × Prim)

mutual

/-- The type of an argument and the target trees that compute it, if its variables and the functions
it calls are known. A call lists the operands of its own arguments. -/
def Arg.target (Γ : Types) (Φ : Signatures) : Arg → Nat → Option (Prim × List Target.Node)
  | .term t, r => if Γ.knows t.vars then some (t.type Γ, t.trees Γ r) else none
  | .call f args, r => do
    let found ← args.target Γ Φ (r + 2)
    let callee ← Φ f found.1
    let x := reg (r + args.size + 3)
    some (callee.2, found.2 ++ [declarationOf x callee.2, .assign (.ident x)
      (.call (.text callee.1) (.list ((args.operands (r + 2)).map .text)))])

def Args.target (Γ : Types) (Φ : Signatures) : Args → Nat → Option (List Prim × List Target.Node)
  | .nil, _ => some ([], [])
  | .cons a rest, r => do
    let first ← a.target Γ Φ r
    let others ← rest.target Γ Φ (r + a.size)
    some (first.1 :: others.1, first.2 ++ others.2)

end

def Arg.bare : Arg → Bool
  | .call _ .nil => true
  | _ => false

mutual

/-- No argument inside is a call without arguments. -/
def Arg.served : Arg → Bool
  | .term _ => true
  | .call _ args => args.served

def Args.served : Args → Bool
  | .nil => true
  | .cons a rest => !a.bare && a.served && rest.served

end

attribute [local simp] Args.nodes Args.count flattenArgList Args.code

theorem Args.length_nodes : ∀ args : Args, (args.nodes.getD []).length = args.count
  | .nil => rfl
  | .cons _ rest => by simp [rest.length_nodes]

theorem flattenArgsIn_eq (x y : String) (args : Args) :
    flattenArgsIn .fourth x y args.nodes = (do
      emit (.args (.name x) (.name y) args.count)
      flattenArgList .fourth (args.nodes.getD [])) := by
  cases args with
  | nil => simp [flattenArgsIn]
  | cons a rest => rw [← Args.length_nodes]; rfl

mutual

theorem Arg.run_flatten : ∀ (a : Arg) (s : Flat), (flatten .fourth a.node).run s = .ok (.name (a.operand s.registers))
      { s with code := s.code ++ a.code s.registers, registers := s.registers + a.size }
  | .term t, s => run_flatten_term t s
  | .call f args, s => by
    have hlast : s.registers + 2 + args.size + 1 = s.registers + args.size + 3 := by omega
    simp [Arg.node, flatten, flattenArgs, flattenArgsIn_eq, args.run_flattenArgList, calleeName,
      Node.nameOf?, Node.text, Operand.ofNode, Arg.operand, Arg.code, Arg.size, hlast]
    omega

theorem Args.run_flattenArgList : ∀ (args : Args) (s : Flat),
    (flattenArgList .fourth (args.nodes.getD [])).run s = .ok ()
      { s with code := s.code ++ args.code s.registers, registers := s.registers + args.size }
  | .nil, s => by simp [Args.size]
  | .cons a rest, s => by simp [a.run_flatten, rest.run_flattenArgList, Args.size, Nat.add_assoc]

end

variable {known : Option ScopeTable} {s s' s1 s2 : Build} {base σ σ' : Scope} {outer : List Scope}
  {Γ : Types} {Φ : Signatures} {r r' k n : Nat} {q : List Instr} {a b c d : List Target.Node}

/-- The functions can be called from these scopes. -/
def Offers (scopes : List Scope) (Φ : Signatures) : Prop :=
  ∀ f types callee, Φ f types = some callee → ¬ IsReg f ∧
    ScopeTable.emittedIn f (targetTypes types) scopes = .ok (callee.1, .type (.prim callee.2))

theorem Offers.of_typed (h : Offers (σ :: outer) Φ) (hσ : TypedOver base σ Γ r)
    (hσ' : TypedOver base σ' Γ r') : Offers (σ' :: outer) Φ := by
  intro f types callee hf
  obtain ⟨hreg, hin⟩ := h f types callee hf
  have hfind : σ'.find? f = σ.find? f := (hσ'.names f hreg).trans (hσ.names f hreg).symm
  rw [ScopeTable.emittedIn] at hin ⊢
  exact ⟨hreg, by rw [hfind]; exact hin⟩

/-- Statements become these trees when the parts opened since are filled in. Of the parts that were open
already at most `k` changed, and calls in registers up to `r` have the parts they had. -/
structure Collects (k r : Nat) (s s' : Build) (items nodes : List Target.Node) : Prop where
  length : s.parts.length ≤ s'.parts.length
  part : ∀ n < s.parts.length, n ≠ k → s'.part n = s.part n
  arguments : ∀ j ≤ r, Target.Build.find? (.name (reg j)) s'.arguments = Target.Build.find? (.name (reg j)) s.arguments
  settle : ∀ part, (∀ n, s.parts.length ≤ n → n < s'.parts.length → part n = s'.part n) → settleAll part items = nodes

theorem Collects.trans (h : Collects k r s s1 a b) (h' : Collects k r' s1 s2 c d)
    (hk : k < s.parts.length) (hr : r ≤ r') : Collects k r s s2 (a ++ c) (b ++ d) where
  length := h.length.trans h'.length
  part n hn hne := (h'.part n (hn.trans_le h.length) hne).trans (h.part n hn hne)
  arguments j hj := (h'.arguments j (hj.trans hr)).trans (h.arguments j hj)
  settle part hpart := by
    have h1 := h.length
    have h2 := h'.length
    rw [settleAll_append, h.settle part fun n hn hn' => (hpart n hn (by omega)).trans (h'.part n hn' (by omega)),
      h'.settle part fun n hn hn' => hpart n (by omega) hn']

/-- Code that takes `n` registers was read up to `q`. -/
structure ReadsTo (known : Option ScopeTable) (outer : List Scope) (base : Scope) (Γ : Types)
    (r n k : Nat) (code q : List Instr) (s s' : Build) (σ σ' : Scope)
    (nodes : List Target.Node) : Prop where
  reads : ∃ items, Statements known (inside outer s (code ++ q) σ) items (inside outer s' q σ') ∧
    Collects k r s s' items nodes
  typed : TypedOver base σ' Γ (r + n)
  keeps : Keeps r n σ.find? σ'.find?

theorem find?_put_of_ne (hne : x ≠ y) (v : Nat) (l : List (Operand × Nat)) :
    Target.Build.find? (.name y) (put (.name x) v l) = Target.Build.find? (.name y) l := by
  induction l with
  | nil => simp [put, Target.Build.find?, Operand.same, hne]
  | cons e l ih =>
    rw [put]
    by_cases he : e.1.same (.name x) = true
    · obtain ⟨o, w⟩ := e
      cases o <;> simp_all [Operand.same, Target.Build.find?]
    · simp [he, Target.Build.find?, ih]

/-- An argument goes to the call on top of the stack, and the last one takes it off. -/
theorem reads_arg {c : Operand} {n : Int} {calls : List (Operand × Int)}
    {done : List Target.Node} (hcalls : s.calls = (c, n) :: calls)
    (hfind : Target.Build.find? c s.arguments = some k) (hpart : s.part k = .list done) :
    Statements known (inside outer s (.arg (.name x) :: q) σ) [] (inside outer { s with
        parts := s.parts.set k (.list (done ++ [.text x]))
        calls := if (done.length + 1 : Int) = n then calls else s.calls } q σ) := by
  refine reads_of_core (.operand .nothing) rfl le_rfl rfl fun fuel _ => ?_
  have hpart' : s.parts[k]?.getD .none = .list done := by simpa [part] using hpart
  rw [buildCore]
  by_cases hn : (done.length + 1 : Int) = n <;>
    simp [argument, inside, hcalls, hfind, part, hpart', argumentsIn, setPart, Target.Node.ofOperand, Made.nothing, hn]

theorem Arg.not_taken_operand (a : Arg) (hσ : TypedOver base σ Γ r)
    (h : a.target Γ Φ r = some found) (m : Nat) : ¬ Taken (r + a.size) m (a.operand r) := by
  cases a with
  | term t =>
    have hknown : Γ.knows t.vars = true := by
      by_contra hk
      simp [Arg.target, hk] at h
    exact t.not_taken_operand (fun x hx => (hσ.plain x (all_eq_true.mp hknown x hx)).1) r m
  | call f args =>
    rintro ⟨j, hj, -, hreg⟩
    have : r + args.size + 3 = j := reg_inj.mp hreg
    simp only [Arg.size] at hj
    omega

/-- The state when the arguments of a call begin. -/
def opened (s : Build) (r n : Nat) : Build := { s with
  parts := s.parts ++ [.list []]
  calls := (.name (reg (r + 1)), (n : Int)) :: s.calls
  arguments := put (.name (reg (r + 1))) s.parts.length s.arguments }

theorem reads_args (m : Nat) :
    Statements known (inside outer s (.args (.name (reg (r + 2))) (.name (reg (r + 1))) m :: q) σ) []
      (inside outer (opened s r m) q σ) := by
  refine reads_of_core (.operand .nothing) rfl le_rfl rfl fun fuel _ => ?_
  rfl

theorem part_set_of_ne (hne : m ≠ k) (item : Target.Node)
    (hs : s'.parts = s.parts.set k item) : s'.part m = s.part m := by
  simp [part, hs, getElem?_set_ne hne.symm]

mutual

theorem Arg.reads (known : Option ScopeTable) : ∀ (a : Arg) {σ : Scope} {r : Nat} {found : Prim × List Target.Node},
    a.served = true → TypedOver base σ Γ r → Offers (σ :: outer) Φ → a.target Γ Φ r = some found →
    ∀ (s : Build) (q : List Instr), ∃ s' σ',
      ReadsTo known outer base Γ r a.size s.parts.length (a.code r) q s s' σ σ' found.2 ∧
        σ'.find? (a.operand r) = some (targetVar found.1) ∧ (a.bare = false → s'.calls = s.calls)
  | .term t, σ, r, found, _, hσ, _, htarget, s, q => by
    have hknown : Γ.knows t.vars = true := by
      by_contra hk
      simp [Arg.target, hk] at htarget
    obtain rfl : (t.type Γ, t.trees Γ r) = found := by simpa [Arg.target, hknown] using htarget
    have hvars : ∀ x ∈ t.vars, (Γ x).isSome = true := all_eq_true.mp hknown
    have hsub := t.asked_subset
    obtain ⟨σ', hread, hσ', hval, hkeeps⟩ := t.computations hσ (fun x hx => (hσ.plain x (hvars x hx)).1)
      (all_eq_true.mpr fun x hx => hvars x (hsub.1 hx))
    refine ⟨s, σ', ⟨⟨_, (hread known outer s q).statements, le_rfl, fun _ _ _ => rfl,
      fun _ _ => rfl, fun part _ => t.whole_trees Γ r part⟩, hσ', hkeeps⟩,
      hval (all_eq_true.mpr fun x hx => hvars x (hsub.2 hx)), fun _ => rfl⟩
  | .call f args, σ, r, found, hserved, hσ, hΦ, htarget, s, q => by
    simp only [Arg.target, bind_eq_some_iff, Option.some.injEq] at htarget
    obtain ⟨⟨types, nodes⟩, hargs, ⟨e, p⟩, hcallee, rfl⟩ := htarget
    let t := opened s r args.count
    have hfind : Target.Build.find? (.name (reg (r + 1))) t.arguments = some s.parts.length :=
      find?_put _ (by simp [Operand.same]) _ _
    obtain ⟨s1, σ1, ⟨⟨items, hread, hcollects⟩, hσ1, hkeeps⟩, hvals, hpart, hcalls⟩ :=
      args.reads known hserved (hσ.mono (Nat.le_add_right r 2)) hΦ hargs t
        (.call (.name f) (.name (reg (r + 1))) :: .result (.name (reg (r + args.size + 3))) :: q)
        (r + 1) s.parts.length s.calls [] (by omega) (fun _ => by simp [t, opened]) hfind
        (by simp [t, opened]) (by simp [t, opened, part])
    have hfind1 := (hcollects.arguments (r + 1) (by omega)).trans hfind
    have hnew := hσ1.regs (r + args.size + 3) (by omega)
    have hcall := reads_call known (q := q) hvals ((hΦ.of_typed hσ hσ1) f types (e, p) hcallee).2
      hfind1 (by rw [hpart]; simp [argumentsIn]) hnew
    have hrun := (reads_args args.count).trans (hread.trans hcall)
    rw [show _ :: _ = (Arg.call f args).code r ++ q by simp [Arg.code]] at hrun
    refine ⟨s1, σ1.bind (reg (r + args.size + 3)) (targetVar p), ⟨⟨_, hrun, ?_⟩, hσ1.bind_reg (by omega) p, ?_⟩,
      find?_bind_self hnew, fun hbare => ?_⟩
    · have hlen := hcollects.length
      simp only [t, opened, length_append, length_singleton] at hlen
      refine ⟨by omega, fun m hm hne => ?_, fun j hj => ?_, fun part h => ?_⟩
      · rw [hcollects.part m (by simp [t, opened]; omega) hne]
        simp [t, opened, part, getElem?_append_left hm]
      · rw [hcollects.arguments j (by omega)]
        exact find?_put_of_ne (fun h => by rw [reg_inj] at h; omega) _ _
      rw [nil_append, settleAll_append, hcollects.settle part fun m hm hm' =>
        h m (by simp [t, opened] at hm; omega) hm']
      simp [settleAll, Target.Node.settle, h s.parts.length le_rfl (by omega), hpart, declarationOf]
    · exact Keeps.append (n := 1) (hkeeps.mono (by omega) (by omega)) (keeps_bind hnew (by omega) (by omega) _)
    cases args with
    | nil => simp [Arg.bare] at hbare
    | cons a rest => simpa using hcalls

/-- Arguments are read back to their trees and collected for the call on top of the stack. -/
theorem Args.reads (known : Option ScopeTable) : ∀ (args : Args) {σ : Scope} {r : Nat} {found : List Prim × List Target.Node},
    args.served = true → TypedOver base σ Γ r → Offers (σ :: outer) Φ →
    args.target Γ Φ r = some found → ∀ (s : Build) (q : List Instr) (j k : Nat)
      (calls : List (Operand × Int)) (done : List Target.Node), j ≤ r →
      (args.count ≠ 0 → s.calls = (.name (reg j), ((done.length + args.count : Nat) : Int)) :: calls) →
      Target.Build.find? (.name (reg j)) s.arguments = some k → k < s.parts.length →
      s.part k = .list done → ∃ s' σ',
      ReadsTo known outer base Γ r args.size k (args.code r) q s s' σ σ' found.2 ∧
        List.Forall₂ (fun x p => σ'.find? x = some (targetVar p)) (args.operands r) found.1 ∧
        s'.part k = .list (done ++ (args.operands r).map .text) ∧
        s'.calls = if args.count = 0 then s.calls else calls
  | .nil, σ, r, found, _, hσ, _, htarget, s, q, j, k, calls, done, _, _, _, _, hpart => by
    obtain rfl : ([], []) = found := by simpa [Args.target] using htarget
    refine ⟨s, σ, ⟨⟨[], .refl _, le_rfl, fun _ _ _ => rfl, fun _ _ => rfl, fun _ _ => rfl⟩, hσ, .refl _⟩, .nil, by simpa [Args.operands] using hpart, rfl⟩
  | .cons a rest, σ, r, found, hserved, hσ, hΦ, htarget, s, q, j, k, calls, done, hj, hcalls, hfind, hk, hpart => by
    simp only [Args.target, bind_eq_some_iff, Option.some.injEq] at htarget
    obtain ⟨⟨p, nodes⟩, ha, ⟨types, nodes'⟩, hrest, rfl⟩ := htarget
    simp only [Args.served, Bool.and_eq_true, Bool.not_eq_true'] at hserved
    obtain ⟨s1, σ1, ⟨⟨items, hread, hcollects⟩, hσ1, hkeeps⟩, hval, hcalls1⟩ :=
      a.reads known hserved.1.2 hσ hΦ ha s (.arg (.name (a.operand r)) :: (rest.code (r + a.size) ++ q))
    have hlen := hcollects.length
    have hpart1 : s1.part k = .list done := (hcollects.part k hk (by omega)).trans hpart
    have hfind1 := (hcollects.arguments j hj).trans hfind
    have hstack : s1.calls = (.name (reg j), ((done.length + (rest.count + 1) : Nat) : Int)) :: calls :=
      (hcalls1 hserved.1.1).trans (hcalls (Nat.succ_ne_zero _))
    let s2 : Build := { s1 with
      parts := s1.parts.set k (.list (done ++ [.text (a.operand r)]))
      calls := if (done.length + 1 : Int) = (done.length + (rest.count + 1) : Nat) then calls else s1.calls }
    have hstep : Collects k (r + a.size) s1 s2 [] [] :=
      ⟨by simp [s2], fun m _ hne => part_set_of_ne hne _ rfl, fun _ _ => rfl, fun _ _ => rfl⟩
    obtain ⟨s3, σ2, ⟨⟨items', hread', hcollects'⟩, hσ2, hkeeps'⟩, hvals, hpart', hcalls'⟩ :=
      rest.reads known hserved.2 hσ1 (hΦ.of_typed hσ hσ1) hrest s2 q j k calls
        (done ++ [.text (a.operand r)]) (by omega)
        (fun hne => by simp [s2, hne, hstack]; omega) hfind1 (by simp [s2]; omega)
        (by simp [s2, part, hk.trans_le hlen])
    have hrun := (hread.trans (reads_arg hstack hfind1 hpart1)).trans hread'
    rw [show a.code r ++ _ = (Args.cons a rest).code r ++ q by simp] at hrun
    have hfirst : Collects k r s s1 items nodes :=
      ⟨hlen, fun m hm _ => hcollects.part m hm (by omega), hcollects.arguments, hcollects.settle⟩
    have hall := (hfirst.trans hstep hk (by omega)).trans hcollects' hk (by omega)
    rw [List.append_nil nodes] at hall
    refine ⟨s3, σ2, ⟨⟨_, hrun, hall⟩, ?_, hkeeps.append hkeeps'⟩, .cons ?_ hvals, ?_, ?_⟩
    · rw [Args.size, ← Nat.add_assoc]
      exact hσ2
    · rw [hkeeps' _ (a.not_taken_operand hσ ha _), hval]
    · simpa [Args.operands] using hpart'
    · by_cases hzero : rest.count = 0 <;> simp [hcalls', s2, hzero]

end

/-- Nested calls are read back with exactly their own arguments, if no argument is a call without
arguments. -/
theorem calls_receive_own_arguments (known : Option ScopeTable) (a : Arg) (hserved : a.served = true)
    (hscopes : s.table.scopes = σ :: outer) (hσ : TypedOver base σ Γ r)
    (hΦ : Offers (σ :: outer) Φ) {p : Prim} {nodes : List Target.Node}
    (htarget : a.target Γ Φ r = some (p, nodes)) :
    ∃ code, (∀ f : Flat, f.registers = r → (flatten .fourth a.node).run f =
        .ok (.name (a.operand r)) { f with code := f.code ++ code, registers := r + a.size }) ∧
      rebuilt known { s with queue := code } = some (.block nodes) := by
  refine ⟨a.code r, fun f hf => hf ▸ a.run_flatten f, ?_⟩
  obtain ⟨s', σ', ⟨⟨items, hread, hcollects⟩, -, -⟩, -, -⟩ := a.reads known hserved hσ hΦ htarget s []
  have hstart : inside outer s (a.code r ++ []) σ = { s with queue := a.code r } := by
    rw [inside, ← hscopes, List.append_nil]
  rw [hstart] at hread
  rw [rebuilt, run_of_statements hread rfl]
  exact congrArg (fun items => some (Target.Node.block items)) (hcollects.settle _ fun _ _ _ => rfl)

def promptedPrint : Arg := .call "print" (.cons (.call "input_int" (.cons (.term (.var "prompt")) .nil)) .nil)

def promptSignatures : Signatures := fun f types =>
  if f = "print" ∧ types = [.int] then some ("print_int", .none)
  else if f = "input_int" ∧ types = [.str] then some ("input_int_s", .int)
  else if f = "input_int" ∧ types = [] then some ("input_int", .int) else none

def promptScope : Scope := ScopeTable.builtins4.bind "prompt" (targetVar .str)

theorem offers_prompt : Offers [promptScope] promptSignatures := by
  intro f types callee h
  simp only [promptSignatures] at h
  split_ifs at h with h1 h2 h3 <;> cases h
  · obtain ⟨rfl, rfl⟩ := h1
    exact ⟨fun h => absurd h.head (by decide), rfl⟩
  · obtain ⟨rfl, rfl⟩ := h2
    exact ⟨fun h => absurd h.head (by decide), rfl⟩
  · obtain ⟨rfl, rfl⟩ := h3
    exact ⟨fun h => absurd h.head (by decide), rfl⟩

theorem calls_receive_own_arguments_prompt : ∃ code,
    (∀ f : Flat, f.registers = 0 → (flatten .fourth promptedPrint.node).run f =
      .ok (.name (reg 6)) { f with code := f.code ++ code, registers := 6 }) ∧
    rebuilt none { Build.fresh .fourth code with table := ⟨[promptScope], [], [], ""⟩ } =
      some (.block [declarationOf (reg 5) .int, .assign (.ident (reg 5))
          (.call (.text "input_int_s") (.list [.text "prompt"])),
        declarationOf (reg 6) .none, .assign (.ident (reg 6)) (.call (.text "print_int") (.list [.text (reg 5)]))]) :=
  calls_receive_own_arguments none promptedPrint rfl
    (s := { Build.fresh .fourth [] with table := ⟨[promptScope], [], [], ""⟩ }) rfl
    (typed_builtins.bind_var (fun h => absurd h.head (by decide)) rfl rfl .str) offers_prompt rfl

/-- Without a prompt, the number that is read is taken for an argument of the call that reads it. -/
theorem nested_bare_call_misses :
    let a : Arg := .call "print" (.cons (.call "input_int" .nil) .nil)
    (a.target .empty promptSignatures 0).isSome = true ∧ rebuilt none (.fresh .fourth (a.code 0)) = none :=
  ⟨rfl, by decide +kernel⟩

end Tabc.Core
