import Tabc.Proofs.Rebuild.Chains
import Tabc.Proofs.Rebuild.Instructions

/-!
# Reading programs back

The code of a core program is read back to its target trees (`Block.rebuilds`), if the types that are asked
for are known and no further condition stands inside a last alternative. The statement is about any state and
any code that follows.
-/

open List

namespace Tabc.Core

open ScopeTable
open Bool (and_eq_true)
open Target Target.Build
open Target.Node (settleAll settle)

variable {known : Option ScopeTable} {s s' s1 s2 : Build} {Γ Γ1 Γ2 : Types} {r r1 r2 : Nat} {σ : Scope} {q : List Instr}

theorem settleAll_eq_map (part : Nat → Target.Node) (items : List Target.Node) :
    settleAll part items = items.map (settle part) := by
  induction items with
  | nil => rfl
  | cons n items ih => rw [settleAll, ih, map_cons]

theorem settleAll_append (part : Nat → Target.Node) (a b : List Target.Node) :
    settleAll part (a ++ b) = settleAll part a ++ settleAll part b := by simp only [settleAll_eq_map, map_append]

/-- No part of these trees was left open. -/
def Whole (items : List Target.Node) : Prop := ∀ part, settleAll part items = items

theorem Whole.append (ha : Whole a) (hb : Whole b) : Whole (a ++ b) := fun part => by rw [settleAll_append, ha, hb]

theorem Whole.getLast? (h : Whole items) : Whole items.getLast?.toList := by
  intro part
  have hmap := h part
  rw [settleAll_eq_map] at hmap ⊢
  rw [← Option.toList_map, ← getLast?_map, hmap]

theorem Term.whole_trees (t : Term) (Γ : Types) (r : Nat) : Whole (t.trees Γ r) := by
  induction t generalizing r with
  | const a => exact fun _ => rfl
  | var x => exact fun _ => rfl
  | unary op a ih => exact (ih r).append fun _ => rfl
  | binary a op b iha ihb => exact ((iha r).append (ihb _)).append fun _ => rfl

theorem Tail.whole_heads : ∀ (t : Tail) (Γ : Types) (r : Nat), Whole (t.heads Γ r)
  | .done, _, _ => fun _ => rfl
  | .elif cond _ rest, Γ, r => (cond.whole_trees Γ r).append (rest.whole_heads _ _)
  | .otherwise _, _, _ => fun _ => rfl

theorem Types.whole_assignment (Γ : Types) (x : String) (t : Prim) (operand : String) :
    Whole (Γ.assignment x t operand) := by
  intro part
  unfold Types.assignment
  split <;> rfl

/-- Statements become these trees when their open parts are filled in; no part that is open already
changes. -/
structure Settles (s s' : Build) (items nodes : List Target.Node) : Prop where
  parts : s.parts <+: s'.parts
  settle : ∀ parts, s'.parts <+: parts → settleAll (fun n => parts.getD n .none) items = nodes

namespace Settles

variable {a b c d : List Target.Node}

theorem of_whole (hparts : s.parts <+: s'.parts) (h : Whole a) : Settles s s' a a := ⟨hparts, fun _ _ => h _⟩

theorem append (h : Settles s s1 a b) (h' : Settles s1 s2 c d) : Settles s s2 (a ++ c) (b ++ d) where
  parts := h.parts.trans h'.parts
  settle parts hparts := by rw [settleAll_append, h.settle parts (h'.parts.trans hparts), h'.settle parts hparts]

end Settles

/-- Code is read back to these trees, whatever follows it. The types and the number of registers
that are taken change on the way. -/
def Rebuilds (known : Option ScopeTable) (code : List Instr) (Γ : Types) (r : Nat) (Γ' : Types)
    (r' : Nat) (nodes : List Target.Node) : Prop :=
  ∀ (s : Build) (q : List Instr) (σ : Scope), Typed σ Γ r → ∃ items s' σ',
    Statements known (after s (code ++ q) σ) items (after s' q σ') ∧ Typed σ' Γ' r' ∧ Settles s s' items nodes

theorem Rebuilds.append {a b : List Instr} {m n : List Target.Node}
    (h : Rebuilds known a Γ r Γ1 r1 m) (h' : Rebuilds known b Γ1 r1 Γ2 r2 n) :
    Rebuilds known (a ++ b) Γ r Γ2 r2 (m ++ n) := by
  intro s q σ hσ
  obtain ⟨items, s1, σ1, hread, hσ1, hsettle⟩ := h s (b ++ q) σ hσ
  obtain ⟨items', s2, σ2, hread', hσ2, hsettle'⟩ := h' s1 q σ1 hσ1
  refine ⟨items ++ items', s2, σ2, ?_, hσ2, hsettle.append hsettle'⟩
  rw [List.append_assoc]
  exact hread.trans hread'

/-- The jump behind an alternative or a body makes no statement. -/
theorem Rebuilds.jumped (h : Rebuilds known code Γ r Γ1 r1 nodes)
    (hσ : Typed σ Γ r) (s : Build) (label : String) (q : List Instr) : ∃ items s' σ',
      Statements known (after s (code ++ .goto (.name label) :: q) σ) items (after s' q σ') ∧
      Typed σ' Γ1 r1 ∧ Settles s s' items nodes := by
  obtain ⟨items, s1, σ1, hread, hσ1, hsettle⟩ := h s (.goto (.name label) :: q) σ hσ
  obtain ⟨s2, hgoto, hparts⟩ := reads_goto label
  have hitems := hread.trans hgoto
  rw [List.append_nil] at hitems
  exact ⟨items, s2, σ1, hitems, hσ1, hparts ▸ hsettle.parts, fun parts h => hsettle.settle parts (hparts ▸ h)⟩

theorem rebuilds_assign {value : Term} (hx : ¬ IsReg x)
    (hvars : ∀ y ∈ value.vars, ¬ IsReg y) (hasked : Γ.knows value.asked = true)
    (hvalue : (Γ.taken x || Γ.knows value.direct) = true) :
    Rebuilds known (value.code r ++ [.assign (.name x) (.name (value.operand r))]) Γ r
      (Γ.assigned x (value.type Γ)) (r + value.size)
      (value.trees Γ r ++ Γ.assignment x (value.type Γ) (value.operand r)) := by
  intro s q σ hσ
  obtain ⟨σ1, hread, hσ1, hfind, -⟩ := value.computations hσ hvars hasked
  rw [Bool.or_eq_true] at hvalue
  obtain ⟨σ2, hassign, hσ2⟩ := reads_assign hσ1 hx rfl (hvalue.imp_right hfind)
  refine ⟨_, s, σ2, ?_, hσ2, .of_whole prefix_rfl ((value.whole_trees Γ r).append (Γ.whole_assignment _ _ _))⟩
  rw [List.append_assoc]
  exact (hread known [] s _).statements.trans hassign.quiet

theorem find?_put (o : Operand) (ho : o.same o = true) (v : Nat) (l : List (Operand × Nat)) :
    Target.Build.find? o (put o v l) = some v := by
  induction l with
  | nil => simp [put, Target.Build.find?, ho]
  | cons e l ih =>
    rw [put]
    by_cases he : e.1.same o = true
    · simp [he, Target.Build.find?]
    · simp [he, Target.Build.find?, ih]

theorem emittedIn_print (hσ : Typed σ Γ r) (hp : p ≠ .none) :
    emittedIn "print" [.target (.prim p)] [σ] = .ok ("print_" ++ p.name, .type (.prim .none)) := by
  have hreg : ¬ IsReg "print" := fun h => by have := h.head; simp at this
  have hfind : σ.find? "print" = builtins4.find? "print" := by
    rw [hσ.names _ hreg]
    rfl
  rw [emittedIn, hfind]
  cases p <;> first | exact absurd rfl hp | rfl

def targetTypes (types : List Prim) : List Held := types.map fun p => .target (.prim p)

variable {outer : List Scope} {values : List String} {n : Nat} {cond : Term} {code : List Instr}
  {nodes heads nodes' : List Target.Node}

theorem run_argumentTypes (h : List.Forall₂ (fun x p => σ.find? x = some (targetVar p)) values types)
    {get : String → Target.BuildM Ty} (hget : ∀ x, get x = typeOf (.name x)) :
    (values.mapM get).run (inside outer s q σ) = .ok (types.map Ty.prim) (inside outer s q σ) := by
  induction h with
  | nil => rfl
  | cons hx _ ih => simp [hget, run_typeOf hx, ih]

theorem reads_call (known : Option ScopeTable) {c : Operand}
    (htypes : List.Forall₂ (fun x p => σ.find? x = some (targetVar p)) values types)
    (hcallee : emittedIn f (targetTypes types) (σ :: outer) = .ok (e, .type (.prim p)))
    (hfind : Target.Build.find? c s.arguments = some n)
    (hpart : argumentsIn (s.part n) = values.map .text) (hk : σ.find? (reg k) = none) :
    Statements known (inside outer s (.call (.name f) c :: .result (.name (reg k)) :: q) σ)
      [declarationOf (reg k) p, .assign (.ident (reg k)) (.call (.text e) (.later n))]
      (inside outer s q (σ.bind (reg k) (targetVar p))) := by
  refine reads_of_core (.stmts _) trivial (Nat.le_succ _) rfl fun fuel hfuel => ?_
  rw [length_cons] at hfuel
  obtain ⟨fuel, rfl⟩ : ∃ m, fuel = m + 2 := ⟨fuel - 2, by omega⟩
  let q' : List Instr := .result (.name (reg k)) :: q
  have hresult : (buildInstr .fourth none (fuel + 2) (.result (.name (reg k)))).run
      (inside outer s q σ) = .ok (.operand (.name (reg k))) (inside outer s q σ) :=
    buildInstr_ok (by rw [buildCore]; rfl)
  have hpop : pop.run (inside outer s q' σ) = .ok (.result (.name (reg k))) (inside outer s q σ) := run_pop rfl
  have hemitted : (onTable (emittedFunction f (targetTypes types))).run
      (inside outer s q' σ) = .ok (e, .type (.prim p)) (inside outer s q' σ) := by
    simp [onTable, emittedFunction, inside, hcallee]
  have hfind' : Target.Build.find? c (inside outer s q' σ).arguments = some n := hfind
  have hpart' : argumentsIn ((inside outer s q' σ).part n) = values.map .text := hpart
  have hheld : (types.map Ty.prim).map Held.target = targetTypes types := by simp [targetTypes]
  rw [buildCore, call]
  change EStateM.run _ (inside outer s q' σ) = _
  simp only [EStateM.run_bind, EStateM.run_get, hfind', hpart', mapM_map]
  rw [run_argumentTypes htypes]
  · simp [hheld, hemitted, resultType, hpop, hresult, declared, run_declare hk, ident, declarationOf]
  · exact fun _ => rfl

theorem rebuilds_print (hx : (Γ x).isSome = true) (hnone : Γ x ≠ some .none) :
    Rebuilds known ((Stmt.print x).code r l) Γ r Γ (r + 3) ((Stmt.print x).trees Γ r) := by
  intro s q σ hσ
  obtain ⟨p, hp⟩ := Option.isSome_iff_exists.mp hx
  let n := s.parts.length
  let c : Operand := .name (reg (r + 1))
  let s1 : Build := { s with
    parts := s.parts ++ [.list []], calls := (c, 1) :: s.calls, arguments := put c n s.arguments }
  let s2 : Build := { s with
    parts := s.parts ++ [.list [.text x]], arguments := put c n s.arguments }
  have hfind : Target.Build.find? c (put c n s.arguments) = some n :=
    find?_put c (by simp [c, Operand.same]) n s.arguments
  let rest : List Instr := .call (.name "print") c :: .result (.name (reg (r + 3))) :: q
  have hargs : Statements known (after s (.args (.name (reg (r + 2))) c 1 :: .arg (.name x) :: rest) σ) []
      (after s1 (.arg (.name x) :: rest) σ) := by
    refine reads_of_core (.operand .nothing) rfl le_rfl rfl fun fuel _ => ?_
    rfl
  have harg : Statements known (after s1 (.arg (.name x) :: rest) σ) [] (after s2 rest σ) := by
    refine reads_of_core (.operand .nothing) rfl le_rfl rfl fun fuel _ => ?_
    rw [buildCore]
    simp [argument, s1, s2, inside, hfind, Target.Build.part, n, argumentsIn, setPart,
      Target.Node.ofOperand, Made.nothing]
  have hpart : argumentsIn (s2.part n) = [.text x] := by simp [s2, Target.Build.part, n, argumentsIn]
  have hval : σ.find? x = some (targetVar p) := by rw [hσ.find?_known hx, hp]; rfl
  have hcall := reads_call known (q := q) (.cons hval .nil)
    (emittedIn_print hσ fun h => hnone (h ▸ hp)) hfind hpart (hσ.regs (r + 3) (by omega))
  refine ⟨_, s2, _, (hargs.trans harg).trans hcall, hσ.bind_reg (by omega) .none, prefix_append _ _, fun parts h => ?_⟩
  have hlater : parts[n]?.getD .none = .list [.text x] := by
    obtain ⟨more, rfl⟩ := h
    simp [s2, n]
  simp [settleAll, settle, hlater, Stmt.trees, declarationOf, Term.type, hp]

theorem rebuilds_while (hvars : ∀ y ∈ cond.vars, ¬ IsReg y) (hasked : Γ.knows cond.asked = true)
    (hbody : Rebuilds known code Γ (r + cond.size) Γ1 r1 nodes) (m n : Nat) :
    Rebuilds known (.label (.name (whileMark m)) :: cond.code r ++
        .branch (.name (mark n)) (.name (cond.operand r)) :: code ++
        [.goto (.name (whileMark m)), .label (.name (mark n))]) Γ r Γ1 r1
      (cond.trees Γ r ++ [.whileDo (.ident (cond.operand r))
        (.block (nodes ++ (cond.trees Γ r).getLast?.toList))]) := by
  intro s q σ hσ
  simp only [cons_append, List.append_assoc, nil_append]
  obtain ⟨σ1, hcond, hσ1, -, -⟩ := cond.computations hσ hvars hasked
  obtain ⟨items, s1, σ2, hitems, hσ2, hsettle⟩ := hbody.jumped hσ1 s (whileMark m) (.label (.name (mark n)) :: q)
  have hends : s1.ends = s.ends := hitems.ends
  refine ⟨cond.trees Γ r ++ [.whileDo (.ident (cond.operand r))
    (.block (items ++ (cond.trees Γ r).getLast?.toList))], s1, σ2,
    reads_of_core (.stmts _) trivial ?_ hends fun fuel hfuel => ?_, hσ2, ?_⟩
  · simp only [length_append, length_cons]
    omega
  · rw [buildCore_whileMark]
    exact run_whileHead (hcond known [] s _) rfl hitems rfl (Nat.le_succ_of_le hfuel)
  refine (Settles.of_whole prefix_rfl (cond.whole_trees Γ r)).append ⟨hsettle.parts, fun parts h => ?_⟩
  rw [settleAll, settle, settle, settleAll_append, hsettle.settle parts h, (cond.whole_trees Γ r).getLast?]
  rfl

/-- The rest of a chain, which ends at a label, is read back to these trees behind the chain so far
and to the operations in front of it. -/
def Continues (known : Option ScopeTable) (code : List Instr) (stop : String) (Γ : Types) (r : Nat)
    (Γ' : Types) (r' : Nat) (heads nodes : List Target.Node) : Prop :=
  ∀ (s : Build) (q : List Instr) (σ : Scope) (front back : List Target.Node)
    (ends : List (Operand × Nat)), Typed σ Γ r → s.ends = (.name stop, front.length) :: ends →
    ∃ items s' σ', (∀ fuel, 4 * (code ++ Instr.label (.name stop) :: q).length + 1 ≤ fuel →
      (do more .fourth known fuel (front ++ back) (← pop)).run
          (after s (code ++ Instr.label (.name stop) :: q) σ) =
        .ok (.stmts (front ++ heads ++ (back ++ items))) (after s' q σ')) ∧
      s'.ends = ends ∧ Typed σ' Γ' r' ∧ Settles s s' items nodes

theorem continues_done (stop : String) (Γ : Types) (r : Nat) : Continues known [] stop Γ r Γ r [] [] := by
  intro s q σ front back ends hσ hends
  refine ⟨[], { s with ends := ends }, σ, fun fuel hfuel => ?_, rfl, hσ, .of_whole prefix_rfl fun _ => rfl⟩
  obtain _ | k := fuel
  · omega
  rw [List.append_nil, List.append_nil]
  exact run_more_finish (s := after s _ σ) rfl hends k _

theorem continues_otherwise (hbody : Rebuilds known code Γ r Γ1 r1 nodes) (hne : code ≠ [])
    (helif : code.any isElif = false) (hstop : mark n ∉ labels code) :
    Continues known code (mark n) Γ r Γ1 r1 [] [.elseThen (.block nodes)] := by
  intro s q σ front back ends hσ hends
  obtain ⟨items, s1, σ1, hread, hσ1, hsettle⟩ := hbody s (.label (.name (mark n)) :: q) σ hσ
  refine ⟨[.elseThen (.block items)], { s1 with ends := ends }, σ1, fun fuel hfuel => ?_, rfl, hσ1,
    hsettle.parts, fun parts h => ?_⟩
  · obtain _ | k := fuel
    · omega
    have hrest := run_otherwise hread hends rfl (Nat.le_of_succ_le_succ hfuel)
    rw [List.append_nil, ← List.append_assoc]
    exact run_more_otherwise
      (continuation_otherwise hends hne helif hstop) hrest (hread.ends.trans hends) _
  · rw [settleAll, settle, settle, hsettle.settle parts h]
    rfl

/-- The code of an alternative of a chain and of what follows it there. -/
abbrev alternative (branch : Operand → Operand → Instr) (cond : Term) (r n : Nat) (code : List Instr)
    (stop : String) (rest : List Instr) : List Instr :=
  cond.code r ++ branch (.name (mark n)) (.name (cond.operand r)) :: code ++
    .goto (.name stop) :: .label (.name (mark n)) :: rest

variable {rest : List Instr} {stop : String} (hvars : ∀ y ∈ cond.vars, ¬ IsReg y) (hasked : Γ.knows cond.asked = true)

include hvars hasked

theorem continues_elif (hbody : Rebuilds known code Γ (r + cond.size) Γ1 r1 nodes)
    (hrest : Continues known rest stop Γ1 r1 Γ2 r2 heads nodes') :
    Continues known (alternative .elseBranch cond r n code stop rest) stop Γ r Γ2 r2
      (cond.trees Γ r ++ heads) (.elifThen (.ident (cond.operand r)) (.block nodes) :: nodes') := by
  intro s q σ front back ends hσ hends
  simp only [alternative, cons_append, List.append_assoc]
  obtain ⟨σ1, hcond, hσ1, -, -⟩ := cond.computations hσ hvars hasked
  -- the number of operations in front of the chain grows
  let t : Build := { s with ends := (.name stop, front.length + (cond.trees Γ r).length) :: ends }
  obtain ⟨items, s2, σ2, hitems, hσ2, hsettle⟩ := hbody.jumped hσ1 t stop
    (.label (.name (mark n)) :: (rest ++ .label (.name stop) :: q))
  have hends2 : s2.ends = (.name stop, (front ++ cond.trees Γ r).length) :: ends := by
    rw [length_append]
    exact hitems.ends
  obtain ⟨items', s3, σ3, hmore, hends3, hσ3, hsettle'⟩ := hrest s2 q σ2 (front ++ cond.trees Γ r)
    (back ++ [.elifThen (.ident (cond.operand r)) (.block items)]) ends hσ2 hends2
  refine ⟨.elifThen (.ident (cond.operand r)) (.block items) :: items', s3, σ3,
    fun fuel hfuel => ?_, hends3, hσ3, hsettle.parts.trans hsettle'.parts, fun parts h => ?_⟩
  · obtain _ | k := fuel
    · omega
    have hlen := Nat.le_of_succ_le_succ hfuel
    have hhead := run_condition (hcond known [] s _) rfl hlen
    simp only [length_append, length_cons] at hlen
    have hrun := run_body hitems rfl (show 4 * (code ++ _).length ≤ k by
      simp only [length_append, length_cons]; omega)
    refine (run_more_condition (cond.continuation_eq r hends) hhead hends hrun back).trans ?_
    refine (hmore k (by simp only [length_append, length_cons]; omega)).trans ?_
    simp only [List.append_assoc, cons_append, nil_append]
  · rw [settleAll, settle, settle, hsettle.settle parts (hsettle'.parts.trans h), hsettle'.settle parts h]

theorem rebuilds_chain (hmark : mark n ∉ labels code) (hheads : Whole heads)
    (hbody : Rebuilds known code Γ (r + cond.size) Γ1 r1 nodes)
    (hrest : Continues known rest stop Γ1 r1 Γ2 r2 heads nodes') :
    Rebuilds known (alternative .branch cond r n code stop rest ++ [.label (.name stop)]) Γ r Γ2 r2
      (cond.trees Γ r ++ heads ++ .ifThen (.ident (cond.operand r)) (.block nodes) :: nodes') := by
  intro s q σ hσ
  simp only [alternative, cons_append, List.append_assoc, nil_append]
  obtain ⟨σ1, hcond, hσ1, -, -⟩ := cond.computations hσ hvars hasked
  let t : Build := { s with ends := (.name stop, 0) :: s.ends }
  obtain ⟨items, s2, σ2, hitems, hσ2, hsettle⟩ := hbody.jumped hσ1 t stop
    (.label (.name (mark n)) :: (rest ++ .label (.name stop) :: q))
  obtain ⟨items', s3, σ3, hmore, hends3, hσ3, hsettle'⟩ := hrest s2 q σ2 []
    [.ifThen (.ident (cond.operand r)) (.block items)] s.ends hσ2 hitems.ends
  refine ⟨cond.trees Γ r ++ (heads ++ .ifThen (.ident (cond.operand r)) (.block items) :: items'),
    s3, σ3, (hcond known [] s _).statements.trans
      (reads_of_core (.stmts _) trivial ?_ hends3 fun fuel hfuel => ?_), hσ3, ?_⟩
  · simp only [length_append, length_cons]
    omega
  · have hstop : chainLabel (.name (mark n)) (code ++ .goto (.name stop) :: .label (.name (mark n)) ::
        (rest ++ .label (.name stop) :: q)) = .ok (.name stop) := chainLabel_eq hmark
    have hlen := hfuel
    simp only [length_append, length_cons] at hlen
    have hrun := run_body hitems rfl hfuel
    refine (run_chain hstop hrun).trans ?_
    exact hmore fuel (by simp only [length_append, length_cons]; omega)
  · refine (Settles.of_whole prefix_rfl (cond.whole_trees Γ r)).append
      ((Settles.of_whole prefix_rfl hheads).append ⟨hsettle.parts.trans hsettle'.parts, fun parts h => ?_⟩)
    rw [settleAll, settle, settle, hsettle.settle parts (hsettle'.parts.trans h), hsettle'.settle parts h]

omit hvars hasked

mutual

/-- A statement without loops over a range. -/
def Stmt.rangeless : Stmt → Bool
  | .assign .. => true
  | .print _ => true
  | .whileDo _ body => body.rangeless
  | .forRange .. => false
  | .chain _ body rest => body.rangeless && rest.rangeless

def Block.rangeless : Block → Bool
  | .nil => true
  | .cons s rest => s.rangeless && rest.rangeless

def Tail.rangeless : Tail → Bool
  | .done => true
  | .elif _ body rest => body.rangeless && rest.rangeless
  | .otherwise body => body.rangeless

end

theorem Block.code_cons_ne_nil (s : Stmt) (rest : Block) (r l : Nat) : (Block.cons s rest).code r l ≠ [] := by
  cases s <;> simp [Block.code, Stmt.code]

theorem Within.not_mem (h : Within l n names) (hk : k ≤ l) : mark k ∉ names := by
  intro hmem
  obtain ⟨j, hj, -, hnum⟩ := h _ hmem
  have : k = j := Numbered.inj (.inl rfl) hnum
  omega

mutual

theorem Stmt.rebuilds : ∀ (s : Stmt) (Γ : Types) (r l : Nat), s.rangeless = true →
    s.legible = true → s.bound Γ = true → (∀ x ∈ s.vars, ¬ IsReg x) →
    Rebuilds known (s.code r l) Γ r (s.types Γ) (r + s.regs) (s.trees Γ r)
  | .assign x type value, Γ, r, l, _, _, hbound, hvars => by
    simp only [Stmt.bound, and_eq_true] at hbound
    exact rebuilds_assign (hvars x (by simp [Stmt.vars])) (forall_mem_cons.1 hvars).2 hbound.1 hbound.2
  | .print x, Γ, r, l, _, _, hbound, _ => by
    simp only [Stmt.bound, and_eq_true, bne_iff_ne] at hbound
    exact rebuilds_print hbound.1 hbound.2
  | .whileDo cond body, Γ, r, l, hrange, hlegible, hbound, hvars => by
    simp only [Stmt.bound, and_eq_true] at hbound
    have hbody := body.rebuilds Γ (r + cond.size) (l + 2) hrange hlegible hbound.2 (forall_mem_append.1 hvars).2
    rw [Stmt.regs, ← Nat.add_assoc]
    exact rebuilds_while (forall_mem_append.1 hvars).1 hbound.1 hbody _ _
  | .forRange .., _, _, _, hrange, _, _, _ => by simp [Stmt.rangeless] at hrange
  | .chain cond body rest, Γ, r, l, hrange, hlegible, hbound, hvars => by
    simp only [Stmt.rangeless, Stmt.legible, Stmt.bound, and_eq_true] at hrange hlegible hbound
    obtain ⟨k, -, hk, hstop⟩ := body.chainEnd_within l
    have hbody := body.rebuilds Γ (r + cond.size) (l + 2) hrange.1 hlegible.1 hbound.1.2
      fun y hy => hvars y (by simp [Stmt.vars, hy])
    have hrest := rest.continues (body.types Γ) (r + cond.size + body.regs) (l + 2 + body.labels) k
      hk hrange.2 hlegible.2 hbound.2 (forall_mem_append.1 hvars).2
    rw [← hstop] at hrest
    rw [Stmt.regs, ← Nat.add_assoc, ← Nat.add_assoc]
    exact rebuilds_chain (fun y hy => hvars y (by simp [Stmt.vars, hy])) hbound.1.1
      ((body.within_labels _ _).not_mem (by omega)) (rest.whole_heads _ _) hbody hrest

theorem Block.rebuilds : ∀ (p : Block) (Γ : Types) (r l : Nat), p.rangeless = true →
    p.legible = true → p.bound Γ = true → (∀ x ∈ p.vars, ¬ IsReg x) →
    Rebuilds known (p.code r l) Γ r (p.types Γ) (r + p.regs) (p.trees Γ r)
  | .nil, Γ, r, l, _, _, _, _ => fun s q σ hσ => ⟨[], s, σ, .refl _, hσ, .of_whole prefix_rfl fun _ => rfl⟩
  | .cons s rest, Γ, r, l, hrange, hlegible, hbound, hvars => by
    simp only [Block.rangeless, Block.legible, Block.bound, and_eq_true] at hrange hlegible hbound
    have hs := s.rebuilds Γ r l hrange.1 hlegible.1 hbound.1 (forall_mem_append.1 hvars).1
    have hrest := rest.rebuilds (s.types Γ) (r + s.regs) (l + s.labels) hrange.2 hlegible.2 hbound.2
      (forall_mem_append.1 hvars).2
    rw [Block.regs, ← Nat.add_assoc]
    exact hs.append hrest

theorem Tail.continues : ∀ (t : Tail) (Γ : Types) (r l n : Nat), n ≤ l → t.rangeless = true →
    t.legible = true → t.bound Γ = true → (∀ x ∈ t.vars, ¬ IsReg x) →
    Continues known (t.code (mark n) r l) (mark n) Γ r (t.types Γ) (r + t.regs) (t.heads Γ r) (t.trees Γ r)
  | .done, Γ, r, l, n, _, _, _, _, _ => continues_done (mark n) Γ r
  | .elif cond body rest, Γ, r, l, n, hn, hrange, hlegible, hbound, hvars => by
    simp only [Tail.rangeless, Tail.legible, Tail.bound, and_eq_true] at hrange hlegible hbound
    have hbody := body.rebuilds Γ (r + cond.size) (l + 1) hrange.1 hlegible.1 hbound.1.2
      fun y hy => hvars y (by simp [Tail.vars, hy])
    have hrest := rest.continues (body.types Γ) (r + cond.size + body.regs) (l + 1 + body.labels) n
      (by omega) hrange.2 hlegible.2 hbound.2 (forall_mem_append.1 hvars).2
    rw [Tail.regs, ← Nat.add_assoc, ← Nat.add_assoc]
    exact continues_elif (fun y hy => hvars y (by simp [Tail.vars, hy])) hbound.1.1 hbody hrest
  | .otherwise .nil, Γ, r, l, n, _, _, _, _, _ => continues_done (mark n) Γ r
  | .otherwise (.cons s rest), Γ, r, l, n, hn, hrange, hlegible, hbound, hvars => by
    simp only [Tail.legible, and_eq_true] at hlegible
    have hbody := (Block.cons s rest).rebuilds Γ r l hrange hlegible.1 hbound hvars
    have helif := (Block.cons s rest).any_isElif r l
    rw [hlegible.2] at helif
    exact continues_otherwise hbody (Block.code_cons_ne_nil s rest r l) helif
      (((Block.cons s rest).within_labels _ _).not_mem hn)

end

end Tabc.Core
