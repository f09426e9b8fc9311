import Tabc.Proofs.Declaration.Flattened
import Tabc.Proofs.Declaration.Progress
import Tabc.Proofs.Rebuild.Limits
import Tabc.Proofs.Typing.Scopes

/-!
# Reading functions back

The end of a function is the label that the last jump in front of it waits for. Any loop or condition in the
body jumps itself: then the function ends somewhere else (`function_rebuilt_iff`).
-/

open List

namespace Tabc.Core

open ScopeTable hiding fresh
open Target Target.Build Declaration

variable {known : Option ScopeTable} {s s' : Build} {outer : List Scope} {σ : Scope} {Γ : Types}
  {q : List Instr} {fuel : Nat}

/-- A function with primitive parameters that returns a value at its end. -/
structure Func where
  name : String
  params : List (String × Prim)
  body : Block
  value : Term
  result : Prim

def paramNode (p : String × Prim) : Node := .param (.type (.prim p.2)) (.ident p.1)

def paramCode : Nat → List (String × Prim) → List Instr
  | _, [] => []
  | r, p :: rest => .param (.name (reg (r + 1))) (.tree (.ident p.1)) :: paramCode (r + 1) rest

/-- What the code of parameters becomes. -/
def paramsMade : Nat → List (String × Prim) → List (Made × Operand)
  | _, [] => []
  | r, p :: rest => (.operand (.tree (.ident p.1)), .name (reg (r + 1))) :: paramsMade (r + 1) rest

def Block.linear : Block → Bool
  | .nil => true
  | .cons (.assign ..) rest => rest.linear
  | .cons .. => false

namespace Func

variable (f : Func)

def node : Node :=
  .funDef (.ident f.name) (.params (if f.params = [] then none else some (f.params.map paramNode)))
    (.block (f.body.nodes ++ [.ret f.value.node])) (.type (.prim f.result))

def label : String := Flat.labelName .fourth ("FUNC_" ++ f.name) 2

def regs : Nat := 1 + f.params.length

/-- The code of the body. -/
def inner : List Instr :=
  f.body.code f.regs 2 ++ f.value.code (f.regs + f.body.regs) ++ [.ret (.name (f.value.operand (f.regs + f.body.regs)))]

/-- The code behind the label. -/
def behind : List Instr :=
  .params (.name (reg 1)) f.params.length :: (paramCode 1 f.params ++ (f.inner ++ [.label (.name (mark 1))]))

def code : List Instr := .goto (.name (mark 1)) :: .label (.name f.label) :: f.behind

def types : Types := f.params.foldl (fun Γ p => Γ.assigned p.1 p.2) .empty

def trees : List Target.Node :=
  f.body.trees f.types f.regs ++ f.value.trees (f.body.types f.types) (f.regs + f.body.regs) ++
    [.ret (.ident (f.value.operand (f.regs + f.body.regs)))]

/-- The declaration of the function with some body. -/
def declaration (items : List Target.Node) : Target.Node :=
  .function (.ident (f.name ++ "2221"))
    (.params (f.params.map fun p => .param (.type (.prim p.2)) (.source (.ident p.1))))
    (.block items) (.type (.prim f.result))

/-- All names of the function but its own are those of variables. -/
def names : List String := f.params.map Prod.fst ++ f.body.vars ++ f.value.vars

theorem run_emitParams : ∀ (ps : List (String × Prim)) (s : Flat),
    (Flat.emitParams .fourth (ps.map paramNode)).run s = .ok ()
      { s with code := s.code ++ paramCode s.registers ps, registers := s.registers + ps.length }
  | [], s => by simp [Flat.emitParams, paramCode]
  | p :: rest, s => by
    simp [Flat.emitParams, paramNode, paramCode, Operand.ofNode, run_emitParams rest, Nat.add_assoc, Nat.add_comm 1]

theorem parts_params : (Node.params (if f.params = [] then none else
    some (f.params.map paramNode))).parts = .ok (f.params.map paramNode) := by
  by_cases hps : f.params = [] <;> simp [hps, Node.parts] <;> rfl

theorem ofProgram_node (h : f.body.tidy = true) : Flat.ofProgram .fourth [f.node] = .ok f.code := by
  have hword : Flat.functionWord .fourth (.ident f.name) = .ok ("FUNC_" ++ f.name) := rfl
  obtain ⟨s, hhead, hcode, hregs, hlabels⟩ : ∃ s, (Flat.emitHead .fourth (.ident f.name) (.params
      (if f.params = [] then none else some (f.params.map paramNode)))).run Flat.empty = .ok (mark 1) s ∧
      s.code = [.goto (.name (mark 1)), .label (.name f.label), .params (.name (reg 1)) f.params.length] ++
        paramCode 1 f.params ∧ s.registers = f.regs ∧ s.labels = 2 := by
    simp [Flat.emitHead, hword, f.parts_params, run_emitParams, Flat.empty, regs, label, mark]
  obtain ⟨spots, -, hbody⟩ := run_flattenAll_block f.body s h
  rw [Flat.ofProgram]
  simp [Flat.flattenAll, node, Flat.flatten, hhead, Flat.flattenBody, run_flattenAll_append, hbody,
    run_flatten_term, extended, hcode, hregs, hlabels, code, behind, inner]
  rfl

theorem ask_functionByNames {ts : List (Option Ty)} {table : ScopeTable} (hname : builtins4.find? f.name = none)
    (h : (typecheck .fourth [f.node]).run (.fresh .fourth) = .ok ts table) :
    ask (some table) (functionByNames f.name (f.params.map fun p => .ident p.1)) =
      .ok (f.params.map fun p => .type (.prim p.2), .type (.prim f.result)) := by
  let names : List ParamName := f.params.map fun p => .ident p.1
  let types : List Held := f.params.map fun p => .type (.prim p.2)
  let o : Overload := .declared names types (.type (.prim f.result))
  let t : ScopeTable := { ScopeTable.fresh .fourth with
    scopes := [builtins4.bind f.name (.functions [o])]
    expected := [.type (.prim f.result)] }
  have hparams : (f.params.map paramNode).mapM (Typing.parameter .fourth) =
      .ok (f.params.map fun p => (ParamName.ident p.1, Held.type (.prim p.2))) := by
    induction f.params with
    | nil => rfl
    | cons p rest ih => rw [map_cons, mapM_cons, ih]; rfl
  have hdeclare : (declareFunction f.name (f.params.map fun p => (.ident p.1, .type (.prim p.2)))
      (.type (.prim f.result))).run (.fresh .fourth) = .ok () t := by
    simp [declareFunction, ScopeTable.fresh, baseScopes, top, hname, setTop, t, o, names, types, Function.comp_def]
  obtain ⟨ty, t1, hcheck, h1⟩ := of_run_bind h
  cases h1
  have hrest : (do
      (do expect (.type (.prim f.result))
          openScope
          Typing.declareParams .fourth (f.params.map paramNode))
      Typing.checkBody .fourth true (.block (f.body.nodes ++ [.ret f.value.node]))
      Typing.closeFunction
      return none : ScopeM (Option Ty)).run t = .ok ty table := by
    have hname : (Node.ident f.name).nameText = .ok f.name := rfl
    rw [node, Typing.check, Typing.openFunction] at hcheck
    simpa [f.parts_params, hname, hparams, Typing.needTable, Held.ofNode, hdeclare] using hcheck
  have hgrows := Along.opened (.grows_opens (along_expect _) fun _ =>
      .opens_grows along_openScope fun _ => Typing.along_declareParams _ _)
    (fun _ => (Typing.grows_rules .fourth).body fun n _ => Typing.along_check _ _ n)
    (fun _ _ => .closes_grows Typing.along_closeFunction fun _ => .pure _) hrest
  obtain ⟨top, htop, hgrow⟩ := hgrows rfl
  obtain ⟨entry, hfind, hentry⟩ := hgrow (find?_bind_self hname)
  cases hentry with
  | functions hmore =>
    obtain ⟨more, rfl⟩ := hmore
    have hby : byNamesIn f.name names table.scopes = .ok (types, .type (.prim f.result)) := by
      rw [htop, byNamesIn, hfind]
      simp only [cons_append, namedIn, o, beq_self_eq_true, ↓reduceIte]
      rfl
    simp only [names] at hby
    simp [ask, functionByNames, hby]
    rfl

theorem run_paramList : ∀ (ps : List (String × Prim)) (r fuel : Nat) (acc : List (Made × Operand)) {s : Build},
    s.queue = paramCode r ps ++ q → ps.length + 2 ≤ fuel →
    (paramList .fourth fuel ps.length acc).run s = .ok (acc ++ paramsMade r ps) { s with queue := q }
  | [], r, fuel, acc, s, hq, hfuel => by
    obtain _ | k := fuel
    · omega
    rw [paramList]
    simp only [paramCode, nil_append] at hq
    simp [paramsMade, ← hq]
  | p :: rest, r, fuel, acc, s, hq, hfuel => by
    rw [length_cons] at hfuel
    obtain ⟨k, rfl⟩ : ∃ k, fuel = k + 3 := ⟨fuel - 3, by omega⟩
    have hmade {t : Build} : (buildInstr .fourth none (k + 2) (.param (.name (reg (r + 1))) (.tree (.ident p.1)))).run t
        = .ok (.operand (.tree (.ident p.1))) t := buildInstr_ok (by rw [buildCore]; rfl)
    rw [paramList, if_neg (by simp only [length_cons]; omega), run_bind_of_ok (run_pop hq), run_bind_of_ok hmade]
    have hrest := run_paramList rest (r + 1) (k + 2) (acc ++ [(.operand (.tree (.ident p.1)), .name (reg (r + 1)))])
      (s := { s with queue := paramCode (r + 1) rest ++ q }) rfl (by omega)
    simpa [Instr.register?, paramsMade] using hrest

theorem run_declareParams (outer : List Scope) : ∀ (ps : List (String × Prim)) {Γ : Types} {σ : Scope}
    {r : Nat} (done : List ParamName),
    TypedOver [] σ Γ r → (ps.map Prod.fst).Nodup →
    (∀ p ∈ ps, ¬ IsReg p.1 ∧ Γ.taken p.1 = false) → ∃ σ',
    (declareParams .fourth done (((((paramsMade r ps).map fun m => paramName .fourth m.1).zip
      ((paramsMade r ps).map (·.2))).zip (ps.map fun p => .prim p.2)).map
        fun ((n, r), t) => (n, r, t))).run (inside outer s q σ) = .ok () (inside outer s q σ') ∧
      TypedOver [] σ' (ps.foldl (fun Γ p => Γ.assigned p.1 p.2) Γ) (r + ps.length)
  | [], Γ, σ, r, done, hσ, _, _ => ⟨σ, rfl, hσ⟩
  | p :: rest, Γ, σ, r, done, hσ, hnodup, hps => by
    obtain ⟨⟨hreg, hnew⟩, hrest⟩ := forall_mem_cons.1 hps
    rw [map_cons, nodup_cons] at hnodup
    have hbase : Scope.has [] p.1 = builtins4.has p.1 := by
      rw [Types.taken, Bool.or_eq_false_iff] at hnew
      exact hnew.2.symm
    have hfind : σ.find? p.1 = none := by
      have := hσ.has_iff hreg hbase
      simpa [hnew, Scope.has] using this
    have hvar := hσ.bind_var hreg hbase hnew p.2
    have hboth := hvar.bind_reg (Nat.lt_succ_self r) p.2
    obtain ⟨σ', hrun, hσ'⟩ := run_declareParams outer rest (.ident p.1 :: done) hboth hnodup.2
      fun p' hp' => ⟨(hrest p' hp').1, by
        have hne : p'.1 ≠ p.1 := fun h => hnodup.1 (h ▸ mem_map_of_mem hp')
        rw [← (hrest p' hp').2, Types.assigned, if_neg (by simp [hnew]), Types.taken,
          Function.update_of_ne hne, Types.taken]⟩
    refine ⟨σ', ?_, by rw [length_cons, Nat.add_comm rest.length, ← Nat.add_assoc]; exact hσ'⟩
    simp only [paramsMade, map_cons, zip_cons_cons, paramName]
    rw [declareParams]
    simp only [EStateM.run_bind, run_declare hfind, run_declare (hvar.regs (r + 1) (Nat.lt_succ_self r))]
    exact hrun

theorem map_paramsMade : ∀ (ps : List (String × Prim)) (r : Nat),
    ((paramsMade r ps).map fun m => paramName .fourth m.1) = ps.map (fun p => .ident p.1) ∧
      (((paramsMade r ps).zip (ps.map fun p => Ty.prim p.2)).map
        fun ((m, _), t) => Target.Node.param (.type t) (paramVar m)) =
      ps.map fun p => .param (.type (.prim p.2)) (.source (.ident p.1))
  | [], _ => ⟨rfl, rfl⟩
  | p :: rest, r => by
    obtain ⟨hnames, hnodes⟩ := map_paramsMade rest (r + 1)
    simp only [paramsMade, map_cons, zip_cons_cons, hnames, hnodes]
    exact ⟨rfl, rfl⟩

theorem mapM_convert (ps : List (String × Prim)) :
    (ps.map fun p => Held.type (.prim p.2)).mapM convert = .ok (ps.map fun p => .prim p.2) := by
  induction ps with
  | nil => rfl
  | cons p rest ih => rw [map_cons, mapM_cons, ih]; rfl

variable {f} (hname : builtins4.find? f.name = none) (hparams : (f.params.map Prod.fst).Nodup)
  (hnames : ∀ x ∈ f.names, ¬ IsReg x ∧ builtins4.has x = false)
  (hask : ask known (functionByNames f.name (f.params.map fun p => .ident p.1)) =
    .ok (f.params.map fun p => .type (.prim p.2), .type (.prim f.result)))

include hname hparams hnames hask

theorem run_openFunction (hs : s.table = .fresh .fourth) : ∃ below t σ,
    (openFunction .fourth known f.name (paramsMade 1 f.params)).run s = .ok f.declaration
      (inside [below] { s with table := t } s.queue σ) ∧ TypedOver [] σ f.types f.regs := by
  obtain ⟨hmade, hnodes⟩ := map_paramsMade f.params 1
  let types := (f.params.map fun p => Ty.prim p.2).map Held.target
  let below : Scope := builtins4.bind f.name
    (.functions [.emitted (f.name ++ "2221") types (.type (.prim f.result))])
  let t0 : ScopeTable := { ScopeTable.fresh .fourth with numbers := Scope.suffixes.tail }
  let t : ScopeTable := { t0 with scopes := [below] }
  have htable : (emitFunction f.name types (.type (.prim f.result))).run (.fresh .fourth) =
      .ok (f.name ++ "2221") t := by
    have htop : t0.top.find? f.name = none := hname
    rw [emitFunction, run_bind_of_ok (show (freshName f.name).run _ = .ok (f.name ++ "2221") t0 from rfl)]
    simp only [EStateM.run_bind, EStateM.run_get, htop]
    rfl
  have hemit : (onTable (emitFunction f.name types (.type (.prim f.result)))).run s =
      .ok (f.name ++ "2221") { s with table := t } := by
    simp only [onTable, EStateM.run_bind, EStateM.run_get, hs, htable]
    rfl
  have hempty : TypedOver [] [] Types.empty 1 :=
    ⟨fun _ _ => rfl, fun x hx => by simp [Types.empty] at hx, fun _ _ => rfl⟩
  obtain ⟨σ, hdeclare, hσ⟩ := run_declareParams [below] f.params [] hempty hparams
    (s := { s with table := t }) (q := s.queue) fun p hp => by
      have := hnames p.1 (by simp [names, mem_map_of_mem hp])
      exact ⟨this.1, by simp [Types.taken, Types.empty, this.2]⟩
  refine ⟨below, t, σ, ?_, hσ⟩
  rw [hmade] at hdeclare
  have hopen : (onTable openScope).run { s with table := t } =
    .ok () (inside [below] { s with table := t } s.queue []) := rfl
  rw [openFunction]
  simp only [hmade, hask, run_ofExcept_ok, EStateM.run_bind, mapM_convert, convert, run_ofExcept_pure]
  simp only [show (f.params.map fun p => Ty.prim p.2).map Held.target = types from rfl, hemit, hopen, hdeclare, hnodes]
  rfl

theorem run_label_iff (hkind : labelKind f.label = .function) (hs : s.table = .fresh .fourth)
    (hq : s.queue = f.behind) : ∃ below t σ, TypedOver [] σ f.types f.regs ∧
    ∀ fuel made s', f.params.length ≤ fuel →
      ((buildInstr .fourth known (fuel + 5) (.label (.name f.label))).run s = .ok made s' ↔
        ∃ items s1, (functionBody .fourth known (fuel + 2) []).run (inside [below]
            { s with table := t } (f.inner ++ [.label (.name (mark 1))]) σ) = .ok items s1 ∧
          (onTable closeScope).run s1 = .ok () s' ∧ made = .stmts [f.declaration items]) := by
  let s1 : Build := { s with queue := f.inner ++ [.label (.name (mark 1))] }
  obtain ⟨below, t, σ, hopen, hσ⟩ := run_openFunction hname hparams hnames hask (s := s1) hs
  refine ⟨below, t, σ, hσ, fun fuel made s' hfuel => ?_⟩
  let s2 : Build := { s with queue := paramCode 1 f.params ++ s1.queue }
  have hlist := run_paramList f.params 1 (fuel + 2) [] (s := s2) rfl (by omega)
  have hcore : (buildCore .fourth known (fuel + 4) (.label (.name f.label))).run s = (do
      let items ← functionBody .fourth known (fuel + 2) []
      onTable closeScope
      return Made.stmts [f.declaration items]).run (inside [below] { s with table := t } s1.queue σ) := by
    rw [buildCore_label, hkind, label, functionName_labelName]
    rw [run_bind_of_ok (run_pop hq), functionHead]
    simp only [Instr.size?]
    rw [run_bind_of_ok hlist]
    exact run_bind_of_ok hopen
  constructor
  · intro h
    rw [run_buildCore_of_buildInstr h] at hcore
    obtain ⟨items, s2, hbody, h1⟩ := of_run_bind hcore.symm
    obtain ⟨_, s3, hclose, h2⟩ := of_run_bind h1
    cases h2
    exact ⟨items, s2, hbody, hclose, rfl⟩
  · rintro ⟨items, s2, hbody, hclose, rfl⟩
    refine buildInstr_ok (hcore.trans ?_)
    rw [run_bind_of_ok hbody, run_bind_of_ok hclose]
    rfl

end Func

theorem Block.operations : ∀ (p : Block) {Γ : Types} {σ : Scope} {r : Nat} (l : Nat) (q : List Instr),
    p.linear = true → p.bound Γ = true → (∀ x ∈ p.vars, ¬ IsReg x ∧ builtins4.has x = false) →
    TypedOver [] σ Γ r → Whole (p.trees Γ r) ∧
      ∃ σ', Operations known (inside outer s (p.code r l ++ q) σ) (p.trees Γ r) (inside outer s q σ') ∧
        TypedOver [] σ' (p.types Γ) (r + p.regs)
  | .nil, Γ, σ, r, l, q, _, _, _, hσ => ⟨fun _ => rfl, σ, .refl _, hσ⟩
  | .cons (.assign x type value) rest, Γ, σ, r, l, q, hlinear, hbound, hvars, hσ => by
    simp only [Block.bound, Stmt.bound, Bool.and_eq_true, Bool.or_eq_true] at hbound
    obtain ⟨⟨hasked, hvalue⟩, hrest⟩ := hbound
    obtain ⟨hx, hfree⟩ := hvars x (by simp [Block.vars, Stmt.vars])
    obtain ⟨σ1, hread, hσ1, hfind, -⟩ := value.computations hσ
      (fun y hy => (hvars y (by simp [Block.vars, Stmt.vars, hy])).1) hasked
    obtain ⟨σ2, hassign, hσ2⟩ := reads_assign hσ1 hx hfree.symm (hvalue.imp_right hfind)
    obtain ⟨hwhole, σ3, hrest, hσ3⟩ := rest.operations (l + (Stmt.assign x type value).labels) q hlinear
      hrest (forall_mem_append.1 hvars).2 hσ2
    refine ⟨((value.whole_trees Γ r).append (Γ.whole_assignment _ _ _)).append hwhole, σ3, ?_, ?_⟩
    · rw [Block.code, Stmt.code, List.append_assoc, List.append_assoc]
      exact ((hread known outer s _).operations.trans hassign).trans hrest
    · rw [Block.regs, ← Nat.add_assoc]
      exact hσ3
  | .cons (.print _) _, _, _, _, _, _, h, _, _, _ | .cons (.whileDo ..) _, _, _, _, _, _, h, _, _, _
  | .cons (.forRange ..) _, _, _, _, _, _, h, _, _, _ | .cons (.chain ..) _, _, _, _, _, _, h, _, _, _ => by
    cases h

theorem Func.operations (f : Func) (hlinear : f.body.linear = true) (hbound : f.body.bound f.types = true)
    (hvalue : (f.body.types f.types).knows f.value.asked = true)
    (hnames : ∀ x ∈ f.names, ¬ IsReg x ∧ builtins4.has x = false)
    (hσ : TypedOver [] σ f.types f.regs) : Whole f.trees ∧
      ∃ σ', Operations known (inside outer s (f.inner ++ q) σ) f.trees (inside outer s q σ') := by
  let ret : Instr := .ret (.name (f.value.operand (f.regs + f.body.regs)))
  obtain ⟨hwhole, σ1, hbody, hσ1⟩ := f.body.operations 2
    (f.value.code (f.regs + f.body.regs) ++ ret :: q) hlinear hbound
    (fun x hx => hnames x (by simp [names, hx])) hσ
  obtain ⟨σ2, hread, -, -, -⟩ := f.value.computations hσ1 (fun x hx => (hnames x (by simp [names, hx])).1) hvalue
  refine ⟨(hwhole.append (f.value.whole_trees _ _)).append fun _ => rfl, σ2, ?_⟩
  have hret : Operations known (inside outer s (ret :: q) σ2)
      [.ret (.ident (f.value.operand (f.regs + f.body.regs)))] (inside outer s q σ2) :=
    reads_stmts ⟨rfl, _, rfl⟩ fun fuel => by rw [buildCore]; rfl
  have hall := (hbody.trans (hread known outer s _).operations).trans hret
  rwa [inner, List.append_assoc, List.append_assoc]

theorem waiting_of_single (hi : single i = true) (h : Does known i s made s') : s'.waiting = s.waiting := by
  have hrun := run_buildCore_of_buildInstr (h.run (4 * s.queue.length + 4) (by omega))
  have hstill {act : BuildM Made} (hact : Still act) (hrun : act.run s = .ok made s') :
      s'.waiting = s.waiting := congrArg (·.2.2) (hact.left_eq hrun)
  cases i with
  | literal | unary | binary | assign | ret =>
    first
    | exact hstill (still_literal _ _) hrun
    | exact hstill (still_unary _ _ _) hrun
    | exact hstill (still_binary _ _ _ _) hrun
    | exact hstill (still_assign _ _ _) hrun
    | exact hstill (still_ret _) hrun
  | _ => cases hi

variable {items acc : List Target.Node}

theorem run_functionBody {n : Nat} {rest : List Operand} (h : Operations known s items s')
    (hs : s.waiting = .name (mark n) :: rest) (hq : s'.queue = .label (.name (mark n)) :: q)
    (hfuel : 4 * s.queue.length ≤ fuel) :
    (functionBody .fourth known fuel []).run s = .ok items
      { s' with queue := q, seen := s'.seen ++ [.name (mark n)], waiting := rest } := by
  obtain ⟨fuel', hs', hfuel', hloop⟩ := h.loopWith
    (fun hP hi hs => (waiting_of_single hP.1 hi).trans hs)
    (show Loops known _ _ (functionBody .fourth known) from fun fuel acc s i q made s1 hq hP hs1 hrun => by
      obtain ⟨-, items, rfl⟩ := hP
      rw [functionBody, run_bind_of_ok (run_pop hq), run_bind_of_ok hrun]
      cases items with
      | nil => simp [Made.present, itemsOf]
      | cons a items => simp [Made.present, itemsOf, hs1, Made.isLabel, Made.addTo])
    hs 0 fuel [] hfuel
  simp only [hq, length_cons, nil_append] at hfuel' hloop
  obtain _ | k := fuel'
  · omega
  rw [hloop, functionBody, run_bind_of_ok (run_pop hq), run_bind_of_ok (run_label n (by omega))]
  simp [Made.present, Operand.present, mark_ne_empty, hs', Made.isLabel, Operand.same]

theorem Block.exists_goto : ∀ (p : Block) (r l : Nat), p.plain = true → p.linear = false → ∃ o, .goto o ∈ p.code r l
  | .nil, _, _, _, h => by cases h
  | .cons (.assign x type value) rest, r, l, hplain, h => by
    simp only [Block.plain, Bool.and_eq_true] at hplain
    obtain ⟨o, ho⟩ := rest.exists_goto _ _ hplain.2 h
    exact ⟨o, mem_append_right _ ho⟩
  | .cons (.print _) _, _, _, h, _ | .cons (.forRange ..) _, _, _, h, _ => by cases h
  | .cons (.whileDo ..) _, _, l, _, _ => ⟨.name (whileMark (l + 1)), mem_append_left _ (by simp [Stmt.code])⟩
  | .cons (.chain _ body _) _, _, l, _, _ => ⟨.name (body.chainEnd l), mem_append_left _ (by simp [Stmt.code])⟩

theorem eq_of_isLabel (h : Made.isLabel o (.operand (.name x)) = true) : o = .name x := by
  cases o <;> simp_all [Made.isLabel, Operand.same]

theorem exists_of_run_functionBody (hs : AllSimple s) (h : (functionBody .fourth known fuel acc).run s = .ok items s') :
    ∃ t n rest, Used s t ∧ t.queue = .label (.name (mark n)) :: s'.queue ∧ t.waiting = .name (mark n) :: rest := by
  induction fuel generalizing s acc with
  | zero => rw [functionBody] at h; cases h
  | succ fuel ih =>
    obtain ⟨i, s1, hpop, h1⟩ := of_run_bind h
    obtain ⟨made, s2, hmade, h2⟩ := of_run_bind h1
    cases eq_back_of_run_pop hpop
    have hused := (consumes fuel).instr i s1 made s2 hs hmade
    have hrest {acc : List Target.Node} (h : (functionBody .fourth known fuel acc).run s2 = .ok items s') :
        ∃ t n rest, Used (back i s1) t ∧ t.queue = .label (.name (mark n)) :: s'.queue ∧
          t.waiting = .name (mark n) :: rest := by
      obtain ⟨t, n, rest, ht, hend⟩ := ih (hs.suffix hused.queue) h
      exact ⟨t, n, rest, hused.trans ht, hend⟩
    split at h2
    · have h3 := of_run_bind_ok h2 rfl
      split at h3
      · cases h3
      rename_i label rest hw
      split at h3
      · rename_i hlabel
        rcases made_of_instr (hs i (.head _)) hmade with ⟨new, rfl, -⟩ | ⟨n, rfl, rfl, rfl⟩
        · cases hlabel
        obtain rfl := eq_of_isLabel hlabel
        cases h3
        exact ⟨back _ s2, n, rest, .of_left rfl, rfl, hw⟩
      · obtain ⟨acc', s3, hacc, h4⟩ := of_run_bind h3
        rw [(eq_of_run_ofExcept hacc).2] at h4
        exact hrest h4
    · exact hrest h2

theorem length_of_program (hs : AllSimple s) (h : (program .fourth known fuel acc).run s = .ok items s') :
    acc.length ≤ items.length ∧ ∀ n, .label (.name (mark n)) ∈ s.queue → acc.length < items.length := by
  induction fuel generalizing s acc with
  | zero => rw [program] at h; cases h
  | succ fuel ih =>
    have h1 := of_run_bind_ok h rfl
    split at h1
    · rename_i hq
      cases h1
      exact ⟨le_rfl, by simp [hq]⟩
    · obtain ⟨i, s1, hpop, h2⟩ := of_run_bind h1
      obtain ⟨made, s2, hmade, h3⟩ := of_run_bind h2
      cases eq_back_of_run_pop hpop
      have hused := (consumes fuel).instr i s1 made s2 hs hmade
      rcases made_of_instr (hs i (.head _)) hmade with ⟨new, rfl, hnew⟩ | ⟨n, rfl, rfl, rfl⟩
      · have h4 := of_run_bind_ok h3 rfl
        obtain ⟨hle, hlt⟩ := ih (hs.suffix hused.queue) h4
        rw [length_append] at hle hlt
        refine ⟨by omega, fun n hn => ?_⟩
        by_cases hnil : new = []
        · obtain ⟨⟨o, rfl⟩, hq⟩ := hnew hnil
          have := hlt n (hq ▸ (mem_cons.1 hn).resolve_left (by simp))
          omega
        · have := length_pos_iff.2 hnil
          omega
      · have h4 := of_run_bind_ok h3 rfl
        have hle := (ih (hs.suffix hused.queue) h4).1
        have hpos : 0 < (mark n).toList.length := by simp [mark_toList]
        rw [length_append, length_map] at hle
        exact ⟨by omega, fun _ _ => by omega⟩

variable (f : Func) (hplain : f.body.plain = true)

include f hplain

theorem Func.simple_inner : ∀ i ∈ f.inner ++ [.label (.name (mark 1))], Simple i := by
  simp only [inner, mem_append, mem_singleton]
  rintro i (((hi | hi) | rfl) | rfl)
  · exact (f.body.proper _ _ hplain i hi).1
  · exact (f.value.proper (l := 0) (n := 0) _ i hi).1
  · trivial
  · exact ⟨1, .inl rfl⟩

theorem Func.goto_not_mem : .goto (.name (mark 1)) ∉ f.inner ++ [.label (.name (mark 1))] := by
  simp only [inner, mem_append, mem_singleton, reduceCtorEq, or_false]
  rintro (h | h)
  · exact f.body.goto_not_mem hplain (by omega) h
  · cases f.value.computes_code _ _ h

theorem Func.label_left (hlinear : f.body.linear = false)
    (hq : s.queue = f.inner ++ [.label (.name (mark 1))]) (hseen : s.seen = [])
    (hw : s.waiting = [.name (mark 1)])
    (h : (functionBody .fourth known fuel []).run s = .ok items s') :
    AllSimple s' ∧ .label (.name (mark 1)) ∈ s'.queue := by
  have hs : AllSimple s := fun i hi => f.simple_inner hplain i (hq ▸ hi)
  obtain ⟨t, n, rest, hused, ht, hwait⟩ := exists_of_run_functionBody hs h
  have hsuffix : s'.queue <:+ s.queue := (ht ▸ suffix_cons _ _).trans hused.queue
  refine ⟨hs.suffix hsuffix, ?_⟩
  rcases eq_nil_or_concat s'.queue with hnil | ⟨front, last, hlast⟩
  · -- the function ends at the last label, but the last jump that was read goes somewhere else
    exfalso
    obtain ⟨pre, hpre⟩ := hused.queue
    rw [ht, hnil, hq] at hpre
    have hmark := (append_inj' hpre rfl).2
    rw [singleton_inj, Instr.label.injEq] at hmark
    have hjumps := hused.jumps
    simp only [jumps, ht, hnil, hwait, hseen, hw, hmark, filterMap_cons, jump?, filterMap_nil,
      reverse_nil, nil_append] at hjumps
    obtain ⟨o, ho⟩ := f.body.exists_goto f.regs 2 hplain hlinear
    have hjump : o ∈ (s.queue.filterMap (jump? [])).reverse :=
      mem_reverse.2 (mem_filterMap.2 ⟨.goto o, by simp [hq, inner, ho], rfl⟩)
    cases hrev : (s.queue.filterMap (jump? [])).reverse with
    | nil => simp only [hrev, not_mem_nil] at hjump
    | cons a as =>
      rw [hrev, cons_append, List.cons.injEq] at hjumps
      have ha : a ∈ (s.queue.filterMap (jump? [])).reverse := hrev ▸ (.head _)
      obtain ⟨i, hi, hia⟩ := mem_filterMap.1 (mem_reverse.1 ha)
      cases i with
      | goto o =>
        cases hia
        exact f.goto_not_mem hplain (hq ▸ hjumps.1 ▸ hi)
      | _ => cases hia
  · obtain ⟨pre, hpre⟩ := hsuffix
    rw [hlast, hq, concat_eq_append, ← List.append_assoc] at hpre
    rw [hlast, singleton_inj.1 (append_inj' hpre rfl).2]
    simp

omit f hplain

/-- A function as the checker accepts it, with the types that are asked for known. The checker asks for them,
too, but lets a declaration use its own variable (`x: int = x`). The name of the function does not look like
the label of a loop, and no name is that of a register or of a built-in function. -/
structure Func.Legal (f : Func) : Prop where
  plain : f.body.plain = true
  tidy : f.body.tidy = true
  bound : f.body.bound f.types = true
  value : (f.body.types f.types).knows f.value.asked = true
  label : labelKind f.label = .function
  name : builtins4.find? f.name = none
  names : ∀ x ∈ f.names, ¬ IsReg x ∧ builtins4.has x = false
  params : (f.params.map Prod.fst).Nodup

theorem length_paramCode : ∀ (ps : List (String × Prim)) (r : Nat), (paramCode r ps).length = ps.length
  | [], _ => rfl
  | _ :: rest, r => congrArg (· + 1) (length_paramCode rest (r + 1))

/-- The state behind the label of a function. -/
def Func.entered (f : Func) : Build :=
  { Build.fresh .fourth f.code with queue := f.behind, waiting := [.name (mark 1)] }

/-- A program that is one function is built exactly if the body is and then what is left. -/
theorem Func.run_code_iff {f : Func} (h : f.Legal)
    (hask : ask known (functionByNames f.name (f.params.map fun p => .ident p.1)) =
      .ok (f.params.map fun p => .type (.prim p.2), .type (.prim f.result))) :
    ∃ below t σ, TypedOver [] σ f.types f.regs ∧ ∀ out,
      (∃ s', (Target.Build.run .fourth known f.code).run (.fresh .fourth f.code) = .ok out s') ↔
      ∃ items s1 s2 all s', (functionBody .fourth known (4 * f.behind.length + 19) []).run
          (inside [below] { f.entered with table := t } (f.inner ++ [.label (.name (mark 1))]) σ) = .ok items s1 ∧
        (onTable closeScope).run s1 = .ok () s2 ∧
        (program .fourth known (4 * f.behind.length + 22) [f.declaration items]).run s2 = .ok all s' ∧
        out = .block (Target.Node.settleAll s'.part all) := by
  obtain ⟨below, t, σ, hσ, hiff⟩ := run_label_iff h.name h.params h.names hask h.label (s := f.entered) rfl rfl
  refine ⟨below, t, σ, hσ, fun out => ?_⟩
  have hlen : f.params.length ≤ 4 * f.behind.length + 17 := by
    simp only [behind, length_cons, length_append, length_paramCode]
    omega
  let s : Build := { f.entered with queue := .label (.name f.label) :: f.behind }
  have hgoto : (program .fourth known (fuelFor f.code.length) []).run (.fresh .fourth f.code) =
      (program .fourth known (4 * f.behind.length + 23) []).run s := by
    have hfuel : fuelFor f.code.length = 4 * f.behind.length + 23 + 1 := by
      simp only [fuelFor, code, length_cons]
      omega
    have hjump : (buildInstr .fourth known (4 * f.behind.length + 23) (.goto (.name (mark 1)))).run
        { Build.fresh .fourth f.code with queue := s.queue } = .ok (.stmts []) s :=
      buildInstr_ok (by rw [buildCore]; rfl)
    exact loops_program (I := fun _ => True) _ [] (.fresh .fourth f.code) _ _ _ _ rfl (by trivial) trivial hjump
  rw [Target.Build.run]
  constructor
  · rintro ⟨s', hrun⟩
    obtain ⟨all, s1, hprogram, h1⟩ := of_run_bind hrun
    cases h1
    rw [hgoto] at hprogram
    have h2 := of_run_bind_ok hprogram rfl
    rw [run_bind_of_ok (run_pop rfl)] at h2
    obtain ⟨made, s2, hmade, h3⟩ := of_run_bind h2
    obtain ⟨items, s3, hbody, hclose, rfl⟩ := (hiff (4 * f.behind.length + 17) made s2 hlen).1 hmade
    exact ⟨items, s3, s2, all, s', hbody, hclose, h3, rfl⟩
  · rintro ⟨items, s1, s2, all, s', hbody, hclose, hprogram, rfl⟩
    have hmade := (hiff (4 * f.behind.length + 17) _ s2 hlen).2 ⟨items, s1, hbody, hclose, rfl⟩
    refine ⟨s', ?_⟩
    rw [run_bind_of_ok (hgoto.trans ((loops_program (I := fun _ => True) _ [] s _ _ _ _ rfl (by trivial) trivial hmade).trans hprogram))]
    rfl

/-- A checked function is rebuilt from its code as one declaration exactly if its body has neither
loops nor conditions. Then the declaration holds the statements of the body in order. -/
theorem function_rebuilt_iff {f : Func} {ts : List (Option Ty)} {table : ScopeTable} (h : f.Legal)
    (hcheck : (typecheck .fourth [f.node]).run (.fresh .fourth) = .ok ts table) :
    ∃ code, Flat.ofProgram .fourth [f.node] = .ok code ∧ ∀ tree,
      rebuilt (some table) (.fresh .fourth code) = some (.block [tree]) ↔
        f.body.linear = true ∧ tree = f.declaration f.trees := by
  refine ⟨f.code, f.ofProgram_node h.tidy, fun tree => ?_⟩
  obtain ⟨below, t, σ, hσ, hiff⟩ := Func.run_code_iff h (f.ask_functionByNames h.name hcheck)
  rw [rebuilt_eq_some_iff]
  refine (hiff _).trans ?_
  cases hlinear : f.body.linear with
  | true =>
    let s : Build := { f.entered with table := t }
    obtain ⟨hwhole, σ', hread⟩ : Whole f.trees ∧ ∃ σ', Operations (some table)
        (inside [below] s (f.inner ++ [.label (.name (mark 1))]) σ) f.trees
        (inside [below] s [.label (.name (mark 1))] σ') := f.operations hlinear h.bound h.value h.names hσ
    have hlen : 4 * (f.inner ++ [Instr.label (.name (mark 1))]).length ≤ 4 * f.behind.length + 19 := by
      simp only [Func.behind, length_cons, length_append]
      omega
    have hbody := run_functionBody hread rfl rfl hlen
    let s' : Build := { inside [] s [] below with seen := [.name (mark 1)], waiting := [] }
    have hprogram : (program .fourth (some table) (4 * f.behind.length + 22) [f.declaration f.trees]).run s' =
        .ok [f.declaration f.trees] s' := by
      rfl
    have hsettle : Target.Node.settleAll s'.part [f.declaration f.trees] = [f.declaration f.trees] := by
      rw [settleAll_eq_map, map_singleton, Func.declaration, Target.Node.settle, Target.Node.settle, hwhole]
    constructor
    · rintro ⟨items, s1, s2, all, s3, hbody', hclose, hprogram', hout⟩
      cases hbody.symm.trans hbody'
      obtain rfl : s' = s2 := by cases hclose; rfl
      cases hprogram.symm.trans hprogram'
      rw [hsettle] at hout
      exact ⟨rfl, singleton_inj.1 (Target.Node.block.inj hout)⟩
    · rintro ⟨-, rfl⟩
      exact ⟨_, _, s', _, s', hbody, rfl, hprogram, by rw [hsettle]⟩
  | false =>
    simp only [Bool.false_eq_true, false_and, iff_false]
    rintro ⟨items, s1, s2, all, s', hbody, hclose, hprogram, hout⟩
    obtain ⟨hs1, hlabel⟩ := f.label_left h.plain hlinear rfl rfl rfl hbody
    have hleft : s2.queue = s1.queue := congrArg Prod.fst (Still.onTable (fairOn_closeScope) |>.left_eq hclose)
    have hlong := (length_of_program (fun i hi => hs1 i (hleft ▸ hi)) hprogram).2 1 (hleft ▸ hlabel)
    have hone := congrArg List.length (Target.Node.block.inj hout)
    rw [settleAll_eq_map, length_map] at hone
    exact absurd hlong (by rw [← hone]; exact lt_irrefl _)

def scaledSum : Func :=
  ⟨"scaled_sum", [("a", .int), ("b", .int)],
    .cons (.assign "c" (some (.prim .int)) (.binary (.var "a") "+" (.var "b"))) .nil,
    .binary (.var "c") "*" (.var "a"), .int⟩

theorem function_rebuilt_iff_scaledSum : ∃ ts table,
    (typecheck .fourth [scaledSum.node]).run (.fresh .fourth) = .ok ts table ∧
      ∃ code, Flat.ofProgram .fourth [scaledSum.node] = .ok code ∧
        rebuilt (some table) (.fresh .fourth code) = some (.block [scaledSum.declaration scaledSum.trees]) := by
  obtain ⟨ts, table, hcheck, -⟩ := exists_of_outcome
    ((typecheck .fourth [scaledSum.node]).run (.fresh .fourth)) (fun _ => true) (by decide +kernel)
  have hhead : ∀ x ∈ scaledSum.names, x.toList.head? ≠ some '_' ∧ builtins4.has x = false := by
    decide
  obtain ⟨code, hcode, hiff⟩ := function_rebuilt_iff
    ⟨rfl, rfl, rfl, rfl, by decide +kernel, by decide, fun x hx => (hhead x hx).imp_left fun h hr => h hr.head,
      by decide⟩ hcheck
  exact ⟨ts, table, hcheck, code, hcode, (hiff _).2 ⟨rfl, rfl⟩⟩

/-- A function with one condition. -/
def capped : Func :=
  ⟨"f", [("a", .int)], .cons (.chain (.binary (.var "a") ">" (.const (.int 0)))
      (.cons (.assign "a" none (.const (.int 1))) .nil) .done) .nil, .var "a", .int⟩

theorem function_with_condition_lost : ∃ ts table,
    (typecheck .fourth [capped.node]).run (.fresh .fourth) = .ok ts table ∧
      ∃ code, Flat.ofProgram .fourth [capped.node] = .ok code ∧ rebuilt (some table) (.fresh .fourth code) = none := by
  obtain ⟨ts, table, hcheck, hlost⟩ := exists_of_outcome ((typecheck .fourth [capped.node]).run (.fresh .fourth))
    (fun table => (rebuilt (some table) (.fresh .fourth capped.code)).isNone) (by decide +kernel)
  exact ⟨ts, table, hcheck, capped.code, capped.ofProgram_node rfl, Option.isNone_iff_eq_none.1 hlost⟩

end Tabc.Core
