import Tabc.Proofs.Rebuild.Consumption
import Tabc.Proofs.Rebuild.Instructions
import Tabc.Proofs.Typing.Scalars

/-!
# The types that building records

Building records a type for each register and variable: for an expression over numbers, truth values and texts
this is `Scalar.recorded`. A declared variable has its own type in the target program exactly if the two types
of the expression agree.
-/

open List

namespace Tabc.Core

open Target Target.Build
open EStateM (run_bind run_get)
open ScopeTable (findIn setTop declareVariable)

variable {known : Option ScopeTable} {s s1 final : Build} {x : String} {p : Prim}

namespace Scalar

/-- How many registers an expression takes. -/
def size : Scalar → Nat
  | .const _ => 1
  | .text s => s.toList.length + 1
  | .var _ => 0
  | .unary _ a => a.size + 1
  | .binary a _ b => a.size + b.size + 1

/-- The operand that holds the value of an expression, if `r` registers are taken. -/
def operand (e : Scalar) (r : Nat) : String :=
  match e with
  | .var x => x
  | .text _ => reg (r + 1)
  | e => reg (r + e.size)

/-- The code of an expression, if `r` registers are taken. -/
def code : Scalar → Nat → List Instr
  | .const a, r => [.literal (.name (reg (r + 1))) a.atom]
  | .text s, r => .string (.name (reg (r + 1))) s.length :: charCode (r + 1) s.toList
  | .var _, _ => []
  | .unary op a, r => a.code r ++ [.unary (.name (reg (r + a.size + 1))) op (.name (a.operand r))]
  | .binary a op b, r =>
    a.code r ++ b.code (r + a.size) ++
      [.binary (.name (reg (r + (a.size + b.size) + 1))) (.name (a.operand r)) (.name (b.operand (r + a.size))) op]

theorem not_taken_operand (e : Scalar) (he : ∀ x ∈ e.vars, ¬ IsReg x) (r n : Nat) :
    ¬ Taken (r + e.size) n (e.operand r) := by
  cases e with
  | var x => exact fun h => he x (by simp [vars]) h.isReg
  | text s =>
    rintro ⟨k, hk, -, h⟩
    have h : r + 1 = k := reg_inj.mp h
    simp only [size] at hk
    omega
  | const _ | unary _ _ | binary _ _ _ =>
    rintro ⟨k, hk, -, h⟩
    have h : r + _ = k := reg_inj.mp h
    omega

end Scalar

attribute [local simp] Flat.flatten Scalar.size Scalar.node Scalar.operand Scalar.code Nat.add_assoc in
theorem run_flatten_scalar (e : Scalar) (f : Flat) :
    (Flat.flatten .fourth e.node).run f = .ok (.name (e.operand f.registers))
      { f with code := f.code ++ e.code f.registers, registers := f.registers + e.size } := by
  induction e generalizing f with
  | const a => cases a <;> simp [Flat.emitLiteral, Const.prim, Prim.name, Const.atom]
  | text s => simp [Flat.emitLiteral, run_emitChars, Nat.add_comm 1]
  | var x => simp
  | unary op a ih => simp [ih]
  | binary a op b iha ihb => simp [iha, ihb]

theorem run_flatten_assignment (x : String) (type : Node) (e : Scalar) (f : Flat) :
    (Flat.flatten .fourth (.assign (.ident x) type e.node)).run f = .ok (Operand.ofNode (.ident x)) { f with
        code := f.code ++ (e.code f.registers ++ [.assign (.name x) (.name (e.operand f.registers))])
        registers := f.registers + e.size } := by simp [Flat.flatten, run_flatten_scalar]

/-- Building the code that is left ends well. -/
def Completes (known : Option ScopeTable) (s final : Build) : Prop :=
  ∃ fuel acc items, (program .fourth known fuel acc).run s = .ok items final

namespace Completes

theorem eq_of_nil (h : Completes known s final) (hq : s.queue = []) : final = s := by
  obtain ⟨fuel, acc, items, h⟩ := h
  obtain _ | fuel := fuel
  · cases h
  simp only [program, run_bind, run_get, hq] at h
  cases h
  rfl

theorem step (h : Completes known s final) (hq : s.queue = i :: q) :
    ∃ fuel made s1, (buildCore .fourth known (fuel + 1) i).run { s with queue := q } = .ok made s1 ∧
      Completes known s1 final := by
  obtain ⟨fuel, acc, items, h⟩ := h
  obtain _ | fuel := fuel
  · cases h
  rw [program, run_bind, run_get] at h
  simp only [hq] at h
  rw [run_bind_of_ok (run_pop hq)] at h
  obtain ⟨made, s1, hmade, h⟩ := of_run_bind h
  rcases fuel with - | - | fuel
  · cases hmade
  · cases hmade
  refine ⟨fuel, made, s1, run_buildCore_of_buildInstr hmade, ?_⟩
  split at h
  · exact ⟨_, _, _, h⟩
  · obtain ⟨acc', -, h2⟩ := of_run_ofExcept h
    exact ⟨_, _, _, h2⟩

end Completes

abbrev entryOf (s : Build) (x : String) : Option Entry := findIn x s.table.scopes

/-- A step takes no code and declares one name, which the scope did not have. -/
structure Declares (x : String) (p : Prim) (s s1 : Build) : Prop where
  queue : s1.queue = s.queue
  entry : ∀ y, entryOf s1 y = if y = x then some (targetVar p) else entryOf s y
  top : ∀ y, y ≠ x → s1.table.top.find? y = s.table.top.find? y

variable {t : ScopeTable} {made : Made} {a : String} {r : Nat} {e : Scalar}

theorem findIn_setTop_bind {e : Entry} (hx : t.top.find? x = none) (y : String) :
    findIn y (t.setTop (t.top.bind x e)).scopes = if y = x then some e else findIn y t.scopes := by
  have hfind := find?_bind (e := e) hx y
  cases hscopes : t.scopes with
  | nil =>
    rw [ScopeTable.top, hscopes] at hfind
    simp only [setTop, ScopeTable.top, hscopes, findIn]
    rw [hfind]
    by_cases hy : y = x <;> simp [hy, Scope.find?]
  | cons top below =>
    rw [ScopeTable.top, hscopes] at hfind
    simp only [setTop, ScopeTable.top, hscopes, findIn]
    rw [hfind]
    by_cases hy : y = x <;> simp [hy]

theorem declares_of_declare (h : (declare (.name x) (.prim p)).run s = .ok u s1) : Declares x p s s1 := by
  simp only [declare, onTable, declareVariable, run_bind, run_get] at h
  cases hhas : s.table.top.has x with
  | true => simp [hhas] at h
  | false =>
    simp only [hhas] at h
    cases h
    have hnew : s.table.top.find? x = none := by simpa [Scope.has] using hhas
    refine ⟨rfl, fun y => findIn_setTop_bind hnew y, fun y hy => ?_⟩
    rw [top_setTop, find?_bind hnew, if_neg hy]

theorem declares_of_declared {made : Target.Node × Target.Node}
    (h : (declared .fourth (.name x) (.prim p)).run s = .ok made s1) : Declares x p s s1 := by
  obtain ⟨_, _, h1, h2⟩ := of_run_bind h
  cases h2
  exact declares_of_declare h1

theorem declares_of_literal {a : Const} (h : (literal .fourth (.name x) a.atom).run s = .ok made s1) :
    Declares x a.prim s s1 := by
  have ht : literalType .fourth (.literal (.name x) a.atom) a.atom = .ok (.prim a.prim) := by
    cases a <;> rfl
  rw [literal, ht] at h
  have h2 := of_run_bind_ok h rfl
  obtain ⟨_, _, h1, h2⟩ := of_run_bind h2
  cases h2
  exact declares_of_declared h1

theorem declares_of_string {n : Int} (h : (string .fourth (.name x) n).run s = .ok made s1) : Declares x .str s s1 := by
  have h2 := of_run_bind_ok h rfl
  have h2 := of_run_bind_ok h2 rfl
  obtain ⟨_, _, h1, h2⟩ := of_run_bind h2
  cases h2
  have := declares_of_declared h1
  exact ⟨this.queue, this.entry, this.top⟩

theorem eq_of_char (h : (char v).run s = .ok made s1) : s1.queue = s.queue ∧ s1.table = s.table := by
  have h2 := of_run_bind_ok h rfl
  split at h2
  · cases h2
  · dsimp only at h2
    split at h2 <;> cases h2 <;> exact ⟨rfl, rfl⟩

theorem run_typeOf_of_entry (h : entryOf s x = some (targetVar p)) : (typeOf (.name x)).run s = .ok (.prim p) s := by
  simp only [typeOf, onTable, ScopeTable.lookupVariable, run_bind, run_get]
  rw [show findIn x s.table.scopes = _ from h]
  rfl

theorem run_isNew_name : (isNew (.name x)).run s = .ok (!s.table.top.has x) s := rfl

theorem declares_of_bind (hf : ∃ m, f () = pure m)
    (h : (declare (.name x) (.prim p) >>= f).run s = .ok made s1) : Declares x p s s1 := by
  obtain ⟨_, _, h1, h2⟩ := of_run_bind h
  obtain ⟨m, hm⟩ := hf
  rw [hm] at h2
  cases h2
  exact declares_of_declare h1

theorem declares_of_unary (ha : entryOf s a = some (targetVar p))
    (h : (unary .fourth (.name x) op (.name a)).run s = .ok made s1) :
    Declares x (unaryType op p) s s1 := by
  simp only [unary, ident, run_bind, run_ofExcept_pure, run_isNew_name] at h
  cases hnew : s.table.top.has x with
  | true =>
    simp only [hnew] at h
    obtain ⟨_, _, _, h⟩ := of_run_bind h
    cases h
  | false =>
    simp only [hnew, Bool.not_false, if_true] at h
    by_cases hop : (op == "!") = true
    · rw [if_pos hop, pure_bind] at h
      rw [unaryType, if_pos hop]
      exact declares_of_bind ⟨_, rfl⟩ h
    · rw [if_neg hop, run_bind_of_ok (run_typeOf_of_entry ha)] at h
      rw [unaryType, if_neg hop]
      exact declares_of_bind ⟨_, rfl⟩ h

theorem declares_of_binary (ha : entryOf s a = some (targetVar p)) (hb : entryOf s b = some (targetVar q))
    (h : (Target.Build.binary .fourth (.name x) (.name a) (.name b) op).run s = .ok made s1) :
    Declares x (binaryType op p q) s s1 := by
  have htype : (Target.Build.binaryType .fourth op (.name a) (.name b)).run s = .ok (.prim (binaryType op p q)) s := by
    cases hop : isComparison op <;> simp [Target.Build.binaryType, binaryType, hop,
      run_typeOf_of_entry ha, run_typeOf_of_entry hb, arithmeticType_prim]
  simp only [Target.Build.binary, ident, run_bind, run_ofExcept_pure, run_isNew_name] at h
  cases hnew : s.table.top.has x with
  | true =>
    simp only [hnew] at h
    obtain ⟨_, _, _, h⟩ := of_run_bind h
    cases h
  | false =>
    simp only [hnew, Bool.not_false, if_true] at h
    rw [run_bind_of_ok htype] at h
    exact declares_of_bind ⟨_, rfl⟩ h

theorem declares_of_assign (hx : s.table.top.find? x = none) (ha : entryOf s a = some (targetVar p))
    (h : (Target.Build.assign .fourth known (.name x) (.name a)).run s = .ok made s1) :
    Declares x p s s1 := by
  have hnew : s.table.top.has x = false := by simp [Scope.has, hx]
  have htype : (some <$> typeOf (.name a) : BuildM (Option Ty)).run s = .ok (some (.prim p)) s := by
    simp [EStateM.run_map, run_typeOf_of_entry ha]
  simp only [Target.Build.assign, ident, run_bind, run_ofExcept_pure, run_isNew_name, hnew,
    Bool.not_false, if_true] at h
  rw [run_tryCatch_ok htype] at h
  exact declares_of_bind ⟨_, rfl⟩ h

/-- The names that are not among these registers stand for what they stood for. -/
def Leaves (r n : Nat) (s s1 : Build) : Prop :=
  ∀ y, ¬ Taken r n y → entryOf s1 y = entryOf s y ∧ s1.table.top.find? y = s.table.top.find? y

theorem Leaves.trans {m n : Nat} (h : Leaves r m s s1) (h' : Leaves (r + m) n s1 s2) : Leaves r (m + n) s s2 := by
  intro y hy
  obtain ⟨he, ht⟩ := h y fun hy' => hy (hy'.mono le_rfl (by omega))
  obtain ⟨he', ht'⟩ := h' y fun hy' => hy (hy'.mono (by omega) (by omega))
  exact ⟨he'.trans he, ht'.trans ht⟩

theorem Declares.leaves (h : Declares (reg (r + 1)) p s s1) : Leaves r 1 s s1 := by
  intro y hy
  have hne : y ≠ reg (r + 1) := fun heq => hy ⟨r + 1, by omega, le_rfl, heq⟩
  exact ⟨by rw [h.entry y, if_neg hne], h.top y hne⟩

theorem Declares.entry_self (h : Declares x p s s1) : entryOf s1 x = some (targetVar p) := by rw [h.entry x, if_pos rfl]

theorem Completes.chars (h : Completes known s final) (hq : s.queue = charCode r cs ++ q) :
    ∃ s1, s1.queue = q ∧ s1.table = s.table ∧ Completes known s1 final := by
  induction cs generalizing s r with
  | nil => exact ⟨s, hq, rfl, h⟩
  | cons c rest ih =>
    obtain ⟨fuel, made, s1, hmade, hs1⟩ := h.step hq
    obtain ⟨hqueue, htable⟩ := eq_of_char hmade
    obtain ⟨s2, hq2, htable2, hs2⟩ := ih hs1 hqueue
    exact ⟨s2, hq2, htable2.trans htable, hs2⟩

variable {τ : String → Prim}

/-- The code of an expression records its type for the operand that holds its value. -/
theorem Completes.scalar (hvars : ∀ v ∈ e.vars, ¬ IsReg v ∧ entryOf s v = some (targetVar (τ v)))
    (h : Completes known s final) (hq : s.queue = e.code r ++ q) :
    ∃ s1, s1.queue = q ∧ Completes known s1 final ∧
      entryOf s1 (e.operand r) = some (targetVar (e.recorded τ)) ∧ Leaves r e.size s s1 := by
  induction e generalizing s r q with
  | const a =>
    obtain ⟨fuel, made, s1, hmade, hs1⟩ := h.step hq
    have hdecl := declares_of_literal hmade
    exact ⟨s1, hdecl.queue, hs1, hdecl.entry_self, hdecl.leaves⟩
  | text t =>
    obtain ⟨fuel, made, s1, hmade, hs1⟩ := h.step hq
    have hdecl := declares_of_string hmade
    obtain ⟨s2, hq2, htable, hs2⟩ := hs1.chars hdecl.queue
    have hleaves : Leaves r (Scalar.text t).size s s1 := fun y hy =>
      hdecl.leaves y fun hy' => hy (hy'.mono le_rfl (by simp [Scalar.size]))
    refine ⟨s2, hq2, hs2, ?_, ?_⟩
    · rw [entryOf, htable]
      exact hdecl.entry_self
    · simpa only [Leaves, entryOf, htable] using hleaves
  | var x => exact ⟨s, hq, h, (hvars x (by simp [Scalar.vars])).2, fun _ _ => ⟨rfl, rfl⟩⟩
  | unary op a ih =>
    rw [Scalar.code, List.append_assoc] at hq
    obtain ⟨s1, hq1, hs1, hval, hleaves⟩ := ih hvars h hq
    obtain ⟨fuel, made, s2, hmade, hs2⟩ := hs1.step hq1
    have hdecl := declares_of_unary (by exact hval) hmade
    exact ⟨s2, hdecl.queue, hs2, hdecl.entry_self, hleaves.trans hdecl.leaves⟩
  | binary a op b iha ihb =>
    have hvars_a (v : String) (hv : v ∈ a.vars) := hvars v (mem_append_left _ hv)
    have hvars_b (v : String) (hv : v ∈ b.vars) := hvars v (mem_append_right _ hv)
    rw [Scalar.code, List.append_assoc, List.append_assoc] at hq
    obtain ⟨s1, hq1, hs1, hval1, hleaves1⟩ := iha hvars_a h hq
    have hvars_b1 : ∀ v ∈ b.vars, ¬ IsReg v ∧ entryOf s1 v = some (targetVar (τ v)) := by
      intro v hv
      obtain ⟨hreg, hentry⟩ := hvars_b v hv
      exact ⟨hreg, (hleaves1 v fun h => hreg h.isReg).1.trans hentry⟩
    obtain ⟨s2, hq2, hs2, hval2, hleaves2⟩ := ihb hvars_b1 hs1 hq1
    have hkept : entryOf s2 (a.operand r) = some (targetVar (a.recorded τ)) :=
      (hleaves2 _ (a.not_taken_operand (fun v hv => (hvars_a v hv).1) r b.size)).1.trans hval1
    obtain ⟨fuel, made, s3, hmade, hs3⟩ := hs2.step hq2
    have hdecl := declares_of_binary (by exact hkept) (by exact hval2) hmade
    exact ⟨s3, hdecl.queue, hs3, hdecl.entry_self, (hleaves1.trans hleaves2).trans hdecl.leaves⟩

theorem eq_of_initial (h : Typing.initial .fourth (.type (.prim p)) got tree = .ok u) : got = some (.prim p) := by
  by_cases heq : Held.type (.prim p) = Held.ofTy? got
  · cases got with
    | none => cases heq
    | some g => rw [Held.type.inj heq]
  · rw [Typing.initial, if_neg heq] at h
    cases h

theorem find?_top_of_findIn (hx : findIn x t.scopes = none) : t.top.find? x = none := by
  cases hscopes : t.scopes with
  | nil => simp [ScopeTable.top, hscopes, Scope.find?]
  | cons top below =>
    rw [hscopes, findIn] at hx
    split at hx
    · cases hx
    · simpa [ScopeTable.top, hscopes]

theorem hasType_of_check_assign (hx : findIn x t.scopes = none)
    (hvars : ∀ v ∈ e.vars, findIn v t.scopes = some (.variable (.type (.prim (τ v)))))
    (h : (Typing.check .fourth true (.assign (.ident x) (.type (.prim p)) e.node)).run t = .ok ty t') :
    HasType τ e p := by
  have htop := find?_top_of_findIn hx
  have hdecl : (declareVariable x (.type (.prim p))).run t =
      .ok () (t.setTop (t.top.bind x (.variable (.type (.prim p))))) := by simp [declareVariable, Scope.has, htop]
  have h := of_run_bind_ok h rfl
  have h := of_run_bind_ok h rfl
  have h := of_run_bind_ok h rfl
  rw [hx] at h
  simp only [Held.ofNode, reduceCtorEq, if_false] at h
  rw [run_bind_of_ok hdecl] at h
  obtain ⟨got, t2, hgot, h⟩ := of_run_bind h
  obtain ⟨_, _, hinit, -⟩ := of_run_bind h
  have hvars' : ∀ v ∈ e.vars, findIn v (t.setTop (t.top.bind x (.variable (.type (.prim p))))).scopes =
      some (.variable (.type (.prim (τ v)))) := by
    intro v hv
    have hne : v ≠ x := by
      rintro rfl
      rw [hvars v hv] at hx
      cases hx
    rw [findIn_setTop_bind htop, if_neg hne, hvars v hv]
  obtain ⟨q, rfl, htype⟩ := hasType_of_check hvars' hgot
  cases eq_of_initial (eq_of_run_ofExcept hinit).1
  exact htype

theorem Scalar.operand_ne (hx : ¬ IsReg x) (hvars : x ∉ e.vars) (r : Nat) : e.operand r ≠ x := by
  cases e with
  | var y => simpa [Scalar.operand, Scalar.vars, eq_comm] using hvars
  | const _ | text _ | unary _ _ | binary _ _ _ => exact fun h => hx ⟨_, h.symm⟩

/-- A new variable is declared with an accepted expression over known variables, and the code of that
is built. Then the operand that holds the value of the expression and the variable get one type in the
target program. It is the declared one exactly if the two types of the expression agree. -/
theorem recorded_eq_declared_iff {e : Scalar} {t t' : ScopeTable} {ty : Option Ty} {f f' : Flat}
    {o : Operand} (hnames : ∀ v ∈ x :: e.vars, ¬ IsReg v)
    (hvars : ∀ v ∈ e.vars, ScopeTable.findIn v t.scopes = some (.variable (.type (.prim (τ v)))) ∧
      ScopeTable.findIn v s.table.scopes = some (.variable (.target (.prim (τ v)))))
    (hx : ScopeTable.findIn x t.scopes = none) (hnew : s.table.top.find? x = none)
    (hcheck : (Typing.check .fourth true (.assign (.ident x) (.type (.prim p)) e.node)).run t = .ok ty t')
    (hflat : (Flat.flatten .fourth (.assign (.ident x) (.type (.prim p)) e.node)).run f = .ok o f')
    (hq : s.queue = f'.code.drop f.code.length) (hbuild : Completes known s final) :
    ∃ r f₁ q, (Flat.flatten .fourth e.node).run f = .ok (.name r) f₁ ∧
      ScopeTable.findIn r final.table.scopes = some (.variable (.target (.prim q))) ∧
      ScopeTable.findIn x final.table.scopes = some (.variable (.target (.prim q))) ∧
      (q = p ↔ e.agrees τ = true) := by
  have htype : HasType τ e p := hasType_of_check_assign hx (fun v hv => (hvars v hv).1) hcheck
  rw [run_flatten_assignment] at hflat
  cases hflat
  rw [drop_left] at hq
  obtain ⟨s1, hq1, hs1, hval, hleaves⟩ := hbuild.scalar
    (fun v hv => ⟨hnames v (mem_cons_of_mem x hv), (hvars v hv).2⟩) hq
  have hreg : ¬ IsReg x := hnames x mem_cons_self
  have hnew1 : s1.table.top.find? x = none := (hleaves x fun h => hreg h.isReg).2.trans hnew
  obtain ⟨fuel, made, s2, hmade, hs2⟩ := hs1.step hq1
  have hdecl := declares_of_assign (by exact hnew1) (by exact hval) hmade
  obtain rfl := hs2.eq_of_nil hdecl.queue
  have hvar : x ∉ e.vars := fun h => by simp [(hvars x h).1] at hx
  refine ⟨_, _, e.recorded τ, run_flatten_scalar e f, ?_, hdecl.entry_self, htype.recorded_eq_iff⟩
  exact (hdecl.entry _).trans ((if_neg (Scalar.operand_ne hreg hvar _)).trans hval)

theorem recorded_eq_declared_iff_double :
    let e : Scalar := .binary (.var "a") "*" (.const (.int 2))
    let n : Node := .assign (.ident "x") (.type (.prim .float)) e.node
    let t : ScopeTable := { ScopeTable.fresh .fourth with
      scopes := [[("a", .variable (.type (.prim .float)))]] }
    let s : Build := { Build.fresh .fourth (e.code 0 ++ [.assign (.name "x") (.name (e.operand 0))]) with
      table := { ScopeTable.fresh .fourth with
        scopes := [[("a", .variable (.target (.prim .float)))]] } }
    ∃ ty t' o f' final, (Typing.check .fourth true n).run t = .ok ty t' ∧
      (Flat.flatten .fourth n).run Flat.empty = .ok o f' ∧ Completes none s final ∧
      ∃ q, ScopeTable.findIn "x" final.table.scopes = some (.variable (.target (.prim q))) ∧
        (q = .float ↔ e.agrees (fun _ => .float) = true) := by
  intro e n t s
  obtain ⟨ty, t', hcheck, -⟩ := exists_of_outcome ((Typing.check .fourth true n).run t)
    (fun _ => true) (by decide +kernel)
  obtain ⟨items, final, hbuild, -⟩ := exists_of_outcome ((program .fourth none 20 []).run s)
    (fun _ => true) (by decide +kernel)
  have hnames : ∀ v ∈ "x" :: e.vars, ¬ IsReg v := by
    intro v hv hreg
    have hhead : ∀ v ∈ "x" :: e.vars, v.toList.head? ≠ some '_' := by decide
    exact hhead v hv hreg.head
  have hvars : ∀ v ∈ e.vars, ScopeTable.findIn v t.scopes = some (.variable (.type (.prim .float))) ∧
      ScopeTable.findIn v s.table.scopes = some (.variable (.target (.prim .float))) := by
    intro v hv
    obtain rfl : v = "a" := by simpa [e, Scalar.vars] using hv
    exact ⟨rfl, rfl⟩
  have hflat := run_flatten_assignment "x" (.type (.prim .float)) e Flat.empty
  obtain ⟨-, -, q, -, -, hx, hq⟩ := recorded_eq_declared_iff hnames hvars rfl rfl hcheck hflat rfl
    ⟨20, [], items, hbuild⟩
  exact ⟨ty, t', _, _, final, hcheck, hflat, ⟨20, [], items, hbuild⟩, q, hx, hq⟩

def isVariable (type : Held) : Entry → Bool
  | .variable type' => type' = type
  | .functions _ => false

/-- A comparison of whole numbers is accepted as a whole number, and recorded as a truth value. -/
theorem recorded_comparison_ne :
    let e : Scalar := .binary (.const (.int 1)) "<" (.const (.int 2))
    let n : Node := .assign (.ident "x") (.type (.prim .int)) e.node
    ∃ ty t' o f' items final, (Typing.check .fourth true n).run (ScopeTable.fresh .fourth) = .ok ty t' ∧
      (Flat.flatten .fourth n).run Flat.empty = .ok o f' ∧
      (program .fourth none 20 []).run (Build.fresh .fourth f'.code) = .ok items final ∧
      ScopeTable.findIn "x" final.table.scopes = some (.variable (.target (.prim .bool))) := by
  intro e n
  obtain ⟨ty, t', hcheck, -⟩ := exists_of_outcome
    ((Typing.check .fourth true n).run (ScopeTable.fresh .fourth)) (fun _ => true) (by decide +kernel)
  have hflat := run_flatten_assignment "x" (.type (.prim .int)) e Flat.empty
  obtain ⟨items, final, hbuild, hx⟩ := exists_of_outcome ((program .fourth none 20 []).run (Build.fresh .fourth
      (e.code 0 ++ [.assign (.name "x") (.name (e.operand 0))])))
    (fun s => (entryOf s "x").any (isVariable (.target (.prim .bool)))) (by decide +kernel)
  refine ⟨ty, t', _, _, items, final, hcheck, hflat, hbuild, ?_⟩
  change entryOf final "x" = _
  generalize entryOf final "x" = entry at hx ⊢
  rcases entry with _ | type | os
  · cases hx
  · rw [show type = _ from of_decide_eq_true hx]
  · cases hx

end Tabc.Core
