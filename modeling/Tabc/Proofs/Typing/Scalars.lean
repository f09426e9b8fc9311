import Tabc.Proofs.Rebuild.Trees
import Tabc.Proofs.Typing.Scopes

/-!
# Two types for one expression

`HasType` gives the rules of checking, and `Scalar.recorded` the type when the target program is built. They
part at comparisons and at other operations on truth values; `Scalar.agrees` says where this does not matter
(`HasType.recorded_eq_iff`).
-/

namespace Tabc.Core

open Typing
open Target.Build (isComparison)

/-- An expression over constants, texts and variables. -/
inductive Scalar where
  | const (a : Const)
  | text (s : String)
  | var (x : String)
  | unary (op : String) (a : Scalar)
  | binary (a : Scalar) (op : String) (b : Scalar)

namespace Scalar

def node : Scalar → Node
  | .const a => .literal a.prim.name a.atom
  | .text s => .literal "str" (.text s)
  | .var x => .ident x
  | .unary op a => .unary op a.node
  | .binary a op b => .binary a.node op b.node

theorem expression_node : (e : Scalar) → e.node.Expression
  | .const _ => .literal _ _
  | .text _ => .literal _ _
  | .var x => .ident x
  | .unary op a => .unary op a.expression_node
  | .binary a op b => .binary op a.expression_node b.expression_node

def vars : Scalar → List String
  | .const _ => []
  | .text _ => []
  | .var x => [x]
  | .unary _ a => a.vars
  | .binary a _ b => a.vars ++ b.vars

/-- The type that is recorded for an expression, given those of the variables. -/
def recorded (τ : String → Prim) : Scalar → Prim
  | .const a => a.prim
  | .text _ => .str
  | .var x => τ x
  | .unary op a => unaryType op (a.recorded τ)
  | .binary a op b => binaryType op (a.recorded τ) (b.recorded τ)

end Scalar

def IsNumber (p : Prim) : Prop := p = .int ∨ p = .float

instance : DecidablePred IsNumber := fun p => inferInstanceAs (Decidable (p = .int ∨ p = .float))

/-- The typing rules. An operation on numbers is a number, whatever the operator is. -/
inductive HasType (τ : String → Prim) : Scalar → Prim → Prop where
  | const (a : Const) : HasType τ (.const a) a.prim
  | text (s : String) : HasType τ (.text s) .str
  | var (x : String) : HasType τ (.var x) (τ x)
  | sign {a : Scalar} {p : Prim} (h : HasType τ a p) (hp : IsNumber p) : HasType τ (.unary "-" a) p
  | denial {op : String} {a : Scalar} (hop : op ≠ "-") (h : HasType τ a .bool) : HasType τ (.unary op a) .bool
  | numbers {a b : Scalar} {p q : Prim} (op : String) (ha : HasType τ a p) (hb : HasType τ b q)
    (hp : IsNumber p) (hq : IsNumber q) : HasType τ (.binary a op b) (arithmetic p q)
  | same {op : String} {a b : Scalar} {p : Prim} (hop : numbersOnly .fourth op = false)
    (ha : HasType τ a p) (hb : HasType τ b p) (hp : ¬ IsNumber p) : HasType τ (.binary a op b) p

variable {op : String} {p q : Prim}

theorem rule_of_unary (h : unary .fourth op (some (.prim p)) = .ok ty) :
    ty = some (.prim p) ∧ (op = "-" ∧ IsNumber p ∨ op ≠ "-" ∧ p = .bool) := by
  by_cases hop : op = "-"
  · subst hop
    cases p <;> first | cases h; simp [IsNumber] | cases h
  · simp only [unary, beq_eq_false_iff_ne.2 hop] at h
    cases p <;> first | cases h; simp [hop] | cases h

theorem numbers_cases (p q : Prim) :
    (IsNumber p ∧ IsNumber q) ∧ numbers .fourth (some (.prim p)) (some (.prim q)) = .ok (.prim (arithmetic p q)) ∨
      ¬ (IsNumber p ∧ IsNumber q) ∧ ∃ r, numbers .fourth (some (.prim p)) (some (.prim q)) = .error (.rejected r) := by
  cases p <;> cases q <;> first
    | exact .inl ⟨by decide, rfl⟩
    | exact .inr ⟨by decide, _, rfl⟩

theorem eq_of_same (h : same .fourth (some (.prim p)) (some (.prim q)) = .ok u) : p = q := by
  cases p <;> cases q <;> first | rfl | cases h

theorem rule_of_binary (h : binary .fourth op (some (.prim p)) (some (.prim q)) = .ok ty) :
    (ty = some (.prim (arithmetic p q)) ∧ IsNumber p ∧ IsNumber q) ∨
      (ty = some (.prim p) ∧ numbersOnly .fourth op = false ∧ p = q ∧ ¬ IsNumber p) := by
  unfold binary at h
  obtain ⟨hpq, hnum⟩ | ⟨hpq, r, hnum⟩ := numbers_cases p q
  · refine .inl ⟨?_, hpq⟩
    rw [hnum] at h
    split at h <;> cases h <;> rfl
  · rw [hnum] at h
    split at h
    · cases h
    case isFalse hop =>
      dsimp only at h
      split at h
      case h_1 hsame =>
        cases h
        obtain rfl := eq_of_same hsame
        exact .inr ⟨rfl, by simpa using hop, rfl, fun hp => hpq ⟨hp, hp⟩⟩
      all_goals cases h

section Check

variable {τ : String → Prim}

theorem run_lookupVariable {t : ScopeTable} {x : String} {h : Held}
    (hx : ScopeTable.findIn x t.scopes = some (.variable h)) :
    (ScopeTable.lookupVariable x).run t = .ok h t := by simp [ScopeTable.lookupVariable, hx]

theorem hasType_of_check {e : Scalar} {t t' : ScopeTable} {ty : Option Ty}
    (hvars : ∀ x ∈ e.vars, ScopeTable.findIn x t.scopes = some (.variable (.type (.prim (τ x)))))
    (h : (check .fourth true e.node).run t = .ok ty t') :
    ∃ p, ty = some (.prim p) ∧ HasType τ e p := by
  induction e generalizing t t' ty with
  | const a =>
    cases a <;> cases h
    · exact ⟨_, rfl, .const (.int _)⟩
    · exact ⟨_, rfl, .const (.float _)⟩
    · exact ⟨_, rfl, .const (.bool _)⟩
  | text s =>
    cases h
    exact ⟨.str, rfl, .text s⟩
  | var x =>
    have hx := run_lookupVariable (hvars x (by simp [Scalar.vars]))
    have h := Core.of_run_bind_ok h rfl
    rw [Core.run_bind_of_ok hx] at h
    cases h
    exact ⟨τ x, rfl, .var x⟩
  | unary op a ih =>
    obtain ⟨ty1, t1, h1, h2⟩ := Core.of_run_bind h
    obtain ⟨p, rfl, ha⟩ := ih hvars h1
    obtain ⟨rfl, ⟨rfl, hp⟩ | ⟨hop, rfl⟩⟩ := rule_of_unary (Core.eq_of_run_ofExcept h2).1
    · exact ⟨p, rfl, .sign ha hp⟩
    · exact ⟨.bool, rfl, .denial hop ha⟩
  | binary a op b iha ihb =>
    obtain ⟨tya, t1, h1, h⟩ := Core.of_run_bind h
    obtain ⟨tyb, t2, h2, h3⟩ := Core.of_run_bind h
    have hstays : t1.scopes = t.scopes := ((stays_rules .fourth).holds true _ a.expression_node h1).scopes_eq
    obtain ⟨p, rfl, ha⟩ := iha (fun x hx => hvars x (List.mem_append_left _ hx)) h1
    obtain ⟨q, rfl, hb⟩ := ihb (fun x hx => hstays ▸ hvars x (List.mem_append_right _ hx)) h2
    obtain ⟨rfl, hp, hq⟩ | ⟨rfl, hop, rfl, hp⟩ := rule_of_binary (Core.eq_of_run_ofExcept h3).1
    · exact ⟨_, rfl, .numbers op ha hb hp hq⟩
    · exact ⟨p, rfl, .same hop ha hb hp⟩

end Check

variable {τ : String → Prim} {e : Scalar} {p : Prim}

namespace Scalar

/-- The type that the rules give to an expression, if they give it one. -/
def type (τ : String → Prim) : Scalar → Prim
  | .const a => a.prim
  | .text _ => .str
  | .var x => τ x
  | .unary _ a => a.type τ
  | .binary a _ b => if IsNumber (a.type τ) ∧ IsNumber (b.type τ) then arithmetic (a.type τ) (b.type τ) else a.type τ

/-- Both types of an expression are the same. A comparison is recorded as a truth value, so truth values
must be compared. Any other operation is recorded as a whole number, unless an operand is recorded as a
fraction or a text. -/
def agrees (τ : String → Prim) : Scalar → Bool
  | .const _ => true
  | .text _ => true
  | .var _ => true
  | .unary op a => op == "!" || a.agrees τ
  | .binary a op b =>
    let p := (Scalar.binary a op b).type τ
    if isComparison op then p = .bool
    else p = .int ∨ (p = .float ∨ p = .str) ∧ (a.type τ = p ∧ a.agrees τ ∨ b.type τ = p ∧ b.agrees τ)

end Scalar

theorem HasType.type_eq (h : HasType τ e p) : e.type τ = p := by
  induction h with
  | const a => rfl
  | text s => rfl
  | var x => rfl
  | sign _ _ ih => exact ih
  | denial _ _ ih => exact ih
  | numbers op _ _ hp hq iha ihb => rw [Scalar.type, iha, ihb, if_pos ⟨hp, hq⟩]
  | same _ _ _ hp iha _ => rw [Scalar.type, iha, if_neg fun h => hp h.1]

attribute [local simp] Scalar.recorded binaryType in
theorem HasType.recorded_cases (h : HasType τ e p) : e.recorded τ = p ∨ e.recorded τ = .bool ∨ e.recorded τ = .int := by
  induction h with
  | const | text | var => exact .inl rfl
  | sign h hp ih => simpa [unaryType] using ih
  | @denial op _ hop _ ih => by_cases h : op = "!" <;> simp_all [Scalar.recorded, unaryType]
  | numbers op _ _ hp hq iha ihb =>
    cases hop : isComparison op with
    | true => simp [hop]
    | false =>
      rcases hp with rfl | rfl <;> rcases hq with rfl | rfl <;> rcases iha with h | h | h <;>
        rcases ihb with h' | h' | h' <;> simp [hop, arithmetic, h, h']
  | @same op _ _ p _ _ _ _ iha ihb =>
    cases hop : isComparison op with
    | true => simp [hop]
    | false => rcases iha with h | h | h <;> rcases ihb with h' | h' | h' <;> cases p <;> simp [hop, arithmetic, h, h']

theorem arithmetic_eq_iff (hr : r = p ∨ r = .bool ∨ r = .int) (hs : s = q ∨ s = .bool ∨ s = .int)
    (hu : IsNumber p ∧ IsNumber q ∧ u = arithmetic p q ∨ p = q ∧ u = p) :
    arithmetic r s = u ↔ u = .int ∨ (u = .float ∨ u = .str) ∧ (p = u ∧ r = p ∨ q = u ∧ s = q) := by
  rcases hu with ⟨hp, hq, rfl⟩ | ⟨rfl, rfl⟩
  · rcases hp with rfl | rfl <;> rcases hq with rfl | rfl <;> rcases hr with rfl | rfl | rfl <;>
      rcases hs with rfl | rfl | rfl <;> decide
  · cases u <;> rcases hr with rfl | rfl | rfl <;> rcases hs with rfl | rfl | rfl <;> decide

theorem HasType.recorded_binary_iff (ha : HasType τ a p) (hb : HasType τ b q) (h : HasType τ (.binary a op b) u)
    (hu : IsNumber p ∧ IsNumber q ∧ u = arithmetic p q ∨ p = q ∧ u = p)
    (iha : a.recorded τ = p ↔ a.agrees τ = true) (ihb : b.recorded τ = q ↔ b.agrees τ = true) :
    (Scalar.binary a op b).recorded τ = u ↔ (Scalar.binary a op b).agrees τ = true := by
  rw [Scalar.agrees]
  simp only [h.type_eq, ha.type_eq, hb.type_eq]
  cases hop : isComparison op with
  | true => simp [Scalar.recorded, binaryType, hop, eq_comm]
  | false =>
    simp [Scalar.recorded, binaryType, hop, ← iha, ← ihb, arithmetic_eq_iff ha.recorded_cases hb.recorded_cases hu]

attribute [local simp] Scalar.recorded Scalar.agrees unaryType in
theorem HasType.recorded_eq_iff (h : HasType τ e p) : e.recorded τ = p ↔ e.agrees τ = true := by
  induction h with
  | const | text | var => simp
  | sign h hp ih => simpa using ih
  | @denial op _ hop _ ih =>
    by_cases h : op = "!"
    · simp [h]
    · simpa [h] using ih
  | numbers op ha hb hp hq iha ihb =>
    exact ha.recorded_binary_iff hb (.numbers op ha hb hp hq) (.inl ⟨hp, hq, rfl⟩) iha ihb
  | same hop ha hb hp iha ihb => exact ha.recorded_binary_iff hb (.same hop ha hb hp) (.inr ⟨rfl, rfl⟩) iha ihb

end Tabc.Core
