import Mathlib
import Tabc.Folding.Expr
import Tabc.Proofs.Core.Syntax

/-!
# Expressions as texts

`Term.text` writes an expression of whole numbers with brackets around every operation. Folding reads
such texts back; first it finds their words (`lexes_text`).
-/

open List

namespace Tabc.Core

open Tabc.Expr (Word words)
open Nat (toDigits)

def arithOps : List String := ["+", "-", "*"]

def compareOps : List String := ["<", "<=", ">", ">=", "==", "!="]

theorem mem_arithOps : op ∈ arithOps ↔ op = "+" ∨ op = "-" ∨ op = "*" := by simp [arithOps]

theorem mem_compareOps : op ∈ compareOps ↔
    op = "<" ∨ op = "<=" ∨ op = ">" ∨ op = ">=" ∨ op = "==" ∨ op = "!=" := by simp [compareOps]

namespace Term

/-- Arithmetic on whole numbers and variables. -/
def arith : Term → Bool
  | .const (.int _) => true
  | .var _ => true
  | .binary a op b => arithOps.contains op && a.arith && b.arith
  | _ => false

/-- Arithmetic is made of numbers, variables and operations. -/
theorem arith_induction {motive : (t : Term) → t.arith = true → Prop}
    (int : ∀ n, motive (.const (.int n)) rfl) (var : ∀ x, motive (.var x) rfl)
    (binary : ∀ a op b h, op ∈ arithOps → ∀ ha hb, motive a ha → motive b hb → motive (.binary a op b) h)
    (t : Term) (ht : t.arith = true) : motive t ht := by
  induction t with
  | const a =>
    cases a with
    | int n => exact int n
    | float | bool => cases ht
  | var x => exact var x
  | unary op a => simp [arith] at ht
  | binary a op b iha ihb =>
    have h := ht
    simp only [arith, Bool.and_eq_true, contains_iff_mem] at h
    exact binary a op b ht h.1.1 h.1.2 h.2 (iha h.1.2) (ihb h.2)

def comparison : Term → Bool
  | .binary a op b => compareOps.contains op && a.arith && b.arith
  | _ => false

def text : Term → String
  | .const a => a.atom.plain
  | .var x => x
  | .unary op a => "(" ++ op ++ " " ++ a.text ++ ")"
  | .binary a op b => "(" ++ a.text ++ " " ++ op ++ " " ++ b.text ++ ")"

def constWords : Const → List Word
  | .int (.negSucc n) => [.mark "-", .const (.int (n + 1 : Nat))]
  | a => [.const a.atom]

def words : Term → List Word
  | .const a => constWords a
  | .var x => [.name x]
  | .unary op a => .mark "(" :: .mark op :: a.words ++ [.mark ")"]
  | .binary a op b => .mark "(" :: a.words ++ .mark op :: b.words ++ [.mark ")"]

end Term

/-- A name as the source language has them, without a mark in front: letters, digits and low lines
after a letter; it is no word that folding takes for something else. -/
structure Nice (x : String) : Prop where
  head : ∃ c cs, x.toList = c :: cs ∧ c.isAlpha = true
  chars : ∀ c ∈ x.toList, c.isAlphanum = true ∨ c = '_'
  free : x ∉ Expr.keywords ∧ x ≠ "True" ∧ x ≠ "False" ∧ x ≠ "None"

def Lexes (cs : List Char) (ws : List Word) : Prop := ∀ fuel depth, cs.length < fuel → words fuel depth cs = some ws

/-- What may follow a number or a name. -/
def Ends : List Char → Prop
  | [] => True
  | c :: _ => c = ' ' ∨ c = ')'

variable {cs rest : List Char} {ws : List Word}

theorem lexes_nil : Lexes [] [] := by
  intro fuel depth h
  obtain ⟨fuel, rfl⟩ : ∃ k, fuel = k + 1 := ⟨fuel - 1, by simp at h; omega⟩
  rfl

theorem Lexes.blank (h : Lexes rest ws) : Lexes (' ' :: rest) ws := by
  intro fuel depth hlen
  obtain ⟨fuel, rfl⟩ : ∃ k, fuel = k + 1 := ⟨fuel - 1, by simp at hlen; omega⟩
  exact h fuel depth (by simpa using hlen)

theorem Lexes.step (h : Lexes rest ws) (hlen : rest.length < cs.length)
    (hstep : ∀ fuel depth, ∃ depth', words (fuel + 1) depth cs = (words fuel depth' rest).map (w :: ·)) :
    Lexes cs (w :: ws) := by
  intro fuel depth hfuel
  obtain _ | fuel := fuel
  · omega
  obtain ⟨depth', heq⟩ := hstep fuel depth
  rw [heq, h fuel depth' (by omega)]
  rfl

variable (h : Lexes rest ws)

include h

theorem Lexes.opening : Lexes ('(' :: rest) (.mark "(" :: ws) := h.step (by simp) fun _ depth => ⟨depth + 1, rfl⟩

theorem Lexes.closing : Lexes (')' :: rest) (.mark ")" :: ws) := h.step (by simp) fun _ depth => ⟨depth - 1, rfl⟩

theorem Lexes.minus : Lexes ('-' :: rest) (.mark "-" :: ws) := h.step (by simp) fun _ depth => ⟨depth, rfl⟩

theorem Lexes.operator (hop : op ∈ arithOps ++ compareOps) : Lexes (op.toList ++ ' ' :: rest) (.mark op :: ws) := by
  simp only [arithOps, compareOps, cons_append, nil_append, mem_cons, not_mem_nil, or_false] at hop
  rcases hop with rfl | rfl | rfl | rfl | rfl | rfl | rfl | rfl | rfl <;>
    exact h.blank.step (by simp) fun _ depth => ⟨depth, rfl⟩

omit h

theorem takeWhile_append_of_ends (hp : p ' ' = false ∧ p ')' = false) (hcs : ∀ c ∈ cs, p c = true) (hrest : Ends rest) :
    (cs ++ rest).takeWhile p = cs ∧ (cs ++ rest).dropWhile p = rest := by
  rw [takeWhile_append_of_pos hcs, dropWhile_append_of_pos hcs]
  match rest, hrest with
  | [], _ => simp
  | _ :: _, .inl rfl => simp [hp.1]
  | _ :: _, .inr rfl => simp [hp.2]

/-- The digits of a number begin with zero only if there is just one. -/
theorem toDigits_head {n : Nat} (hn : 0 < n) : (toDigits 10 n).head? ≠ some '0' := by
  induction n using Nat.strong_induction_on with
  | _ n ih =>
    rw [Nat.toDigits_eq_if (by omega)]
    split
    · next h => interval_cases n <;> simp [Nat.digitChar]
    next h =>
    rw [head?_append_of_ne_nil _ Nat.toDigits_ne_nil]
    exact ih (n / 10) (by omega) (by omega)

theorem spanNumber_digits (n : Nat) (hrest : Ends rest) :
    Expr.spanNumber (toDigits 10 n ++ rest) = (toDigits 10 n, false, rest) := by
  have hdigits : ∀ c ∈ toDigits 10 n, c.isDigit = true := fun c hc =>
    Nat.isDigit_of_mem_toDigits (by omega) (by omega) hc
  obtain ⟨htake, hdrop⟩ := takeWhile_append_of_ends ⟨rfl, rfl⟩ hdigits hrest
  simp only [Expr.spanNumber, htake, hdrop]
  match rest, hrest with
  | [], _ => simp
  | _ :: _, .inl rfl => simp
  | _ :: _, .inr rfl => simp

theorem numberAt_digits (n : Nat) (hrest : Ends rest) :
    Expr.numberAt (toDigits 10 n ++ rest) = some (.int n, rest) := by
  have hvalue : Double.natOf (toDigits 10 n) = n := Nat.ofDigitChars_ten_toDigits
  have hhead : (rest.head?.map Expr.isNameStart).getD false = false := by
    match rest, hrest with
    | [], _ => rfl
    | _ :: _, .inl rfl => rfl
    | _ :: _, .inr rfl => rfl
  have hzero : ((toDigits 10 n).length > 1 && (toDigits 10 n).head? == some '0' &&
      (toDigits 10 n).any (· != '0')) = false := by
    cases n with
    | zero => rfl
    | succ n => simp [toDigits_head (Nat.succ_pos n)]
  simp only [Expr.numberAt, spanNumber_digits n hrest, hhead, hzero, hvalue]
  simp

theorem beq_eq_false_of {p : Char → Bool} (hc : p c = true) (hd : p d = false) : (c == d) = false := by
  rw [beq_eq_false_iff_ne]
  rintro rfl
  rw [hc] at hd
  cases hd

theorem Lexes.digits (h : Lexes rest ws) (hrest : Ends rest) (n : Nat) :
    Lexes (toDigits 10 n ++ rest) (.const (.int n) :: ws) := by
  obtain ⟨c, ds, hds⟩ : ∃ c ds, toDigits 10 n = c :: ds := exists_cons_of_ne_nil Nat.toDigits_ne_nil
  have hc : c.isDigit = true := Nat.isDigit_of_mem_toDigits (b := 10) (n := n) (by omega) (by omega) (by simp [hds])
  have hne := fun d => beq_eq_false_of (d := d) hc
  have hnumber := numberAt_digits n hrest
  rw [hds] at hnumber ⊢
  refine h.step (by simp) fun fuel depth => ⟨depth, ?_⟩
  rw [cons_append] at hnumber ⊢
  rw [words]
  simp only [hne ' ' rfl, hne '\t' rfl, hne (Char.ofNat 12) rfl, hne '\n' rfl, hne '\r' rfl, hne '#' rfl,
    hne '"' rfl, hne '\'' rfl, hc, hnumber, Bool.or_self, Bool.true_or, Bool.false_eq_true, ↓reduceIte]
  rw [Option.map_eq_bind]
  rfl

theorem isDigit_of_isAlpha {c : Char} (hc : c.isAlpha = true) : c.isDigit = false := by
  simp only [Char.isAlpha, Char.isUpper, Char.isLower, Bool.or_eq_true, Bool.and_eq_true,
    decide_eq_true_eq, UInt32.le_iff_toNat_le, ge_iff_le] at hc
  rw [Bool.eq_false_iff]
  simp only [Char.isDigit, ne_eq, Bool.and_eq_true, decide_eq_true_eq, UInt32.le_iff_toNat_le, ge_iff_le]
  change (65 ≤ c.toNat ∧ c.toNat ≤ 90) ∨ (97 ≤ c.toNat ∧ c.toNat ≤ 122) at hc
  change ¬ (48 ≤ c.toNat ∧ c.toNat ≤ 57)
  omega

theorem Lexes.name (h : Lexes rest ws) (hrest : Ends rest) (hx : Nice x) :
    Lexes (x.toList ++ rest) (.name x :: ws) := by
  obtain ⟨c, ds, hcs, hc⟩ := hx.head
  have hne := fun d => beq_eq_false_of (d := d) hc
  have hdigit := isDigit_of_isAlpha hc
  have hchars : ∀ d ∈ x.toList, Expr.isNameChar d = true := by
    intro d hd
    rcases hx.chars d hd with h | rfl
    · simp [Expr.isNameChar, h]
    · rfl
  obtain ⟨htake, hdrop⟩ := takeWhile_append_of_ends (by decide) hchars hrest
  have hstart : Expr.isNameStart c = true := by simp [Expr.isNameStart, hc]
  have hname : String.ofList (c :: ds) = x := by rw [← hcs, String.ofList_toList]
  rw [hcs] at htake hdrop ⊢
  refine h.step (by simp) fun fuel depth => ⟨depth, ?_⟩
  rw [List.cons_append] at htake hdrop ⊢
  rw [words]
  simp only [hne ' ' rfl, hne '\t' rfl, hne (Char.ofNat 12) rfl, hne '\n' rfl, hne '\r' rfl,
    hne '#' rfl, hne '"' rfl, hne '\'' rfl, hne '.' rfl, hdigit, hstart, htake, hdrop, hname,
    Bool.or_self, Bool.false_and, Bool.false_eq_true, ↓reduceIte]

/-- A whole number, with its sign. -/
theorem Lexes.int (h : Lexes rest ws) (hrest : Ends rest) (n : Int) :
    Lexes ((Atom.int n).plain.toList ++ rest) (Term.constWords (.int n) ++ ws) := by
  cases n with
  | ofNat n =>
    rw [plain_ofNat]
    exact h.digits hrest n
  | negSucc n =>
    rw [plain_negSucc]
    exact (h.digits hrest (n + 1)).minus

/-- An operation in brackets, given what the texts of its operands are. -/
theorem Lexes.binary (hop : op ∈ arithOps ++ compareOps)
    (ha : ∀ {rest ws}, Lexes rest ws → Ends rest → Lexes (a.text.toList ++ rest) (a.words ++ ws))
    (hb : ∀ {rest ws}, Lexes rest ws → Ends rest → Lexes (b.text.toList ++ rest) (b.words ++ ws))
    (h : Lexes rest ws) :
    Lexes ((Term.binary a op b).text.toList ++ rest) ((Term.binary a op b).words ++ ws) := by
  have hright := hb h.closing (.inr rfl)
  have hleft := ha (hright.operator hop).blank (.inl rfl)
  simpa [Term.text, Term.words] using hleft.opening

theorem Lexes.arith {t : Term} (ht : t.arith = true) (hx : ∀ x ∈ t.vars, Nice x)
    (h : Lexes rest ws) (hrest : Ends rest) : Lexes (t.text.toList ++ rest) (t.words ++ ws) := by
  induction t, ht using Term.arith_induction generalizing rest ws with
  | int n => exact h.int hrest n
  | var x => exact h.name hrest (hx x (by simp [Term.vars]))
  | binary a op b _ hop _ _ iha ihb =>
    exact h.binary (mem_append_left _ hop) (iha (forall_mem_append.1 hx).1) (ihb (forall_mem_append.1 hx).2)

theorem lexes_text {t : Term} (ht : (t.arith || t.comparison) = true) (hx : ∀ x ∈ t.vars, Nice x) :
    Lexes t.text.toList t.words := by
  rw [Bool.or_eq_true] at ht
  rcases ht with ht | ht
  · simpa using lexes_nil.arith ht hx trivial
  match t, ht with
  | .binary a op b, ht =>
    simp only [Term.comparison, Bool.and_eq_true, contains_iff_mem] at ht
    simpa using lexes_nil.binary (mem_append_right _ ht.1.1)
      (fun h hrest => h.arith ht.1.2 (forall_mem_append.1 hx).1 hrest)
      (fun h hrest => h.arith ht.2 (forall_mem_append.1 hx).2 hrest)

end Tabc.Core
