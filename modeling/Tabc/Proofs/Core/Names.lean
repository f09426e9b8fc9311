import Mathlib
import Tabc.Proofs.Core.Code

/-!
# Names of registers and labels

Registers are told apart by their numbers, and so are labels, whatever they are for. An expression
takes a range of registers of its own.
-/

open List

namespace Tabc.Core

open Flat

theorem reg_inj : reg a = reg b ↔ a = b := by simp [reg, registerName]

theorem reg_toList (n : Nat) : (reg n).toList = "_t".toList ++ Nat.toDigits 10 n ++ ['_'] := by
  simp [reg, registerName]
  rfl

def IsReg (x : String) : Prop := ∃ n, x = reg n

theorem IsReg.head (h : IsReg x) : x.toList.head? = some '_' := by
  obtain ⟨n, rfl⟩ := h
  rw [reg_toList]
  rfl

def Taken (r n : Nat) (x : String) : Prop := ∃ k, r < k ∧ k ≤ r + n ∧ x = reg k

theorem Taken.mono {r n r' n' : Nat} (h : Taken r n x) (hr : r' ≤ r) (hn : r + n ≤ r' + n') : Taken r' n' x :=
  let ⟨k, h1, h2, hk⟩ := h; ⟨k, by omega, by omega, hk⟩

theorem Taken.isReg {r n : Nat} (h : Taken r n x) : IsReg x := let ⟨k, _, _, hk⟩ := h; ⟨k, hk⟩

/-- Two maps agree but on the registers above `r` and up to `r + n`. -/
def Keeps {β : Type} (r n : Nat) (f g : String → β) : Prop := ∀ x, ¬ Taken r n x → g x = f x

namespace Keeps

variable {β : Type} {r m n : Nat} {f g k : String → β}

theorem refl (f : String → β) : Keeps r n f f := fun _ _ => rfl

theorem mono (h : Keeps r n f g) (hr : r' ≤ r) (hn : r + n ≤ r' + n') : Keeps r' n' f g :=
  fun x hx => h x fun ht => hx (ht.mono hr hn)

theorem trans (h : Keeps r n f g) (h' : Keeps r n g k) : Keeps r n f k := fun x hx => (h' x hx).trans (h x hx)

theorem append (h : Keeps r m f g) (h' : Keeps (r + m) n g k) : Keeps r (m + n) f k :=
  (h.mono le_rfl (by omega)).trans (h'.mono (by omega) (by omega))

theorem update (f : String → β) (hr : r < j) (hn : j ≤ r + n) (v : β) : Keeps r n f (Function.update f (reg j) v) :=
  fun _ hx => Function.update_of_ne (fun h => hx ⟨j, hr, hn, h⟩) v f

end Keeps

theorem Term.not_taken_operand (t : Term) (ht : ∀ x ∈ t.vars, ¬ IsReg x) (r n : Nat) :
    ¬ Taken (r + t.size) n (t.operand r) := by
  cases t with
  | var x => exact fun h => ht x (by simp [Term.vars]) h.isReg
  | const _ | unary _ _ | binary _ _ _ =>
    rintro ⟨k, hk, -, h⟩
    have h : r + _ = k := reg_inj.mp h
    omega

theorem mark_toList (n : Nat) : (mark n).toList = "L_".toList ++ Nat.toDigits 10 n := by
  simp [mark, labelName]
  rfl

theorem whileMark_toList (n : Nat) : (whileMark n).toList = "L_WHILE_".toList ++ Nat.toDigits 10 n := by
  simp [whileMark, labelName]
  rfl

theorem rangeMark_toList (n : Nat) : (rangeMark n).toList = "L_FORRANGE_".toList ++ Nat.toDigits 10 n := by
  simp [rangeMark, labelName]
  rfl

def Numbered (n : Nat) (label : String) : Prop := label = mark n ∨ label = whileMark n ∨ label = rangeMark n

theorem Numbered.digits {n : Nat} (h : Numbered n label) : label.toList.filter Char.isDigit = Nat.toDigits 10 n := by
  have hdigits : (Nat.toDigits 10 n).filter Char.isDigit = Nat.toDigits 10 n :=
    filter_eq_self.mpr fun c hc => Nat.isDigit_of_mem_toDigits (by decide) (by decide) hc
  rcases h with rfl | rfl | rfl
  · rw [mark_toList, filter_append, hdigits]; rfl
  · rw [whileMark_toList, filter_append, hdigits]; rfl
  · rw [rangeMark_toList, filter_append, hdigits]; rfl

theorem Numbered.inj {m n : Nat} (hm : Numbered m label) (hn : Numbered n label) : m = n := by
  have h := hm.digits.symm.trans hn.digits
  simpa [← Nat.toList_repr, String.toList_inj] using h

end Tabc.Core
