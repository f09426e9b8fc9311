import Mathlib
import Tabc.Proofs.Core.Meaning

/-!
# A machine for intermediate code

The machine has a place in the code and a store for registers and variables alike. Instructions outside of
the core language stop it.
-/

open List

namespace Tabc.Core

def labelOf? : Instr → Option String
  | .label (.name s) => some s
  | _ => none

def place (code : List Instr) (label : String) : Option Nat := code.findIdx? fun i => labelOf? i == some label

variable {V : Type}

def step (I : Interp V) (code : List Instr) : Nat × Store V → Option (Nat × Store V)
  | (pc, m) => do
    match ← code[pc]? with
    | .label _ => return (pc + 1, m)
    | .goto (.name l) => return (← place code l, m)
    | .literal (.name r) a => return (pc + 1, m.set r (I.const a))
    | .unary (.name r) op (.name a) => return (pc + 1, m.set r (← I.unary op (← m a)))
    | .binary (.name r) (.name a) (.name b) op => return (pc + 1, m.set r (← I.binary op (← m a) (← m b)))
    | .assign (.name x) (.name a) => return (pc + 1, m.set x (← m a))
    | .branch (.name l) (.name c) | .elseBranch (.name l) (.name c) =>
      if I.truth (← m c) then return (pc + 1, m) else return (← place code l, m)
    | _ => none

def Reaches (I : Interp V) (code : List Instr) : Nat × Store V → Nat × Store V → Prop :=
  Relation.ReflTransGen fun a b => step I code a = some b

def At (code : List Instr) (pc : Nat) (piece : List Instr) : Prop := piece <+: code.drop pc

namespace At

variable {code piece rest : List Instr} {pc : Nat} {i : Instr}

theorem cast {pc' : Nat} (h : At code pc piece) (e : pc = pc') : At code pc' piece := e ▸ h

theorem whole (code : List Instr) : At code 0 code := by simp [At]

theorem left (h : At code pc (piece ++ rest)) : At code pc piece := (prefix_append piece rest).trans h

theorem right (h : At code pc (piece ++ rest)) : At code (pc + piece.length) rest := by
  obtain ⟨post, hpost⟩ := h
  refine ⟨post, ?_⟩
  rw [← drop_drop, ← hpost, List.append_assoc, drop_left]

theorem tail (h : At code pc (i :: rest)) : At code (pc + 1) rest := @right code [i] rest pc h

theorem head (h : At code pc (i :: rest)) : code[pc]? = some i := by
  obtain ⟨post, hpost⟩ := h
  have := congrArg (·[0]?) hpost
  simpa using this.symm

end At

def labels (code : List Instr) : List String := code.filterMap labelOf?

variable {code : List Instr} (hcode : (labels code).Nodup) {l : String} {pc : Nat}
  {rest : List Instr} (h : At code pc (.label (.name l) :: rest))

include hcode h

theorem not_mem_labels_take : l ∉ labels (code.take pc) := by
  obtain ⟨post, hpost⟩ := h
  rw [← take_append_drop pc code, ← hpost] at hcode
  simp only [labels, filterMap_append, cons_append, filterMap_cons, labelOf?] at hcode
  intro hmem
  exact (nodup_append.mp hcode).2.2 l hmem l (by simp) rfl

theorem place_eq : place code l = some pc := by
  obtain ⟨hlt, hget⟩ := List.getElem?_eq_some_iff.mp h.head
  rw [place, findIdx?_eq_some_iff_getElem]
  refine ⟨hlt, by simp [hget, labelOf?], ?_⟩
  intro j hj hlabel
  have hmem : code[j] ∈ code.take pc := mem_take_iff_getElem.mpr ⟨j, by omega, rfl⟩
  exact not_mem_labels_take hcode h (mem_filterMap.mpr ⟨code[j], hmem, by simpa using hlabel⟩)

omit hcode h

namespace Reaches

variable {I : Interp V} {code rest after : List Instr} {pc dest : Nat} {m : Store V} {a b c : Nat × Store V} {u v w : V}

theorem refl : Reaches I code a a := Relation.ReflTransGen.refl

theorem trans (h : Reaches I code a b) (h' : Reaches I code b c) : Reaches I code a c :=
  Relation.ReflTransGen.trans h h'

variable {r x l : String}

theorem literal {k : Atom} (h : At code pc (.literal (.name r) k :: rest)) :
    Reaches I code (pc, m) (pc + 1, m.set r (I.const k)) := .single (by simp [step, h.head])

theorem unary {op : String} (h : At code pc (.unary (.name r) op (.name x) :: rest))
    (hx : m x = some u) (hv : I.unary op u = some v) : Reaches I code (pc, m) (pc + 1, m.set r v) :=
  .single (by simp [step, h.head, hx, hv])

theorem binary {y op : String} (h : At code pc (.binary (.name r) (.name x) (.name y) op :: rest))
    (hx : m x = some u) (hy : m y = some w) (hv : I.binary op u w = some v) :
    Reaches I code (pc, m) (pc + 1, m.set r v) := .single (by simp [step, h.head, hx, hy, hv])

theorem assign {y : String} (h : At code pc (.assign (.name x) (.name y) :: rest))
    (hy : m y = some v) : Reaches I code (pc, m) (pc + 1, m.set x v) := .single (by simp [step, h.head, hy])

theorem label {l : Operand} (h : At code pc (.label l :: rest)) : Reaches I code (pc, m) (pc + 1, m) :=
  .single (by simp [step, h.head])

theorem goto (hcode : (labels code).Nodup) (h : At code pc (.goto (.name l) :: rest))
    (hl : At code dest (.label (.name l) :: after)) : Reaches I code (pc, m) (dest, m) :=
  .single (by simp [step, h.head, place_eq hcode hl])

theorem branch_of_true (hi : i = .branch (.name l) (.name x) ∨ i = .elseBranch (.name l) (.name x))
    (h : At code pc (i :: rest)) (hx : m x = some v) (hv : I.truth v = true) :
    Reaches I code (pc, m) (pc + 1, m) := by
  have hstep := h.head
  rcases hi with rfl | rfl <;> exact .single (by simp [step, hstep, hx, hv])

theorem branch_of_false (hcode : (labels code).Nodup)
    (hi : i = .branch (.name l) (.name x) ∨ i = .elseBranch (.name l) (.name x))
    (h : At code pc (i :: rest)) (hl : At code dest (.label (.name l) :: after)) (hx : m x = some v)
    (hv : I.truth v = false) : Reaches I code (pc, m) (dest, m) := by
  have hstep := h.head
  rcases hi with rfl | rfl <;> exact .single (by simp [step, hstep, hx, hv, place_eq hcode hl])

end Reaches

end Tabc.Core
