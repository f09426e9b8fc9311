import Tabc.Scope.Entry

/-!
# Printed types

Types of the source and of the target language are compared by their printed forms. `Ty.letters` is the printed
form of a type of either language; no such form begins another one (`Ty.eq_of_letters_append`), so a list of
types can be read back from its printed form.
-/

open List

namespace Tabc

open Datum (render)

namespace Ty

/-- Every collection in the type is a list or a tuple. -/
def Proper : Ty → Prop
  | .prim _ => True
  | .coll kind elem => (kind = "list" ∨ kind = "tuple") ∧ elem.Proper
  | .bare kind => kind = "list" ∨ kind = "tuple"

/-- What is printed of a type of the source or of the target language inside its mark. -/
def letters (target : Bool) (t : Ty) : List Char := (if target then t.targetShape else t.shapeDatum).render.toList

/-- What is printed up to the element type. -/
def opening (target : Bool) : Ty → List Char
  | .coll kind _ =>
    ("NonPrimitiveType(" ++ (if target then "type" else "name") ++ "='" ++ kind ++ "', value=Type(value=").toList
  | t => letters target t

/-- What is printed from the element type on, before `r`. -/
def closing (target : Bool) (r : List Char) : Ty → List Char
  | .coll _ elem => letters target elem ++ ("))".toList ++ r)
  | _ => r

/-- The type up to its element type. -/
def outer : Ty → Ty
  | .coll kind _ => .coll kind (.prim .none)
  | t => t

def outers : List Ty := [.prim .str, .prim .int, .prim .float, .prim .bool, .prim .none,
  .coll "list" (.prim .none), .coll "tuple" (.prim .none), .bare "list", .bare "tuple"]

variable {target target' : Bool} {r r' : List Char} {t t' : Ty}

theorem letters_append (h : t.Proper) : letters target t ++ r = opening target t ++ closing target r t := by
  cases t with
  | coll kind elem =>
    have hquote : Text.quote kind = "'" ++ kind ++ "'" := by rcases h.1 with rfl | rfl <;> decide
    cases target <;> simp [letters, opening, closing, targetShape, shapeDatum, Datum.text, render,
      Datum.renderFields, Atom.render, hquote]
  | _ => rfl

theorem outer_mem (h : t.Proper) : t.outer ∈ outers := by
  cases t with
  | prim p => cases p <;> decide
  | coll kind elem => rcases h.1 with rfl | rfl <;> simp [outer, outers]
  | bare kind => rcases h with rfl | rfl <;> simp [outer, outers]

theorem eq_of_opening (h : t.Proper) (h' : t'.Proper) (heq : opening target t ++ r = opening target' t' ++ r') :
    target = target' ∧ t.outer = t'.outer ∧ r = r' := by
  have hfree : ∀ t ∈ outers, ∀ t' ∈ outers, ∀ target target',
      opening target t <+: opening target' t' → target = target' ∧ t = t' := by decide
  have houter : ∀ (target : Bool) (t : Ty), opening target t = opening target t.outer := by rintro _ (_ | _ | _) <;> rfl
  rw [houter target, houter target'] at heq
  have hprefix := prefix_or_prefix_of_prefix (prefix_append _ r) (heq ▸ prefix_append _ r')
  obtain ⟨rfl, hsame⟩ : target = target' ∧ t.outer = t'.outer := by
    rcases hprefix with hprefix | hprefix
    · exact hfree _ (outer_mem h) _ (outer_mem h') _ _ hprefix
    · exact (hfree _ (outer_mem h') _ (outer_mem h) _ _ hprefix).imp Eq.symm Eq.symm
  rw [hsame] at heq
  exact ⟨rfl, hsame, append_cancel_left heq⟩

/-- No printed form of a type begins that of another one. -/
theorem eq_of_letters_append (h : t.Proper) (h' : t'.Proper)
    (heq : letters target t ++ r = letters target' t' ++ r') : target = target' ∧ t = t' ∧ r = r' := by
  induction t generalizing t' r r' with
  | coll kind elem ih =>
    rw [letters_append h, letters_append h'] at heq
    obtain ⟨rfl, hsame, hrest⟩ := eq_of_opening h h' heq
    cases t' with
    | coll kind' elem' =>
      cases hsame
      obtain ⟨-, rfl, hr⟩ := ih h.2 h'.2 hrest
      exact ⟨rfl, rfl, append_cancel_left hr⟩
    | _ => cases hsame
  | _ =>
    rw [letters_append h'] at heq
    obtain ⟨rfl, hsame, hrest⟩ := eq_of_opening h h' heq
    cases t' <;> cases hsame
    exact ⟨rfl, rfl, hrest⟩

end Ty

namespace Held

/-- A type of the source or of the target language. -/
def IsType : Held → Prop
  | .type t | .target t => t.Proper
  | _ => False

variable {x y : Held} {l l' : List Held} {r r' : List Char}

theorem exists_of_isType (h : x.IsType) : ∃ target t, Ty.Proper t ∧ (x = if target then .target t else .type t) ∧
    ∀ r, x.datum.render.toList ++ r = "Type(value=".toList ++ (t.letters target ++ (')' :: r)) := by
  cases x with
  | type t => exact ⟨false, t, h, rfl, by simp [datum, Ty.datum, Ty.letters, render, Datum.renderFields]⟩
  | target t => exact ⟨true, t, h, rfl, by simp [datum, Ty.targetDatum, Ty.letters, render, Datum.renderFields]⟩
  | _ => exact h.elim

theorem eq_of_render_append (hx : x.IsType) (hy : y.IsType)
    (heq : x.datum.render.toList ++ r = y.datum.render.toList ++ r') : x = y ∧ r = r' := by
  obtain ⟨target, t, ht, hxt, hxr⟩ := exists_of_isType hx
  obtain ⟨target', t', ht', hyt, hyr⟩ := exists_of_isType hy
  rw [hxr, hyr] at heq
  obtain ⟨rfl, rfl, hr⟩ := Ty.eq_of_letters_append ht ht' (append_cancel_left heq)
  exact ⟨hxt.trans hyt.symm, tail_eq_of_cons_eq hr⟩

/-- What is printed of the elements of a list after the first. -/
def following : List Held → List Char
  | [] => [']']
  | x :: l => ", ".toList ++ (x.datum.render.toList ++ following l)

theorem toList_renderAll_cons (x : Held) (l : List Held) :
    (renderAll (x :: l)).toList = '[' :: (x.datum.render.toList ++ following l) := by
  induction l generalizing x with
  | nil => simp [renderAll, following, render, Datum.renderAll]
  | cons y l ih => simpa [renderAll, following, render, Datum.renderAll] using ih y

theorem eq_of_following (h : ∀ x ∈ l, x.IsType) (h' : ∀ x ∈ l', x.IsType) (heq : following l = following l') :
    l = l' := by
  induction l generalizing l' with
  | nil =>
    cases l' with
    | nil => rfl
    | cons y l' => simp [following] at heq
  | cons x l ih =>
    cases l' with
    | nil => simp [following] at heq
    | cons y l' =>
      rw [forall_mem_cons] at h h'
      obtain ⟨rfl, hrest⟩ := eq_of_render_append h.1 h'.1 (append_cancel_left heq)
      rw [ih h.2 h'.2 hrest]

theorem renderAll_nil_ne (hx : x.IsType) : renderAll [] ≠ renderAll (x :: l) := by
  intro heq
  obtain ⟨target, t, -, -, hxr⟩ := exists_of_isType hx
  have hchars := congrArg String.toList heq
  rw [toList_renderAll_cons, hxr] at hchars
  simp [renderAll, render, Datum.renderAll] at hchars

theorem renderAll_inj (h : ∀ x ∈ l, x.IsType) (h' : ∀ x ∈ l', x.IsType) : renderAll l = renderAll l' ↔ l = l' := by
  refine ⟨fun heq => ?_, fun heq => heq ▸ rfl⟩
  cases l with
  | nil =>
    cases l' with
    | nil => rfl
    | cons y l' => exact (renderAll_nil_ne (h' y (.head _)) heq).elim
  | cons x l =>
    cases l' with
    | nil => exact (renderAll_nil_ne (h x (.head _)) heq.symm).elim
    | cons y l' =>
      rw [forall_mem_cons] at h h'
      have hchars := congrArg String.toList heq
      rw [toList_renderAll_cons, toList_renderAll_cons] at hchars
      obtain ⟨rfl, hrest⟩ := eq_of_render_append h.1 h'.1 (tail_eq_of_cons_eq hchars)
      rw [eq_of_following h.2 h'.2 hrest]

/-- Where functions are told apart by their types, as in `clear`, `resultIn` and `emittedIn`, it is as if their
printed forms were compared. -/
theorem beq_eq_renderAll (h : ∀ x ∈ l, x.IsType) (h' : ∀ x ∈ l', x.IsType) :
    (l == l') = (renderAll l == renderAll l') := by
  rw [Bool.eq_iff_iff, beq_iff_eq, beq_iff_eq, renderAll_inj h h']

/-- Two lists of types print alike only if they are the same; so types of the source language never print like
types of the target language. -/
theorem renderAll_eq_iff (h : ∀ x ∈ l, x.IsType) (h' : ∀ x ∈ l', x.IsType) :
    (renderAll l = renderAll l' ↔ l = l') ∧
      ∀ ts us : List Ty, l = ts.map .type → l' = us.map .target → renderAll l = renderAll l' → l = [] ∧ l' = [] := by
  refine ⟨renderAll_inj h h', fun ts us hl hl' heq => ?_⟩
  have hmap : ts.map Held.type = us.map .target := hl ▸ hl' ▸ (renderAll_inj h h').mp heq
  subst hl hl'
  cases ts <;> cases us <;> simp at hmap ⊢

theorem renderAll_pairs_ne : renderAll [.type (.coll "list" (.coll "tuple" (.prim .int))), .target (.bare "list")] ≠
    renderAll [.type (.coll "list" (.bare "tuple")), .target (.bare "list")] := by
  refine mt (renderAll_eq_iff ?_ ?_).1.mp (by decide) <;> simp [IsType, Ty.Proper]

end Held
end Tabc
