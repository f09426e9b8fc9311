import Tabc.Proofs.Writing.Steps

/-!
# Assignments of what registers hold

Literals of texts and calls are put into a register first; the assignment to the variable has the contents of
the register on its right side (`Clear.run_assign`). A text with `list_slice` in it is taken for a part of a
list.
-/

open List

namespace Tabc.Core

open EStateM (run_bind run_get run_modify)
open Target.Node (text)

open Target Target.Writer

variable {w w' : Writer} {x t : String} {n : Nat}

theorem run_reporting_error {n : Target.Node} (h : act.run w = .error fault w') (hfault : fault ≠ .noPart) :
    (reporting n act).run w = .error fault w' := by
  simp only [reporting, EStateM.run, tryCatch, tryCatchThe, MonadExceptOf.tryCatch, EStateM.tryCatch] at h ⊢
  rw [h]
  cases fault <;> first | exact absurd rfl hfault | rfl

theorem Writes.run_block_error {n : Target.Node} (h : Writes trees (entered w) items w1)
    (hn : (write n).run w1 = .error fault w') (hfault : fault ≠ .noPart) (rest : List Target.Node) :
    (write (.block (trees ++ n :: rest))).run w = .error fault w' := by
  have hall : ∀ (trees : List Target.Node) (w : Writer) (items : List Piece), Writes trees w items w1 →
      (writeAll (trees ++ n :: rest)).run w = .error fault w' := by
    intro trees
    induction trees with
    | nil =>
      rintro w items ⟨ps, hps, -⟩
      cases hps
      rw [nil_append, writeAll, run_bind, hn]
    | cons m trees ih =>
      rintro w items ⟨ps, hps, -⟩
      obtain ⟨p, w2, hm, hps⟩ := of_run_bind hps
      obtain ⟨qs, w3, hqs, hps⟩ := of_run_bind hps
      cases hps
      rw [cons_append, writeAll, run_bind_of_ok hm, run_bind, ih w2 _ ⟨qs, hqs, rfl⟩]
  refine run_reporting_error ?_ hfault
  change EStateM.run (writeAll _ >>= _) (entered w) = _
  rw [run_bind, hall trees _ items h]

/-- The writer has seen no lists, follows no values, and is not in a trial run. -/
structure Clear (w : Writer) : Prop where
  lists : w.tempLists = []
  listsDeclared : w.listsDeclared = []
  listTypes : w.listTypes = []
  held : w.held = []
  variants : w.variants = []
  registers : OnlyRegs w.temps
  scopes : w.declared ≠ []
  trial : w.trial = false

theorem clear_fresh (folding : Bool) : Clear (.fresh folding) where
  lists := rfl
  listsDeclared := rfl
  listTypes := rfl
  held := rfl
  variants := rfl
  registers _ _ := rfl
  scopes := by simp [fresh]
  trial := rfl

namespace Clear

theorem entered (h : Clear w) : Clear (entered w) := { h with scopes := by simp [Core.entered] }

theorem setReg (h : Clear w) (n : Nat) (v : Target.Node) : Clear { w with temps := put (reg n) v w.temps } :=
  { h with registers := h.registers.put n v }

theorem run_assignValue (h : Clear w) (ht : t ≠ "NONE_LITERAL") :
    (assignValue x (.text t) "").run w = .ok (.value (.line (x ++ " = " ++ t)) (.text t)) w := by
  have hheld : (heldValue (.text t)).run w = .ok (.text t) w := by
    rw [heldValue]
    simp only [run_bind, run_get, h.held]
    cases w.folding <;> rfl
  have hhold : (hold x (.text t)).run w = .ok () w := by
    rw [hold]
    simp only [run_bind, run_get, h.held, lookup_nil]
    simp [Target.Node.isNumber, Target.Node.isText, text, ht.symm]
  rw [assignValue]
  simp only [run_bind, hheld, hhold, EStateM.run_pure]
  rw [show (text t).plain .fourth = t from rfl, String.append_empty]

theorem run_declareList (h : Clear w) (x : String) (v : Target.Node) :
    (Assigned.done <$> declareList x v : WriterM Assigned).run w = .error .noKey { w with listsDeclared := [x] } := by
  rw [declareList]
  simp only [EStateM.run_map, run_bind, run_modify, run_get, h.listTypes, lookup_nil, h.listsDeclared, nil_append]
  rfl

theorem run_assign (h : Clear w) (hx : Visible x) (hlead : Leads w.temps (reg n) (.text t)) (ht : t ≠ "NONE_LITERAL")
    (hvalue : (evalAssign (.text (reg n)) (write (.ident x))).run w = .ok u w') :
    (write (.assign (.ident x) (.text (reg n)))).run w = if Text.occurs "list_slice".toList t.toList = true then
        .error .noKey { w with listsDeclared := [x] }
      else .ok (.line (x ++ " = " ++ u.plain .fourth ++ ";")) { w' with vars := put x u w'.vars } := by
  have hlist : (isList w (.text t) && !w.listsDeclared.contains x) = Text.occurs "list_slice".toList t.toList := by
    simp [isList, text, h.lists, h.listsDeclared]
  have hside := run_assignSide_leads h.lists h.registers hlead (reg_ne_placeholder n) x (write (.text (reg n)))
  rw [hlist] at hside
  split
  · next hslice =>
    rw [if_pos hslice] at hside
    have hdeclare := h.run_declareList x (.text t)
    rw [hdeclare] at hside
    have hassign : (assign (.text (reg n)) (write (.ident x)) (write (.text (reg n)))).run w =
        .error .noKey { w with listsDeclared := [x] } := by
      rw [assign]
      simp only [run_bind, run_write_ident, run_lineText, run_get, h.registers x hx.not_isReg,
        hx.run_isRegister, Option.isSome_none, Bool.false_eq_true, if_false, h.trial, Bool.or_self, hside]
    exact run_reporting_error hassign (by decide)
  · next hslice =>
    rw [if_neg hslice, h.run_assignValue ht] at hside
    exact run_reporting_ok (run_assign_of_side hx (h.registers x hx.not_isReg) h.trial (reg_ne_blank n)
      hside h.variants hvalue)

end Clear

end Tabc.Core
