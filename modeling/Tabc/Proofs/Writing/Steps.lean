import Tabc.Proofs.Core.Names
import Tabc.Proofs.Core.Steps
import Tabc.Proofs.Rebuild.Trees
import Tabc.Proofs.Writing.Output
import Tabc.Target.Write

/-!
# Steps of writing

What the writer does with the trees of core programs, as far as folding does not matter. The trees
compute every expression in registers; `Leads` says what a register or a name stands for.
-/

open List

namespace Tabc.Core

open Target Target.Writer
open Text (occurs)
open EStateM (run_bind run_get run_modify run_pure)

attribute [local simp] lookup_cons Term.vars Term.text

section Tables

variable {α : Type} {x y : String} {v : α} {table : List (String × α)}

theorem lookup_put_self : (put x v table).lookup x = some v := by
  induction table with
  | nil => simp [put]
  | cons p rest ih =>
    obtain ⟨k, w⟩ := p
    rw [put]
    split
    · simp
    · next hk => simpa [beq_eq_false_iff_ne.mpr (Ne.symm (by simpa using hk))] using ih

theorem lookup_put_of_ne (h : y ≠ x) : (put x v table).lookup y = table.lookup y := by
  induction table with
  | nil => simp [put, beq_eq_false_iff_ne.mpr h]
  | cons p rest ih =>
    obtain ⟨k, w⟩ := p
    rw [put]
    split
    · next hk =>
      obtain rfl : k = x := by simpa using hk
      simp [beq_eq_false_iff_ne.mpr h]
    · simp [ih]

end Tables

/-- A name that the writer takes for nothing but a variable. -/
structure Fine (x : String) : Prop extends Nice x where
  free_of_builtins : ScopeTable.builtins4.has x = false
  no_slice : occurs "list_slice".toList x.toList = false

instance (x : String) : Decidable (Nice x) :=
  decidable_of_iff (x.toList.head?.any Char.isAlpha = true ∧ x.toList.all (fun c => c.isAlphanum || c == '_') = true ∧
      x ∉ Expr.keywords ∧ x ≠ "True" ∧ x ≠ "False" ∧ x ≠ "None") <| by
    constructor
    · rintro ⟨hhead, hchars, hfree⟩
      refine ⟨?_, fun c hc => by simpa using all_eq_true.mp hchars c hc, hfree⟩
      cases hcs : x.toList with
      | nil => simp [hcs] at hhead
      | cons c cs => exact ⟨c, cs, rfl, by simpa [hcs] using hhead⟩
    · rintro ⟨⟨c, cs, hcs, halpha⟩, hchars, hfree⟩
      exact ⟨by simp [hcs, halpha], all_eq_true.mpr fun c hc => by simpa using hchars c hc, hfree⟩

instance (x : String) : Decidable (Fine x) :=
  decidable_of_iff (Nice x ∧ ScopeTable.builtins4.has x = false ∧ occurs "list_slice".toList x.toList = false)
    ⟨fun ⟨h, hfree, hslice⟩ => ⟨h, hfree, hslice⟩,
    fun h => ⟨h.toNice, h.free_of_builtins, h.no_slice⟩⟩

variable {x : String} {w w' : Writer}

/-- A name that does not begin as a register does. -/
def Visible (x : String) : Prop := ∃ c cs, x.toList = c :: cs ∧ c ≠ '_'

theorem Visible.not_isReg (hx : Visible x) : ¬ IsReg x := by
  intro hreg
  obtain ⟨c, cs, hcs, hc⟩ := hx
  have hhead := hreg.head
  rw [hcs] at hhead
  cases hhead
  exact hc rfl

theorem Visible.run_isRegister (hx : Visible x) : (isRegister x).run w = .ok false w := by
  obtain ⟨c, cs, hcs, hc⟩ := hx
  rw [isRegister, hcs]
  simp [beq_eq_false_iff_ne.mpr hc]

theorem Nice.visible (hx : Nice x) : Visible x := by
  obtain ⟨c, cs, hcs, hc⟩ := hx.head
  refine ⟨c, cs, hcs, ?_⟩
  rintro rfl
  exact absurd hc (by decide)

theorem Nice.not_isReg (hx : Nice x) : ¬ IsReg x := hx.visible.not_isReg

variable (n : Nat)

theorem run_isRegister_reg : (isRegister (reg n)).run w = .ok true w := by
  rw [isRegister, reg_toList]
  rfl

theorem Nice.run_isRegister (hx : Nice x) : (isRegister x).run w = .ok false w := hx.visible.run_isRegister

/-- A value that no register stands for: a number, or a text that is no register. -/
def Final (v : Target.Node) : Prop := (∃ n, v = .atom (.int n)) ∨ ∃ s, v = .text s ∧ ¬ IsReg s

/-- A register has this value, or a name stands for itself. -/
def Leads (temps : List (String × Target.Node)) (x : String) (v : Target.Node) : Prop :=
  (temps.lookup x = some v ∧ Final v) ∨ (temps.lookup x = none ∧ v = .text x)

/-- Only registers have contents. -/
def OnlyRegs (temps : List (String × Target.Node)) : Prop := ∀ x, ¬ IsReg x → temps.lookup x = none

variable {temps : List (String × Target.Node)} {v : Target.Node}

theorem OnlyRegs.put (h : OnlyRegs temps) (n : Nat) (v : Target.Node) : OnlyRegs (put (reg n) v temps) := by
  intro x hx
  rw [lookup_put_of_ne fun hxn => hx ⟨n, hxn⟩]
  exact h x hx

theorem Final.find? (hv : Final v) (h : OnlyRegs temps) : v.find? temps = .ok none := by
  rcases hv with ⟨n, rfl⟩ | ⟨s, rfl, hs⟩
  · rfl
  · simp [Target.Node.find?, Target.Node.text, h s hs]
    rfl

namespace Leads

theorem contents_eq (h : Leads temps x v) (ht : OnlyRegs temps) :
    contents temps (temps.length + 1) (.text x) = .ok v := by
  rcases h with ⟨hx, hv⟩ | ⟨hx, rfl⟩
  · obtain ⟨k, hk⟩ : ∃ k, temps.length = k + 1 := by
      cases temps with
      | nil => simp at hx
      | cons p rest => exact ⟨rest.length, rfl⟩
    have hfind : (Target.Node.text x).find? temps = .ok (some v) := by rw [← hx]; rfl
    rw [hk, contents, hfind]
    change contents temps (k + 1) v = _
    rw [contents, hv.find? ht]
    rfl
  · have hfind : (Target.Node.text x).find? temps = .ok none := by rw [← hx]; rfl
    rw [contents, hfind]
    rfl

theorem ne_none (h : Leads temps x v) : v ≠ .atom .none := by
  rcases h with ⟨-, ⟨n, rfl⟩ | ⟨s, rfl, -⟩⟩ | ⟨-, rfl⟩ <;> simp [Target.Node.text]

end Leads

theorem run_lift_ok {α : Type} {act : Except Fault α} {a : α} (h : act = .ok a) : (lift act).run w = .ok a w := by
  rw [h]
  rfl

theorem run_tempValue_of_contents (h : contents w.temps (w.temps.length + 1) u = .ok v) :
    (tempValue u).run w = .ok v w := by
  rw [tempValue, run_bind]
  exact run_lift_ok h

theorem lastGiven_of_contents {fuel : Nat} {u : Target.Node} (h : contents temps fuel u = .ok v)
    (hv : v ≠ .atom .none) : lastGiven temps fuel u = .ok v := by
  induction fuel generalizing u with
  | zero => cases h
  | succ fuel ih =>
    rw [contents] at h
    rw [lastGiven]
    cases hu : u.find? temps with
    | error => rw [hu] at h; cases h
    | ok found =>
      rw [hu] at h
      dsimp only [Bind.bind, Except.bind] at h ⊢
      split
      · cases fuel <;> cases h
        exact absurd rfl hv
      · exact ih h
      · exact h

theorem run_lookUp_of_contents (h : contents w.temps (w.temps.length + 1) (.text x) = .ok v)
    (hv : v ≠ .atom .none) : (lookUp (.text x)).run w = .ok v w := by
  change (do lift (lastGiven (← get).temps ((← get).temps.length + 1) (.text x)) : WriterM _).run w = _
  exact run_lift_ok (lastGiven_of_contents h hv)

variable (h : Leads w.temps x v) (ht : OnlyRegs w.temps)

include h ht

theorem Leads.run_tempValue : (tempValue (.text x)).run w = .ok v w := run_tempValue_of_contents (h.contents_eq ht)

theorem Leads.run_lookUp : (lookUp (.text x)).run w = .ok v w := run_lookUp_of_contents (h.contents_eq ht) h.ne_none

theorem Leads.run_nameValue (hx : IsReg x ∨ Nice x) : (nameValue x).run w = .ok v w := by
  rcases hx with ⟨n, rfl⟩ | hx
  · simp only [nameValue, run_bind, run_isRegister_reg]
    exact h.run_tempValue ht
  have hv : v = .text x := by
    rcases h with ⟨hsome, -⟩ | ⟨-, hv⟩
    · rw [ht x hx.not_isReg] at hsome
      cases hsome
    · exact hv
  simp [nameValue, run_bind, hx.run_isRegister, hv]

omit h ht

def textChar (c : Char) : Bool := c.isAlphanum || "_ ()+-*<>=!".toList.contains c

theorem Nice.textChars (hx : Nice x) : ∀ c ∈ x.toList, textChar c = true := by
  intro c hc
  rcases hx.chars c hc with h | rfl
  · simp [textChar, h]
  · rfl

variable {t : Term} {part cs : List Char} {c : Char} {r : Nat} {items : List Piece}
  {rest : List (List String)} {root : Target.Node}

/-- What holds of numbers and names and of operations in brackets holds of every text. -/
theorem Term.text_induction {P : List Char → Prop} (hint : ∀ n : Int, P (Atom.int n).plain.toList)
    (hbinary : ∀ {a b : List Char} {op : String}, op ∈ arithOps ++ compareOps → P a → P b → P ('(' :: (a ++ ' ' :: (op.toList ++ ' ' :: (b ++ [')'])))))
    (ht : (t.arith || t.comparison) = true) (hname : ∀ x ∈ t.vars, P x.toList) :
    P t.text.toList := by
  have harith : ∀ t : Term, t.arith = true → (∀ x ∈ t.vars, P x.toList) → P t.text.toList := by
    intro t ht hname
    induction t, ht using Term.arith_induction with
    | int n => exact hint n
    | var x => exact hname x (by simp)
    | binary a op b _ hop _ _ iha ihb =>
      have h := hbinary (mem_append_left _ hop) (iha (forall_mem_append.1 hname).1) (ihb (forall_mem_append.1 hname).2)
      simpa using h
  rw [Bool.or_eq_true] at ht
  rcases ht with ht | ht
  · exact harith t ht hname
  cases t with
  | const | var | unary => cases ht
  | binary a op b =>
    simp only [Term.comparison, Bool.and_eq_true, contains_iff_mem] at ht
    have h := hbinary (mem_append_right _ ht.1.1) (harith a ht.1.2 (forall_mem_append.1 hname).1)
      (harith b ht.2 (forall_mem_append.1 hname).2)
    simpa using h

theorem intChars (n : Int) : ∀ c ∈ (Atom.int n).plain.toList, c.isDigit = true ∨ c = '-' := by
  intro c hc
  cases n with
  | ofNat n =>
    rw [plain_ofNat] at hc
    exact .inl (Nat.isDigit_of_mem_toDigits (by decide) (by decide) hc)
  | negSucc n =>
    rw [plain_negSucc, mem_cons] at hc
    exact hc.symm.imp_left fun h => Nat.isDigit_of_mem_toDigits (by decide) (by decide) h

theorem Term.textChars (ht : (t.arith || t.comparison) = true) (hx : ∀ x ∈ t.vars, Nice x) :
    ∀ c ∈ t.text.toList, textChar c = true := by
  refine Term.text_induction (P := fun cs => ∀ c ∈ cs, textChar c = true) ?_ ?_ ht fun x hmem => (hx x hmem).textChars
  · intro n c hc
    rcases intChars n c hc with h | rfl
    · simp [textChar, Char.isAlphanum, h]
    · rfl
  · intro a b op hop ha hb c hc
    have hmarks : ∀ op ∈ arithOps ++ compareOps, op.toList.all textChar = true := by decide
    simp only [mem_cons, mem_append, not_mem_nil, or_false] at hc
    rcases hc with rfl | h | rfl | h | rfl | h | rfl
    · rfl
    · exact ha c h
    · rfl
    · exact all_eq_true.mp (hmarks op hop) c h
    · rfl
    · exact hb c h
    · rfl

theorem isPrefixOf_append_cons (hc : c ∉ part) (a b : List Char) :
    part.isPrefixOf (a ++ c :: b) = part.isPrefixOf a := by
  induction part generalizing a with
  | nil => cases a <;> rfl
  | cons d part ih =>
    simp only [mem_cons, not_or] at hc
    cases a with
    | nil => simp [List.isPrefixOf, beq_eq_false_iff_ne.mpr (Ne.symm hc.1)]
    | cons e a => simp [List.isPrefixOf, ih hc.2]

theorem occurs_append_cons (hpart : part ≠ []) (hc : c ∉ part) (a b : List Char) :
    occurs part (a ++ c :: b) = (occurs part a || occurs part b) := by
  induction a with
  | nil =>
    have h := isPrefixOf_append_cons hc [] b
    simp only [nil_append] at h ⊢
    cases part with
    | nil => exact absurd rfl hpart
    | cons d part =>
      change ((d :: part).isPrefixOf (c :: b) || occurs (d :: part) b) = _
      rw [h]
      rfl
  | cons d a ih =>
    have h := isPrefixOf_append_cons hc (d :: a) b
    rw [cons_append] at h ⊢
    rw [occurs, occurs, h, ih, Bool.or_assoc]

theorem occurs_of_not_mem (hd : d ∈ part) (h : d ∉ cs) : occurs part cs = false := by
  induction cs with
  | nil =>
    cases part with
    | nil => simp at hd
    | cons e part => rfl
  | cons c cs ih =>
    have hprefix : part.isPrefixOf (c :: cs) = false := by
      rw [Bool.eq_false_iff]
      intro hp
      exact h (( isPrefixOf_iff_prefix.mp hp).subset hd)
    rw [occurs, hprefix, ih fun hmem => h (mem_cons_of_mem _ hmem)]
    rfl

theorem Term.occurs_text (ht : (t.arith || t.comparison) = true) (hx : ∀ x ∈ t.vars, Fine x) :
    occurs "list_slice".toList t.text.toList = false := by
  refine Term.text_induction (P := fun cs => occurs "list_slice".toList cs = false) ?_ ?_ ht
    fun x hmem => (hx x hmem).no_slice
  · intro n
    refine occurs_of_not_mem (d := 'l') (by decide) fun hmem => ?_
    rcases intChars n _ hmem with h | h
    · exact absurd h (by decide)
    · exact absurd h (by decide)
  · intro a b op hop ha hb
    have hmarks : ∀ op ∈ arithOps ++ compareOps, occurs "list_slice".toList op.toList = false := by decide
    have hne : "list_slice".toList ≠ [] := by decide
    rw [← nil_append ('(' :: _), occurs_append_cons hne (by decide),
      occurs_append_cons hne (by decide), occurs_append_cons hne (by decide),
      occurs_append_cons hne (by decide), ha, hb, hmarks op hop]
    decide

theorem splitAt_append_cons (h : m ∉ cs) (rest : List Char) :
    Text.splitAt m (cs ++ m :: rest) = cs :: Text.splitAt m rest := by
  induction cs with
  | nil => simp [Text.splitAt]
  | cons c cs ih =>
    simp only [mem_cons, not_or] at h
    simp [Text.splitAt, beq_eq_false_iff_ne.mpr (Ne.symm h.1), ih h.2]

theorem present_line (h : s.toList = c :: cs) : (Piece.line s).present = true := by
  rw [Piece.present, bne_iff_ne]
  rintro rfl
  cases h

theorem blockItems_line (hs : s ≠ "") (h : ';' ∉ s.toList) : blockItems (.line (s ++ ";")) = [.line (s ++ ";")] := by
  obtain ⟨c, cs, hcs⟩ := exists_cons_of_ne_nil fun hnil => hs (String.toList_inj.mp hnil)
  have hc : c ≠ ';' := fun hc => h (by rw [hcs, hc]; exact mem_cons_self)
  have hline : (s ++ ";").toList = s.toList ++ [';'] := String.toList_append
  have hpresent : (Piece.line (s ++ ";")).present = true := present_line (hline.trans (by rw [hcs]; rfl))
  have hhead : ((s ++ ";").toList.head? == some ';') = false := by
    rw [hline, hcs]
    simpa using hc
  have hsplit : Text.splitAt ';' (s ++ ";").toList = [s.toList, []] := by
    rw [hline]
    exact splitAt_append_cons h []
  rw [blockItems, hpresent, Bool.not_true, statements, hhead,
    hsplit]
  have hempty : s.toList.isEmpty = false := by rw [hcs]; rfl
  simp only [filterMap_cons, hempty, isEmpty_nil, filterMap_nil, if_true, Bool.false_eq_true, if_false]
  rw [← hline, String.ofList_toList]

/-- The writer has seen no lists, no literals and no functions, and is not in a trial run. -/
structure Bare (w : Writer) : Prop where
  lists : w.tempLists = []
  listsDeclared : w.listsDeclared = []
  literals : w.literals = []
  functions : w.functions = ⟨[], []⟩
  registers : OnlyRegs w.temps
  scopes : w.declared ≠ []
  trial : w.trial = false

theorem Bare.setReg (h : Bare w) (n : Nat) (v : Target.Node) : Bare { w with temps := put (reg n) v w.temps } :=
  { h with registers := h.registers.put n v }

/-- Of the registers, only those with a number above `r` and up to `r + n` changed, and only the
innermost block declared anything. -/
structure Moves (w w' : Writer) (r n : Nat) : Prop where
  temps : ∀ x, ¬ Taken r n x → w'.temps.lookup x = w.temps.lookup x
  scopes : w'.declared.drop 1 = w.declared.drop 1

namespace Moves

variable {r n m : Nat} {w1 : Writer}

theorem refl (w : Writer) (r n : Nat) : Moves w w r n := ⟨fun _ _ => rfl, rfl⟩

theorem comp (h : Moves w w1 r n) (h' : Moves w1 w' r n) : Moves w w' r n :=
  ⟨fun x hx => (h'.temps x hx).trans (h.temps x hx), h'.scopes.trans h.scopes⟩

theorem mono (h : Moves w w' r n) (hr : r' ≤ r) (hn : r + n ≤ r' + n') : Moves w w' r' n' :=
  ⟨fun x hx => h.temps x fun htaken => hx (htaken.mono hr hn), h.scopes⟩

theorem trans (h : Moves w w1 r n) (h' : Moves w1 w' (r + n) m) : Moves w w' r (n + m) :=
  (h.mono le_rfl (by omega)).comp (h'.mono (by omega) (by omega))

theorem setReg {k : Nat} (hk : r < k ∧ k ≤ r + n) (v : Target.Node) :
    Moves w { w with temps := put (reg k) v w.temps } r n :=
  ⟨fun _ hx => lookup_put_of_ne fun hxk => hx ⟨k, hk.1, hk.2, hxk⟩, rfl⟩

end Moves

theorem Leads.congr (h : Leads temps x v) (hx : temps'.lookup x = temps.lookup x) : Leads temps' x v := by
  rw [Leads, hx]
  exact h

theorem Leads.of_moves {n : Nat} (h : Leads w.temps x v) (hmoves : Moves w w' r n)
    (hx : ¬ Taken r n x) : Leads w'.temps x v := h.congr (hmoves.temps x hx)

def Writes (trees : List Target.Node) (w : Writer) (items : List Piece) (w' : Writer) : Prop :=
  ∃ ps, (writeAll trees).run w = .ok ps w' ∧ ps.flatMap blockItems = items

namespace Writes

variable {trees trees' : List Target.Node} {items items' : List Piece} {n : Target.Node} {p : Piece} {w1 : Writer}

theorem nil (w : Writer) : Writes [] w [] w := ⟨[], by rw [writeAll]; rfl, rfl⟩

theorem cons (h : (write n).run w = .ok p w1) (h' : Writes trees w1 items w') :
    Writes (n :: trees) w (blockItems p ++ items) w' := by
  obtain ⟨ps, hps, rfl⟩ := h'
  refine ⟨p :: ps, ?_, flatMap_cons⟩
  rw [writeAll, run_bind_of_ok h, run_bind_of_ok hps]
  rfl

theorem single (h : (write n).run w = .ok p w') : Writes [n] w (blockItems p) w' := by simpa using cons h (nil w')

theorem append (h : Writes trees w items w1) (h' : Writes trees' w1 items' w') :
    Writes (trees ++ trees') w (items ++ items') w' := by
  obtain ⟨ps, hps, rfl⟩ := h
  induction trees generalizing w ps with
  | nil =>
    cases hps
    exact h'
  | cons n trees ih =>
    obtain ⟨p, w2, hn, hps⟩ := of_run_bind hps
    obtain ⟨qs, w3, hqs, hps⟩ := of_run_bind hps
    cases hps
    rw [flatMap_cons, List.append_assoc]
    exact cons hn (ih qs hqs)

end Writes

def entered (w : Writer) : Writer := { w with declared := [] :: w.declared, depth := w.depth + 1 }

def leave (w : Writer) : Writer := { w with declared := w.declared.drop 1, depth := w.depth - 1 }

theorem run_reporting_ok {n : Target.Node} {act : WriterM Piece} {p : Piece}
    (h : act.run w = .ok p w') : (reporting n act).run w = .ok p w' := run_tryCatch_ok h _

theorem Writes.run_block (h : Writes trees (entered w) items w') :
    (write (.block trees)).run w = .ok (.nested items) (leave w') := by
  obtain ⟨ps, hps, rfl⟩ := h
  refine run_reporting_ok ?_
  change EStateM.run (writeAll trees >>= _) (entered w) = _
  rw [run_bind_of_ok hps]
  rfl

theorem Bare.entered (h : Bare w) : Bare (entered w) := { h with scopes := by simp [Core.entered] }

/-- After the statements of a block, all is as before it, the registers that they took apart. -/
theorem Moves.leave {n : Nat} (h : Moves (entered w) w' r n) (hw : Bare w) (hw' : Bare w') :
    Moves w (leave w') r n ∧ Bare (Core.leave w') := by
  have hscopes : (Core.leave w').declared = w.declared := h.scopes
  refine ⟨⟨h.temps, by rw [hscopes]⟩, { hw' with scopes := ?_ }⟩
  exact hscopes ▸ hw.scopes

theorem run_write_ident (x : String) (w : Writer) : (write (.ident x)).run w = .ok (.line x) w := by
  exact run_reporting_ok rfl

theorem run_lineText (s : String) (w : Writer) : (lineText (.line s)).run w = .ok s w := rfl

theorem run_write_type (t : Prim) (w : Writer) : (write (.type (.prim t))).run w = .ok (.line (Ty.targetName t)) w := by
  exact run_reporting_ok rfl

theorem run_declaration_reg (t : Prim) (w : Writer) :
    (write (declarationOf (reg n) t)).run w = .ok .nothing { w with temps := put (reg n) .none w.temps } := by
  refine run_reporting_ok ?_
  simp only [run_bind, run_write_type, run_write_ident, run_lineText]
  have htype : (Ty.targetName t == "list_t *") = false := by cases t <;> rfl
  rw [declaration, htype]
  simp [run_isRegister_reg, setTemp]

/-- A variable is declared unless an open block has declared it. -/
theorem Visible.run_declaration (hx : Visible x) (t : Prim) (hscopes : w.declared = top :: rest) :
    (write (declarationOf x t)).run w = if w.declared.any (·.contains x) then .ok .nothing w
      else .ok (.line (Ty.targetName t ++ " " ++ x ++ ";")) { w with declared := (top ++ [x]) :: rest } := by
  have htype : ¬ (Ty.targetName t == "list_t *") = true := by cases t <;> decide
  split
  · next hany =>
    refine run_reporting_ok ?_
    simp only [run_bind, run_write_type, run_write_ident, run_lineText]
    rw [declaration, if_neg htype]
    simp only [run_bind, hx.run_isRegister, run_get, hany, run_pure, Bool.false_eq_true, if_false, if_true]
  · next hany =>
    refine run_reporting_ok ?_
    simp only [run_bind, run_write_type, run_write_ident, run_lineText]
    rw [declaration, if_neg htype]
    rw [hscopes] at hany
    simp only [run_bind, hx.run_isRegister, run_get, Bool.false_eq_true, if_false, hscopes, if_neg hany]
    rfl

theorem Nice.run_declaration (hx : Nice x) (hscopes : w.declared = top :: rest) :
    (write (declarationOf x .int)).run w = if w.declared.any (·.contains x) then .ok .nothing w
      else .ok (.line ("int_t " ++ x ++ ";")) { w with declared := (top ++ [x]) :: rest } :=
  hx.visible.run_declaration .int hscopes

theorem Nice.blockItems_declaration (hx : Nice x) :
    blockItems (.line ("int_t " ++ x ++ ";")) = [.line ("int_t " ++ x ++ ";")] := by
  refine blockItems_line (by simp [← String.toList_inj]) fun hmem => ?_
  rw [String.toList_append, mem_append] at hmem
  rcases hmem with hmem | hmem
  · exact absurd hmem (by decide)
  · exact absurd (hx.textChars _ hmem) (by decide)

theorem Nice.writes_declaration (hx : Nice x) (h : Bare w) :
    ∃ items declared, Writes [declarationOf x .int] w items { w with declared } ∧ Shows items .nil ∧
      declared ≠ [] ∧ declared.drop 1 = w.declared.drop 1 := by
  obtain ⟨top, rest, hscopes⟩ := exists_cons_of_ne_nil h.scopes
  have hrun := hx.run_declaration hscopes
  split at hrun
  · exact ⟨[], w.declared, .single hrun, .nil, h.scopes, rfl⟩
  refine ⟨_, _, .single hrun, ?_, by simp, by simp [hscopes]⟩
  rw [hx.blockItems_declaration]
  exact .declaration hx

/-- Trees only change registers with a number above `r` and up to `r + n`, to these contents. -/
structure Computes (trees : List Target.Node) (w : Writer) (r n : Nat)
    (temps : List (String × Target.Node)) : Prop where
  writes : Writes trees w [] { w with temps }
  moves : Moves w { w with temps } r n
  registers : OnlyRegs temps

namespace Computes

variable {trees trees' : List Target.Node} {r n m : Nat} {temps' : List (String × Target.Node)}

theorem nil (h : OnlyRegs w.temps) (r : Nat) : Computes [] w r 0 w.temps := ⟨.nil w, .refl w r 0, h⟩

theorem append (h : Computes trees w r n temps) (h' : Computes trees' { w with temps } (r + n) m temps') :
    Computes (trees ++ trees') w r (n + m) temps' := ⟨h.writes.append h'.writes, h.moves.trans h'.moves, h'.registers⟩

theorem mono (h : Computes trees w r n temps) (hr : r' ≤ r) (hn : r + n ≤ r' + n') : Computes trees w r' n' temps :=
  ⟨h.writes, h.moves.mono hr hn, h.registers⟩

theorem setReg {node : Target.Node} {t : Prim} (h : OnlyRegs w.temps)
    (htemps : ∀ x, x ≠ reg (r + 1) → temps.lookup x = w.temps.lookup x)
    (hnode : (write node).run { w with temps := put (reg (r + 1)) .none w.temps } = .ok .nothing { w with temps }) :
    Computes [declarationOf (reg (r + 1)) t, node] w r 1 temps where
  writes := .cons (run_declaration_reg (r + 1) t w) (.single hnode)
  moves := ⟨fun x hx => htemps x fun hxr => hx ⟨r + 1, by omega, le_rfl, hxr⟩, rfl⟩
  registers x hx := by
    rw [htemps x fun hxr => hx ⟨r + 1, hxr⟩]
    exact h x hx

end Computes

theorem run_assign_side {n : Nat} {v : Target.Node} {p : Piece} (h : w.trial = false)
    (hside : (assignSide (reg n) true v (write v)).run { w with temps := put (reg n) .none w.temps } =
      .ok (.done p) w') :
    (write (.assign (.ident (reg n)) v)).run w = .ok p w' := by
  rw [h] at hside
  refine run_reporting_ok ?_
  rw [assign]
  simp only [run_bind, run_write_ident, run_lineText, run_get, run_isRegister_reg, if_true, setTemp,
    run_modify, h, Bool.or_true, Bool.false_eq_true, if_false, hside]
  rfl

theorem run_assign_reg (k : Int) (h : Bare w) :
    (write (.assign (.ident (reg n)) (.atom (.int k)))).run w =
      .ok .nothing { w with temps := put (reg n) (.atom (.int k)) (put (reg n) .none w.temps) } :=
  run_assign_side h.trial rfl

theorem Nice.run_print (hx : Nice x) (n : Nat) (h : Bare w) :
    (write (.assign (.ident (reg n)) (.call (.text "print_int") (.list [.text x])))).run w =
      .ok (.line ("print_int(" ++ x ++ ");")) { w with
        temps := put (reg n) (.text ("print_int(" ++ x ++ ")")) (put (reg n) .none w.temps) } := by
  have hcall : ∀ w : Writer, OnlyRegs w.temps →
      (write (.call (.text "print_int") (.list [.text x]))).run w = .ok (.line ("print_int(" ++ x ++ ")")) w := by
    intro w hw
    refine run_reporting_ok ?_
    have harg : (argText (.text x)).run w = .ok (.text x) w := by
      have hfind : (Target.Node.text x).find? w.temps = .ok none := by
        simp [Target.Node.find?, Target.Node.text, hw x hx.not_isReg]
        rfl
      rw [argText]
      simp only [run_bind, run_get, run_lift_ok hfind, run_pure]
    simp [callText, harg]
    rfl
  refine run_assign_side h.trial ?_
  simp only [assignSide, run_bind]
  rw [hcall _ (h.registers.put n .none)]
  have hline : "print_int(" ++ x ++ ")" ++ ";" = "print_int(" ++ x ++ ");" := String.append_assoc
  rw [← hline]
  rfl

/-- The contents of the register that holds the value of an expression. -/
def Term.shown : Term → Target.Node
  | .const a => .atom a.atom
  | t => .text t.text

theorem Term.plain_shown (t : Term) : t.shown.plain .fourth = t.text := by
  cases t <;> rfl

theorem Term.final_shown (ht : (t.arith || t.comparison) = true) (hvars : ∀ x ∈ t.vars, Nice x) : Final t.shown := by
  match t, ht with
  | .const (.int n), _ => exact .inl ⟨n, rfl⟩
  | .var x, _ => exact .inr ⟨x, rfl, (hvars x (by simp)).not_isReg⟩
  | .binary a op b, _ =>
    refine .inr ⟨_, rfl, fun hreg => ?_⟩
    have hhead := hreg.head
    simp at hhead

/-- The operand of an expression is a register or a variable. -/
theorem Term.operand_cases (t : Term) (r : Nat) (hvars : ∀ x ∈ t.vars, Nice x) :
    IsReg (t.operand r) ∨ Nice (t.operand r) := by
  cases t with
  | var x => exact .inr (hvars x (by simp))
  | const _ | unary _ _ | binary _ _ _ => exact .inl ⟨_, rfl⟩

theorem computes_const (Γ : Types) (r : Nat) (n : Int) (h : Bare w) :
    ∃ temps, Computes ((Term.const (.int n)).trees Γ r) w r 1 temps ∧ Leads temps (reg (r + 1)) (.atom (.int n)) := by
  refine ⟨_, .setReg h.registers ?_ (run_assign_reg (r + 1) n (h.setReg _ _)), .inl ⟨?_, .inl ⟨n, rfl⟩⟩⟩
  · intro x hx
    simp [lookup_put_of_ne hx]
  · exact lookup_put_self

/-- An operation is computed after its operands, if its tree sets its register. -/
theorem Computes.binary {a b : Term} (ha : Computes (a.trees Γ r) w r a.size ta)
    (hla : Leads ta (a.operand r) va) (hvars : ∀ x ∈ a.vars, Nice x)
    (hb : Computes (b.trees Γ (r + a.size)) { w with temps := ta } (r + a.size) b.size tb)
    (hlb : Leads tb (b.operand (r + a.size)) vb) (hvarsb : ∀ x ∈ b.vars, Nice x) (hv : Final v)
    (hnode : ∀ (n : Nat) (temps : List (String × Target.Node)), OnlyRegs temps →
      Leads temps (a.operand r) va → Leads temps (b.operand (r + a.size)) vb →
      (write (.binary (.ident (reg n)) (.type (.prim ((Term.binary a op b).type Γ))) op
        (.ident (a.operand r)) (.ident (b.operand (r + a.size))))).run { w with temps } =
        .ok .nothing { w with temps := put (reg n) v temps }) :
    ∃ temps, Computes ((Term.binary a op b).trees Γ r) w r (Term.binary a op b).size temps ∧
      Leads temps ((Term.binary a op b).operand r) v ∧ Leads temps (a.operand r) va ∧
      Leads temps (b.operand (r + a.size)) vb := by
  have hla' : Leads tb (a.operand r) va :=
    hla.of_moves hb.moves (a.not_taken_operand (fun x hx => (hvars x hx).not_isReg) r b.size)
  have hnone := hb.registers.put (r + a.size + b.size + 1) .none
  -- the register of the result is not among those of the operands
  have hstep : ∀ (temps : List (String × Target.Node)) (v : Target.Node), Moves { w with temps }
      { w with temps := put (reg (r + a.size + b.size + 1)) v temps } (r + a.size + b.size) 1 :=
    fun temps v => .setReg ⟨by omega, le_rfl⟩ v
  have hna : ¬ Taken (r + a.size + b.size) 1 (a.operand r) := fun h =>
    a.not_taken_operand (fun x hx => (hvars x hx).not_isReg) r (b.size + 1) (h.mono (by omega) (by omega))
  have hnb : ¬ Taken (r + a.size + b.size) 1 (b.operand (r + a.size)) :=
    b.not_taken_operand (fun x hx => (hvarsb x hx).not_isReg) (r + a.size) 1
  have hrun := hnode (r + a.size + b.size + 1) _ hnone (hla'.of_moves (hstep _ _) hna) (hlb.of_moves (hstep _ _) hnb)
  have hlast : Computes _ { w with temps := tb } (r + a.size + b.size) 1 _ :=
    .setReg (t := (Term.binary a op b).type Γ) hb.registers (fun x hx => by simp [lookup_put_of_ne hx]) hrun
  refine ⟨_, (ha.append hb).append (by rw [← Nat.add_assoc]; exact hlast), .inl ⟨?_, hv⟩,
    (hla'.of_moves (hstep _ _) hna).of_moves (hstep _ _) hna,
    (hlb.of_moves (hstep _ _) hnb).of_moves (hstep _ _) hnb⟩
  rw [Term.operand, Term.size, ← Nat.add_assoc, ← Nat.add_assoc]
  · exact lookup_put_self
  · simp

theorem Nice.writes_first (hx : Nice x) (Γ : Types) (h : Bare w) :
    ∃ items declared, Writes (if Γ.taken x then [] else [declarationOf x .int]) w items
      { w with declared } ∧ Shows items .nil ∧ declared ≠ [] ∧
      declared.drop 1 = w.declared.drop 1 := by
  split
  · exact ⟨[], w.declared, .nil w, .nil, h.scopes, rfl⟩
  · exact hx.writes_declaration h

/-- The text of an assignment, without its end. -/
theorem Nice.not_mem_assign (hx : Nice x) (ht : t.arith = true) (hvars : ∀ y ∈ t.vars, Nice y) :
    x ++ " = " ++ t.text ≠ "" ∧ ';' ∉ (x ++ " = " ++ t.text).toList := by
  refine ⟨fun hempty => ?_, fun hmem => ?_⟩
  · have hlen := congrArg (fun s => s.toList.length) hempty
    simp at hlen
  simp only [String.toList_append, mem_append] at hmem
  rcases hmem with (hmem | hmem) | hmem
  · exact absurd (hx.textChars _ hmem) (by decide)
  · exact absurd hmem (by decide)
  · exact absurd (t.textChars (by simp [ht]) hvars _ hmem) (by decide)

theorem Nice.shows_assign (hx : Nice x) (ht : t.arith = true) (hvars : ∀ y ∈ t.vars, Nice y) :
    Shows (blockItems (.line (x ++ " = " ++ t.text ++ ";"))) (Stmt.assign x none t).block := by
  obtain ⟨hne, hmem⟩ := hx.not_mem_assign ht hvars
  rw [blockItems_line hne hmem]
  exact .assign hx ht hvars

theorem Nice.writes_print (hx : Nice x) (hΓ : Γ x = some .int) (r : Nat) (h : Bare w) :
    ∃ items temps, Writes ((Stmt.print x).trees Γ r) w items { w with temps } ∧
      Shows items (Stmt.print x).block ∧ Moves w { w with temps } r 3 ∧ OnlyRegs temps := by
  have hname : (Term.var x).type Γ = .int := by rw [Term.type, hΓ]; rfl
  have hitems : blockItems (.line ("print_int(" ++ x ++ ");")) = [.line ("print_int(" ++ x ++ ");")] := by
    have hline : "print_int(" ++ x ++ ")" ++ ";" = "print_int(" ++ x ++ ");" := String.append_assoc
    rw [← hline]
    refine blockItems_line (by simp [← String.toList_inj]) fun hmem => ?_
    simp only [String.toList_append, mem_append] at hmem
    rcases hmem with (hmem | hmem) | hmem
    · exact absurd hmem (by decide)
    · exact absurd (hx.textChars _ hmem) (by decide)
    · exact absurd hmem (by decide)
  have hprint := hx.run_print (r + 3) (h.setReg (r + 3) .none)
  refine ⟨[.line ("print_int(" ++ x ++ ");")], put (reg (r + 3)) (.text ("print_int(" ++ x ++ ")"))
    (put (reg (r + 3)) .none (put (reg (r + 3)) .none w.temps)), ?_, .print hx,
    ⟨fun y hy => ?_, rfl⟩, ((h.registers.put _ _).put _ _).put _ _⟩
  · rw [Stmt.trees, hname, ← hitems]
    exact .cons (run_declaration_reg (r + 3) .none w) (.single hprint)
  · have hne : y ≠ reg (r + 3) := fun hyr => hy ⟨r + 3, by omega, le_rfl, hyr⟩
    simp [lookup_put_of_ne hne]

theorem Term.isList_shown (h : Bare w) (ht : t.arith = true) (hvars : ∀ y ∈ t.vars, Fine y) :
    isList w t.shown = false := by
  have htext : isList w (.text t.text) = false := by
    simp only [isList, Target.Node.text, h.lists, h.listsDeclared]
    simpa using t.occurs_text (by simp [ht]) hvars
  match t, ht with
  | .const (.int n), _ => rfl
  | .var x, _ => exact htext
  | .binary a op b, _ => exact htext

theorem reg_ne_blank : (reg n == "_") = false := by
  rw [beq_eq_false_iff_ne, ne_eq, ← String.toList_inj, reg_toList]
  simp

theorem reg_ne_placeholder : reg n ≠ "none-placeholder" :=
  fun h => absurd (IsReg.head ⟨n, h.symm⟩) (by decide)

theorem assignSide_text (ho : o ≠ "none-placeholder") (writeValue : WriterM Piece) :
    assignSide x false (.text o) writeValue = assignRaw x (.text o) := by
  rw [Target.Node.text, assignSide.eq_def]
  split <;> simp_all

/-- An assignment to a variable, given what its right side becomes and what its value is. -/
theorem run_assign_of_side (hx : Visible x) (hfree : w.temps.lookup x = none) (htrial : w.trial = false)
    (ho : (o == "_") = false) (hside : (assignSide x false (.text o) writeValue).run w = .ok (.value p u) w1)
    (hvariants : w1.variants = []) (hvalue : (evalAssign (.text o) (write (.ident x))).run w1 = .ok v w2) :
    (assign (.text o) (write (.ident x)) writeValue).run w =
      .ok (.line (x ++ " = " ++ v.plain .fourth ++ ";")) { w2 with vars := put x v w2.vars } := by
  rw [assign]
  simp only [run_bind, run_write_ident, run_lineText, run_get, hfree, hx.run_isRegister, Option.isSome_none,
    Bool.or_self, Bool.false_eq_true, if_false, htrial, hside, hvariants, contains_nil]
  simp only [Target.Node.text, ho, Bool.false_eq_true, if_false] at hvalue ⊢
  simp only [run_bind, hvalue]
  rfl

/-- The value of a right side that can be computed. -/
theorem run_evalAssign {n : Int} (hlook : (lookUp (.text o)).run w = .ok v w)
    (hfree : w.literals.lookup o = none) (heval : evaluate (known w) (v.plain .fourth) = .ok (.atom (.int n))) :
    (evalAssign (.text o) (write (.ident x))).run w = .ok (.atom (.int n)) w := by
  have hfind : (Target.Node.text o).find? w.literals = .ok none := by rw [← hfree]; rfl
  rw [evalAssign]
  simp only [run_bind, hlook, run_write_ident, run_lineText, run_get, run_lift_ok hfind, computeLiteral,
    heval, run_pure]

theorem run_assignSide_leads (hlists : w.tempLists = []) (hregs : OnlyRegs w.temps)
    (hlead : Leads w.temps o v) (ho : o ≠ "none-placeholder") (x : String)
    (writeValue : WriterM Piece) :
    (assignSide x false (.text o) writeValue).run w = if (isList w v && !w.listsDeclared.contains x) = true then
        (Assigned.done <$> declareList x v : WriterM Assigned).run w
      else (assignValue x v "").run w := by
  have hcond : (isList w v && !w.tempLists.any (·.2 == some x) && !w.listsDeclared.contains x) =
      (isList w v && !w.listsDeclared.contains x) := by rw [hlists]; simp
  rw [assignSide_text ho, assignRaw]
  rcases hlead with ⟨hsome, hfinal⟩ | ⟨hnone, heq⟩
  · have hfind : (Target.Node.text o).find? w.temps = .ok (some v) := by rw [← hsome]; rfl
    have htemp := Leads.run_tempValue (.inl ⟨hsome, hfinal⟩) hregs
    simp only [run_bind, run_get, run_lift_ok hfind, htemp, hcond]
    split <;> rfl
  · have hfind : (Target.Node.text o).find? w.temps = .ok none := by rw [← hnone]; rfl
    simp only [run_bind, run_get, run_lift_ok hfind, hlists, lookup_nil]
    rw [heq, Target.Node.text] at hcond ⊢
    rw [hlists] at hcond
    simp only [Option.isSome_none, Bool.false_eq_true, if_false, pure_bind, run_bind, run_get, hlists, hcond]
    split <;> rfl

theorem run_assignSide_text (h : Bare w) (hlead : Leads w.temps o t.shown)
    (ho : IsReg o ∨ Nice o) (ht : t.arith = true) (hvars : ∀ y ∈ t.vars, Fine y) (x : String)
    (writeValue : WriterM Piece) :
    (assignSide x false (.text o) writeValue).run w = (assignValue x t.shown "").run w := by
  have hplace : o ≠ "none-placeholder" := by
    rintro rfl
    rcases ho with hreg | hnice
    · exact absurd hreg.head (by decide)
    · exact absurd (hnice.chars '-' (by decide)) (by decide)
  rw [run_assignSide_leads h.lists h.registers hlead hplace, Term.isList_shown h ht hvars]
  rfl

/-- The end of an output file. -/
def cleanUp : String := "    str_clean_up();\n    list_clean_up();"

/-- The output file of a program, given how its block is written and how its functions are laid out. -/
theorem run_page {functions : String} (hlists : w'.tempLists = []) (hfunctions : w'.functions.layout id = .ok functions)
    (hroot : (write root).run w = .ok (.nested items) w') :
    (program root).run w = .ok (page functions (unlines (piecesLines 0 items)) cleanUp) w' := by
  have hlayout : (Piece.nested items).layout id = .ok (unlines (piecesLines 0 items)) := by
    rw [← texts_eq_unlines]
    rfl
  have hfix : nameLists w'.tempLists = id := by rw [hlists]; rfl
  rw [program]
  simp only [run_bind, hroot, run_get, hfix, run_lift_ok hlayout, run_lift_ok hfunctions]
  rfl

theorem Bare.run_program (h : Bare w') (hroot : (write root).run w = .ok (.nested items) w') :
    (program root).run w = .ok (page "" (unlines (piecesLines 0 items)) cleanUp) w' :=
  run_page h.lists (by rw [h.functions]; rfl) hroot

theorem bare_fresh (folding : Bool) : Bare (.fresh folding) where
  lists := rfl
  listsDeclared := rfl
  literals := rfl
  functions := rfl
  registers _ _ := rfl
  scopes := by simp [fresh]
  trial := rfl

/-- A program goes through all stages, with or without folding, to an output file whose body has these
lines. -/
def Compiles (known : Option ScopeTable) (folding : Bool) (p : Block) (lines : List String) : Prop :=
  ∃ code tree s w, Flat.ofProgram .fourth p.nodes = .ok code ∧
    (Target.Build.run .fourth known code).run (.fresh .fourth code) = .ok tree s ∧
    (program tree).run (.fresh folding) = .ok (page "" (unlines lines) cleanUp) w

end Tabc.Core
