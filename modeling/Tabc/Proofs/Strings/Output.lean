import Tabc.Pipeline
import Tabc.Proofs.Rebuild.Recovery
import Tabc.Proofs.Strings.Reading
import Tabc.Proofs.Writing.Contents

/-!
# Texts in the output

`x: str = "…"` becomes a declaration and an assignment of the text as a literal, with three exceptions
(`output_text_iff`): the text `None`, a text with `list_slice` in it, and a semicolon, where its line is broken.
-/

open List

namespace Tabc.Core

open Text
open String (toList_append)
open Target.Writer (program blockItems)
open ScopeTable (fresh)
open Target.Build (run)
open List (mem_cons isPrefixOf)
open Text (escapeC quoteC)
open EStateM (run_bind run_modify run_pure run_get)

def escapeChars : List Char := ['\\', '"', 'n', 'r', 't', 'b', 'f', 'u'] ++ (List.range 16).map Nat.digitChar

theorem mem_hex {width n : Nat} (hd : d ∈ Text.hex width n) : d ∈ escapeChars := by
  induction width generalizing n with
  | zero => simp [Text.hex] at hd
  | succ width ih =>
    rw [Text.hex, List.mem_append, List.mem_singleton] at hd
    rcases hd with hd | rfl
    · exact ih hd
    · exact List.mem_append_right _ (List.mem_map_of_mem (List.mem_range.mpr (Nat.mod_lt n (by decide))))

/-- A character of a literal stands for itself, or an escape of two or more characters stands for it. -/
theorem escapeC_cases (c : Char) : escapeC c = [c] ∧ 32 ≤ c.toNat ∨
    ∃ d cs, escapeC c = '\\' :: d :: cs ∧ ∀ x ∈ d :: cs, x ∈ escapeChars := by
  have hmark : ∀ {d}, d ∈ ['\\', '"', 'n', 'r', 't', 'b', 'f', 'u'] → d ∈ escapeChars := mem_append_left _
  rw [escapeC]
  split_ifs with h1 _ _ _ _ _ h2
  · refine .inr ⟨c, [], rfl, fun x hx => hmark ?_⟩
    obtain rfl := mem_singleton.mp hx
    rcases (by simpa using h1 : x = '"' ∨ x = '\\') with rfl | rfl <;> simp
  iterate 5 exact .inr ⟨_, [], rfl, by simpa using hmark (by simp)⟩
  · exact .inl ⟨rfl, by simp at h2; omega⟩
  · refine .inr ⟨_, _, rfl, fun x hx => ?_⟩
    rcases List.mem_cons.mp hx with rfl | hx
    · exact hmark (by simp)
    · exact mem_hex hx
  · refine .inr ⟨'u', Text.hex 4 _ ++ '\\' :: 'u' :: Text.hex 4 _, rfl, fun x hx => ?_⟩
    simp only [mem_cons, List.mem_append] at hx
    rcases hx with rfl | hx | rfl | rfl | hx
    · exact hmark (by simp)
    · exact mem_hex hx
    · exact hmark (by simp)
    · exact hmark (by simp)
    · exact mem_hex hx

def plainChar (c : Char) : Bool := 32 ≤ c.toNat && c.toNat ≤ 126 && c != '"' && c != '\\'

theorem escapeC_of_plainChar (hc : plainChar c = true) : escapeC c = [c] := by
  simp only [plainChar, Bool.and_eq_true, bne_iff_ne, decide_eq_true_eq] at hc
  obtain ⟨⟨⟨hlow, hhigh⟩, hquote⟩, hslash⟩ := hc
  have hne : ∀ d : Char, d.toNat < 32 → (c == d) = false := by
    intro d hd
    rw [beq_eq_false_iff_ne]
    rintro rfl
    omega
  have hcode : ∀ k, k < 32 → (c.toNat == k) = false := by
    intro k hk
    rw [beq_eq_false_iff_ne]
    omega
  rw [escapeC, beq_eq_false_iff_ne.mpr hquote, beq_eq_false_iff_ne.mpr hslash, hne '\n' (by decide),
    hne '\r' (by decide), hne '\t' (by decide), hcode 8 (by decide), hcode 12 (by decide)]
  simp [hlow, hhigh]

theorem quoteC_toList (s : String) :
    (quoteC s).toList = '"' :: s.toList.flatMap escapeC ++ ['"'] := String.toList_ofList

theorem mem_quoteC (hc : c ∉ escapeChars) (hplain : plainChar c = true) (s : String) :
    c ∈ (quoteC s).toList ↔ c ∈ s.toList := by
  have hquote : c ≠ '"' := by
    rintro rfl
    exact hc (by simp [escapeChars])
  rw [quoteC_toList, List.mem_append, mem_cons, List.mem_singleton, List.mem_flatMap]
  constructor
  · rintro ((h | ⟨d, hd, hcd⟩) | h)
    · exact absurd h hquote
    · rcases escapeC_cases d with ⟨heq, -⟩ | ⟨x, xs, heq, hxs⟩
      · rw [heq, List.mem_singleton] at hcd
        exact hcd ▸ hd
      · rw [heq, mem_cons] at hcd
        rcases hcd with rfl | hcd
        · exact absurd (by simp [escapeChars]) hc
        · exact absurd (hxs c hcd) hc
    · exact absurd h hquote
  · exact fun h => .inl (.inr ⟨c, h, by simp [escapeC_of_plainChar hplain]⟩)

theorem break_not_mem_quoteC (s : String) : '\n' ∉ (quoteC s).toList := by
  rw [quoteC_toList, List.mem_append, mem_cons, List.mem_singleton, List.mem_flatMap]
  rintro ((h | ⟨d, -, hd⟩) | h)
  · cases h
  · rcases escapeC_cases d with ⟨heq, hle⟩ | ⟨x, xs, heq, hxs⟩
    · rw [heq, List.mem_singleton] at hd
      subst hd
      exact absurd hle (by decide)
    · rw [heq, mem_cons] at hd
      rcases hd with hd | hd
      · cases hd
      · exact absurd (hxs _ hd) (by decide)
  · cases h

/-- A word of characters that stand for themselves begins an escaped text where it begins the text. -/
theorem isPrefixOf_escaped {word : List Char} (hword : ∀ c ∈ word, escapeC c = [c])
    (cs : List Char) : word.isPrefixOf (cs.flatMap escapeC) = word.isPrefixOf cs := by
  induction word generalizing cs with
  | nil => simp
  | cons w word ih =>
    cases cs with
    | nil => rfl
    | cons c cs =>
      rw [List.flatMap_cons]
      rcases escapeC_cases c with ⟨heq, -⟩ | ⟨x, xs, heq, -⟩
      · rw [heq, List.singleton_append, isPrefixOf, isPrefixOf, ih fun c hc => hword c (List.mem_cons_of_mem w hc)]
      have hw := hword w (.head _)
      have hne : (w == '\\') = false ∧ (w == c) = false := by
        refine ⟨beq_eq_false_iff_ne.mpr ?_, beq_eq_false_iff_ne.mpr ?_⟩
        · rintro rfl
          exact absurd hw (by decide)
        rintro rfl
        rw [heq] at hw
        cases hw
      rw [heq, List.cons_append, isPrefixOf, isPrefixOf, hne.1, hne.2]
      rfl

/-- Nothing of a word begins inside of a text without its first character. -/
theorem occurs_append_of_not_mem (h : w ∉ as) (bs : List Char) :
    Text.occurs (w :: word) (as ++ bs) = Text.occurs (w :: word) bs := by
  induction as with
  | nil => rfl
  | cons a as ih =>
    rw [mem_cons, not_or] at h
    have hne : (w == a) = false := beq_eq_false_iff_ne.mpr h.1
    rw [List.cons_append, Text.occurs, isPrefixOf, hne, Bool.false_and, Bool.false_or, ih h.2]

theorem occurs_quoteC (hw : w ∉ escapeChars) (hword : (w :: word).all plainChar = true) (s : String) :
    Text.occurs (w :: word) (quoteC s).toList = Text.occurs (w :: word) s.toList := by
  have hself : ∀ c ∈ w :: word, escapeC c = [c] := fun c hc => escapeC_of_plainChar (List.all_eq_true.mp hword c hc)
  have hflat : ∀ cs : List Char, Text.occurs (w :: word) (cs.flatMap escapeC) = Text.occurs (w :: word) cs := by
    intro cs
    induction cs with
    | nil => rfl
    | cons c cs ih =>
      rcases escapeC_cases c with ⟨heq, -⟩ | ⟨x, xs, heq, hxs⟩
      · have hpre := isPrefixOf_escaped hself (c :: cs)
        rw [List.flatMap_cons, heq, List.singleton_append] at hpre ⊢
        rw [Text.occurs, Text.occurs, hpre, ih]
      · have hin : w ∉ '\\' :: x :: xs := by
          rw [mem_cons, not_or]
          exact ⟨fun h => hw (h ▸ by simp [escapeChars]), fun h => hw (hxs w h)⟩
        have hne : (w == c) = false := by
          rw [beq_eq_false_iff_ne]
          rintro rfl
          rw [hself w List.mem_cons_self] at heq
          cases heq
        rw [List.flatMap_cons, heq, occurs_append_of_not_mem hin, Text.occurs, isPrefixOf, hne,
          Bool.false_and, Bool.false_or, ih]
  have hquote : '"' ∉ w :: word := fun h => absurd (all_eq_true.mp hword _ h) (by decide)
  have hw' : (w == '"') = false := by
    rw [beq_eq_false_iff_ne]
    rintro rfl
    exact hquote (.head _)
  rw [quoteC_toList, List.cons_append, Text.occurs, isPrefixOf, hw', Bool.false_and,
    occurs_append_cons (by simp) hquote, hflat]
  simp [Text.occurs]

section

open Target Target.Build

def textCode (x s : String) : List Instr :=
  .string (.name (reg 1)) s.length :: charCode 1 s.toList ++ [.assign (.name x) (.name (reg 1))]

theorem declarationTree_of_ne (hs : s ≠ "None") :
    declarationTree x s = .assign (.ident x) (.type (.prim .str)) (.literal "str" (.text s)) := by
  simp [declarationTree, literalNode, hs, Atom.kindName]

theorem ofProgram_declarationTree (x : String) (hs : s ≠ "None") :
    Flat.ofProgram .fourth [declarationTree x s] = .ok (textCode x s) := by
  rw [declarationTree_of_ne hs, Flat.ofProgram]
  simp [Flat.flattenAll, Flat.flatten, Flat.emitLiteral, run_emitChars, Flat.empty, textCode]
  rfl

variable (known : Option ScopeTable)

theorem reads_chars (cs : List Char) (r : Nat) (count : Int) {t : String}
    (hparts : b.parts = [.string t len]) (htext : b.text = some (0, len, count))
    (hlen : count + cs.length = len) :
    ∃ b', Statements known (after b (charCode r cs ++ q) σ) [] (after b' q σ) ∧
      b'.parts = [.string (t ++ String.ofList cs) len] := by
  induction cs generalizing r b t count with
  | nil => exact ⟨b, .refl _, by simpa using hparts⟩
  | cons c cs ih =>
    have hcore : ∀ fuel, (buildCore .fourth known (fuel + 2)
        (.char (.name (reg (r + 1))) (String.singleton c))).run (after b (charCode (r + 1) cs ++ q) σ) =
        .ok .nothing (after { b with
          parts := [.string (t ++ String.singleton c) len]
          text := if count + 1 = len then none else some (0, len, count + 1) } (charCode (r + 1) cs ++ q) σ) := by
      intro fuel
      have hpart : (after b (charCode (r + 1) cs ++ q) σ).part 0 = .string t len := by simp [part, inside, hparts]
      have hopen : (after b (charCode (r + 1) cs ++ q) σ).text = some (0, len, count) := htext
      rw [buildCore, char]
      simp only [run_bind, run_get, hopen, hpart, setPart, run_modify]
      simp [inside, hparts]
    have hquiet : Quiet .nothing := rfl
    have hstep := reads_of_core (P := fun _ made => Quiet made) Made.nothing hquiet le_rfl
      (by rfl) fun fuel _ => hcore fuel
    rw [List.length_cons, Nat.cast_add] at hlen
    cases cs with
    | nil => exact ⟨_, hstep, by simp⟩
    | cons d cs =>
      have hmore : ¬ count + 1 = len := by
        rw [List.length_cons] at hlen
        omega
      rw [if_neg hmore] at hstep
      obtain ⟨b', hreads, hparts'⟩ := ih (r + 1) (count + 1) (b := { b with
        parts := [.string (t ++ String.singleton c) len], text := some (0, len, count + 1) })
        rfl rfl (by omega)
      refine ⟨b', hstep.trans hreads, ?_⟩
      rw [hparts', String.append_assoc]
      simp

def textTree (x s : String) : Target.Node :=
  .block [declarationOf (reg 1) .str, .assign (.ident (reg 1)) (.string s s.length),
    declarationOf x .str, .assign (.ident x) (.text (reg 1))]

theorem reads_string (len : Int) (hparts : b.parts = []) (hy : σ.find? y = none) :
    Statements known (after b (.string (.name y) len :: q) σ) [declarationOf y .str, .assign (.ident y) (.later 0)]
      (after { b with parts := [.string "" len], text := some (0, len, 0) } q (σ.bind y (targetVar .str))) := by
  refine reads_of_core (.stmts _) trivial le_rfl rfl fun fuel _ => ?_
  rw [buildCore, Target.Build.string, openPart]
  let b' : Build := { b with parts := [.string "" len], text := some (0, len, 0) }
  have hdeclare : (declare (.name y) (.prim .str)).run (after b' q σ) = _ := run_declare hy
  simp only [inside, b'] at hdeclare
  simp [inside, hparts, Build.declared, hdeclare, ident, declarationOf]

theorem run_build_text (hreg : ¬ IsReg x)
    (hx : ScopeTable.builtins4.find? x = none) (s : String) :
    ∃ b, (run .fourth known (textCode x s)).run (.fresh .fourth (textCode x s)) = .ok (textTree x s) b := by
  have hnew := typed_builtins.regs 1 (by omega)
  have hσ := typed_builtins.bind_reg (n := 1) (by omega) .str
  have htaken : Types.empty.taken x = false := by simp [Types.taken, Types.empty, Scope.has, hx]
  have hstring := reads_string known s.length (b := .fresh .fourth (textCode x s))
    (q := charCode 1 s.toList ++ [.assign (.name x) (.name (reg 1))]) rfl hnew
  obtain ⟨b, hchars, hparts⟩ := reads_chars known s.toList 1 0
   
    (b := { Build.fresh .fourth (textCode x s) with
      parts := [.string "" s.length], text := some (0, s.length, 0) }) rfl rfl (by simp [String.length_toList])
  obtain ⟨σ, hassign, -⟩ := reads_assign hσ hreg rfl (.inr (find?_bind_self hnew))
  have hread : Statements known (.fresh .fourth (textCode x s)) _ (after b [] σ) :=
    (hstring.trans hchars).trans hassign.quiet
  have hrun := run_program hread rfl (show 4 * (textCode x s).length + 4 ≤
    Target.Build.fuelFor (textCode x s).length by simp [Target.Build.fuelFor])
  have hpart : (after b [] σ).part 0 = .string s s.length := by simp [part, inside, hparts]
  rw [run]
  rw [run_bind_of_ok hrun]
  simp [Types.assignment, htaken, Target.Node.settleAll, Target.Node.settle, hpart, textTree,
    declarationOf, Target.Node.text]

end

section

open Target Target.Writer

theorem run_assign_string (n : Nat) (s : String) (len : Int) (h : Clear w) :
    (write (.assign (.ident (reg n)) (.string s len))).run w = .ok .nothing { w with
        temps := put (reg n) (.text (quoteC s)) (put (reg n) .none w.temps)
        literals := put (reg n) (quoteC s) w.literals } := by
  have hvalue : ∀ w : Writer, (write (.string s len)).run w = .ok (.line (quoteC s)) w := by
    intro w
    exact run_reporting_ok rfl
  refine run_assign_side h.trial ?_
  rfl

theorem final_quoteC (s : String) : Final (.text (quoteC s)) := by
  refine .inr ⟨_, rfl, fun hreg => ?_⟩
  have hhead := hreg.head
  rw [quoteC_toList] at hhead
  cases hhead

theorem run_evalAssign_literal {n : Nat} {x q : String} {v : Target.Node} (hregs : OnlyRegs w.temps)
    (hlead : Leads w.temps (reg n) v) (hliteral : w.literals.lookup (reg n) = some q) :
    (evalAssign (.text (reg n)) (write (.ident x))).run w =
      .ok (.text q) { w with literals := put x q w.literals } := by
  have hfind : (Target.Node.text (reg n)).find? w.literals = .ok (some q) := by rw [← hliteral]; rfl
  rw [evalAssign]
  simp only [run_bind, hlead.run_lookUp hregs, run_write_ident, run_lineText, run_get,
    run_lift_ok hfind, run_modify, run_pure]

/-- The writer after the declarations of the register and the variable. -/
def textWriter (x s : String) : Writer :=
  { entered (.fresh false) with
    temps := put (reg 1) (.text (quoteC s)) (put (reg 1) .none (put (reg 1) .none []))
    literals := [(reg 1, quoteC s)]
    declared := [[x], []] }

theorem clear_textWriter (x s : String) : Clear (textWriter x s) :=
  { clear_fresh false with
    registers := ((OnlyRegs.put (fun _ _ => rfl) 1 .none).put 1 .none).put 1 _
    scopes := by simp [textWriter] }

theorem writes_front (hx : Visible x) (s : String) :
    Writes [declarationOf (reg 1) .str, .assign (.ident (reg 1)) (.string s s.length),
        declarationOf x .str] (entered (.fresh false)) (blockItems (.line ("str_t " ++ x ++ ";")))
      (textWriter x s) := by
  have hclear := (clear_fresh false).entered.setReg 1 .none
  have hdeclare : (write (declarationOf x .str)).run { textWriter x s with declared := [[], []] } =
      .ok (.line ("str_t " ++ x ++ ";")) (textWriter x s) :=
    hx.run_declaration (w := { textWriter x s with declared := [[], []] }) .str rfl
  simpa [blockItems, Piece.present] using Writes.cons (run_declaration_reg 1 .str _)
    (.cons (run_assign_string 1 s s.length hclear) (.single hdeclare))

theorem run_assign_textWriter (hx : Visible x) (s : String) :
    (write (.assign (.ident x) (.text (reg 1)))).run (textWriter x s) =
      if Text.occurs "list_slice".toList s.toList = true then
        .error .noKey { textWriter x s with listsDeclared := [x] }
      else .ok (.line (x ++ " = " ++ quoteC s ++ ";")) { textWriter x s with
        literals := put x (quoteC s) (textWriter x s).literals
        vars := [(x, .text (quoteC s))] } := by
  have hlead : Leads (textWriter x s).temps (reg 1) (.text (quoteC s)) := .inl ⟨lookup_put_self, final_quoteC s⟩
  have hne : quoteC s ≠ "NONE_LITERAL" := by
    intro h
    have := congrArg String.toList h
    rw [quoteC_toList] at this
    cases this
  have hslice : Text.occurs "list_slice".toList (quoteC s).toList =
      Text.occurs "list_slice".toList s.toList := occurs_quoteC (by decide) (by decide) s
  have hassign := (clear_textWriter x s).run_assign hx hlead hne
    (run_evalAssign_literal (q := quoteC s) (clear_textWriter x s).registers hlead (by simp [textWriter]))
  rw [hslice] at hassign
  exact hassign

end

section

variable {x s : String}

theorem run_typecheck_declaration (hx : ScopeTable.builtins4.find? x = none) (kind : String)
    (hkind : Prim.ofName? .fourth kind = some p) (a : Atom) :
    (∃ types table, (typecheck .fourth [.assign (.ident x) (.type (.prim .str)) (.literal kind a)]).run
        (.fresh .fourth) = .ok types table) ↔ p = .str := by
  have hfind : ScopeTable.findIn x (fresh .fourth).scopes = none := by
    simp [fresh, ScopeTable.baseScopes, ScopeTable.findIn, hx]
  have hhas : (fresh .fourth).top.has x = false := by
    simp [fresh, ScopeTable.baseScopes, ScopeTable.top, Scope.has, hx]
  have hname : (Node.ident x).nameText = .ok x := rfl
  have hinitial : ∀ tree, Typing.initial .fourth (.type (.prim .str)) (some (.prim p)) tree =
      if p = .str then .ok () else .error (.rejected (.assignMismatch
        ((Held.type (.prim .str)).plain .fourth) (Typing.textOf .fourth (some (.prim p))) tree)) := by
    intro tree
    cases p <;> rfl
  simp only [typecheck, Typing.check, hname, Typing.needTable, hkind, Held.ofNode, run_ofExcept_ok,
    run_bind, run_get, run_pure, if_true, hfind, ScopeTable.declareVariable]
  rw [if_neg (show ¬Held.type (.prim .str) = .nothing by decide)]
  by_cases hp : p = .str
  · subst hp
    simp [hhas, hinitial, Typing.settle]
  simp only [run_bind, run_get, hhas, Bool.false_eq_true, if_false, EStateM.run_set, run_pure, hinitial, hp, iff_false]
  rintro ⟨types, table, h⟩
  cases h

theorem run_output (he : e = .fourth) (folding : Bool) (hparse : (Session.parse e src.toList).run .fresh = .ok trees p)
    (hcheck : (typecheck e trees).run (.fresh e) = .ok types table)
    (hflat : Flat.ofProgram e trees = .ok code)
    (hbuild : (run e (some table) code).run (.fresh e code) = .ok tree b) (text : String) :
    (∃ printed, (Pipeline.output e folding src).run "" = .ok text printed) ↔
      ∃ w, (program tree).run (.fresh folding) = .ok text w := by
  have hwrite : Pipeline.write e folding tree = Pipeline.write .fourth folding tree := by rw [he]
  simp only [Pipeline.output, Pipeline.code, Pipeline.parse, Pipeline.check, Pipeline.flatten, Pipeline.build,
    Pipeline.stage, run_bind, hparse, hcheck, hflat, hbuild, run_modify, run_pure]
  rw [hwrite, Pipeline.write]
  simp only [run_bind, Pipeline.stage]
  cases hrun : (program tree).run (.fresh folding) with
  | ok a w =>
    constructor
    · rintro ⟨printed, h⟩
      cases h
      exact ⟨w, rfl⟩
    · rintro ⟨w, h⟩
      cases h
      exact ⟨_, rfl⟩
  | error fault w =>
    constructor
    · rintro ⟨printed, h⟩
      cases h
    · rintro ⟨w, h⟩
      cases h

theorem typecheck_of_output {src text printed : String} (hparse : (Session.parse e src.toList).run .fresh = .ok trees p)
    (h : (Pipeline.output e folding src).run "" = .ok text printed) :
    ∃ types table, (typecheck e trees).run (.fresh e) = .ok types table := by
  cases hcheck : (typecheck e trees).run (.fresh e) with
  | ok types table => exact ⟨types, table, rfl⟩
  | error fault table =>
    simp only [Pipeline.output, Pipeline.code, Pipeline.parse, Pipeline.check, Pipeline.stage,
      run_bind, hparse, hcheck, run_modify, run_pure] at h
    cases h

def textLines (x s : String) : List String := ["str_t " ++ x ++ ";", x ++ " = " ++ quoteC s ++ ";"]

theorem page_inj (h : Target.page functions body ending = Target.page functions body' ending) : body = body' := by
  unfold Target.page at h
  generalize "#include \"../starter.c\"\n\n" ++ functions ++ "\nint main() \x7b\n/***** Main *****/\n" = front at h
  exact (String.append_right_inj front).mp ((String.append_left_inj _).mp
    ((String.append_left_inj _).mp ((String.append_left_inj _).mp h)))

theorem blockItems_broken {front back : List Char} (h : line.toList = front ++ ';' :: back)
    (hne : front ≠ []) (hfront : ';' ∉ front) :
    ∃ items, blockItems (.line line) = .line (String.ofList (front ++ [';'])) :: items := by
  obtain ⟨c, cs, rfl⟩ := exists_cons_of_ne_nil hne
  have hc : c ≠ ';' := fun h => hfront (by simp [h])
  have hhead : (line.toList.head? == some ';') = false := by rw [h]; simpa using hc
  rw [blockItems, present_line (h.trans (cons_append ..)), Bool.not_true, if_neg Bool.false_ne_true,
    Target.Writer.statements, hhead, if_neg Bool.false_ne_true, h, splitAt_append_cons hfront]
  exact ⟨_, filterMap_cons_some (by simp)⟩

variable (hx : isName x = true)

include hx

theorem not_mem_of_isName (hc : isNameChar c = false) : c ∉ x.toList := by
  obtain ⟨d, cs, hcs, hd, hall, -⟩ := exists_of_isName hx
  rw [hcs, mem_cons]
  rintro (rfl | h)
  · simp [isNameChar, hd] at hc
  · rw [all_eq_true.mp hall c h] at hc
    cases hc

theorem visible_of_isName : Visible x := by
  obtain ⟨c, cs, hcs, hc, -⟩ := exists_of_isName hx
  refine ⟨c, cs, hcs, ?_⟩
  rintro rfl
  exact absurd hc (by decide)

theorem blockItems_declaration (htype : ';' ∉ type.toList) :
    blockItems (.line (type ++ x ++ ";")) = [.line (type ++ x ++ ";")] := by
  obtain ⟨c, cs, hcs, -⟩ := exists_of_isName hx
  refine blockItems_line ?_ ?_
  · intro h
    have := congrArg String.toList h
    simp [hcs] at this
  · rw [toList_append, mem_append]
    exact not_or.mpr ⟨htype, not_mem_of_isName hx (by decide)⟩

theorem run_program_textTree (hslice : occurs "list_slice".toList s.toList = false) :
    ∃ w, (program (textTree x s)).run (.fresh false) =
      .ok (Target.page "" (unlines (("str_t " ++ x ++ ";") :: piecesLines 0
        (blockItems (.line (x ++ " = " ++ quoteC s ++ ";"))))) cleanUp) w := by
  have hassign := run_assign_textWriter (visible_of_isName hx) s
  rw [if_neg (Bool.eq_false_iff.mp hslice)] at hassign
  have hwrites := (writes_front (visible_of_isName hx) s).append (.single hassign)
  have hlines := piecesLines_append 0 [.line ("str_t " ++ x ++ ";")]
    (blockItems (.line (x ++ " = " ++ quoteC s ++ ";")))
  rw [blockItems_declaration hx (by decide)] at hwrites
  have hrun := run_page rfl rfl hwrites.run_block
  rw [hlines] at hrun
  exact ⟨_, hrun⟩

theorem run_program_textTree_error (hslice : occurs "list_slice".toList s.toList = true) :
    ∃ fault w, (program (textTree x s)).run (.fresh false) = .error fault w := by
  have hassign := run_assign_textWriter (visible_of_isName hx) s
  rw [if_pos hslice] at hassign
  have hroot : (Target.Writer.write (textTree x s)).run (.fresh false) = .error .noKey _ :=
    (writes_front (visible_of_isName hx) s).run_block_error hassign (by decide) []
  refine ⟨.noKey, { textWriter x s with listsDeclared := [x] }, ?_⟩
  rw [program, run_bind, hroot]

theorem blockItems_assign (hs : ';' ∉ s.toList) :
    blockItems (.line (x ++ " = " ++ quoteC s ++ ";")) = [.line (x ++ " = " ++ quoteC s ++ ";")] := by
  obtain ⟨c, cs, hcs, -⟩ := exists_of_isName hx
  refine blockItems_line ?_ ?_
  · intro h
    have := congrArg String.toList h
    simp [hcs] at this
  · simp only [toList_append, mem_append, not_or]
    exact ⟨⟨not_mem_of_isName hx (by decide), by decide⟩, fun h => hs ((mem_quoteC (by decide) (by decide) s).mp h)⟩

omit hx

theorem unlines_cons (l : String) (ls : List String) : unlines (l :: ls) = l ++ "\n" ++ unlines ls := by simp [unlines]

theorem broken_of_mem (hx : isName x = true) (hs : ';' ∈ s.toList) :
    unlines (("str_t " ++ x ++ ";") :: piecesLines 0
      (blockItems (.line (x ++ " = " ++ quoteC s ++ ";")))) ≠ unlines (textLines x s) := by
  obtain ⟨c, cs, hcs, hc, -⟩ := exists_of_isName hx
  have hmem : ';' ∈ (x ++ " = " ++ quoteC s).toList := by
    rw [toList_append, mem_append]
    exact .inr ((mem_quoteC (by decide) (by decide) s).mpr hs)
  obtain ⟨front, back, hsplit, hfront⟩ := eq_append_cons_of_mem hmem
  have hline : (x ++ " = " ++ quoteC s ++ ";").toList = front ++ ';' :: (back ++ [';']) := by
    rw [toList_append, hsplit]
    simp
  have hne : front ≠ [] := by
    rintro rfl
    rw [toList_append, toList_append, hcs] at hsplit
    cases hsplit
    exact absurd hc (by decide)
  obtain ⟨items, hitems⟩ := blockItems_broken hline hne hfront
  have hbreak : '\n' ∉ (x ++ " = " ++ quoteC s ++ ";").toList := by
    simp only [toList_append, mem_append, not_or]
    exact ⟨⟨⟨not_mem_of_isName hx (by decide), by decide⟩, break_not_mem_quoteC s⟩, by decide⟩
  intro heq
  rw [hitems, textLines, piecesLines, pieceLines, show Target.Piece.margin 0 = "" from rfl, String.empty_append,
    singleton_append, unlines_cons, unlines_cons, unlines_cons, unlines_cons, String.append_right_inj] at heq
  have hchars := congrArg String.toList heq
  simp only [toList_append, String.toList_ofList, hline, List.append_assoc] at hchars
  -- behind the first semicolon, one text has a line break and the other has none
  have hback := append_cancel_left hchars
  cases hrest : back ++ [';'] with
  | nil => simp at hrest
  | cons d rest =>
    rw [hline, hrest] at hbreak
    simp [hrest] at hback
    exact hbreak (by simp [← hback.1])

theorem output_iff_program (hx : isName x = true) (hfree : ScopeTable.builtins4.has x = false)
    (hs : ∀ c ∈ s.toList, c ≠ '"' ∧ c ≠ '\\') (hnone : s ≠ "None") (text : String) :
    (∃ printed, (Pipeline.output .fourth false (textDeclaration x s)).run "" = .ok text printed) ↔
      ∃ w, (program (textTree x s)).run (.fresh false) = .ok text w := by
  have hfind : ScopeTable.builtins4.find? x = none := by simpa [Scope.has] using hfree
  obtain ⟨p, hparse⟩ := parse_declaration hx hs
  obtain ⟨types, table, hcheck⟩ := (run_typecheck_declaration hfind "str" rfl (.text s)).mpr rfl
  rw [← declarationTree_of_ne hnone] at hcheck
  obtain ⟨b, hbuild⟩ := run_build_text (some table) (visible_of_isName hx).not_isReg hfind s
  exact run_output rfl false hparse hcheck (ofProgram_declarationTree x hnone) hbuild text

theorem not_output_none (hx : isName x = true) (hfree : ScopeTable.builtins4.has x = false) (text : String) :
    ¬ ∃ printed, (Pipeline.output .fourth false (textDeclaration x "None")).run "" = .ok text printed := by
  rintro ⟨printed, h⟩
  have hfind : ScopeTable.builtins4.find? x = none := by simpa [Scope.has] using hfree
  obtain ⟨p, hparse⟩ := parse_declaration (s := "None") hx (by simp)
  have hcheck := typecheck_of_output hparse h
  exact absurd ((run_typecheck_declaration hfind "none" rfl _).mp hcheck) (by decide)

/-- The declaration of a text goes through all stages to two lines, the declaration of the variable and the
assignment of the literal of the text, exactly if the text is not `None`, has no semicolon and has no
`list_slice` in it. -/
theorem output_text_iff (x s : String) (hx : isName x = true) (hfree : ScopeTable.builtins4.has x = false)
    (hs : ∀ c ∈ s.toList, c ≠ '"' ∧ c ≠ '\\') :
    (∃ printed, (Pipeline.output .fourth false (textDeclaration x s)).run "" =
        .ok (Target.page "" (unlines (textLines x s)) cleanUp) printed) ↔
      s ≠ "None" ∧ ';' ∉ s.toList ∧ Text.occurs "list_slice".toList s.toList = false := by
  by_cases hnone : s = "None"
  · subst hnone
    exact iff_of_false (not_output_none hx hfree _) fun h => h.1 rfl
  rw [output_iff_program hx hfree hs hnone]
  cases hslice : occurs "list_slice".toList s.toList with
  | true =>
    obtain ⟨fault, w, hrun⟩ := run_program_textTree_error hx hslice
    refine iff_of_false (fun ⟨w', h⟩ => ?_) fun h => absurd h.2.2 (by decide)
    rw [hrun] at h
    cases h
  | false =>
    obtain ⟨w, hrun⟩ := run_program_textTree hx hslice
    rw [hrun]
    constructor
    · rintro ⟨w', h⟩
      have hpage := page_inj (EStateM.Result.ok.inj h).1
      exact ⟨hnone, fun hsemicolon => broken_of_mem hx hsemicolon hpage, rfl⟩
    · rintro ⟨-, hsemicolon, -⟩
      refine ⟨w, ?_⟩
      rw [blockItems_assign hx hsemicolon]
      rfl

/-- A text with a tab, a single quote, a comment sign and a letter outside of the target's characters. -/
theorem output_text_mixed : isName "v" = true ∧ ScopeTable.builtins4.has "v" = false ∧
    (∀ c ∈ "it's\t#1 in Malmö".toList, c ≠ '"' ∧ c ≠ '\\') ∧
    textLines "v" "it's\t#1 in Malmö" = ["str_t v;", "v = \"it's\\t#1 in Malm\\u00f6\";"] ∧
    ∃ printed, (Pipeline.output .fourth false (textDeclaration "v" "it's\t#1 in Malmö")).run "" =
      .ok (Target.page "" (unlines (textLines "v" "it's\t#1 in Malmö")) cleanUp) printed :=
  ⟨by decide, by decide, by simp, by decide,
    (output_text_iff "v" "it's\t#1 in Malmö" (by decide) (by decide) (by simp)).mpr ⟨by decide, by decide, by decide⟩⟩

theorem output_text_broken :
    (∃ printed, (Pipeline.output .fourth false (textDeclaration "v" "a;b")).run "" =
      .ok (Target.page "" (unlines ["str_t v;", "v = \"a;", "b\";"]) cleanUp) printed) ∧
    ¬ ∃ printed, (Pipeline.output .fourth false (textDeclaration "v" "a;b")).run "" =
      .ok (Target.page "" (unlines (textLines "v" "a;b")) cleanUp) printed := by
  have hx : isName "v" = true := by decide
  obtain ⟨w, hrun⟩ := run_program_textTree (s := "a;b") hx (by decide)
  rw [output_iff_program hx (by decide) (by simp) (by decide),
    output_iff_program hx (by decide) (by simp) (by decide), hrun]
  refine ⟨⟨w, ?_⟩, fun ⟨w', h⟩ => ?_⟩
  · have hitems : blockItems (.line ("v" ++ " = " ++ quoteC "a;b" ++ ";")) = [.line "v = \"a;", .line "b\";"] := by
      rfl
    rw [hitems]
    rfl
  · exact broken_of_mem hx (by decide) (page_inj (EStateM.Result.ok.inj h).1)

end

end Tabc.Core
