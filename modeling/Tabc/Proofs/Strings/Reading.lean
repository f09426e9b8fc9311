import Tabc.Proofs.Strings.Scanning

/-!
# Parsing a declaration of a text

`x: str = "…"` is read as one assignment of the literal of the text; only the text `None` becomes the literal of
nothing (`parse_declaration`).
-/

namespace Tabc

open Parsing
open Tabc.Symbol (tok phrase)
open Expression

/-- What the table must know to reduce a rule of one symbol after some symbols and before a token. -/
def Finishes (ss : List Symbol) (c : Clause) (k : TokenKind) : Prop :=
  c ∈ clauses .fourth ∧ predicts .fourth ss c.head = true ∧ Viable .fourth (ss ++ [phrase c.head]) ∧
    reduces .fourth (ss ++ c.body) (tok k) = true

instance (ss : List Symbol) (c : Clause) (k : TokenKind) : Decidable (Finishes ss c k) :=
  inferInstanceAs (Decidable (_ ∧ _ ∧ _ ∧ _))

theorem Finishes.pushes (h : Finishes ss ⟨head, body, act, unary⟩ k)
    (hfollow : MayFollow .fourth ss (phrase head) (tok k))
    (hbody : Pushes b ss (· = tok k) body vs ws p p)
    (hval : (act.apply .fourth vs).run p = .ok v p) :
    Pushes (b + 1) ss (· = tok k) [phrase head] [v] ws p p := by
  obtain ⟨hmem, hpredicts, hviable, hreduces⟩ := h
  refine hbody.reduce hmem hval ?_ hviable
  rintro _ rfl
  exact ⟨ss, rfl, hpredicts, hfollow, hreduces⟩

def typed : List Symbol := [tok .ident, tok .colon]

/-- What stands before the right side. -/
def typedAssigned : List Symbol := [tok .ident, tok .colon, phrase .type, tok .assign]

theorem declaration_known :
    shifts .fourth [] .ident = true ∧ shifts .fourth [tok .ident] .colon = true ∧
    shifts .fourth typed .kwStr = true ∧
    Finishes typed ⟨.primitiveType, [tok .kwStr], .primType, false⟩ .assign ∧
    Finishes typed ⟨.type, [phrase .primitiveType], .typeOf, false⟩ .assign ∧
    shifts .fourth (typed ++ [phrase .type]) .assign = true ∧
    shifts .fourth typedAssigned .string = true ∧
    Finishes typedAssigned ⟨.primitiveLiteral, [tok .string], .literal, false⟩ .newline ∧
    Finishes typedAssigned ⟨.expression, [phrase .primitiveLiteral], .pass, false⟩ .newline ∧
    shifts .fourth (typedAssigned ++ [phrase .expression]) .newline = true := by decide +kernel

def declarationTree (x s : String) : Node :=
  .assign (.ident x) (.type (.prim .str)) (literalNode .fourth (.atom (.text s)))

theorem run_declaration (hts : ts.map wordOf = declarationWords x s) :
    ∃ v tape, ((onTape .fourth).run (moveBound ts.length) Machine.start).run (p, ⟨ts, []⟩) =
      .ok (.finished v) (recorded p (declarationTree x s), tape) := by
  obtain ⟨hident, hcolon, hstr, hprim, htype, hassign, hstring, hliteral, hpass, hnewline⟩ := declaration_known
  -- what follows a type and what follows the right side
  have hfollow : MayFollow .fourth typed (phrase .type) (tok .assign) := .read hassign
  have hfollow' : MayFollow .fourth typedAssigned (phrase .expression) (tok .newline) := .read hnewline
  have hfollowPrim : MayFollow .fourth typed (phrase .primitiveType) (tok .assign) := by
    have h := MayFollow.inherit htype.1 htype.2.1 [] rfl hfollow
    rwa [List.append_nil] at h
  have hfollowLiteral : MayFollow .fourth typedAssigned (phrase .primitiveLiteral) (tok .newline) := by
    have h := MayFollow.inherit hpass.1 hpass.2.1 [] rfl hfollow'
    rwa [List.append_nil] at h
  have htyped := htype.pushes hfollow (hprim.pushes hfollowPrim ((pushes_nil _ _ p).first (.text "str") hstr) rfl) rfl
  have hright := hpass.pushes hfollow' (hliteral.pushes hfollowLiteral
    ((pushes_nil _ _ p).first (.text s) hstring) rfl) rfl
  have hread := Pushes.first (.text x) hident (.first (.text ":") hcolon (htyped.next rfl (.text "=") hassign
    (hright.next rfl (.text "\n") hnewline (pushes_nil _ (· = .eof) p))))
  refine run_of_assignment (List.mem_of_getElem? (i := 4) rfl) hread rfl hts ?_
  rw [← List.length_map, hts]
  simp [moveBound, declarationWords]

theorem parse_declaration (hx : isName x = true) (hs : ∀ c ∈ s.toList, c ≠ '"' ∧ c ≠ '\\') :
    ∃ p', (Session.parse .fourth (textDeclaration x s).toList).run .fresh = .ok [declarationTree x s] p' := by
  obtain ⟨ts, hscans, hwords⟩ :=
    scans_declaration hx hs (p := Session.fresh.source.input (textDeclaration x s).toList) rfl
  obtain ⟨v, tape, hrun⟩ := run_declaration hwords
  exact parse_single hscans rfl hrun rfl

end Tabc
