import Tabc.Proofs.Scanning.Words
import Tabc.Proofs.Sessions.Single

/-!
# Scanning a declaration of a text

The scanner makes six tokens of `x: str = "…"`. `isName` says which names it reads as one identifier; a word
that begins with `and`, `or`, `not`, `True` or `False` is none.
-/

open List

namespace Tabc

theorem ruleFor_quoted {text : List Char} (h : ∀ c ∈ text, c ≠ '"' ∧ c ≠ '\\') (rest : List Char) :
    ruleFor (tokenRules .fourth) ('"' :: text ++ '"' :: rest) = some (.quoted, rest) := by
  have hrules : ∃ after, tokenRules .fourth = rulesBeforeNames.take 5 ++ ⟨.quoted, .quoted⟩ :: after := ⟨_, rfl⟩
  obtain ⟨after, heq⟩ := hrules
  have hbefore : ∀ r ∈ rulesBeforeNames.take 5, r.pattern.run ('"' :: text ++ '"' :: rest) some = none := by
    intro r hr
    simp only [rulesBeforeNames, List.take_succ_cons, List.take_zero, List.mem_cons, List.not_mem_nil, or_false] at hr
    rcases hr with rfl | rfl | rfl | rfl | rfl <;> rfl
  have hrun : Pattern.quoted.run ('"' :: text ++ '"' :: rest) some = some rest := by
    rw [Pattern.quoted, Pattern.run, List.cons_append, Pattern.run_between (by decide), Pattern.closing_of_plain h]
    rfl
  rw [heq, ruleFor_append hbefore, ruleFor, hrun]

def declarationWords (x s : String) : List Expression.Word :=
  [(.ident, .text x), (.colon, .text ":"), (.kwStr, .text "str"), (.assign, .text "="),
    (.string, .text s), (.newline, .text "\n")]

def textDeclaration (x s : String) : String := x ++ ": str = \"" ++ s ++ "\"\n"

theorem exists_of_isName {x : String} (hx : isName x = true) :
    ∃ c cs, x.toList = c :: cs ∧ isLetter c = true ∧ cs.all isNameChar = true ∧
      (∀ w ∈ cutWords, ¬ w.toList <+: c :: cs) ∧
      (reserved .fourth).lookup x = none := by
  unfold isName at hx
  cases hchars : x.toList with
  | nil =>
    rw [hchars] at hx
    cases hx
  | cons c cs =>
    rw [hchars] at hx
    simp only [Bool.and_eq_true, Option.isNone_iff_eq_none] at hx
    refine ⟨c, cs, rfl, hx.1.1.1, hx.1.1.2, fun w hw h => ?_, hx.2⟩
    have := all_eq_true.1 hx.1.2 w hw
    rw [ isPrefixOf_iff_prefix.2 h] at this
    cases this

theorem scans_declaration {x s : String} (hx : isName x = true)
    (hs : ∀ c ∈ s.toList, c ≠ '"' ∧ c ≠ '\\') {p : Source} (hp : p.rest = (textDeclaration x s).toList) :
    ∃ ts, ScansPlainly .fourth p ts ∧ ts.map Expression.wordOf = declarationWords x s := by
  obtain ⟨c, cs, hchars, hc, hcs, hcut, hreserved⟩ := exists_of_isName hx
  have hspace : c ≠ ' ' := by
    rintro rfl
    cases hc
  let rest := ':' :: ' ' :: 's' :: 't' :: 'r' :: ' ' :: '=' :: ' ' :: ('"' :: s.toList ++ '"' :: ['\n'])
  have hrest : p.rest = c :: cs ++ rest := by
    rw [hp, textDeclaration]
    simp [hchars, rest]
  have hname := ruleFor_name (by rw [isNameStart, hc, Bool.true_or]) hcs hcut rest (by simp [rest, isNameChar, isLetter])
  have hquoted : ruleFor (tokenRules .fourth) ('"' :: (s.toList ++ ['"']) ++ ['\n']) = some (.quoted, ['\n']) := by
    rw [← ruleFor_quoted hs ['\n']]
    simp
  refine ⟨_, .token (next_of_ruleFor cs hrest hspace hname rfl) (by rfl)
    (.token (next_of_ruleFor [] rfl (by decide) rfl rfl) (by rfl)
    (.token ((next_space rfl).trans (next_of_ruleFor ['t', 'r'] rfl (by decide) rfl rfl)) (by rfl)
    (.token ((next_space rfl).trans (next_of_ruleFor [] rfl (by decide) rfl rfl)) (by rfl)
    (.token ((next_space rfl).trans (next_of_ruleFor (s.toList ++ ['"']) (by simp) (by decide) hquoted rfl)) (by rfl)
    (.token (next_of_ruleFor [] rfl (by decide) rfl rfl) (by rfl) (.stop rfl rfl (by rfl))))))), ?_⟩
  have hx : String.ofList (c :: cs) = x := by rw [← hchars, String.ofList_toList]
  have hs : String.ofList (Source.unquote .fourth ('"' :: (s.toList ++ ['"']))) = s := by simp [Source.unquote]
  simp only [map_cons, map_nil, Expression.wordOf, hx, hs, hreserved, declarationWords]
  rfl

end Tabc
