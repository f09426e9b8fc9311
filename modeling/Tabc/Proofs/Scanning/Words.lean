import Tabc.Proofs.Scanning.Portions

/-!
# Words

Before the rule for names come rules for words that end nowhere in particular: a name that begins with such a
word is cut in two (`tokens_name_iff`).
-/

open List

namespace Tabc

open CharClass
open Pattern

def cutWords : List String := ["True", "False", "and", "or", "not"]

def isLetter (c : Char) : Bool := ('a' ≤ c && c ≤ 'z') || ('A' ≤ c && c ≤ 'Z')

def isNameStart (c : Char) : Bool := isLetter c || c == '_'

def isNameChar (c : Char) : Bool := isLetter c || c == '_' || ('0' ≤ c && c ≤ '9')

/-- A name that begins with a letter and is read as one identifier. -/
def isName (x : String) : Bool :=
  match x.toList with
  | [] => false
  | c :: cs => isLetter c && cs.all isNameChar &&
    (cutWords.all fun w => !w.toList.isPrefixOf (c :: cs)) && ((reserved .fourth).lookup x).isNone

def ruleFor : List TokenRule → List Char → Option (TokenAction × List Char)
  | [], _ => none
  | r :: rules, cs => match r.pattern.run cs some with
    | some rest => some (r.action, rest)
    | none => ruleFor rules cs

variable {rules : List TokenRule} {rest cs : List Char} {action : TokenAction} {c : Char}

theorem firstMatch_eq (rules : List TokenRule) (cs : List Char) : firstMatch rules cs =
    (ruleFor rules cs).map fun found => (found.1, cs.take (cs.length - found.2.length), found.2) := by
  induction rules with
  | nil => rfl
  | cons r rules ih =>
    rw [firstMatch, ruleFor, match?]
    cases r.pattern.run cs some with
    | none => exact ih
    | some rest => rfl

theorem ruleFor_of_firstMatch (h : firstMatch rules cs = some (action, text, rest)) :
    ruleFor rules cs = some (action, rest) := by
  rw [firstMatch_eq] at h
  cases hrule : ruleFor rules cs <;> rw [hrule] at h <;> cases h
  rfl

theorem firstMatch_of_ruleFor (h : ruleFor rules (text ++ rest) = some (action, rest)) :
    firstMatch rules (text ++ rest) = some (action, text, rest) := by simp [firstMatch_eq, h]

theorem ruleFor_append (h : ∀ r ∈ before, r.pattern.run cs some = none) :
    ruleFor (before ++ rules) cs = ruleFor rules cs := by
  induction before with
  | nil => rfl
  | cons r before ih =>
    obtain ⟨hr, hbefore⟩ := forall_mem_cons.1 h
    rw [cons_append, ruleFor, hr]
    exact ih hbefore

theorem holds_first (c : Char) :
    (⟨false, [.range 'a' 'z', .range 'A' 'Z', .range '_' '_']⟩ : CharClass).holds c = isNameStart c := by
  have h := holds_single '_' c
  simp only [single, holds, ClassItem.holds, any_cons, any_nil, Bool.or_false, Bool.bne_false] at h ⊢
  rw [h, isNameStart, isLetter, Bool.or_assoc]

theorem holds_later (c : Char) :
    (⟨false, [.range 'a' 'z', .range 'A' 'Z', .range '_' '_', .range '0' '9']⟩ : CharClass).holds c = isNameChar c := by
  have h := holds_single '_' c
  simp only [single, holds, ClassItem.holds, any_cons, any_nil, Bool.or_false, Bool.bne_false] at h ⊢
  rw [h, isNameChar, isLetter, Bool.or_assoc, Bool.or_assoc]

theorem isPrefix_of_append (hw : w.all isNameChar = true)
    (hrest : ∀ d ∈ rest.head?, isNameChar d = false) (h : w <+: cs ++ rest) : w <+: cs := by
  rcases prefix_or_prefix_of_prefix h (prefix_append cs rest) with hpre | ⟨v, rfl⟩
  · exact hpre
  cases v with
  | nil => simp
  | cons d v =>
    -- the word would go on with the character after the name
    obtain ⟨u, rfl⟩ := (prefix_append_right_inj cs).1 h
    have hd := hrest d rfl
    simp [hd] at hw

def rulesBeforeNames : List TokenRule :=
  [⟨.either "True" "False", .truth⟩, ⟨.word "!=".toList, .keep .notEqual⟩,
    ⟨.either "and" "&", .keep .and⟩, ⟨.either "or" "|", .keep .or⟩, ⟨.either "not" "!", .keep .not⟩,
    ⟨.quoted, .quoted⟩, ⟨.decimal, .float⟩, ⟨.numeral, .integer⟩]

theorem tokenRules_eq : ∃ after, tokenRules .fourth = rulesBeforeNames ++ ⟨.identifier, .word⟩ :: after := ⟨_, rfl⟩

theorem run_none_of_start (hc : isNameStart c = true) (cs : List Char) :
    quoted.run (c :: cs) some = none ∧ decimal.run (c :: cs) some = none ∧ numeral.run (c :: cs) some = none := by
  have hne : ∀ d, isNameStart d = false → (c == d) = false := by
    intro d hd
    rw [beq_eq_false_iff_ne]
    rintro rfl
    rw [hd] at hc
    cases hc
  have hdigit : (⟨false, [.range '1' '9']⟩ : CharClass).holds c = false := by
    simp [isNameStart, isLetter, holds, ClassItem.holds, Char.le_def, UInt32.le_iff_toNat_le, Char.ext_iff,
      UInt32.toNat_inj.symm] at hc ⊢
    omega
  refine ⟨?_, ?_, ?_⟩
  · simp [quoted, between, run, holds_single, hne '"' rfl, hne '\'' rfl]
  · simp [Pattern.decimal, Pattern.numeral, Pattern.optional, Pattern.run, CharClass.holds_single,
      hne '-' rfl, hne '0' rfl, hdigit]
  · simp [Pattern.numeral, Pattern.optional, Pattern.run, CharClass.holds_single, hne '-' rfl, hne '0' rfl, hdigit]

theorem ruleFor_name (hc : isNameStart c = true) (hcs : cs.all isNameChar = true)
    (hcut : ∀ w ∈ cutWords, ¬ w.toList <+: c :: cs) (rest : List Char)
    (hrest : ∀ d ∈ rest.head?, isNameChar d = false) :
    ruleFor (tokenRules .fourth) (c :: cs ++ rest) = some (.word, rest) := by
  obtain ⟨after, heq⟩ := tokenRules_eq
  have hsign : ∀ (w : String) d, w.toList.head? = some d → isNameStart d = false → ¬ w.toList <+: c :: cs ++ rest := by
    rintro w d hw hd ⟨v, hv⟩
    obtain ⟨ds, hds⟩ := List.head?_eq_some_iff.1 hw
    rw [hds] at hv
    rw [← (List.cons.inj hv).1, hd] at hc
    cases hc
  have hword : ∀ w ∈ cutWords, ¬ w.toList <+: c :: cs ++ rest := by
    have hchars : ∀ w ∈ cutWords, w.toList.all isNameChar = true := by decide
    exact fun w hw hpre => hcut w hw (isPrefix_of_append (hchars w hw) hrest hpre)
  have hbefore : ∀ r ∈ rulesBeforeNames, r.pattern.run (c :: cs ++ rest) some = none := by
    obtain ⟨hquoted, hdecimal, hnumeral⟩ := run_none_of_start hc (cs ++ rest)
    intro r hr
    simp only [rulesBeforeNames, List.mem_cons, List.not_mem_nil, or_false] at hr
    rcases hr with rfl | rfl | rfl | rfl | rfl | rfl | rfl | rfl
    · exact Pattern.run_either_eq_none_iff.2 ⟨hword "True" (by decide), hword "False" (by decide)⟩
    · exact (Pattern.run_word _ _ _).trans (if_neg fun h => hsign "!=" '!' rfl rfl (List.isPrefixOf_iff_prefix.1 h))
    · exact Pattern.run_either_eq_none_iff.2 ⟨hword "and" (by decide), hsign "&" '&' rfl rfl⟩
    · exact Pattern.run_either_eq_none_iff.2 ⟨hword "or" (by decide), hsign "|" '|' rfl rfl⟩
    · exact Pattern.run_either_eq_none_iff.2 ⟨hword "not" (by decide), hsign "!" '!' rfl rfl⟩
    · exact hquoted
    · exact hdecimal
    · exact hnumeral
  rw [heq, ruleFor_append hbefore, ruleFor]
  have hrun : Pattern.identifier.run (c :: cs ++ rest) some = some rest := by
    simp only [Pattern.identifier, Pattern.run, List.cons_append, holds_first, hc, if_true, Pattern.repeatClass_some]
    have hfun : (⟨false, [.range 'a' 'z', .range 'A' 'Z', .range '_' '_', .range '0' '9']⟩ :
        CharClass).holds = isNameChar := funext holds_later
    rw [hfun, List.dropWhile_append_of_pos (List.all_eq_true.1 hcs)]
    cases rest with
    | nil => rfl
    | cons d rest => rw [List.dropWhile_cons, hrest d rfl]; rfl
  rw [hrun]

variable {e : Edition}

theorem next_space {s : Source} (h : s.rest = ' ' :: rest) :
    s.next e = Source.next e { s with rest := rest, pos := s.pos + 1 } := by
  unfold Source.next
  rw [h, Source.nextWithin, h]
  rfl

theorem next_of_taken {s s' : Source} {t : Token} (h : s.taken e = some (some t, s')) : s.next e = (some t, s') := by
  rw [Source.next, Source.nextWithin_succ, h]

theorem taken_of_firstMatch {s : Source} {text : List Char} (hrest : s.rest = c :: cs) (hc : c ≠ ' ')
    (hmatch : firstMatch (tokenRules e) (c :: cs) = some (action, text, rest)) : s.taken e =
      some (Source.act e s.line s.pos { s with rest := rest, pos := s.pos + text.length } text action) := by
  simp only [Source.taken, hrest, beq_iff_eq, hc, if_false, hmatch]

theorem next_of_ruleFor {s : Source} (text : List Char) (hrest : s.rest = c :: text ++ rest)
    (hc : c ≠ ' ') (hrule : ruleFor (tokenRules e) (c :: text ++ rest) = some (action, rest))
    {t : Token}
    (hact : Source.act e s.line s.pos { s with rest := rest, pos := s.pos + (c :: text).length } (c :: text) action = (some t, s')) :
    s.next e = (some t, s') := next_of_taken (hact ▸ taken_of_firstMatch hrest hc (firstMatch_of_ruleFor hrule))

theorem exists_of_ruleFor (rules : List TokenRule) (h : ∃ r ∈ before, r.pattern.run cs some ≠ none) :
    ∃ r ∈ before, ∃ left, ruleFor (before ++ rules) cs = some (r.action, left) := by
  induction before with
  | nil => simp at h
  | cons r before ih =>
    rw [List.cons_append, ruleFor]
    cases hrun : r.pattern.run cs some with
    | some left => exact ⟨r, .head _, left, rfl⟩
    | none =>
      obtain ⟨r', hr', hleft⟩ := ih (by simpa [hrun] using h)
      exact ⟨r', .tail _ hr', hleft⟩

/-- A word of letters, digits and underscores that is not reserved is one identifier exactly if it does not begin
with a word that is cut off. -/
theorem tokens_name_iff (hc : isNameStart c = true) (hcs : cs.all isNameChar = true)
    (hreserved : (reserved .fourth).lookup (String.ofList (c :: cs)) = none) :
    ((Source.fresh.input (c :: cs)).tokens .fourth).1 = [⟨.ident, .text (String.ofList (c :: cs)), 1, 0⟩] ↔
      ∀ w ∈ cutWords, ¬ w.toList <+: c :: cs := by
  have hspace : c ≠ ' ' := by
    rintro rfl
    cases hc
  constructor
  · intro htokens w hw hpre
    have hmatches : ∃ r ∈ rulesBeforeNames.take 5, r.pattern.run (c :: cs) some ≠ none := by
      have hrules : ∀ w ∈ cutWords, ∃ v ∈ ["True", "False", "&", "|", "!"], ∃ r ∈ rulesBeforeNames.take 5,
          r.pattern = .either w v ∨ r.pattern = .either v w := by decide
      obtain ⟨v, -, r, hr, hpattern⟩ := hrules w hw
      refine ⟨r, hr, fun h => ?_⟩
      rcases hpattern with hpattern | hpattern <;> rw [hpattern, Pattern.run_either_eq_none_iff] at h
      · exact h.1 hpre
      · exact h.2 hpre
    obtain ⟨after, heq⟩ : ∃ after, tokenRules .fourth = rulesBeforeNames.take 5 ++ after := ⟨_, rfl⟩
    obtain ⟨r, hr, left, hrule⟩ := exists_of_ruleFor after hmatches
    have hkinds : ∀ r ∈ rulesBeforeNames.take 5, ∀ line pos s text,
        ∃ t s', Source.act .fourth line pos s text r.action = (some t, s') ∧ t.kind ≠ .ident := by
      simp [rulesBeforeNames, Source.act]
    have hmatch := firstMatch_eq (tokenRules .fourth) (c :: cs)
    rw [heq, hrule, ← heq] at hmatch
    have htaken := taken_of_firstMatch (s := Source.fresh.input (c :: cs)) rfl hspace hmatch
    obtain ⟨t, s', hact, hkind⟩ := hkinds r hr _ _ _ _
    rw [hact] at htaken
    have hscans := scans_tokens .fourth (Source.fresh.input (c :: cs))
    rw [htokens] at hscans
    cases hscans with
    | token hnext =>
      cases (next_of_taken htaken).symm.trans hnext
      exact hkind rfl
  · intro hcut
    have hrule := ruleFor_name hc hcs hcut [] (by simp)
    have hnext := next_of_ruleFor (s := Source.fresh.input (c :: cs)) cs (List.append_nil _).symm hspace hrule rfl
    rw [hreserved] at hnext
    exact Scans.tokens_eq (.token hnext (.stop rfl rfl))

theorem tokens_orange_ne : ((Source.fresh.input ['o', 'r', 'a', 'n', 'g', 'e']).tokens .fourth).1 ≠
    [⟨.ident, .text (String.ofList ['o', 'r', 'a', 'n', 'g', 'e']), 1, 0⟩] :=
  fun h => (tokens_name_iff (by decide) (by decide) (by decide)).1 h "or" (by decide) (by decide)

end Tabc
