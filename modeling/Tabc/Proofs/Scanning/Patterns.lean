import Tabc.Proofs.Parsing.Tokens

/-!
# Patterns

What the patterns of the scanner match: words, runs of characters, texts between marks.
-/

open List

namespace Tabc

open CharClass

namespace CharClass

/-- A class that is given by its characters one by one. -/
theorem holds_ranges (negated : Bool) (ds : List Char) (c : Char) :
    (⟨negated, ds.map fun d => .range d d⟩ : CharClass).holds c = (ds.contains c != negated) := by
  have hany : ((ds.map fun d => ClassItem.range d d).any fun i => i.holds c) = ds.contains c := by
    rw [any_map, contains_eq_any_beq]
    refine congrArg ds.any (funext fun d => ?_)
    rw [Function.comp, ClassItem.holds, Bool.eq_iff_iff, Bool.and_eq_true, decide_eq_true_eq, decide_eq_true_eq, beq_iff_eq]
    exact ⟨fun h => le_antisymm h.2 h.1, fun h => h ▸ ⟨le_rfl, le_rfl⟩⟩
  rw [holds, hany]

theorem holds_single (d c : Char) : (single d).holds c = (c == d) := by
  have h := holds_ranges false [d] c
  rwa [contains_cons, contains_nil, Bool.or_false, Bool.bne_false] at h

theorem holds_dot (c : Char) : dot.holds c = (c != '\n') := by
  have h := holds_ranges true ['\n'] c
  rwa [contains_cons, contains_nil, Bool.or_false, Bool.bne_true] at h

end CharClass

namespace Pattern

theorem run_word (w cs : List Char) (k : List Char → Option (List Char)) :
    (word w).run cs k = if w.isPrefixOf cs then k (cs.drop w.length) else none := by
  fun_induction word w generalizing cs with
  | case1 => rfl
  | case2 c =>
    cases cs with
    | nil => rfl
    | cons d cs =>
      by_cases h : d = c
      · simp [run, holds_single, h]
      · simp [run, holds_single, List.isPrefixOf, h, Ne.symm h]
  | case3 c rest hrest ih =>
    cases cs with
    | nil => rfl
    | cons d cs =>
      simp only [run, holds_single, ih, List.isPrefixOf, drop_succ_cons, length_cons]
      by_cases h : d = c
      · simp [h]
      · simp [h, Ne.symm h]

theorem run_either_eq_none_iff :
    (either a b).run cs some = none ↔ ¬ a.toList <+: cs ∧ ¬ b.toList <+: cs := by simp [either, run, run_word]

theorem repeatClass_some (c : CharClass) (cs : List Char) : repeatClass c some cs = some (cs.dropWhile c.holds) := by
  induction cs with
  | nil => rfl
  | cons d cs ih =>
    rw [repeatClass, dropWhile_cons, ih]
    split <;> rfl

/-- A character of one class and then as many as there are of another. -/
theorem exists_of_run_headed (h : (seq (.one a) (.star (.one k))).run (text ++ left) some = some left) :
    ∃ c body, text = c :: body ∧ a.holds c = true ∧ (∀ d ∈ body, k.holds d = true) ∧
      ∀ d ∈ left.head?, k.holds d = false := by
  cases hcs : text ++ left with
  | nil =>
    rw [hcs] at h
    cases h
  | cons c cs =>
    rw [hcs, run, run] at h
    split at h
    · rename_i hc
      rw [run, repeatClass_some, Option.some.injEq] at h
      have htext : text = c :: cs.takeWhile k.holds := by
        rw [← takeWhile_append_dropWhile (l := cs), h] at hcs
        exact append_cancel_right hcs
      refine ⟨c, _, htext, hc, fun d hd => mem_takeWhile_imp hd, fun d hd => ?_⟩
      have hhead := head?_dropWhile_not k.holds cs
      rw [h, Option.mem_def.1 hd] at hhead
      simpa using hhead
    · cases h

/-- What follows the mark that closes a text; `escaped` after a backslash. -/
def closing (mark : Char) : Bool → List Char → Option (List Char)
  | _, [] => none
  | true, c :: cs => if c = '\n' then none else closing mark false cs
  | false, c :: cs => if c = mark then some cs else closing mark (c == '\\') cs

theorem closing_append (h : closing mark escaped cs = some r)
    (v : List Char) : closing mark escaped (cs ++ v) = some (r ++ v) := by
  fun_induction closing mark escaped cs <;> simp_all [closing]

/-- One character between two marks, or two of which the first is a backslash. -/
def inside (mark : Char) : Pattern :=
  .alt (.seq (.one (.single '\\')) (.one .dot)) (.one ⟨true, [.range mark mark, .range '\\' '\\']⟩)

theorem run_inside (mark c : Char) (cs : List Char) (k : List Char → Option (List Char)) :
    (inside mark).run (c :: cs) k = if c = '\\' then cs.head?.elim none fun d => if d = '\n' then none else k cs.tail
      else if c = mark then none else k cs := by
  have hclass := holds_ranges true [mark, '\\']
  simp only [map_cons, map_nil, contains_cons, contains_nil, Bool.or_false, Bool.bne_true] at hclass
  by_cases hc : c = '\\'
  · cases cs with
    | nil => simp [inside, run, holds_single, hclass, hc]
    | cons d cs => by_cases hd : d = '\n' <;>
        simp [inside, run, holds_single, holds_dot, hclass, hc, hd]
  · simp [inside, run, holds_single, hclass, hc, ite_not]

theorem repeat_inside (hmark : mark ≠ '\\') (h : cs.length ≤ fuel) :
    repeatWhile (inside mark).run fuel cs (fun rest => (Pattern.one (.single mark)).run rest some) =
      closing mark false cs := by
  induction fuel generalizing cs with
  | zero =>
    obtain rfl := length_eq_zero_iff.1 (Nat.le_zero.1 h)
    rfl
  | succ fuel ih =>
    cases cs with
    | nil => rfl
    | cons c cs =>
      have hclose : (Pattern.one (.single mark)).run (c :: cs) some = if c = mark then some cs else none := by
        rw [run, holds_single]
        simp only [beq_iff_eq]
      have hcs : cs.length ≤ fuel := Nat.le_of_succ_le_succ h
      rw [repeatWhile, hclose, run_inside, closing]
      by_cases hc : c = '\\'
      · cases cs with
        | nil => simp [hc, hmark.symm, closing]
        | cons d cs =>
          by_cases hd : d = '\n'
          · simp [hc, hmark.symm, hd, closing]
          · simp [hc, hmark.symm, hd, closing, ih (Nat.le_of_succ_le hcs)]
      · by_cases hm : c = mark <;> simp [hc, hm, hmark, ih hcs, beq_eq_false_iff_ne.2 hc]

theorem run_between (hmark : mark ≠ '\\') (c : Char) (cs : List Char) :
    (between mark).run (c :: cs) some = if c == mark then closing mark false cs else none := by
  rw [← repeat_inside hmark le_rfl, ← holds_single]
  rfl

theorem run_quoted (c : Char) (cs : List Char) : quoted.run (c :: cs) some =
    if c = '"' then closing '"' false cs else if c = '\'' then closing '\'' false cs else none := by
  rw [quoted, run, run_between (by decide), run_between (by decide)]
  by_cases hc : c = '"' <;> simp [hc]

theorem closing_of_plain (h : ∀ c ∈ text, c ≠ mark ∧ c ≠ '\\')
    (rest : List Char) : closing mark false (text ++ mark :: rest) = some rest := by
  induction text with
  | nil => simp [closing]
  | cons c text ih =>
    obtain ⟨hc, htext⟩ := forall_mem_cons.1 h
    simp [closing, hc.1, beq_eq_false_iff_ne.2 hc.2, ih htext]

/-- No part of the pattern takes a given character. Repetitions are of single characters. -/
def avoids (c : Char) : Pattern → Bool
  | .empty => true
  | .one k => !k.holds c
  | .seq p q | .alt p q => p.avoids c && q.avoids c
  | .star (.one k) => !k.holds c
  | .star _ => false

/-- A pattern does not see what stands behind a character that it avoids. -/
theorem run_append (v : List Char) {p : Pattern} (hp : p.avoids c = true)
    (hk : ∀ rest, k (rest ++ c :: v) = (k' rest).map (· ++ c :: v))
    (cs : List Char) : p.run (cs ++ c :: v) k = (p.run cs k').map (· ++ c :: v) := by
  induction p generalizing cs k k' with
  | empty => exact hk cs
  | one a =>
    have ha : a.holds c = false := by simpa [avoids] using hp
    cases cs with
    | nil => simp [run, ha]
    | cons d cs => by_cases hd : a.holds d <;> simp [run, hd, hk]
  | seq p q ihp ihq =>
    rw [avoids, Bool.and_eq_true] at hp
    exact ihp hp.1 (ihq hp.2 hk) cs
  | alt p q ihp ihq =>
    rw [avoids, Bool.and_eq_true] at hp
    rw [run, run, ihp hp.1 hk, ihq hp.2 hk]
    cases p.run cs k' <;> rfl
  | star p =>
    cases p with
    | one a =>
      have ha : a.holds c = false := by simpa [avoids] using hp
      rw [run, run]
      induction cs with
      | nil => simpa [repeatClass, ha] using hk []
      | cons d cs ih =>
        rw [cons_append, repeatClass, repeatClass, ih, ← cons_append, hk]
        cases a.holds d with
        | false => rfl
        | true => cases repeatClass a k' cs <;> rfl
    | _ => cases hp

end Pattern

end Tabc
