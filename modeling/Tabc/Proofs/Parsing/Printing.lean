import Tabc.Proofs.Parsing.Acceptance

/-!
# Printed expressions are read back

`Tree.write enc` writes an expression with the parts that `enc` decides on in parentheses. If the decision is
`Sound` the parser reads it back (`readTokens_enclosed`, `readTokens_minimal`). That by the strengths of
Python is not (`readTokens_python_ne`).
-/

namespace Tabc.Expression

/-- Where a part of an expression stands. -/
inductive Slot where
  | left (o : Operator)
  | right (o : Operator)
  | signed (s : Sign)
  | applied
  | bracketed

/-- Decides whether a part stands in parentheses; the truth value says that an operator or a sign
stands before it on the same level of brackets. -/
abbrev Encloses := Slot → Bool → Tree → Bool

def enclose (enclosed after : Bool) (words : Bool → List Word) : List Word :=
  if enclosed then lparen :: (words false ++ [rparen]) else words after

mutual

def Tree.write (enc : Encloses) : Tree → Bool → List Word
  | .name x, _ => [(.ident, .text x)]
  | .int n, _ => [(.integer, .int n)]
  | .bool b, _ => [(.bool, .bool b)]
  | .sign s text x, _ => (s.kind, .text text) :: enclose (enc (.signed s) true x) true (x.write enc)
  | .operator o text x y, after =>
    enclose (enc (.left o) after x) after (x.write enc) ++
      (o.kind, .text text) :: enclose (enc (.right o) true y) true (y.write enc)
  | .call f args, after =>
    enclose (enc .applied after f) after (f.write enc) ++ lparen :: (separated (Tree.writeAll enc args) ++ [rparen])
  | .index x i, after =>
    enclose (enc .applied after x) after (x.write enc) ++
      lbracket :: (enclose (enc .bracketed false i) false (i.write enc) ++ [rbracket])
  | .sliceAll x, after => enclose (enc .applied after x) after (x.write enc) ++ [lbracket, colon, rbracket]
  | .sliceFrom x s, after =>
    enclose (enc .applied after x) after (x.write enc) ++
      lbracket :: (enclose (enc .bracketed false s) false (s.write enc) ++ [colon, rbracket])
  | .sliceTo x t, after =>
    enclose (enc .applied after x) after (x.write enc) ++
      lbracket :: colon :: (enclose (enc .bracketed false t) false (t.write enc) ++ [rbracket])
  | .slice x s t, after =>
    enclose (enc .applied after x) after (x.write enc) ++
      lbracket :: (enclose (enc .bracketed false s) false (s.write enc) ++
        colon :: (enclose (enc .bracketed false t) false (t.write enc) ++ [rbracket]))

def Tree.writeAll (enc : Encloses) : List Tree → List (List Word)
  | [] => []
  | e :: es => enclose (enc .bracketed false e) false (e.write enc) :: Tree.writeAll enc es

end

theorem Tree.writeAll_eq_map (enc : Encloses) (es : List Tree) :
    Tree.writeAll enc es = es.map fun e => enclose (enc .bracketed false e) false (e.write enc) := by
  induction es with
  | nil => rfl
  | cons e es ih => rw [Tree.writeAll, ih, List.map_cons]

def Tree.root : Tree → Option Operator
  | .operator o _ _ _ => some o
  | _ => none

/-- Brackets follow an expression at the root. -/
def Tree.isSuffixed : Tree → Bool
  | .call _ _ | .index _ _ | .sliceAll _ | .sliceFrom _ _ | .sliceTo _ _ | .slice _ _ _ => true
  | _ => false

/-- An expression may stand bare where an operator of a level waits. -/
structure Tree.Fits (m : Int) (e : Tree) : Prop where
  root : ∀ o ∈ e.root, m < o.level
  suffixed : e.isSuffixed = true → m = 0

theorem Tree.fits_zero (e : Tree) : e.Fits 0 := by
  refine ⟨fun o _ => ?_, fun _ => rfl⟩
  have hpos : ∀ o ∈ Operator.all, 0 < o.level := by decide
  exact hpos o o.mem_all

theorem Operator.level_le_of_yields {p o : Operator} (h : p.yields o.kind = true) : o.level ≤ p.level := by
  unfold Operator.yields at h
  simp only [Bool.or_eq_true, Bool.and_eq_true, decide_eq_true_eq, beq_iff_eq] at h
  rcases h with hlt | ⟨heq, -⟩
  · exact hlt.le
  · exact heq.le

/-- What stands bare may be grouped with its surroundings by strengths alone. -/
structure Sound (enc : Encloses) : Prop where
  left : ∀ {o after x}, enc (.left o) after x = false →
    (∀ p ∈ x.root, p.yields o.kind = true) ∧ (x.isSuffixed = true → after = false)
  right : ∀ {o x}, enc (.right o) true x = false → x.Fits o.level
  signed : ∀ {s x}, enc (.signed s) true x = false → x.root = none ∧ x.isSuffixed = false

def openRoot (enclosed : Bool) (e : Tree) : Option Operator := if enclosed then none else e.root

/-- An expression has a writing for every place it fits in. -/
def Writes (e : Tree) (words : Bool → List Word) : Prop :=
  ∀ m after, (after = false → m = 0) → e.Fits m → Written m e.root e (words after)

theorem Writes.enclose (h : Writes e words) (hafter : after = false → m = 0) (hfits : enclosed = false → e.Fits m) :
    Written m (openRoot enclosed e) e (enclose enclosed after words) := by
  cases enclosed with
  | true => exact .paren m (h 0 false (fun _ => rfl) e.fits_zero)
  | false => exact h m after hafter (hfits rfl)

theorem Writes.unhindered (h : Writes e words) (enclosed after : Bool) :
    Written 0 (openRoot enclosed e) e (Expression.enclose enclosed after words) :=
  h.enclose (fun _ => rfl) fun _ => e.fits_zero

variable {enc : Encloses}

mutual

theorem Sound.writes (h : Sound enc) : ∀ e : Tree, Writes e (e.write enc)
  | .name x => fun m _ _ _ => .name m x
  | .int n => fun m _ _ _ => .int m n
  | .bool b => fun m _ _ _ => .bool m b
  | .sign s text x => by
    intro m after _ _
    have hfits : enc (.signed s) true x = false → x.Fits unaryStrength.level := by
      intro henc
      obtain ⟨hroot, hsuffixed⟩ := h.signed henc
      exact ⟨by simp [hroot], by simp [hsuffixed]⟩
    have hx := (h.writes x).enclose (show true = false → _ from nofun) hfits
    have hroot : openRoot (enc (.signed s) true x) x = none := by
      cases henc : enc (.signed s) true x with
      | true => rfl
      | false => exact (h.signed henc).1
    rw [hroot] at hx
    exact .sign m s text hx
  | .operator o text x y => by
    intro m after hafter hfits
    have hm : m < o.level := hfits.root o rfl
    have hleft : enc (.left o) after x = false → x.Fits m := by
      intro henc
      obtain ⟨hyields, hsuffixed⟩ := h.left henc
      exact ⟨fun p hp => hm.trans_le (Operator.level_le_of_yields (hyields p hp)), fun hx => hafter (hsuffixed hx)⟩
    have hopen : ∀ p ∈ openRoot (enc (.left o) after x) x, p.yields o.kind = true := by
      cases henc : enc (.left o) after x with
      | true => simp [openRoot]
      | false => exact (h.left henc).1
    exact .operator o text hm ((h.writes x).enclose hafter hleft) hopen ((h.writes y).enclose (by simp) h.right)
  | .call f args => by
    intro m after _ hfits
    obtain rfl : m = 0 := hfits.suffixed rfl
    have hargs : ∀ a ∈ args.map fun e => (⟨openRoot (enc .bracketed false e) e, e,
        enclose (enc .bracketed false e) false (e.write enc)⟩ : Part),
        Written 0 a.root a.tree a.words := by
      intro a ha
      obtain ⟨e, he, rfl⟩ := List.mem_map.1 ha
      exact (h.writesAll args e he).unhindered _ _
    have hcall := Written.call ((h.writes f).unhindered (enc .applied after f) after) hargs
    simpa [Function.comp_def, Tree.write, Tree.writeAll_eq_map, Tree.root] using hcall
  | .index x i => by
    intro m after _ hfits
    obtain rfl : m = 0 := hfits.suffixed rfl
    exact .index ((h.writes x).unhindered _ _) ((h.writes i).unhindered _ _)
  | .sliceAll x => by
    intro m after _ hfits
    obtain rfl : m = 0 := hfits.suffixed rfl
    exact .sliceAll ((h.writes x).unhindered _ _)
  | .sliceFrom x s => by
    intro m after _ hfits
    obtain rfl : m = 0 := hfits.suffixed rfl
    exact .sliceFrom ((h.writes x).unhindered _ _) ((h.writes s).unhindered _ _)
  | .sliceTo x t => by
    intro m after _ hfits
    obtain rfl : m = 0 := hfits.suffixed rfl
    exact .sliceTo ((h.writes x).unhindered _ _) ((h.writes t).unhindered _ _)
  | .slice x s t => by
    intro m after _ hfits
    obtain rfl : m = 0 := hfits.suffixed rfl
    exact .slice ((h.writes x).unhindered _ _) ((h.writes s).unhindered _ _) ((h.writes t).unhindered _ _)

theorem Sound.writesAll (h : Sound enc) : ∀ es : List Tree, ∀ e ∈ es, Writes e (e.write enc)
  | [], e, he => by cases he
  | e' :: es, e, he => by
    rcases List.mem_cons.1 he with heq | hmem
    · rw [heq]
      exact h.writes e'
    · exact h.writesAll es e hmem

end

/-- An expression of more than one word. -/
def Tree.isCompound : Tree → Bool
  | .name _ | .int _ | .bool _ => false
  | _ => true

def enclosesAll : Encloses := fun _ _ e => e.isCompound

/-- The words of an expression with every compound part in parentheses, and also the whole if asked
for. -/
def Tree.enclosed (whole : Bool) (e : Tree) : List Word := enclose (whole && e.isCompound) false (e.write enclosesAll)

theorem sound_enclosesAll : Sound enclosesAll where
  left {_ _ x} h := by cases x <;> simp_all [enclosesAll, Tree.isCompound, Tree.root, Tree.isSuffixed]
  right {_ x} h := by constructor <;> cases x <;> simp_all [enclosesAll, Tree.isCompound, Tree.root, Tree.isSuffixed]
  signed {_ x} h := by cases x <;> simp_all [enclosesAll, Tree.isCompound, Tree.root, Tree.isSuffixed]

def Tree.isSigned : Tree → Bool
  | .sign _ _ _ => true
  | _ => false

/-- Encloses what the strengths of the parser would group otherwise, and calls, indices and slices
that follow an operator or a sign. -/
def needs : Encloses
  | .left o, after, x => x.root.any (!·.yields o.kind) || x.isSuffixed && after
  | .right o, _, x => x.root.any (·.level ≤ o.level) || x.isSuffixed
  | .signed _, _, x => x.root.isSome || x.isSuffixed
  | .applied, _, x => x.root.isSome || x.isSigned
  | .bracketed, _, _ => false

theorem sound_needs : Sound needs where
  left {o after x} h := by
    cases hx : x.root <;> simp_all [needs]
  right {o x} h := by constructor <;> cases hx : x.root <;> simp_all [needs]
  signed {_ x} h := by simpa [needs] using h

def Operator.pythonLevel : Operator → Nat
  | .or => 1
  | .and => 2
  | .atLeast | .atMost | .greater | .less | .equal | .notEqual => 4
  | .xor => 5
  | .plus | .minus => 6
  | .times | .divide | .percent => 7

def Sign.pythonLevel : Sign → Nat
  | .not => 3
  | .minus => 8

/-- The rank of the root of an expression in Python. -/
def Tree.pythonLevel (e : Tree) : Nat :=
  match e with
  | .operator o _ _ _ => o.pythonLevel
  | .sign s _ _ => s.pythonLevel
  | e => if e.isSuffixed then 9 else 10

/-- Encloses what Python would group otherwise; one comparison does not stand bare in another. -/
def needsPython : Encloses
  | .left o, _, x => x.pythonLevel < o.pythonLevel || o.pythonLevel == 4 && x.pythonLevel == 4
  | .right o, _, x => x.pythonLevel ≤ o.pythonLevel
  | .signed s, _, x => x.pythonLevel < s.pythonLevel
  | .applied, _, x => x.pythonLevel < 9
  | .bracketed, _, _ => false

theorem Sound.readTokens_eq (h : Sound enc) (e : Tree) (whole : Bool)
    (hts : ts.map wordOf = assignmentWords x (enclose whole false (e.write enc))) :
    readTokens .fourth ts = .ok [.assign (.ident x) .none e.node] :=
  readTokens_of_written ((h.writes e).unhindered whole false) hts

/-- An expression in which every compound part is enclosed is read back. -/
theorem readTokens_enclosed (e : Tree) (whole : Bool) {x : String} {ts : List Token}
    (hts : ts.map wordOf = assignmentWords x (e.enclosed whole)) :
    readTokens .fourth ts = .ok [.assign (.ident x) .none e.node] :=
  sound_enclosesAll.readTokens_eq e (whole && e.isCompound) hts

/-- The expression `f(a + 1, not b)[-i:j] % 2`. -/
def slicedCall : Tree :=
  .operator .percent "%"
    (.slice (.call (.name "f") [.operator .plus "+" (.name "a") (.int 1), .sign .not "not" (.name "b")])
      (.sign .minus "-" (.name "i")) (.name "j"))
    (.int 2)

theorem readTokens_enclosed_slicedCall :
    (tokensOf (assignmentWords "x" (slicedCall.enclosed true))).map wordOf =
        assignmentWords "x" (slicedCall.enclosed true) ∧
      readTokens .fourth (tokensOf (assignmentWords "x" (slicedCall.enclosed true))) =
        .ok [.assign (.ident "x") .none slicedCall.node] :=
  ⟨map_wordOf_tokensOf _, readTokens_enclosed slicedCall true (map_wordOf_tokensOf _)⟩

/-- An expression with the parentheses that the strengths ask for is read back. -/
theorem readTokens_minimal (e : Tree) {x : String} {ts : List Token}
    (hts : ts.map wordOf = assignmentWords x (e.write needs false)) :
    readTokens .fourth ts = .ok [.assign (.ident x) .none e.node] := sound_needs.readTokens_eq e false hts

/-- The words of `f(a + 1, not b)[-i:j] % 2` need no parentheses of their own. -/
example : slicedCall.write needs false =
    [(.ident, .text "f"), lparen, (.ident, .text "a"), (.plus, .text "+"), (.integer, .int 1), comma,
      (.not, .text "not"), (.ident, .text "b"), rparen, lbracket, (.minus, .text "-"),
      (.ident, .text "i"), colon, (.ident, .text "j"), rbracket, (.percent, .text "%"),
      (.integer, .int 2)] := rfl

/-- The expression `-a * (f(b) - c) <= 7 and d`, with the comparison weakest. -/
def boundedProduct : Tree :=
  .operator .atMost "<=" (.operator .times "*" (.sign .minus "-" (.name "a"))
      (.operator .minus "-" (.call (.name "f") [.name "b"]) (.name "c")))
    (.operator .and "and" (.int 7) (.name "d"))

theorem readTokens_minimal_boundedProduct :
    (tokensOf (assignmentWords "x" (boundedProduct.write needs false))).map wordOf =
        assignmentWords "x" (boundedProduct.write needs false) ∧
      readTokens .fourth (tokensOf (assignmentWords "x" (boundedProduct.write needs false))) =
        .ok [.assign (.ident "x") .none boundedProduct.node] :=
  ⟨map_wordOf_tokensOf _, readTokens_minimal boundedProduct (map_wordOf_tokensOf _)⟩

/-- The expression `(a == b) and c`. -/
def comparedAnd : Tree := .operator .and "and" (.operator .equal "==" (.name "a") (.name "b")) (.name "c")

/-- Where Python needs no parentheses the parser may: a comparison is weaker than `and`. -/
theorem readTokens_python_ne :
    comparedAnd.write needsPython false =
        [(.ident, .text "a"), (.equal, .text "=="), (.ident, .text "b"), (.and, .text "and"), (.ident, .text "c")] ∧
      readTokens .fourth (tokensOf (assignmentWords "x" (comparedAnd.write needsPython false))) ≠
        .ok [.assign (.ident "x") .none comparedAnd.node] := by
  have hread : readTokens .fourth (tokensOf (assignmentWords "x" (comparedAnd.write needsPython false))) =
      .ok [.assign (.ident "x") .none (.binary (.ident "a") "==" (.binary (.ident "b") "and" (.ident "c")))] :=
    sound_needs.readTokens_eq (.operator .equal "==" (.name "a")
      (.operator .and "and" (.name "b") (.name "c"))) false (map_wordOf_tokensOf _)
  refine ⟨rfl, ?_⟩
  rw [hread]
  simp [comparedAnd, Tree.node]

end Tabc.Expression
