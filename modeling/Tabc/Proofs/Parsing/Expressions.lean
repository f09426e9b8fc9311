import Tabc.Proofs.Parsing.Stretches

/-!
# How the parser reads an expression

A `Place` is a prefix after which an expression is expected. What begins or continues an expression leads to
the same state from all of them, and the parse table is asked about places only.
-/

open List

namespace Tabc.Expression

open Tabc.Symbol (tok phrase)

deriving instance DecidableEq for Clause

def start : List Symbol := [tok .ident, tok .assign]

inductive Place where
  | assigned | grouped | argument | nextArgument | subscript | sliceStop | sliceOnlyStop | element
  | nextElement
  | signed (s : Sign)
  | operand (o : Operator)
deriving DecidableEq

namespace Place

def before : Place → List Symbol
  | assigned => start
  | grouped => start ++ [tok .lparen]
  | signed s => start ++ [tok s.kind]
  | operand o => start ++ [phrase .expression, tok o.kind]
  | argument => start ++ [phrase .expression, tok .lparen]
  | nextArgument => start ++ [phrase .expression, tok .lparen, phrase .argumentList, tok .comma]
  | subscript => start ++ [phrase .expression, tok .lbracket]
  | sliceStop => start ++ [phrase .expression, tok .lbracket, phrase .expression, tok .colon]
  | sliceOnlyStop => start ++ [phrase .expression, tok .lbracket, tok .colon]
  | element => start ++ [tok .lbracket]
  | nextElement => start ++ [phrase .list, tok .comma]

def level : Place → Int
  | signed _ => unaryStrength.level
  | operand o => o.level
  | _ => 0

def all : List Place :=
  [assigned, grouped, argument, nextArgument, subscript, sliceStop, sliceOnlyStop, element, nextElement,
    signed .minus, signed .not] ++ Operator.all.map operand

theorem mem_all (p : Place) : p ∈ all := by
  cases p with
  | signed s => cases s <;> decide
  | operand o => cases o <;> decide
  | _ => decide

end Place

def ends : List TokenKind :=
  Operator.all.map Operator.kind ++ [.lparen, .lbracket, .rparen, .comma, .rbracket, .colon, .newline]

def starts : List TokenKind := [.ident, .integer, .bool, .minus, .not, .lparen, .lbracket]

theorem Operator.kind_mem_ends (o : Operator) : o.kind ∈ ends := by
  cases o <;> decide

def origins : List Place := [.assigned, .grouped, .subscript]

def heads : List Phrase := [.expression, .primitiveLiteral]

/-- Tokens inside brackets, with all that stands before them. -/
def bracketed : List (List Symbol × TokenKind) :=
  [(Place.grouped.before ++ [phrase .expression], .rparen), (Place.subscript.before ++ [phrase .expression], .rbracket),
    (Place.subscript.before ++ [phrase .expression], .colon),
    (Place.sliceOnlyStop.before, .rbracket), (Place.subscript.before, .colon),
    (Place.sliceStop.before, .rbracket),
    (Place.sliceOnlyStop.before ++ [phrase .expression], .rbracket),
    (Place.sliceStop.before ++ [phrase .expression], .rbracket),
    (Place.argument.before ++ [phrase .argumentsOrEmpty], .rparen),
    (Place.argument.before ++ [phrase .argumentList], .comma)]

def argumentEnds : List (Phrase × TokenKind) :=
  [(.argumentsOrEmpty, .rparen), (.argumentList, .rparen), (.argumentList, .comma), (.empty, .rparen)]

/-- A token goes on with an expression that was read in a place, and leads where it leads from an
assignment. -/
abbrev Place.Opens (p : Place) (k : TokenKind) : Prop :=
  shifts .fourth (p.before ++ [phrase .expression]) k = true ∧
    kernelAfter .fourth (p.before ++ [phrase .expression, tok k]) =
      kernelAfter .fourth (start ++ [phrase .expression, tok k])

/-- What the table does in a place: where the beginning of an expression, a literal, an operator or
a bracket leads does not depend on the place. -/
theorem places_known : ∀ p ∈ Place.all, (∀ k ∈ starts, shifts .fourth p.before k = true ∧
      kernelAfter .fourth (p.before ++ [tok k]) = kernelAfter .fourth (start ++ [tok k])) ∧
    (∀ head ∈ heads, Viable .fourth (p.before ++ [phrase head])) ∧
    kernelAfter .fourth (p.before ++ [phrase .primitiveLiteral]) =
      kernelAfter .fourth (start ++ [phrase .primitiveLiteral]) ∧
    (∀ o ∈ Operator.all, p.level < o.level → p.Opens o.kind) ∧
    (p.level = 0 → ∀ k ∈ [TokenKind.lparen, TokenKind.lbracket], p.Opens k) := by decide +kernel

/-- What may follow an expression, and that the rules of expressions and literals are reduced
before it; only operators may have to wait. -/
theorem rules_known :
    (∀ k ∈ ends, ∃ p ∈ origins, shifts .fourth (p.before ++ [phrase .expression]) k = true) ∧
    (∀ p ∈ origins, ∀ head ∈ heads, predicts .fourth p.before head = true ∧ ∀ c ∈ clauses .fourth, c.head = head →
        kernelAfter .fourth (p.before ++ c.body) = kernelAfter .fourth (start ++ c.body)) ∧
    (∀ o ∈ Operator.all, ∀ k ∈ ends, o.yields k = true →
      reduces .fourth (start ++ [phrase .expression, tok o.kind, phrase .expression]) (tok k) = true) ∧
    (∀ c ∈ clauses .fourth, c.head ∈ heads → c.act ≠ .binary → ∀ k ∈ ends,
      reduces .fourth (start ++ c.body) (tok k) = true) := by decide +kernel

theorem brackets_known :
    (∀ b ∈ bracketed, shifts .fourth b.1 b.2 = true) ∧
    ∀ b ∈ argumentEnds, predicts .fourth Place.argument.before b.1 = true ∧
      Viable .fourth (Place.argument.before ++ [phrase b.1]) ∧
      ∀ c ∈ clauses .fourth, c.head = b.1 →
        reduces .fourth (Place.argument.before ++ c.body) (tok b.2) = true := by decide +kernel

variable {k : TokenKind} {head : Phrase} {body more : List Symbol} {act : Act} {unary : Bool}
  {v n : Node} {ws : List Word} {o : Option Operator} {vs : List Node} {b : Nat} {f : Symbol → Prop}
  {p : Place} {q q' q'' : Session}

/-- A token that may come after an expression and to which the open operator gives way. -/
def Follows (root : Option Operator) (s : Symbol) : Prop := ∃ k ∈ ends, s = tok k ∧ ∀ o ∈ root, o.yields k = true

theorem yields_of_weak (hk : (strength k).level = 0) (o : Operator) : o.yields k = true := by
  have hpos : ∀ o ∈ Operator.all, 0 < o.level := by decide
  unfold Operator.yields
  rw [hk, decide_eq_true (hpos o o.mem_all), Bool.true_or]

theorem follows_weak (hk : k ∈ ends ∧ (strength k).level = 0) : Follows o (tok k) :=
  ⟨k, hk.1, rfl, fun o _ => yields_of_weak hk.2 o⟩

/-- A rule of an expression or a literal is complete before what may follow. -/
theorem Place.completes (hc : ⟨head, body, act, unary⟩ ∈ clauses .fourth) (hhead : head ∈ heads)
    (hsame : kernelAfter .fourth (p.before ++ body) = kernelAfter .fourth (start ++ body))
    (hk : k ∈ ends) (hred : reduces .fourth (start ++ body) (tok k) = true) :
    Completes p.before head body (tok k) := by
  have hliteral : ⟨.expression, [phrase .primitiveLiteral], .pass, false⟩ ∈ clauses .fourth := by decide
  obtain ⟨origin, ho, hshift⟩ := rules_known.1 k hk
  have hfollow : MayFollow .fourth origin.before (phrase .expression) (tok k) := .read hshift
  obtain ⟨hpredicts, hsame'⟩ := rules_known.2.1 origin ho head hhead
  have hsame' := hsame' _ hc rfl
  refine ⟨origin.before, hsame'.trans hsame.symm, hpredicts, ?_, ?_⟩
  · rcases mem_pair.1 hhead with rfl | rfl
    · exact hfollow
    · have hinherit := MayFollow.inherit hliteral (rules_known.2.1 origin ho _ (.head _)).1 [] rfl hfollow
      rwa [List.append_nil] at hinherit
  · unfold reduces itemsAfter at hred ⊢
    rwa [hsame']

theorem Place.reduce (h : Pushes b p.before (Follows o) body vs ws q q')
    (hc : ⟨head, body, act, unary⟩ ∈ clauses .fourth) (hhead : head ∈ heads)
    (hsame : kernelAfter .fourth (p.before ++ body) = kernelAfter .fourth (start ++ body))
    (hval : (act.apply .fourth vs).run q' = .ok v q'')
    (hred : ∀ k ∈ ends, (∀ op ∈ o, op.yields k = true) → reduces .fourth (start ++ body) (tok k) = true) :
    Pushes (b + 1) p.before (Follows o) [phrase head] [v] ws q q'' := by
  refine h.reduce hc hval ?_ ((places_known p p.mem_all).2.1 head hhead)
  rintro _ ⟨k, hk, rfl, hyields⟩
  exact Place.completes hc hhead hsame hk (hred k hk hyields)

theorem reduces_closed (hc : ⟨head, body, act, unary⟩ ∈ clauses .fourth) (hhead : head ∈ heads)
    (hact : act ≠ .binary) (k : TokenKind) (hk : k ∈ ends) :
    reduces .fourth (start ++ body) (tok k) = true := rules_known.2.2.2 _ hc hhead hact k hk

/-- From the state of a place the parser reads some words and leaves an expression on its stack,
provided that what comes next may follow and the open operator gives way to it. -/
def Reads (p : Place) (root : Option Operator) (n : Node) (ws : List Word) : Prop :=
  ∀ q, Pushes (4 * ws.length) p.before (Follows root) [phrase .expression] [n] ws q q

theorem reads_literal (p : Place) (hstart : k ∈ starts)
    (hc : ⟨.primitiveLiteral, [tok k], .literal, false⟩ ∈ clauses .fourth) (a : Atom) :
    Reads p none (literalNode .fourth (.atom a)) [(k, a)] := by
  intro q
  have hpass : ⟨.expression, [phrase .primitiveLiteral], .pass, false⟩ ∈ clauses .fourth := by decide
  obtain ⟨hstarts, -, hsame', -⟩ := places_known p p.mem_all
  obtain ⟨hshift, hsame⟩ := hstarts k hstart
  have hliteral := Place.reduce ((pushes_nil _ (Follows none) q).first a hshift) hc (by decide)
    hsame rfl fun k hk _ => reduces_closed hc (by decide) (by decide) k hk
  exact (Place.reduce hliteral hpass (by decide) hsame' rfl fun k hk _ =>
    reduces_closed hpass (by decide) (by decide) k hk).mono (by simp)

/-- An expression that begins with a token. -/
theorem reads_from (p : Place) (hk : k ∈ starts) (a : Atom)
    (hc : ⟨.expression, tok k :: more, act, unary⟩ ∈ clauses .fourth) (hact : act ≠ .binary)
    (hmore : ∀ q, Pushes (4 * ws.length + 2) (start ++ [tok k]) (Follows none) more vs ws q q)
    (hval : ∀ q, (act.apply .fourth (.atom a :: vs)).run q = .ok n q) :
    Reads p none n ((k, a) :: ws) := by
  intro q
  obtain ⟨hshift, hsame⟩ := (places_known p p.mem_all).1 k hk
  have hsame' := kernelAfter_congr hsame more
  rw [List.append_assoc] at hsame'
  exact (Place.reduce (((hmore q).congr hsame.symm).first a hshift) hc (by decide) hsame' (hval q)
    fun k hk _ => reduces_closed hc (by decide) hact k hk).mono (by simp; omega)

/-- An expression that goes on after another one. -/
theorem reads_after (hx : Reads p o x wx) (hk : Follows o (tok k)) (a : Atom) (hopen : p.Opens k)
    (hc : ⟨.expression, phrase .expression :: tok k :: more, act, unary⟩ ∈ clauses .fourth)
    (hred : ∀ k' ∈ ends, (∀ op ∈ root, op.yields k' = true) →
      reduces .fourth (start ++ phrase .expression :: tok k :: more) (tok k') = true)
    (hmore : ∀ q, Pushes (4 * ws.length + 2) (start ++ [phrase .expression, tok k]) (Follows root) more vs ws q q)
    (hval : ∀ q, (act.apply .fourth (x :: .atom a :: vs)).run q = .ok n q) :
    Reads p root n (wx ++ (k, a) :: ws) := by
  intro q
  obtain ⟨hshift, hsame⟩ := hopen
  have hsame' := kernelAfter_congr hsame more
  rw [List.append_assoc] at hsame'
  have hmore' := (hmore q).congr hsame.symm
  rw [← singleton_append, ← List.append_assoc] at hmore'
  refine (Place.reduce ((hx q).next hk a hshift hmore') hc (by decide) hsame' (hval q) hred).mono ?_
  simp
  omega

theorem reads_opened (hp : p.level = 0) (hx : Reads p o x wx)
    (hk : k ∈ [TokenKind.lparen, TokenKind.lbracket]) (a : Atom)
    (hc : ⟨.expression, phrase .expression :: tok k :: more, act, unary⟩ ∈ clauses .fourth)
    (hact : act ≠ .binary)
    (hmore : ∀ q, Pushes (4 * ws.length + 2) (start ++ [phrase .expression, tok k]) (Follows none) more vs ws q q)
    (hval : ∀ q, (act.apply .fourth (x :: .atom a :: vs)).run q = .ok n q) :
    Reads p none n (wx ++ (k, a) :: ws) := by
  have hweak : ∀ k ∈ [TokenKind.lparen, TokenKind.lbracket], k ∈ ends ∧ (strength k).level = 0 := by decide
  exact reads_after hx (follows_weak (hweak k hk)) a ((places_known p p.mem_all).2.2.2.2 hp k hk) hc
    (fun k' hk' _ => reduces_closed hc (by decide) hact k' hk') hmore hval

theorem reads_sign (p : Place) (s : Sign) (text : String) (h : Reads (.signed s) none n ws) :
    Reads p none (.unary text n) ((s.kind, .text text) :: ws) := by
  have hc : ⟨.expression, [tok s.kind, phrase .expression], .unary, true⟩ ∈ clauses .fourth := by
    cases s <;> decide
  exact reads_from p (by cases s <;> decide) (.text text) hc (by decide) (fun q => (h q).mono (by omega)) fun _ => rfl

theorem reads_operator (text : String) (hlevel : p.level < op.level) (hx : Reads p o x wx)
    (ho : ∀ q ∈ o, q.yields op.kind = true) (hy : Reads (.operand op) o' y wy)
    (ho' : ∀ q ∈ o', op.level < q.level) :
    Reads p (some op) (.binary x text y) (wx ++ (op.kind, .text text) :: wy) := by
  have hall : ∀ op ∈ Operator.all, ⟨.expression,
      [phrase .expression, tok op.kind, phrase .expression], .binary, false⟩ ∈ clauses .fourth := by decide
  refine reads_after hx ⟨_, op.kind_mem_ends, rfl, ho⟩ (.text text)
    ((places_known p p.mem_all).2.2.2.1 op op.mem_all hlevel) (hall op op.mem_all)
    (fun k hk hyields => rules_known.2.2.1 op op.mem_all k hk (hyields op rfl))
    (fun q => show Pushes _ _ _ _ [y] _ q q from ((hy q).mono (by omega)).follow ?_) fun _ => rfl
  rintro _ ⟨k, hk, rfl, hyields⟩
  exact ⟨k, hk, rfl, fun q hq => Operator.yields_of_lt (hyields op rfl) (ho' q hq)⟩

theorem shifts_bracketed (h : (before, k) ∈ bracketed) : shifts .fourth before k = true :=
  brackets_known.1 (before, k) h

/-- The last token of an expression. -/
theorem pushes_last (a : Atom) (h : (before, k) ∈ bracketed) (q : Session) :
    Pushes 1 before f [tok k] [.atom a] [(k, a)] q q := (pushes_nil _ _ q).first a (shifts_bracketed h)

/-- The last expression inside brackets. -/
theorem Reads.closed (h : Reads p o n ws) (a : Atom) (hk : k ∈ ends ∧ (strength k).level = 0)
    (hshift : (p.before ++ [phrase .expression], k) ∈ bracketed) (q : Session) :
    Pushes (4 * (ws ++ [(k, a)]).length) p.before f [phrase .expression, tok k] [n, .atom a] (ws ++ [(k, a)]) q q := by
  refine ((h q).next (follows_weak hk) a (shifts_bracketed hshift) (pushes_nil _ f q)).mono ?_
  rw [length_append, length_singleton]
  omega

theorem reads_name (p : Place) (x : String) : Reads p none (.ident x) [(.ident, .text x)] := by
  have hc : ⟨.expression, [tok .ident], .name, false⟩ ∈ clauses .fourth := by decide
  exact reads_from p (by decide) (.text x) hc (by decide) (fun q => (pushes_nil _ _ q).mono (by omega)) fun _ => rfl

theorem reads_paren (p : Place) (h : Reads .grouped o n ws) : Reads p none n (lparen :: (ws ++ [rparen])) := by
  have hc : ⟨.expression, [tok .lparen, phrase .expression, tok .rparen], .inner, false⟩ ∈ clauses .fourth := by decide
  exact reads_from p (by decide) _ hc (by decide)
    (fun q => (h.closed _ (by decide) (by decide) q).mono (Nat.le_add_right _ 2)) fun _ => rfl

section

variable (hp : p.level = 0) {o' o'' : Option Operator} {x s s' : Node} {wx ws' : List Word} (hx : Reads p o x wx)

include hp hx

theorem reads_index (hs : Reads .subscript o' s ws) :
    Reads p none (.index x s) (wx ++ lbracket :: (ws ++ [rbracket])) := by
  have hc : ⟨.expression, [phrase .expression, tok .lbracket, phrase .expression, tok .rbracket],
      .index, false⟩ ∈ clauses .fourth := by decide
  exact reads_opened hp hx (by decide) _ hc (by decide)
    (fun q => (hs.closed _ (by decide) (by decide) q).mono (Nat.le_add_right _ 2)) fun _ => rfl

theorem reads_sliceAll : Reads p none (.slice x .none .none) (wx ++ [lbracket, colon, rbracket]) := by
  have hc : ⟨.expression, [phrase .expression, tok .lbracket, tok .colon, tok .rbracket],
      .sliceAll, false⟩ ∈ clauses .fourth := by decide
  exact reads_opened hp hx (by decide) _ hc (by decide)
    (fun q => ((pushes_last _ (by decide) q).first _ (shifts_bracketed (by decide))).mono (by decide))
    fun _ => rfl

theorem reads_sliceFrom (hs : Reads .subscript o' s ws) :
    Reads p none (.slice x s .none) (wx ++ lbracket :: (ws ++ [colon, rbracket])) := by
  have hc : ⟨.expression, [phrase .expression, tok .lbracket, phrase .expression, tok .colon,
      tok .rbracket], .sliceFrom, false⟩ ∈ clauses .fourth := by decide
  refine reads_opened hp hx (by decide) _ hc (by decide) (fun q => ((hs q).next
    (follows_weak (by decide)) _ (shifts_bracketed (by decide)) (pushes_last _ (by decide) q)).mono ?_)
    fun _ => rfl
  simp

theorem reads_sliceTo (hs : Reads .sliceOnlyStop o' s ws) :
    Reads p none (.slice x .none s) (wx ++ lbracket :: colon :: (ws ++ [rbracket])) := by
  have hc : ⟨.expression, [phrase .expression, tok .lbracket, tok .colon, phrase .expression,
      tok .rbracket], .sliceTo, false⟩ ∈ clauses .fourth := by decide
  have hcolon : shifts .fourth (start ++ [phrase .expression, tok .lbracket]) .colon = true :=
    shifts_bracketed (by decide)
  refine reads_opened hp hx (by decide) _ hc (by decide) (fun q => Pushes.mono
    (.first _ hcolon (hs.closed _ (by decide) (by decide) q)) ?_) fun _ => rfl
  simp
  omega

theorem reads_slice (hs : Reads .subscript o' s ws) (hs' : Reads .sliceStop o'' s' ws') :
    Reads p none (.slice x s s') (wx ++ lbracket :: (ws ++ colon :: (ws' ++ [rbracket]))) := by
  have hc : ⟨.expression, [phrase .expression, tok .lbracket, phrase .expression, tok .colon,
      phrase .expression, tok .rbracket], .slice, false⟩ ∈ clauses .fourth := by decide
  refine reads_opened hp hx (by decide) _ hc (by decide) (fun q => ((hs q).next
    (follows_weak (by decide)) _ (shifts_bracketed (by decide))
    (hs'.closed _ (by decide) (by decide) q)).mono ?_) fun _ => rfl
  simp
  omega

end

theorem mayFollow_argument (h : (head, k) ∈ argumentEnds) :
    MayFollow .fourth Place.argument.before (phrase head) (tok k) := by
  have hpredicts : predicts .fourth Place.argument.before .argumentsOrEmpty = true :=
    (brackets_known.2 (.argumentsOrEmpty, .rparen) (by decide)).1
  have harguments : MayFollow .fourth Place.argument.before (phrase .argumentsOrEmpty)
      (tok .rparen) := .read (shifts_bracketed (by decide))
  -- a list of arguments, empty or not, ends where the arguments end
  have hlast : ∀ head ∈ [Phrase.argumentList, .empty],
      MayFollow .fourth Place.argument.before (phrase head) (tok .rparen) := by
    intro head hhead
    have hc : ∀ head ∈ [Phrase.argumentList, .empty],
        ⟨.argumentsOrEmpty, [phrase head], .args, false⟩ ∈ clauses .fourth := by decide
    have hinherit := MayFollow.inherit (hc head hhead) hpredicts [] rfl harguments
    rwa [List.append_nil] at hinherit
  simp only [argumentEnds, mem_cons, Prod.mk.injEq, not_mem_nil, or_false] at h
  rcases h with ⟨rfl, rfl⟩ | ⟨rfl, rfl⟩ | ⟨rfl, rfl⟩ | ⟨rfl, rfl⟩
  · exact harguments
  · exact hlast _ (by decide)
  · exact .read (shifts_bracketed (by decide))
  · exact hlast _ (by decide)

/-- A token that may come after a part of the arguments. -/
def Bounds (head : Phrase) (s : Symbol) : Prop := ∃ k, (head, k) ∈ argumentEnds ∧ s = tok k

theorem pushes_argument (hc : ⟨head, body, act, unary⟩ ∈ clauses .fourth)
    (hf : ∀ s, f s → Bounds head s) (h : Pushes b Place.argument.before f body vs ws q q)
    (hval : (act.apply .fourth vs).run q = .ok v q) :
    Pushes (b + 1) Place.argument.before f [phrase head] [v] ws q q := by
  intro is ss ts rest hts hrest
  obtain ⟨k, hk, hs⟩ := hf _ hrest
  obtain ⟨hpredicts, hviable, hred⟩ := brackets_known.2 _ hk
  refine (h.follow fun s (hs' : f s ∧ s = tok k) => hs'.1).reduce hc hval ?_ hviable is ss ts rest hts ⟨hrest, hs⟩
  rintro s ⟨-, rfl⟩
  exact ⟨_, rfl, hpredicts, mayFollow_argument hk, hred _ hc rfl⟩

theorem follows_argument {s : Symbol} (h : Bounds .argumentList s) : Follows o s := by
  obtain ⟨k, hk, rfl⟩ := h
  have hall : ∀ b ∈ argumentEnds, b.2 ∈ ends ∧ (strength b.2).level = 0 := by decide
  exact follows_weak (hall _ hk)

theorem pushes_argumentList (parts : List Part) (h : ∀ a ∈ parts, Reads .nextArgument a.root a.tree.node a.words)
    (hfirst : Pushes b Place.argument.before (Bounds .argumentList) [phrase .argumentList] [.list nodes] ws q q) :
    Pushes (b + 4 * ((parts.map Part.words).flatMap (comma :: ·)).length) Place.argument.before
      (Bounds .argumentList) [phrase .argumentList] [.list (nodes ++ parts.map (·.tree.node))]
      (ws ++ (parts.map Part.words).flatMap (comma :: ·)) q q := by
  induction parts generalizing b nodes ws with
  | nil => simpa using hfirst
  | cons a parts ih =>
    have hc : ⟨.argumentList, [phrase .argumentList, tok .comma, phrase .expression], .extendComma,
        false⟩ ∈ clauses .fourth := by decide
    have hnext := pushes_argument hc (fun _ hs => hs) (hfirst.next ⟨.comma, by decide, rfl⟩ (.text ",")
      (shifts_bracketed (by decide)) ((h a (.head _) q).follow fun _ => follows_argument)) rfl
    have hrest := ih (fun a ha => h a (.tail _ ha)) hnext
    rw [List.append_assoc, List.append_assoc] at hrest
    refine hrest.mono ?_
    rw [map_cons, flatMap_cons, cons_append, length_cons, length_append]
    omega

theorem pushes_arguments (parts : List Part) (h : ∀ a ∈ parts, Reads .argument a.root a.tree.node a.words ∧
      Reads .nextArgument a.root a.tree.node a.words) (q : Session) :
    Pushes (4 * (separated (parts.map Part.words)).length + 2) Place.argument.before
      (Bounds .argumentsOrEmpty) [phrase .argumentsOrEmpty]
      [.args (some (parts.map (·.tree.node)))] (separated (parts.map Part.words)) q q := by
  have hends : ∀ s, Bounds .argumentsOrEmpty s → ∀ head ∈ [Phrase.argumentList, .empty], Bounds head s := by
    have hall : ∀ b ∈ argumentEnds, b.1 = .argumentsOrEmpty →
        ∀ head ∈ [Phrase.argumentList, .empty], (head, b.2) ∈ argumentEnds := by decide
    rintro _ ⟨k, hk, rfl⟩ head hhead
    exact ⟨k, hall _ hk rfl head hhead, rfl⟩
  cases parts with
  | nil =>
    have hempty : ⟨.empty, [], .nothing, false⟩ ∈ clauses .fourth := by decide
    have hc : ⟨.argumentsOrEmpty, [phrase .empty], .args, false⟩ ∈ clauses .fourth := by decide
    exact pushes_argument hc (fun _ hs => hs)
      (pushes_argument hempty (fun s hs => hends s hs _ (by decide)) (pushes_nil _ _ q) rfl) rfl
  | cons a parts =>
    have hfirst : ⟨.argumentList, [phrase .expression], .single, false⟩ ∈ clauses .fourth := by decide
    have hc : ⟨.argumentsOrEmpty, [phrase .argumentList], .args, false⟩ ∈ clauses .fourth := by decide
    have hlist := pushes_argumentList parts (fun a ha => (h a (.tail _ ha)).2)
      (pushes_argument hfirst (fun _ hs => hs) (((h a (.head _)).1 q).follow fun _ => follows_argument) rfl)
    rw [map_cons, separated_cons]
    refine (pushes_argument hc (fun _ hs => hs) (hlist.follow fun s hs => hends s hs _ (by decide)) rfl).mono ?_
    rw [length_append]
    omega

theorem reads_call (hp : p.level = 0) (hx : Reads p o x wx) (parts : List Part)
    (h : ∀ a ∈ parts, Reads .argument a.root a.tree.node a.words ∧ Reads .nextArgument a.root a.tree.node a.words) :
    Reads p none (.call x (.args (some (parts.map (·.tree.node)))))
      (wx ++ lparen :: (separated (parts.map Part.words) ++ [rparen])) := by
  have hc : ⟨.expression, [phrase .expression, tok .lparen, phrase .argumentsOrEmpty,
      tok .rparen], .call, false⟩ ∈ clauses .fourth := by decide
  refine reads_opened hp hx (by decide) _ hc (by decide) (fun q => ((pushes_arguments parts h q).next
    ⟨.rparen, by decide, rfl⟩ _ (shifts_bracketed (by decide)) (pushes_nil _ _ q)).mono ?_) fun _ => rfl
  simp

theorem Written.reads (h : Written m o e ws) : ∀ p : Place, p.level = m → Reads p o e.node ws := by
  induction h with
  | name m x => exact fun p _ => reads_name p x
  | int m n => exact fun p _ => reads_literal p (by decide) (by decide) (.int n)
  | bool m b => exact fun p _ => reads_literal p (by decide) (by decide) (.bool b)
  | paren m h ih => exact fun p _ => reads_paren p (ih .grouped rfl)
  | sign m s text h ih => exact fun p _ => reads_sign p s text (ih (.signed s) rfl)
  | operator op text hm hx ho hy ihx ihy =>
    intro p hp
    rw [← hp] at hm
    refine reads_operator text hm (ihx p hp) ho (ihy (.operand op) rfl) ?_
    rintro q ⟨⟩
    exact hy.level_lt
  | call hf hargs ihf ihargs =>
    intro p hp
    rw [Tree.node, Tree.nodes_eq_map, map_map]
    exact reads_call hp (ihf p hp) _ fun a ha => ⟨ihargs a ha .argument rfl, ihargs a ha .nextArgument rfl⟩
  | index hx hi ihx ihi => exact fun p hp => reads_index hp (ihx p hp) (ihi .subscript rfl)
  | sliceAll hx ihx => exact fun p hp => reads_sliceAll hp (ihx p hp)
  | sliceFrom hx hs ihx ihs => exact fun p hp => reads_sliceFrom hp (ihx p hp) (ihs .subscript rfl)
  | sliceTo hx ht ihx iht => exact fun p hp => reads_sliceTo hp (ihx p hp) (iht .sliceOnlyStop rfl)
  | slice hx hs ht ihx ihs iht => exact fun p hp => reads_slice hp (ihx p hp) (ihs .subscript rfl) (iht .sliceStop rfl)

end Tabc.Expression
