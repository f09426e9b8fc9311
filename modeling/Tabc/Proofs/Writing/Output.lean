import Tabc.Proofs.Writing.Expressions
import Tabc.Target.Piece

/-!
# Reading the body of an output file

`readBody` reads the lines of an output file as a core program, so that `Block.run` says what it does; a
declaration does nothing.
-/

open List

namespace Tabc.Core

open String (toList_append)
open Target.Piece (margin)

def arithMark : BinOp → Option String
  | .add => some "+"
  | .sub => some "-"
  | .mul => some "*"
  | _ => none

def compareMark : CmpOp → Option String
  | .lt => some "<"
  | .le => some "<="
  | .gt => some ">"
  | .ge => some ">="
  | .eq => some "=="
  | .ne => some "!="
  | _ => none

namespace Term

def ofArith : Expr → Option Term
  | .const (.int n) => some (.const (.int n))
  | .unary .neg (.const (.int n)) => some (.const (.int (-n)))
  | .name x => some (.var x)
  | .binary op x y => do return .binary (← ofArith x) (← arithMark op) (← ofArith y)
  | _ => none

/-- The arithmetic or the comparison that an expression is. -/
def ofExpr : Expr → Option Term
  | .compare x [(op, y)] => do return .binary (← ofArith x) (← compareMark op) (← ofArith y)
  | x => ofArith x

def ofText (s : String) : Option Term := (Expr.read s).bind ofExpr

theorem ofArith_expr {t : Term} (ht : t.arith = true) : ofArith t.expr = some t := by
  induction t, ht using Term.arith_induction with
  | int n => cases n <;> rfl
  | var x => rfl
  | binary a op b _ hmem _ _ iha ihb =>
    have hop : arithMark (arithOp op) = some op := by
      rcases mem_arithOps.1 hmem with rfl | rfl | rfl <;> rfl
    rw [Term.expr, not_mem_compareOps hmem, if_neg (by simp), ofArith]
    simp [iha, ihb, hop]

theorem ofExpr_expr {t : Term} (ht : (t.arith || t.comparison) = true) : ofExpr t.expr = some t := by
  rw [Bool.or_eq_true] at ht
  rcases ht with ht | ht
  · rw [ofExpr, ofArith_expr ht]
    intro x op y hexpr
    -- arithmetic is never a comparison
    rcases t with ((n | n) | _ | _) | z | _ | ⟨a, o, b⟩
    case const.int.ofNat | const.int.negSucc | var => simp [Term.expr] at hexpr
    case const.float | const.bool | unary => cases ht
    case binary =>
      simp only [Term.arith, Bool.and_eq_true, contains_iff_mem] at ht
      rw [Term.expr, not_mem_compareOps ht.1.1] at hexpr
      cases hexpr
  · cases t with
    | const | var | unary => cases ht
    | binary a op b =>
      simp only [Term.comparison, Bool.and_eq_true, contains_iff_mem] at ht
      have hop : compareMark (compareOp op) = some op := by
        rcases mem_compareOps.1 ht.1.1 with rfl | rfl | rfl | rfl | rfl | rfl <;> rfl
      rw [Term.expr, contains_iff_mem.mpr ht.1.1, if_pos rfl, ofExpr]
      simp [ofArith_expr ht.1.2, ofArith_expr ht.2, hop]

theorem ofText_text {t : Term} (ht : (t.arith || t.comparison) = true)
    (hx : ∀ x ∈ t.vars, Nice x) : ofText t.text = some t := by
  rw [ofText, read_text ht hx, Option.bind_some, ofExpr_expr ht]

end Term

def between (start stop : String) (cs : List Char) : Option String :=
  if start.toList.isPrefixOf cs && stop.toList.isSuffixOf (cs.drop start.toList.length) then
    some (String.ofList ((cs.drop start.toList.length).take (cs.length - start.toList.length - stop.toList.length)))
  else none

theorem between_append (start stop s : String) :
    between start stop (start.toList ++ s.toList ++ stop.toList) = some s := by
  have hprefix : start.toList.isPrefixOf (start.toList ++ s.toList ++ stop.toList) = true := by simp [List.append_assoc]
  have hdrop : (start.toList ++ s.toList ++ stop.toList).drop start.toList.length = s.toList ++ stop.toList := by
    rw [List.append_assoc, drop_left]
  have hsuffix : stop.toList.isSuffixOf (s.toList ++ stop.toList) = true := by simp
  rw [between, hprefix, hdrop, hsuffix, Bool.and_self]
  simp

theorem between_text (start stop s : String) : between start stop (start ++ s ++ stop).toList = some s := by
  rw [toList_append, toList_append, between_append]

theorem between_head (start s : String) : between start ") \x7b" (start ++ s ++ ")" ++ " \x7b").toList = some s := by
  rw [String.append_assoc]
  exact between_text ..

inductive Line where
  | declaration
  | assign (x : String) (value : Term)
  | print (x : String)
  | loop (cond : Term)
  /-- The head of the first alternative of a chain. -/
  | first (cond : Term)
  | further (cond : Term)
  | last
  | close
deriving DecidableEq

namespace Line

/-- Reads a line without its margin. -/
def ofChars (cs : List Char) : Option Line :=
  match between " = " ";" (cs.dropWhile (· != ' ')) with
  | some value => (Term.ofText value).map (.assign (String.ofList (cs.takeWhile (· != ' '))))
  | none => match between "print_int(" ");" cs with
    | some x => some (.print x)
    | none => match between "while (" ") \x7b" cs with
      | some cond => (Term.ofText cond).map .loop
      | none => match between "if (" ") \x7b" cs with
        | some cond => (Term.ofText cond).map .first
        | none => match between "else if (" ") \x7b" cs with
          | some cond => (Term.ofText cond).map .further
          | none =>
            if cs = "else \x7b".toList then some .last
            else if cs = "\x7d".toList then some .close
            else (between "int_t " ";" cs).map fun _ => .declaration

def ofText (s : String) : Option Line := ofChars (s.toList.dropWhile (· == ' '))

theorem ofText_margin {s : String} (hs : s.toList.head? ≠ some ' ') (depth : Nat) :
    ofText (margin depth ++ s) = ofChars s.toList := by
  rw [ofText, toList_append]
  induction depth with
  | zero =>
    cases hcs : s.toList with
    | nil => rfl
    | cons c cs =>
      rw [hcs] at hs
      have hc : c ≠ ' ' := fun h => hs (by rw [h]; rfl)
      simp [margin, String.join, hc]
  | succ depth ih =>
    have hmargin : (margin (depth + 1)).toList = ' ' :: ' ' :: ' ' :: ' ' :: (margin depth).toList := by
      simp [margin, Target.Piece.step, replicate_succ, String.join_cons]
    rw [hmargin]
    simpa using ih

variable {x : String} {t : Term}

theorem ne_space_of_nice (hx : Nice x) : ∀ c ∈ x.toList, (c != ' ') = true := by
  intro c hc
  rcases hx.chars c hc with h | rfl
  · simpa using fun heq : c = ' ' => absurd (heq ▸ h) (by decide)
  · rfl

theorem words_of_nice (hx : Nice x) (cs : List Char) :
    (x.toList ++ ' ' :: cs).takeWhile (· != ' ') = x.toList ∧
      (x.toList ++ ' ' :: cs).dropWhile (· != ' ') = ' ' :: cs := by
  have hne := ne_space_of_nice hx
  rw [takeWhile_append_of_pos hne, dropWhile_append_of_pos hne]
  simp

theorem ofChars_assign (hx : Nice x) (ht : t.arith = true) (hvars : ∀ y ∈ t.vars, Nice y) :
    ofChars (x ++ " = " ++ t.text ++ ";").toList = some (.assign x t) := by
  have hchars : (x ++ " = " ++ t.text ++ ";").toList =
      x.toList ++ ' ' :: ("= ".toList ++ t.text.toList ++ ";".toList) := by simp [toList_append]
  have hvalue : between " = " ";" (' ' :: ("= ".toList ++ t.text.toList ++ ";".toList)) =
      some t.text := between_append " = " ";" t.text
  obtain ⟨hword, hrest⟩ := words_of_nice hx ("= ".toList ++ t.text.toList ++ ";".toList)
  rw [ofChars, hchars, hrest, hvalue, hword]
  simp [Term.ofText_text (by simp [ht]) hvars]

theorem ofChars_print (hx : Nice x) : ofChars ("print_int(" ++ x ++ ");").toList = some (.print x) := by
  have hrest : ("print_int(" ++ x ++ ");").toList.dropWhile (· != ' ') = [] := by
    simp [toList_append, dropWhile_append_of_pos (ne_space_of_nice hx)]
  rw [ofChars, between_text, hrest]
  rfl

variable (ht : t.comparison = true) (hvars : ∀ y ∈ t.vars, Nice y)

include ht hvars

theorem ofChars_loop : ofChars ("while (" ++ t.text ++ ")" ++ " \x7b").toList = some (.loop t) := by
  rw [ofChars, between_head]
  simp [toList_append, between, Term.ofText_text (by simp [ht]) hvars]

theorem ofChars_first : ofChars ("if (" ++ t.text ++ ")" ++ " \x7b").toList = some (.first t) := by
  rw [ofChars, between_head]
  simp [toList_append, between, Term.ofText_text (by simp [ht]) hvars]

theorem ofChars_further : ofChars ("else if (" ++ t.text ++ ")" ++ " \x7b").toList = some (.further t) := by
  rw [ofChars, between_head]
  simp [toList_append, between, Term.ofText_text (by simp [ht]) hvars]

omit ht hvars

theorem ofChars_declaration (hx : Nice x) : ofChars ("int_t " ++ x ++ ";").toList = some .declaration := by
  obtain ⟨c, cs, hcs, hc⟩ := hx.head
  have hne : '=' ≠ c := by rintro rfl; exact absurd hc (by decide)
  rw [ofChars, between_text]
  simp [toList_append, between, hcs, hne]

end Line

/-- Statements followed by others. -/
def Block.append : Block → Block → Block
  | .nil, q => q
  | .cons s p, q => .cons s (p.append q)

theorem Block.append_nil (p : Block) : p.append .nil = p := by
  cases p with
  | nil => rfl
  | cons s p => rw [Block.append, p.append_nil]

theorem Block.append_assoc : ∀ p q r : Block, (p.append q).append r = p.append (q.append r)
  | .nil, _, _ => rfl
  | .cons s p, q, r => by rw [Block.append, Block.append, Block.append, p.append_assoc]

def Stmt.block (s : Stmt) : Block := .cons s .nil

mutual

/-- Reads statements up to the brace that closes them, or to the end; gives the lines that are left. -/
def readBlock : Nat → List Line → Option (Block × List Line)
  | 0, _ => none
  | fuel + 1, ls => match ls with
    | [] => some (.nil, [])
    | .close :: rest => some (.nil, .close :: rest)
    | .declaration :: rest => readBlock fuel rest
    | .assign x value :: rest => do
      let (p, rest) ← readBlock fuel rest
      return (.cons (.assign x none value) p, rest)
    | .print x :: rest => do
      let (p, rest) ← readBlock fuel rest
      return (.cons (.print x) p, rest)
    | .loop cond :: rest => do
      let (body, rest) ← readBody fuel rest
      let (p, rest) ← readBlock fuel rest
      return (.cons (.whileDo cond body) p, rest)
    | .first cond :: rest => do
      let (body, rest) ← readBody fuel rest
      let (tail, rest) ← readTail fuel rest
      let (p, rest) ← readBlock fuel rest
      return (.cons (.chain cond body tail) p, rest)
    | .further _ :: _ | .last :: _ => none

def readBody : Nat → List Line → Option (Block × List Line)
  | 0, _ => none
  | fuel + 1, ls => match readBlock fuel ls with
    | some (p, .close :: rest) => some (p, rest)
    | _ => none

def readTail : Nat → List Line → Option (Tail × List Line)
  | 0, _ => none
  | fuel + 1, ls => match ls with
    | .further cond :: rest => do
      let (body, rest) ← readBody fuel rest
      let (tail, rest) ← readTail fuel rest
      return (.elif cond body tail, rest)
    | .last :: rest => do
      let (body, rest) ← readBody fuel rest
      return (.otherwise body, rest)
    | ls => some (.done, ls)

end

/-- From these lines a program is read, up to a rest, if the fuel is at least `m`. -/
def Gets (m : Nat) (ls : List Line) (p : Block) (rest : List Line) : Prop :=
  ∀ fuel, m ≤ fuel → readBlock fuel ls = some (p, rest)

theorem gets_nil : Gets 1 [] .nil [] := by
  intro fuel hfuel
  obtain _ | fuel := fuel
  · omega
  rfl

theorem gets_close (rest : List Line) : Gets 1 (.close :: rest) .nil (.close :: rest) := by
  intro fuel hfuel
  obtain _ | fuel := fuel
  · omega
  rfl

/-- These lines are statements, whatever follows them. -/
def Spells (ls : List Line) (p : Block) : Prop :=
  ∀ {m rest q r}, Gets m rest q r → Gets (m + 2 * ls.length) (ls ++ rest) (p.append q) r

/-- These lines are the further alternatives of a chain, whatever follows it. -/
def SpellsTail (ls : List Line) (t : Tail) : Prop :=
  ∀ {m rest q r}, Gets m rest q r → ∀ fuel, m + 2 * ls.length ≤ fuel → readTail fuel (ls ++ rest) = some (t, rest)

attribute [local simp] Stmt.block Block.append

namespace Spells

variable {ls ls' : List Line} {p q : Block} {cond : Term} {t : Tail}

theorem nil : Spells [] .nil := fun h => h

theorem append (h : Spells ls p) (h' : Spells ls' q) : Spells (ls ++ ls') (p.append q) := by
  intro m rest b r hrest fuel hfuel
  rw [length_append] at hfuel
  rw [List.append_assoc, Block.append_assoc]
  exact h (h' hrest) fuel (by omega)

theorem single {l : Line} (h : ∀ {fuel rest b r}, readBlock fuel rest = some (b, r) →
    readBlock (fuel + 1) (l :: rest) = some (p.append b, r)) : Spells [l] p := by
  intro m rest b r hrest fuel hfuel
  rw [length_singleton] at hfuel
  obtain _ | fuel := fuel
  · omega
  exact h (hrest fuel (by omega))

theorem declaration : Spells [.declaration] .nil := single fun h => by exact h

theorem assign (x : String) (value : Term) : Spells [.assign x value] (Stmt.assign x none value).block :=
  single fun h => by simp [readBlock, h]

theorem print (x : String) : Spells [.print x] (Stmt.print x).block := single fun h => by simp [readBlock, h]

theorem body (h : Spells ls p) (rest : List Line) (fuel : Nat) (hfuel : 2 * ls.length + 2 ≤ fuel) :
    readBody fuel (ls ++ .close :: rest) = some (p, rest) := by
  obtain _ | fuel := fuel
  · omega
  rw [readBody, h (gets_close rest) fuel (by omega), Block.append_nil]

theorem loop (cond : Term) (h : Spells ls p) : Spells (.loop cond :: ls ++ [.close]) (Stmt.whileDo cond p).block := by
  intro m rest b r hrest fuel hfuel
  simp only [cons_append, length_cons, length_append, length_nil] at hfuel
  obtain _ | fuel := fuel
  · omega
  simp [readBlock, h.body rest fuel (by omega), hrest fuel (by omega)]

theorem chain (cond : Term) (h : Spells ls p) (htail : SpellsTail ls' t) :
    Spells (.first cond :: ls ++ .close :: ls') (Stmt.chain cond p t).block := by
  intro m rest b r hrest fuel hfuel
  simp only [cons_append, length_cons, length_append] at hfuel
  obtain _ | fuel := fuel
  · omega
  simp [readBlock, h.body (ls' ++ rest) fuel (by omega), htail hrest fuel (by omega), hrest fuel (by omega)]

end Spells

namespace SpellsTail

variable {ls ls' : List Line} {p : Block} {t : Tail}

/-- What can be read as statements does not start with a further alternative. -/
theorem done : SpellsTail [] .done := by
  intro m rest b r hrest fuel hfuel
  have hread := hrest (fuel + 1) (by simp at hfuel; omega)
  match fuel, rest, hread with
  | fuel + 1, [], _ => rfl
  | fuel + 1, .declaration :: _, _ | fuel + 1, .assign .. :: _, _ | fuel + 1, .print _ :: _, _
  | fuel + 1, .loop _ :: _, _ | fuel + 1, .first _ :: _, _ | fuel + 1, .close :: _, _ => rfl
  | fuel + 1, .further _ :: _, hread | fuel + 1, .last :: _, hread => simp [readBlock] at hread
  | 0, rest, _ => exact absurd (hrest 0 (by simpa using hfuel)) (by simp [readBlock])

theorem elif (cond : Term) (h : Spells ls p) (htail : SpellsTail ls' t) :
    SpellsTail (.further cond :: ls ++ .close :: ls') (.elif cond p t) := by
  intro m rest b r hrest fuel hfuel
  simp only [cons_append, length_cons, length_append] at hfuel
  obtain _ | fuel := fuel
  · omega
  simp [readTail, h.body (ls' ++ rest) fuel (by omega), htail hrest fuel (by omega)]

theorem otherwise (h : Spells ls p) : SpellsTail (.last :: ls ++ [.close]) (.otherwise p) := by
  intro m rest b r hrest fuel hfuel
  simp only [cons_append, length_cons, length_append, length_nil] at hfuel
  obtain _ | fuel := fuel
  · omega
  simp [readTail, h.body rest fuel (by omega)]

end SpellsTail

mutual

def pieceLines (depth : Nat) : Target.Piece → List String
  | .nothing => []
  | .line s => [margin depth ++ s]
  | .group items => piecesLines depth items
  | .nested items => piecesLines (depth + 1) items

def piecesLines (depth : Nat) : List Target.Piece → List String
  | [] => []
  | p :: rest => pieceLines depth p ++ piecesLines depth rest

end

def unlines (ls : List String) : String := String.join (ls.map (· ++ "\n"))

theorem unlines_append (ls ls' : List String) : unlines (ls ++ ls') = unlines ls ++ unlines ls' := by simp [unlines]

attribute [local simp] piecesLines pieceLines

mutual

theorem text_eq_unlines (depth : Nat) : ∀ p : Target.Piece, p.text id depth = unlines (pieceLines depth p)
  | .nothing => rfl
  | .line s => by simp [Target.Piece.text, unlines]
  | .group items => texts_eq_unlines depth items
  | .nested items => texts_eq_unlines (depth + 1) items

theorem texts_eq_unlines (depth : Nat) : ∀ items : List Target.Piece,
    Target.Piece.texts id depth items = unlines (piecesLines depth items)
  | [] => rfl
  | p :: rest => by rw [Target.Piece.texts, piecesLines, unlines_append, text_eq_unlines, texts_eq_unlines]

end

theorem piecesLines_append (depth : Nat) : ∀ items items' : List Target.Piece,
    piecesLines depth (items ++ items') = piecesLines depth items ++ piecesLines depth items'
  | [], _ => rfl
  | p :: rest, items' => by
    rw [cons_append, piecesLines, piecesLines, piecesLines_append depth rest, List.append_assoc]

theorem piecesLines_map_line (lines : List String) : piecesLines 0 (lines.map .line) = lines := by
  induction lines with
  | nil => rfl
  | cons s rest ih =>
    rw [map_cons, piecesLines, ih, pieceLines, show margin 0 = "" from rfl, String.empty_append, singleton_append]

def readLines (ls : List String) : Option Block := do
  let ls ← ls.mapM Line.ofText
  match readBlock (2 * ls.length + 1) ls with
  | some (p, []) => some p
  | _ => none

/-- At every depth, these pieces are lines with these statements. -/
def Shows (items : List Target.Piece) (p : Block) : Prop :=
  ∀ depth, ∃ ls, (piecesLines depth items).mapM Line.ofText = some ls ∧ Spells ls p

/-- At every depth, these pieces are lines with these further alternatives of a chain. -/
def ShowsTail (items : List Target.Piece) (t : Tail) : Prop :=
  ∀ depth, ∃ ls, (piecesLines depth items).mapM Line.ofText = some ls ∧ SpellsTail ls t

namespace Shows

variable {items items' : List Target.Piece} {p q : Block} {x : String} {t : Term}

theorem readLines_eq (h : Shows items p) : readLines (piecesLines 0 items) = some p := by
  obtain ⟨ls, hls, hreads⟩ := h 0
  have hget := hreads gets_nil (2 * ls.length + 1) (by omega)
  rw [List.append_nil, Block.append_nil] at hget
  simp [readLines, hls, hget]

theorem nil : Shows [] .nil := fun _ => ⟨[], rfl, Spells.nil⟩

theorem append (h : Shows items p) (h' : Shows items' q) : Shows (items ++ items') (p.append q) := by
  intro depth
  obtain ⟨ls, hls, hreads⟩ := h depth
  obtain ⟨ls', hls', hreads'⟩ := h' depth
  exact ⟨ls ++ ls', by simp [piecesLines_append, hls, hls'], hreads.append hreads'⟩

theorem line {s : String} {l : Line} (hs : s.toList.head? ≠ some ' ')
    (hl : Line.ofChars s.toList = some l) (h : Spells [l] p) : Shows [.line s] p := by
  intro depth
  refine ⟨[l], ?_, h⟩
  simp [Line.ofText_margin hs, hl]

theorem declaration (hx : Nice x) : Shows [.line ("int_t " ++ x ++ ";")] .nil :=
  line (by simp) (Line.ofChars_declaration hx) Spells.declaration

theorem assign (hx : Nice x) (ht : t.arith = true) (hvars : ∀ y ∈ t.vars, Nice y) :
    Shows [.line (x ++ " = " ++ t.text ++ ";")] (Stmt.assign x none t).block := by
  obtain ⟨c, cs, hcs, hc⟩ := hx.head
  have hne : c ≠ ' ' := by rintro rfl; exact absurd hc (by decide)
  exact line (by simp [hcs, hne]) (Line.ofChars_assign hx ht hvars) (Spells.assign x t)

theorem print (hx : Nice x) : Shows [.line ("print_int(" ++ x ++ ");")] (Stmt.print x).block :=
  line (by simp) (Line.ofChars_print hx) (Spells.print x)

theorem lines_braced (head : String) {l : Line} (hs : (head ++ " \x7b").toList.head? ≠ some ' ')
    (hl : Line.ofChars (head ++ " \x7b").toList = some l) (h : Shows items p) (depth : Nat) :
    ∃ ls, (pieceLines depth (.braced head (.nested items))).mapM Line.ofText =
      some (l :: ls ++ [.close]) ∧ Spells ls p := by
  obtain ⟨ls, hls, hreads⟩ := h (depth + 1)
  refine ⟨ls, ?_, hreads⟩
  have hopen : Line.ofText (margin depth ++ (head ++ " \x7b")) = some l := (Line.ofText_margin hs depth).trans hl
  have hclose : Line.ofText (margin depth ++ "\x7d") = some .close :=
    (Line.ofText_margin (by decide) depth).trans rfl
  simp [Target.Piece.braced, hopen, hls, hclose]

theorem loop (ht : t.comparison = true) (hvars : ∀ y ∈ t.vars, Nice y) (h : Shows items p) :
    Shows [.braced ("while (" ++ t.text ++ ")") (.nested items)] (Stmt.whileDo t p).block := by
  intro depth
  obtain ⟨ls, hls, hreads⟩ := lines_braced ("while (" ++ t.text ++ ")") (by simp) (Line.ofChars_loop ht hvars) h depth
  exact ⟨_, by simpa using hls, hreads.loop t⟩

theorem chain {tl : Tail} (ht : t.comparison = true) (hvars : ∀ y ∈ t.vars, Nice y)
    (h : Shows items p) (htail : ShowsTail items' tl) :
    Shows (.braced ("if (" ++ t.text ++ ")") (.nested items) :: items') (Stmt.chain t p tl).block := by
  intro depth
  obtain ⟨ls, hls, hreads⟩ := lines_braced ("if (" ++ t.text ++ ")") (by simp) (Line.ofChars_first ht hvars) h depth
  obtain ⟨ls', hls', hreads'⟩ := htail depth
  exact ⟨_, by simp [hls, hls'], hreads.chain t hreads'⟩

end Shows

namespace ShowsTail

variable {items items' : List Target.Piece} {p : Block} {t : Term} {tl : Tail}

theorem done : ShowsTail [] .done := fun _ => ⟨[], rfl, SpellsTail.done⟩

theorem elif (ht : t.comparison = true) (hvars : ∀ y ∈ t.vars, Nice y) (h : Shows items p)
    (htail : ShowsTail items' tl) :
    ShowsTail (.braced ("else if (" ++ t.text ++ ")") (.nested items) :: items') (.elif t p tl) := by
  intro depth
  obtain ⟨ls, hls, hreads⟩ := Shows.lines_braced ("else if (" ++ t.text ++ ")") (by simp)
    (Line.ofChars_further ht hvars) h depth
  obtain ⟨ls', hls', hreads'⟩ := htail depth
  exact ⟨_, by simp [hls, hls'], SpellsTail.elif t hreads hreads'⟩

theorem otherwise (h : Shows items p) : ShowsTail [.braced "else" (.nested items)] (.otherwise p) := by
  intro depth
  obtain ⟨ls, hls, hreads⟩ := Shows.lines_braced "else" (by decide) rfl h depth
  exact ⟨_, by simpa using hls, SpellsTail.otherwise hreads⟩

end ShowsTail

end Tabc.Core
