import Tabc.Proofs.Sessions.History

/-!
# List literals

A list inside another one leaves no value: it goes onto the list around it, and the first element is taken back
from there. Either way an element is delivered (`Delivers`), so a list of any shape is read as itself
(`parse_listLiteral`).
-/

open List

namespace Tabc

open Expression
open Tabc.Symbol (tok phrase)

/-- A name, a number, a truth value or a list of such, with its words. -/
inductive Listed : Node → List Word → Prop
  | name (x : String) : Listed (.ident x) [(.ident, .text x)]
  | int (n : Int) : Listed (.literal "int" (.int n)) [(.integer, .int n)]
  | bool (b : Bool) : Listed (.literal "bool" (.bool b)) [(.bool, .bool b)]
  | list (items : List (Node × List Word)) (h : ∀ a ∈ items, Listed a.1 a.2) :
    Listed (.collection "list" (items.map Prod.fst)) (lbracket :: (separated (items.map Prod.snd) ++ [rbracket]))

/-- An element is the value, or it is on the list around it and the value is missing. -/
def Delivers (n : Node) (st : List (List Node)) (v : Node) (st' : List (List Node)) : Prop :=
  n.isNone = false ∧ (v = n ∧ st' = st ∨ ∃ items outer, st = items :: outer ∧ v = .none ∧ st' = (n :: items) :: outer)

section

theorem run_onLists_of_ok (g : List (List Node) → Except Fault (List (List Node))) (q : Session)
    (h : g q.lists = .ok st) :
    (onLists g).run q = .ok .none { q with lists := st } := by
  rw [run_onLists g q]
  dsimp only
  rw [h]
  rfl

variable {n v : Node} {st st' : List (List Node)} {items : List Node}

theorem Delivers.openLiteral (h : Delivers n st v st') : openLiteral st' v [] = .ok ([n] :: st) := by
  obtain ⟨hn, ⟨rfl, rfl⟩ | ⟨items, outer, rfl, rfl, rfl⟩⟩ := h
  · simp [Tabc.openLiteral, hn]
  · rfl

theorem Delivers.growLiteral (h : Delivers n (items :: st) v st') : growLiteral st' v = .ok ((n :: items) :: st) := by
  obtain ⟨hn, ⟨rfl, rfl⟩ | ⟨items, outer, heq, rfl, rfl⟩⟩ := h
  · simp [Tabc.growLiteral, hn]
  · cases heq
    rfl

theorem exists_closeLiteral (kind : String) (items : List Node) (st : List (List Node)) :
    ∃ v st', closeLiteral kind (items :: st) = .ok (v, st') ∧ Delivers (.collection kind items.reverse) st v st' := by
  cases st with
  | nil => exact ⟨_, _, rfl, rfl, .inl ⟨rfl, rfl⟩⟩
  | cons around outer => exact ⟨_, _, rfl, rfl, .inr ⟨around, outer, rfl, rfl, rfl⟩⟩

end

def listPlaces : List Place := [.assigned, .element, .nextElement]

/-- Tokens after an element. -/
def elementEnds : List TokenKind := [.comma, .rbracket]

theorem lists_known : shifts .fourth Place.element.before .rbracket = true ∧ ∀ p ∈ listPlaces,
    predicts .fourth p.before .list = true ∧ Viable .fourth (p.before ++ [phrase .list]) ∧
    kernelAfter .fourth (p.before ++ [phrase .list]) = kernelAfter .fourth (start ++ [phrase .list]) ∧
    ∀ k ∈ elementEnds, shifts .fourth (p.before ++ [phrase .list]) k = true ∧
      ∀ c ∈ clauses .fourth, c.head = .list → reduces .fourth (p.before ++ c.body) (tok k) = true := by decide +kernel

def Separates (s : Symbol) : Prop := ∃ k ∈ elementEnds, s = tok k

theorem follows_of_separates (h : Separates s) : Expression.Follows none s := by
  obtain ⟨k, hk, rfl⟩ := h
  have hall : ∀ k ∈ elementEnds, k ∈ ends ∧ (strength k).level = 0 := by decide
  exact follows_weak (hall k hk)

/-- In a place the words of an element are read and it is delivered. -/
def Reaches (p : Place) (n : Node) (ws : List Word) : Prop :=
  ∀ q : Session, ∃ v st, Delivers n q.lists v st ∧
    Pushes (4 * ws.length) p.before (Expression.Follows none) [phrase .expression] [v] ws q { q with lists := st }

theorem reaches_of_reads {n : Node} (hn : n.isNone = false) (h : Reads p none n ws) : Reaches p n ws :=
  fun q => ⟨n, q.lists, ⟨hn, .inl ⟨rfl, rfl⟩⟩, h q⟩

section

variable {p : Place} (hp : p ∈ listPlaces) {b : Nat} {q : Session} {st : List (List Node)}
  {items : List Node} {ws : List Word}

include hp

/-- A rule of a list is reduced. -/
theorem pushes_list (hc : ⟨.list, body, act, unary⟩ ∈ clauses .fourth) (h : Pushes b p.before Separates body vs ws q q')
    (hval : (act.apply .fourth vs).run q' = .ok .none q'') :
    Pushes (b + 1) p.before Separates [phrase .list] [.none] ws q q'' := by
  obtain ⟨-, hlists⟩ := lists_known
  obtain ⟨hpredicts, hviable, -, hends⟩ := hlists p hp
  refine h.reduce hc hval ?_ hviable
  rintro _ ⟨k, hk, rfl⟩
  obtain ⟨hshift, hred⟩ := hends k hk
  exact ⟨_, rfl, hpredicts, .read hshift, hred _ hc rfl⟩

theorem pushes_elements (more : List (Node × List Word)) (hmore : ∀ a ∈ more, Reaches .nextElement a.1 a.2)
    (h : Pushes b p.before Separates [phrase .list] [.none] ws q { q with lists := items :: st }) :
    Pushes (b + 4 * ((more.map Prod.snd).flatMap (comma :: ·)).length) p.before Separates [phrase .list]
      [.none] (ws ++ (more.map Prod.snd).flatMap (comma :: ·)) q
      { q with lists := ((more.map Prod.fst).reverse ++ items) :: st } := by
  induction more generalizing b ws items with
  | nil => simpa using h
  | cons a more ih =>
    have hc : ⟨.list, [phrase .list, tok .comma, phrase .expression], .listBody, false⟩ ∈ clauses .fourth := by decide
    obtain ⟨-, -, hsame, hends⟩ := lists_known.2 p hp
    obtain ⟨v, st', hv, hread⟩ := hmore a (.head _) { q with lists := items :: st }
    have hsame' := kernelAfter_congr hsame [tok .comma]
    have hval : (Act.apply .fourth .listBody [.none, .atom (.text ","), v]).run { q with lists := st' } =
        .ok .none { q with lists := (a.1 :: items) :: st } :=
      run_onLists_of_ok (growLiteral · v) { q with lists := st' } hv.growLiteral
    have hnext := pushes_list hp hc (h.next ⟨.comma, by decide, rfl⟩ (.text ",") (hends _ (by decide)).1
      ((hread.congr hsame'.symm).follow fun _ => follows_of_separates)) hval
    have hrest := ih (fun a ha => hmore a (.tail _ ha)) hnext
    rw [List.append_assoc] at hrest
    simp only [map_cons, reverse_cons, List.append_assoc, singleton_append]
    refine hrest.mono ?_
    rw [flatMap_cons, cons_append, length_cons, length_append]
    omega

theorem reaches_list {a : Node × List Word} {more : List (Node × List Word)} (ha : Reaches .element a.1 a.2)
    (hmore : ∀ a ∈ more, Reaches .nextElement a.1 a.2) :
    Reaches p (.collection "list" (a.1 :: more.map Prod.fst))
      (lbracket :: (separated (a.2 :: more.map Prod.snd) ++ [rbracket])) := by
  intro q
  have hhead : ⟨.list, [tok .lbracket, phrase .expression], .listHead, false⟩ ∈ clauses .fourth := by decide
  have htail : ⟨.expression, [phrase .list, tok .rbracket], .listTail, false⟩ ∈ clauses .fourth := by decide
  obtain ⟨-, -, hsame, hends⟩ := lists_known.2 p hp
  obtain ⟨hshift, hsame'⟩ := (places_known p p.mem_all).1 .lbracket (by decide)
  obtain ⟨v, st, hv, hread⟩ := ha q
  have hval : (Act.apply .fourth .listHead [.atom (.text "["), v]).run { q with lists := st } =
      .ok .none { q with lists := [a.1] :: q.lists } :=
    run_onLists_of_ok (openLiteral · v []) { q with lists := st } hv.openLiteral
  have hfirst := pushes_list hp hhead
    (((hread.congr hsame'.symm).follow fun _ => follows_of_separates).first (.text "[") hshift) hval
  have hall := pushes_elements hp more hmore hfirst
  obtain ⟨v', st', hclose, hv'⟩ := exists_closeLiteral "list" ((more.map Prod.fst).reverse ++ [a.1]) q.lists
  have hval' : (Act.apply .fourth .listTail [.none, .atom (.text "]")]).run
      { q with lists := ((more.map Prod.fst).reverse ++ [a.1]) :: q.lists } =
      .ok v' { q with lists := st' } := by rw [onLists_listTail, hclose]
  rw [reverse_append, reverse_reverse] at hv'
  refine ⟨v', st', hv', ?_⟩
  have hlist := hall.next ⟨.rbracket, by decide, rfl⟩ (.text "]") (hends _ (by decide)).1
    (pushes_nil _ (Expression.Follows none) _)
  have hsame'' := kernelAfter_congr hsame [tok .rbracket]
  rw [List.append_assoc] at hsame''
  have hread' := Place.reduce hlist htail (by decide) hsame'' hval' fun k hk _ =>
    reduces_closed htail (by decide) (by decide) k hk
  rw [separated_cons]
  refine hread'.mono ?_
  simp
  omega

end

theorem Listed.reaches {n : Node} (h : Listed n ws) : ∀ p ∈ listPlaces, Reaches p n ws := by
  induction h with
  | name x => exact fun p _ => reaches_of_reads rfl (reads_name p x)
  | int n => exact fun p _ => reaches_of_reads rfl (reads_literal p (by decide) (by decide) (.int n))
  | bool b => exact fun p _ => reaches_of_reads rfl (reads_literal p (by decide) (by decide) (.bool b))
  | list items _ ih =>
    intro p hp
    cases items with
    | nil =>
      have hc : ⟨.expression, [tok .lbracket, tok .rbracket], .emptyList, false⟩ ∈ clauses .fourth := by decide
      exact reaches_of_reads rfl (reads_from p (by decide) _ hc (by decide)
        (fun q => ((pushes_nil _ _ q).first _ lists_known.1).mono (by decide)) fun _ => rfl)
    | cons a more => exact reaches_list hp (ih a (.head _) _ (by decide)) fun a ha => ih a (.tail _ ha) _ (by decide)

end Tabc
