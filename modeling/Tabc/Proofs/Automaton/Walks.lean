import Mathlib
import Tabc.Automaton.Lookahead

/-!
# The walk that closes the sets

`Walk.close` visits every transition depth first; the transitions of a cycle end with one shared set.
`Sound` is kept by the whole walk. When the visit of a transition ends at its own depth, no link leads below
it, so every transition above it has its `Goal` in its set (`mem_set_close`).
-/

open List

namespace Tabc.Automaton

namespace SymbolSet

def Good (set : SymbolSet) : Prop := ∀ s, set.mask.testBit s = true ↔ s ∈ set.toList

theorem good_empty : Good .empty := by
  intro s
  simp [empty, toList]

variable {set : SymbolSet}

variable (h : set.Good)

include h

theorem mem_insert : x ∈ (set.insert s).toList ↔ x = s ∨ x ∈ set.toList := by
  unfold insert has
  split
  · rename_i hs
    constructor
    · exact .inr
    rintro (rfl | hx)
    · exact (h x).1 hs
    · exact hx
  · simp [toList, or_comm]

theorem Good.insert (s : Nat) : (set.insert s).Good := by
  intro x
  rw [mem_insert h, ← h x]
  unfold SymbolSet.insert has
  split
  · rename_i hs
    constructor
    · exact .inr
    rintro (rfl | hx)
    · exact hs
    · exact hx
  · rw [Nat.testBit_or, Nat.one_shiftLeft, Nat.testBit_two_pow, Bool.or_eq_true, decide_eq_true_eq,
      or_comm, eq_comm]

theorem Good.foldl_insert (xs : List Nat) :
    (xs.foldl SymbolSet.insert set).Good ∧
      ∀ x, x ∈ (xs.foldl SymbolSet.insert set).toList ↔ x ∈ set.toList ∨ x ∈ xs := by
  induction xs generalizing set with
  | nil => exact ⟨h, fun x => by simp⟩
  | cons y xs ih =>
    obtain ⟨hgood, hmem⟩ := ih (h.insert y)
    refine ⟨hgood, fun x => ?_⟩
    rw [foldl_cons, hmem, mem_insert h, mem_cons]
    tauto

theorem Good.union (other : SymbolSet) : (set.union other).Good := (h.foldl_insert other.toList).1

theorem mem_union (other : SymbolSet) (x : Nat) : x ∈ (set.union other).toList ↔ x ∈ set.toList ∨ x ∈ other.toList :=
  (h.foldl_insert other.toList).2 x

end SymbolSet

variable {α : Type}

theorem getD_set! (xs : Array α) (i j : Nat) (v d : α) :
    (xs.set! i v).getD j d = if i = j ∧ j < xs.size then v else xs.getD j d := by
  rw [Array.set!_eq_setIfInBounds, Array.getD_eq_getD_getElem?,
    Array.getElem?_setIfInBounds]
  by_cases hij : i = j
  · subst hij
    by_cases hi : i < xs.size <;> simp [hi]
  · simp [hij]

theorem getD_set!_of_lt (xs : Array α) (hi : i < xs.size) (j : Nat) (v d : α) :
    (xs.set! i v).getD j d = if j = i then v else xs.getD j d := by
  rw [getD_set!]
  by_cases hj : j = i
  · simp [hj, hi]
  · simp [hj, Ne.symm hj]

theorem getD_foldl_set! (is : List Nat) (xs : Array α) (h : ∀ i ∈ is, i < xs.size) (j : Nat) (v d : α) :
    (is.foldl (fun xs i => xs.set! i v) xs).getD j d = if j ∈ is then v else xs.getD j d := by
  induction is generalizing xs with
  | nil => simp
  | cons i is ih =>
    obtain ⟨hi, his⟩ := forall_mem_cons.1 h
    rw [foldl_cons, ih _ (by simpa using his)]
    by_cases hij : i = j <;> by_cases hj : j ∈ is <;> simp_all [eq_comm]

theorem size_foldl_set! (is : List Nat) (xs : Array α) (v : α) :
    (is.foldl (fun xs i => xs.set! i v) xs).size = xs.size := by
  induction is generalizing xs with
  | nil => rfl
  | cons i is ih => rw [foldl_cons, ih, Array.set!_eq_setIfInBounds, Array.size_setIfInBounds]

theorem length_le_of_lt {l : List Nat} {n : Nat} (h : l.Nodup) (hlt : ∀ x ∈ l, x < n) : l.length ≤ n := by
  have hsub : l ⊆ List.range n := fun x hx => mem_range.2 (hlt x hx)
  simpa using (h.subperm hsub).length_le

theorem eq_of_append_cons {above above' below below' : List α} {y : α}
    (hnodup : (above ++ y :: below).Nodup) (h : above ++ y :: below = above' ++ y :: below') :
    below = below' := by
  obtain ⟨-, hbelow, habove⟩ := nodup_append.1 hnodup
  have hy : y ∉ above := fun hy => habove y hy y mem_cons_self rfl
  exact ((append_cons_inj_of_notMem hy (nodup_cons.1 hbelow).1).1 h).2.2

namespace Walk

def Links (relation : Nat → List Nat) (x y : Nat) : Prop := y ∈ relation x

/-- What is to be closed: the links of a number of transitions, and the initial sets. -/
structure Net where
  relation : Nat → List Nat
  count : Nat
  init : Nat → List Nat

section

variable (N : Net)

/-- What the set of a transition must hold. -/
def Goal (x a : Nat) : Prop := ∃ y, Relation.ReflTransGen (Links N.relation) x y ∧ a ∈ N.init y

/-- A transition is on the way or settled. -/
def Met (w : Walk) (x : Nat) : Prop := w.depth.getD x 0 ≠ 0

def Settled (w : Walk) (x : Nat) : Prop := w.depth.getD x 0 = N.count + 1

structure Sound (w : Walk) : Prop where
  depths : w.depth.size = N.count
  slots : w.slot.size = N.count
  slot_lt : ∀ x < N.count, w.slot.getD x 0 < w.sets.size
  good : ∀ i, (w.sets.getD i .empty).Good
  nodup : w.path.Nodup
  path_lt : ∀ x ∈ w.path, x < N.count
  depth_pos : ∀ x ∈ w.path, Met w x
  depth_le : ∀ x above below, w.path = above ++ x :: below → w.depth.getD x 0 ≤ below.length + 1
  met : ∀ x, Met w x → x ∈ w.path ∨ Settled N w x
  start : ∀ x < N.count, ∀ a ∈ N.init x, a ∈ (w.set x).toList
  settled : ∀ x, Settled N w x → ∀ a, Goal N x a → a ∈ (w.set x).toList

structure Followed (w : Walk) (x y : Nat) : Prop where
  met : Met w y
  low : ∀ above below, w.path = above ++ y :: below → w.depth.getD x 0 ≤ below.length + 1
  goal : Settled N w y → ∀ a, Goal N y a → a ∈ (w.set x).toList

/-- What a part of the walk keeps of what was met before it, apart from the depth of `x`. -/
structure Later (x : Nat) (w w' : Walk) : Prop where
  sound : Sound N w'
  path : ∃ above, w'.path = above ++ w.path
  depth : ∀ y, Met w y → y ≠ x → w'.depth.getD y 0 = w.depth.getD y 0
  lower : Met w x → Met w' x ∧ w'.depth.getD x 0 ≤ w.depth.getD x 0
  grown : ∀ y, Met w y → ∀ a ∈ (w.set y).toList, a ∈ (w'.set y).toList

end

variable {N : Net} {w w' w'' : Walk} {x y z : Nat}

namespace Sound

theorem length_le (h : Sound N w) : w.path.length ≤ N.count := length_le_of_lt h.nodup h.path_lt

theorem depth_le_count (h : Sound N w) (hx : x ∈ w.path) : w.depth.getD x 0 ≤ N.count := by
  obtain ⟨above, below, hsplit⟩ := append_of_mem hx
  have hle := h.depth_le x above below hsplit
  have hlen := h.length_le
  rw [hsplit, length_append, length_cons] at hlen
  omega

theorem not_settled (h : Sound N w) (hx : x ∈ w.path) : ¬Settled N w x :=
  (Nat.lt_succ_of_le (h.depth_le_count hx)).ne

end Sound

namespace Later

theorem met (h : Later N x w w') (hy : Met w y) : Met w' y := by
  by_cases hyx : y = x
  · subst hyx
    exact (h.lower hy).1
  unfold Met
  rw [h.depth y hy hyx]
  exact hy

theorem refl (h : Sound N w) : Later N x w w :=
  ⟨h, ⟨[], rfl⟩, fun _ _ _ => rfl, fun hx => ⟨hx, le_rfl⟩, fun _ _ _ ha => ha⟩

theorem trans (h : Later N x w w') (h' : Later N x w' w'') :
    Later N x w w'' := by
  refine ⟨h'.sound, ?_, ?_, ?_, ?_⟩
  · obtain ⟨above, habove⟩ := h.path
    obtain ⟨above', habove'⟩ := h'.path
    exact ⟨above' ++ above, by rw [habove', habove, List.append_assoc]⟩
  · intro y hy hyx
    rw [h'.depth y (h.met hy) hyx, h.depth y hy hyx]
  · intro hx
    obtain ⟨hmet, hle⟩ := h.lower hx
    obtain ⟨hmet', hle'⟩ := h'.lower hmet
    exact ⟨hmet', hle'.trans hle⟩
  · intro y hy a ha
    exact h'.grown y (h.met hy) a (h.grown y hy a ha)

variable (hw : Sound N w) (h : Later N x w w')

include hw h

theorem split (hy : Met w y) {above below : List Nat} (hsplit : w'.path = above ++ y :: below) :
    (∃ above', w.path = above' ++ y :: below) ∨ Settled N w y := by
  rcases hw.met y hy with hmem | hs
  · left
    obtain ⟨new, hnew⟩ := h.path
    obtain ⟨above1, below1, hold⟩ := append_of_mem hmem
    have heq : above ++ y :: below = (new ++ above1) ++ y :: below1 := by rw [← hsplit, hnew, hold, List.append_assoc]
    have hnodup := h.sound.nodup
    rw [hsplit] at hnodup
    exact ⟨above1, by rw [hold, eq_of_append_cons hnodup heq]⟩
  · exact .inr hs

theorem settled_iff (hx : x ∈ w.path) (hy : Met w y) : Settled N w' y ↔ Settled N w y := by
  by_cases hyx : y = x
  · subst hyx
    obtain ⟨above, habove⟩ := h.path
    have hx' : y ∈ w'.path := by
      rw [habove]
      exact mem_append_right _ hx
    exact ⟨fun hs => absurd hs (h.sound.not_settled hx'), fun hs => absurd hs (hw.not_settled hx)⟩
  · unfold Settled
    rw [h.depth y hy hyx]

theorem followed (hx : x ∈ w.path) (hy : Followed N w x y) : Followed N w' x y := by
  refine ⟨h.met hy.met, ?_, ?_⟩
  · intro above below hsplit
    rcases h.split hw hy.met hsplit with ⟨above', hold⟩ | hs
    · exact (h.lower (hw.depth_pos x hx)).2.trans (hy.low above' below hold)
    · have hs' := (h.settled_iff hw hx hy.met).2 hs
      exact absurd hs' (h.sound.not_settled (by rw [hsplit]; simp))
  · intro hs a ha
    exact h.grown x (hw.depth_pos x hx) a (hy.goal ((h.settled_iff hw hx hy.met).1 hs) a ha)

end Later

def entered (w : Walk) (x : Nat) : Walk := { w with path := x :: w.path, depth := w.depth.set! x (w.path.length + 1) }

variable (hw : Sound N w) (hx : x < N.count)

include hw hx

theorem depth_entered (y : Nat) :
    (w.entered x).depth.getD y 0 = if y = x then w.path.length + 1 else w.depth.getD y 0 :=
  getD_set!_of_lt _ (hw.depths ▸ hx) ..

theorem sound_entered (hnew : ¬Met w x) : Sound N (w.entered x) := by
  have hdepth := depth_entered hw hx
  have hx' : x ∉ w.path := fun h => hnew (hw.depth_pos x h)
  have hnodup := nodup_cons.2 ⟨hx', hw.nodup⟩
  have hlt : ∀ y ∈ x :: w.path, y < N.count := forall_mem_cons.2 ⟨hx, hw.path_lt⟩
  have hlen := length_le_of_lt hnodup hlt
  rw [length_cons] at hlen
  constructor
  · simpa [entered] using hw.depths
  · exact hw.slots
  · exact hw.slot_lt
  · exact hw.good
  · exact hnodup
  · exact hlt
  · intro y hy
    unfold Met
    rw [hdepth]
    split
    · omega
    rename_i hyx
    rcases mem_cons.1 hy with rfl | hy
    · exact absurd rfl hyx
    · exact hw.depth_pos y hy
  · intro y above below hsplit
    rw [hdepth]
    cases above with
    | nil =>
      obtain ⟨rfl, hbelow⟩ := List.cons.inj hsplit
      rw [if_pos rfl, hbelow]
    | cons z above =>
      obtain ⟨-, hrest⟩ := List.cons.inj hsplit
      have hyx : y ≠ x := by
        rintro rfl
        exact hx' (by rw [hrest]; simp)
      rw [if_neg hyx]
      exact hw.depth_le y above below hrest
  · intro y hy
    unfold Met Settled at *
    rw [hdepth] at hy ⊢
    split at hy
    · rename_i hyx
      exact .inl (hyx ▸ (.head _))
    rename_i hyx
    rw [if_neg hyx]
    exact (hw.met y hy).imp_left (mem_cons_of_mem _)
  · exact hw.start
  intro y hs a ha
  refine hw.settled y ?_ a ha
  unfold Settled at *
  rw [hdepth] at hs
  split at hs
  · omega
  · exact hs

theorem later_entered (hnew : ¬Met w x) : Later N x w (w.entered x) := by
  refine ⟨sound_entered hw hx hnew, ⟨[x], rfl⟩, fun y _ hyx => ?_, fun h => absurd h hnew, fun _ _ _ ha => ha⟩
  rw [depth_entered hw hx, if_neg hyx]

theorem depth_absorb (y z : Nat) :
    (w.absorb x y).depth.getD z 0 = if z = x then min (w.depth.getD x 0) (w.depth.getD y 0) else w.depth.getD z 0 := by
  have hset : (w.absorb x y).depth = w.depth.set! x (min (w.depth.getD x 0) (w.depth.getD y 0)) := by
    unfold absorb
    dsimp only
    split <;> rfl
  rw [hset, getD_set!_of_lt _ (hw.depths ▸ hx)]

omit hw hx

theorem path_absorb (w : Walk) (x y : Nat) : (w.absorb x y).path = w.path := by
  unfold absorb
  dsimp only
  split <;> rfl

theorem slot_absorb (w : Walk) (x y : Nat) : (w.absorb x y).slot = w.slot := by
  unfold absorb
  dsimp only
  split <;> rfl

variable (hw : Sound N w)

include hw

theorem sets_absorb (hx : x < N.count) (y : Nat) :
    (w.absorb x y).sets.size = w.sets.size ∧
    (∀ i, ((w.absorb x y).sets.getD i .empty).Good) ∧
    (∀ i, ∀ a ∈ (w.sets.getD i .empty).toList, a ∈ ((w.absorb x y).sets.getD i .empty).toList) ∧
    ∀ a ∈ (w.set y).toList, a ∈ ((w.absorb x y).set x).toList := by
  have hlt := hw.slot_lt x hx
  have hslot : (w.absorb x y).set x = (w.absorb x y).sets.getD (w.slot.getD x 0) .empty := by
    unfold set
    rw [slot_absorb]
  rw [hslot]
  by_cases hsame : w.slot.getD x 0 = w.slot.getD y 0
  · have hsets : (w.absorb x y).sets = w.sets := by
      unfold absorb
      simp [hsame]
    rw [hsets]
    refine ⟨rfl, hw.good, fun _ _ ha => ha, fun a ha => ?_⟩
    rw [hsame]
    exact ha
  · have hsets : (w.absorb x y).sets = w.sets.set! (w.slot.getD x 0)
        ((w.sets.getD (w.slot.getD x 0) .empty).union (w.sets.getD (w.slot.getD y 0) .empty)) := by
      unfold absorb
      dsimp only
      rw [if_neg (by simpa using hsame)]
    have hunion := SymbolSet.mem_union (hw.good (w.slot.getD x 0)) (w.sets.getD (w.slot.getD y 0) .empty)
    rw [hsets]
    refine ⟨by simp, fun i => ?_, fun i a ha => ?_, fun a ha => ?_⟩
    · rw [getD_set!]
      by_cases hi : w.slot.getD x 0 = i ∧ i < w.sets.size
      · rw [if_pos hi]
        exact (hw.good _).union _
      · rw [if_neg hi]
        exact hw.good i
    · rw [getD_set!]
      by_cases hi : w.slot.getD x 0 = i ∧ i < w.sets.size
      · rw [if_pos hi, hunion, hi.1]
        exact .inl ha
      · rw [if_neg hi]
        exact ha
    · rw [getD_set!, if_pos ⟨rfl, hlt⟩, hunion]
      exact .inr ha

theorem grown_absorb (hx : x < N.count) (y z : Nat) : ∀ a ∈ (w.set z).toList, a ∈ ((w.absorb x y).set z).toList := by
  intro a ha
  unfold set at *
  rw [slot_absorb]
  exact (sets_absorb hw hx y).2.2.1 _ a ha

theorem later_absorb (hx : x ∈ w.path) (hy : Met w y) : Later N x w (w.absorb x y) := by
  have hlt := hw.path_lt x hx
  have hdepth := depth_absorb hw hlt y
  have hpath := path_absorb w x y
  obtain ⟨hsize, hgood, -, -⟩ := sets_absorb hw hlt y
  have hpos : w.depth.getD x 0 ≠ 0 := hw.depth_pos x hx
  have hpos' : w.depth.getD y 0 ≠ 0 := hy
  have hle := hw.depth_le_count hx
  have hsound : Sound N (w.absorb x y) := by
    constructor
    · unfold absorb
      dsimp only
      split <;> simpa using hw.depths
    · rw [slot_absorb]
      exact hw.slots
    · rw [slot_absorb, hsize]
      exact hw.slot_lt
    · exact hgood
    · rw [hpath]
      exact hw.nodup
    · rw [hpath]
      exact hw.path_lt
    · intro z hz
      rw [hpath] at hz
      unfold Met
      rw [hdepth]
      split
      · omega
      · exact hw.depth_pos z hz
    · intro z above below hsplit
      rw [hpath] at hsplit
      have hle := hw.depth_le z above below hsplit
      rw [hdepth]
      split
      · rename_i hzx
        rw [hzx] at hle
        exact (min_le_left _ _).trans hle
      · exact hle
    · intro z hz
      rw [hpath]
      unfold Met Settled at *
      rw [hdepth] at hz ⊢
      split at hz
      · rename_i hzx
        exact .inl (hzx ▸ hx)
      rename_i hzx
      rw [if_neg hzx]
      exact hw.met z hz
    · intro z hz a ha
      exact grown_absorb hw hlt y z a (hw.start z hz a ha)
    intro z hs a ha
    refine grown_absorb hw hlt y z a (hw.settled z ?_ a ha)
    unfold Settled at *
    rw [hdepth] at hs
    split at hs
    · omega
    · exact hs
  refine ⟨hsound, ⟨[], hpath⟩, ?_, ?_, ?_⟩
  · intro z _ hzx
    rw [hdepth, if_neg hzx]
  · intro _
    unfold Met
    rw [hdepth, if_pos rfl]
    exact ⟨by omega, min_le_left _ _⟩
  · exact fun z _ => grown_absorb hw hlt y z

omit hw

/-- All that is above `x` on the way, and `x`, have their goal in the set of `x`. -/
theorem goal_of_members {members : List Nat}
    (hlinks : ∀ z ∈ members, ∀ y ∈ N.relation z, y ∈ members ∨ ∀ a, Goal N y a → a ∈ (w.set x).toList)
    (hinit : ∀ z ∈ members, ∀ a ∈ N.init z, a ∈ (w.set x).toList) (hz : z ∈ members)
    (ha : Goal N z a) : a ∈ (w.set x).toList := by
  obtain ⟨t, hreach, hat⟩ := ha
  induction hreach using Relation.ReflTransGen.head_induction_on with
  | refl => exact hinit t hz a hat
  | @head u y hlink hrest ih =>
    rcases hlinks u hz y hlink with hy | hy
    · exact ih hy
    · exact hy a ⟨t, hrest, hat⟩

variable {below : List Nat} {slot : Array Nat} {sets : Array SymbolSet}

theorem takeWhile_ne {above : List Nat} (h : (above ++ x :: below).Nodup) :
    (above ++ x :: below).takeWhile (· != x) = above := by
  have hx : ∀ y ∈ above, (y != x) = true := by
    intro y hy
    rw [bne_iff_ne]
    rintro rfl
    exact (nodup_append.1 h).2.2 y hy y (.head _) rfl
  rw [takeWhile_append_of_pos hx, takeWhile_cons_of_neg (by simp), List.append_nil]

theorem sound_settle (hw : Sound N w) {above : List Nat}
    (hpath : w.path = above ++ x :: below) (hdepth : w.depth.getD x 0 = below.length + 1)
    (hinit : ∀ z ∈ above ++ [x], ∀ a ∈ N.init z, a ∈ (w.set x).toList)
    (hlinks : ∀ z ∈ above ++ [x], ∀ y ∈ N.relation z, Followed N w x y) :
    Sound N (w.settle (N.count + 1) x) ∧ (w.settle (N.count + 1) x).path = below ∧
      (∀ z ∈ above ++ [x], Settled N (w.settle (N.count + 1) x) z) ∧
      ∀ z, z ∉ above ++ [x] → (w.settle (N.count + 1) x).depth.getD z 0 = w.depth.getD z 0 ∧
        (w.settle (N.count + 1) x).set z = w.set z := by
  have hnodup := hw.nodup
  rw [hpath] at hnodup
  have hmembers : w.path.takeWhile (· != x) ++ [x] = above ++ [x] := by rw [hpath, takeWhile_ne hnodup]
  have hlt : ∀ z ∈ above ++ [x], z < N.count := by
    intro z hz
    refine hw.path_lt z ?_
    rw [hpath, append_cons]
    exact mem_append_left _ hz
  have hx : x < N.count := hlt x (by simp)
  have hdrop : (w.settle (N.count + 1) x).path = below := by
    unfold settle
    dsimp only
    rw [hmembers, hpath, append_cons above x below, drop_left]
  have hd : ∀ z, (w.settle (N.count + 1) x).depth.getD z 0 =
      if z ∈ above ++ [x] then N.count + 1 else w.depth.getD z 0 := by
    intro z
    unfold settle
    rw [hmembers, getD_foldl_set! _ _ (hw.depths ▸ hlt)]
  have hslot : ∀ z, (w.settle (N.count + 1) x).slot.getD z 0 =
      if z ∈ above ++ [x] then w.slot.getD x 0 else w.slot.getD z 0 := by
    intro z
    unfold settle
    rw [hmembers, getD_foldl_set! _ _ (hw.slots ▸ hlt)]
  have hset : ∀ z, (w.settle (N.count + 1) x).set z = if z ∈ above ++ [x] then w.set x else w.set z := by
    intro z
    unfold set
    rw [hslot]
    split <;> rfl
  -- a link from a member leads to a member or to a settled transition
  have hgoal : ∀ z ∈ above ++ [x], ∀ a, Goal N z a → a ∈ (w.set x).toList := by
    intro z hz a ha
    refine goal_of_members (fun u hu y hy => ?_) hinit hz ha
    have hf := hlinks u hu y hy
    rcases hw.met y hf.met with hmem | hs
    · left
      obtain ⟨above', below', hsplit⟩ := append_of_mem hmem
      have hlow := hf.low above' below' hsplit
      rw [hpath, append_cons] at hmem
      rcases mem_append.1 hmem with hmem | hmem
      · exact hmem
      -- below `x` the depth would be smaller
      obtain ⟨b1, b2, hb⟩ := append_of_mem hmem
      have heq : above' ++ y :: below' = (above ++ x :: b1) ++ y :: b2 := by
        rw [← hsplit, hpath, hb]
        simp
      have hn := hw.nodup
      rw [hsplit] at hn
      rw [eq_of_append_cons hn heq, hdepth, hb] at hlow
      simp at hlow
      omega
    · exact .inr (hf.goal hs)
  refine ⟨?_, hdrop, ?_, ?_⟩
  · constructor
    · unfold settle
      rw [size_foldl_set!]
      exact hw.depths
    · unfold settle
      rw [size_foldl_set!]
      exact hw.slots
    · intro z hz
      rw [hslot]
      split
      · exact hw.slot_lt x hx
      · exact hw.slot_lt z hz
    · exact hw.good
    · rw [hdrop]
      exact (nodup_cons.1 (nodup_append.1 hnodup).2.1).2
    · intro z hz
      rw [hdrop] at hz
      exact hw.path_lt z (by rw [hpath]; simp [hz])
    · intro z hz
      rw [hdrop] at hz
      unfold Met
      rw [hd]
      split
      · omega
      · exact hw.depth_pos z (by rw [hpath]; simp [hz])
    · intro z above' below' hsplit
      rw [hdrop] at hsplit
      have hz : z ∉ above ++ [x] := by
        rw [append_cons, nodup_append] at hnodup
        exact fun hz => hnodup.2.2 z hz z (by rw [hsplit]; simp) rfl
      rw [hd, if_neg hz]
      exact hw.depth_le z (above ++ x :: above') below' (by rw [hpath, hsplit]; simp)
    · intro z hz
      unfold Met Settled at *
      rw [hd] at hz ⊢
      split at hz
      · rename_i hzm
        rw [if_pos hzm]
        exact .inr rfl
      · rename_i hzm
        rw [if_neg hzm, hdrop]
        rcases hw.met z hz with hmem | hs
        · rw [hpath, append_cons] at hmem
          exact .inl ((mem_append.1 hmem).resolve_left hzm)
        · exact .inr hs
    · intro z hz a ha
      rw [hset]
      split
      · rename_i hzm
        exact hinit z hzm a ha
      · exact hw.start z hz a ha
    · intro z hs a ha
      unfold Settled at hs
      rw [hd] at hs
      rw [hset]
      split at hs
      · rename_i hzm
        rw [if_pos hzm]
        exact hgoal z hzm a ha
      · rename_i hzm
        rw [if_neg hzm]
        exact hw.settled z hs a ha
  · intro z hz
    unfold Settled
    rw [hd, if_pos hz]
  · intro z hz
    rw [hd, hset, if_neg hz, if_neg hz]
    exact ⟨rfl, rfl⟩

/-- All that is above `x` on the way has its initial set in the set of `x`, and its links were
followed. -/
def Gathers (N : Net) (w : Walk) (x : Nat)
    (zs : List Nat) : Prop :=
  ∀ z ∈ zs, (∀ a ∈ N.init z, a ∈ (w.set x).toList) ∧ ∀ y ∈ N.relation z, Followed N w x y

theorem Gathers.later (hw : Sound N w) (h : Later N x w w')
    (hx : x ∈ w.path) (hg : Gathers N w x zs) :
    Gathers N w' x zs := by
  intro z hz
  obtain ⟨hinit, hlinks⟩ := hg z hz
  exact ⟨fun a ha => h.grown x (hw.depth_pos x hx) a (hinit a ha), fun y hy => h.followed hw hx (hlinks y hy)⟩

/-- What a visit of `x` does: it settles `x`, or leaves it on the way with links that lead below. -/
structure Visited (N : Net) (w w' : Walk)
    (x : Nat) : Prop where
  later : Later N x w w'
  left : (w'.path = w.path ∧ Settled N w' x) ∨
    ∃ above, w'.path = above ++ x :: w.path ∧ w'.depth.getD x 0 ≤ w.path.length ∧
      Gathers N w' x (above ++ [x])

/-- While `x` is visited, nothing that was met before depends on which transition is new. -/
theorem Later.of_new (h : Later N y w w') (hy : ¬Met w y) : Later N x w w' := by
  have hne : ∀ z, Met w z → z ≠ y := fun z hz hzy => hy (hzy ▸ hz)
  refine ⟨h.sound, h.path, fun z hz _ => h.depth z hz (hne z hz), fun hx => ?_, h.grown⟩
  exact ⟨h.met hx, (h.depth x hx (hne x hx)).le⟩

/-- The state of a visit of `x` after some of its links; `below` is the way below `x`. -/
structure Visiting (N : Net)
    (w0 w : Walk) (x : Nat) (below ys : List Nat) : Prop where
  later : Later N x w0 w
  path : ∃ above, w.path = above ++ x :: below ∧ Gathers N w x above
  links : ∀ y ∈ ys, Followed N w x y

/-- Absorbing `y` after it was met, perhaps by a visit that left something above. -/
theorem Visiting.absorb (h : Visiting N w0 w x below ys) (hlater : Later N x w w')
    (hmet : Met w' y) (above : List Nat) (habove : w'.path = above ++ w.path)
    (hg : Gathers N w' y above) :
    Visiting N w0 (w'.absorb x y) x below (ys ++ [y]) := by
  obtain ⟨old, hpath, hold⟩ := h.path
  have hw := h.later.sound
  have hw' := hlater.sound
  have hx : x ∈ w.path := by
    rw [hpath]
    simp
  have hx' : x ∈ w'.path := by
    rw [habove]
    exact mem_append_right _ hx
  have hlt := hw'.path_lt x hx'
  have hab := later_absorb hw' hx' hmet
  have hdepth : (w'.absorb x y).depth.getD x 0 ≤ w'.depth.getD y 0 := by
    rw [depth_absorb hw' hlt, if_pos rfl]
    exact min_le_right _ _
  have hsets : ∀ a ∈ (w'.set y).toList, a ∈ ((w'.absorb x y).set x).toList := (sets_absorb hw' hlt y).2.2.2
  have hboth := hlater.trans hab
  refine ⟨h.later.trans hboth, ⟨above ++ old, ?_, ?_⟩, ?_⟩
  · rw [path_absorb, habove, hpath, List.append_assoc]
  · intro z hz
    rcases mem_append.1 hz with hz | hz
    · -- what `y` gathered comes to `x`
      obtain ⟨hinit, hlinks⟩ := hg z hz
      refine ⟨fun a ha => hsets a (hinit a ha), fun u hu => ?_⟩
      have hf := hlinks u hu
      refine ⟨hab.met hf.met, fun a b hsplit => ?_, fun hs a ha => ?_⟩
      · rw [path_absorb] at hsplit
        exact hdepth.trans (hf.low a b hsplit)
      · exact hsets a (hf.goal ((hab.settled_iff hw' hx' hf.met).1 hs) a ha)
    · exact Gathers.later hw hboth hx hold z hz
  · intro u hu
    rcases mem_append.1 hu with hu | hu
    · exact hboth.followed hw hx (h.links u hu)
    rw [mem_singleton.1 hu]
    refine ⟨hab.met hmet, fun a b hsplit => ?_, fun hs a ha => ?_⟩
    · rw [path_absorb] at hsplit
      exact hdepth.trans (hw'.depth_le y a b hsplit)
    · exact hsets a (hw'.settled y ((hab.settled_iff hw' hx' hmet).1 hs) a ha)

/-- The end of a visit: `x` is settled if no link led below it. -/
theorem Visiting.finish (hw : Sound N w) (hx : x < N.count)
    (hnew : ¬Met w x) (h : Visiting N (w.entered x) u x w.path (N.relation x)) :
    Visited N w (if u.depth.getD x 0 == w.path.length + 1 then u.settle (N.count + 1) x else u) x := by
  have hu := h.later.sound
  have hlater := (later_entered hw hx hnew).trans h.later
  obtain ⟨above, hpath, habove⟩ := h.path
  have hg : Gathers N u x (above ++ [x]) := by
    intro z hz
    rcases mem_append.1 hz with hz | hz
    · exact habove z hz
    · rw [mem_singleton.1 hz]
      exact ⟨hu.start x hx, h.links⟩
  by_cases hdepth : u.depth.getD x 0 = w.path.length + 1
  · rw [if_pos (by simpa using hdepth)]
    obtain ⟨hsound, hleft, hsettled, hother⟩ :=
      sound_settle hu hpath hdepth (fun z hz => (hg z hz).1) fun z hz => (hg z hz).2
    -- what was met before the visit is not above `x`
    have hold : ∀ y, Met w y → y ∉ above ++ [x] := by
      intro y hy hmem
      have hon : y ∈ u.path := by
        rw [hpath, append_cons]
        exact mem_append_left _ hmem
      rcases hw.met y hy with hmem' | hs
      · have hnodup := hu.nodup
        rw [hpath, append_cons, nodup_append] at hnodup
        exact hnodup.2.2 y hmem y hmem' rfl
      · have hyx : y ≠ x := fun hyx => hnew (hyx ▸ hy)
        refine hu.not_settled hon ?_
        unfold Settled
        rw [hlater.depth y hy hyx]
        exact hs
    refine ⟨⟨hsound, ⟨[], hleft⟩, ?_, fun h => absurd h hnew, ?_⟩, .inl ⟨hleft, hsettled x (by simp)⟩⟩
    · intro y hy hyx
      rw [(hother y (hold y hy)).1, hlater.depth y hy hyx]
    intro y hy a ha
    rw [(hother y (hold y hy)).2]
    exact hlater.grown y hy a ha
  · rw [if_neg (by simpa using hdepth)]
    refine ⟨hlater, .inr ⟨above, hpath, ?_, hg⟩⟩
    have hle := hu.depth_le x above w.path hpath
    omega

theorem visited_visit (hrel : ∀ x, ∀ y ∈ N.relation x, y < N.count) (fuel : Nat)
    (hw : Sound N w) (hx : x < N.count) (hnew : ¬Met w x)
    (hfuel : N.count + 1 ≤ fuel + w.path.length) :
    Visited N w (visit N.relation (N.count + 1) fuel x w) x := by
  induction fuel generalizing w x with
  | zero =>
    have hlen := hw.length_le
    omega
  | succ fuel ih =>
    have hw0 := sound_entered hw hx hnew
    -- the links of `x`, one after another
    have hfold : ∀ (zs ys : List Nat) (u : Walk), ys ++ zs = N.relation x →
        Visiting N (w.entered x) u x w.path ys →
        Visiting N (w.entered x) (zs.foldl (fun w y =>
          (if w.depth.getD y 0 == 0 then visit N.relation (N.count + 1) fuel y w else w).absorb x y) u)
          x w.path (N.relation x) := by
      intro zs
      induction zs with
      | nil =>
        intro ys u hys hu
        rw [List.append_nil] at hys
        rw [← hys]
        exact hu
      | cons y zs ihz =>
        intro ys u hys hu
        rw [foldl_cons]
        refine ihz (ys ++ [y]) _ (by rw [← hys]; simp) ?_
        have hsound := hu.later.sound
        have hy : y < N.count := hrel x y (by rw [← hys]; simp)
        by_cases hmet : u.depth.getD y 0 = 0
        · rw [if_pos (by simpa using hmet)]
          obtain ⟨old, hold, -⟩ := hu.path
          have hvis := ih hsound hy (fun h => h hmet) (by
            rw [hold, length_append, length_cons]
            omega)
          have hlater : Later N x u _ := hvis.later.of_new fun h => h hmet
          rcases hvis.left with ⟨hpath, hs⟩ | ⟨above, hpath, -, hg⟩
          · refine hu.absorb hlater ?_ [] hpath (fun z hz => absurd hz (by simp))
            unfold Met
            rw [hs]
            omega
          · refine hu.absorb hlater ?_ (above ++ [y]) (by rw [hpath]; simp) hg
            exact hvis.later.sound.depth_pos y (by rw [hpath]; simp)
        · rw [if_neg (by simpa using hmet)]
          exact hu.absorb (.refl hsound) hmet [] rfl (fun z hz => absurd hz (by simp))
    exact (hfold (N.relation x) [] (w.entered x) rfl ⟨.refl hw0, ⟨[], rfl, by simp [Gathers]⟩, by simp⟩).finish hw hx hnew

variable {relation : Nat → List Nat} {count : Nat}

def Net.initial (relation : Nat → List Nat) (count : Nat) (slot : Array Nat) (sets : Array SymbolSet) : Net :=
  ⟨relation, count, fun x => (sets.getD (slot.getD x 0) .empty).toList⟩

theorem sound_initial (hslot : slot.size = count) (hlt : ∀ x < count, slot.getD x 0 < sets.size)
    (hgood : ∀ i, (sets.getD i .empty).Good) :
    Sound (.initial relation count slot sets) ⟨Array.replicate count 0, slot, sets, []⟩ := by
  have hzero : ∀ x, (Array.replicate count 0).getD x 0 = 0 := by
    intro x
    rw [Array.getD_eq_getD_getElem?, Array.getElem?_replicate]
    split <;> rfl
  refine ⟨Array.size_replicate, hslot, hlt, hgood, by simp, by simp, by simp, by simp, ?_, ?_, ?_⟩
  · exact fun x hx => absurd (hzero x) hx
  · exact fun x _ a ha => ha
  intro x hs
  unfold Settled at hs
  rw [hzero] at hs
  omega

/-- Between two visits from the top nothing is on the way. -/
structure Between (N : Net) (w : Walk)
    (xs : List Nat) : Prop where
  sound : Sound N w
  path : w.path = []
  settled : ∀ x ∈ xs, Settled N w x

theorem Between.visit (hrel : ∀ x, ∀ y ∈ N.relation x, y < N.count)
    (h : Between N w xs) (hx : x < N.count) :
    Between N (if w.depth.getD x 0 == 0 then visit N.relation (N.count + 1) (N.count + 1) x w else w)
      (xs ++ [x]) := by
  by_cases hnew : w.depth.getD x 0 = 0
  · rw [if_pos (by simpa using hnew)]
    have hv := visited_visit hrel (N.count + 1) h.sound hx (fun hm => hm hnew) (by omega)
    rcases hv.left with ⟨hpath, hs⟩ | ⟨above, hpath, hdepth, -⟩
    · refine ⟨hv.later.sound, hpath.trans h.path, fun z hz => ?_⟩
      rcases mem_append.1 hz with hz | hz
      · have hsz := h.settled z hz
        have hmet : Met w z := by
          unfold Met
          rw [hsz]
          omega
        have hzx : z ≠ x := fun hzx => hmet (hzx ▸ hnew)
        unfold Settled
        rw [hv.later.depth z hmet hzx]
        exact hsz
      · rw [mem_singleton.1 hz]
        exact hs
    · -- with nothing below, the depth of `x` would be zero
      rw [h.path, length_nil, Nat.le_zero] at hdepth
      exact absurd hdepth (hv.later.sound.depth_pos x (by rw [hpath]; simp))
  · rw [if_neg (by simpa using hnew)]
    refine ⟨h.sound, h.path, fun z hz => ?_⟩
    rcases mem_append.1 hz with hz | hz
    · exact h.settled z hz
    rw [mem_singleton.1 hz]
    have hmet := h.sound.met x hnew
    rw [h.path] at hmet
    exact hmet.resolve_left (by simp)

variable (hrel : ∀ x, ∀ y ∈ relation x, y < count) (hslot : slot.size = count)
  (hlt : ∀ x < count, slot.getD x 0 < sets.size) (hgood : ∀ i, (sets.getD i .empty).Good)

include hrel hslot hlt hgood

theorem between_close :
    Between (.initial relation count slot sets)
      (close relation count slot sets) (List.range count) := by
  have hfold : ∀ (ys xs : List Nat) (w : Walk), (∀ y ∈ ys, y < count) →
      Between (.initial relation count slot sets) w xs →
      Between (.initial relation count slot sets)
        (ys.foldl (fun w x => if w.depth.getD x 0 == 0 then Walk.visit relation (count + 1) (count + 1) x w else w) w)
        (xs ++ ys) := by
    intro ys
    induction ys with
    | nil => simp
    | cons y ys ih =>
      intro xs w hys h
      rw [foldl_cons, append_cons]
      exact ih _ _ (fun z hz => hys z (.tail _ hz)) (h.visit hrel (hys y (.head _)))
  exact hfold (List.range count) [] _ (fun y hy => mem_range.1 hy) ⟨sound_initial hslot hlt hgood, rfl, by simp⟩

/-- In the end the set of every transition holds the initial sets of all that it leads to. -/
theorem mem_set_close (hx : x < count) (hreach : Relation.ReflTransGen (Links relation) x y)
    (ha : a ∈ (sets.getD (slot.getD y 0) .empty).toList) :
    a ∈ ((close relation count slot sets).set x).toList := by
  have h := between_close hrel hslot hlt hgood
  exact h.sound.settled x (h.settled x (mem_range.2 hx)) a ⟨y, hreach, ha⟩

end Walk

end Tabc.Automaton
