import Tabc.Proofs.Declaration.Pieces

/-!
# Reading statements back in order

Tidy code in which no label stands twice is read in the order of its text: the statements that were made keep
up with the names in the scope (`Progress`).
-/

open List hiding head

namespace Tabc.Declaration

open Tabc.Core Target Target.Build
open List (append_nil)

variable {taken : String → Prop} {known : Option ScopeTable} {s s1 s' : Build} {code a b : List Instr}

attribute [local simp] survey labels_cons Core.labelOf?

/-- Code of statements in which no label stands twice. -/
structure Ready (taken : String → Prop) (code : List Instr) : Prop where
  tidy : Tidy taken code
  once : (labels code).Nodup

theorem nodup_labels_of_suffix (h : a <:+ b) (hb : (labels b).Nodup) : (labels a).Nodup := by
  obtain ⟨front, rfl⟩ := h
  rw [labels_append] at hb
  exact hb.of_append_right

/-- From one state to another these statements were made out of the front of the code. -/
structure Progress (taken : String → Prop) (items : List Target.Node) (s s' : Build) : Prop where
  step : Step taken items s s'
  ready : Ready taken s'.queue
  ends : s'.ends.map Prod.fst = s.ends.map Prod.fst
  suffix : s'.queue <:+ s.queue

namespace Progress

variable {items new : List Target.Node}

theorem trans (h : Progress taken items s s1) (h' : Progress taken new s1 s') : Progress taken (items ++ new) s s' :=
  ⟨h.step.trans h'.step, h'.ready, h'.ends.trans h.ends, h'.suffix.trans h.suffix⟩

theorem congr (h : Progress taken items s s') (hnew : surveyAll new = surveyAll items) : Progress taken new s s' :=
  ⟨⟨h.step.sound, h.step.outer, hnew ▸ h.step.surveys⟩, h.ready, h.ends, h.suffix⟩

theorem after (h : Progress taken items s1 s') (hd : Drift s s1) (hq : s1.queue <:+ s.queue) :
    Progress taken items s s' := ⟨(hd.step .nil).trans h.step, h.ready, h.ends.trans hd.ends, h.suffix.trans hq⟩

theorem tail_ends (h : Progress taken items s s') :
    Progress taken items { s with ends := s.ends.tail } { s' with ends := s'.ends.tail } := by
  refine ⟨h.step.congr rfl (h.step.sound.of_eq rfl rfl) rfl, h.ready, ?_, h.suffix⟩
  rw [map_tail, map_tail, h.ends]

theorem after_pop (h : Progress taken items s1 s') (hs : Sound s)
    (hpop : pop.run s = .ok i s1) : Progress taken items s s' := by
  obtain ⟨hd, hq⟩ := drift_pop hs hpop
  exact h.after hd (hq ▸ suffix_cons i _)

theorem after_pop_tail (h : Progress taken items { s1 with ends := s1.ends.tail } s')
    (hs : Sound s) (hpop : pop.run s = .ok i s1) :
    Progress taken items { s with ends := s.ends.tail } s' := by
  obtain ⟨hq, hs1⟩ := eq_of_run_pop hpop
  refine h.after (.of_eq ?_ ?_ ?_) (hq ▸ suffix_cons i _)
  · exact (drift_pop hs hpop).1.sound.of_eq rfl rfl
  · rw [hs1]
  · rw [hs1]

end Progress

/-- What reading an instruction does. If it gives an operand, this is nothing, or the instruction was a
label and nothing else was read. -/
structure Built (taken : String → Prop) (i : Instr) (made : Made) (s s' : Build) : Prop where
  progress : Progress taken (itemsOf made) s s'
  label : ∀ o, made = .operand o → o = .nothing ∨ i = .label o ∧ s'.queue = s.queue

variable {made : Made} {i : Instr} {cond : List Target.Node}

theorem exists_of_addTo (h : made.addTo acc = .ok acc') :
    ∃ extra, acc' = acc ++ extra ∧ surveyAll extra = surveyAll (itemsOf made) := by
  have hchars {α : Type} (l : List α) (f : α → String) :
      surveyAll (l.map fun c => Target.Node.text (f c)) = surveyAll [] := by
    refine Plain.surveyAll_eq fun n hn => ?_
    obtain ⟨c, -, rfl⟩ := mem_map.1 hn
    simp [Target.Node.text]
  cases made with
  | stmts items => cases h; exact ⟨items, rfl, rfl⟩
  | operand o =>
    cases o with
    | name x => cases h; exact ⟨_, rfl, hchars _ _⟩
    | names l => cases h; exact ⟨_, rfl, hchars _ _⟩
    | _ => cases h

theorem itemsOf_eq_nil (h : made.present = false) : itemsOf made = [] := by
  cases made with
  | stmts items => simpa [Made.present, itemsOf] using h
  | operand o => rfl

/-- Statements were added to others, made out of the front of the code. -/
def Grown (taken : String → Prop) (acc items : List Target.Node) (s s' : Build) : Prop :=
  ∃ new, items = acc ++ new ∧ Progress taken new s s'

theorem Grown.added {items : List Target.Node} (hp : Progress taken (itemsOf made) s s1)
    (hadd : made.addTo acc = .ok acc') (h : Grown taken acc' items s1 s') : Grown taken acc items s s' := by
  obtain ⟨extra, rfl, hextra⟩ := exists_of_addTo hadd
  obtain ⟨new, rfl, hnew⟩ := h
  exact ⟨extra ++ new, by simp, (hp.congr hextra).trans hnew⟩

theorem Grown.absent (hp : Progress taken (itemsOf made) s s1) (hmade : ¬ made.present = true)
    (h : Grown taken acc items s1 s') : Grown taken acc items s s' := by
  obtain ⟨new, rfl, hnew⟩ := h
  rw [itemsOf_eq_nil (by simpa using hmade)] at hp
  exact ⟨new, rfl, hp.trans hnew⟩

theorem Neutral.plain (h : Neutral made) : Plain (itemsOf made) := by
  rcases h with rfl | ⟨items, rfl, hitems⟩
  · exact .nil
  · exact hitems

theorem Evaluated.built (h : Evaluated code s s' made) (hready : Ready taken code)
    (hq : code <:+ s.queue) : Built taken i made s s' := by
  refine ⟨⟨h.drift.step h.neutral.plain, h.queue ▸ hready, h.drift.ends, h.queue ▸ hq⟩, ?_⟩
  rintro o rfl
  rcases h.neutral with ho | ⟨items, ho, -⟩
  · cases ho
    exact .inl rfl
  · cases ho

def beginsPiece : Instr → Bool
  | .call .. | .collection .. => true
  | i => computes i

theorem Piece.begins (h : Piece (i :: p)) : beginsPiece i = true := by
  cases h with
  | single h => cases i <;> first | rfl | exact h
  | call => rfl
  | collection => rfl

theorem Tidy.tail_elseBranch {f c : Operand} (h : Tidy taken (.elseBranch f c :: code)) : Tidy taken code := by
  generalize hwhole : Instr.elseBranch f c :: code = whole at h
  cases h with
  | piece hp _ =>
    obtain ⟨i, p, rfl⟩ := hp.exists_cons
    cases hwhole
    cases hp.begins
  | single hi _ => cases hwhole; cases hi
  | further _ _ h => cases hwhole; exact h
  | _ => cases hwhole

theorem Tidy.tail_label (hx : labelKind x = .plain) (h : Tidy taken (.label (.name x) :: code)) : Tidy taken code := by
  generalize hwhole : Instr.label (.name x) :: code = whole at h
  cases h with
  | piece hp _ =>
    obtain ⟨i, p, rfl⟩ := hp.exists_cons
    cases hwhole
    cases hp.begins
  | single _ h => cases hwhole; exact h
  | loop hl => cases hwhole; simp [hx] at hl
  | range hl => cases hwhole; simp [hx] at hl
  | each hl => cases hwhole; simp [hx] at hl
  | function hl => cases hwhole; exact absurd hx hl
  | _ => cases hwhole

theorem suffix_of_cons_eq (h : i :: q = a ++ j :: r) : r <:+ q := by
  cases a with
  | nil => exact (List.cons.inj h).2 ▸ suffix_rfl
  | cons k a => exact (List.cons.inj h).2 ▸ (suffix_cons j r).trans (suffix_append a _)

theorem eq_of_nodup_labels (h : a ++ .label (.name f) :: b = a' ++ .label (.name f) :: b')
    (hnodup : (labels (a ++ .label (.name f) :: b)).Nodup) : b = b' := by
  have hmem {code : List Instr} (hf : .label (.name f) ∈ code) : f ∈ labels code := mem_filterMap.2 ⟨_, hf, rfl⟩
  rw [labels_append, nodup_append] at hnodup
  obtain ⟨-, hb, ha⟩ := hnodup
  have hfront : .label (.name f) ∉ a := fun hf => ha f (hmem hf) f mem_cons_self rfl
  exact ((append_cons_inj_of_notMem hfront fun hf => (nodup_cons.1 hb).1 (hmem hf)).1 h).2.2

theorem computes_append (obj value idx : Operand) : Computes (append .fourth obj value idx) :=
  .bind (.ofExcept _) fun _ => .bind (.ofExcept _) fun _ => .bind (drifts_elementType obj) fun _ =>
    .stmts (by simp [Plain])

theorem computes_ret (value : Operand) : Computes (ret .fourth value) :=
  .bind (.ofExcept _) fun _ => .stmts (by simp [Plain])

theorem computes_goto (label : Operand) : Computes (goto label) := by
  refine .bind .get fun s => of_ite (.stmts .nil) (.bind ?_ fun _ => .stmts .nil)
  exact .modify fun _ hs => ⟨.of_eq (hs.of_eq rfl rfl) rfl rfl, rfl⟩

theorem buildCore_label (x : String) (fuel : Nat) :
    buildCore .fourth known (fuel + 1) (.label (.name x)) = match labelKind x with
      | .forRange => do
        let i ← pop
        let s ← get
        rangeHead .fourth known fuel (s.start, s.stop, s.step) [] .none i
      | .forEach => do
        eachHead .fourth known fuel ⟨.nothing, .nothing, .nothing, none, none⟩ [] (← pop)
      | .whileDo => do whileHead .fourth known fuel [] (← pop)
      | .function => do functionHead .fourth known fuel (functionName x) (← pop)
      | .plain => return .operand (.name x) := by
  rw [buildCore, labelKind]
  split_ifs <;> rfl

theorem eq_of_run_endChain (h : endChain.run s = .ok u s') : s' = { s with ends := s.ends.tail } := by
  have h := of_run_bind_ok h rfl
  split at h
  · cases h
  rename_i hends
  cases h
  rw [hends]
  rfl

/-- Statements that a survey does not see may stand anywhere in front of a chain. -/
theorem surveyAll_insert (hcond : Plain cond) (chain : List Target.Node) (n : Nat) :
    surveyAll (chain.take n ++ cond ++ chain.drop n) = surveyAll chain := by
  rw [surveyAll_append, surveyAll_append, hcond.surveyAll_eq, Survey.both_nothing, ← surveyAll_append, take_append_drop]

theorem exists_of_run_insertCondition {chain result : List Target.Node} (hcond : Plain cond)
    (h : (insertCondition chain cond).run s = .ok result s') :
    surveyAll result = surveyAll chain ∧ s'.ends.map Prod.fst = s.ends.map Prod.fst ∧
      s' = { s with ends := s'.ends } := by
  have h := of_run_bind_ok h rfl
  split at h
  · cases h
  rename_i hends
  cases h
  exact ⟨surveyAll_insert hcond chain _, by rw [hends]; rfl, rfl⟩

section

variable (taken : String → Prop) (known : Option ScopeTable) (fuel : Nat)

/-! What is known of the steps of building with some fuel, if they do not fail. -/

def ReadsBody : Prop := ∀ {f acc s items s'}, Ready taken s.queue → Sound s →
  (body .fourth known fuel (.name f) acc).run s = .ok items s' →
  Grown taken acc items s s' ∧ ∃ front, s.queue = front ++ .label (.name f) :: s'.queue

def ReadsChain : Prop := ∀ {f c s made s'}, Ready taken s.queue → Chained f s.queue → Sound s →
  (chain .fourth known fuel (.name f) c).run s = .ok made s' → ∃ items, made = .stmts items ∧ Progress taken items s s'

def ReadsMore : Prop := ∀ {stop items i s made s'}, Ready taken (i :: s.queue) → Ending stop (i :: s.queue) →
  Sound s → s.ends.head?.map Prod.fst = some (.name stop) →
  (more .fourth known fuel items i).run s = .ok made s' →
  ∃ result new, made = .stmts result ∧ surveyAll result = surveyAll (items ++ new) ∧
    Progress taken new { s with ends := s.ends.tail } s'

def ReadsOtherwise : Prop := ∀ {acc i s items s'}, Ready taken (i :: s.queue) → Sound s →
  (otherwise .fourth known fuel acc i).run s = .ok items s' → Grown taken acc items s s'

def ReadsCondition : Prop := ∀ {cond f c q acc i s head s'}, Ready taken (i :: s.queue) → Computing cond →
  i :: s.queue = cond ++ .elseBranch f c :: q → Sound s → Plain acc →
  (condition .fourth known fuel acc i).run s = .ok head s' → Plain head.1 ∧ Drift s s' ∧ s'.queue = q ∧ Ready taken q

def ReadsWhile : Prop := ∀ {cond f c q acc i s made s'}, Ready taken q → Computing cond →
  i :: s.queue = cond ++ .branch (.name f) c :: q → Sound s → Plain acc →
  (whileHead .fourth known fuel acc i).run s = .ok made s' → ∃ items, made = .stmts items ∧ Progress taken items s s'

def ReadsFunction : Prop := ∀ {acc s items s'}, Ready taken s.queue → Sound s →
  (functionBody .fourth known fuel acc).run s = .ok items s' → Grown taken acc items s s'

structure Reads : Prop where
  instr : ∀ {i s made s'}, Ready taken (i :: s.queue) → Sound s →
    (buildInstr .fourth known fuel i).run s = .ok made s' → Built taken i made s s'
  body : ReadsBody taken known fuel
  chain : ReadsChain taken known fuel
  more : ReadsMore taken known fuel
  otherwise : ReadsOtherwise taken known fuel
  condition : ReadsCondition taken known fuel
  whileHead : ReadsWhile taken known fuel
  functionBody : ReadsFunction taken known fuel

end

section Bodies

variable {fuel : Nat} (ih : Reads taken known fuel)

include ih

theorem progress_body : ReadsBody taken known (fuel + 1) := by
  intro f acc s items s' hr hs h
  obtain ⟨i, s1, hpop, h1⟩ := of_run_bind h
  obtain ⟨hd, hq⟩ := drift_pop hs hpop
  obtain ⟨made, s2, hmade, h2⟩ := of_run_bind h1
  have hb := ih.instr (hq ▸ hr) hd.sound hmade
  have hp := hb.progress.after_pop hs hpop
  have hfront {acc : List Target.Node} (h3 : (body .fourth known fuel (.name f) acc).run s2 = .ok items s') :
      ∃ front, s.queue = front ++ .label (.name f) :: s'.queue := by
    obtain ⟨-, front, hfront⟩ := ih.body hp.ready hp.step.sound h3
    obtain ⟨start, hstart⟩ := hp.suffix
    exact ⟨start ++ front, by rw [← hstart, hfront, List.append_assoc]⟩
  split at h2
  · rename_i hlabel
    cases h2
    cases made with
    | stmts items => cases hlabel
    | operand o =>
      cases o with
      | name x =>
        obtain rfl : x = f := by
          simp only [Made.isLabel, Operand.same, Bool.and_eq_true, beq_iff_eq] at hlabel
          exact hlabel.2
        obtain ho | ⟨rfl, hqueue⟩ := hb.label _ rfl
        · cases ho
        · exact ⟨⟨[], (append_nil _).symm, hp⟩, [], by rw [hq, hqueue]; rfl⟩
      | _ => simp [Made.isLabel, Operand.same] at hlabel
  · split at h2
    · obtain ⟨acc', hadd, h3⟩ := of_run_ofExcept h2
      exact ⟨.added hp hadd (ih.body hp.ready hp.step.sound h3).1, hfront h3⟩
    · rename_i hpresent
      exact ⟨.absent hp hpresent (ih.body hp.ready hp.step.sound h2).1, hfront h2⟩

theorem progress_otherwise : ReadsOtherwise taken known (fuel + 1) := by
  intro acc i s items s' hr hs h
  obtain ⟨made, s1, hmade, h1⟩ := of_run_bind h
  have hp := (ih.instr hr hs hmade).progress
  have hrest {acc : List Target.Node}
      (h2 : (do otherwise .fourth known fuel acc (← pop)).run s1 = .ok items s') : Grown taken acc items s1 s' := by
    obtain ⟨j, s2, hpop, h3⟩ := of_run_bind h2
    obtain ⟨hd, hq⟩ := drift_pop hp.step.sound hpop
    obtain ⟨new, rfl, hnew⟩ := ih.otherwise (hq ▸ hp.ready) hd.sound h3
    exact ⟨new, rfl, hnew.after_pop hp.step.sound hpop⟩
  split at h1
  · obtain ⟨label, s2, hlabel, h2⟩ := of_run_bind h1
    obtain rfl : s2 = s1 := by
      have hlabel := of_run_bind_ok hlabel rfl
      split at hlabel <;> cases hlabel
      rfl
    split at h2
    · rename_i hmark
      cases h2
      cases made with
      | stmts items => cases hmark
      | operand o => exact ⟨[], (append_nil _).symm, hp⟩
    · obtain ⟨acc', hadd, h3⟩ := of_run_ofExcept h2
      exact .added hp hadd (hrest h3)
  · rename_i hpresent
    exact .absent hp hpresent (hrest h1)

theorem progress_functionBody : ReadsFunction taken known (fuel + 1) := by
  intro acc s items s' hr hs h
  obtain ⟨i, s1, hpop, h1⟩ := of_run_bind h
  obtain ⟨hd, hq⟩ := drift_pop hs hpop
  obtain ⟨made, s2, hmade, h2⟩ := of_run_bind h1
  have hp := (ih.instr (hq ▸ hr) hd.sound hmade).progress.after_pop hs hpop
  split at h2
  · have h3 := of_run_bind_ok h2 rfl
    split at h3
    · cases h3
    split at h3
    · rename_i hmark
      cases h3
      cases made with
      | stmts items => cases hmark
      | operand o =>
        exact ⟨[], (append_nil _).symm, hp.step.congr rfl (hp.step.sound.of_eq rfl rfl) rfl, hp.ready,
          hp.ends, hp.suffix⟩
    · obtain ⟨acc', hadd, h4⟩ := of_run_ofExcept h3
      exact .added hp hadd (ih.functionBody hp.ready hp.step.sound h4)
  · rename_i hpresent
    exact .absent hp hpresent (ih.functionBody hp.ready hp.step.sound h2)

theorem drift_condition : ReadsCondition taken known (fuel + 1) := by
  intro cond f c q acc i s head s' hr hcond hq hs hacc h
  cases hcond with
  | nil =>
    obtain ⟨rfl, rfl⟩ := List.cons.inj hq
    cases h
    exact ⟨hacc, .refl hs, rfl, hr.tidy.tail_elseBranch, nodup_labels_of_suffix (suffix_cons _ _) hr.once⟩
  | cons hp hcond =>
    obtain ⟨j, p, rfl⟩ := hp.exists_cons
    rw [List.append_assoc] at hq
    obtain ⟨rfl, hqueue⟩ := List.cons.inj hq
    rw [condition.eq_3 _ _ _ _ _ (by rintro x c rfl; cases hp.begins)] at h
    obtain ⟨made, s1, hmade, h1⟩ := of_run_bind h
    have he := (evaluates fuel).piece hp hqueue hs hmade
    have hready := (ih.instr hr hs hmade).progress.ready
    have hrest {acc' : List Target.Node} (hacc' : Plain acc')
        (h2 : (do condition .fourth known fuel acc' (← pop)).run s1 = .ok head s') :
        Plain head.1 ∧ Drift s s' ∧ s'.queue = q ∧ Ready taken q := by
      obtain ⟨j, s2, hpop, h3⟩ := of_run_bind h2
      obtain ⟨hd, hq2⟩ := drift_pop he.drift.sound hpop
      obtain ⟨hhead, hd', hq', hrq⟩ := ih.condition (hq2 ▸ hready) hcond (hq2.symm.trans he.queue) hd.sound hacc' h3
      exact ⟨hhead, he.drift.trans (hd.trans hd'), hq', hrq⟩
    split at h1
    · exact hrest hacc h1
    · obtain ⟨acc', hadd, h2⟩ := of_run_ofExcept h1
      exact hrest (plain_addTo he.neutral hadd hacc) h2

theorem progress_whileHead : ReadsWhile taken known (fuel + 1) := by
  intro cond f c q acc i s made s' hr hcond hq hs hacc h
  cases hcond with
  | nil =>
    obtain ⟨rfl, rfl⟩ := List.cons.inj hq
    obtain ⟨x, -, h1⟩ := of_run_ofExcept h
    obtain ⟨items, s2, hbody, h2⟩ := of_run_bind h1
    cases h2
    obtain ⟨⟨_, rfl, hnew⟩, -⟩ := ih.body hr hs hbody
    refine ⟨_, rfl, hnew.congr ?_⟩
    -- The condition is computed again at the end, which a survey does not see.
    have hagain : Plain acc.getLast?.toList := fun n hn => hacc n (mem_of_getLast? (Option.mem_toList.1 hn))
    simp [surveyAll_append, surveyAll_singleton, hacc.surveyAll_eq, hagain.surveyAll_eq]
  | cons hp hcond =>
    obtain ⟨j, p, rfl⟩ := hp.exists_cons
    rw [List.append_assoc] at hq
    obtain ⟨rfl, hqueue⟩ := List.cons.inj hq
    rw [whileHead.eq_3 _ _ _ _ _ (by rintro x c rfl; cases hp.begins)] at h
    obtain ⟨made1, s1, hmade, h1⟩ := of_run_bind h
    have he := (evaluates fuel).piece hp hqueue hs hmade
    obtain ⟨acc', hadd, h2⟩ := of_run_ofExcept h1
    obtain ⟨j, s3, hpop, h3⟩ := of_run_bind h2
    obtain ⟨hd, hq3⟩ := drift_pop he.drift.sound hpop
    obtain ⟨items, rfl, hitems⟩ := ih.whileHead hr hcond (hq3.symm.trans he.queue) hd.sound
      (plain_addTo he.neutral hadd hacc) h3
    refine ⟨items, rfl, (hitems.after_pop he.drift.sound hpop).after he.drift ?_⟩
    rw [he.queue, hqueue]
    exact suffix_append _ _

theorem progress_chain : ReadsChain taken known (fuel + 1) := by
  intro f c s made s' hr hchained hs h
  rw [chain] at h
  simp only [openChainScope, closeChainScope, pure_bind, bind_pure] at h
  have h1 := of_run_bind_ok h rfl
  obtain ⟨label, hlabel, h2⟩ := of_run_ofExcept h1
  obtain ⟨front, stop, rest, hqueue, hending⟩ := hchained
  have hfront : f ∉ labels front := by
    have honce := hr.once
    rw [hqueue, labels_append] at honce
    exact fun hf => disjoint_of_nodup_append honce hf (by simp)
  rw [hqueue, chainLabel_eq hfront] at hlabel
  cases hlabel
  have h3 := of_run_bind_ok h2 rfl
  obtain ⟨cond, -, h4⟩ := of_run_ofExcept h3
  obtain ⟨items, s3, hbody, h5⟩ := of_run_bind h4
  obtain ⟨⟨_, rfl, hnew⟩, front', hfront'⟩ :=
    ih.body (s := { s with ends := (.name stop, 0) :: s.ends }) hr (hs.of_eq rfl rfl) hbody
  have hsame : front' ++ .label (.name f) :: s3.queue =
      (front ++ [.goto (.name stop)]) ++ .label (.name f) :: rest := by
    rw [← hfront']
    simpa using hqueue
  obtain rfl : s3.queue = rest := eq_of_nodup_labels hsame (hfront' ▸ hr.once)
  obtain ⟨i, s4, hpop, h6⟩ := of_run_bind h5
  obtain ⟨hd, hq⟩ := drift_pop hnew.step.sound hpop
  have hends : s4.ends.map Prod.fst = .name stop :: s.ends.map Prod.fst := hd.ends.trans hnew.ends
  obtain ⟨result, new', rfl, hresult, hmore⟩ := ih.more (hq ▸ hnew.ready) (hq ▸ hending) hd.sound
    (by rw [← head?_map, hends]; rfl) h6
  refine ⟨result, rfl, (hnew.tail_ends.trans (hmore.after_pop_tail hnew.step.sound hpop)).congr ?_⟩
  rw [hresult, surveyAll_append, surveyAll_append, surveyAll_singleton, survey, survey]

theorem progress_more : ReadsMore taken known (fuel + 1) := by
  intro stop items i s made s' hr hending hs hends h
  obtain ⟨n, ends, hends⟩ : ∃ n ends, s.ends = (.name stop, n) :: ends := by
    cases hs : s.ends with
    | nil => simp [hs] at hends
    | cons e ends =>
      obtain ⟨label, n⟩ := e
      obtain rfl : label = .name stop := by simpa [hs] using hends
      exact ⟨n, ends, rfl⟩
  rw [more] at h
  simp only [openChainScope, closeChainScope, pure_bind, bind_pure] at h
  have h1 := of_run_bind_ok h rfl
  have h2 := of_run_bind_ok h1 rfl
  obtain ⟨next, hnext, h3⟩ := of_run_ofExcept h2
  have honce := hr.once
  generalize hwhole : i :: s.queue = whole at hending hnext honce
  cases hending with
  | @last front rest hstop helif =>
    have hfront : stop ∉ labels front := by
      rw [labels_append] at honce
      exact fun hf => disjoint_of_nodup_append honce hf (by simp)
    cases front with
    | nil =>
      obtain ⟨rfl, rfl⟩ := List.cons.inj hwhole
      rw [nil_append, hends, continuation] at hnext
      simp only [Operand.same, BEq.rfl, ↓reduceIte] at hnext
      cases hnext
      obtain ⟨_, s2, hend, h4⟩ := of_run_bind h3
      cases h4
      rw [eq_of_run_endChain hend]
      exact ⟨items, [], rfl, by rw [append_nil], .refl (hs.of_eq rfl rfl),
        ⟨hr.tidy.tail_label hstop, nodup_labels_of_suffix (suffix_cons _ _) hr.once⟩, rfl,
        suffix_rfl⟩
    | cons j front =>
      rw [continuation_otherwise hends (cons_ne_nil _ _) helif hfront] at hnext
      cases hnext
      obtain ⟨last, s2, hlast, h4⟩ := of_run_bind h3
      obtain ⟨_, s3, hend, h5⟩ := of_run_bind h4
      cases h5
      rw [eq_of_run_endChain hend]
      obtain ⟨_, rfl, hnew⟩ := ih.otherwise hr hs hlast
      refine ⟨_, [.elseThen (.block last)], rfl, rfl, hnew.tail_ends.congr ?_⟩
      rw [surveyAll_singleton, survey, survey]
  | @further cond f c front rest hcond hending =>
    rw [hends, continuation_condition (by simp [hcond.labels_eq]) hcond.any_isElif] at hnext
    cases hnext
    obtain ⟨⟨head, x⟩, s2, hhead, h4⟩ := of_run_bind h3
    obtain ⟨hplain, hd2, hq2, hr2⟩ := ih.condition hr hcond hwhole hs .nil hhead
    obtain ⟨items3, s3, hinsert, h5⟩ := of_run_bind h4
    obtain ⟨hitems3, hends3, hs3⟩ := exists_of_run_insertCondition hplain hinsert
    have hd3 : Drift s s3 := hd2.trans (.of_table (hs3 ▸ hd2.sound.of_eq rfl rfl) (by rw [hs3]) hends3)
    have hq3 : s3.queue = front ++ .goto (.name stop) :: .label (.name f) :: rest := by rw [hs3, ← hq2]
    obtain ⟨y, -, h6⟩ := of_run_ofExcept h5
    obtain ⟨inner, s5, hbody, h7⟩ := of_run_bind h6
    obtain ⟨⟨_, rfl, hnew⟩, front', hfront'⟩ := ih.body (hq3 ▸ hr2) hd3.sound hbody
    have hsame : front' ++ .label (.name f) :: s5.queue =
        (front ++ [.goto (.name stop)]) ++ .label (.name f) :: rest := by
      rw [← hfront', hq3]
      simp
    obtain rfl : s5.queue = rest := eq_of_nodup_labels hsame (hfront' ▸ hq3 ▸ hr2.once)
    obtain ⟨j, s6, hpop, h8⟩ := of_run_bind h7
    obtain ⟨hd6, hq6⟩ := drift_pop hnew.step.sound hpop
    have hends6 : s6.ends.map Prod.fst = s.ends.map Prod.fst := hd6.ends.trans (hnew.ends.trans hd3.ends)
    obtain ⟨result, new', rfl, hresult, hmore⟩ := ih.more (hq6 ▸ hnew.ready) (hq6 ▸ hending) hd6.sound
      (by rw [← head?_map, hends6, hends]; rfl) h8
    refine ⟨result, [.elifThen y (.block inner)] ++ new', rfl, ?_,
      ((hnew.after hd3 ?_).tail_ends.congr ?_).trans (hmore.after_pop_tail hnew.step.sound hpop)⟩
    · simp only [hresult, surveyAll_append, hitems3, Survey.both_assoc]
    · exact hq3 ▸ suffix_of_cons_eq hwhole
    · rw [surveyAll_singleton, survey, survey]

end Bodies

end Tabc.Declaration
