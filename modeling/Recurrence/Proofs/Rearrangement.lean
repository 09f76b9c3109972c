import Mathlib.Logic.Basic
import Recurrence.Proofs.Meaning
import Recurrence.Proofs.WrittenClauses

/-! Sub-periods, clauses and spans may stand in any order and be written any number of times. The
clauses that are gathered from them differ, and so does the printed form; the times in the period
do not. -/

namespace Recurrence

/-- One list comes from the other by moving members, by writing some of them once more or once less
and by putting others in their place that are alike. -/
inductive Rearranged {α : Type} (alike : α → α → Prop) : List α → List α → Prop
  | perm {as bs : List α} (h : as.Perm bs) : Rearranged alike as bs
  | repeated (a : α) (as : List α) : Rearranged alike (a :: as) (a :: a :: as)
  | replaced {a b : α} (h : alike a b) (as : List α) : Rearranged alike (a :: as) (b :: as)
  | symm {as bs : List α} (h : Rearranged alike as bs) : Rearranged alike bs as
  | trans {as bs cs : List α} (h : Rearranged alike as bs) (h' : Rearranged alike bs cs) :
      Rearranged alike as cs

/-- Each member of the first list is like one of the second. -/
def Within {α : Type} (alike : α → α → Prop) (as bs : List α) : Prop :=
  ∀ a ∈ as, ∃ b ∈ bs, alike a b

section Lists

variable {α β : Type} {alike : α → α → Prop} {as bs cs : List α}

theorem Within.of_subset (heq : Equivalence alike) (h : as ⊆ bs) : Within alike as bs :=
  fun a ha => ⟨a, h ha, heq.refl a⟩

theorem Within.trans (heq : Equivalence alike) (h : Within alike as bs)
    (h' : Within alike bs cs) : Within alike as cs := by
  intro a ha
  obtain ⟨b, hb, hab⟩ := h a ha
  obtain ⟨c, hc, hbc⟩ := h' b hb
  exact ⟨c, hc, heq.trans hab hbc⟩

theorem Within.cons {a b : α} (heq : Equivalence alike) (h : alike a b) (as : List α) :
    Within alike (a :: as) (b :: as) :=
  List.forall_mem_cons.mpr ⟨⟨b, List.mem_cons_self, h⟩,
    Within.of_subset heq (List.subset_cons_self b as)⟩

namespace Rearranged

theorem refl (as : List α) : Rearranged alike as as := .perm (.refl as)

theorem within (heq : Equivalence alike) (h : Rearranged alike as bs) :
    Within alike as bs ∧ Within alike bs as := by
  induction h with
  | perm h => exact ⟨.of_subset heq h.subset, .of_subset heq h.symm.subset⟩
  | repeated a as => exact ⟨.of_subset heq (by simp), .of_subset heq (by simp)⟩
  | replaced h as => exact ⟨.cons heq h as, .cons heq (heq.symm h) as⟩
  | symm _ ih => exact ih.symm
  | trans _ _ ih ih' => exact ⟨ih.1.trans heq ih'.1, ih'.2.trans heq ih.2⟩

/-- What is like a member already there can be written in front: that member is written once more
and the new one put in its place. -/
theorem append_of_within (heq : Equivalence alike) (h : Within alike as bs) :
    Rearranged alike bs (as ++ bs) := by
  induction as with
  | nil => exact .refl bs
  | cons a as ih =>
    obtain ⟨⟨b, hb, hab⟩, hrest⟩ := List.forall_mem_cons.mp h
    obtain ⟨before, after, hsplit⟩ := List.append_of_mem (List.mem_append_right as hb)
    have hfront : (as ++ bs).Perm (b :: (before ++ after)) := hsplit ▸ List.perm_middle
    have htwice : Rearranged alike bs (b :: b :: (before ++ after)) :=
      ((ih hrest).trans (.perm hfront)).trans (.repeated b _)
    exact (htwice.trans (.replaced (heq.symm hab) _)).trans (.perm (hfront.symm.cons a))

theorem iff_within (heq : Equivalence alike) :
    Rearranged alike as bs ↔ Within alike as bs ∧ Within alike bs as := by
  constructor
  · exact within heq
  · rintro ⟨h, h'⟩
    have hall : Rearranged alike as (as ++ bs) :=
      (append_of_within heq h').trans (.perm List.perm_append_comm)
    exact hall.trans (append_of_within heq h).symm

theorem exists_iff (heq : Equivalence alike) (h : Rearranged alike as bs) {holds : α → Prop}
    (hholds : ∀ a b, alike a b → (holds a ↔ holds b)) :
    (∃ a ∈ as, holds a) ↔ ∃ b ∈ bs, holds b := by
  have hwithin : ∀ {as bs : List α}, Within alike as bs → (∃ a ∈ as, holds a) →
      ∃ b ∈ bs, holds b := by
    rintro as bs h ⟨a, ha, hholds'⟩
    obtain ⟨b, hb, hab⟩ := h a ha
    exact ⟨b, hb, (hholds a b hab).mp hholds'⟩
  exact ⟨hwithin (h.within heq).1, hwithin (h.within heq).2⟩

theorem eq_nil_iff (heq : Equivalence alike) (h : Rearranged alike as bs) : as = [] ↔ bs = [] := by
  have hnil : ∀ {as bs : List α}, Within alike as bs → bs = [] → as = [] := by
    rintro as _ h rfl
    apply List.eq_nil_iff_forall_not_mem.mpr
    intro a ha
    obtain ⟨_, hb, -⟩ := h a ha
    exact List.not_mem_nil hb
  exact ⟨hnil (h.within heq).2, hnil (h.within heq).1⟩

theorem eq_iff : Rearranged Eq as bs ↔ ∀ a, a ∈ as ↔ a ∈ bs := by
  rw [iff_within eq_equivalence]
  simp only [Within, exists_eq_right']
  exact ⟨fun h a => ⟨h.1 a, h.2 a⟩, fun h => ⟨fun a => (h a).mp, fun a => (h a).mpr⟩⟩

theorem map {alike' : β → β → Prop} (f : α → β) (hf : ∀ a b, alike a b → alike' (f a) (f b))
    (h : Rearranged alike as bs) : Rearranged alike' (as.map f) (bs.map f) := by
  induction h with
  | perm h => exact .perm (h.map f)
  | repeated a as => exact .repeated (f a) (as.map f)
  | replaced h as => exact .replaced (hf _ _ h) (as.map f)
  | symm _ ih => exact ih.symm
  | trans _ _ ih ih' => exact ih.trans ih'

end Rearranged

end Lists

/-- Clauses on one scale with the same spans, rearranged. -/
structure Clause.Alike (c d : Clause) : Prop where
  scale_eq : c.scale = d.scale
  spans : Rearranged Eq c.spans d.spans

/-- Sub-periods of one kind, with the same clauses but for the order of clauses and spans and how
often they are repeated. -/
inductive SubPeriod.Alike : SubPeriod → SubPeriod → Prop
  | always : Alike .always .always
  | never : Alike .never .never
  | clauses {cs ds : List Clause} (h : Rearranged Clause.Alike cs ds) :
      Alike (.clauses cs) (.clauses ds)

theorem Clause.alike_equivalence : Equivalence Clause.Alike where
  refl _ := ⟨rfl, .refl _⟩
  symm h := ⟨h.scale_eq.symm, h.spans.symm⟩
  trans h h' := ⟨h.scale_eq.trans h'.scale_eq, h.spans.trans h'.spans⟩

theorem SubPeriod.alike_equivalence : Equivalence SubPeriod.Alike where
  refl sub := by
    cases sub with
    | always => exact .always
    | never => exact .never
    | clauses cs => exact .clauses (.refl cs)
  symm h := by
    cases h with
    | always => exact .always
    | never => exact .never
    | clauses h => exact .clauses h.symm
  trans h h' := by
    cases h with
    | always => exact h'
    | never => exact h'
    | clauses h =>
      cases h' with
      | clauses h' => exact .clauses (h.trans h')

instance {α : Type} {alike : α → α → Prop} [DecidableRel alike] (as bs : List α) :
    Decidable (Within alike as bs) :=
  inferInstanceAs (Decidable (∀ a ∈ as, ∃ b ∈ bs, alike a b))

instance (as bs : List Span) : Decidable (Rearranged Eq as bs) :=
  decidable_of_iff _ (Rearranged.iff_within eq_equivalence).symm

instance : DecidableRel Clause.Alike := fun c d =>
  decidable_of_iff (c.scale = d.scale ∧ Rearranged Eq c.spans d.spans)
    ⟨fun h => ⟨h.1, h.2⟩, fun h => ⟨h.scale_eq, h.spans⟩⟩

instance (cs ds : List Clause) : Decidable (Rearranged Clause.Alike cs ds) :=
  decidable_of_iff _ (Rearranged.iff_within Clause.alike_equivalence).symm

instance : DecidableRel SubPeriod.Alike
  | .always, .always => isTrue .always
  | .never, .never => isTrue .never
  | .clauses cs, .clauses ds =>
    decidable_of_iff (Rearranged Clause.Alike cs ds) ⟨.clauses, fun h => by cases h; assumption⟩
  | .always, .never => isFalse nofun
  | .always, .clauses _ => isFalse nofun
  | .never, .always => isFalse nofun
  | .never, .clauses _ => isFalse nofun
  | .clauses _, .always => isFalse nofun
  | .clauses _, .never => isFalse nofun

instance (subs subs' : List SubPeriod) : Decidable (Rearranged SubPeriod.Alike subs subs') :=
  decidable_of_iff _ (Rearranged.iff_within SubPeriod.alike_equivalence).symm

theorem Clause.Alike.holds_eq {c d : Clause} (h : c.Alike d) (t : DateTime) :
    c.holds t = d.holds t := by
  rw [Bool.eq_iff_iff, Clause.holds_iff, Clause.holds_iff, h.scale_eq]
  exact h.spans.exists_iff eq_equivalence fun r r' hr => by rw [hr]

namespace SubPeriod

/-- A scale gets a clause on either side, and the same spans go into both. -/
theorem within_gather {cs ds : List Clause} (h : Rearranged Clause.Alike cs ds) :
    Within Clause.Alike (gather [] cs) (gather [] ds) := by
  have hscales : ∀ s, s ∈ scales cs ↔ s ∈ scales ds := by
    intro s
    simp only [scales, List.mem_map]
    exact h.exists_iff Clause.alike_equivalence fun c d hcd => by rw [hcd.scale_eq]
  have hspans : ∀ s r, r ∈ spansOn s cs ↔ r ∈ spansOn s ds := by
    intro s r
    simp only [mem_spansOn]
    exact h.exists_iff Clause.alike_equivalence fun c d hcd => by
      rw [hcd.scale_eq, Rearranged.eq_iff.mp hcd.spans r]
  intro c hc
  obtain ⟨d, hd, hscale⟩ := exists_mem_gather ((hscales _).mp (scale_of_mem_gather hc))
  refine ⟨d, hd, hscale.symm, Rearranged.eq_iff.mpr ?_⟩
  rw [spans_of_mem_gather hc, spans_of_mem_gather hd, hscale]
  exact hspans c.scale

theorem rearranged_gather {cs ds : List Clause} (h : Rearranged Clause.Alike cs ds) :
    Rearranged Clause.Alike (gather [] cs) (gather [] ds) :=
  (Rearranged.iff_within Clause.alike_equivalence).mpr ⟨within_gather h, within_gather h.symm⟩

namespace Alike

variable {sub sub' : SubPeriod}

theorem gathered (h : sub.Alike sub') : sub.gathered.Alike sub'.gathered := by
  cases h with
  | always => exact .always
  | never => exact .never
  | clauses h => exact .clauses (rearranged_gather h)

theorem holds_eq (h : sub.Alike sub') (t : DateTime) : sub.holds t = sub'.holds t := by
  cases h with
  | always => rfl
  | never => rfl
  | @clauses cs ds h =>
    have hmissed : (∃ c ∈ cs, ¬ c.holds t = true) ↔ ∃ d ∈ ds, ¬ d.holds t = true :=
      h.exists_iff Clause.alike_equivalence fun c d hcd => by rw [hcd.holds_eq t]
    have hall : cs.all (Clause.holds t) = ds.all (Clause.holds t) := by
      rw [Bool.eq_iff_iff, List.all_eq_true, List.all_eq_true]
      simpa using not_congr hmissed
    exact hall

end Alike

end SubPeriod

namespace Period

theorem holds_eq_of_alike {p q : Period}
    (h : Rearranged SubPeriod.Alike p.subPeriods q.subPeriods) (t : DateTime) :
    p.holds t = q.holds t := by
  have hnil := h.eq_nil_iff SubPeriod.alike_equivalence
  have hany : (∃ sub ∈ p.subPeriods, sub.holds t = true) ↔
      ∃ sub ∈ q.subPeriods, sub.holds t = true :=
    h.exists_iff SubPeriod.alike_equivalence fun _ _ hsub => by rw [hsub.holds_eq t]
  rw [Bool.eq_iff_iff]
  simp only [holds, isUnconstrained, List.isEmpty_iff, Bool.or_eq_true, List.any_eq_true, hnil,
    hany]

theorem eq_gathered_of_writes {text : String} {p : Period} {subs : List SubPeriod}
    (h : parse text = .ok p) (hwrites : Writes text.toList subs) :
    p = ⟨subs.map SubPeriod.gathered⟩ := by
  have hsubs : parse text = .ok ⟨subs.map SubPeriod.gathered⟩ := ofChars_of_writes hwrites
  exact Except.ok.inj (h.symm.trans hsubs)

/-- Two texts with one meaning: in the second the sub-periods, the clauses and the weekdays stand in
another order, and one of each is repeated. -/
theorem exists_writes_rearranged :
    ∃ subs subs', Writes "wd \x7bmon fri\x7d hr \x7b9\x7d, never".toList subs ∧
      Writes "never, hr\x7b9\x7dwd\x7bfri mon fri\x7d hr\x7b9\x7d, never".toList subs' ∧
      Rearranged SubPeriod.Alike subs subs' := by
  let days : Clause := ⟨.weekday, [.single 2, .single 6]⟩
  let days' : Clause := ⟨.weekday, [.single 6, .single 2, .single 6]⟩
  let nine : Clause := ⟨.hour, [.single 9]⟩
  have hdays : DerivesClause
      [.word "wd".toList, .opening, .word "mon".toList, .word "fri".toList, .closing] days :=
    .singles rfl ["mon".toList, "fri".toList] [2, 6] rfl (by simp)
  have hdays' : DerivesClause [.word "wd".toList, .opening, .word "fri".toList,
      .word "mon".toList, .word "fri".toList, .closing] days' :=
    .singles rfl ["fri".toList, "mon".toList, "fri".toList] [6, 2, 6] rfl (by simp)
  have hnine : DerivesClause [.word "hr".toList, .opening, .word "9".toList, .closing] nine :=
    .singles rfl ["9".toList] [9] rfl (by simp)
  have hcs : Many DerivesClause _ [days, nine] := (Many.nil.snoc hdays).snoc hnine
  have hcs' : Many DerivesClause _ [nine, days', nine] :=
    ((Many.nil.snoc hnine).snoc hdays').snoc hnine
  refine ⟨[.clauses [days, nine], .never], [.never, .clauses [nine, days', nine], .never],
    ⟨tokens 0 _, scans_tokens (List.all_eq_true.mp rfl) 0, .inr ?_⟩,
    ⟨tokens 0 _, scans_tokens (List.all_eq_true.mp rfl) 0, .inr ?_⟩, by decide⟩
  · exact .snoc (.one (.clauses hcs (by simp))) .never
  · exact .snoc (.snoc (.one .never) (.clauses hcs' (by simp))) .never

/-- Clauses that are rearranged hold at the same times when they are gathered, and so do two texts
that write the same sub-periods but for their order and their repetitions, those of their clauses
and those of the spans, or whose periods are the same but for these. The periods need not be the
same, nor how they are printed. -/
theorem holds_eq_of_rearranged :
    (∀ cs ds, Rearranged Clause.Alike cs ds →
      ∀ t, (SubPeriod.ofClauses cs).holds t = (SubPeriod.ofClauses ds).holds t) ∧
    (∀ a b p q, parse a = .ok p → parse b = .ok q →
      ∀ subs subs', Writes a.toList subs → Writes b.toList subs' →
        Rearranged SubPeriod.Alike subs subs' → ∀ t, p.holds t = q.holds t) ∧
    (∀ p q : Period, Rearranged SubPeriod.Alike p.subPeriods q.subPeriods →
      ∀ t, p.holds t = q.holds t) ∧
    ∃ a b p q, parse a = .ok p ∧ parse b = .ok q ∧
      (∃ subs subs', Writes a.toList subs ∧ Writes b.toList subs' ∧
        Rearranged SubPeriod.Alike subs subs') ∧ p ≠ q ∧ p.text ≠ q.text := by
  refine ⟨?_, ?_, ?_, ?_⟩
  · intro cs ds h t
    exact (SubPeriod.Alike.clauses (SubPeriod.rearranged_gather h)).holds_eq t
  · intro a b p q ha hb subs subs' hsubs hsubs' h t
    rw [eq_gathered_of_writes ha hsubs, eq_gathered_of_writes hb hsubs']
    exact holds_eq_of_alike (h.map SubPeriod.gathered fun _ _ => SubPeriod.Alike.gathered) t
  · intro p q h t
    exact holds_eq_of_alike h t
  · exact ⟨_, _, _, _, rfl, rfl, exists_writes_rearranged, by decide, by decide⟩

/-- An hour without a span beside weekdays, written behind them and on both sides of them, and the
two texts. -/
theorem holds_eq_of_rearranged_of_repeated_hour :
    let cs : List Clause := [⟨.weekday, [⟨2, 6⟩, .single 7]⟩, ⟨.hour, []⟩]
    let ds : List Clause := [⟨.hour, []⟩, ⟨.weekday, [.single 7, ⟨2, 6⟩, .single 7]⟩, ⟨.hour, []⟩]
    let p : Period := ⟨[.clauses [⟨.weekday, [.single 2, .single 6]⟩, ⟨.hour, [.single 9]⟩],
      .never]⟩
    let q : Period := ⟨[.never, .clauses [⟨.hour, [.single 9, .single 9]⟩,
      ⟨.weekday, [.single 6, .single 2, .single 6]⟩], .never]⟩
    Rearranged Clause.Alike cs ds ∧
      (∀ t, (SubPeriod.ofClauses cs).holds t = (SubPeriod.ofClauses ds).holds t) ∧
      parse "wd \x7bmon fri\x7d hr \x7b9\x7d, never" = .ok p ∧
      parse "never, hr\x7b9\x7dwd\x7bfri mon fri\x7d hr\x7b9\x7d, never" = .ok q ∧
      (∀ t, p.holds t = q.holds t) ∧
      Rearranged SubPeriod.Alike p.subPeriods q.subPeriods ∧
      ∀ t, q.holds t = p.holds t := by
  intro cs ds p q
  have hclauses : Rearranged Clause.Alike cs ds := by decide
  have hp : parse "wd \x7bmon fri\x7d hr \x7b9\x7d, never" = .ok p := rfl
  have hq : parse "never, hr\x7b9\x7dwd\x7bfri mon fri\x7d hr\x7b9\x7d, never" = .ok q := rfl
  have hperiods : Rearranged SubPeriod.Alike p.subPeriods q.subPeriods := by decide
  obtain ⟨subs, subs', hsubs, hsubs', hwritten⟩ := exists_writes_rearranged
  obtain ⟨hgathered, htexts, hmodels, -⟩ := holds_eq_of_rearranged
  exact ⟨hclauses, hgathered cs ds hclauses, hp, hq,
    htexts _ _ p q hp hq subs subs' hsubs hsubs' hwritten, hperiods, hmodels q p hperiods.symm⟩

end Period

end Recurrence
