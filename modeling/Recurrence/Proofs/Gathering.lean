import Recurrence.Period.Basic

/-! Gathering clauses by scale: each scale that is named gets one clause, which has the spans of
all its clauses in their order. -/

namespace Recurrence

namespace SubPeriod

def scales (cs : List Clause) : List Scale := cs.map Clause.scale

def spansOn (s : Scale) (cs : List Clause) : List Span :=
  (cs.filter fun c => c.scale = s).flatMap Clause.spans

/-- Adds further clauses to some that are gathered already. -/
def gather (merged cs : List Clause) : List Clause :=
  cs.foldl (fun merged c => addClause c merged) merged

theorem gather_cons (merged : List Clause) (c : Clause) (cs : List Clause) :
    gather merged (c :: cs) = gather (addClause c merged) cs := rfl

theorem spansOn_nil (s : Scale) : spansOn s [] = [] := rfl

theorem spansOn_append (s : Scale) (cs ds : List Clause) :
    spansOn s (cs ++ ds) = spansOn s cs ++ spansOn s ds := by
  simp [spansOn]

theorem spansOn_cons (s : Scale) (c : Clause) (cs : List Clause) :
    spansOn s (c :: cs) = (if c.scale = s then c.spans else []) ++ spansOn s cs := by
  by_cases hs : c.scale = s <;> simp [spansOn, hs]

theorem spansOn_eq_nil {s : Scale} {cs : List Clause} (h : s ∉ scales cs) : spansOn s cs = [] := by
  have hnone : cs.filter (fun c => c.scale = s) = [] := by
    apply List.filter_eq_nil_iff.mpr
    intro c hc hs
    exact h (List.mem_map.mpr ⟨c, hc, by simpa using hs⟩)
  simp [spansOn, hnone]

theorem mem_spansOn {s : Scale} {cs : List Clause} {r : Span} :
    r ∈ spansOn s cs ↔ ∃ c ∈ cs, c.scale = s ∧ r ∈ c.spans := by
  simp [spansOn, and_assoc]

theorem spansOn_of_mem {cs : List Clause} (hnd : (scales cs).Nodup) {c : Clause} (hc : c ∈ cs) :
    spansOn c.scale cs = c.spans := by
  induction cs with
  | nil => simp at hc
  | cons d ds ih =>
    have hn := List.nodup_cons.mp hnd
    rcases List.mem_cons.mp hc with rfl | hc
    · simp [spansOn_cons, spansOn_eq_nil hn.1]
    · have hne : d.scale ≠ c.scale := fun he => hn.1 (he ▸ List.mem_map_of_mem hc)
      simp [spansOn_cons, hne, ih hn.2 hc]

theorem scales_addClause (c : Clause) (ds : List Clause) :
    scales (addClause c ds) =
      if c.scale ∈ scales ds then scales ds else scales ds ++ [c.scale] := by
  induction ds with
  | nil => simp [addClause, scales]
  | cons d ds ih =>
    by_cases hs : d.scale = c.scale
    · simp [addClause, scales, hs]
    · have hs' : c.scale ≠ d.scale := fun he => hs he.symm
      have hcons : scales (addClause c (d :: ds)) = d.scale :: scales (addClause c ds) := by
        simp [addClause, scales, hs]
      rw [hcons, ih]
      by_cases hm : c.scale ∈ scales ds
      · have hm' : c.scale ∈ scales (d :: ds) := List.mem_cons_of_mem _ hm
        rw [if_pos hm, if_pos hm']
        rfl
      · have hm' : c.scale ∉ scales (d :: ds) := fun h => (List.mem_cons.mp h).elim hs' hm
        rw [if_neg hm, if_neg hm']
        rfl

theorem nodup_addClause {ds : List Clause} (hnd : (scales ds).Nodup) (c : Clause) :
    (scales (addClause c ds)).Nodup := by
  rw [scales_addClause]
  by_cases hm : c.scale ∈ scales ds
  · rwa [if_pos hm]
  · rw [if_neg hm, List.nodup_append]
    refine ⟨hnd, by simp, ?_⟩
    intro s hs s' hs' he
    have hc : s' = c.scale := List.mem_singleton.mp hs'
    exact hm (hc ▸ he ▸ hs)

theorem mem_scales_addClause {s : Scale} {c : Clause} {ds : List Clause} :
    s ∈ scales (addClause c ds) ↔ s ∈ scales ds ∨ s = c.scale := by
  rw [scales_addClause]
  by_cases hm : c.scale ∈ scales ds
  · rw [if_pos hm]
    exact ⟨.inl, fun h => h.elim id fun he => he ▸ hm⟩
  · simp [if_neg hm]

/-- The scale of the added clause occurs once at most, so its spans do come last. -/
theorem spansOn_addClause {ds : List Clause} (hnd : (scales ds).Nodup) (s : Scale) (c : Clause) :
    spansOn s (addClause c ds) = spansOn s ds ++ spansOn s [c] := by
  induction ds with
  | nil => rfl
  | cons d ds ih =>
    have hn := List.nodup_cons.mp hnd
    by_cases hs : d.scale = c.scale
    · by_cases hc : c.scale = s
      · have hnone : spansOn s ds = [] := spansOn_eq_nil (hc ▸ hs ▸ hn.1)
        simp [addClause, spansOn_cons, spansOn_nil, hs, hc, hnone]
      · simp [addClause, spansOn_cons, spansOn_nil, hs, hc]
    · have hcons : addClause c (d :: ds) = d :: addClause c ds := by simp [addClause, hs]
      rw [hcons, spansOn_cons, ih hn.2, spansOn_cons s d ds, List.append_assoc]

theorem nodup_nil : (scales []).Nodup := List.nodup_nil

theorem nodup_gather {merged : List Clause} (hnd : (scales merged).Nodup) (cs : List Clause) :
    (scales (gather merged cs)).Nodup := by
  induction cs generalizing merged with
  | nil => exact hnd
  | cons c cs ih => exact ih (nodup_addClause hnd c)

theorem mem_scales_gather {s : Scale} {merged cs : List Clause} :
    s ∈ scales (gather merged cs) ↔ s ∈ scales merged ∨ s ∈ scales cs := by
  induction cs generalizing merged with
  | nil => simp [gather, scales]
  | cons c cs ih =>
    rw [gather_cons, ih, mem_scales_addClause]
    simp [scales, or_assoc]

theorem spansOn_gather {merged : List Clause} (hnd : (scales merged).Nodup) (s : Scale)
    (cs : List Clause) : spansOn s (gather merged cs) = spansOn s merged ++ spansOn s cs := by
  induction cs generalizing merged with
  | nil => simp [gather, spansOn]
  | cons c cs ih =>
    rw [gather_cons, ih (nodup_addClause hnd c), spansOn_addClause hnd, List.append_assoc,
      ← spansOn_append, List.singleton_append]

theorem spans_of_mem_gather {c : Clause} {cs : List Clause} (hc : c ∈ gather [] cs) :
    c.spans = spansOn c.scale cs := by
  rw [← spansOn_of_mem (nodup_gather nodup_nil cs) hc, spansOn_gather nodup_nil]
  rfl

theorem scale_of_mem_gather {c : Clause} {cs : List Clause} (hc : c ∈ gather [] cs) :
    c.scale ∈ scales cs := by
  rcases mem_scales_gather.mp (List.mem_map_of_mem (f := Clause.scale) hc) with hs | hs
  · simp [scales] at hs
  · exact hs

theorem exists_mem_gather {s : Scale} {cs : List Clause} (hs : s ∈ scales cs) :
    ∃ c ∈ gather [] cs, c.scale = s :=
  List.mem_map.mp (mem_scales_gather.mpr (.inr hs))

theorem addClause_of_not_mem {c : Clause} {ds : List Clause} (h : c.scale ∉ scales ds) :
    addClause c ds = ds ++ [c] := by
  induction ds with
  | nil => rfl
  | cons d ds ih =>
    have hd : d.scale ≠ c.scale := fun he => h (he ▸ List.mem_cons_self)
    have hds : c.scale ∉ scales ds := fun hm => h (List.mem_cons_of_mem _ hm)
    simp [addClause, hd, ih hds]

theorem gather_of_nodup {merged cs : List Clause} (hnd : (scales (merged ++ cs)).Nodup) :
    gather merged cs = merged ++ cs := by
  induction cs generalizing merged with
  | nil => simp [gather]
  | cons c cs ih =>
    have hc : c.scale ∉ scales merged := by
      intro hm
      rw [scales, List.map_append] at hnd
      exact (List.nodup_append.mp hnd).2.2 _ hm c.scale (by simp) rfl
    rw [gather_cons, addClause_of_not_mem hc, ih (by simpa using hnd), List.append_assoc]
    rfl

end SubPeriod

end Recurrence
