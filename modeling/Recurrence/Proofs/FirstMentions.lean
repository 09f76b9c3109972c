import Mathlib.Data.List.Induction
import Recurrence.Proofs.Gathering

/-! Gathered clauses told from those that were written: the scales they are on stand in the order of
their first mention, and each has what was written on it anywhere. Clauses that are gathered already
can stand in for those they come from. -/

namespace Recurrence

section Mentions

variable {α : Type} [DecidableEq α]

theorem eraseDups_concat (as : List α) (a : α) :
    (as ++ [a]).eraseDups = if a ∈ as then as.eraseDups else as.eraseDups ++ [a] := by
  rw [List.eraseDups_append, List.cons_removeAll]
  by_cases ha : a ∈ as
  · simp [ha]
  · simp [ha, List.eraseDups_cons]

/-- Only what is mentioned again is left out of `bs`, so it is left out of the whole in any case. -/
theorem eraseDups_append_eraseDups (as bs : List α) :
    (as ++ bs.eraseDups).eraseDups = (as ++ bs).eraseDups := by
  induction bs using List.reverseRecOn with
  | nil => rfl
  | append_singleton bs b ih =>
    have hmem : b ∈ as ++ bs.eraseDups ↔ b ∈ as ++ bs := by simp
    rw [← List.append_assoc, eraseDups_concat, eraseDups_concat]
    by_cases hb : b ∈ bs
    · have hall : b ∈ as ++ bs := List.mem_append_right as hb
      rw [if_pos hb, if_pos hall, ih]
    · rw [if_neg hb, ← List.append_assoc, eraseDups_concat, ih]
      simp only [hmem]

end Mentions

namespace SubPeriod

theorem gather_append (merged cs ds : List Clause) :
    gather merged (cs ++ ds) = gather (gather merged cs) ds := List.foldl_append

theorem scales_append (cs ds : List Clause) : scales (cs ++ ds) = scales cs ++ scales ds :=
  List.map_append

theorem scales_gather (cs : List Clause) : scales (gather [] cs) = (scales cs).eraseDups := by
  induction cs using List.reverseRecOn with
  | nil => rfl
  | append_singleton cs c ih =>
    have hlast : gather (gather [] cs) [c] = addClause c (gather [] cs) := rfl
    have hscale : scales [c] = [c.scale] := rfl
    rw [gather_append, hlast, scales_addClause, ih, scales_append, hscale, eraseDups_concat]
    simp only [List.mem_eraseDups]

/-- One clause for each scale is all that its scales and the spans on them say. -/
theorem eq_map_scales {cs : List Clause} (hnd : (scales cs).Nodup) :
    cs = (scales cs).map fun s => ⟨s, spansOn s cs⟩ := by
  have hmap : cs.map (fun c => (⟨c.scale, spansOn c.scale cs⟩ : Clause)) = cs.map id := by
    apply List.map_congr_left
    intro c hc
    rw [spansOn_of_mem hnd hc]
    rfl
  rw [scales, List.map_map]
  exact (hmap.trans (List.map_id cs)).symm

theorem gather_eq_map (cs : List Clause) :
    gather [] cs = (scales cs).eraseDups.map fun s => ⟨s, spansOn s cs⟩ := by
  have hspans : ∀ s, spansOn s (gather [] cs) = spansOn s cs :=
    fun s => spansOn_gather nodup_nil s cs
  rw [eq_map_scales (nodup_gather nodup_nil cs), scales_gather]
  simp only [hspans]

theorem gather_append_gather (cs ds : List Clause) :
    gather [] (cs ++ gather [] ds) = gather [] (cs ++ ds) := by
  have hspans : ∀ s, spansOn s (cs ++ gather [] ds) = spansOn s (cs ++ ds) := by
    intro s
    rw [spansOn_append, spansOn_append, spansOn_gather nodup_nil]
    rfl
  have hscales : (scales (cs ++ gather [] ds)).eraseDups = (scales (cs ++ ds)).eraseDups := by
    rw [scales_append, scales_append, scales_gather, eraseDups_append_eraseDups]
  rw [gather_eq_map, gather_eq_map (cs ++ ds), hscales]
  simp only [hspans]

theorem gather_gather (cs : List Clause) : gather [] (gather [] cs) = gather [] cs :=
  gather_append_gather [] cs

/-- Gathering twice what stands before a seam and what stands behind it, or the whole at once. -/
theorem gather_gather_append (cs ds : List Clause) :
    gather [] (gather [] cs ++ gather [] ds) = gather [] (cs ++ ds) := by
  rw [gather_append_gather, gather_append, gather_gather, ← gather_append]

/-- Gathered clauses are on the scales that are named, each once and in the order of first mention,
and each has the spans of all clauses on its scale in their order. Gathering them again changes
nothing. -/
theorem ofClauses_eq_clauses (cs : List Clause) :
    ∃ merged, ofClauses cs = .clauses merged ∧
      scales merged = (scales cs).eraseDups ∧ (scales merged).Nodup ∧
      (∀ c ∈ merged, c.spans = (cs.filter fun d => d.scale = c.scale).flatMap Clause.spans) ∧
      ofClauses merged = .clauses merged := by
  refine ⟨gather [] cs, rfl, scales_gather cs, nodup_gather nodup_nil cs, ?_, ?_⟩
  · intro c hc
    exact spans_of_mem_gather hc
  · exact congrArg clauses (gather_gather cs)

end SubPeriod

end Recurrence
