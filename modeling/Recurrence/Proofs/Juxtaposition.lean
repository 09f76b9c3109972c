import Recurrence.Proofs.FirstMentions
import Recurrence.Proofs.TokenPlaces
import Recurrence.Proofs.GrammarReading

/-! Two lists of clauses written one behind the other. The first ends with a brace, so no word runs
across, and its clauses go on with those of the second as if all had been written at once. -/

namespace Recurrence

/-- Only blanks can follow the last token. -/
theorem Scans.seam_of_closing {p q : Nat} {text : List Char} {ts : List Token}
    (h : Scans p text (ts ++ [⟨.closing, q⟩])) (rest : List Char) : Seam text rest := by
  obtain ⟨before, part, after, rfl, -, hpart, -, -, hafter⟩ := h.split_at
  obtain rfl : part = ['}'] := by simpa [Lexeme.WrittenAs, Lexeme.text] using hpart
  have hblank := scans_nil_iff.mp hafter
  rcases List.eq_nil_or_concat after with rfl | ⟨blanks, d, rfl⟩
  · rw [List.append_nil]
    exact .of_concat rfl before rest
  · have hd := isAlphanum_of_isBlank (hblank d (by simp))
    rw [List.concat_eq_append, ← List.append_assoc]
    exact .of_concat hd _ rest

theorem Many.exists_concat_closing {ls : List Lexeme} {cs : List Clause}
    (h : Many DerivesClause ls cs) (hne : cs ≠ []) : ∃ ls', ls = ls' ++ [.closing] := by
  cases h with
  | nil => exact absurd rfl hne
  | @snoc ls _ _ _ _ hlast =>
    cases hlast with
    | @mk word s inner spans _ _ _ =>
      exact ⟨ls ++ .word word :: .opening :: inner, by simp⟩

namespace Writes

theorem clauses {text : List Char} {cs : List Clause} (h : Writes text [.clauses cs]) :
    ∃ ts, Scans 0 text ts ∧ Many DerivesClause (ts.map Token.lexeme) cs ∧ cs ≠ [] := by
  obtain ⟨ts, hscan, ⟨-, hnil⟩ | hperiod⟩ := h
  · cases hnil
  · exact ⟨ts, hscan, hperiod.subPeriod.many⟩

theorem append_clauses {a b : List Char} {cs ds : List Clause} (ha : Writes a [.clauses cs])
    (hb : Writes b [.clauses ds]) : Writes (a ++ b) [.clauses (cs ++ ds)] := by
  obtain ⟨ts, hscan, hcs, hne⟩ := ha.clauses
  obtain ⟨us, hscan', hds, -⟩ := hb.clauses
  have hseam : Seam a b := by
    obtain ⟨ls, hls⟩ := hcs.exists_concat_closing hne
    obtain ⟨ts, last, rfl, -, hlast⟩ := List.map_eq_append_iff.mp hls
    obtain ⟨⟨l, q⟩, rfl, rfl⟩ := List.map_eq_singleton_iff.mp hlast
    exact hscan.seam_of_closing b
  obtain ⟨vs, hall, hvs⟩ := hscan.spells.append hscan'.spells hseam 0
  refine ⟨vs, hall, .inr (.one ?_)⟩
  rw [hvs]
  exact .clauses (hcs.append hds) (List.append_ne_nil_of_left_ne_nil hne ds)

end Writes

namespace Period

open SubPeriod

theorem gather_of_writes {text : List Char} {cs merged : List Clause}
    (h : ofChars text = .ok ⟨[.clauses merged]⟩) (hwrites : Writes text [.clauses cs]) :
    gather [] cs = merged := by
  have hcs : ofChars text = .ok ⟨[.clauses (gather [] cs)]⟩ := ofChars_of_writes hwrites
  rw [hcs] at h
  simpa using h

theorem writes_of_clauses {text : List Char} {merged : List Clause}
    (h : ofChars text = .ok ⟨[.clauses merged]⟩) : ∃ cs, Writes text [.clauses cs] := by
  obtain ⟨subs, hwrites, hp⟩ := writes_of_ofChars h
  have hsubs : subs.map gathered = [.clauses merged] := (congrArg Period.subPeriods hp).symm
  obtain ⟨sub, rfl, hsub⟩ := List.map_eq_singleton_iff.mp hsubs
  cases sub with
  | always => cases hsub
  | never => cases hsub
  | clauses cs => exact ⟨cs, hwrites⟩

/-- Each scale has its clause on one side only, so gathering leaves them as they are. -/
theorem holds_ofClauses_append {cs ds : List Clause} (hcs : (scales cs).Nodup)
    (hds : (scales ds).Nodup) (hdisjoint : ∀ s ∈ scales cs, s ∉ scales ds) (t : DateTime) :
    holds t ⟨[ofClauses (cs ++ ds)]⟩ =
      (holds t ⟨[.clauses cs]⟩ && holds t ⟨[.clauses ds]⟩) := by
  have hnd : (scales (cs ++ ds)).Nodup := by
    rw [scales_append]
    exact List.nodup_append.mpr ⟨hcs, hds, fun s hs s' hs' he => hdisjoint s hs (he ▸ hs')⟩
  have hgather : ofClauses (cs ++ ds) = .clauses (cs ++ ds) :=
    congrArg SubPeriod.clauses (gather_of_nodup hnd)
  rw [hgather]
  simp [holds, isUnconstrained, SubPeriod.holds]

/-- Two texts of clauses make one when they are put one behind the other, even without a blank. It
comes to the same whether the clauses of both are gathered at once or those of each before, and
where the two name no scale in common the whole asks for both. -/
theorem parse_append_clauses {a b : String} {cs ds : List Clause}
    (ha : parse a = .ok ⟨[.clauses cs]⟩) (hb : parse b = .ok ⟨[.clauses ds]⟩) :
    parse (a ++ b) = .ok ⟨[ofClauses (cs ++ ds)]⟩ ∧
    ((∃ cs' ds', Writes a.toList [.clauses cs'] ∧ Writes b.toList [.clauses ds']) ∧
      ∀ cs' ds', Writes a.toList [.clauses cs'] → Writes b.toList [.clauses ds'] →
        Writes (a ++ b).toList [.clauses (cs' ++ ds')] ∧
          ofClauses (cs' ++ ds') = ofClauses (cs ++ ds)) ∧
    ((∀ s ∈ scales cs, s ∉ scales ds) → ∀ t, holds t ⟨[ofClauses (cs ++ ds)]⟩ =
      (holds t ⟨[.clauses cs]⟩ && holds t ⟨[.clauses ds]⟩)) := by
  have htext : (a ++ b).toList = a.toList ++ b.toList := by simp
  obtain ⟨cs₀, hcs₀⟩ := writes_of_clauses ha
  obtain ⟨ds₀, hds₀⟩ := writes_of_clauses hb
  have hwritten : ∀ cs' ds', Writes a.toList [.clauses cs'] → Writes b.toList [.clauses ds'] →
      Writes (a ++ b).toList [.clauses (cs' ++ ds')] ∧
        ofClauses (cs' ++ ds') = ofClauses (cs ++ ds) := by
    intro cs' ds' hcs' hds'
    rw [htext]
    refine ⟨hcs'.append_clauses hds', ?_⟩
    rw [← gather_of_writes ha hcs', ← gather_of_writes hb hds']
    exact congrArg SubPeriod.clauses (gather_gather_append cs' ds').symm
  obtain ⟨hall, hmerged⟩ := hwritten cs₀ ds₀ hcs₀ hds₀
  refine ⟨?_, ⟨⟨cs₀, ds₀, hcs₀, hds₀⟩, hwritten⟩, ?_⟩
  · rw [← hmerged]
    exact ofChars_of_writes hall
  · intro hdisjoint t
    have hcs : (scales cs).Nodup := gather_of_writes ha hcs₀ ▸ nodup_gather nodup_nil cs₀
    have hds : (scales ds).Nodup := gather_of_writes hb hds₀ ▸ nodup_gather nodup_nil ds₀
    exact holds_ofClauses_append hcs hds hdisjoint t

/-- Both scales of the first text come back in the second; in the other pair no scale does. -/
theorem parse_append_clauses_of_repeated_and_other_scales :
    (parse "wd \x7bmon\x7d hr \x7b9\x7d wd \x7btue\x7d" =
        .ok ⟨[.clauses [⟨.weekday, [.single 2, .single 3]⟩, ⟨.hour, [.single 9]⟩]]⟩ ∧
      parse "hr\x7b10\x7dwd\x7bfri\x7d" =
        .ok ⟨[.clauses [⟨.hour, [.single 10]⟩, ⟨.weekday, [.single 6]⟩]]⟩ ∧
      parse ("wd \x7bmon\x7d hr \x7b9\x7d wd \x7btue\x7d" ++ "hr\x7b10\x7dwd\x7bfri\x7d") =
        .ok ⟨[.clauses [⟨.weekday, [.single 2, .single 3, .single 6]⟩,
          ⟨.hour, [.single 9, .single 10]⟩]]⟩) ∧
    parse "wd \x7bthu\x7d" = .ok ⟨[.clauses [⟨.weekday, [.single 5]⟩]]⟩ ∧
      parse "hr \x7b9\x7d" = .ok ⟨[.clauses [⟨.hour, [.single 9]⟩]]⟩ ∧
      (∀ s ∈ scales [⟨.weekday, [.single 5]⟩], s ∉ scales [⟨.hour, [.single 9]⟩]) ∧
      holds .epoch ⟨[ofClauses ([⟨.weekday, [.single 5]⟩] ++ [⟨.hour, [.single 9]⟩])]⟩ =
        (holds .epoch ⟨[.clauses [⟨.weekday, [.single 5]⟩]]⟩ &&
          holds .epoch ⟨[.clauses [⟨.hour, [.single 9]⟩]]⟩) :=
  have ha : parse "wd \x7bmon\x7d hr \x7b9\x7d wd \x7btue\x7d" =
      .ok ⟨[.clauses [⟨.weekday, [.single 2, .single 3]⟩, ⟨.hour, [.single 9]⟩]]⟩ := rfl
  have hb : parse "hr\x7b10\x7dwd\x7bfri\x7d" =
      .ok ⟨[.clauses [⟨.hour, [.single 10]⟩, ⟨.weekday, [.single 6]⟩]]⟩ := rfl
  have hthursday : parse "wd \x7bthu\x7d" = .ok ⟨[.clauses [⟨.weekday, [.single 5]⟩]]⟩ := rfl
  have hnine : parse "hr \x7b9\x7d" = .ok ⟨[.clauses [⟨.hour, [.single 9]⟩]]⟩ := rfl
  have hother : ∀ s ∈ scales [⟨.weekday, [.single 5]⟩], s ∉ scales [⟨.hour, [.single 9]⟩] := by
    decide
  ⟨⟨ha, hb, (parse_append_clauses ha hb).1⟩, hthursday, hnine, hother,
    (parse_append_clauses hthursday hnine).2.2 hother .epoch⟩

end Period

end Recurrence
