import Mathlib.Data.List.Induction
import Recurrence.Proofs.WellFormed

/-! The words that stand for a value of a scale, and what is reported of every other word. Numbers
are read on all scales; weekdays, months and the hours of a twelve-hour clock have words besides,
and none of those is a number. -/

namespace Recurrence

/-- A row of digits with the number it is written for. -/
inductive Decimal : List Char → Nat → Prop
  | digit {c : Char} (hc : c.isDigit = true) : Decimal [c] (c.toNat - '0'.toNat)
  | concat {word : List Char} {n : Nat} {c : Char} (h : Decimal word n) (hc : c.isDigit = true) :
      Decimal (word ++ [c]) (10 * n + (c.toNat - '0'.toNat))

/-- A row of digits, with a plus sign in front of it or without. -/
inductive Numeral : List Char → Nat → Prop
  | plain {word : List Char} {n : Nat} (h : Decimal word n) : Numeral word n
  | plus {word : List Char} {n : Nat} (h : Decimal word n) : Numeral ('+' :: word) n

/-- Letters only, of which the first are the head with the number `n`. -/
def BeginsWithHead (heads : List String) (word : List Char) (n : Nat) : Prop :=
  (∀ c ∈ word, c.isAlpha = true) ∧
    ∃ i head, n = i + 1 ∧ heads[i]? = some head ∧ head.toList <+: word

inductive HourWord : List Char → Nat → Prop
  | noon : HourWord "noon".toList 12
  | midnight : HourWord "midnight".toList 0
  | am {digits : List Char} {n : Nat} (h : Decimal digits n) (hn : 1 ≤ n ∧ n ≤ 12) :
      HourWord (digits ++ "am".toList) (n % 12)
  | pm {digits : List Char} {n : Nat} (h : Decimal digits n) (hn : 1 ≤ n ∧ n ≤ 12) :
      HourWord (digits ++ "pm".toList) (n % 12 + 12)

namespace Scale

/-- The words besides numbers. -/
inductive Names : Scale → List Char → Nat → Prop
  | weekday {word : List Char} {n : Nat}
      (h : BeginsWithHead ["su", "mo", "tu", "we", "th", "fr", "sa"] word n) :
      Names .weekday word n
  | month {word : List Char} {n : Nat}
      (h : BeginsWithHead ["jan", "feb", "mar", "apr", "may", "jun", "jul", "aug", "sep", "oct",
        "nov", "dec"] word n) :
      Names .month word n
  | hour {word : List Char} {n : Nat} (h : HourWord word n) : Names .hour word n

inductive StandsFor (s : Scale) (word : List Char) (n : Nat) : Prop
  | number (h : Numeral word n) (hle : n ≤ greatestNumber) (hn : s.Admits n)
  | name (h : s.Names word n)

/-- What is reported of a word that stands for nothing. A row of digits can only be too large or out
of bounds, while a number with a sign is looked up among the names where it is too large. -/
inductive Refuses (s : Scale) (word : List Char) : ValueFault → Prop
  | outOfRange {n least greatest : Nat} (h : Numeral word n) (hle : n ≤ greatestNumber)
      (hbounds : s.bounds = some (least, greatest)) (hout : ¬ (least ≤ n ∧ n ≤ greatest)) :
      Refuses s word (.outOfRange s n least greatest)
  | tooLarge (hlarge : ∀ n, Numeral word n → greatestNumber < n)
      (hdigits : word ≠ [] ∧ ∀ c ∈ word, c.isDigit = true) : Refuses s word (.tooLarge s word)
  | unknown (hlarge : ∀ n, Numeral word n → greatestNumber < n)
      (hdigits : ¬ (word ≠ [] ∧ ∀ c ∈ word, c.isDigit = true))
      (hname : ∀ n, ¬ s.Names word n) : Refuses s word (.unknown s word)

end Scale

theorem isAlpha_of_isDigit {c : Char} (h : c.isDigit = true) : c.isAlpha = false := by
  have h9 : c ≤ '9' := of_decide_eq_true (Bool.and_eq_true_iff.mp h).2
  rw [Bool.eq_false_iff]
  intro halpha
  have hcases : (decide ('A' ≤ c ∧ c ≤ 'Z') || (decide ('a' ≤ c) && decide (c ≤ 'z'))) = true :=
    halpha
  have hA : 'A' ≤ c := by
    rcases Bool.or_eq_true_iff.mp hcases with hupper | hlower
    · exact (of_decide_eq_true hupper).1
    · have ha : 'a' ≤ c := of_decide_eq_true (Bool.and_eq_true_iff.mp hlower).1
      exact Char.le_trans (by decide) ha
  exact absurd (Char.le_trans hA h9) (by decide)

namespace Decimal

variable {word : List Char} {n : Nat}

theorem ne_nil (h : Decimal word n) : word ≠ [] := by
  cases h <;> simp

theorem isDigit (h : Decimal word n) : ∀ c ∈ word, c.isDigit = true := by
  induction h with
  | digit hc => simpa using hc
  | concat _ hc ih =>
    intro d hd
    rcases List.mem_append.mp hd with hd | hd
    · exact ih d hd
    · exact List.mem_singleton.mp hd ▸ hc

theorem exists_concat (h : Decimal word n) : ∃ init c, word = init ++ [c] ∧ c.isDigit = true := by
  cases h with
  | digit hc => exact ⟨[], _, rfl, hc⟩
  | concat _ hc => exact ⟨_, _, rfl, hc⟩

theorem ofDigitChars_eq (h : Decimal word n) : Nat.ofDigitChars 10 word 0 = n := by
  induction h with
  | digit hc => simp [Nat.ofDigitChars_cons]
  | concat _ _ ih => rw [Nat.ofDigitChars_append, ih, Nat.ofDigitChars_cons, Nat.ofDigitChars_nil]

theorem of_isDigit (hne : word ≠ []) (h : ∀ c ∈ word, c.isDigit = true) :
    Decimal word (Nat.ofDigitChars 10 word 0) := by
  induction word using List.reverseRecOn with
  | nil => exact absurd rfl hne
  | append_singleton word c ih =>
    have hc := h c (by simp)
    rw [Nat.ofDigitChars_append, Nat.ofDigitChars_cons, Nat.ofDigitChars_nil]
    by_cases hnil : word = []
    · subst hnil
      simpa using digit hc
    · exact (ih hnil fun d hd => h d (by simp [hd])).concat hc

end Decimal

theorem digits?_eq_some_iff {word : List Char} {n : Nat} :
    digits? word = some n ↔ Decimal word n := by
  constructor
  · intro h
    obtain ⟨⟨hne, hdigits⟩, hn⟩ := Option.ite_none_right_eq_some.mp h
    rw [← Option.some_inj.mp hn]
    exact .of_isDigit hne (List.all_eq_true.mp hdigits)
  · intro h
    rw [digits?, if_pos ⟨h.ne_nil, List.all_eq_true.mpr h.isDigit⟩, h.ofDigitChars_eq]

theorem digits?_isSome_iff {word : List Char} :
    (digits? word).isSome = true ↔ word ≠ [] ∧ ∀ c ∈ word, c.isDigit = true := by
  rw [Option.isSome_iff_exists]
  constructor
  · rintro ⟨n, hn⟩
    have h := digits?_eq_some_iff.mp hn
    exact ⟨h.ne_nil, h.isDigit⟩
  · rintro ⟨hne, h⟩
    exact ⟨_, digits?_eq_some_iff.mpr (.of_isDigit hne h)⟩

theorem numeral?_eq_some_iff {word : List Char} {n : Nat} :
    numeral? word = some n ↔ Numeral word n := by
  unfold numeral?
  split
  · rename_i digits
    rw [digits?_eq_some_iff]
    constructor
    · exact .plus
    · rintro (h | h)
      · exact absurd (h.isDigit '+' (by simp)) (by decide)
      · exact h
  · rename_i hplus
    rw [digits?_eq_some_iff]
    constructor
    · exact .plain
    · rintro (h | h)
      · exact h
      · exact absurd rfl (hplus _)

theorem eq_of_heads_begin {heads : List String} {k : Nat}
    (hlength : ∀ head ∈ heads, head.toList.length = k) (hnd : heads.Nodup) {word : List Char}
    {i j : Nat} {a b : String} (hi : heads[i]? = some a) (hj : heads[j]? = some b)
    (ha : a.toList <+: word) (hb : b.toList <+: word) : i = j := by
  have hlen : a.toList.length = b.toList.length :=
    (hlength a (List.mem_of_getElem? hi)).trans (hlength b (List.mem_of_getElem? hj)).symm
  have hbegins : a.toList <+: b.toList := List.prefix_of_prefix_length_le ha hb (Nat.le_of_eq hlen)
  have hab : a = b := String.toList_inj.mp (hbegins.eq_of_length hlen)
  have hlt : i < heads.length := (List.getElem?_eq_some_iff.mp hi).1
  exact (List.getElem?_inj hlt hnd).mp (hi.trans (hab ▸ hj.symm))

/-- Among heads of one length no two begin the same word, so the first to do so is the only one. -/
theorem headNumber?_eq_some_iff {heads : List String} (k : Nat)
    (hlength : ∀ head ∈ heads, head.toList.length = k) (hnd : heads.Nodup) {word : List Char}
    {n : Nat} : headNumber? heads word = some n ↔ BeginsWithHead heads word n := by
  rw [headNumber?, Option.ite_none_right_eq_some, List.all_eq_true, BeginsWithHead,
    Option.map_eq_some_iff]
  apply and_congr_right
  intro _
  constructor
  · rintro ⟨i, hi, rfl⟩
    obtain ⟨hlt, hhead, -⟩ := List.findIdx?_eq_some_iff_getElem.mp hi
    exact ⟨i, heads[i], rfl, List.getElem?_eq_getElem hlt, List.isPrefixOf_iff_prefix.mp hhead⟩
  · rintro ⟨i, head, rfl, hi, hhead⟩
    refine ⟨i, List.findIdx?_eq_some_iff_getElem.mpr ?_, rfl⟩
    obtain ⟨hlt, rfl⟩ := List.getElem?_eq_some_iff.mp hi
    refine ⟨hlt, List.isPrefixOf_iff_prefix.mpr hhead, ?_⟩
    intro j hj hbefore
    have hj' := List.getElem?_eq_getElem (Nat.lt_trans hj hlt)
    have heq := eq_of_heads_begin hlength hnd hi hj' hhead (List.isPrefixOf_iff_prefix.mp hbefore)
    exact absurd heq (Nat.ne_of_gt hj)

theorem headNumber?_weekdayHeads_iff {word : List Char} {n : Nat} :
    headNumber? weekdayHeads word = some n ↔ BeginsWithHead weekdayHeads word n :=
  headNumber?_eq_some_iff 2 (by simp [weekdayHeads]) (by simp [weekdayHeads])

theorem headNumber?_monthHeads_iff {word : List Char} {n : Nat} :
    headNumber? monthHeads word = some n ↔ BeginsWithHead monthHeads word n :=
  headNumber?_eq_some_iff 3 (by simp [monthHeads]) (by simp [monthHeads])

theorem BeginsWithHead.bounds {heads : List String} {word : List Char} {n : Nat}
    (h : BeginsWithHead heads word n) : 1 ≤ n ∧ n ≤ heads.length := by
  obtain ⟨-, i, head, rfl, hi, -⟩ := h
  exact ⟨Nat.le_add_left 1 i, (List.getElem?_eq_some_iff.mp hi).1⟩

theorem halfDay?_eq_some_iff {ending : List Char} {half : Nat} :
    halfDay? ending = some half ↔
      ending = "am".toList ∧ half = 0 ∨ ending = "pm".toList ∧ half = 12 := by
  constructor
  · intro h
    unfold halfDay? at h
    by_cases ham : ending = ['a', 'm']
    · rw [if_pos ham] at h
      exact .inl ⟨ham, (Option.some_inj.mp h).symm⟩
    · rw [if_neg ham] at h
      obtain ⟨hpm, hhalf⟩ := Option.ite_none_right_eq_some.mp h
      exact .inr ⟨hpm, (Option.some_inj.mp hhalf).symm⟩
  · rintro (⟨rfl, rfl⟩ | ⟨rfl, rfl⟩) <;> rfl

theorem clockHour?_append {digits ending : List Char} {n half : Nat} (h : Decimal digits n)
    (hn : 1 ≤ n ∧ n ≤ 12) (hlength : ending.length = 2) (hhalf : halfDay? ending = some half) :
    clockHour? (digits ++ ending) = some (n % 12 + half) := by
  have hcut : (digits ++ ending).length - 2 = digits.length := by
    rw [List.length_append, hlength, Nat.add_sub_cancel]
  simp only [clockHour?, hcut, List.drop_left, List.take_left, hhalf, digits?_eq_some_iff.mpr h]
  exact if_pos hn

theorem hourWord_of_clockHour? {word : List Char} {hour : Nat} (h : clockHour? word = some hour) :
    HourWord word hour := by
  obtain ⟨half, hhalf, h⟩ := Option.bind_eq_some_iff.mp h
  obtain ⟨n, hdigits, h⟩ := Option.bind_eq_some_iff.mp h
  obtain ⟨hn, hhour⟩ := Option.ite_none_right_eq_some.mp h
  cases hhour
  rw [← List.take_append_drop (word.length - 2) word]
  rcases halfDay?_eq_some_iff.mp hhalf with ⟨ham, rfl⟩ | ⟨hpm, rfl⟩
  · rw [ham]
    exact .am (digits?_eq_some_iff.mp hdigits) hn
  · rw [hpm]
    exact .pm (digits?_eq_some_iff.mp hdigits) hn

theorem hourName?_of_clockHour? {word : List Char} {hour : Nat} (h : clockHour? word = some hour) :
    hourName? word = some hour := by
  have hnoon : word ≠ "noon".toList := by
    rintro rfl
    cases h
  have hmidnight : word ≠ "midnight".toList := by
    rintro rfl
    cases h
  rw [hourName?, if_neg hnoon, if_neg hmidnight, h]

theorem hourName?_eq_some_iff {word : List Char} {n : Nat} :
    hourName? word = some n ↔ HourWord word n := by
  constructor
  · intro h
    unfold hourName? at h
    by_cases hnoon : word = "noon".toList
    · rw [if_pos hnoon] at h
      cases h
      exact hnoon ▸ .noon
    · by_cases hmidnight : word = "midnight".toList
      · rw [if_neg hnoon, if_pos hmidnight] at h
        cases h
        exact hmidnight ▸ .midnight
      · rw [if_neg hnoon, if_neg hmidnight] at h
        exact hourWord_of_clockHour? h
  · intro h
    cases h with
    | noon => rfl
    | midnight => rfl
    | am h hn =>
      have ham : halfDay? "am".toList = some 0 := rfl
      exact hourName?_of_clockHour? (clockHour?_append h hn rfl ham)
    | pm h hn =>
      have hpm : halfDay? "pm".toList = some 12 := rfl
      exact hourName?_of_clockHour? (clockHour?_append h hn rfl hpm)

theorem Numeral.exists_concat {word : List Char} {n : Nat} (h : Numeral word n) :
    ∃ init c, word = init ++ [c] ∧ c.isDigit = true := by
  cases h with
  | plain h => exact h.exists_concat
  | plus h =>
    obtain ⟨init, c, rfl, hc⟩ := h.exists_concat
    exact ⟨'+' :: init, c, rfl, hc⟩

theorem BeginsWithHead.exists_concat {heads : List String} {word : List Char} {n : Nat}
    (h : BeginsWithHead heads word n) (hheads : ∀ head ∈ heads, head.toList ≠ []) :
    ∃ init c, word = init ++ [c] ∧ c.isAlpha = true := by
  obtain ⟨hletters, i, head, -, hi, hhead⟩ := h
  rcases List.eq_nil_or_concat word with rfl | ⟨init, c, rfl⟩
  · exact absurd (List.prefix_nil.mp hhead) (hheads head (List.mem_of_getElem? hi))
  · exact ⟨init, c, List.concat_eq_append, hletters c (by simp)⟩

theorem HourWord.exists_concat {word : List Char} {n : Nat} (h : HourWord word n) :
    ∃ init c, word = init ++ [c] ∧ c.isAlpha = true := by
  cases h with
  | noon => exact ⟨"noo".toList, 'n', rfl, rfl⟩
  | midnight => exact ⟨"midnigh".toList, 't', rfl, rfl⟩
  | @am digits n _ _ => exact ⟨digits ++ ['a'], 'm', by simp, rfl⟩
  | @pm digits n _ _ => exact ⟨digits ++ ['p'], 'm', by simp, rfl⟩

namespace Scale

variable {s : Scale} {word : List Char} {n : Nat}

theorem symbol?_eq_some_iff : s.symbol? word = some n ↔ s.Names word n := by
  constructor
  · intro h
    cases s with
    | weekday => exact .weekday (headNumber?_weekdayHeads_iff.mp h)
    | month => exact .month (headNumber?_monthHeads_iff.mp h)
    | hour => exact .hour (hourName?_eq_some_iff.mp h)
    | _ => cases h
  · intro h
    cases h with
    | weekday h => exact headNumber?_weekdayHeads_iff.mpr h
    | month h => exact headNumber?_monthHeads_iff.mpr h
    | hour h => exact hourName?_eq_some_iff.mpr h

theorem Names.admits (h : s.Names word n) : s.Admits n := by
  cases h with
  | weekday h => exact h.bounds
  | month h => exact h.bounds
  | hour h =>
    refine ⟨Nat.zero_le n, ?_⟩
    cases h with
    | noon => decide
    | midnight => decide
    | am _ _ => omega
    | pm _ _ => omega

/-- The last character tells a name from a number. -/
theorem Names.not_numeral (h : s.Names word n) (m : Nat) : ¬ Numeral word m := by
  intro hnumeral
  have hlast : ∃ init c, word = init ++ [c] ∧ c.isAlpha = true := by
    cases h with
    | weekday h => exact h.exists_concat (by simp)
    | month h => exact h.exists_concat (by simp)
    | hour h => exact h.exists_concat
  obtain ⟨init, c, rfl, hc⟩ := hlast
  obtain ⟨init', d, hword, hd⟩ := hnumeral.exists_concat
  obtain ⟨-, rfl⟩ := List.append_singleton_inj.mp hword
  rw [isAlpha_of_isDigit hd] at hc
  cases hc

theorem valueOf_of_numeral (h : Numeral word n) (hle : n ≤ greatestNumber) :
    s.valueOf word = s.within n := by
  have hfilter : (numeral? word).filter (· ≤ greatestNumber) = some n := by
    simp [numeral?_eq_some_iff.mpr h, hle]
  simp only [valueOf, hfilter]

section Large

variable (hlarge : ∀ n, Numeral word n → greatestNumber < n)

include hlarge

theorem filter_numeral?_eq_none : (numeral? word).filter (· ≤ greatestNumber) = none := by
  rw [Option.filter_eq_none_iff]
  intro n hn
  have hlt := hlarge n (numeral?_eq_some_iff.mp hn)
  simpa using hlt

theorem valueOf_of_digits (hdigits : word ≠ [] ∧ ∀ c ∈ word, c.isDigit = true) :
    s.valueOf word = .error (.tooLarge s word) := by
  simp only [valueOf, filter_numeral?_eq_none hlarge, digits?_isSome_iff.mpr hdigits, if_true]

theorem valueOf_of_symbol? (hdigits : ¬ (word ≠ [] ∧ ∀ c ∈ word, c.isDigit = true)) :
    (∀ n, s.symbol? word = some n → s.valueOf word = s.within n) ∧
      (s.symbol? word = none → s.valueOf word = .error (.unknown s word)) := by
  have hnone : ¬ (digits? word).isSome = true := fun h => hdigits (digits?_isSome_iff.mp h)
  constructor
  · intro n hn
    simp only [valueOf, filter_numeral?_eq_none hlarge, if_neg hnone, hn]
  · intro hn
    simp only [valueOf, filter_numeral?_eq_none hlarge, if_neg hnone, hn]

end Large

theorem StandsFor.valueOf_eq (h : s.StandsFor word n) : s.valueOf word = .ok n := by
  cases h with
  | number h hle hn => rw [valueOf_of_numeral h hle, within_of_admits hn]
  | name h =>
    have hlarge : ∀ m, Numeral word m → greatestNumber < m := fun m hm =>
      absurd hm (h.not_numeral m)
    have hdigits : ¬ (word ≠ [] ∧ ∀ c ∈ word, c.isDigit = true) := fun hdigits =>
      h.not_numeral _ (.plain (.of_isDigit hdigits.1 hdigits.2))
    rw [(valueOf_of_symbol? hlarge hdigits).1 n (symbol?_eq_some_iff.mpr h)]
    exact within_of_admits h.admits

theorem Refuses.valueOf_eq {fault : ValueFault} (h : s.Refuses word fault) :
    s.valueOf word = .error fault := by
  cases h with
  | outOfRange h hle hbounds hout =>
    rw [valueOf_of_numeral h hle]
    simp only [within, hbounds, if_neg hout]
  | tooLarge hlarge hdigits => exact valueOf_of_digits hlarge hdigits
  | unknown hlarge hdigits hname =>
    have hnone : s.symbol? word = none :=
      Option.eq_none_iff_forall_ne_some.mpr fun n hn => hname n (symbol?_eq_some_iff.mp hn)
    exact (valueOf_of_symbol? hlarge hdigits).2 hnone

theorem exists_bounds_of_not_admits (hle : n ≤ greatestNumber) (h : ¬ s.Admits n) :
    ∃ least greatest, s.bounds = some (least, greatest) ∧ ¬ (least ≤ n ∧ n ≤ greatest) := by
  cases hb : s.bounds with
  | none =>
    simp only [Admits, hb] at h
    exact absurd hle h
  | some bounds =>
    simp only [Admits, hb] at h
    exact ⟨bounds.1, bounds.2, rfl, h⟩

/-- The two descriptions leave no word out, so a word that one of them fails on meets the other. -/
theorem standsFor_or_refuses (s : Scale) (word : List Char) :
    (∃ n, s.StandsFor word n) ∨ ∃ fault, s.Refuses word fault := by
  by_cases hnumeral : ∃ n, Numeral word n ∧ n ≤ greatestNumber
  · obtain ⟨n, h, hle⟩ := hnumeral
    by_cases hn : s.Admits n
    · exact .inl ⟨n, .number h hle hn⟩
    · obtain ⟨least, greatest, hbounds, hout⟩ := exists_bounds_of_not_admits hle hn
      exact .inr ⟨_, .outOfRange h hle hbounds hout⟩
  · have hlarge : ∀ n, Numeral word n → greatestNumber < n := by
      intro n h
      exact Nat.lt_of_not_le fun hle => hnumeral ⟨n, h, hle⟩
    by_cases hdigits : word ≠ [] ∧ ∀ c ∈ word, c.isDigit = true
    · exact .inr ⟨_, .tooLarge hlarge hdigits⟩
    · by_cases hname : ∃ n, s.Names word n
      · obtain ⟨n, h⟩ := hname
        exact .inl ⟨n, .name h⟩
      · exact .inr ⟨_, .unknown hlarge hdigits (not_exists.mp hname)⟩

theorem valueOf_eq_ok_iff : s.valueOf word = .ok n ↔ s.StandsFor word n := by
  refine ⟨fun h => ?_, StandsFor.valueOf_eq⟩
  rcases standsFor_or_refuses s word with ⟨m, hm⟩ | ⟨fault, hfault⟩
  · rw [hm.valueOf_eq] at h
    cases h
    exact hm
  · rw [hfault.valueOf_eq] at h
    cases h

theorem valueOf_eq_error_iff {fault : ValueFault} :
    s.valueOf word = .error fault ↔ s.Refuses word fault := by
  refine ⟨fun h => ?_, Refuses.valueOf_eq⟩
  rcases standsFor_or_refuses s word with ⟨n, hn⟩ | ⟨fault', hfault⟩
  · rw [hn.valueOf_eq] at h
    cases h
  · rw [hfault.valueOf_eq] at h
    cases h
    exact hfault

theorem message_tooLarge (s : Scale) (word : List Char) :
    (ValueFault.tooLarge s word).message =
      "Invalid value '" ++ String.ofList word ++ "' for " ++ s.label ++ ": " ++
        "number is too large" := by
  have htext : ": number is too large" = ": " ++ "number is too large" := by decide
  calc (ValueFault.tooLarge s word).message
      = "Invalid value '" ++ String.ofList word ++ "' for " ++ s.label ++
          ": number is too large" := rfl
    _ = "Invalid value '" ++ String.ofList word ++ "' for " ++ s.label ++
          (": " ++ "number is too large") := congrArg _ htext
    _ = _ := String.append_assoc.symm

theorem Refuses.exists_reason {fault : ValueFault} (h : s.Refuses word fault)
    (hlarge : ∀ n, Numeral word n → greatestNumber < n) :
    ∃ reason, fault.message = "Invalid value '" ++ String.ofList word ++ "' for " ++ s.label ++
        ": " ++ reason ∧
      (reason = "number is too large" ↔ word ≠ [] ∧ ∀ c ∈ word, c.isDigit = true) := by
  cases h with
  | outOfRange h hle _ _ => exact (Nat.not_lt_of_le hle (hlarge _ h)).elim
  | tooLarge _ hdigits =>
    exact ⟨"number is too large", message_tooLarge s word, iff_of_true rfl hdigits⟩
  | unknown _ hdigits _ =>
    have hreason : s.expectation ≠ "number is too large" := by cases s <;> decide
    exact ⟨s.expectation, rfl, iff_of_false hreason hdigits⟩

/-- A word is read as the value that it stands for, and if it stands for none it is reported: a
number that is small enough but out of bounds with its value and the bounds, every other word as it
is written, and where it is a row of digits the reason is that it is too large. -/
theorem valueOf_outcome (s : Scale) (word : List Char) :
    (∀ n, s.valueOf word = .ok n ↔ s.StandsFor word n) ∧
    (∀ fault, s.valueOf word = .error fault ↔ s.Refuses word fault) ∧
    ∀ fault, s.valueOf word = .error fault → (∀ n, Numeral word n → greatestNumber < n) →
      ∃ reason, fault.message = "Invalid value '" ++ String.ofList word ++ "' for " ++ s.label ++
          ": " ++ reason ∧
        (reason = "number is too large" ↔ word ≠ [] ∧ ∀ c ∈ word, c.isDigit = true) :=
  ⟨fun _ => valueOf_eq_ok_iff, fun _ => valueOf_eq_error_iff,
    fun _ h hlarge => (valueOf_eq_error_iff.mp h).exists_reason hlarge⟩

/-- One more than the greatest number, behind a sign. -/
theorem valueOf_outcome_of_large_number :
    hour.valueOf "+4294967296".toList = .error (.unknown .hour "+4294967296".toList) ∧
      (∀ n, Numeral "+4294967296".toList n → greatestNumber < n) ∧
      ∃ reason, (ValueFault.unknown .hour "+4294967296".toList).message =
          "Invalid value '" ++ String.ofList "+4294967296".toList ++ "' for " ++ hour.label ++
            ": " ++ reason ∧
        (reason = "number is too large" ↔
          "+4294967296".toList ≠ [] ∧ ∀ c ∈ "+4294967296".toList, c.isDigit = true) := by
  have hvalue : hour.valueOf "+4294967296".toList =
      .error (.unknown .hour "+4294967296".toList) := rfl
  have hlarge : ∀ n, Numeral "+4294967296".toList n → greatestNumber < n := by
    intro n hn
    have hnumber : numeral? "+4294967296".toList = some 4294967296 := rfl
    rw [← numeral?_eq_some_iff, hnumber] at hn
    cases hn
    decide
  exact ⟨hvalue, hlarge, (valueOf_outcome _ _).2.2 _ hvalue hlarge⟩

end Scale

end Recurrence
