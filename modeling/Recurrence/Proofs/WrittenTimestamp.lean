import Mathlib.Algebra.Group.Nat.Defs
import Recurrence.Proofs.CalendarDays
import Recurrence.Timestamp.Reader
import Recurrence.Timestamp.Writer

/-! The written form of a timestamp, read back part by part with any text behind it: a year of four
digits comes back as it was, one that is written with a sign cannot be read. -/

namespace Recurrence

section Padded

variable {width n : Nat}

theorem length_padded (hpos : 0 < width) (h : n < 10 ^ width) :
    (padded width n).toList.length = width := by
  have hlength := (Nat.length_toDigits_le_iff (b := 10) (by decide) hpos).mpr h
  rw [padded, String.toList_ofList, List.length_leftpad]
  omega

theorem le_length_padded (width n : Nat) : width ≤ (padded width n).toList.length := by
  rw [padded, String.toList_ofList, List.length_leftpad]
  exact Nat.le_max_left _ _

theorem isDigit_of_mem_padded {c : Char} (h : c ∈ (padded width n).toList) : c.isDigit = true := by
  rw [padded, String.toList_ofList, List.leftpad, List.mem_append] at h
  rcases h with h | h
  · rw [List.eq_of_mem_replicate h]
    rfl
  · exact Nat.isDigit_of_mem_toDigits (by decide) (by decide) h

theorem ofDigitChars_padded (width n : Nat) :
    Nat.ofDigitChars 10 (padded width n).toList 0 = n := by
  rw [padded, String.toList_ofList, List.leftpad, Nat.ofDigitChars_append,
    Nat.ofDigitChars_replicate_zero, Nat.mul_zero, Nat.ofDigitChars_ten_toDigits]

end Padded

theorem length_le_byteLength (text : List Char) : text.length ≤ byteLength text := by
  induction text with
  | nil => exact Nat.le_refl _
  | cons c text ih =>
    have := c.utf8Size_pos
    simp only [List.length_cons, byteLength]
    omega

/-- A leap second stands where the form can number it, as the sixtieth. -/
def Time.LeapEndsMinute (t : Time) : Prop := t.leap = true → t.second = 59

namespace Timestamp

theorem bind_of_ok {α β : Type} {first : Reader α} {next : α → Reader β} {text rest : List Char}
    {a : α} (h : first text = .ok (a, rest)) : (first >>= next) text = next a rest := by
  change (first text >>= fun found => next found.1 found.2) = _
  rw [h]
  rfl

theorem bind_of_error {α β : Type} {first : Reader α} {next : α → Reader β} {text : List Char}
    {fault : TimestampFault} (h : first text = .error fault) :
    (first >>= next) text = .error fault := by
  change (first text >>= fun found => next found.1 found.2) = _
  rw [h]
  rfl

theorem readDigits_padded {width n : Nat} (hpos : 0 < width) (h : n < 10 ^ width)
    (rest : List Char) : readDigits width ((padded width n).toList ++ rest) = .ok (n, rest) := by
  have hlength := length_padded hpos h
  have hdigits : (padded width n).toList.all Char.isDigit = true :=
    List.all_eq_true.mpr fun _ hc => isDigit_of_mem_padded hc
  rw [readDigits, List.take_left' hlength, List.drop_left' hlength, ofDigitChars_padded,
    if_pos ⟨hlength, hdigits⟩]

theorem readOne_cons {accept : Char → Bool} {c : Char} (h : accept c = true) (rest : List Char) :
    readOne accept (c :: rest) = .ok ((), rest) := if_pos h

theorem need_of_le {bytes : Nat} {text : List Char} (h : bytes ≤ text.length) :
    need bytes text = .ok ((), text) := by
  have hbytes : text.length ≤ byteLength text := length_le_byteLength text
  exact if_neg (by omega)

theorem yearText_of_fourDigits {year : Int} (h : 0 ≤ year ∧ year ≤ 9999) :
    yearText year = padded 4 year.natAbs := if_pos h

theorem readDate_text {d : Date} (h : 0 ≤ d.year ∧ d.year ≤ 9999) (rest : List Char) :
    readDate (d.text.toList ++ rest) = .ok (d, rest) := by
  have ⟨_, hmonth⟩ := d.month_bounds
  have hday : d.day ≤ 31 := Nat.le_trans d.valid.2 (monthLength_le _ _)
  have htext : d.text.toList ++ rest = (padded 4 d.year.natAbs).toList ++ '-' ::
      ((padded 2 d.month).toList ++ '-' :: ((padded 2 d.day).toList ++ rest)) := by
    simp [Date.text, yearText_of_fourDigits h]
  have hyear : (d.year.natAbs : Int) = d.year := by omega
  have hdate : Date.of? d.year d.month d.day = some d := dif_pos d.valid
  rw [htext, readDate, bind_of_ok (readDigits_padded (by decide) (by omega) _),
    bind_of_ok (readOne_cons (by decide) _),
    bind_of_ok (readDigits_padded (by decide) (by omega) _),
    bind_of_ok (readOne_cons (by decide) _),
    bind_of_ok (readDigits_padded (by decide) (by omega) _), hyear, hdate]
  rfl

theorem timeOf?_of_leap {t : Time} (h : t.LeapEndsMinute) :
    timeOf? t.hour t.minute (if t.leap then t.second + 1 else t.second) t.nanosecond = some t := by
  obtain ⟨hour, minute, second, nanosecond, leap, hhour, hminute, hsecond, hnanosecond⟩ := t
  cases leap with
  | true =>
    cases h rfl
    exact dif_pos ⟨hhour, hminute, hsecond, hnanosecond⟩
  | false =>
    have hne : second ≠ 60 := by omega
    rw [timeOf?]
    exact (if_neg hne).trans (dif_pos ⟨hhour, hminute, hsecond, hnanosecond⟩)

/-- A text that can stand behind a fraction. -/
def EndsFraction (rest : List Char) : Prop :=
  ∀ c tail, rest = c :: tail → c ≠ '.' ∧ c.isDigit = false

theorem nanoseconds_padded {width n : Nat} (hpos : 0 < width) (hwidth : width ≤ 9)
    (h : n < 10 ^ width) : nanoseconds (padded width n).toList = 10 ^ (9 - width) * n := by
  have hlength := length_padded hpos h
  rw [nanoseconds, List.take_of_length_le (by omega), List.rightpad, Nat.ofDigitChars_append,
    Nat.ofDigitChars_replicate_zero, ofDigitChars_padded, hlength]

theorem readFraction_padded {width n nanosecond : Nat} (hpos : 0 < width) (hwidth : width ≤ 9)
    (h : n < 10 ^ width) (hvalue : 10 ^ (9 - width) * n = nanosecond) {rest : List Char}
    (hrest : EndsFraction rest) :
    readFraction (("." ++ padded width n).toList ++ rest) = .ok (nanosecond, rest) := by
  have hlength := length_padded hpos h
  have hdigits : ∀ c ∈ (padded width n).toList, c.isDigit = true :=
    fun _ hc => isDigit_of_mem_padded hc
  have htake : rest.takeWhile Char.isDigit = [] := by
    cases rest with
    | nil => rfl
    | cons c tail => exact List.takeWhile_cons_of_neg (by simp [(hrest c tail rfl).2])
  have hdrop : rest.dropWhile Char.isDigit = rest := by
    cases rest with
    | nil => rfl
    | cons c tail => exact List.dropWhile_cons_of_neg (by simp [(hrest c tail rfl).2])
  have hne : (padded width n).toList ≠ [] := List.ne_nil_of_length_pos (by omega)
  have htext : ("." ++ padded width n).toList ++ rest
      = '.' :: ((padded width n).toList ++ rest) := by simp
  simp only [htext, readFraction, List.takeWhile_append_of_pos hdigits, htake, List.append_nil,
    List.dropWhile_append_of_pos hdigits, hdrop, List.isEmpty_iff, List.append_eq_nil_iff, hne,
    false_and, if_false, nanoseconds_padded hpos hwidth h, hvalue]

theorem readFraction_of_ends {rest : List Char} (hrest : EndsFraction rest) :
    readFraction rest = .ok (0, rest) := by
  unfold readFraction
  split
  · exact absurd rfl (hrest _ _ rfl).1
  · rfl

theorem readFraction_text {nanosecond : Nat} (h : nanosecond < 1000000000) {rest : List Char}
    (hrest : EndsFraction rest) :
    readFraction ((fractionText nanosecond).toList ++ rest) = .ok (nanosecond, rest) := by
  unfold fractionText
  split
  case isTrue hzero =>
    rw [hzero]
    exact readFraction_of_ends hrest
  case isFalse =>
    split
    case isTrue hmilli =>
      exact readFraction_padded (by decide) (by decide) (by omega) (by omega) hrest
    case isFalse =>
      split
      case isTrue hmicro =>
        exact readFraction_padded (by decide) (by decide) (by omega) (by omega) hrest
      case isFalse =>
        exact readFraction_padded (by decide) (by decide) (by omega) (by omega) hrest

theorem readTime_text {t : Time} (h : t.LeapEndsMinute) {rest : List Char}
    (hrest : EndsFraction rest) : readTime (t.text.toList ++ rest) = .ok (t, rest) := by
  have := t.hour_lt
  have := t.minute_lt
  have := t.second_lt
  have hsecond : (if t.leap then t.second + 1 else t.second) < 10 ^ 2 := by
    split <;> omega
  have htext : t.text.toList ++ rest = (padded 2 t.hour).toList ++ ':' ::
      ((padded 2 t.minute).toList ++ ':' ::
        ((padded 2 (if t.leap then t.second + 1 else t.second)).toList ++
          ((fractionText t.nanosecond).toList ++ rest))) := by
    simp [Time.text]
  rw [htext, readTime, bind_of_ok (readDigits_padded (by decide) (by omega) _),
    bind_of_ok (readOne_cons (by decide) _),
    bind_of_ok (readDigits_padded (by decide) (by omega) _),
    bind_of_ok (readOne_cons (by decide) _), bind_of_ok (readDigits_padded (by decide) hsecond _),
    bind_of_ok (readFraction_text t.nanosecond_lt hrest), timeOf?_of_leap h]
  rfl

/-- The offset that the form writes for an offset in seconds. -/
def wholeMinutes (offset : Int) : Int :=
  (if offset < 0 then -1 else 1) * ((offset.natAbs + 30) / 60 * 60 : Nat)

theorem wholeMinutes_of_emod {offset : Int} (h : offset % 60 = 0) :
    wholeMinutes offset = offset := by
  unfold wholeMinutes
  split <;> omega

theorem readShift_padded {minutes : Nat} (h : minutes < 6000) (rest : List Char) :
    readShift ((padded 2 (minutes / 60)).toList ++
        ':' :: ((padded 2 (minutes % 60)).toList ++ rest)) = .ok (minutes * 60, rest) := by
  have hhours : (padded 2 (minutes / 60)).toList.length = 2 :=
    length_padded (by decide) (by omega)
  have hminutes : (padded 2 (minutes % 60)).toList.length = 2 :=
    length_padded (by decide) (by omega)
  have hlt : ¬ 60 ≤ minutes % 60 := by omega
  have hsum : minutes / 60 * 3600 + minutes % 60 * 60 = minutes * 60 := by omega
  rw [readShift, bind_of_ok (need_of_le (by simp [hhours])),
    bind_of_ok (readDigits_padded (by decide) (by omega) _),
    bind_of_ok (readOne_cons (by decide) _), bind_of_ok (need_of_le (by simp [hminutes])),
    bind_of_ok (readDigits_padded (by decide) (by omega) _), if_neg hlt, hsum]
  rfl

theorem readOffset_of_sign? {c : Char} {sign : Int} (hsign : sign? c = some sign)
    {text rest : List Char} {seconds : Nat} (h : readShift text = .ok (seconds, rest)) :
    readOffset (c :: text) = .ok (sign * seconds, rest) := by
  have hzulu : ¬ (c = 'Z' ∨ c = 'z') := by
    rintro (rfl | rfl) <;> cases hsign
  rw [readOffset, if_neg hzulu, hsign]
  simp only [h]
  rfl

theorem toList_offsetText (offset : Int) : (offsetText offset).toList =
    (if offset < 0 then '-' else '+') :: ((padded 2 ((offset.natAbs + 30) / 60 / 60)).toList ++
      ':' :: (padded 2 ((offset.natAbs + 30) / 60 % 60)).toList) := by
  unfold offsetText
  split <;> simp

theorem readOffset_text {offset : Int} (h : (wholeMinutes offset).natAbs < 360000) :
    readOffset (offsetText offset).toList = .ok (wholeMinutes offset, []) := by
  have hsign : sign? (if offset < 0 then '-' else '+') = some (if offset < 0 then -1 else 1) := by
    split <;> rfl
  have hminutes : (offset.natAbs + 30) / 60 < 6000 := by
    unfold wholeMinutes at h
    split at h <;> omega
  have hshift := readShift_padded hminutes []
  rw [List.append_nil] at hshift
  rw [toList_offsetText]
  exact readOffset_of_sign? hsign hshift

theorem endsFraction_offsetText (offset : Int) : EndsFraction (offsetText offset).toList := by
  intro c tail h
  rw [toList_offsetText, List.cons.injEq] at h
  rw [← h.1]
  split <;> decide

theorem le_length_dateText (d : Date) : 10 ≤ d.text.toList.length := by
  have hyear : 4 ≤ (yearText d.year).toList.length := by
    have := le_length_padded 4 d.year.natAbs
    unfold yearText
    split
    · exact this
    · rw [String.toList_append, List.length_append]
      omega
  have := le_length_padded 2 d.month
  have := le_length_padded 2 d.day
  have hdash : "-".toList.length = 1 := rfl
  simp only [Date.text, String.toList_append, List.length_append, hdash]
  omega

theorem le_length_timeText (t : Time) : 8 ≤ t.text.toList.length := by
  have := le_length_padded 2 t.hour
  have := le_length_padded 2 t.minute
  have := le_length_padded 2 (if t.leap then t.second + 1 else t.second)
  have hcolon : ":".toList.length = 1 := rfl
  simp only [Time.text, String.toList_append, List.length_append, hcolon]
  omega

theorem toList_dateTimeText (t : DateTime) (rest : List Char) : t.text.toList ++ rest =
    t.date.text.toList ++ 'T' :: (t.time.text.toList ++ rest) := by
  simp [DateTime.text]

theorem need_dateTimeText (t : DateTime) (rest : List Char) :
    need 19 (t.text.toList ++ rest) = .ok ((), t.text.toList ++ rest) := by
  have := le_length_dateText t.date
  have := le_length_timeText t.time
  apply need_of_le
  simp only [toList_dateTimeText, List.length_append, List.length_cons]
  omega

theorem readDateTime_text {t : DateTime} (hyear : 0 ≤ t.date.year ∧ t.date.year ≤ 9999)
    (hleap : t.time.LeapEndsMinute) {rest : List Char}
    (hrest : EndsFraction rest) : readDateTime (t.text.toList ++ rest) = .ok (t, rest) := by
  rw [readDateTime, bind_of_ok (need_dateTimeText t rest), toList_dateTimeText,
    bind_of_ok (readDate_text hyear _), bind_of_ok (readOne_cons (by decide) _),
    bind_of_ok (readTime_text hleap hrest)]
  rfl

theorem readDigits_of_not_isDigit {c : Char} (h : c.isDigit = false) (count : Nat)
    (text : List Char) : readDigits (count + 1) (c :: text) = .error .invalid := by
  apply if_neg
  simp [h]

theorem toList_yearText {year : Int} (h : ¬ (0 ≤ year ∧ year ≤ 9999)) : (yearText year).toList =
    (if year < 0 then '-' else '+') :: (padded 4 year.natAbs).toList := by
  rw [yearText, if_neg h]
  split <;> simp

/-- A sign stands where the first digit of the year should. -/
theorem readDateTime_of_signedYear {t : DateTime} (h : ¬ (0 ≤ t.date.year ∧ t.date.year ≤ 9999))
    (rest : List Char) : readDateTime (t.text.toList ++ rest) = .error .invalid := by
  have hsign : (if t.date.year < 0 then '-' else '+').isDigit = false := by
    split <;> rfl
  obtain ⟨tail, htext⟩ : ∃ tail, t.text.toList ++ rest =
      (if t.date.year < 0 then '-' else '+') :: tail := by
    simp [DateTime.text, Date.text, toList_yearText h]
  have hdate : readDate (t.text.toList ++ rest) = .error .invalid := by
    rw [htext]
    exact bind_of_error (readDigits_of_not_isDigit hsign 3 tail)
  rw [readDateTime, bind_of_ok (need_dateTimeText t rest)]
  exact bind_of_error hdate

theorem ofChars_of_signedYear {t : Timestamp}
    (h : ¬ (0 ≤ t.clock.date.year ∧ t.clock.date.year ≤ 9999)) :
    ofChars t.text.toList = .error .invalid := by
  rw [Timestamp.text, String.toList_append, ofChars, readDateTime_of_signedYear h]
  rfl

theorem ofChars_of_read {text rest : List Char} {clock : DateTime} {offset : Int}
    (hclock : readDateTime text = .ok (clock, rest))
    (hoffset : readOffset rest = .ok (offset, [])) :
    ofChars text = if 86400 ≤ offset.natAbs then .error .outOfRange else .ok ⟨clock, offset⟩ := by
  unfold ofChars
  rw [hclock]
  change (readOffset rest >>= _) = _
  rw [hoffset]
  change (if 86400 ≤ offset.natAbs then _ else _) = _
  by_cases hlong : 86400 ≤ offset.natAbs
  · rw [if_pos hlong, if_pos hlong]
    rfl
  · rw [if_neg hlong, if_neg hlong]
    rfl

/-- The offset comes back to the nearest minute. -/
theorem ofChars_text {t : Timestamp} (hyear : 0 ≤ t.clock.date.year ∧ t.clock.date.year ≤ 9999)
    (hleap : t.clock.time.LeapEndsMinute)
    (hoffset : (wholeMinutes t.offset).natAbs < 86400) :
    ofChars t.text.toList = .ok ⟨t.clock, wholeMinutes t.offset⟩ := by
  have hends := endsFraction_offsetText t.offset
  rw [Timestamp.text, String.toList_append]
  have hread : readOffset (offsetText t.offset).toList = .ok (wholeMinutes t.offset, []) :=
    readOffset_text (by omega)
  rw [ofChars_of_read (readDateTime_text hyear hleap hends) hread, if_neg (by omega)]

theorem ofChars_text_eq_self {t : Timestamp}
    (hyear : 0 ≤ t.clock.date.year ∧ t.clock.date.year ≤ 9999)
    (hleap : t.clock.time.LeapEndsMinute) (hminutes : t.offset % 60 = 0)
    (hoffset : t.offset.natAbs < 86400) : ofChars t.text.toList = .ok t := by
  have hwhole := wholeMinutes_of_emod hminutes
  have hread := ofChars_text hyear hleap (by rwa [hwhole])
  rwa [hwhole] at hread

end Timestamp

end Recurrence
