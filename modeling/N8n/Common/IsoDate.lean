import Mathlib.Algebra.Order.Ring.Int
import Mathlib.Tactic.IntervalCases

/-!
# Dates in ISO 8601

`Date.prototype.toISOString`, for a time in milliseconds since the beginning of 1970. Days are
counted in eras of 400 years that begin in March, so that a leap day is the last day of its year.

## Main definitions

* `CivilDate`, `ofDays`, `toDays`: the date of a day, and the day of a date
* `toISOString`: the text of a time
* `ofISOString`: the time of a text, for the years 0 to 9999

## Main results

* `toDays_ofDays`: a day is the day of its date
* `ofISOString_toISOString`: a time is read back from its text
-/

namespace N8n.IsoDate

/-! ## Days and dates -/

structure CivilDate where
  year : ℤ
  month : ℤ
  day : ℤ
deriving DecidableEq, Repr

/-- Days from the first of March of the year 0 to the first of January 1970. -/
def epoch : ℤ := 719468

/-- The century of a day in an era. The last one has a day more. -/
def centuryOf (day : ℤ) : ℤ := min (day / 36524) 3

/-- The year of a day in four years. The last one has a day more. -/
def yearOfFour (day : ℤ) : ℤ := min (day / 365) 3

/-- Months have 31 and 30 days in turn, in groups of five that begin with March. -/
def monthStart (month : ℤ) : ℤ := (153 * month + 2) / 5

def ofDays (days : ℤ) : CivilDate :=
  let era := (days + epoch) / 146097
  let dayOfEra := (days + epoch) % 146097
  let century := centuryOf dayOfEra
  let dayOfCentury := dayOfEra - century * 36524
  let four := dayOfCentury / 1461
  let dayOfFour := dayOfCentury % 1461
  let year := yearOfFour dayOfFour
  let dayOfYear := dayOfFour - year * 365
  let month := (5 * dayOfYear + 2) / 153
  { year := era * 400 + century * 100 + four * 4 + year + if month < 10 then 0 else 1
    month := if month < 10 then month + 3 else month - 9
    day := dayOfYear - monthStart month + 1 }

def toDays (date : CivilDate) : ℤ :=
  let year := if date.month ≤ 2 then date.year - 1 else date.year
  let month := if date.month ≤ 2 then date.month + 9 else date.month - 3
  let yearOfEra := year % 400
  year / 400 * 146097 + yearOfEra * 365 + yearOfEra / 4 - yearOfEra / 100 + monthStart month +
    date.day - 1 - epoch

/-- A day is so many years, of which every fourth is longer, after the first of its century. -/
theorem exists_ofDays (days : ℤ) : ∃ era century four year month dayOfYear : ℤ,
    (0 ≤ century ∧ century ≤ 3) ∧ (0 ≤ four ∧ four ≤ 24) ∧ (0 ≤ year ∧ year ≤ 3) ∧
      (0 ≤ dayOfYear ∧ dayOfYear ≤ 365) ∧ month = (5 * dayOfYear + 2) / 153 ∧
      days + epoch = era * 146097 + century * 36524 + four * 1461 + year * 365 + dayOfYear ∧
      ofDays days = ⟨era * 400 + century * 100 + four * 4 + year + if month < 10 then 0 else 1,
        if month < 10 then month + 3 else month - 9, dayOfYear - monthStart month + 1⟩ := by
  have hera := Int.emod_nonneg (days + epoch) (show (146097 : ℤ) ≠ 0 by decide)
  have hera' := Int.emod_lt_of_pos (days + epoch) (show (0 : ℤ) < 146097 by decide)
  have hdays := Int.emod_add_mul_ediv (days + epoch) 146097
  refine ⟨_, _, _, _, _, _, ?_, ?_, ?_, ?_, rfl, ?_, rfl⟩
  · unfold centuryOf
    omega
  · unfold centuryOf
    omega
  · unfold yearOfFour
    omega
  · unfold yearOfFour
    omega
  · unfold yearOfFour
    omega

/-- The days before a year, from its century and its place in it. -/
theorem yearStart {era century four year : ℤ} (hcentury : 0 ≤ century ∧ century ≤ 3)
    (hfour : 0 ≤ four ∧ four ≤ 24) (hyear : 0 ≤ year ∧ year ≤ 3) :
    let n := era * 400 + century * 100 + four * 4 + year
    n / 400 * 146097 + n % 400 * 365 + n % 400 / 4 - n % 400 / 100 =
      era * 146097 + century * 36524 + four * 1461 + year * 365 := by
  intro n
  have hera : n / 400 = era := by omega
  have hrest : n % 400 = century * 100 + four * 4 + year := by omega
  rw [hera, hrest]
  omega

/-- **A day is the day of its date.** -/
theorem toDays_ofDays (days : ℤ) : toDays (ofDays days) = days := by
  obtain ⟨era, century, four, year, month, dayOfYear, hcentury, hfour, hyear, hday, hmonth, hdays,
    hdate⟩ := exists_ofDays days
  have hstart := @yearStart era _ _ _ hcentury hfour hyear
  have hbounds : 0 ≤ month ∧ month ≤ 11 := by omega
  rw [hdate]
  unfold toDays
  dsimp only at hstart ⊢
  -- the year and the month are those that begin in March
  by_cases hlate : month < 10
  · rw [if_pos hlate, if_pos hlate, if_neg (by omega), if_neg (by omega), add_zero,
      add_sub_cancel_right, hstart]
    omega
  · rw [if_neg hlate, if_neg hlate, if_pos (by omega), if_pos (by omega), add_sub_cancel_right,
      sub_add_cancel, hstart]
    omega

theorem ofDays_bounds (days : ℤ) : (1 ≤ (ofDays days).month ∧ (ofDays days).month ≤ 12) ∧
    (1 ≤ (ofDays days).day ∧ (ofDays days).day ≤ 31) := by
  obtain ⟨era, century, four, year, month, dayOfYear, hcentury, hfour, hyear, hday, hmonth, hdays,
    hdate⟩ := exists_ofDays days
  rw [hdate]
  unfold monthStart
  dsimp only
  split_ifs <;> omega

/-! ## Texts -/

def digit (n : ℕ) : Char := Char.ofNat (48 + n)

def two (n : ℕ) : List Char := [digit (n / 10), digit (n % 10)]

def three (n : ℕ) : List Char := [digit (n / 100), digit (n / 10 % 10), digit (n % 10)]

def four (n : ℕ) : List Char :=
  [digit (n / 1000), digit (n / 100 % 10), digit (n / 10 % 10), digit (n % 10)]

/-- Years before 0 and after 9999 have a sign and six digits. -/
def yearText (year : ℤ) : List Char :=
  if 0 ≤ year ∧ year ≤ 9999 then four year.toNat
  else (if 0 ≤ year then '+' else '-') :: (two (year.natAbs / 10000) ++ four (year.natAbs % 10000))

def yearOf (t : ℤ) : ℤ := (ofDays (t / 86400000)).year

def isoText (t : ℤ) : List Char :=
  let date := ofDays (t / 86400000)
  let rest := (t % 86400000).toNat
  yearText date.year ++ '-' :: two date.month.toNat ++ '-' :: two date.day.toNat ++
    'T' :: two (rest / 3600000) ++ ':' :: two (rest / 60000 % 60) ++
    ':' :: two (rest / 1000 % 60) ++ '.' :: three (rest % 1000) ++ ['Z']

def toISOString (t : ℤ) : String := String.ofList (isoText t)

def number (text : List Char) : Option ℤ :=
  if text.all Char.isDigit then
    some (text.foldl (fun n c => n * 10 + ((c.toNat : ℤ) - 48)) 0)
  else none

def ofParts : Option ℤ → Option ℤ → Option ℤ → Option ℤ → Option ℤ → Option ℤ → Option ℤ → Option ℤ
  | some year, some month, some day, some hours, some minutes, some seconds, some rest =>
    some (toDays ⟨year, month, day⟩ * 86400000 + hours * 3600000 + minutes * 60000 +
      seconds * 1000 + rest)
  | _, _, _, _, _, _, _ => none

def ofISOString (text : String) : Option ℤ :=
  match text.toList with
  | [a, b, c, d, '-', e, f, '-', g, h, 'T', i, j, ':', k, l, ':', m, n, '.', o, p, q, 'Z'] =>
    ofParts (number [a, b, c, d]) (number [e, f]) (number [g, h]) (number [i, j]) (number [k, l])
      (number [m, n]) (number [o, p, q])
  | _ => none

theorem isDigit_digit : ∀ n < 10, (digit n).isDigit = true := by decide

theorem toNat_digit : ∀ n < 10, (digit n).toNat = 48 + n := by decide

theorem number_two {n : ℕ} (hn : n < 100) : number (two n) = some n := by
  have ha := toNat_digit (n / 10) (by omega)
  have hb := toNat_digit (n % 10) (by omega)
  rw [number, two, if_pos]
  · simp only [List.foldl_cons, List.foldl_nil, ha, hb]
    congr 1
    omega
  · simp only [List.all_cons, isDigit_digit (n / 10) (by omega), isDigit_digit (n % 10) (by omega),
      List.all_nil, Bool.and_self]

theorem number_three {n : ℕ} (hn : n < 1000) : number (three n) = some n := by
  have ha := toNat_digit (n / 100) (by omega)
  have hb := toNat_digit (n / 10 % 10) (by omega)
  have hc := toNat_digit (n % 10) (by omega)
  rw [number, three, if_pos]
  · simp only [List.foldl_cons, List.foldl_nil, ha, hb, hc]
    congr 1
    omega
  · simp only [List.all_cons, isDigit_digit (n / 100) (by omega),
      isDigit_digit (n / 10 % 10) (by omega), isDigit_digit (n % 10) (by omega), List.all_nil,
      Bool.and_self]

theorem number_four {n : ℕ} (hn : n < 10000) : number (four n) = some n := by
  have ha := toNat_digit (n / 1000) (by omega)
  have hb := toNat_digit (n / 100 % 10) (by omega)
  have hc := toNat_digit (n / 10 % 10) (by omega)
  have hd := toNat_digit (n % 10) (by omega)
  rw [number, four, if_pos]
  · simp only [List.foldl_cons, List.foldl_nil, ha, hb, hc, hd]
    congr 1
    omega
  · simp only [List.all_cons, isDigit_digit (n / 1000) (by omega),
      isDigit_digit (n / 100 % 10) (by omega), isDigit_digit (n / 10 % 10) (by omega),
      isDigit_digit (n % 10) (by omega), List.all_nil, Bool.and_self]

theorem isoText_of_year {t : ℤ} (h : 0 ≤ yearOf t ∧ yearOf t ≤ 9999) :
    isoText t = four (yearOf t).toNat ++ '-' :: two (ofDays (t / 86400000)).month.toNat ++
      '-' :: two (ofDays (t / 86400000)).day.toNat ++ 'T' :: two ((t % 86400000).toNat / 3600000) ++
      ':' :: two ((t % 86400000).toNat / 60000 % 60) ++
      ':' :: two ((t % 86400000).toNat / 1000 % 60) ++ '.' :: three ((t % 86400000).toNat % 1000) ++
      ['Z'] := by
  have hyear : yearText (yearOf t) = four (yearOf t).toNat := if_pos h
  rw [← hyear]
  rfl

/-- **A time is read back from its text**, when its year has four digits. -/
theorem ofISOString_toISOString {t : ℤ} (h : 0 ≤ yearOf t ∧ yearOf t ≤ 9999) :
    ofISOString (toISOString t) = some t := by
  obtain ⟨hmonth, hday⟩ := ofDays_bounds (t / 86400000)
  have hdate : CivilDate.mk (yearOf t) (ofDays (t / 86400000)).month (ofDays (t / 86400000)).day =
    ofDays (t / 86400000) := rfl
  rw [toISOString, isoText_of_year h, ofISOString, String.toList_ofList]
  change ofParts (number (four _)) (number (two _)) (number (two _)) (number (two _))
    (number (two _)) (number (two _)) (number (three _)) = some t
  rw [number_four (by omega), number_two (by omega), number_two (by omega), number_two (by omega),
    number_two (by omega), number_two (by omega), number_three (by omega)]
  change some (toDays ⟨_, _, _⟩ * 86400000 + _ * 3600000 + _ * 60000 + _ * 1000 + _) = some t
  rw [Int.toNat_of_nonneg h.1, Int.toNat_of_nonneg (by omega), Int.toNat_of_nonneg (by omega),
    hdate, toDays_ofDays]
  congr 1
  omega

theorem length_isoText {t : ℤ} (h : 0 ≤ yearOf t ∧ yearOf t ≤ 9999) : (isoText t).length = 24 := by
  rw [isoText_of_year h]
  rfl

theorem all_two {n : ℕ} (hn : n < 100) : ∀ c ∈ two n, c.isDigit := by
  have ha := isDigit_digit (n / 10) (by omega)
  have hb := isDigit_digit (n % 10) (by omega)
  simp only [two, List.mem_cons, List.not_mem_nil, or_false]
  rintro c (rfl | rfl)
  · exact ha
  · exact hb

theorem all_three {n : ℕ} (hn : n < 1000) : ∀ c ∈ three n, c.isDigit := by
  have ha := isDigit_digit (n / 100) (by omega)
  have hb := isDigit_digit (n / 10 % 10) (by omega)
  have hc := isDigit_digit (n % 10) (by omega)
  simp only [three, List.mem_cons, List.not_mem_nil, or_false]
  rintro c (rfl | rfl | rfl)
  · exact ha
  · exact hb
  · exact hc

theorem all_four {n : ℕ} (hn : n < 10000) : ∀ c ∈ four n, c.isDigit := by
  have ha := isDigit_digit (n / 1000) (by omega)
  have hb := isDigit_digit (n / 100 % 10) (by omega)
  have hc := isDigit_digit (n / 10 % 10) (by omega)
  have hd := isDigit_digit (n % 10) (by omega)
  simp only [four, List.mem_cons, List.not_mem_nil, or_false]
  rintro c (rfl | rfl | rfl | rfl)
  · exact ha
  · exact hb
  · exact hc
  · exact hd

/-- The characters of the text are digits and five others. -/
theorem mem_isoText {t : ℤ} (h : 0 ≤ yearOf t ∧ yearOf t ≤ 9999) {c : Char} (hc : c ∈ isoText t) :
    c.isDigit ∨ c ∈ ['-', 'T', ':', '.', 'Z'] := by
  obtain ⟨hmonth, hday⟩ := ofDays_bounds (t / 86400000)
  rw [isoText_of_year h] at hc
  simp only [List.mem_append, List.mem_cons, List.not_mem_nil, or_false] at hc ⊢
  obtain (((((((hc | rfl | hc) | rfl | hc) | rfl | hc) | rfl | hc) | rfl | hc) | rfl | hc) | rfl) :=
    hc
  · exact .inl (all_four (by omega) c hc)
  · decide
  · exact .inl (all_two (by omega) c hc)
  · decide
  · exact .inl (all_two (by omega) c hc)
  · decide
  · exact .inl (all_two (by omega) c hc)
  · decide
  · exact .inl (all_two (by omega) c hc)
  · decide
  · exact .inl (all_two (by omega) c hc)
  · decide
  · exact .inl (all_three (by omega) c hc)
  · decide

end N8n.IsoDate
