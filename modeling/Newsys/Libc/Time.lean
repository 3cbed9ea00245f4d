import Newsys.Lib.Calendar
import Newsys.Lib.Ints
import Mathlib.Tactic.IntervalCases

/- Calendar times (lib/time.c). Years are counted from 1900 and months from 0, as in `struct tm`; the time zone is 0. -/
namespace LibcTime
open Calendar Ints Int Option

structure Tm where
  tmSec : Int
  tmMin : Int
  tmHour : Int
  tmYear : Int
  tmMon : Int
  tmMday : Int
  tmWday : Int
  tmYday : Int
  tmIsdst : Int
  deriving DecidableEq

def yearMin : Int := -147
def yearMax : Int := 8099

abbrev int : Int → Int := signed 32

def isleap (y : Int) : Bool := y.tmod 4 = 0 ∧ (y.tmod 100 ≠ 0 ∨ (y + 300).tmod 400 = 0)

def yearsecs (y : Int) : Int := (365 + if isleap y then 1 else 0) * 86400

def libcMonthlen : List Int := [31, 28, 31, 30, 31, 30, 31, 31, 30, 31, 30, 31]

def libcMonthacc : List Int := [0, 31, 59, 90, 120, 151, 181, 212, 243, 273, 304, 334]

def monthdays (y m : Int) : Int :=
  if isleap y ∧ m = 1 then libcMonthlen.getD m.toNat 0 + 1 else libcMonthlen.getD m.toNat 0

def monthsecs (y m : Int) : Int := monthdays y m * 86400

/-- `while (t < 0)` of `gmtime`; no result where it returns NULL. -/
def backYears (t year : Int) : Option (Int × Int) :=
  if t < 0 then
    if year - 1 < yearMin then none else backYears (t + yearsecs (year - 1)) (year - 1)
  else some (t, year)
termination_by (year - yearMin).toNat
decreasing_by omega

def forthYears (t year : Int) : Option (Int × Int) :=
  if yearsecs year ≤ t then
    if year + 1 > yearMax then none else forthYears (t - yearsecs year) (year + 1)
  else some (t, year)
termination_by (yearMax + 1 - year).toNat
decreasing_by omega

/-- `while (t >= monthsecs(tm.tm_year, tm.tm_mon))`; the tables of months end at 12, and `gmtime` never gets there. -/
def forthMonths (t year mon : Int) : Option (Int × Int) :=
  if 12 ≤ mon then none
  else if monthsecs year mon ≤ t then forthMonths (t - monthsecs year mon) year (mon + 1)
  else some (t, mon)
termination_by (12 - mon).toNat
decreasing_by omega

def gmtime (time : Int) : Option Tm := do
  let r := time.tmod (86400 * 7)
  let t7 := if r < 0 then r + 86400 * 7 else r
  let (t, year) ← backYears time 70
  let (t, year) ← forthYears t year
  let (rest, mon) ← forthMonths t year 0
  some
    { tmWday := (t7.tdiv 86400 + 4).tmod 7
      tmSec := t7.tmod 60
      tmMin := (t7.tdiv 60).tmod 60
      tmHour := (t7.tdiv 3600).tmod 24
      tmYear := year
      tmMon := mon
      tmYday := t.tdiv 86400
      tmMday := rest.tdiv 86400 + 1
      tmIsdst := -1 }

def divrd (a b : Int) : Int := if a < 0 then (a - b + 1).tdiv b else a.tdiv b

/-- What has type `int` in the source is computed in 32 bits; the sum of the `time_t`s is far from its limits. -/
def mktime (time : Tm) : Int :=
  if time.tmYear < yearMin ∨ time.tmMon < 0 ∨ time.tmMday < 0 ∨ time.tmHour < 0 ∨ time.tmMin < 0 ∨ time.tmSec < 0 then -1
  else
    let year := int (time.tmYear + time.tmMon.tdiv 12)
    let mon := time.tmMon.tmod 12
    let t := int (int (time.tmMday - 1) * 86400) + int (time.tmHour * 3600) + int (time.tmMin * 60) + time.tmSec +
      libcMonthacc.getD mon.toNat 0 * 86400
    let ly := int (year + if mon > 1 then 1 else 0)
    t + 86400 * 365 * int (year - 70) + 86400 * divrd (int (ly - 69)) 4 - 86400 * divrd (int (ly - 1)) 100 +
      86400 * divrd (int (ly + 299)) 400

/- The lengths of years and months -/

theorem tmod_eq_zero_iff (a b : Int) : a.tmod b = 0 ↔ a % b = 0 := by
  rw [← dvd_iff_tmod_eq_zero, dvd_iff_emod_eq_zero]

theorem isleap_iff (y : Int) : isleap y = true ↔ Leap (y + 1900) := by
  simp only [isleap, decide_eq_true_eq, ne_eq, tmod_eq_zero_iff]
  omega

theorem yearsecs_eq (y : Int) : yearsecs y = yearLength (y + 1900) * 86400 := by
  rw [yearLength_eq]
  by_cases leap : isleap y
  · rw [yearsecs, if_pos leap, if_pos ((isleap_iff y).mp leap)]
    rfl
  · rw [yearsecs, if_neg leap, if_neg fun is => leap ((isleap_iff y).mpr is)]
    rfl

variable {m : Nat}

theorem monthdays_eq (y : Int) (lt : m < 12) : monthdays y m = monthLength (y + 1900) m := by
  simp only [monthdays, isleap_iff, toNat_natCast]
  interval_cases m <;> simp [libcMonthlen, monthLength]

theorem yearsecs_pos (y : Int) : 365 * 86400 ≤ yearsecs y := by
  rw [yearsecs]
  split <;> omega

/- The loops of gmtime -/

def yearSecond (year : Int) : Int := yearStart (year + 1900) * 86400

theorem yearSecond_succ (year : Int) : yearSecond (year + 1) = yearSecond year + yearsecs year := by
  rw [yearsecs_eq, yearSecond, yearSecond, show year + 1 + 1900 = year + 1900 + 1 by omega, yearStart_succ]
  omega

theorem yearSecond_lt (lt : a < b) : yearSecond a + yearsecs a ≤ yearSecond b := by
  have gap := yearStart_mono (a := a + 1900) (b := b + 1900) (by omega)
  rw [yearsecs_eq]
  simp only [yearSecond]
  omega

variable {t year r y : Int}

theorem backYears_some (run : backYears t year = some (r, y)) (low : yearMin ≤ year) :
    yearSecond y + r = yearSecond year + t ∧ 0 ≤ r ∧ yearMin ≤ y ∧ y ≤ year ∧ (0 ≤ t → y = year) ∧
      (t < 0 → r < yearsecs y) := by
  induction t, year using backYears.induct with
  | case1 t year neg below =>
    rw [backYears, if_pos neg, if_pos below] at run
    cases run
  | case2 t year neg above ih =>
    rw [backYears, if_pos neg, if_neg above] at run
    obtain ⟨sum, pos, min, le, stay, last⟩ := ih run (by omega)
    have step := yearSecond_succ (year - 1)
    rw [sub_add_cancel] at step
    refine ⟨by omega, pos, min, by omega, by omega, ?_⟩
    intro _
    by_cases more : t + yearsecs (year - 1) < 0
    · exact last more
    · have here := stay (by omega)
      subst here
      omega
  | case3 t year pos =>
    rw [backYears, if_neg pos] at run
    cases run
    exact ⟨rfl, by omega, low, le_refl _, fun _ => rfl, by omega⟩

theorem forthYears_some (run : forthYears t year = some (r, y)) (pos : 0 ≤ t) (high : year ≤ yearMax) :
    yearSecond y + r = yearSecond year + t ∧ 0 ≤ r ∧ r < yearsecs y ∧ year ≤ y ∧ y ≤ yearMax := by
  induction t, year using forthYears.induct with
  | case1 t year more above =>
    rw [forthYears, if_pos more, if_pos above] at run
    cases run
  | case2 t year more below ih =>
    rw [forthYears, if_pos more, if_neg below] at run
    obtain ⟨sum, rest⟩ := ih run (by omega) (by omega)
    have step := yearSecond_succ year
    exact ⟨by omega, rest.1, rest.2.1, by omega, rest.2.2.2⟩
  | case3 t year less =>
    rw [forthYears, if_neg less] at run
    cases run
    exact ⟨rfl, pos, by omega, le_refl _, high⟩

theorem backYears_ends (low : yearSecond yearMin ≤ yearSecond year + t) (min : yearMin ≤ year) :
    ∃ r y, backYears t year = some (r, y) := by
  induction t, year using backYears.induct with
  | case1 t year neg below =>
    have here : year = yearMin := by omega
    subst here
    omega
  | case2 t year neg above ih =>
    have step := yearSecond_succ (year - 1)
    rw [sub_add_cancel] at step
    rw [backYears, if_pos neg, if_neg above]
    exact ih (by omega) (by omega)
  | case3 t year pos =>
    rw [backYears, if_neg pos]
    exact ⟨t, year, rfl⟩

theorem forthYears_ends (high : yearSecond year + t < yearSecond (yearMax + 1)) (max : year ≤ yearMax) :
    ∃ r y, forthYears t year = some (r, y) := by
  induction t, year using forthYears.induct with
  | case1 t year more above =>
    have here : year = yearMax := by omega
    subst here
    have step := yearSecond_succ yearMax
    omega
  | case2 t year more below ih =>
    have step := yearSecond_succ year
    rw [forthYears, if_pos more, if_neg below]
    exact ih (by omega) (by omega)
  | case3 t year less =>
    rw [forthYears, if_neg less]
    exact ⟨t, year, rfl⟩

theorem forthMonths_some (pos : 0 ≤ t) (le : mon ≤ 12)
    (short : t < (yearLength (year + 1900) - daysBefore (year + 1900) mon) * 86400) :
    ∃ r : Int, ∃ m : Nat, forthMonths t year mon = some (r, (m : Int)) ∧ m < 12 ∧ 0 ≤ r ∧
      r < monthLength (year + 1900) m * 86400 ∧
      daysBefore (year + 1900) m * 86400 + r = daysBefore (year + 1900) mon * 86400 + t := by
  obtain ⟨left, same⟩ : ∃ left, left = 12 - mon := ⟨_, rfl⟩
  induction left generalizing t mon with
  | zero =>
    have last : mon = 12 := by omega
    subst last
    rw [← yearLength] at short
    omega
  | succ left ih =>
    have lt : mon < 12 := by omega
    rw [forthMonths, if_neg (by omega), monthsecs, monthdays_eq year lt]
    split
    · rename_i more
      obtain ⟨r, m, run, rest⟩ := @ih (t - monthLength (year + 1900) mon * 86400) (mon + 1) (by omega)
        (by omega) (by rw [daysBefore]; push_cast; omega) (by omega)
      refine ⟨r, m, run, rest.1, rest.2.1, rest.2.2.1, ?_⟩
      have sum := rest.2.2.2
      rw [daysBefore] at sum
      push_cast at sum
      omega
    · exact ⟨t, mon, rfl, lt, pos, by omega, rfl⟩

/- What gmtime returns -/

def tmOf (d : Day) (second : Int) : Tm :=
  { tmSec := second % 60
    tmMin := second / 60 % 60
    tmHour := second / 3600
    tmYear := d.year - 1900
    tmMon := d.month
    tmMday := d.day
    tmWday := d.weekday
    tmYday := d.yearDay
    tmIsdst := -1 }

def Covered (t : Int) : Prop := yearSecond yearMin ≤ t ∧ t < yearSecond (yearMax + 1)

theorem yearSecond_70 : yearSecond 70 = 0 := by decide

theorem years_some (low : yearMin ≤ y) (high : y ≤ yearMax) (sum : yearSecond y + r = t) (pos : 0 ≤ r)
    (short : r < yearsecs y) : Covered t := by
  have next := yearSecond_succ y
  constructor
  · rcases lt_or_eq_of_le low with lt | eq
    · have gap := yearSecond_lt lt
      have long := yearsecs_pos yearMin
      omega
    · rw [eq]
      omega
  · rcases lt_or_eq_of_le high with lt | eq
    · have gap := yearSecond_lt (a := y + 1) (b := yearMax + 1) (by omega)
      have long := yearsecs_pos (y + 1)
      omega
    · rw [← eq]
      omega

theorem day_of {rest : Int} (sum : yearSecond y + r = t) (lt : m < 12) (pos : 0 ≤ rest)
    (short : rest < monthLength (y + 1900) m * 86400) (month : daysBefore (y + 1900) m * 86400 + rest = r) :
    dayAt (t / 86400) = { year := y + 1900, month := m, day := (rest / 86400).toNat + 1
                          weekday := ((t / 86400 + 4) % 7).toNat, yearDay := (r / 86400).toNat } := by
  have weekday : ((t / 86400 + 4) % 7).toNat < 7 := by omega
  apply dayAt_eq
  · refine ⟨lt, by simp, ?_, weekday, ?_⟩ <;> simp only <;> omega
  · simp only [Day.number]
    simp only [yearSecond] at sum
    omega
  · simp only
    omega

theorem gmtime_eq (covered : Covered t) : gmtime t = some (tmOf (dayAt (t / 86400)) (t % 86400)) := by
  obtain ⟨r1, y1, back⟩ := backYears_ends (t := t) (by rw [yearSecond_70, zero_add]; exact covered.1)
    (by decide)
  obtain ⟨sum1, pos1, min1, le1, _⟩ := backYears_some back (by decide)
  rw [yearSecond_70, zero_add] at sum1
  have max1 : y1 ≤ yearMax := le_trans le1 (by decide)
  obtain ⟨r, y, forth⟩ := forthYears_ends (t := r1) (by rw [sum1]; exact covered.2) max1
  obtain ⟨sum, pos, short, _⟩ := forthYears_some forth pos1 max1
  rw [yearsecs_eq] at short
  obtain ⟨rest, m, months, lt, rpos, rshort, month⟩ :=
    @forthMonths_some r y 0 pos (by decide) (by simpa [daysBefore] using short)
  rw [daysBefore, Int.natCast_zero] at *
  have day := day_of (sum.trans sum1) lt rpos rshort (by omega)
  have week : (if t.tmod (86400 * 7) < 0 then t.tmod (86400 * 7) + 86400 * 7 else t.tmod (86400 * 7)) =
      t % (86400 * 7) := by
    rw [tmod_eq_emod]
    split <;> split <;> omega
  have rounded : ∀ a b : Int, 0 ≤ a → a.tdiv b = a / b := fun a b pos => tdiv_eq_ediv_of_nonneg pos
  have left : ∀ a b : Int, 0 ≤ a → a.tmod b = a % b := fun a b pos => tmod_eq_emod_of_nonneg pos
  simp only [gmtime, week, back, forth, months, bind_eq_bind, bind_some, day, tmOf]
  rw [rounded (t % (86400 * 7)) 86400 (by omega), rounded (t % (86400 * 7)) 60 (by omega),
    rounded (t % (86400 * 7)) 3600 (by omega), rounded r 86400 pos, rounded rest 86400 rpos,
    left _ 60 (by omega), left _ 60 (by omega), left _ 24 (by omega), left _ 7 (by omega)]
  congr 2 <;> omega

theorem gmtime_some (run : gmtime t = some tm) : Covered t := by
  simp only [gmtime, bind_eq_bind, bind_eq_some_iff] at run
  obtain ⟨⟨r1, y1⟩, back, ⟨r, y⟩, forth, _⟩ := run
  obtain ⟨sum1, pos1, min1, le1, _⟩ := backYears_some back (by decide)
  rw [yearSecond_70, zero_add] at sum1
  obtain ⟨sum, pos, short, from1, max⟩ := forthYears_some forth pos1 (le_trans le1 (by decide))
  exact years_some (by omega) max (sum.trans sum1) pos short

/- What mktime returns -/

theorem divrd_eq (a : Int) (pos : 0 < b) : divrd a b = a / b := by
  unfold divrd
  split
  · have parts := emod_add_mul_ediv a b
    have lt := emod_lt_of_pos a pos
    have lo := emod_nonneg a (show b ≠ 0 by omega)
    have up : b - 1 - a = (b - 1 - a % b) + b * -(a / b) := by
      rw [mul_neg]
      omega
    rw [show a - b + 1 = -(b - 1 - a) by omega, Int.neg_tdiv, Int.tdiv_eq_ediv_of_nonneg (by omega), up,
      add_mul_ediv_left _ _ (by omega), ediv_eq_zero_of_lt (by omega) (by omega)]
    omega
  · exact tdiv_eq_ediv_of_nonneg (by omega)

theorem monthacc_eq (year : Int) (lt : m < 12) :
    (daysBefore year m : Int) = libcMonthacc.getD m 0 + if 1 < m ∧ Leap year then 1 else 0 := by
  interval_cases m <;> simp [libcMonthacc, daysBefore, monthLength] <;> omega

theorem int_eq (lo : -2 ^ 31 ≤ n) (hi : n < 2 ^ 31) : int n = n := signed_eq (by decide) ⟨lo, hi⟩

theorem leaps_eq (y : Int) (late : Prop) [Decidable late] :
    365 * (y - 70) + (y + (if late then 1 else 0) - 69) / 4 - (y + (if late then 1 else 0) - 1) / 100 +
      (y + (if late then 1 else 0) + 299) / 400 =
    yearStart (y + 1900) + if late ∧ Leap (y + 1900) then 1 else 0 := by
  simp only [yearStart]
  by_cases is : late
  · simp only [is, true_and, if_true]
    split <;> omega
  · simp only [is, false_and, if_false]
    omega

theorem mktime_eq (v : Valid d) (low : yearMin ≤ d.year - 1900) (high : d.year - 1900 ≤ yearMax)
    (pos : 0 ≤ s) (short : s < 86400) : mktime (tmOf d s) = d.number * 86400 + s := by
  have mon := v.month
  have first := v.first
  have last : d.day ≤ 31 := by
    refine le_trans v.last ?_
    unfold monthLength
    split <;> (try split) <;> omega
  simp only [yearMin] at low
  simp only [yearMax] at high
  have acc := monthacc_eq d.year mon
  have leaps := leaps_eq (d.year - 1900) (1 < d.month)
  rw [sub_add_cancel] at leaps
  have kept : (d.month : Int).tdiv 12 = 0 := tdiv_eq_zero_of_lt (by omega) (by omega)
  have same : (d.month : Int).tmod 12 = d.month := tmod_eq_of_lt (by omega) (by omega)
  have late : ((d.month : Int) > 1) = (1 < d.month) := by
    apply propext
    omega
  have year : int (d.year - 1900 + 0) = d.year - 1900 := by
    rw [add_zero]
    exact int_eq (by omega) (by omega)
  have ly : (if 1 < d.month then (1 : Int) else 0) = 0 ∨ (if 1 < d.month then (1 : Int) else 0) = 1 := by
    split <;> simp
  have yearDay := v.yearDay
  simp only [mktime, tmOf, kept, same, late, year]
  rw [if_neg (by simp only [yearMin]; omega)]
  generalize (if 1 < d.month then (1 : Int) else 0) = late at leaps ly ⊢
  rw [int_eq (n := d.day - 1) (by omega) (by omega), int_eq (n := (d.day - 1) * 86400) (by omega) (by omega),
    int_eq (n := s / 3600 * 3600) (by omega) (by omega), int_eq (n := s / 60 % 60 * 60) (by omega) (by omega),
    int_eq (n := d.year - 1900 + late) (by omega) (by omega), int_eq (n := d.year - 1900 - 70) (by omega) (by omega),
    int_eq (n := d.year - 1900 + late - 69) (by omega) (by omega),
    int_eq (n := d.year - 1900 + late - 1) (by omega) (by omega),
    int_eq (n := d.year - 1900 + late + 299) (by omega) (by omega), divrd_eq _ (by decide), divrd_eq _ (by decide),
    divrd_eq _ (by decide), toNat_natCast]
  simp only [Day.number]
  omega

/-- The fields that say when, in the ranges that `gmtime` covers. -/
structure Normal (tm : Tm) : Prop where
  sec : 0 ≤ tm.tmSec ∧ tm.tmSec < 60
  min : 0 ≤ tm.tmMin ∧ tm.tmMin < 60
  hour : 0 ≤ tm.tmHour ∧ tm.tmHour < 24
  mon : 0 ≤ tm.tmMon ∧ tm.tmMon < 12
  mday : 1 ≤ tm.tmMday ∧ tm.tmMday ≤ monthLength (tm.tmYear + 1900) tm.tmMon.toNat
  year : yearMin ≤ tm.tmYear ∧ tm.tmYear ≤ yearMax

/-- A structure has the date of a day, and its weekday and day of the year. -/
def Dated (tm : Tm) (d : Day) : Prop :=
  tm.tmYear + 1900 = d.year ∧ tm.tmMon = d.month ∧ tm.tmMday = d.day ∧ tm.tmWday = d.weekday ∧ tm.tmYday = d.yearDay

theorem year_of_covered (covered : Covered t) :
    yearMin ≤ (dayAt (t / 86400)).year - 1900 ∧ (dayAt (t / 86400)).year - 1900 ≤ yearMax := by
  have number := number_dayAt (t / 86400)
  have lt := (valid_dayAt (t / 86400)).yearDay_lt
  obtain ⟨low, high⟩ := covered
  simp only [Day.number] at number
  simp only [yearSecond] at low high
  constructor
  · by_contra before
    have gap := yearStart_mono (a := (dayAt (t / 86400)).year) (b := yearMin + 1900) (by omega)
    omega
  · by_contra behind
    rcases lt_or_eq_of_le (show yearMax + 1 + 1900 ≤ (dayAt (t / 86400)).year by omega) with gt | eq
    · have gap := yearStart_mono gt
      omega
    · rw [← eq] at number
      omega

theorem normal_tmOf (covered : Covered t) : Normal (tmOf (dayAt (t / 86400)) (t % 86400)) := by
  have v := valid_dayAt (t / 86400)
  have month := v.month
  have first := v.first
  have last := v.last
  refine ⟨?_, ?_, ?_, ?_, ?_, year_of_covered covered⟩ <;> simp only [tmOf]
  · omega
  · omega
  · omega
  · omega
  · rw [sub_add_cancel, toNat_natCast]
    omega

theorem covered_of_year (v : Valid d) (low : yearMin ≤ d.year - 1900)
    (high : d.year - 1900 ≤ yearMax) (pos : 0 ≤ s) (short : s < 86400) : Covered (d.number * 86400 + s) := by
  have lt := v.yearDay_lt
  apply years_some low high (r := d.yearDay * 86400 + s)
  · simp only [yearSecond, Day.number, sub_add_cancel]
    omega
  · omega
  · rw [yearsecs_eq, sub_add_cancel]
    omega

theorem gmtime_mktime (normal : Normal tm) : ∃ n : Int, ∃ tm', gmtime (mktime tm) = some tm' ∧
    Dated tm' (dayAt n) ∧ tm' = { tm with tmWday := tm'.tmWday, tmYday := tm'.tmYday, tmIsdst := -1 } := by
  obtain ⟨sec, min, hour, mon, mday, year⟩ := normal
  have month : tm.tmMon.toNat < 12 := by omega
  have first : 1 ≤ tm.tmMday.toNat := by omega
  have last : tm.tmMday.toNat ≤ monthLength (tm.tmYear + 1900) tm.tmMon.toNat := by omega
  have day := dayAt_dayOf month first last
  have v := valid_dayOf month first last
  obtain ⟨d, eq⟩ : ∃ d, d = dayOf (tm.tmYear + 1900) tm.tmMon.toNat tm.tmMday.toNat := ⟨_, rfl⟩
  obtain ⟨s, seconds⟩ : ∃ s, s = tm.tmHour * 3600 + tm.tmMin * 60 + tm.tmSec := ⟨_, rfl⟩
  rw [← eq] at day v
  have fields : tmOf d s = { tm with tmWday := d.weekday, tmYday := d.yearDay, tmIsdst := -1 } := by
    simp only [eq, tmOf, dayOf]
    congr 1 <;> omega
  have value : mktime tm = d.number * 86400 + s := by
    rw [← mktime_eq v (by rw [eq]; simp only [dayOf]; omega) (by rw [eq]; simp only [dayOf]; omega) (by omega) (by omega),
      fields]
    rfl
  have covered : Covered (mktime tm) := by
    rw [value]
    exact covered_of_year v (by rw [eq]; simp only [dayOf]; omega) (by rw [eq]; simp only [dayOf]; omega) (by omega)
      (by omega)
  refine ⟨d.number, tmOf d s, ?_, ?_, fields⟩
  · rw [gmtime_eq covered, value, show (d.number * 86400 + s) / 86400 = d.number by omega,
      show (d.number * 86400 + s) % 86400 = s by omega, day]
  · rw [day]
    exact ⟨by simp only [tmOf]; omega, rfl, rfl, rfl, rfl⟩

/-- Where `gmtime` returns a structure its fields are in their ranges and are those of the second `t` of the calendar,
    and `mktime` returns `t`; and a structure in the ranges comes back from `gmtime`, with the weekday and the day of
    the year of its date. -/
theorem calendar_bijective :
    (∀ t tm, gmtime t = some tm → mktime tm = t ∧ Normal tm ∧ Dated tm (dayAt (t / 86400)) ∧
      tm.tmHour * 3600 + tm.tmMin * 60 + tm.tmSec = t % 86400) ∧
    ∀ tm, Normal tm → ∃ n tm', gmtime (mktime tm) = some tm' ∧ Dated tm' (dayAt n) ∧
      tm' = { tm with tmWday := tm'.tmWday, tmYday := tm'.tmYday, tmIsdst := -1 } ∧
      (Dated tm (dayAt n) → tm.tmIsdst = -1 → tm' = tm) := by
  constructor
  · intro t tm run
    have covered := gmtime_some run
    have fields := gmtime_eq covered
    rw [run] at fields
    obtain rfl := some.inj fields
    obtain ⟨low, high⟩ := year_of_covered covered
    refine ⟨?_, normal_tmOf covered, ⟨?_, rfl, rfl, rfl, rfl⟩, ?_⟩
    · rw [mktime_eq (valid_dayAt _) low high (by omega) (by omega), number_dayAt]
      omega
    · exact sub_add_cancel ..
    · simp only [tmOf]
      omega
  · intro tm normal
    obtain ⟨n, tm', run, dated, fields⟩ := gmtime_mktime normal
    refine ⟨n, tm', run, dated, fields, ?_⟩
    intro same isdst
    rw [fields, dated.2.2.2.1, dated.2.2.2.2, ← same.2.2.2.1, ← same.2.2.2.2, ← isdst]

/-- The last second of 1969. -/
theorem calendar_bijective_1969 : mktime (tmOf (dayAt (-1)) 86399) = -1 := by
  have covered : Covered (-1) := ⟨by decide, by decide⟩
  have fields : gmtime (-1) = some (tmOf (dayAt (-1)) 86399) := gmtime_eq covered
  exact (calendar_bijective.1 (-1) _ fields).1

end LibcTime
