import Mathlib.Algebra.Order.Group.Unbundled.Int

/- The Gregorian calendar, day by day: the day after a day, and the day before it, are read off the lengths of the
   months. Days are numbered from 1 January 1970, a Thursday; months are counted from 0 and weekdays from Sunday. -/
namespace Calendar

abbrev Leap (year : Int) : Prop := year % 4 = 0 ∧ (year % 100 ≠ 0 ∨ year % 400 = 0)

def monthLength (year : Int) : Nat → Nat
  | 1 => if Leap year then 29 else 28
  | 3 | 5 | 8 | 10 => 30
  | _ => 31

def daysBefore (year : Int) : Nat → Nat
  | 0 => 0
  | month + 1 => daysBefore year month + monthLength year month

def yearLength (year : Int) : Nat := daysBefore year 12

structure Day where
  year : Int
  month : Nat
  day : Nat
  weekday : Nat
  yearDay : Nat
  deriving DecidableEq

def epoch : Day := { year := 1970, month := 0, day := 1, weekday := 4, yearDay := 0 }

def Day.next (d : Day) : Day :=
  if d.day < monthLength d.year d.month then
    { d with day := d.day + 1, weekday := (d.weekday + 1) % 7, yearDay := d.yearDay + 1 }
  else if d.month < 11 then
    { d with month := d.month + 1, day := 1, weekday := (d.weekday + 1) % 7, yearDay := d.yearDay + 1 }
  else { year := d.year + 1, month := 0, day := 1, weekday := (d.weekday + 1) % 7, yearDay := 0 }

def Day.prev (d : Day) : Day :=
  if 1 < d.day then { d with day := d.day - 1, weekday := (d.weekday + 6) % 7, yearDay := d.yearDay - 1 }
  else if 0 < d.month then
    { d with month := d.month - 1, day := monthLength d.year (d.month - 1), weekday := (d.weekday + 6) % 7
             yearDay := d.yearDay - 1 }
  else { year := d.year - 1, month := 11, day := 31, weekday := (d.weekday + 6) % 7
         yearDay := yearLength (d.year - 1) - 1 }

def dayAt : Int → Day
  | .ofNat n => Day.next^[n] epoch
  | .negSucc n => Day.prev^[n + 1] epoch

structure Valid (d : Day) : Prop where
  month : d.month < 12
  first : 1 ≤ d.day
  last : d.day ≤ monthLength d.year d.month
  weekday : d.weekday < 7
  yearDay : d.yearDay = daysBefore d.year d.month + (d.day - 1)

def yearStart (year : Int) : Int := 365 * (year - 1970) + (year - 1) / 4 - (year - 1) / 100 + (year - 1) / 400 - 477

def Day.number (d : Day) : Int := yearStart d.year + d.yearDay

theorem monthLength_pos (year : Int) (month : Nat) : 28 ≤ monthLength year month := by
  unfold monthLength
  split <;> (try split) <;> omega

theorem yearLength_eq (year : Int) : yearLength year = if Leap year then 366 else 365 := by
  simp only [yearLength, daysBefore, monthLength]
  split <;> rfl

theorem yearStart_succ (year : Int) : yearStart (year + 1) = yearStart year + yearLength year := by
  rw [yearLength_eq]
  simp only [yearStart]
  split <;> omega

theorem daysBefore_mono (year : Int) (lt : a < b) :
    daysBefore year a + monthLength year a ≤ daysBefore year b := by
  induction b with
  | zero => omega
  | succ b ih =>
    simp only [daysBefore]
    by_cases same : a = b
    · subst same
      exact le_refl _
    · have before := ih (by omega)
      omega

variable {d : Day}

theorem Valid.yearDay_lt (v : Valid d) : d.yearDay < yearLength d.year := by
  have bound : daysBefore d.year d.month + monthLength d.year d.month ≤ yearLength d.year := daysBefore_mono _ v.month
  have day := v.yearDay
  have first := v.first
  have last := v.last
  omega

theorem valid_epoch : Valid epoch := by
  constructor <;> decide

theorem valid_next (v : Valid d) : Valid d.next := by
  have month := v.month
  have first := v.first
  have yearDay := v.yearDay
  have weekday : (d.weekday + 1) % 7 < 7 := Nat.mod_lt _ (by decide)
  unfold Day.next
  split
  · exact ⟨month, by simp, by assumption, weekday, by simp only; omega⟩
  · rename_i full
    have last : d.day = monthLength d.year d.month := le_antisymm v.last (by omega)
    split
    · refine ⟨by simp only; omega, le_refl 1, ?_, weekday, ?_⟩
      · have pos := monthLength_pos d.year (d.month + 1)
        simp only
        omega
      · simp only [daysBefore]
        omega
    · exact ⟨by simp, le_refl 1, by simp [monthLength], weekday, rfl⟩

theorem number_next (v : Valid d) : d.next.number = d.number + 1 := by
  have yearDay := v.yearDay
  unfold Day.next Day.number
  split
  · simp only
    omega
  · rename_i full
    have last : d.day = monthLength d.year d.month := le_antisymm v.last (by omega)
    split
    · simp only
      omega
    · rename_i december
      have month : d.month = 11 := by
        have lt := v.month
        omega
      have first := v.first
      have length : yearLength d.year = daysBefore d.year 11 + monthLength d.year 11 := rfl
      simp only [yearStart_succ]
      rw [month] at yearDay last
      omega

theorem weekday_next (d : Day) : d.next.weekday = (d.weekday + 1) % 7 := by
  unfold Day.next
  split
  · rfl
  · split <;> rfl

theorem valid_prev (v : Valid d) : Valid d.prev := by
  have month := v.month
  have first := v.first
  have last := v.last
  have yearDay := v.yearDay
  have weekday : (d.weekday + 6) % 7 < 7 := Nat.mod_lt _ (by decide)
  unfold Day.prev
  split
  · exact ⟨month, by simp only; omega, by simp only; omega, weekday, by simp only; omega⟩
  · split
    · have pos := monthLength_pos d.year (d.month - 1)
      refine ⟨by simp only; omega, by simp only; omega, le_refl _, weekday, ?_⟩
      have before : daysBefore d.year d.month = daysBefore d.year (d.month - 1) + monthLength d.year (d.month - 1) := by
        have same : d.month = d.month - 1 + 1 := by omega
        conv_lhs => rw [same, daysBefore]
      simp only
      omega
    · refine ⟨by simp, by simp, by simp [monthLength], weekday, ?_⟩
      simp only [yearLength, daysBefore, monthLength]
      omega

theorem next_prev (v : Valid d) : d.prev.next = d := by
  have first := v.first
  have last := v.last
  have yearDay := v.yearDay
  have weekday : ((d.weekday + 6) % 7 + 1) % 7 = d.weekday := by
    have lt := v.weekday
    omega
  have back : ∀ {n : Nat}, 0 < n → n - 1 + 1 = n := by omega
  unfold Day.prev
  split
  · rename_i later
    have early : d.day - 1 < monthLength d.year d.month := by omega
    have dated : 0 < d.yearDay := by omega
    simp only [Day.next, early, if_true, weekday, back first, back dated]
  · rename_i early
    have day : d.day = 1 := by omega
    split
    · rename_i later
      have month := v.month
      have lt : d.month - 1 < 11 := by omega
      have dated : 0 < d.yearDay := by
        have before := daysBefore_mono d.year later
        rw [daysBefore] at before
        have january := monthLength_pos d.year 0
        omega
      simp only [Day.next, if_neg (lt_irrefl _), if_pos lt, weekday, back later, back dated]
      exact congrArg (fun day => { d with day := day }) day.symm
    · rename_i first
      have month : d.month = 0 := by omega
      have start : d.yearDay = 0 := by
        rw [yearDay, month, day]
        rfl
      simp only [Day.next, monthLength, if_neg (lt_irrefl _), weekday, sub_add_cancel]
      cases d
      simp_all

theorem dayAt_pred (n : Nat) : Valid (dayAt (-n)) ∧ dayAt (-n) = (dayAt (-(n + 1 : Nat))).next := by
  induction n with
  | zero => exact ⟨valid_epoch, (next_prev valid_epoch).symm⟩
  | succ n ih =>
    have here : ∀ k : Nat, dayAt (-(k + 1 : Nat)) = (dayAt (-(k : Nat))).prev := by
      intro k
      cases k with
      | zero => rfl
      | succ k => exact Function.iterate_succ_apply' Day.prev (k + 1) epoch
    have valid : Valid (dayAt (-(n + 1 : Nat))) := by
      rw [here]
      exact valid_prev ih.1
    refine ⟨valid, ?_⟩
    rw [here (n + 1), next_prev valid]

theorem dayAt_succ (n : Int) : dayAt (n + 1) = (dayAt n).next := by
  rcases Int.eq_nat_or_neg n with ⟨k, rfl | rfl⟩
  · exact Function.iterate_succ_apply' Day.next k epoch
  · cases k with
    | zero => rfl
    | succ k =>
      have step := (dayAt_pred k).2
      rw [← step]
      congr 1
      omega

theorem valid_dayAt (n : Int) : Valid (dayAt n) := by
  induction n using Int.induction_on with
  | zero => exact valid_epoch
  | succ k ih =>
    rw [dayAt_succ]
    exact valid_next ih
  | pred k ih =>
    have here := (dayAt_pred (k + 1)).1
    rwa [show (-(k : Int) - 1) = -(k + 1 : Nat) by omega]

theorem number_dayAt (n : Int) : (dayAt n).number = n := by
  induction n using Int.induction_on with
  | zero => decide
  | succ k ih => rw [dayAt_succ, number_next (valid_dayAt _), ih]
  | pred k ih =>
    have step : dayAt (-k) = (dayAt (-(k : Int) - 1)).next := by
      rw [← dayAt_succ]
      congr 1
      omega
    rw [step, number_next (valid_dayAt _)] at ih
    omega

theorem weekday_dayAt (n : Int) : ((dayAt n).weekday : Int) = (n + 4) % 7 := by
  induction n using Int.induction_on with
  | zero => decide
  | succ k ih =>
    rw [dayAt_succ, weekday_next]
    omega
  | pred k ih =>
    have step : dayAt (-k) = (dayAt (-(k : Int) - 1)).next := by
      rw [← dayAt_succ]
      congr 1
      omega
    have lt := (valid_dayAt (-(k : Int) - 1)).weekday
    rw [step, weekday_next] at ih
    omega

theorem yearStart_mono (lt : a < b) : yearStart a + yearLength a ≤ yearStart b := by
  obtain ⟨n, rfl⟩ : ∃ n : Nat, b = a + 1 + n := ⟨(b - (a + 1)).toNat, by omega⟩
  induction n with
  | zero =>
    rw [← yearStart_succ]
    simp
  | succ n ih =>
    have step := yearStart_succ (a + 1 + n)
    have here := ih (by omega)
    rw [show a + 1 + ((n + 1 : Nat) : Int) = a + 1 + n + 1 by omega]
    omega

theorem eq_of_number (vd : Valid d) (ve : Valid e) (number : d.number = e.number)
    (weekday : d.weekday = e.weekday) : d = e := by
  have dlt := vd.yearDay_lt
  have elt := ve.yearDay_lt
  simp only [Day.number] at number
  have year : d.year = e.year := by
    rcases lt_trichotomy d.year e.year with lt | eq | gt
    · have gap := yearStart_mono lt
      omega
    · exact eq
    · have gap := yearStart_mono gt
      omega
  have yearDay : d.yearDay = e.yearDay := by
    rw [year] at number
    omega
  have dday := vd.yearDay
  have eday := ve.yearDay
  have dlast := vd.last
  have elast := ve.last
  have dfirst := vd.first
  have efirst := ve.first
  rw [year] at dday dlast
  have month : d.month = e.month := by
    rcases lt_trichotomy d.month e.month with lt | eq | gt
    · have gap := daysBefore_mono e.year lt
      omega
    · exact eq
    · have gap := daysBefore_mono e.year gt
      omega
  have day : d.day = e.day := by
    rw [month] at dday
    omega
  cases d
  cases e
  simp_all

theorem dayAt_eq (v : Valid d) (number : d.number = n) (weekday : (d.weekday : Int) = (n + 4) % 7) :
    dayAt n = d := by
  apply eq_of_number (valid_dayAt n) v
  · rw [number_dayAt, number]
  · have here := weekday_dayAt n
    omega

def dayOf (year : Int) (month day : Nat) : Day :=
  { year := year, month := month, day := day, yearDay := daysBefore year month + (day - 1)
    weekday := ((yearStart year + (daysBefore year month + (day - 1) : Nat) + 4) % 7).toNat }

theorem valid_dayOf (lt : month < 12) (first : 1 ≤ day)
    (last : day ≤ monthLength year month) : Valid (dayOf year month day) := by
  refine ⟨lt, first, last, ?_, rfl⟩
  simp only [dayOf]
  omega

theorem dayAt_dayOf (lt : month < 12) (first : 1 ≤ day)
    (last : day ≤ monthLength year month) : dayAt (dayOf year month day).number = dayOf year month day := by
  apply dayAt_eq (valid_dayOf lt first last) rfl
  simp only [Day.number, dayOf]
  omega

end Calendar
