import Newsys.Libc.FormatEnd
import Newsys.Libc.Time

/- Times as text (`strftime` of lib/time.c). A run ends in an error where `PUTC` returns 0, and in a crash where a table
   is read outside it or the format behind its end. -/
namespace LibcTime
open Bytes Kern Cmds Cmd Libc List

def libcFullWday : List String := ["Sunday", "Monday", "Tuesday", "Wednesday", "Thursday", "Friday", "Saturday"]

def libcFullMonth : List String :=
  ["January", "February", "March", "April", "May", "June", "July", "August", "September", "October", "November",
    "December"]

def libcWday : List String := ["Sun", "Mon", "Tue", "Wed", "Thu", "Fri", "Sat"]

def libcMonth : List String := ["Jan", "Feb", "Mar", "Apr", "May", "Jun", "Jul", "Aug", "Sep", "Oct", "Nov", "Dec"]

def putd (n : Int) : Byte := BitVec.ofInt 8 (int ((chr '0').toNat + n))

def putdnz (n : Int) : Byte := if n = 0 then chr ' ' else putd n

def puts (s : String) : List Byte := s.toList.map chr

def name (table : List String) (n : Int) : Option (List Byte) :=
  if n < 0 then none else table[n.toNat]?.map puts

def two (n : Int) : List Byte := [putd (n.tdiv 10), putd (n.tmod 10)]

def Tm.year (tm : Tm) : Int := int (tm.tmYear + 1900)

def Tm.mon (tm : Tm) : Int := int (tm.tmMon + 1)

def Tm.h12 (tm : Tm) : Int := int ((int (tm.tmHour + 11)).tmod 12 + 1)

def Tm.century (tm : Tm) : List Byte := [putd ((tm.year.tdiv 1000).tmod 10), putd ((tm.year.tdiv 100).tmod 10)]

def Tm.shortYear (tm : Tm) : List Byte := [putd ((tm.year.tdiv 10).tmod 10), putd (tm.year.tmod 10)]

def Tm.localeDate (tm : Tm) : List Byte :=
  tm.century ++ tm.shortYear ++ [chr '-'] ++ two tm.mon ++ [chr '-'] ++ two tm.tmMday

def Tm.localeTime (tm : Tm) : List Byte := two tm.tmHour ++ [chr ':'] ++ two tm.tmMin ++ [chr ':'] ++ two tm.tmSec

def Tm.seconds (m : Machine) (tm : Tm) : List Byte := (vfprintf collect m [] (puts "%ji") [.num (mktime tm)] []).2

def Tm.text (m : Machine) (tm : Tm) (c : Byte) : Option (List Byte) :=
  if c = chr '%' then some [chr '%']
  else if c = chr 'A' then name libcFullWday tm.tmWday
  else if c = chr 'a' then name libcWday tm.tmWday
  else if c = chr 'B' then name libcFullMonth tm.tmMon
  else if c = chr 'b' ∨ c = chr 'h' then name libcMonth tm.tmMon
  else if c = chr 'c' then some (tm.localeDate ++ [chr ' '] ++ tm.localeTime)
  else if c = chr 'C' then some tm.century
  else if c = chr 'd' then some (two tm.tmMday)
  else if c = chr 'D' then some (two tm.mon ++ [chr '/'] ++ two tm.tmMday ++ [chr '/'] ++ tm.shortYear)
  else if c = chr 'e' then some [putdnz (tm.tmMday.tdiv 10), putd (tm.tmMday.tmod 10)]
  else if c = chr 'F' then some tm.localeDate
  else if c = chr 'G' then some (tm.century ++ tm.shortYear)
  else if c = chr 'g' then some tm.shortYear
  else if c = chr 'H' then some (two tm.tmHour)
  else if c = chr 'I' then some (two tm.h12)
  else if c = chr 'j' then
    let day := int (tm.tmYday + 1)
    some [putd (day.tdiv 100), putd ((day.tdiv 10).tmod 10), putd (day.tmod 10)]
  else if c = chr 'k' then some [putdnz (tm.tmHour.tdiv 10), putd (tm.tmHour.tmod 10)]
  else if c = chr 'l' then some [putdnz (tm.h12.tdiv 10), putd (tm.h12.tmod 10)]
  else if c = chr 'm' then some (two tm.mon)
  else if c = chr 'M' then some (two tm.tmMin)
  else if c = chr 'n' then some [chr '\n']
  else if c = chr 'p' then some (puts (if tm.tmHour < 12 then "AM" else "PM"))
  else if c = chr 'P' then some (puts (if tm.tmHour < 12 then "am" else "pm"))
  else if c = chr 'r' then
    some (two tm.h12 ++ [chr ':'] ++ two tm.tmMin ++ [chr ':'] ++ two tm.tmSec ++ [chr ' '] ++
      puts (if tm.tmHour < 12 then "AM" else "PM"))
  else if c = chr 'R' then some (two tm.tmHour ++ [chr ':'] ++ two tm.tmMin)
  else if c = chr 's' then some (tm.seconds m)
  else if c = chr 'S' then some (two tm.tmSec)
  else if c = chr 't' then some [chr '\t']
  else if c = chr 'T' then some tm.localeTime
  else if c = chr 'u' then some [BitVec.ofInt 8 (int ((chr '1').toNat + (int (tm.tmWday + 6)).tmod 7))]
  else if c = chr 'U' ∨ c = chr 'V' ∨ c = chr 'W' then some (puts "??")
  else if c = chr 'w' then some [putd tm.tmWday]
  else if c = chr 'x' then some tm.localeDate
  else if c = chr 'X' then some tm.localeTime
  else if c = chr 'y' then some tm.shortYear
  else if c = chr 'Y' then some (tm.century ++ tm.shortYear)
  else if c = chr 'z' then some (puts "+00")
  else if c = chr 'Z' then some (puts "GMT")
  else some [c]

structure Out where
  cnt : Nat
  stored : List Byte

/-- `PUTC`; the count does not get beyond `max`. -/
def putc (max : Nat) (c : Byte) : PutM Out Unit := fun f =>
  if f.cnt + 1 < max then (.ok (), ⟨f.cnt + 1, f.stored ++ [c]⟩) else (.err (), ⟨f.cnt + 1, f.stored⟩)

def isAlt (c : Byte) : Bool := c = chr 'O' ∨ c = chr 'E'

def strftimeLoop (m : Machine) (tm : Tm) (max : Nat) (fmt : List Byte) : PutM Out Unit :=
  match fmt with
  | [] => pure ()
  | c :: cs =>
    if c ≠ chr '%' then do
      putc max c
      strftimeLoop m tm max cs
    else
      match _h : cs.dropWhile isAlt with
      | [] => do
        putc max 0
        crash
      | conv :: rest =>
        match tm.text m conv with
        | none => crash
        | some text => do
          forEach text (putc max)
          strftimeLoop m tm max rest
termination_by fmt.length
decreasing_by
  · simp
  · have le := (dropWhile_sublist isAlt (l := cs)).length_le
    rw [_h] at le
    simp only [length_cons] at le ⊢
    omega

def strftime (m : Machine) (max : Nat) (fmt : List Byte) (tm : Tm) : Res Unit Nat × List Byte :=
  match strftimeLoop m tm max fmt ⟨0, []⟩ with
  | (.ok (), f) => (.ok (if f.cnt < max then f.cnt else 0), f.stored ++ [0])
  | (.err (), f) => (.ok 0, f.stored)
  | (.crash, f) => (.crash, f.stored)

/-- The tables of names have an entry for the day of the week and for the month. -/
structure Tm.Named (tm : Tm) : Prop where
  wday : 0 ≤ tm.tmWday ∧ tm.tmWday < 7
  mon : 0 ≤ tm.tmMon ∧ tm.tmMon < 12

inductive Finished : List Byte → Prop
  | nil : Finished []
  | char {c : Byte} {cs : List Byte} (plain : c ≠ chr '%') (rest : Finished cs) : Finished (c :: cs)
  | conv {cs cs' : List Byte} {c : Byte} (letter : cs.dropWhile isAlt = c :: cs') (rest : Finished cs') :
      Finished (chr '%' :: cs)

/-- The text that the format asks for. One that ends inside a conversion asks for a NUL there. -/
def expansion (m : Machine) (tm : Tm) (fmt : List Byte) : List Byte :=
  match fmt with
  | [] => []
  | c :: cs =>
    if c ≠ chr '%' then c :: expansion m tm cs
    else
      match _h : cs.dropWhile isAlt with
      | [] => [0]
      | conv :: rest => (tm.text m conv).getD [] ++ expansion m tm rest
termination_by fmt.length
decreasing_by
  · simp
  · have le := (dropWhile_sublist isAlt (l := cs)).length_le
    rw [_h] at le
    simp only [length_cons] at le ⊢
    omega

section Loop
variable {m : Machine} {tm : Tm} {max : Nat} {fmt : List Byte}

def Put (o : Option (List Byte)) : Prop := ∃ text, o = some text ∧ text ≠ []

theorem put_some (c : Byte) (text : List Byte) : Put (some (c :: text)) := ⟨_, rfl, cons_ne_nil _ _⟩

theorem put_ite {p : Prop} {_ : Decidable p} {a b : Option (List Byte)} (yes : Put a) (no : Put b) :
    Put (if p then a else b) := by
  split
  · exact yes
  · exact no

theorem name_some (names : ∀ s ∈ table, s.toList ≠ []) (low : 0 ≤ n)
    (high : n < table.length) : Put (name table n) := by
  have lt : n.toNat < table.length := by omega
  refine ⟨puts table[n.toNat], ?_, ?_⟩
  · rw [name, if_neg (by omega), getElem?_eq_getElem lt]
    rfl
  · exact fun eq => names _ (getElem_mem lt) (map_eq_nil_iff.mp eq)

theorem textOf_ne {fmt : Format} (plain : fmt.precision < 0) (v : Nat) (neg : Bool) : textOf fmt v neg ≠ [] := by
  intro none
  have prec : (if fmt.precision ≥ 0 then fmt.precision.toNat else 1) = 1 := if_neg (by omega)
  have digits := padded_length fmt.base 1 v
  have length := congrArg length none
  rw [textOf, prec] at length
  split_ifs at length <;> simp only [length_append, length_nil] at length <;> omega

theorem seconds_ne (m : Machine) (tm : Tm) : tm.seconds m ≠ [] := by
  have parse : parseFormat (puts "ji") = ({ plainFormat with size := sizeMax }, [Conv.i.char]) := by decide +kernel
  obtain ⟨fmt, eq⟩ : ∃ fmt : Format,
      fmt = { plainFormat with size := sizeMax, base := Conv.i.base, signedval := Conv.i.isSigned } := ⟨_, rfl⟩
  have wide : argBits m fmt.size = some 64 := by
    rw [eq]
    rfl
  have print := convertNum_eq total_collect m wide (.inr rfl)
    (by rw [eq]; decide) (by rw [eq]; decide) (mktime tm)
  have text : tm.seconds m =
      textOf fmt (asValue fmt.signedval 64 (mktime tm)).natAbs (asValue fmt.signedval 64 (mktime tm) < 0) := by
    rw [Tm.seconds, show puts "%ji" = chr '%' :: puts "ji" from rfl, vfprintf_conv collect m _ _ (by decide) parse,
      convert_conv, ← eq, print, bind_assoc]
    have last : vfprintf collect m [] [] [] = pure () := by rw [vfprintf]
    simp only [pure_bind]
    rw [last, bind_pure_unit, emit_collect]
    rfl
  rw [text]
  exact textOf_ne (by rw [eq]; decide) _ _

theorem text_some (named : tm.Named) (m : Machine) (c : Byte) : Put (tm.text m c) := by
  obtain ⟨⟨wday, wday'⟩, mon, mon'⟩ := named
  have seconds : Put (some (tm.seconds m)) := ⟨_, rfl, seconds_ne m tm⟩
  have fullWday : Put (name libcFullWday tm.tmWday) := name_some (by decide) wday wday'
  have shortWday : Put (name libcWday tm.tmWday) := name_some (by decide) wday wday'
  have fullMonth : Put (name libcFullMonth tm.tmMon) := name_some (by decide) mon mon'
  have shortMonth : Put (name libcMonth tm.tmMon) := name_some (by decide) mon mon'
  have half : ∀ a b, Put (some (puts a)) → Put (some (puts b)) →
      Put (some (puts (if tm.tmHour < 12 then a else b))) := by
    intro a b yes no
    split
    · exact yes
    · exact no
  unfold Tm.text
  repeat' first | assumption | apply put_ite
  all_goals first
    | exact put_some _ _
    | apply half <;> exact put_some _ _

theorem loop_conv (m : Machine) (max : Nat)
    (letter : cs.dropWhile isAlt = c :: rest) (puts : tm.text m c = some text) : strftimeLoop m tm max (chr '%' :: cs) =
      emit (putc max) text >>= fun _ => strftimeLoop m tm max rest := by
  rw [strftimeLoop, if_neg (by simp)]
  split
  · rename_i eq
    rw [letter] at eq
    cases eq
  · rename_i eq
    rw [letter] at eq
    cases eq
    rw [puts]
    rfl

theorem loop_ends (m : Machine) (max : Nat) (nothing : cs.dropWhile isAlt = []) :
    strftimeLoop m tm max (chr '%' :: cs) = putc max 0 >>= fun _ => crash := by
  rw [strftimeLoop, if_neg (by simp)]
  split
  · rfl
  · rename_i eq
    rw [nothing] at eq
    cases eq

theorem loop_eq (named : tm.Named) (m : Machine) (max : Nat) (fmt : List Byte) :
    (Finished fmt → strftimeLoop m tm max fmt = emit (putc max) (expansion m tm fmt)) ∧
      (¬ Finished fmt → strftimeLoop m tm max fmt = emit (putc max) (expansion m tm fmt) >>= fun _ => crash) := by
  fun_induction expansion m tm fmt with
  | case1 =>
    refine ⟨fun _ => ?_, fun not => absurd .nil not⟩
    rw [strftimeLoop]
    rfl
  | case2 c cs plain ih =>
    rw [strftimeLoop, if_pos plain]
    refine ⟨fun finished => ?_, fun not => ?_⟩
    · cases finished with
      | char _ rest =>
        rw [ih.1 rest]
        rfl
      | conv => exact absurd rfl plain
    · rw [ih.2 fun rest => not (.char plain rest)]
      change _ = (putc max c >>= fun _ => _) >>= _
      rw [bind_assoc]
      rfl
  | case3 c cs sign ends =>
    obtain rfl : c = chr '%' := not_not.mp sign
    refine ⟨fun finished => ?_, fun _ => ?_⟩
    · cases finished with
      | char plain => exact absurd rfl plain
      | conv letter =>
        rw [ends] at letter
        cases letter
    · rw [loop_ends m max ends]
      change _ = (putc max 0 >>= fun _ => pure ()) >>= _
      rw [bind_pure_unit]
  | case4 c cs sign conv rest more ih =>
    obtain rfl : c = chr '%' := not_not.mp sign
    obtain ⟨text, puts, -⟩ := text_some named m conv
    rw [loop_conv m max more puts, puts, Option.getD_some, emit_append]
    refine ⟨fun finished => ?_, fun not => ?_⟩
    · cases finished with
      | char plain => exact absurd rfl plain
      | conv letter rest =>
        rw [more] at letter
        cases letter
        rw [ih.1 rest]
    · rw [ih.2 fun rest => not (.conv more rest), bind_assoc]

theorem emit_fits (max : Nat) (bs : List Byte) : ∀ {f : Out}, f.cnt + bs.length < max →
    emit (putc max) bs f = (.ok (), ⟨f.cnt + bs.length, f.stored ++ bs⟩) := by
  induction bs with
  | nil =>
    intro f _
    rw [append_nil]
    rfl
  | cons c bs ih =>
    intro f fits
    rw [length_cons] at fits
    have step : putc max c f = (.ok (), ⟨f.cnt + 1, f.stored ++ [c]⟩) := if_pos (by omega)
    change Cmd.bind (putc max c) (fun _ => emit (putc max) bs) f = _
    unfold Cmd.bind
    rw [step]
    change emit (putc max) bs _ = _
    rw [ih (by dsimp only; omega), append_assoc, length_cons, add_assoc, add_comm 1]
    rfl

theorem emit_over (max : Nat) (bs : List Byte) : ∀ {f : Out}, bs ≠ [] → max ≤ f.cnt + bs.length →
    ∃ n, emit (putc max) bs f = (.err (), ⟨n, f.stored ++ bs.take (max - 1 - f.cnt)⟩) := by
  induction bs with
  | nil => exact fun none => absurd rfl none
  | cons c bs ih =>
    intro f _ beyond
    rw [length_cons] at beyond
    change ∃ n, Cmd.bind (putc max c) (fun _ => emit (putc max) bs) f = _
    unfold Cmd.bind
    by_cases fits : f.cnt + 1 < max
    · have step : putc max c f = (.ok (), ⟨f.cnt + 1, f.stored ++ [c]⟩) := if_pos fits
      have more : bs ≠ [] := by
        rintro rfl
        rw [length_nil] at beyond
        omega
      obtain ⟨n, rest⟩ := ih (f := ⟨f.cnt + 1, f.stored ++ [c]⟩) more (by dsimp only; omega)
      refine ⟨n, ?_⟩
      rw [step]
      change emit (putc max) bs _ = _
      rw [rest, show max - 1 - f.cnt = max - 1 - (f.cnt + 1) + 1 by omega, take_succ_cons, append_assoc]
      rfl
    · have step : putc max c f = (.err (), ⟨f.cnt + 1, f.stored⟩) := if_neg fits
      refine ⟨f.cnt + 1, ?_⟩
      rw [step, show max - 1 - f.cnt = 0 by omega, take_zero, append_nil]

/-- What `strftime` has to do: it reads nothing behind the NUL of the format, stores `max` bytes at most, and stores a
    NUL behind the text exactly when it returns the length of that, which is below `max`. -/
structure Inside (m : Machine) (max : Nat) (fmt : List Byte) (tm : Tm) : Prop where
  reads : (strftime m max fmt tm).1 ≠ .crash
  writes : (strftime m max fmt tm).2.length ≤ max
  ends : (strftime m max fmt tm).2 = expansion m tm fmt ++ [0] ↔
    (strftime m max fmt tm).1 = .ok (expansion m tm fmt).length ∧ (expansion m tm fmt).length < max

section
variable (named : tm.Named)
include named

theorem expansion_eq_nil (m : Machine) (fmt : List Byte) : expansion m tm fmt = [] ↔ fmt = [] := by
  cases fmt with
  | nil => exact iff_of_true (by rw [expansion]) rfl
  | cons c cs =>
    refine iff_of_false (fun none => ?_) (cons_ne_nil c cs)
    rw [expansion] at none
    split at none
    · cases none
    · split at none
      · cases none
      · rename_i conv rest _
        obtain ⟨text, puts, more⟩ := text_some named m conv
        rw [puts, Option.getD_some, append_eq_nil_iff] at none
        exact more none.1

theorem strftime_fits (finished : Finished fmt) (fits : (expansion m tm fmt).length < max) :
    strftime m max fmt tm = (.ok (expansion m tm fmt).length, expansion m tm fmt ++ [0]) := by
  have run := emit_fits max (expansion m tm fmt) (f := ⟨0, []⟩) (by dsimp only; omega)
  rw [zero_add, nil_append] at run
  rw [strftime, (loop_eq named m max fmt).1 finished, run]
  exact Prod.ext (congrArg Res.ok (if_pos fits)) rfl

theorem strftime_behind (unfinished : ¬ Finished fmt) (fits : (expansion m tm fmt).length < max) :
    (strftime m max fmt tm).1 = .crash := by
  have run := emit_fits max (expansion m tm fmt) (f := ⟨0, []⟩) (by dsimp only; omega)
  have loop : strftimeLoop m tm max fmt ⟨0, []⟩ =
      (.crash, ⟨0 + (expansion m tm fmt).length, [] ++ expansion m tm fmt⟩) := by
    rw [(loop_eq named m max fmt).2 unfinished]
    change Cmd.bind _ _ _ = _
    unfold Cmd.bind
    rw [run]
    rfl
  rw [strftime, loop]

theorem strftime_over (some : fmt ≠ []) (beyond : max ≤ (expansion m tm fmt).length) :
    strftime m max fmt tm = (.ok 0, (expansion m tm fmt).take (max - 1)) := by
  obtain ⟨n, run⟩ := emit_over max (expansion m tm fmt) (f := ⟨0, []⟩)
    (mt (expansion_eq_nil named m fmt).mp some) (by dsimp only; omega)
  have loop : strftimeLoop m tm max fmt ⟨0, []⟩ = (.err (), ⟨n, (expansion m tm fmt).take (max - 1)⟩) := by
    by_cases finished : Finished fmt
    · rw [(loop_eq named m max fmt).1 finished, run]
      rfl
    · rw [(loop_eq named m max fmt).2 finished]
      change Cmd.bind _ _ _ = _
      unfold Cmd.bind
      rw [run]
      rfl
  rw [strftime, loop]

theorem inside_iff (m : Machine) (max : Nat) (fmt : List Byte) :
    Inside m max fmt tm ↔ (Finished fmt ∨ max ≤ (expansion m tm fmt).length) ∧ (0 < max ∨ fmt ≠ []) := by
  by_cases fits : (expansion m tm fmt).length < max
  · by_cases finished : Finished fmt
    · refine iff_of_true ?_ ⟨.inl finished, .inl (by omega)⟩
      have run := strftime_fits named finished fits
      constructor <;> rw [run]
      · exact fun eq => by cases eq
      · rw [length_append, length_singleton]
        omega
      · exact iff_of_true rfl ⟨rfl, fits⟩
    · refine iff_of_false (fun inside => inside.reads (strftime_behind named finished fits)) ?_
      exact fun cond => cond.1.elim finished (by omega)
  by_cases some : fmt = []
  · subst some
    refine iff_of_false (fun inside => ?_) fun cond => cond.2.elim (fun pos => ?_) fun ne => ne rfl
    · have one := inside.writes
      have none : expansion m tm [] = [] := (expansion_eq_nil named m []).mpr rfl
      rw [none] at fits
      have stored : (strftime m max [] tm).2 = [0] := by
        rw [strftime, strftimeLoop]
        rfl
      rw [stored] at one
      simp only [length_singleton, length_nil] at one fits
      omega
    · rw [(expansion_eq_nil named m []).mpr rfl] at fits
      exact fits pos
  · refine iff_of_true ?_ ⟨.inr (by omega), .inr some⟩
    have run := strftime_over named some (not_lt.mp fits)
    constructor <;> rw [run]
    · exact fun eq => by cases eq
    · rw [length_take]
      omega
    · refine iff_of_false (fun eq => ?_) fun both => fits both.2
      have length := congrArg length eq
      rw [length_take, length_append, length_singleton] at length
      omega

end

end Loop

/-- Neither function reads behind the NUL of its format, and `strftime` stores no more than it may, if and only if
    neither format ends inside a conversion that is reached, and there is room for the NUL of an empty text. -/
theorem formats_inside_iff (m : Machine) (strerror format : List Byte) (ap : List Arg)
    (matching : Matching m strerror format ap) (max : Nat) (fmt : List Byte) (tm : Tm) (named : tm.Named) :
    ((∀ (σ : Type) (fputc : Byte → PutM σ Unit), Safe fputc → ∀ s, (vfprintf fputc m strerror format ap s).1 ≠ .crash) ↔
      Complete format) ∧
    (Inside m max fmt tm ↔ (Finished fmt ∨ max ≤ (expansion m tm fmt).length) ∧ (0 < max ∨ fmt ≠ [])) :=
  ⟨vfprintf_inside_iff matching, inside_iff named m max fmt⟩

def firstTm : Tm := ⟨0, 0, 0, 70, 0, 1, 4, 0, 0⟩

theorem formats_inside_iff_plain :
    ((∀ (σ : Type) (fputc : Byte → PutM σ Unit), Safe fputc →
      ∀ s, (vfprintf fputc .i386 [] (puts "a%d") [.num 5] s).1 ≠ .crash) ↔ Complete (puts "a%d")) ∧
    (Inside .i386 8 (puts "%H") firstTm ↔
      (Finished (puts "%H") ∨ 8 ≤ (expansion .i386 firstTm (puts "%H")).length) ∧ (0 < 8 ∨ puts "%H" ≠ [])) :=
  formats_inside_iff .i386 [] (puts "a%d") [.num 5]
    (.char (by decide) (@Matching.conv _ _ [chr 'd'] _ _ _ _ _ (by decide) (by rfl) (by rfl) .nil)) 8 (puts "%H") firstTm
    ⟨by decide, by decide⟩

/-- A format that is only a `%`, and an empty one with no room at all. -/
theorem formats_not_inside : (vfprintf collect .i386 [] [chr '%'] [] []).1 = .crash ∧
    ¬ Inside .i386 8 [chr '%'] firstTm ∧ ¬ Inside .i386 0 [] firstTm ∧ (strftime .i386 0 [] firstTm).2 = [0] := by
  have stored : (strftime .i386 0 [] firstTm).2 = [0] := by
    rw [strftime, strftimeLoop]
    rfl
  refine ⟨?_, fun inside => inside.reads ?_, fun inside => ?_, stored⟩
  · rw [vfprintf_ends collect _ _ _ (by decide) (by rfl)]
    rfl
  · rw [strftime, loop_ends _ _ (by rfl)]
    rfl
  · have one := inside.writes
    rw [stored] at one
    exact absurd one (by decide)

end LibcTime
