import Newsys.Libc.Vt100

/- The parameters of control sequences, from the escape character up to the command (vt100_putc of lib/vt100/vt100.c). -/
namespace Csi
open Bytes Cells Kern Vt100 List Option
open Libc (chr isdigit)

def digit (c : Byte) : Nat := c.toNat - (chr '0').toNat

def valueFrom (a : Nat) (text : List Byte) : Nat := text.foldl (fun a c => a * 10 + digit c) a

structure Param where
  text : List Byte
  digits : ∀ c ∈ text, isdigit c = true
  small : valueFrom 0 text < 1000

def Param.value (p : Param) : Int := valueFrom 0 p.text

def text (p : Param) (ps : List Param) : List Byte := p.text ++ ps.flatMap fun q => chr ';' :: q.text

/-- When the command runs, `argc` is the number of the parameters and `args` holds them in their order. -/
def Positional (m : Machine) (vt : Vt) (p : Param) (ps : List Param) : Prop :=
  ∃ vt', vt100Puts m vt (27 :: chr '[' :: text p ps) = some vt' ∧
    vt'.argc = (if text p ps = [] then 0 else ps.length + 1 : Nat) ∧
    vt'.args.take (ps.length + 1) = (p :: ps).map Param.value ∧
    ∀ c, isdigit c = false → c ≠ chr ';' →
      vt100Putc m vt' c = (dispatch csiCmd m vt' c).map fun vt => { vt with st := .character }

section Steps
variable {m : Machine} {vt : Vt} {n a : Nat} {c : Byte}

theorem puts_append (m : Machine) (vt : Vt) (s t : List Byte) :
    vt100Puts m vt (s ++ t) = (vt100Puts m vt s).bind fun vt => vt100Puts m vt t := by
  induction s generalizing vt with
  | nil => rfl
  | cons c s ih =>
    simp only [cons_append, vt100Puts, bind_eq_bind, ih]
    cases vt100Putc m vt c <;> rfl

theorem setArg_at (inside : n < vt.args.length) (v : Int) :
    setArg vt n v = some { vt with args := vt.args.set n v } := by
  unfold setArg store
  rw [if_pos ⟨Int.natCast_nonneg n, by omega⟩, Int.toNat_natCast, ← set_eq_modify]
  rfl

theorem arg_at (found : vt.args[n]? = some (a : Int)) : arg vt n = some (a : Int) := by
  unfold arg
  rw [if_pos (Int.natCast_nonneg n), Int.toNat_natCast, found]

theorem putc_collects (m : Machine) (c : Byte) (collects : vt.st = .csi) : vt100Putc m vt c = putcCsi m vt c := by
  unfold vt100Putc
  rw [collects]

theorem digit_step (collects : vt.st = .csi) (count : vt.argc = n + 1) (inside : n < 8) (eight : vt.args.length = 8)
    (found : vt.args[n]? = some (a : Int)) (small : a < 1000) (isDigit : isdigit c = true) :
    vt100Putc m vt c = some { vt with args := vt.args.set n ((a * 10 + digit c : Nat) : Int) } := by
  have last : vt.argc - 1 = n := by omega
  have le : vt.argc ≤ 8 := by omega
  have some : vt.argc ≠ 0 := by omega
  have less : (a : Int) < 1000 := by omega
  have read := arg_at found
  have stored := @setArg_at vt n (by omega)
  rw [putc_collects m c collects]
  simp [putcCsi, lastArg, isDigit, le, some, last, read, less, stored, digit]

theorem digits_run (vt : Vt) (collects : vt.st = .csi) (count : vt.argc = n + 1) (inside : n < 8) (eight : vt.args.length = 8)
    (found : vt.args[n]? = some (a : Int)) (digits : ∀ c ∈ ds, isdigit c = true)
    (small : valueFrom a ds < 1000) : vt100Puts m vt ds = some { vt with args := vt.args.set n (valueFrom a ds : Int) } := by
  induction ds generalizing vt a with
  | nil =>
    have same : vt.args.set n (a : Int) = vt.args := by
      apply ext_getElem?
      intro i
      rw [getElem?_set]
      split <;> simp_all
    simp [vt100Puts, valueFrom, same]
  | cons d ds ih =>
    have grows : ∀ (ds : List Byte) (a : Nat), a ≤ valueFrom a ds := by
      intro ds
      induction ds with
      | nil => exact fun a => le_refl a
      | cons d ds ih =>
        intro a
        have next := ih (a * 10 + digit d)
        unfold valueFrom at *
        rw [foldl_cons]
        omega
    rw [forall_mem_cons] at digits
    have below := grows (d :: ds) a
    have step := digit_step (m := m) collects count inside eight found (by omega) digits.1
    have rest := @ih (a * 10 + digit d) { vt with args := vt.args.set n ((a * 10 + digit d : Nat) : Int) } collects count
      (by simpa using eight) (by simp [eight, inside]) digits.2 small
    simp only [vt100Puts, step, bind_eq_bind, bind_some, rest]
    simp [valueFrom]

theorem semicolon_step (collects : vt.st = .csi) (count : vt.argc = n) (inside : n < 8) (eight : vt.args.length = 8) :
    vt100Putc m vt (chr ';') = some { vt with argc := n + 1, args := vt.args.set n 0 } := by
  have le : vt.argc ≤ 8 := by omega
  have stored := @setArg_at { vt with argc := n + 1 } n (show n < vt.args.length by omega) 0
  rw [putc_collects m _ collects]
  unfold putcCsi
  rw [if_neg (by decide), if_pos rfl, if_pos le, count]
  exact stored

theorem params_run (collects : vt.st = .csi) (count : vt.argc = n) (eight : vt.args.length = 8) {ps : List Param}
    (room : n + ps.length ≤ 8) :
    ∃ vt', vt100Puts m vt (ps.flatMap fun q => chr ';' :: q.text) = some vt' ∧ vt'.st = .csi ∧
      vt'.argc = (n + ps.length : Nat) ∧ vt'.args.take (n + ps.length) = vt.args.take n ++ ps.map Param.value := by
  induction ps generalizing vt n with
  | nil => exact ⟨vt, rfl, collects, by simpa using count, by simp⟩
  | cons q ps ih =>
    rw [length_cons] at room
    have begun := semicolon_step (m := m) collects count (by omega) eight
    have inside : n < vt.args.length := by omega
    have zero : (vt.args.set n 0)[n]? = some ((0 : Nat) : Int) := by simp [inside]
    have filled : vt100Puts m { vt with argc := n + 1, args := vt.args.set n 0 } q.text =
        some { vt with argc := n + 1, args := (vt.args.set n 0).set n q.value } :=
      digits_run { vt with argc := n + 1, args := vt.args.set n 0 } collects rfl (show n < 8 by omega) (by simpa using eight) zero q.digits q.small
    obtain ⟨vt', ran, collects', argc, args⟩ :=
      @ih { vt with argc := n + 1, args := (vt.args.set n 0).set n q.value } (n + 1) collects rfl (by simpa using eight)
        (by omega)
    refine ⟨vt', ?_, collects', by rw [argc, length_cons]; omega, ?_⟩
    · have next : vt100Puts m vt (chr ';' :: q.text) =
          some { vt with argc := n + 1, args := (vt.args.set n 0).set n q.value } := by
        rw [vt100Puts, begun]
        exact filled
      rw [flatMap_cons, puts_append, next]
      exact ran
    · have front : ((vt.args.set n 0).set n q.value).take (n + 1) = vt.args.take n ++ [q.value] := by
        rw [set_set, take_add_one, take_set_of_le (le_refl n)]
        simp [inside]
      rw [length_cons, ← add_assoc, add_right_comm, args, front]
      simp

theorem first_digit (collects : vt.st = .csi) (count : vt.argc = 0) (isDigit : isdigit c = true) :
    (vt.scrollTop < 1000 → vt.args.length = 8 → vt.args[0]? = some 0 →
      vt100Putc m vt c = some { vt with astray := true, argc := 1, args := vt.args.set 0 (digit c : Int) }) ∧
    (¬ vt.scrollTop < 1000 → vt100Putc m vt c = some { vt with astray := true }) := by
  rw [putc_collects m _ collects]
  unfold putcCsi lastArg
  rw [if_pos isDigit, if_pos (by omega), if_pos count]
  constructor
  · intro low eight zero
    have read : arg { vt with astray := true, argc := 1 } 0 = some 0 := by simp [arg, zero]
    have stored := @setArg_at { vt with astray := true, argc := 1 } 0
      (show 0 < vt.args.length by omega) (digit c)
    simp only [bind_eq_bind, bind_some, if_pos low, if_pos count, sub_self, read, zero_mul,
      zero_add]
    exact stored
  · intro high
    simp only [bind_eq_bind, bind_some, if_neg high]
    rfl

theorem first_run (m : Machine) (collects : vt.st = .csi) (count : vt.argc = 0) (eight : vt.args.length = 8)
    (zero : vt.args[0]? = some 0) (p : Param) :
    ∃ vt', vt100Puts m vt p.text = some vt' ∧ vt'.st = .csi ∧ vt'.args.length = 8 ∧
      (p.text ≠ [] ∧ vt.scrollTop < 1000 → vt'.argc = 1 ∧ vt'.args[0]? = some p.value) ∧
      (¬ (p.text ≠ [] ∧ vt.scrollTop < 1000) → vt'.argc = 0 ∧ vt'.args[0]? = some 0) := by
  by_cases low : vt.scrollTop < 1000
  · cases text : p.text with
    | nil => exact ⟨vt, rfl, collects, eight, fun some => absurd rfl some.1, fun _ => ⟨count, zero⟩⟩
    | cons d ds =>
      have digits := p.digits
      have small := p.small
      rw [text, forall_mem_cons] at digits
      rw [text] at small
      have value : p.value = valueFrom (digit d) ds := by
        simp [Param.value, text, valueFrom]
      have inside : 0 < vt.args.length := by omega
      have first := (first_digit (m := m) collects count digits.1).1 low eight zero
      have here : (vt.args.set 0 (digit d : Int))[0]? = some (digit d : Int) := by simp [inside]
      have rest : vt100Puts m { vt with astray := true, argc := 1, args := vt.args.set 0 (digit d : Int) } ds =
          some { vt with astray := true, argc := 1, args := (vt.args.set 0 (digit d : Int)).set 0 p.value } := by
        rw [value]
        refine digits_run { vt with astray := true, argc := 1, args := vt.args.set 0 (digit d : Int) } collects rfl (show 0 < 8 by omega) (by simpa using eight) here digits.2 ?_
        simpa [valueFrom] using small
      have ran : vt100Puts m vt (d :: ds) =
          some { vt with astray := true, argc := 1, args := (vt.args.set 0 (digit d : Int)).set 0 p.value } := by
        rw [vt100Puts, first]
        exact rest
      refine ⟨_, ran, collects, ?_, fun _ => ⟨rfl, ?_⟩, fun not => absurd ⟨cons_ne_nil d ds, low⟩ not⟩
      · simpa using eight
      · simp [inside]
  · have skipped : ∀ (ds : List Byte) (vt : Vt), vt.st = .csi → vt.argc = 0 → ¬ vt.scrollTop < 1000 →
        (∀ c ∈ ds, isdigit c = true) → ∃ b, vt100Puts m vt ds = some { vt with astray := b } := by
      intro ds
      induction ds with
      | nil => exact fun vt _ _ _ _ => ⟨vt.astray, rfl⟩
      | cons c ds ih =>
        intro vt collects count high digits
        rw [forall_mem_cons] at digits
        obtain ⟨b, rest⟩ := ih { vt with astray := true } collects count high digits.2
        refine ⟨b, ?_⟩
        rw [vt100Puts, (first_digit collects count digits.1).2 high]
        exact rest
    obtain ⟨b, ran⟩ := skipped p.text vt collects count low p.digits
    exact ⟨_, ran, collects, eight, fun both => absurd both.2 low, fun _ => ⟨count, zero⟩⟩

end Steps

theorem bracket_run (m : Machine) (plain : vt.st = .character) (s : List Byte) :
    vt100Puts m vt (27 :: chr '[' :: s) = vt100Puts m { vt with st := .csi, args := vt.args.set 0 0, argc := 0 } s := by
  have first : vt100Putc m vt 27 = some { vt with st := .esc } := by
    unfold vt100Putc
    rw [plain]
    rfl
  have second : vt100Putc m { vt with st := .esc } (chr '[') =
      some { vt with st := .csi, args := vt.args.set 0 0, argc := 0 } := by
    rfl
  rw [vt100Puts, first, bind_eq_bind, bind_some, vt100Puts, second]
  rfl

theorem command_run (m : Machine) (collects : vt.st = .csi) (other : isdigit c = false)
    (more : c ≠ chr ';') : vt100Putc m vt c = (dispatch csiCmd m vt c).map fun vt => { vt with st := .character } := by
  rw [putc_collects m _ collects]
  unfold putcCsi
  rw [if_neg (by rw [other]; simp), if_neg more]
  cases dispatch csiCmd m vt c <;> rfl

theorem take_one {l : List Int} {v : Int} (first : l[0]? = some v) : l.take 1 = [v] := by
  cases l with
  | nil => simp at first
  | cons a l => simpa using first

/-- The first parameter is lost if it is empty and others follow. -/
theorem positional_iff (m : Machine) (vt : Vt) (p : Param) (ps : List Param) (plain : vt.st = .character)
    (eight : vt.args.length = 8) (few : ps.length < 8) :
    Positional m vt p ps ↔ text p ps = [] ∨ p.text ≠ [] ∧ vt.scrollTop < 1000 := by
  have inside : 0 < vt.args.length := by omega
  obtain ⟨vt₁, ran₁, collects₁, eight₁, some, none⟩ :=
    @first_run { vt with st := .csi, args := vt.args.set 0 0, argc := 0 } m rfl rfl (by simpa using eight)
      (by simp [inside]) p
  have ran : ∀ vt', vt100Puts m vt (27 :: chr '[' :: text p ps) = .some vt' ↔
      vt100Puts m vt₁ (ps.flatMap fun q => chr ';' :: q.text) = .some vt' := by
    intro vt'
    rw [bracket_run m plain, text, puts_append, ran₁]
    rfl
  unfold Positional
  by_cases first : p.text ≠ [] ∧ vt.scrollTop < 1000
  · obtain ⟨count, value⟩ := some first
    obtain ⟨vt', ran₂, collects, argc, args⟩ := @params_run m vt₁ 1 collects₁ count eight₁ ps (by omega)
    have some : text p ps ≠ [] := fun empty => first.1 (append_eq_nil_iff.mp empty).1
    refine iff_of_true ⟨vt', (ran vt').mpr ran₂, ?_, ?_, fun c => command_run m collects⟩ (.inr first)
    · rw [argc, if_neg some, add_comm]
    · rw [add_comm, args, take_one value]
      rfl
  · obtain ⟨count, zero⟩ := none first
    obtain ⟨vt', ran₂, collects, argc, args⟩ := @params_run m vt₁ 0 collects₁ count eight₁ ps (by omega)
    constructor
    · rintro ⟨vt'', ran₃, argc', _⟩
      cases ran₂.symm.trans ((ran vt'').mp ran₃)
      left
      by_contra some
      rw [argc, if_neg some] at argc'
      omega
    · rintro (empty | both)
      · obtain ⟨noText, noMore⟩ := append_eq_nil_iff.mp empty
        cases ps with
        | nil =>
          cases ran₂
          refine ⟨vt₁, (ran vt₁).mpr rfl, ?_, ?_, fun c => command_run m collects⟩
          · rw [argc, if_pos empty]
            rfl
          · rw [length_nil, zero_add, take_one zero]
            simp [Param.value, noText, valueFrom]
        | cons q ps => simp at noMore
      · exact absurd both first

def noParam : Param where
  text := []
  digits := by simp
  small := by decide

def five : Param where
  text := [chr '5']
  digits := by decide
  small := by decide

/-- "ESC [ 5 ; 5 H" on a terminal of two lines. -/
theorem positional_iff_home : Positional .i386 { smallStart with st := .character } five [five] :=
  (positional_iff .i386 { smallStart with st := .character } five [five] rfl rfl (by decide)).mpr
    (.inr (by decide))

/-- "ESC [ ; 5 H" sets the line to 5. -/
theorem not_positional : ¬ Positional .i386 { smallStart with st := .character } noParam [five] := by
  rintro ⟨vt, ran, count, _⟩
  have read : (vt100Puts .i386 { smallStart with st := .character } (27 :: chr '[' :: text noParam [five])).map Vt.argc =
      some 1 := by decide
  rw [ran, map_some, count] at read
  exact absurd read (by decide)

end Csi
