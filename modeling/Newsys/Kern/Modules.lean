import Newsys.Lib.Bytes
import Newsys.Kern.Errno
import Newsys.Kern.Machine

/- The loader of modules (kern/module.c, kern/arch-i386/module.c, kern/arch-amd64/module.c). The image of a module is
   part of the memory of the kernel, and with it are its header and its tables, which the loader reads while it
   writes. -/
namespace Modules
open Bytes Kern

def ptrSize : Machine → Nat
  | .i386 => 4
  | .amd64 => 8

structure Module where
  head : Nat
  rel : Nat
  sym : Nat
  code : Nat
  deriving DecidableEq

/- The fields of `struct modhead`, `struct modrel` and `struct modsym` -/

def magic : List Byte := [0x00, 0x4b, 0x4d, 0x4f, 0x44, 0x55, 0x4c, 0x45]

def relStart (mem : Mem) (head : Nat) : Nat := getLE mem (head + 8) 4

def relCount (mem : Mem) (head : Nat) : Nat := getLE mem (head + 12) 4

def symStart (mem : Mem) (head : Nat) : Nat := getLE mem (head + 16) 4

def symCount (mem : Mem) (head : Nat) : Nat := getLE mem (head + 20) 4

def codeStart (mem : Mem) (head : Nat) : Nat := getLE mem (head + 32) 4

def codeSize (mem : Mem) (head : Nat) : Nat := getLE mem (head + 36) 4

def relSize (mem : Mem) (r : Nat) : Nat := getLE mem (r + 1) 1

def relType (mem : Mem) (r : Nat) : Nat := getLE mem (r + 2) 1

def relAddr (mem : Mem) (r : Nat) : Nat := getLE mem (r + 4) 4

def symFlags (mem : Mem) (y : Nat) : Nat := getLE mem y 2

def symAddr (mem : Mem) (y : Nat) : Nat := getLE mem (y + 4) 4

def symName (y : Nat) : Nat := y + 12

def relAt (M : Machine) (m : Module) (i : Nat) : Nat := (m.rel + 8 * i) % M.word

def symAt (M : Machine) (m : Module) (i : Nat) : Nat := (m.sym + 44 * i) % M.word

def symImport : Nat := 0x0002

structure Write where
  addr : Nat
  width : Nat
  deriving DecidableEq

def widths : Machine → List Nat
  | .i386 => [1, 2, 4]
  | .amd64 => [1, 2, 4, 8]

def modProcRel (M : Machine) (m : Module) (mem : Mem) (r : Nat) : Except Errno (Mem × Write) :=
  if codeSize mem m.head < (relAddr mem r + relSize mem r) % 2 ^ 32 then .error .EINVAL
  else
    let p := (m.code + relAddr mem r) % M.word
    if relSize mem r ∈ widths M then
      let v := getLE mem p (relSize mem r)
      match relType mem r with
      | 1 => .ok (setLE mem p (relSize mem r) ((v + M.word - m.code % M.word) % M.word), ⟨p, relSize mem r⟩)
      | 0 => .ok (setLE mem p (relSize mem r) ((v + m.code) % M.word), ⟨p, relSize mem r⟩)
      | _ => .error .EINVAL
    else .error .EINVAL

def patch (M : Machine) (m : Module) (mem : Mem) (y value : Nat) : Except Errno (Mem × Write) :=
  if codeSize mem m.head ≤ (symAddr mem y + 3) % 2 ^ 32 then .error .ENOEXEC
  else
    let p := (m.code + symAddr mem y) % M.word
    .ok (setLE mem p (ptrSize M) ((getLE mem p (ptrSize M) + value) % M.word), ⟨p, ptrSize M⟩)

/-- Where the loader is: in front of a relocation, in front of a symbol, or done. -/
inductive Pc where
  | reloc (i : Nat)
  | resolve (i : Nat)
  | loaded
  | rejected (err : Errno)
  deriving DecidableEq

structure Load where
  mem : Mem
  pc : Pc
  writes : List Write

def rejected (s : Load) (err : Errno) : Load := { s with pc := .rejected err }

def written (s : Load) (next : Pc) : Except Errno (Mem × Write) → Load
  | .error err => rejected s err
  | .ok (mem, w) => ⟨mem, next, w :: s.writes⟩

variable (M : Machine) (look : Mem → Nat → Option Nat)

/-- One round of the loops of `mod_reloc` and of `mod_resolve`. What `mod_getksym` finds for a name is `look`. -/
def step (m : Module) (s : Load) : Load :=
  match s.pc with
  | .reloc i =>
    if i < relCount s.mem m.head then written s (.reloc (i + 1)) (modProcRel M m s.mem (relAt M m i))
    else { s with pc := .resolve 0 }
  | .resolve i =>
    if i < symCount s.mem m.head then
      let y := symAt M m i
      if symFlags s.mem y &&& symImport ≠ 0 then
        match look s.mem (symName y) with
        | none => rejected s .ENSYM
        | some value => written s (.resolve (i + 1)) (patch M m s.mem y value)
      else { s with pc := .resolve (i + 1) }
    else { s with pc := .loaded }
  | .loaded => s
  | .rejected _ => s

def modInit (mem : Mem) (head : Nat) : Except Errno Module :=
  if slice mem head 8 = magic then
    .ok ⟨head, (head + relStart mem head) % M.word, (head + symStart mem head) % M.word,
      (head + codeStart mem head) % M.word⟩
  else .error .ENOEXEC

def run (m : Module) (n : Nat) (s : Load) : Load := (step M look m)^[n] s

def start (mem : Mem) : Load := ⟨mem, .reloc 0, []⟩

/-- A write is inside the image, which has `size` bytes. -/
def Inside (head size : Nat) (w : Write) : Prop := head ≤ w.addr ∧ w.addr + w.width ≤ head + size

/- What the checks leave out -/

/-- The section that is relocated is part of the image. -/
def Placed (m : Module) (size : Nat) (s : Load) : Prop :=
  m.head ≤ m.code ∧ m.code + codeSize s.mem m.head ≤ m.head + size

/-- There is a record in front of the loader that it relocates or resolves. -/
def Due (m : Module) (s : Load) : Prop :=
  match s.pc with
  | .reloc i => i < relCount s.mem m.head
  | .resolve i => i < symCount s.mem m.head ∧ symFlags s.mem (symAt M m i) &&& symImport ≠ 0
  | .loaded => False
  | .rejected _ => False

/-- The sum of an address and a size does not wrap around; on i386 the address may wrap around with it, into the part
    of the image in front of the section. -/
def Straight (m : Module) (addr sum : Nat) : Prop :=
  sum < 2 ^ 32 ∨ M = .i386 ∧ m.head + 2 ^ 32 ≤ m.code + addr

/-- The record in front of the loader, if it passes the check, does not wrap around, and if it is a symbol on amd64,
    then all eight bytes are in the image. -/
def Right (m : Module) (size : Nat) (s : Load) : Prop :=
  match s.pc with
  | .reloc i => i < relCount s.mem m.head → (modProcRel M m s.mem (relAt M m i)).isOk →
      Straight M m (relAddr s.mem (relAt M m i)) (relAddr s.mem (relAt M m i) + relSize s.mem (relAt M m i))
  | .resolve i => i < symCount s.mem m.head → symFlags s.mem (symAt M m i) &&& symImport ≠ 0 →
      look s.mem (symName (symAt M m i)) ≠ none →
      (symAddr s.mem (symAt M m i) + 3) % 2 ^ 32 < codeSize s.mem m.head →
      Straight M m (symAddr s.mem (symAt M m i)) (symAddr s.mem (symAt M m i) + 3) ∧
        (M = .amd64 → m.code + symAddr s.mem (symAt M m i) + 8 ≤ m.head + size)
  | .loaded => True
  | .rejected _ => True

section Records
variable {M : Machine} {m : Module} {mem : Mem} {size r y value : Nat} {out : Mem × Write}

theorem addr_lt (r : Nat) : relAddr mem r < 2 ^ 32 := getLE_lt mem (r + 4) 4

theorem symAddr_lt (y : Nat) : symAddr mem y < 2 ^ 32 := getLE_lt mem (y + 4) 4

theorem modProcRel_ok (ok : modProcRel M m mem r = .ok out) :
    (relAddr mem r + relSize mem r) % 2 ^ 32 ≤ codeSize mem m.head ∧ 0 < relSize mem r ∧ relSize mem r ≤ 8 ∧
      out.2 = ⟨(m.code + relAddr mem r) % M.word, relSize mem r⟩ := by
  simp only [modProcRel] at ok
  split at ok
  · cases ok
  · rename_i passed
    split at ok
    · rename_i known
      have width : 0 < relSize mem r ∧ relSize mem r ≤ 8 := by
        cases M <;> simp only [widths, List.mem_cons, List.not_mem_nil, or_false] at known <;> omega
      refine ⟨Nat.le_of_not_lt passed, width.1, width.2, ?_⟩
      split at ok
      · cases ok
        rfl
      · cases ok
        rfl
      · cases ok
    · cases ok

theorem patch_ok (ok : patch M m mem y value = .ok out) :
    (symAddr mem y + 3) % 2 ^ 32 < codeSize mem m.head ∧ out.2 = ⟨(m.code + symAddr mem y) % M.word, ptrSize M⟩ := by
  simp only [patch] at ok
  split at ok
  · cases ok
  · rename_i passed
    cases ok
    exact ⟨Nat.lt_of_not_le passed, rfl⟩

theorem turned (wraps : 2 ^ 32 ≤ a) (once : a < 2 ^ 33) : a % 2 ^ 32 = a - 2 ^ 32 := by
  rw [Nat.mod_eq_sub_mod wraps, Nat.mod_eq_of_lt (by omega)]

/-- A write of `width` bytes at `addr`, of which the check has seen that `addr + k`, with its overflow, and the bytes
    behind it are in the section, is in the image if and only if the sum is straight. -/
theorem inside_iff (area : m.head + size ≤ 2 ^ 30) (placed : m.head ≤ m.code ∧ m.code + cs ≤ m.head + size)
    (addr_lt : addr < 2 ^ 32) (some : 0 < k) (le : k ≤ width) (few : width ≤ 8)
    (passed : (addr + k) % 2 ^ 32 + (width - k) ≤ cs) :
    Inside m.head size ⟨(m.code + addr) % M.word, width⟩ ↔ Straight M m addr (addr + k) := by
  by_cases straight : addr + k < 2 ^ 32
  · rw [Nat.mod_eq_of_lt straight] at passed
    have word := M.word_large
    have here : (m.code + addr) % M.word = m.code + addr := Nat.mod_eq_of_lt (by omega)
    simp only [Inside, Straight, here]
    omega
  · rw [turned (by omega) (by omega)] at passed
    cases M with
    | amd64 =>
      have here : (m.code + addr) % Machine.word .amd64 = m.code + addr :=
        Nat.mod_eq_of_lt (by show _ < 2 ^ 64; omega)
      simp only [Inside, Straight, here, reduceCtorEq, false_and, or_false]
      omega
    | i386 =>
      by_cases wraps : 2 ^ 32 ≤ m.code + addr
      · have here : (m.code + addr) % Machine.word .i386 = m.code + addr - 2 ^ 32 := turned wraps (by omega)
        simp only [Inside, Straight, here, true_and]
        omega
      · have here : (m.code + addr) % Machine.word .i386 = m.code + addr :=
          Nat.mod_eq_of_lt (by show _ < 2 ^ 32; omega)
        simp only [Inside, Straight, here, true_and]
        omega

theorem patch_inside_iff (area : m.head + size ≤ 2 ^ 30) (placed : m.head ≤ m.code ∧ m.code + cs ≤ m.head + size)
    (addr_lt : addr < 2 ^ 32) (passed : (addr + 3) % 2 ^ 32 < cs) :
    Inside m.head size ⟨(m.code + addr) % M.word, ptrSize M⟩ ↔
      Straight M m addr (addr + 3) ∧ (M = .amd64 → m.code + addr + 8 ≤ m.head + size) := by
  cases M with
  | amd64 =>
    have here : (m.code + addr) % Machine.word .amd64 = m.code + addr :=
      Nat.mod_eq_of_lt (by show _ < 2 ^ 64; omega)
    simp only [Inside, Straight, here, ptrSize, reduceCtorEq, false_and, or_false, forall_const]
    omega
  | i386 =>
    simp only [reduceCtorEq, false_imp_iff, and_true]
    exact inside_iff area placed addr_lt (by decide) (by decide) (by decide) passed

end Records

section Runs
variable {M : Machine} {look : Mem → Nat → Option Nat} {m : Module} {size : Nat} {s : Load}

/-- All writes so far are in the image. -/
def Kept (head size : Nat) (s : Load) : Prop := ∀ w ∈ s.writes, Inside head size w

theorem kept_written :
    Kept m.head size (written s next (.ok (mem, w))) ↔ Kept m.head size s ∧ Inside m.head size w := by
  simp only [Kept, written, List.mem_cons, forall_eq_or_imp]
  exact and_comm

theorem kept_step (area : m.head + size ≤ 2 ^ 30) (placed : Due M m s → Placed m size s) :
    Kept m.head size (step M look m s) ↔ Kept m.head size s ∧ Right M look m size s := by
  cases here : s.pc with
  | loaded => simp only [step, Right, here, and_true]
  | rejected err => simp only [step, Right, here, and_true]
  | reloc i =>
    simp only [Due, here] at placed
    simp only [step, Right, here]
    by_cases more : i < relCount s.mem m.head
    · simp only [more, if_true, true_imp_iff]
      cases done : modProcRel M m s.mem (relAt M m i) with
      | error err => simp [written, rejected, Kept, Except.isOk, Except.toBool]
      | ok out =>
        obtain ⟨mem, w⟩ := out
        obtain ⟨passed, some, few, write⟩ := modProcRel_ok done
        rw [kept_written, show w = _ from write, inside_iff area (placed more) (addr_lt _) some le_rfl few (by omega)]
        simp [Except.isOk, Except.toBool]
    · simp only [more, if_false, false_imp_iff, and_true]
      rfl
  | resolve i =>
    simp only [Due, here] at placed
    simp only [step, Right, here]
    by_cases more : i < symCount s.mem m.head
    · simp only [more, if_true, true_imp_iff]
      by_cases imported : symFlags s.mem (symAt M m i) &&& symImport ≠ 0
      · simp only [imported, ne_eq, not_false_eq_true, if_true, true_imp_iff]
        cases found : look s.mem (symName (symAt M m i)) with
        | none => simp [rejected, Kept]
        | some value =>
          simp only [reduceCtorEq, not_false_eq_true, true_imp_iff]
          cases done : patch M m s.mem (symAt M m i) value with
          | error err =>
            have failed : ¬ (symAddr s.mem (symAt M m i) + 3) % 2 ^ 32 < codeSize s.mem m.head := by
              intro passed
              rw [patch, if_neg (not_le.mpr passed)] at done
              cases done
            simp only [failed, false_imp_iff, and_true]
            rfl
          | ok out =>
            obtain ⟨mem, w⟩ := out
            obtain ⟨passed, write⟩ := patch_ok done
            rw [kept_written, show w = _ from write, patch_inside_iff area (placed ⟨more, imported⟩) (symAddr_lt _) passed]
            simp only [passed, true_imp_iff]
      · simp only [imported, if_false, false_imp_iff, and_true]
        rfl
    · simp only [more, if_false, false_imp_iff, and_true]
      rfl

theorem run_succ (n : Nat) (s : Load) : run M look m (n + 1) s = step M look m (run M look m n s) :=
  Function.iterate_succ_apply' ..

theorem modInit_head (init : modInit M mem head = .ok m) : m.head = head := by
  simp only [modInit] at init
  split at init
  · cases init
    rfl
  · cases init

/-- While the section that the header names is part of the image, the loader writes to the image alone if and only if
    every record that passes its check is right. -/
theorem mod_kept_iff {mem : Mem} {head : Nat} (area : head + size ≤ 2 ^ 30) (init : modInit M mem head = .ok m)
    (placed : ∀ n, Due M m (run M look m n (start mem)) → Placed m size (run M look m n (start mem))) :
    (∀ n, Kept head size (run M look m n (start mem))) ↔ ∀ n, Right M look m size (run M look m n (start mem)) := by
  rw [← modInit_head init] at area ⊢
  constructor
  · intro kept n
    have next := kept (n + 1)
    rw [run_succ, kept_step area (placed n)] at next
    exact next.2
  · intro right n
    induction n with
    | zero => exact fun w mem => absurd mem List.not_mem_nil
    | succ n ih =>
      rw [run_succ, kept_step area (placed n)]
      exact ⟨ih, right n⟩

theorem run_loaded (done : (run M look m n s).pc = .loaded) (k : Nat) :
    run M look m (n + k) s = run M look m n s := by
  induction k with
  | zero => rfl
  | succ k ih =>
    rw [← add_assoc, run_succ, ih]
    simp only [step, done]

end Runs

/-- An image at 2 ^ 29 with a header, two relocations, and 16 bytes of code. The second relocation has the given
    address. -/
def sampleImage (addr : List Byte) : List Byte :=
  magic ++ [40, 0, 0, 0, 2, 0, 0, 0, 56, 0, 0, 0, 0, 0, 0, 0, 0, 0, 0, 0, 0, 0, 0, 0, 56, 0, 0, 0, 16, 0, 0, 0] ++
    [0, 4, 0, 0, 8, 0, 0, 0] ++ ([0, 4, 0, 0] ++ addr) ++ [0, 0, 0, 0, 0, 0, 0, 0, 0, 0, 0, 0, 0, 0, 0, 0]

def sampleMem (addr : List Byte) : Mem := blit zero (2 ^ 29) (sampleImage addr)

def sampleModule : Module := ⟨2 ^ 29, 2 ^ 29 + 40, 2 ^ 29 + 56, 2 ^ 29 + 56⟩

theorem sampleModule_init : modInit .amd64 (sampleMem [12, 0, 0, 0]) (2 ^ 29) = .ok sampleModule := by
  rw [modInit, if_pos (by decide +kernel)]
  apply congrArg Except.ok
  decide +kernel

theorem sampleWrapped_init : modInit .amd64 (sampleMem [252, 255, 255, 255]) (2 ^ 29) = .ok sampleModule := by
  rw [modInit, if_pos (by decide +kernel)]
  apply congrArg Except.ok
  decide +kernel

def sampleRun (n : Nat) : Load := run .amd64 (fun _ _ => none) sampleModule n (start (sampleMem [12, 0, 0, 0]))

theorem sampleRun_placed (n : Nat) : Placed sampleModule 88 (sampleRun n) := by
  have early : ∀ k ≤ 4, Placed sampleModule 88 (sampleRun k) := by
    unfold Placed
    decide +kernel
  rcases le_total n 4 with le | le
  · exact early n le
  · obtain ⟨k, rfl⟩ := Nat.exists_eq_add_of_le le
    have ended : sampleRun (4 + k) = sampleRun 4 := run_loaded (by decide +kernel) k
    rw [ended]
    exact early 4 (le_refl 4)

theorem mod_kept_iff_sample : (∀ n, Kept (2 ^ 29) 88 (sampleRun n)) ↔
    ∀ n, Right .amd64 (fun _ _ => none) sampleModule 88 (sampleRun n) :=
  mod_kept_iff (by decide) sampleModule_init fun n _ => sampleRun_placed n

/-- A module is loaded, and its second relocation has written four gigabytes behind its code. -/
theorem mod_not_kept : modInit .amd64 (sampleMem [252, 255, 255, 255]) (2 ^ 29) = .ok sampleModule ∧
    (run .amd64 (fun _ _ => none) sampleModule 4 (start (sampleMem [252, 255, 255, 255]))).pc = .loaded ∧
    ¬ Kept (2 ^ 29) 88 (run .amd64 (fun _ _ => none) sampleModule 4 (start (sampleMem [252, 255, 255, 255]))) := by
  refine ⟨sampleWrapped_init, ?_, ?_⟩
  · decide +kernel
  · unfold Kept Inside
    decide +kernel

end Modules
