import Newsys.Natfs.Layout

/- Directory entries in a block (struct nat_dirent): an entry is live when its block number is not
   zero, and its name ends at the first NUL. -/
namespace Natfs
open Bytes List

abbrev Name := List Byte

def dirent (b : Mem) (k : Nat) : Option (Name × Nat) :=
  if deFirstBlock b k = 0 then none else some (deName b k, deFirstBlock b k)

structure NameOk (n : Name) : Prop where
  nonempty : n ≠ []
  short : n.length ≤ 27
  noNul : (0 : Byte) ∉ n

theorem cstr_congr {b b' : Mem} (n : Nat) : ∀ {off fuel fuel' : Nat}, n < fuel → n < fuel' →
    (cstr b off fuel).length ≤ n → (∀ k, off ≤ k → k ≤ off + n → b' k = b k) →
    cstr b' off fuel' = cstr b off fuel := by
  induction n with
  | zero =>
    intro off fuel fuel' room room' short same
    obtain ⟨fuel, rfl⟩ := Nat.exists_eq_succ_of_ne_zero (Nat.ne_zero_of_lt room)
    obtain ⟨fuel', rfl⟩ := Nat.exists_eq_succ_of_ne_zero (Nat.ne_zero_of_lt room')
    simp only [cstr, same off (le_refl _) (le_refl _)] at short ⊢
    split
    · rfl
    · rename_i ne
      rw [if_neg ne] at short
      exact absurd short (by simp)
  | succ n ih =>
    intro off fuel fuel' room room' short same
    obtain ⟨fuel, rfl⟩ := Nat.exists_eq_succ_of_ne_zero (Nat.ne_zero_of_lt room)
    obtain ⟨fuel', rfl⟩ := Nat.exists_eq_succ_of_ne_zero (Nat.ne_zero_of_lt room')
    simp only [cstr, same off (le_refl _) (by omega)] at short ⊢
    split
    · rfl
    · rename_i ne
      rw [if_neg ne, length_cons] at short
      have rest : cstr b' (off + 1) fuel' = cstr b (off + 1) fuel :=
        ih (by omega) (by omega) (by omega) fun k lo hi => same k (by omega) (by omega)
      rw [rest]

theorem cstr_copied (n : Name) : ∀ {b : Mem} {off fuel : Nat}, (0 : Byte) ∉ n → n.length < fuel →
    (∀ k, k < n.length → b (off + k) = n.getD k 0) → b (off + n.length) = 0 →
    cstr b off fuel = n := by
  induction n with
  | nil =>
    intro b off fuel _ room _ stop
    cases fuel with
    | zero => rfl
    | succ fuel => simp only [cstr, if_pos (show b off = 0 from stop)]
  | cons c n ih =>
    intro b off fuel clean room copied stop
    rw [length_cons] at room copied stop
    cases fuel with
    | zero => omega
    | succ fuel =>
      have head : b off = c := copied 0 (by omega)
      have ne : c ≠ 0 := fun eq => clean (eq ▸ mem_cons_self ..)
      have rest : cstr b (off + 1) fuel = n := by
        apply ih (fun mem => clean (mem_cons_of_mem _ mem)) (by omega)
        · intro k lt
          rw [add_right_comm off 1 k, add_assoc]
          exact copied (k + 1) (by omega)
        · rw [add_right_comm off 1, add_assoc]
          exact stop
      simp only [cstr, head, if_neg ne, rest]

theorem dirent_congr {b b' : Mem} {k : Nat} (inside : k < 16)
    (short : ∀ e, dirent b k = some e → e.1.length ≤ 27)
    (same : ∀ x, 32 * k ≤ x → x < 32 * k + 32 → b' x = b x) : dirent b' k = dirent b k := by
  have first : deFirstBlock b' k = deFirstBlock b k :=
    getLE_congr fun x lo hi => same x (by omega) (by omega)
  by_cases dead : deFirstBlock b k = 0
  · simp only [dirent, first, if_pos dead]
  · have name : (deName b k).length ≤ 27 := short _ (by rw [dirent, if_neg dead])
    have copy : deName b' k = deName b k :=
      cstr_congr 27 (by omega) (by omega) name fun x lo hi => same x lo (by omega)
    simp only [dirent, first, if_neg dead, copy]

theorem dirent_zero (k : Nat) : dirent zero k = none := by
  rw [dirent, deFirstBlock, getLE_zero, if_pos rfl]

theorem dirent_clear (b : Mem) (k : Nat) : dirent (clearDirent b k) k = none := by
  have dead : deFirstBlock (clearDirent b k) k = 0 := by
    rw [← getLE_zero (32 * k + 28) 4]
    apply getLE_congr
    intro x lo hi
    rw [clearDirent, fill, if_pos (by omega)]
    rfl
  rw [dirent, if_pos dead]

theorem dirent_set (b : Mem) {k v : Nat} {n : Name} (inside : k < 16) (ok : NameOk n) (pos : v ≠ 0)
    (small : v < 2 ^ 32) : dirent (setDirent b k n v) k = some (n, v) := by
  have short := ok.short
  have first : deFirstBlock (setDirent b k n v) k = v := by
    rw [deFirstBlock, setDirent, getLE_setLE_same]
    exact Nat.mod_eq_of_lt small
  have name : deName (setDirent b k n v) k = n := by
    apply cstr_copied n ok.noNul (by omega)
    · intro x lt
      rw [setDirent, setLE_outside _ _ _ _ _ (by omega), blit_inside _ _ _ _ (by omega)
        (by rw [length_append]; omega), Nat.add_sub_cancel_left, getD_append _ _ _ _ lt]
    · rw [setDirent, setLE_outside _ _ _ _ _ (by omega), blit_inside _ _ _ _ (by omega)
        (by rw [length_append, length_singleton]; omega), Nat.add_sub_cancel_left,
        getD_append_right _ _ _ _ (Nat.le_refl _), Nat.sub_self]
      rfl
  rw [dirent, first, if_neg pos, name]

theorem clearDirent_outside (b : Mem) (out : x < 32 * k ∨ 32 * k + 32 ≤ x) : clearDirent b k x = b x := by
  rw [clearDirent, fill, if_neg (by omega)]

theorem setDirent_outside (b : Mem) (short : n.length ≤ 27)
    (out : x < 32 * k ∨ 32 * k + 32 ≤ x) : setDirent b k n v x = b x := by
  rw [setDirent, setLE_outside _ _ _ _ _ (by omega), blit_outside _ _ _ _
    (by rw [length_append, length_singleton]; omega), clearDirent_outside b out]

end Natfs
