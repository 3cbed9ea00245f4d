import Newsys.Lib.Fields
import Newsys.Lib.Tally
import Newsys.Natfs.Allocator

/- The free space of a volume (kern/fs/nat/main.c): a sweep over the blocks of the map, whichever of them is in memory,
   counts the clear bits, and that many blocks can be allocated. -/
namespace Natfs.Statfs
open Bytes Cmds Cmd Fields Tally Natfs.Allocator List Nat

def add (a b : Nat) : Nat := (a + b) % 2 ^ 32

def popcnt (v : Nat) : Nat :=
  let v := add (v &&& 0x55555555) ((v &&& 0xaaaaaaaa) >>> 1)
  let v := add (v &&& 0x33333333) ((v &&& 0xcccccccc) >>> 2)
  let v := add (v &&& 0x0f0f0f0f) ((v &&& 0xf0f0f0f0) >>> 4)
  let v := add (v &&& 0x00ff00ff) ((v &&& 0xff00ff00) >>> 8)
  add (v &&& 0x0000ffff) ((v &&& 0xffff0000) >>> 16)

/-- The inner loop of `nat_statfs`: the words of a block of the map. -/
def statfsWords (b : Mem) (free : Nat) : Nat :=
  (range 128).foldl (fun free w =>
    let word := getLE b (4 * w) 4
    if word = 0xffffffff then free else add free (popcnt (word ^^^ 0xffffffff))) free

def statfsFrom (cx : Cx) (i : Nat) : Nat → Nat → NatM Nat
  | 0, free => pure free
  | n + 1, free => do
    let s ← get
    natSwitchBam cx (s.fs.geo.bamBlock + i)
    let s ← get
    statfsFrom cx (i + 1) n (statfsWords s.fs.bamBuf free)

def natStatfs (cx : Cx) : NatM (Nat × Nat) := do
  let s ← get
  let free ← statfsFrom cx 0 s.fs.geo.bamSize 0
  pure (s.fs.geo.dataSize, free)

/-- The blocks of the data area that have a clear bit in the map. -/
def freeBlocks (s : Vol) : Nat :=
  (range' s.fs.geo.dataBlock s.fs.geo.dataSize).countP fun b => b < 4096 * s.fs.geo.bamSize ∧ used s b = false

/-- The next `n` allocations succeed, and the one after them finds no space. -/
def Leaves (cx : Cx) : Nat → Vol → Prop
  | 0, s => (natBalloc cx s).1 = .err .ENOSPC
  | n + 1, s => ∃ bn, (natBalloc cx s).1 = .ok bn ∧ Leaves cx n (natBalloc cx s).2

/-- The map has no free block but in the data area, and the block in memory is in step with the device. -/
structure MapOk (s : Vol) : Prop where
  sync : Synced s
  outside : ∀ b, b < 4096 * s.fs.geo.bamSize → ¬ s.fs.geo.inData b → used s b = true

/- Bits in parallel -/

theorem popcnt_stage (pos : 0 < k) (double : 2 * k = K) (all : K * n = 32)
    (masks : mask k n = low ∧ 2 ^ k * low = high) (even : ds.length = 2 * n) (fits : ∀ d ∈ ds, d < 2 ^ k) :
    add (value k ds &&& low) ((value k ds &&& high) >>> k) = value K (halve ds) ∧ (halve ds).length = n ∧
      ∀ d ∈ halve ds, d < 2 ^ K := by
  obtain ⟨rfl, rfl⟩ := masks
  subst double
  have narrow := halve_lt pos even fits
  have small : value (2 * k) (halve ds) < 2 ^ 32 := by
    have lt := value_lt narrow
    rw [length_halve even, all] at lt
    exact lt
  refine ⟨?_, length_halve even, narrow⟩
  rw [and_shifted, Nat.shiftRight_eq_div_pow, Nat.mul_div_cancel_left _ (Nat.two_pow_pos k), add, mask_add even fits,
    mod_eq_of_lt small]

theorem popcnt_eq (lt : v < 2 ^ 32) : popcnt v = (range 32).countP v.testBit := by
  have word : v = value 1 (bits v 32) := by rw [value_bits, mod_eq_of_lt lt]
  obtain ⟨two, len₂, fits₂⟩ := popcnt_stage (n := 16) (by decide) rfl rfl ⟨rfl, rfl⟩ (length_bits v 32) (bits_lt v 32)
  obtain ⟨four, len₄, fits₄⟩ := popcnt_stage (n := 8) (by decide) rfl rfl ⟨rfl, rfl⟩ len₂ fits₂
  obtain ⟨eight, len₈, fits₈⟩ := popcnt_stage (n := 4) (by decide) rfl rfl ⟨rfl, rfl⟩ len₄ fits₄
  obtain ⟨sixteen, len₁₆, fits₁₆⟩ := popcnt_stage (n := 2) (by decide) rfl rfl ⟨rfl, rfl⟩ len₈ fits₈
  obtain ⟨whole, len₃₂, -⟩ := popcnt_stage (n := 1) (by decide) rfl rfl ⟨rfl, rfl⟩ len₁₆ fits₁₆
  have sum : (halve (halve (halve (halve (halve (bits v 32)))))).sum = (range 32).countP v.testBit := by
    rw [sum_halve, sum_halve, sum_halve, sum_halve, sum_halve, sum_bits]
  have stages : popcnt v = value 32 (halve (halve (halve (halve (halve (bits v 32)))))) := by
    rw [← whole, ← sixteen, ← eight, ← four, ← two, ← word]
    rfl
  obtain ⟨d, one⟩ := length_eq_one_iff.1 len₃₂
  rw [stages, ← sum, one, value, value, sum_singleton, mul_zero, add_zero]

theorem statfsWords_eq (b : Mem) (free : Nat) (lt : free < 2 ^ 32) :
    statfsWords b free = (free + (range 4096).countP fun k => !bit b k) % 2 ^ 32 := by
  have each : ∀ n, n ≤ 128 → (range n).foldl (fun free w =>
      let word := getLE b (4 * w) 4
      if word = 0xffffffff then free else add free (popcnt (word ^^^ 0xffffffff))) free =
      (free + (range (32 * n)).countP fun k => !bit b k) % 2 ^ 32 := by
    intro n le
    induction n with
    | zero => exact (mod_eq_of_lt lt).symm
    | succ n ih =>
      have word : getLE b (4 * n) 4 < 2 ^ 32 := getLE_lt b _ 4
      have here : (range' (32 * n) 32).countP (fun k => !bit b k) =
          (range 32).countP (getLE b (4 * n) 4 ^^^ 0xffffffff).testBit := by
        rw [range'_eq_map_range, countP_map]
        apply countP_congr
        intro k mem
        rw [mem_range] at mem
        have read := testBit_getLE b (4 * n) 4 k mem
        have ones : (0xffffffff : Nat).testBit k = true := by
          rw [show (0xffffffff : Nat) = 2 ^ 32 - 1 from rfl, testBit_two_pow_sub_one, decide_eq_true mem]
        rw [testBit_xor, ones, read, ← mul_assoc]
        simp
      have next : (range (32 * (n + 1))).countP (fun k => !bit b k) =
          (range (32 * n)).countP (fun k => !bit b k) + (range' (32 * n) 32).countP fun k => !bit b k := by
        have join : range' 0 (32 * n) ++ range' (0 + 32 * n) 32 = range' 0 (32 * n + 32) :=
          range'_append_1
        rw [zero_add] at join
        rw [mul_succ, range_eq_range', range_eq_range', ← countP_append, join]
      rw [range_succ, foldl_append, ih (le_of_succ_le le), next, here, foldl_cons, foldl_nil]
      dsimp only
      by_cases full : getLE b (4 * n) 4 = 0xffffffff
      · have none : (range 32).countP (getLE b (4 * n) 4 ^^^ 0xffffffff).testBit = 0 := by
          rw [full]
          decide
        rw [if_pos full, none, add_zero]
      · rw [if_neg full, popcnt_eq (xor_lt_two_pow word (by decide)), add, mod_add_mod, add_assoc]
  exact each 128 (le_refl _)

def clear (s : Vol) (lo n : Nat) : Nat := (range' lo n).countP fun b => !used s b

theorem clear_add (s : Vol) (lo n k : Nat) : clear s lo (n + k) = clear s lo n + clear s (lo + n) k := by
  rw [clear, clear, clear, ← countP_append, range'_append_1]

theorem clear_congr (same : ∀ b, lo ≤ b → b < lo + n → used s' b = used s b) :
    clear s' lo n = clear s lo n := by
  apply countP_congr
  intro b mem
  rw [mem_range'_1] at mem
  rw [same b mem.1 mem.2]

theorem statfsFrom_counts {cx : Cx} (noio : cx.NoIoError) (n : Nat) : ∀ {s : Vol} {i free : Nat}, Synced s →
    i + n = s.fs.geo.bamSize → free < 2 ^ 32 → wp (statfsFrom cx i n free) (fun r s' =>
      r = .ok ((free + clear s (4096 * i) (4096 * n)) % 2 ^ 32) ∧ Synced s' ∧ s'.fs.geo = s.fs.geo ∧
      ∀ b, b < 4096 * s.fs.geo.bamSize → used s' b = used s b) s := by
  induction n with
  | zero =>
    intro s i free sync _ lt
    rw [statfsFrom, wp_pure]
    refine ⟨?_, sync, rfl, fun _ _ => rfl⟩
    rw [mul_zero, clear, range'_zero, countP_nil, add_zero, mod_eq_of_lt lt]
  | succ n ih =>
    intro s i free sync size lt
    simp only [statfsFrom, wp_bind, wp_get, after_ok]
    apply wp_natSwitchBam_io sync (by omega) (not_switchLoses noio _ s)
    · intro s₁ sw _
      have geo := sw.frame.geo
      simp only [after_ok, wp_bind, wp_get]
      have block : (range 4096).countP (fun k => !bit s₁.fs.bamBuf k) = clear s (4096 * i) 4096 := by
        rw [clear, range'_eq_map_range, countP_map]
        apply countP_congr
        intro k mem
        rw [mem_range] at mem
        have here : used s (4096 * i + k) = bit s₁.fs.bamBuf k := by
          rw [← sw.used _ (by omega)]
          simp only [used, bamBlk, sw.curr, geo, show (4096 * i + k) / 4096 = i by omega,
            show (4096 * i + k) % 4096 = k by omega, if_true]
        rw [Function.comp_apply, here]
      rw [statfsWords_eq _ _ lt, block]
      refine wp_mono (ih sw.sync (by rw [geo]; omega) (mod_lt _ (by decide))) ?_
      rintro r s' ⟨rfl, sync', geo', same⟩
      rw [geo] at geo' same
      refine ⟨?_, sync', geo', fun b lt => (same b lt).trans (sw.used b lt)⟩
      have rest : clear s₁ (4096 * (i + 1)) (4096 * n) = clear s (4096 * i + 4096) (4096 * n) := by
        apply clear_congr
        intro b lo hi
        exact sw.used b (by omega)
      rw [rest, mod_add_mod, add_assoc, ← clear_add, mul_succ, add_comm (4096 * n)]
    · exact fun _ _ _ io _ => (noio.none io).elim

theorem freeBlocks_le (s : Vol) : freeBlocks s ≤ s.fs.geo.dataSize := by
  have le := countP_le_length (l := range' s.fs.geo.dataBlock s.fs.geo.dataSize)
    (p := fun b => decide (b < 4096 * s.fs.geo.bamSize ∧ used s b = false))
  rw [length_range'] at le
  exact le

theorem clear_all (ok : MapOk s) : clear s 0 (4096 * s.fs.geo.bamSize) = freeBlocks s := by
  rw [clear, freeBlocks, countP_eq_length_filter, countP_eq_length_filter]
  apply List.Perm.length_eq
  have nodup : ∀ a n, (range' a n).Nodup := fun a n => nodup_range'
  rw [perm_ext_iff_of_nodup ((nodup _ _).filter _) ((nodup _ _).filter _)]
  intro b
  simp only [mem_filter, mem_range'_1, zero_le, true_and, zero_add, Bool.not_eq_true', decide_eq_true_eq]
  constructor
  · rintro ⟨lt, free⟩
    by_cases data : s.fs.geo.inData b
    · exact ⟨data, lt, free⟩
    · rw [ok.outside b lt data] at free
      cases free
  · exact fun both => both.2

/- Allocating what was counted -/

theorem clear_taken (t : Taken s s' start bn) :
    clear s' 0 (4096 * s.fs.geo.bamSize) + 1 = clear s 0 (4096 * s.fs.geo.bamSize) := by
  have update : clear s' 0 (4096 * s.fs.geo.bamSize) =
      tally (4096 * s.fs.geo.bamSize) (fun v => !v) (Function.update (used s) bn true) := by
    rw [tally_eq_countP, clear, ← range_eq_range']
    apply countP_congr
    intro b mem
    rw [t.written.used b (mem_range.1 mem)]
    by_cases eq : b = bn
    · subst eq
      simp
    · rw [if_neg eq, Function.update_of_ne eq]
  have before := tally_update (P := fun v => !v) (g := used s) t.covered true
  rw [t.free] at before
  rw [update, clear, ← range_eq_range', ← tally_eq_countP (P := fun v => !v) (g := used s)]
  simpa using before

theorem MapOk.taken (ok : MapOk s) (t : Taken s s' start bn) : MapOk s' := by
  have geo := t.written.frame.geo
  refine ⟨t.written.sync, ?_⟩
  rw [geo]
  intro b lt out
  rw [t.written.used b lt]
  split
  · rfl
  · exact ok.outside b lt out

theorem leaves_of_clear {cx : Cx} (noio : cx.NoIoError) : ∀ {s : Vol}, MapOk s →
    clear s 0 (4096 * s.fs.geo.bamSize) = n → Leaves cx n s := by
  induction n with
  | zero =>
    intro s ok none
    show wp (natBalloc cx) (fun r _ => r = .err .ENOSPC) s
    apply wp_natBalloc_any_io ok.sync (not_ballocLoses noio s)
    · intro s' bn t _
      have less := clear_taken t
      omega
    · exact fun _ _ _ _ _ => rfl
    · exact fun _ _ io _ => (noio.none io).elim
  | succ n ih =>
    intro s ok some'
    show wp (natBalloc cx) (fun r s' => ∃ bn, r = .ok bn ∧ Leaves cx n s') s
    apply wp_natBalloc_any_io ok.sync (not_ballocLoses noio s)
    · intro s' bn t _
      have less := clear_taken t
      refine ⟨_, rfl, ih (ok.taken t) ?_⟩
      rw [t.written.frame.geo]
      omega
    · intro s' _ _ _ rest
      have found : 0 < clear s 0 (4096 * s.fs.geo.bamSize) := by omega
      rw [clear, countP_pos_iff] at found
      obtain ⟨b, mem, free⟩ := found
      rw [mem_range'_1] at mem
      have lt : b < 4096 * s.fs.geo.bamSize := by omega
      have free : used s b = false := by simpa using free
      by_cases data : s.fs.geo.inData b
      · have lower := data.1
        rw [rest b (by omega) lt] at free
        cases free
      · rw [ok.outside b lt data] at free
        cases free
    · exact fun _ _ io _ => (noio.none io).elim

/-- What `nat_statfs` reports is the number of free blocks of the data area, and as many can be allocated. -/
theorem statfs_exact {cx : Cx} (noio : cx.NoIoError) {s : Vol} (ok : MapOk s) (word : s.fs.geo.dataSize < 2 ^ 32) :
    wp (natStatfs cx) (fun r s' => r = .ok (s.fs.geo.dataSize, freeBlocks s) ∧ freeBlocks s ≤ s.fs.geo.dataSize ∧
      allocMap s' = allocMap s ∧ MapOk s' ∧ Leaves cx (freeBlocks s) s') s := by
  have le := freeBlocks_le s
  simp only [natStatfs, wp_bind, wp_get, after_ok]
  refine wp_mono (statfsFrom_counts noio s.fs.geo.bamSize ok.sync (zero_add _) (by decide)) ?_
  rintro r s' ⟨rfl, sync, geo, same⟩
  have ok' : MapOk s' := by
    refine ⟨sync, ?_⟩
    rw [geo]
    intro b lt out
    rw [same b lt]
    exact ok.outside b lt out
  have count : clear s' 0 (4096 * s'.fs.geo.bamSize) = freeBlocks s := by
    rw [← clear_all ok, geo]
    exact clear_congr fun b _ hi => same b (by omega)
  rw [mul_zero, clear_all ok, zero_add, mod_eq_of_lt (lt_of_le_of_lt le word), after_ok, wp_pure]
  exact ⟨rfl, le, allocMap_congr geo same, ok', leaves_of_clear noio ok' count⟩

/-- A map of one block, which is in memory and to be written, with five free blocks behind it. -/
def fiveVol : Vol :=
  { fullVol { sampleGeo with bamSize := 1, dataBlock := 3, dataSize := 5, rootBlock := 3 } with
    fs := { geo := { sampleGeo with bamSize := 1, dataBlock := 3, dataSize := 5, rootBlock := 3 }
            freeBlock := 3, bamBuf := fun k => if k = 0 then 7 else 0xff, bamCurr := 2, bamDirty := true } }

theorem fiveVol_ok : MapOk fiveVol := by
  have map : fiveVol.fs.geo.inBam fiveVol.fs.bamCurr := ⟨le_refl 2, by decide⟩
  refine ⟨⟨fun clean => (by cases clean), fun _ => map⟩, ?_⟩
  intro b lt out
  have lt : b < 4096 := lt
  have first : b / 4096 = 0 := by omega
  have here : fiveVol.fs.bamCurr = fiveVol.fs.geo.bamBlock + 0 := rfl
  rw [used, bamBlk, first, if_pos here, mod_eq_of_lt lt]
  have ones : ∀ j, j < 8 → BitVec.getLsbD (0xff : Byte) j = true := by decide
  have low : ∀ j, j < 3 → BitVec.getLsbD (7 : Byte) j = true := by decide
  show BitVec.getLsbD (if b / 8 = 0 then 7 else 0xff) (b % 8) = true
  by_cases head : b / 8 = 0
  · have small : b < 3 := by
      apply not_le.mp
      exact fun ge => out ⟨ge, show b < 3 + 5 by omega⟩
    rw [if_pos head, mod_eq_of_lt (by omega)]
    exact low b small
  · rw [if_neg head]
    exact ones _ (mod_lt _ (by decide))

theorem statfs_exact_five : (natStatfs sampleCx fiveVol).1 = .ok (5, 5) ∧
    Leaves sampleCx 5 (natStatfs sampleCx fiveVol).2 := by
  have five : freeBlocks fiveVol = 5 := by decide
  obtain ⟨counted, -, -, -, leaves⟩ := statfs_exact sampleCx_noio fiveVol_ok (by decide)
  rw [five] at counted leaves
  exact ⟨counted, leaves⟩

end Natfs.Statfs
