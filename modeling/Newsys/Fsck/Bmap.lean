import Newsys.Natfs.Fso
import Newsys.Fsck.Super

/- The checker's own walk of a block map (`bmap` in cmd/sbin/fsck.c) against the kernel's. The
   checker selects the entry of an indirect block by the digits of that block's number, where
   the kernel uses the digits of the logical block number. -/
namespace Fsck
open Bytes Cmds Natfs

/-- The loop of `bmap`, with `shift` equal to seven times the levels still below. -/
def bmapWalk : Nat → Nat → FsckM Nat
  | 0, bn => pure bn
  | lev + 1, bn =>
    if bn = 0 then pure 0 else do
      let b ← readBlk bn
      bmapWalk lev (imap b (digit lev bn))

def bmap (hd : Mem) (log : Nat) : FsckM Nat :=
  if log < hdNdirblks hd then
    if 114 ≤ log then Cmd.fail 255 else pure (hdBmap hd log)
  else
    let i := (hdNdirblks hd + log >>> (7 * hdNindirlev hd)) % 2 ^ 32
    if 114 ≤ i then Cmd.fail 255 else bmapWalk (hdNindirlev hd) (hdBmap hd i)

def ownLeaf (img : Image) : Nat → Nat → Nat
  | 0, bn => bn
  | lev + 1, bn => if bn = 0 then 0 else ownLeaf img lev (imap (img (seek bn)) (digit lev bn))

theorem bmapWalk_eq (lev bn : Nat) (t : State) : bmapWalk lev bn t = (.ok (ownLeaf t.img lev bn), t) := by
  induction lev generalizing bn with
  | zero => rfl
  | succ lev ih =>
    simp only [bmapWalk, ownLeaf]
    split
    · rfl
    · exact ih _

/-- Kernel and checker translate `log` alike, whatever the indirect blocks contain. -/
def BmapAgrees (hd : Mem) (log : Nat) : Prop :=
  ∀ (cx : Cx) (s : Vol) (i : Nat) (t : State), cx.NoIoError → s.fso i = loadFso s.fs.geo hd →
    t.img = s.dev → (natBmap cx i log false s).1 = .ok () →
    (bmap hd log t).1 = .ok ((natBmap cx i log false s).2.fso i).bmapPhys

def topEntry (hd : Mem) (log : Nat) : Nat :=
  hdBmap hd (bmapSlot (hdNdirblks hd) (hdNindirlev hd) log)

theorem fileBlock_loaded (dev : Image) (geo : Geo) (hd : Mem) (log : Nat) :
    fileBlock dev (loadFso geo hd) log = if log < hdNdirblks hd then hdBmap hd log
      else mapLeaf dev (hdNindirlev hd) (topEntry hd log) log := rfl

variable {hd : Mem}

theorem natBmap_loaded (noio : cx.NoIoError) (fresh : s.fso i = loadFso s.fs.geo hd) (log : Nat) :
    (bmapSlot (hdNdirblks hd) (hdNindirlev hd) log < 114 ∧ (natBmap cx i log false s).1 = .ok () ∧
      ((natBmap cx i log false s).2.fso i).bmapPhys = fileBlock s.dev (loadFso s.fs.geo hd) log) ∨
    (114 ≤ bmapSlot (hdNdirblks hd) (hdNindirlev hd) log ∧ (natBmap cx i log false s).1 = .err .EFBIG) := by
  have cache : CacheOk s i := by
    intro valid
    rw [fresh] at valid
    exact Bool.noConfusion valid
  show Cmd.wp (natBmap cx i log false) (fun r s' =>
    (bmapSlot (hdNdirblks hd) (hdNindirlev hd) log < 114 ∧ r = .ok () ∧
      (s'.fso i).bmapPhys = fileBlock s.dev (loadFso s.fs.geo hd) log) ∨
    (114 ≤ bmapSlot (hdNdirblks hd) (hdNindirlev hd) log ∧ r = .err .EFBIG)) s
  apply wp_natBmap_lookup cache
  · intro slot s' looked
    rw [fresh] at slot looked
    exact .inl ⟨slot, rfl, by rw [looked.self]⟩
  · intro slot
    rw [fresh] at slot
    exact .inr ⟨slot, rfl⟩
  · exact fun e t io => absurd io noio.none

variable {log : Nat}

theorem bmap_accepted (t : State) (slot : bmapSlot (hdNdirblks hd) (hdNindirlev hd) log < 114) :
    (bmap hd log t).1 = .ok (if log < hdNdirblks hd then hdBmap hd log
      else ownLeaf t.img (hdNindirlev hd) (topEntry hd log)) := by
  simp only [bmap]
  by_cases direct : log < hdNdirblks hd
  · simp only [bmapSlot, direct, if_true] at slot
    rw [if_pos direct, if_pos direct, if_neg (by omega)]
    rfl
  · simp only [bmapSlot, direct, if_false] at slot
    rw [if_neg direct, if_neg direct, if_neg (by omega), bmapWalk_eq]
    simp only [topEntry, bmapSlot, direct, if_false]

def WalksAgree (lev log bn : Nat) : Prop := ∀ dev, ownLeaf dev lev bn = mapLeaf dev lev bn log

theorem bmapAgrees_iff_walks (slot : bmapSlot (hdNdirblks hd) (hdNindirlev hd) log < 114) :
    BmapAgrees hd log ↔ log < hdNdirblks hd ∨ WalksAgree (hdNindirlev hd) log (topEntry hd log) := by
  constructor
  · intro agrees
    by_cases direct : log < hdNdirblks hd
    · exact .inl direct
    · right
      intro dev
      let cx : Cx := ⟨fun _ => none, fun _ => none, fun _ => 0, 0, 0⟩
      let s : Vol := { freshVol dev false false false with
        fso := fun _ => loadFso (freshVol dev false false false).fs.geo hd }
      have noio : cx.NoIoError := fun _ => rfl
      have fresh : s.fso 0 = loadFso s.fs.geo hd := rfl
      rcases natBmap_loaded noio fresh log with ⟨_, ok, phys⟩ | ⟨big, _⟩
      · have same := agrees cx s 0 ⟨dev, zero, zero, [], []⟩ noio fresh rfl ok
        rw [bmap_accepted _ slot, phys, fileBlock_loaded, if_neg direct, if_neg direct] at same
        exact Res.ok.inj same
      · omega
  · rintro same cx s i t noio fresh img ok
    rcases natBmap_loaded noio fresh log with ⟨_, _, phys⟩ | ⟨big, _⟩
    · rw [bmap_accepted _ slot, phys, fileBlock_loaded]
      by_cases direct : log < hdNdirblks hd
      · rw [if_pos direct, if_pos direct]
      · rw [if_neg direct, if_neg direct, img]
        rcases same with yes | walks
        · exact absurd yes direct
        · rw [walks s.dev]
    · omega

/- Devices on which the walks part -/

def constBlock (v : Nat) : Mem := fun k => BitVec.ofNat 8 (v / 256 ^ (k % 4))

theorem imap_constBlock (v d : Nat) (small : v < 2 ^ 32) : imap (constBlock v) d = v := by
  have bytes : getLE (constBlock v) (4 * d) 4 = getLE (setLE zero (4 * d) 4 v) (4 * d) 4 := by
    apply getLE_congr
    intro k lo hi
    simp only [constBlock, setLE]
    rw [if_pos (by omega), show k - 4 * d = k % 4 by omega]
  rw [imap, bytes, getLE_setLE_same]
  exact Nat.mod_eq_of_lt small

def holeBlock (v d : Nat) : Mem := setLE (constBlock v) (4 * d) 4 0

theorem imap_holeBlock_same (v d : Nat) : imap (holeBlock v d) d = 0 := by
  rw [imap, holeBlock, getLE_setLE_same]
  rfl

theorem imap_holeBlock_ne (v : Nat) (small : v < 2 ^ 32) (ne : k ≠ d) : imap (holeBlock v d) k = v := by
  rw [imap, holeBlock, getLE_setLE_ne _ _ _ _ _ _ (by omega)]
  exact imap_constBlock v k small

theorem ownLeaf_stays (pos : v ≠ 0)
    (block : ∀ d, imap (dev (seek v)) d = v) (lev : Nat) : ownLeaf dev lev v = v := by
  induction lev with
  | zero => rfl
  | succ lev ih => simp only [ownLeaf, pos, if_false, block, ih]

variable {lev bn : Nat}

theorem ownLeaf_parts (pos : bn ≠ 0) (posv : v ≠ 0)
    (entry : imap (dev (seek bn)) (digit lev bn) = v) (block : ∀ d, imap (dev (seek v)) d = v) :
    ownLeaf dev (lev + 1) bn = v := by
  simp only [ownLeaf, pos, if_false, entry]
  exact ownLeaf_stays posv block lev

theorem exists_avoiding (a b : Nat) : ∃ v, 0 < v ∧ v < 4 ∧ v ≠ a ∧ v ≠ b := by
  by_cases one : 1 ≠ a ∧ 1 ≠ b
  · exact ⟨1, by omega, by omega, one.1, one.2⟩
  · by_cases two : 2 ≠ a ∧ 2 ≠ b
    · exact ⟨2, by omega, by omega, two.1, two.2⟩
    · exact ⟨3, by omega, by omega, by omega, by omega⟩

theorem walks_part_far (bound : bn < 2 ^ 32) (far : 2 ^ 23 ≤ bn) : ¬ WalksAgree (lev + 1) log bn := by
  intro agree
  have same := agree fun n => if n = bn then constBlock 0 else constBlock 1
  have moved : seek bn ≠ bn := by simp only [seek]; omega
  rw [ownLeaf_parts (v := 1) (by omega) (by omega)
    (by rw [if_neg moved]; exact imap_constBlock _ _ (by omega))
    (by intro d; rw [if_neg (by simp only [seek]; omega)]; exact imap_constBlock _ _ (by omega)),
    mapLeaf, Radix.leaf_succ (by omega), if_pos rfl, imap_constBlock _ _ (by omega), Radix.leaf_zero] at same
  omega

theorem walks_part_here (pos : bn ≠ 0) (near : bn < 2 ^ 23)
    (differ : digit lev bn ≠ digit lev log) : ¬ WalksAgree (lev + 1) log bn := by
  intro agree
  obtain ⟨v, vpos, vsmall, vne, _⟩ := exists_avoiding bn bn
  have same := agree fun n => if n = bn then holeBlock v (digit lev log) else constBlock v
  have home : seek bn = bn := by simp only [seek]; omega
  have homev : seek v = v := by simp only [seek]; omega
  rw [ownLeaf_parts (v := v) pos (by omega)
    (by rw [home, if_pos rfl]; exact imap_holeBlock_ne _ (by omega) differ)
    (by intro d; rw [homev, if_neg vne]; exact imap_constBlock _ _ (by omega)),
    mapLeaf, Radix.leaf_succ pos, if_pos rfl, ← digit_eq, imap_holeBlock_same, Radix.leaf_zero] at same
  omega

theorem walks_part_below (deep : lev ≤ 2) (pos : bn ≠ 0) (near : bn < 2 ^ 23) : ¬ WalksAgree (lev + 2) log bn := by
  intro agree
  have powPos : 0 < 128 ^ lev := Nat.pow_pos (by decide)
  have powLe : 128 ^ lev ≤ 128 ^ 2 := Nat.pow_le_pow_right (by decide) deep
  obtain ⟨e, epos, esmall, edigit, eblock⟩ := exists_avoiding (digit lev log) (bn / 128 ^ lev)
  -- the next block on the path has digit `e` where `log` has another one
  let w := e * 128 ^ lev
  have wpos : w ≠ 0 := by
    have := Nat.mul_le_mul_right (128 ^ lev) epos
    simp only [w]; omega
  have wsmall : w < 2 ^ 23 := by
    have := Nat.mul_le_mul (show e ≤ 3 by omega) powLe
    simp only [w]; omega
  have wdigit : digit lev w = e := by
    rw [digit_eq, Nat.mul_div_cancel _ powPos, Nat.mod_eq_of_lt (by omega)]
  have wne : w ≠ bn := by
    intro eq
    exact eblock (by rw [← eq, Nat.mul_div_cancel _ powPos])
  obtain ⟨v, vpos, vsmall, vne, vnw⟩ := exists_avoiding bn w
  have same := agree fun n => if n = bn then constBlock w else
    if n = w then holeBlock v (digit lev log) else constBlock v
  have home : seek bn = bn := by simp only [seek]; omega
  have homew : seek w = w := by simp only [seek]; omega
  have homev : seek v = v := by simp only [seek]; omega
  have own : ownLeaf (fun n => if n = bn then constBlock w else
      if n = w then holeBlock v (digit lev log) else constBlock v) (lev + 2) bn = v := by
    rw [ownLeaf, if_neg pos, home, if_pos rfl, imap_constBlock _ _ (by omega)]
    refine ownLeaf_parts wpos (by omega) ?_ ?_
    · rw [homew, if_neg wne, if_pos rfl]
      exact imap_holeBlock_ne _ (by omega) (by rw [wdigit]; exact edigit)
    · intro d
      rw [homev, if_neg vne, if_neg vnw]
      exact imap_constBlock _ _ (by omega)
  rw [own, mapLeaf, Radix.leaf_succ pos, if_pos rfl, imap_constBlock _ _ (by omega),
    Radix.leaf_succ wpos, if_neg wne, if_pos rfl, ← digit_eq, imap_holeBlock_same, Radix.leaf_zero] at same
  omega

theorem walksAgree_iff (levels : 1 ≤ lev ∧ lev ≤ 4) (bound : bn < 2 ^ 32) : WalksAgree lev log bn ↔
      bn = 0 ∨ (lev = 1 ∧ bn < 2 ^ 23 ∧ bn % 128 = log % 128) := by
  obtain ⟨lev, rfl⟩ : ∃ k, lev = k + 1 := ⟨lev - 1, by omega⟩
  constructor
  · intro agree
    by_cases pos : bn = 0
    · exact .inl pos
    · right
      have near : bn < 2 ^ 23 := by
        apply Classical.byContradiction
        intro far
        exact walks_part_far bound (by omega) agree
      cases lev with
      | zero =>
        have alike : digit 0 bn = digit 0 log := by
          apply Classical.byContradiction
          intro differ
          exact walks_part_here pos near differ agree
        exact ⟨rfl, near, by simpa [digit_eq] using alike⟩
      | succ lev => exact absurd agree (walks_part_below (by omega) pos near)
  · rintro (hole | ⟨one, near, low⟩) dev
    · simp [hole, ownLeaf, mapLeaf]
    · obtain rfl : lev = 0 := by omega
      have home : seek bn = bn := by simp only [seek]; omega
      by_cases pos : bn = 0
      · simp [pos, ownLeaf, mapLeaf]
      · rw [ownLeaf, if_neg pos, mapLeaf, Radix.leaf_succ pos, home]
        simp only [ownLeaf, Radix.leaf, digit_eq, pow_zero, Nat.div_one, low]

/-- Kernel and checker find the same block on every device exactly for direct blocks, for
    numbers the kernel refuses, below an empty entry, and below a single indirect block whose
    own number happens to end in the digits of `log`. -/
theorem bmap_agrees_iff {hd : Mem} {log : Nat}
    (levels : 1 ≤ hdNindirlev hd ∧ hdNindirlev hd ≤ 4) :
    BmapAgrees hd log ↔
      log < hdNdirblks hd ∨ 114 ≤ bmapSlot (hdNdirblks hd) (hdNindirlev hd) log ∨
      topEntry hd log = 0 ∨
      (hdNindirlev hd = 1 ∧ topEntry hd log < 2 ^ 23 ∧ topEntry hd log % 128 = log % 128) := by
  have bound : topEntry hd log < 2 ^ 32 := getLE_lt _ _ 4
  by_cases slot : bmapSlot (hdNdirblks hd) (hdNindirlev hd) log < 114
  · rw [bmapAgrees_iff_walks slot, walksAgree_iff levels bound]
    constructor
    · rintro (direct | walks)
      · exact .inl direct
      · exact .inr (.inr walks)
    · rintro (direct | big | walks)
      · exact .inl direct
      · omega
      · exact .inr walks
  · constructor
    · intro _
      exact .inr (.inl (by omega))
    · intro _ cx s i t noio fresh _ ok
      rcases natBmap_loaded noio fresh log with ⟨small, _⟩ | ⟨_, refused⟩
      · exact absurd small slot
      · rw [refused] at ok
        cases ok

/-- A header as `nat_creat` lays it out, with the block map entry for block 110 set. -/
def sampleHeader : Mem := setLE (setLE (setLE zero 52 1 110) 53 1 3) (56 + 4 * 110) 4 200

/-- One level, and the map block of block 110 has a number that ends in its digits. -/
theorem bmap_agrees_indirect : BmapAgrees (setLE (setLE (setLE zero 52 1 110) 53 1 1) (56 + 4 * 110) 4 238) 110 :=
  (bmap_agrees_iff (by decide)).mpr (.inr (.inr (.inr (by decide))))

def sampleDevice : Image := fun n =>
  if n = 200 then setLE zero 0 4 201
  else if n = 201 then setLE zero 0 4 202
  else if n = 202 then setLE zero 440 4 203
  else zero

/-- The kernel finds block 203 there; the checker looks at entry 1 of block 201 and finds a
    hole. -/
theorem bmap_disagrees_indirect : ¬ ∀ hd log, hdNdirblks hd ≤ 114 → 1 ≤ hdNindirlev hd →
    hdNindirlev hd ≤ 4 → log < 2 ^ 32 → BmapAgrees hd log := by
  intro all
  let cx : Cx := ⟨fun _ => none, fun _ => none, fun _ => 0, 0, 0⟩
  let s : Vol := { freshVol sampleDevice false false false with
    fso := fun _ => loadFso (freshVol sampleDevice false false false).fs.geo sampleHeader }
  have same := all sampleHeader 110 (by decide) (by decide) (by decide) (by decide) cx s 0
    ⟨sampleDevice, zero, zero, [], []⟩ (fun _ => rfl) rfl rfl (by decide)
  have kernel : ((natBmap cx 0 110 false s).2.fso 0).bmapPhys = 203 := by decide
  have checker : (bmap sampleHeader 110 ⟨sampleDevice, zero, zero, [], []⟩).1 = .ok 0 := by decide
  rw [kernel, checker] at same
  cases same

end Fsck
