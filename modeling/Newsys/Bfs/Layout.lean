import Newsys.Bfs.Mkbfs

/- What the tool has written (cross/mkbfs.c): the files and directories of the tree, one behind the other. -/
namespace Mkbfs
open Bytes Cmds Cmd Bfs List

inductive Content where
  | file (data : List Byte)
  | dir (names : List (List Byte))

structure Rec where
  path : List Byte
  mode : Nat
  content : Content

def dirents (names : List (List Byte)) : List Byte := names.flatMap direntOf

def Rec.data (r : Rec) : List Byte :=
  match r.content with
  | .file data => data
  | .dir names => dirents names

@[simp] theorem data_file (path : List Byte) (mode : Nat) (data : List Byte) :
    Rec.data ⟨path, mode, .file data⟩ = data := rfl

@[simp] theorem data_dir (path : List Byte) (mode : Nat) (names : List (List Byte)) :
    Rec.data ⟨path, mode, .dir names⟩ = dirents names := rfl

def Rec.blocks (r : Rec) : Nat := (r.data.length + 511) / 512 + 1

mutual

def Node.recs (dpath : List Byte) : Node → List Rec
  | .reg mode data => [⟨dpath, modeOf false mode, .file data⟩]
  | .dir mode items => items.recs dpath ++ [⟨dpath, modeOf true mode, .dir items.names⟩]

def Items.recs (dpath : List Byte) : Items → List Rec
  | .nil => []
  | .dots _ rest => rest.recs dpath
  | .sub name node rest => node.recs (subPath dpath name) ++ rest.recs dpath

end

def blocksOf (rs : List Rec) : Nat := (rs.map Rec.blocks).sum

def view (offset : Nat) (dev : Mem) : Nat → Block.Blk := fun b k => dev ((offset + b) * 512 + k)

structure Stored (img : Nat → Block.Blk) (blk : Nat) (r : Rec) (next : Nat) : Prop where
  mode : headMode (img blk) = r.mode
  size : headSize (img blk) = r.data.length
  next : headNext (img blk) = next
  named : ∀ (past : Mem) (name : Vfs.CString), headNamed (img blk) past name ↔ name.val = r.path
  data : ∀ k < r.data.length, bytesOf (img (blk + 1 + k / 512)) zero (k % 512) = r.data.getD k 0

def Laid (img : Nat → Block.Blk) : Nat → List Rec → Prop
  | _, [] => True
  | blk, r :: rs => Stored img blk r (blk + r.blocks) ∧ Laid img (blk + r.blocks) rs

theorem bytesOf_view (inside : k < 512) :
    bytesOf (view offset dev blk) past k = dev ((offset + blk) * 512 + k) := by
  unfold bytesOf
  rw [dif_pos inside]
  rfl

theorem modeOf_lt (isDir : Bool) (mode : Nat) : modeOf isDir mode < 256 ^ 4 := by
  have bit : ∀ (p : Prop) [Decidable p] {m b : Nat}, m < 2 ^ 15 → b < 2 ^ 15 →
      (if p then m ||| b else m) < 2 ^ 15 := by
    intro p _ m b lt lt'
    split
    · exact Nat.or_lt_two_pow lt lt'
    · exact lt
  unfold modeOf
  have start : (if isDir then 0o30000 else 0 : Nat) < 2 ^ 15 := by cases isDir <;> decide
  have bound := bit (mode &&& 0o100 ≠ 0) (bit (mode &&& 0o200 ≠ 0) (bit (mode &&& 0o400 ≠ 0) start
    (b := 0o400) (by decide)) (b := 0o200) (by decide)) (b := 0o100) (by decide)
  exact lt_trans bound (by decide)

section Head
variable {name : List Byte} {mode size next : Nat}

theorem headOf_mode : getLE (headOf name mode size next) 0 4 = mode % 256 ^ 4 := getLE_setLE_same ..

theorem getLE_headOf (after' : 4 ≤ off) (before : off + 4 ≤ 12) :
    getLE (headOf name mode size next) off 4 = getLE (setLE (setLE zero 4 4 size) 8 4 next) off 4 := by
  unfold headOf
  dsimp only
  rw [getLE_setLE_ne _ _ _ _ _ _ (by omega)]
  apply getLE_congr
  intro k _ hi
  exact blit_outside _ _ _ _ (by omega)

theorem headOf_size : getLE (headOf name mode size next) 4 4 = size % 256 ^ 4 := by
  rw [getLE_headOf (by omega) (by omega), getLE_setLE_ne _ _ _ _ _ _ (by omega)]
  exact getLE_setLE_same ..

theorem headOf_next : getLE (headOf name mode size next) 8 4 = next % 256 ^ 4 := by
  rw [getLE_headOf (by omega) (by omega)]
  exact getLE_setLE_same ..

theorem headOf_name (k : Nat) : headOf name mode size next (12 + k) = name.getD k 0 := by
  unfold headOf
  rw [setLE_outside _ _ _ _ _ (by omega)]
  by_cases inside : k < name.length
  · rw [blit_inside _ _ _ _ (by omega) (by omega), Nat.add_sub_cancel_left]
  · rw [blit_outside _ _ _ _ (by omega), setLE_outside _ _ _ _ _ (by omega), setLE_outside _ _ _ _ _ (by omega),
      getD_eq_default _ _ (Nat.le_of_not_lt inside)]
    rfl

end Head

theorem headNamed_iff (short : path.length ≤ bfsPathMax) (noNul : (0 : Byte) ∉ path)
    (bytes : ∀ k, k ≤ bfsPathMax → bytesOf m zero (12 + k) = path.getD k 0) (past : Mem) (name : Vfs.CString) :
    headNamed m past name ↔ name.val = path := by
  have bytes' : ∀ k, k ≤ bfsPathMax → bytesOf m past (12 + k) = path.getD k 0 := by
    intro k le
    have inside : 12 + k < blkSize := by
      have max : bfsPathMax = 499 := rfl
      have size : blkSize = 512 := rfl
      omega
    rw [← bytes k le]
    unfold bytesOf
    rw [dif_pos inside, dif_pos inside]
  have nonzero : ∀ (l : List Byte) (k : Nat), (0 : Byte) ∉ l → k < l.length → l.getD k 0 ≠ 0 := by
    intro l k no lt eq
    rw [getD_eq_getElem _ _ lt] at eq
    exact no (eq ▸ getElem_mem lt)
  unfold headNamed
  constructor
  · rintro ⟨same, ends⟩
    have at' : ∀ k < name.val.length, bytesOf m past (12 + k) = name.val.getD k 0 := by
      intro k lt
      rw [← slice_getD (bytesOf m past) 12 name.val.length k lt, same]
    -- neither of the two names goes on where the other one ends
    have le : name.val.length ≤ path.length := by
      by_contra more
      have here := at' path.length (by omega)
      rw [bytes' path.length short, getD_eq_default _ _ (le_refl _)] at here
      exact nonzero _ _ name.property (by omega) here.symm
    have ge : path.length ≤ name.val.length := by
      by_contra more
      rw [bytes' name.val.length (by omega)] at ends
      exact nonzero _ _ noNul (by omega) ends
    have equal : name.val.length = path.length := le_antisymm le ge
    refine ext_getElem equal fun k lt lt' => ?_
    have here := at' k lt
    rw [bytes' k (by omega), getD_eq_getElem _ _ lt, getD_eq_getElem _ _ lt'] at here
    exact here.symm
  · intro equal
    rw [equal]
    constructor
    · refine ext_getElem (slice_length ..) fun k _ lt => ?_
      have here := slice_getD (bytesOf m past) 12 path.length k lt
      rw [bytes' k (by omega), getD_eq_getElem _ _ (by rw [slice_length]; exact lt),
        getD_eq_getElem _ _ lt] at here
      exact here
    · rw [bytes' path.length short, getD_eq_default _ _ (le_refl _)]

theorem stored_of_dev {next} (short : r.path.length ≤ bfsPathMax)
    (noNul : (0 : Byte) ∉ r.path) (mode : r.mode < 256 ^ 4) (size : r.data.length < 256 ^ 4) (small : next < 256 ^ 4)
    (head : ∀ k < 512, dev ((offset + blk) * 512 + k) = headOf r.path r.mode r.data.length next k)
    (data : ∀ k < r.data.length, dev ((offset + (blk + 1)) * 512 + k) = r.data.getD k 0) :
    Stored (view offset dev) blk r next := by
  have field : ∀ off, off + 4 ≤ 512 → getLE (bytesOf (view offset dev blk) zero) off 4 =
      getLE (headOf r.path r.mode r.data.length next) off 4 := by
    intro off inside
    apply getLE_congr
    intro k _ hi
    rw [bytesOf_view (by omega)]
    exact head k (by omega)
  refine ⟨?_, ?_, ?_, ?_, ?_⟩
  · exact (field 0 (by omega)).trans (headOf_mode.trans (Nat.mod_eq_of_lt mode))
  · exact (field 4 (by omega)).trans (headOf_size.trans (Nat.mod_eq_of_lt size))
  · exact (field 8 (by omega)).trans (headOf_next.trans (Nat.mod_eq_of_lt small))
  · refine headNamed_iff short noNul fun k le => ?_
    have inside : 12 + k < 512 := by
      have max : bfsPathMax = 499 := rfl
      omega
    rw [bytesOf_view inside, head _ inside, headOf_name]
  · intro k lt
    have place : (offset + (blk + 1 + k / 512)) * 512 + k % 512 = (offset + (blk + 1)) * 512 + k := by omega
    rw [bytesOf_view (Nat.mod_lt _ (by decide)), place]
    exact data k lt

theorem wrap_of_lt (lt : n < 2 ^ 32) : wrap n = n := Nat.mod_eq_of_lt lt

theorem nextOf_eq (sized : size + 511 < 2 ^ 32)
    (small : currBlk + ((size + 511) / 512 + 1) < 2 ^ 32) : nextOf currBlk size = currBlk + ((size + 511) / 512 + 1) := by
  unfold nextOf
  rw [wrap_of_lt sized, wrap_of_lt (by omega)]
  omega

theorem piece_length (data : List Byte) : (piece data).length = 512 := by
  simp only [piece, length_append, length_take, length_replicate]
  omega

theorem piece_getD (inside : k < 512) : (piece data).getD k 0 = data.getD k 0 := by
  unfold piece
  by_cases lt : k < data.length
  · have front : k < (data.take 512).length := by
      rw [length_take]
      omega
    rw [getD_append _ _ _ _ front]
    simp [getD, inside]
  · rw [getD_eq_default data _ (Nat.le_of_not_lt lt), getD_append_right _ _ _ _ (by
      rw [length_take]
      omega)]
    simp [getD]

theorem direntOf_length (name : List Byte) : (direntOf name).length = direntSize := by
  simp only [direntOf, length_append, length_take, length_replicate]
  omega

theorem dirents_length (names : List (List Byte)) : (dirents names).length = direntSize * names.length := by
  induction names with
  | nil => rfl
  | cons name names ih =>
    rw [dirents, flatMap_cons, length_append, direntOf_length, ← dirents, ih, length_cons,
      Nat.mul_succ, add_comm]

variable {offset : Nat} {o : Out} {spath dpath : List Byte} {mode : Nat}

theorem wp_addBlock (small : offset + o.currBlk < 2 ^ 23)
    (post : Q (.ok ()) ⟨blit o.dev ((offset + o.currBlk) * 512) data, (offset + o.currBlk) * 512 + 512,
      o.currBlk + 1⟩) : wp (addBlock offset data) Q o := by
  unfold addBlock
  rw [wp_modify, wrap_of_lt (by omega : offset + o.currBlk < 2 ^ 32),
    wrap_of_lt (by omega : (offset + o.currBlk) * 512 < 2 ^ 32), wrap_of_lt (by omega : o.currBlk + 1 < 2 ^ 32)]
  exact post

theorem wp_addBlocks (n : Nat) : ∀ {data : List Byte} {o : Out} {Q : Res Nat Unit → Out → Prop},
    offset + o.currBlk + n ≤ 2 ^ 23 →
    (∀ o', o'.currBlk = o.currBlk + n → (∀ p < (offset + o.currBlk) * 512, o'.dev p = o.dev p) →
      (∀ k < n * 512, o'.dev ((offset + o.currBlk) * 512 + k) = data.getD k 0) → Q (.ok ()) o') →
    wp (addBlocks offset n data) Q o := by
  induction n with
  | zero =>
    intro data o Q _ post
    exact post o rfl (fun _ _ => rfl) fun k lt => absurd lt (by omega)
  | succ n ih =>
    intro data o Q small post
    unfold addBlocks
    rw [wp_bind]
    apply wp_addBlock (by omega)
    rw [after_ok]
    apply ih
    · dsimp only
      omega
    · intro o' curr below bytes
      dsimp only at curr below bytes
      have length := piece_length data
      refine post o' (by omega) ?_ ?_
      · intro p lt
        have inside : p < (offset + (o.currBlk + 1)) * 512 := Nat.lt_of_lt_of_le lt (Nat.mul_le_mul_right _ (by omega))
        rw [below p inside, blit_outside _ _ _ _ (.inl lt)]
      · intro k lt
        by_cases first : k < 512
        · rw [below _ (by omega), blit_inside _ _ _ _ (by omega) (by omega), Nat.add_sub_cancel_left,
            piece_getD first]
        · have later := bytes (k - 512) (by omega)
          have place : (offset + (o.currBlk + 1)) * 512 + (k - 512) = (offset + o.currBlk) * 512 + k := by omega
          rw [place] at later
          rw [later]
          simp only [getD, getElem?_drop]
          rw [Nat.add_sub_cancel' (by omega : 512 ≤ k)]

theorem wp_writeDirents (names : List (List Byte)) : ∀ {o : Out} {Q : Res Nat Unit → Out → Prop},
    (∀ o', o'.currBlk = o.currBlk → (∀ p < o.pos, o'.dev p = o.dev p) →
      (∀ k < (dirents names).length, o'.dev (o.pos + k) = (dirents names).getD k 0) → Q (.ok ()) o') →
    wp (forEach names writeDirent) Q o := by
  induction names with
  | nil =>
    intro o Q post
    exact post o rfl (fun _ _ => rfl) fun k lt => absurd lt (by simp [dirents])
  | cons name names ih =>
    intro o Q post
    unfold forEach writeDirent
    rw [wp_bind, wp_modify, after_ok]
    apply ih
    intro o' curr below bytes
    dsimp only at curr below bytes
    have length := direntOf_length name
    have split : dirents (name :: names) = direntOf name ++ dirents names := flatMap_cons
    refine post o' curr ?_ ?_
    · intro p lt
      rw [below p (by omega), blit_outside _ _ _ _ (.inl lt)]
    · intro k lt
      rw [split] at lt ⊢
      by_cases first : k < (direntOf name).length
      · rw [below _ (by omega), blit_inside _ _ _ _ (by omega) (by omega), Nat.add_sub_cancel_left,
          getD_append _ _ _ _ first]
      · rw [length_append] at lt
        have later := bytes (k - direntSize) (by omega)
        have place : o.pos + direntSize + (k - direntSize) = o.pos + k := by omega
        rw [place] at later
        rw [later, getD_append_right _ _ _ _ (by omega), length]

/-- What a step has written: the records lie at the old position, and nothing in front of it has changed. -/
structure Writes (offset : Nat) (o o' : Out) (rs : List Rec) : Prop where
  curr : o'.currBlk = o.currBlk + blocksOf rs
  below : ∀ p < (offset + o.currBlk) * 512, o'.dev p = o.dev p
  laid : Laid (view offset o'.dev) o.currBlk rs

theorem Stored.congr {img img' : Nat → Block.Blk} {blk next : Nat} {r : Rec} (stored : Stored img blk r next)
    (same : ∀ b, blk ≤ b → b < blk + r.blocks → img' b = img b) : Stored img' blk r next := by
  have head : img' blk = img blk := same blk (le_refl _) (by unfold Rec.blocks; omega)
  refine ⟨?_, ?_, ?_, ?_, ?_⟩
  · rw [head]
    exact stored.mode
  · rw [head]
    exact stored.size
  · rw [head]
    exact stored.next
  · rw [head]
    exact stored.named
  · intro k lt
    rw [same _ (by omega) (by unfold Rec.blocks; omega)]
    exact stored.data k lt

theorem Laid.congr {img img' : Nat → Block.Blk} (rs : List Rec) : ∀ {blk : Nat}, Laid img blk rs →
    (∀ b, blk ≤ b → b < blk + blocksOf rs → img' b = img b) → Laid img' blk rs := by
  induction rs with
  | nil => exact fun _ _ => trivial
  | cons r rs ih =>
    rintro blk ⟨stored, laid⟩ same
    have total : blocksOf (r :: rs) = r.blocks + blocksOf rs := by simp [blocksOf]
    refine ⟨stored.congr fun b ge lt => same b ge (by omega), ih laid fun b ge lt => same b (by omega) (by omega)⟩

theorem Laid.append {img : Nat → Block.Blk} {rs' : List Rec} (rs : List Rec) : ∀ {blk : Nat}, Laid img blk rs →
    Laid img (blk + blocksOf rs) rs' → Laid img blk (rs ++ rs') := by
  induction rs with
  | nil => exact fun _ laid' => laid'
  | cons r rs ih =>
    rintro blk ⟨stored, laid⟩ laid'
    refine ⟨stored, ih laid ?_⟩
    have place : blk + r.blocks + blocksOf rs = blk + blocksOf (r :: rs) := by
      simp [blocksOf, add_assoc]
    rw [place]
    exact laid'

theorem Writes.refl : Writes offset o o [] := ⟨rfl, fun _ _ => rfl, trivial⟩

theorem view_below {o o' : Out} {b c : Nat} (below : ∀ p < (offset + c) * 512, o'.dev p = o.dev p) (lt : b < c) :
    view offset o'.dev b = view offset o.dev b := by
  funext k
  have inside := k.isLt
  exact below _ (by omega)

theorem Writes.trans {o o₁ o₂ : Out} {rs rs' : List Rec} (first : Writes offset o o₁ rs)
    (second : Writes offset o₁ o₂ rs') : Writes offset o o₂ (rs ++ rs') := by
  have curr := first.curr
  have later := second.laid
  rw [curr] at later
  have front : Laid (view offset o₂.dev) o.currBlk rs :=
    first.laid.congr rs fun b _ lt => view_below second.below (by omega)
  refine ⟨?_, ?_, front.append rs later⟩
  · rw [second.curr, curr, blocksOf, blocksOf, blocksOf, map_append, sum_append]
    omega
  · intro p lt
    have inside : p < (offset + o₁.currBlk) * 512 := Nat.lt_of_lt_of_le lt (Nat.mul_le_mul_right _ (by omega))
    rw [second.below p inside, first.below p lt]

theorem Writes.one (curr : o'.currBlk = o.currBlk + r.blocks)
    (below : ∀ p < (offset + o.currBlk) * 512, o'.dev p = o.dev p)
    (stored : Stored (view offset o'.dev) o.currBlk r (o.currBlk + r.blocks)) : Writes offset o o' [r] :=
  ⟨by rw [curr, blocksOf, map_singleton, sum_singleton], below, stored, trivial⟩

theorem header_bytes {o o' : Out} {hd : Mem} (below : ∀ p < (offset + (o.currBlk + 1)) * 512,
    o'.dev p = blit o.dev ((offset + o.currBlk) * 512) (slice hd 0 512) p) :
    (∀ p < (offset + o.currBlk) * 512, o'.dev p = o.dev p) ∧
      ∀ k < 512, o'.dev ((offset + o.currBlk) * 512 + k) = hd k := by
  constructor
  · intro p lt
    have inside : p < (offset + (o.currBlk + 1)) * 512 := Nat.lt_of_lt_of_le lt (Nat.mul_le_mul_right _ (by omega))
    rw [below p inside, blit_outside _ _ _ _ (.inl lt)]
  · intro k lt
    have inside : (offset + o.currBlk) * 512 + k < (offset + (o.currBlk + 1)) * 512 := by omega
    have length := slice_length hd 0 512
    rw [below _ inside, blit_inside _ _ _ _ (by omega) (by omega), Nat.add_sub_cancel_left, slice_getD _ _ _ _ lt,
      zero_add]

theorem writes_addReg {data : List Byte} (short : dpath.length ≤ bfsPathMax) (noNul : (0 : Byte) ∉ dpath)
    (small : offset + o.currBlk + ((data.length + 511) / 512 + 1) < 2 ^ 23) :
    wp (addReg offset dpath mode data)
      (fun r o' => r = .ok () ∧ Writes offset o o' [⟨dpath, modeOf false mode, .file data⟩]) o := by
  have sized : wrap data.length = data.length := wrap_of_lt (by omega)
  have next : nextOf o.currBlk data.length = o.currBlk + ((data.length + 511) / 512 + 1) :=
    nextOf_eq (by omega) (by omega)
  unfold addReg
  rw [wp_bind, wp_get, after_ok]
  dsimp only
  rw [sized, next, if_neg (by omega : ¬ bfsPathMax < dpath.length), wp_bind]
  apply wp_addBlock (by omega)
  rw [after_ok, wp_bind, wp_get, after_ok]
  dsimp only
  have rounds : o.currBlk + ((data.length + 511) / 512 + 1) - (o.currBlk + 1) = (data.length + 511) / 512 := by omega
  rw [rounds]
  apply wp_addBlocks
  · dsimp only
    omega
  · intro o' curr below bytes
    obtain ⟨front, head⟩ := header_bytes below
    refine ⟨rfl, .one ?_ front ?_⟩
    · rw [curr]
      simp only [Rec.blocks, data_file]
      omega
    · refine stored_of_dev short noNul (modeOf_lt ..) ?_ ?_ head ?_
      · rw [data_file]
        omega
      · simp only [Rec.blocks, data_file]
        omega
      · intro k lt
        rw [data_file] at lt
        exact bytes k (by omega)

theorem stored_closeDir {names : List (List Byte)} {last : Bool} (short : dpath.length ≤ bfsPathMax)
    (noNul : (0 : Byte) ∉ dpath) (small : offset + o.currBlk < 2 ^ 23)
    (sized : direntSize * names.length + 511 < 2 ^ 32) :
    wp (closeDir offset dpath mode names last) (fun r o' => r = .ok () ∧
      o'.currBlk = o.currBlk + ((direntSize * names.length + 511) / 512 + 1) ∧
      (∀ p < (offset + o.currBlk) * 512, o'.dev p = o.dev p) ∧
      Stored (view offset o'.dev) o.currBlk ⟨dpath, modeOf true mode, .dir names⟩
        (if last then 0 else o.currBlk + ((direntSize * names.length + 511) / 512 + 1))) o := by
  have size : wrap (direntSize * names.length) = direntSize * names.length := wrap_of_lt (by omega)
  have next : nextOf o.currBlk (direntSize * names.length) =
      o.currBlk + ((direntSize * names.length + 511) / 512 + 1) := nextOf_eq sized (by omega)
  unfold closeDir
  rw [wp_bind, wp_get, after_ok]
  dsimp only
  rw [size, next, if_neg (by omega : ¬ bfsPathMax < dpath.length), wp_bind]
  apply wp_addBlock small
  rw [after_ok, wp_bind, wp_modify, after_ok]
  apply wp_writeDirents
  intro o' curr below bytes
  dsimp only at curr below bytes
  have place : (offset + (o.currBlk + 1)) * 512 = (offset + o.currBlk) * 512 + 512 := by omega
  have below' := below
  rw [← place] at below' bytes
  obtain ⟨front, head⟩ := header_bytes below'
  refine ⟨rfl, curr, front, ?_⟩
  have length := dirents_length names
  rw [← length] at head sized ⊢
  refine stored_of_dev short noNul (modeOf_lt ..) ?_ ?_ head bytes
  · rw [data_dir]
    omega
  · split
    · decide
    · omega

mutual

def Node.Roomy (spath dpath : List Byte) : Node → Prop
  | .reg _ _ => True
  | .dir _ items => items.Roomy spath dpath

def Items.Roomy (spath dpath : List Byte) : Items → Prop
  | .nil => True
  | .dots _ rest => rest.Roomy spath dpath
  | .sub name node rest =>
    ((spath ++ slash :: name.val).length < pathMax ∧ (subPath dpath name).length ≤ bfsPathMax) ∧
      node.Roomy (spath ++ slash :: name.val) (subPath dpath name) ∧ rest.Roomy spath dpath

end

theorem subPath_noNul (noNul : (0 : Byte) ∉ dpath) (name : Name) : (0 : Byte) ∉ subPath dpath name := by
  unfold subPath
  split
  · exact name.property.2.1
  · intro mem
    rcases mem_append.mp mem with front | back
    · exact noNul front
    · rcases mem_cons.mp back with no | inside
      · cases no
      · exact name.property.2.1 inside

theorem blocksOf_append (rs rs' : List Rec) : blocksOf (rs ++ rs') = blocksOf rs + blocksOf rs' := by
  rw [blocksOf, map_append, sum_append]
  rfl

mutual

theorem writes_addNode (node : Node) {o : Out} {spath dpath : List Byte} (short : dpath.length ≤ bfsPathMax)
    (noNul : (0 : Byte) ∉ dpath) (roomy : node.Roomy spath dpath)
    (small : offset + o.currBlk + blocksOf (node.recs dpath) < 2 ^ 23) :
    wp (addNode offset spath dpath node) (fun r o' => r = .ok () ∧ Writes offset o o' (node.recs dpath)) o := by
  cases node with
  | reg mode data =>
    unfold addNode Node.recs
    refine writes_addReg short noNul ?_
    simpa [Node.recs, blocksOf, Rec.blocks] using small
  | dir mode items =>
    unfold Node.recs at small
    unfold Node.Roomy at roomy
    unfold addNode Node.recs
    rw [blocksOf_append] at small
    have blocks : blocksOf [⟨dpath, modeOf true mode, .dir items.names⟩] =
        (direntSize * items.names.length + 511) / 512 + 1 := by
      simp [blocksOf, Rec.blocks, dirents_length]
    rw [blocks] at small
    rw [wp_bind]
    refine wp_mono (writes_addItems items short noNul roomy (by omega)) ?_
    rintro r o₁ ⟨rfl, written⟩
    rw [after_ok]
    have curr := written.curr
    refine wp_mono (stored_closeDir short noNul (by omega) (by omega)) ?_
    rintro r o₂ ⟨rfl, curr', below, stored⟩
    refine ⟨rfl, written.trans (.one ?_ below ?_)⟩
    · rw [curr']
      simp only [Rec.blocks, data_dir, dirents_length]
    · simp only [Rec.blocks, data_dir, dirents_length]
      exact stored

theorem writes_addItems (items : Items) {o : Out} {spath dpath : List Byte} (short : dpath.length ≤ bfsPathMax)
    (noNul : (0 : Byte) ∉ dpath) (roomy : items.Roomy spath dpath)
    (small : offset + o.currBlk + blocksOf (items.recs dpath) < 2 ^ 23) :
    wp (addItems offset spath dpath items) (fun r o' => r = .ok () ∧ Writes offset o o' (items.recs dpath)) o := by
  cases items with
  | nil =>
    unfold addItems Items.recs
    exact ⟨rfl, .refl⟩
  | dots parent rest =>
    unfold Items.recs at small
    unfold Items.Roomy at roomy
    unfold addItems Items.recs
    exact writes_addItems rest short noNul roomy small
  | sub name node rest =>
    unfold Items.recs at small
    unfold Items.Roomy at roomy
    unfold addItems Items.recs
    rw [blocksOf_append] at small
    obtain ⟨⟨room, short'⟩, roomy, roomy'⟩ := roomy
    rw [if_neg (not_le.mpr room), if_neg (not_lt.mpr short'), wp_bind]
    refine wp_mono (writes_addNode node short' (subPath_noNul noNul name) roomy (by omega)) ?_
    rintro r o₁ ⟨rfl, written⟩
    rw [after_ok]
    have curr := written.curr
    refine wp_mono (writes_addItems rest short noNul roomy' (by omega)) ?_
    rintro r o₂ ⟨rfl, written'⟩
    exact ⟨rfl, written.trans written'⟩

end

theorem subPath_eq (dpath : List Byte) (name : Name) :
    subPath dpath name = (if dpath = [] then [] else dpath ++ [slash]) ++ name.val := by
  unfold subPath
  split
  · rfl
  · rw [append_assoc]
    rfl

def Under (dpath p : List Byte) : Prop := p = dpath ∨ ∃ rest, p = dpath ++ slash :: rest

theorem Under.trans {name : Name} {p : List Byte} (below : Under (subPath dpath name) p) (some : dpath ≠ []) :
    Under dpath p := by
  right
  rw [subPath_eq, if_neg some] at below
  rcases below with rfl | ⟨rest, rfl⟩
  · exact ⟨name.val, by simp⟩
  · exact ⟨name.val ++ slash :: rest, by simp⟩

theorem Under.ne (below : Under (subPath dpath name) p) : p ≠ dpath := by
  intro same
  have long : dpath.length < (subPath dpath name).length := by
    have some := length_pos_iff.mpr name.property.1
    unfold subPath
    split
    · rename_i root
      rw [root]
      exact some
    · simp
  have le : (subPath dpath name).length ≤ p.length := by
    rcases below with rfl | ⟨rest, rfl⟩ <;> simp
  rw [same] at le
  omega

theorem takeWhile_name (name : Name) (stop : rest = [] ∨ ∃ more, rest = slash :: more) :
    (name.val ++ rest).takeWhile (· ≠ slash) = name.val := by
  have all : ∀ x ∈ name.val, (decide (x ≠ slash)) = true := by
    intro x mem
    exact decide_eq_true fun eq => name.property.2.2 (eq ▸ mem)
  rw [takeWhile_append_of_pos all]
  rcases stop with rfl | ⟨more, rfl⟩ <;> simp

theorem Under.name_eq {name name' : Name} {p : List Byte} (below : Under (subPath dpath name) p)
    (below' : Under (subPath dpath name') p) : name = name' := by
  have form : ∀ {n : Name}, Under (subPath dpath n) p → ∃ rest, (rest = [] ∨ ∃ more, rest = slash :: more) ∧
      p = (if dpath = [] then [] else dpath ++ [slash]) ++ (n.val ++ rest) := by
    intro n under
    rw [subPath_eq] at under
    rcases under with eq | ⟨more, eq⟩
    · exact ⟨[], .inl rfl, by rw [eq, append_nil]⟩
    · exact ⟨slash :: more, .inr ⟨more, rfl⟩, by rw [eq, append_assoc]⟩
  obtain ⟨rest, stop, eq⟩ := form below
  obtain ⟨rest', stop', eq'⟩ := form below'
  have same := append_cancel_left (eq.symm.trans eq')
  apply Subtype.ext
  rw [← takeWhile_name name stop, same, takeWhile_name name' stop']

mutual

/-- A host has no two entries of one name in a directory. -/
def Node.Wf : Node → Prop
  | .reg _ _ => True
  | .dir _ items => items.names.Nodup ∧ items.Wf

def Items.Wf : Items → Prop
  | .nil => True
  | .dots _ rest => rest.Wf
  | .sub _ node rest => node.Wf ∧ rest.Wf

end

mutual

theorem under_recs (node : Node) {dpath : List Byte} (some : dpath ≠ []) :
    ∀ r ∈ node.recs dpath, Under dpath r.path := by
  cases node with
  | reg mode data =>
    unfold Node.recs
    intro r mem
    rw [mem_singleton.mp mem]
    exact .inl rfl
  | dir mode items =>
    unfold Node.recs
    intro r mem
    rcases mem_append.mp mem with inside | self
    · obtain ⟨name, _, below⟩ := under_entries items r inside
      exact below.trans some
    · rw [mem_singleton.mp self]
      exact .inl rfl

theorem under_entries (items : Items) {dpath : List Byte} :
    ∀ r ∈ items.recs dpath, ∃ name : Name, name.val ∈ items.names ∧ Under (subPath dpath name) r.path := by
  cases items with
  | nil =>
    unfold Items.recs
    exact fun r mem => absurd mem not_mem_nil
  | dots parent rest =>
    unfold Items.recs Items.names
    intro r mem
    obtain ⟨name, inside, below⟩ := under_entries rest r mem
    exact ⟨name, mem_cons_of_mem _ inside, below⟩
  | sub name node rest =>
    unfold Items.recs Items.names
    intro r mem
    rcases mem_append.mp mem with here | there
    · have some : subPath dpath name ≠ [] := by
        unfold subPath
        split
        · exact name.property.1
        · simp
      exact ⟨name, mem_cons_self .., under_recs node some r here⟩
    · obtain ⟨name', inside, below⟩ := under_entries rest r there
      exact ⟨name', mem_cons_of_mem _ inside, below⟩

end

mutual

theorem nodup_recs (node : Node) {dpath : List Byte} (wf : node.Wf) : ((node.recs dpath).map Rec.path).Nodup := by
  cases node with
  | reg mode data =>
    unfold Node.recs
    exact nodup_singleton _
  | dir mode items =>
    unfold Node.Wf at wf
    unfold Node.recs
    rw [map_append]
    refine List.Nodup.append (nodup_entries items wf.1 wf.2) (nodup_singleton _) ?_
    intro p inside self
    obtain ⟨r, mem, rfl⟩ := mem_map.mp inside
    obtain ⟨name, _, below⟩ := under_entries items r mem
    exact below.ne (mem_singleton.mp self)

theorem nodup_entries (items : Items) {dpath : List Byte} (nodup : items.names.Nodup) (wf : items.Wf) :
    ((items.recs dpath).map Rec.path).Nodup := by
  cases items with
  | nil =>
    unfold Items.recs
    exact nodup_nil
  | dots parent rest =>
    unfold Items.names at nodup
    unfold Items.Wf at wf
    unfold Items.recs
    exact nodup_entries rest (nodup_cons.mp nodup).2 wf
  | sub name node rest =>
    unfold Items.names at nodup
    unfold Items.Wf at wf
    unfold Items.recs
    obtain ⟨fresh, nodup⟩ := nodup_cons.mp nodup
    rw [map_append]
    refine List.Nodup.append (nodup_recs node wf.1) (nodup_entries rest nodup wf.2) ?_
    intro p here there
    obtain ⟨r, mem, rfl⟩ := mem_map.mp here
    obtain ⟨r', mem', same⟩ := mem_map.mp there
    have some : subPath dpath name ≠ [] := by
      unfold subPath
      split
      · exact name.property.1
      · simp
    obtain ⟨name', inside, below'⟩ := under_entries rest r' mem'
    rw [same] at below'
    have eq := (under_recs node some r mem).name_eq below'
    rw [eq] at fresh
    exact fresh inside

end

def treeRecs (mode : Nat) (items : Items) : List Rec := items.recs [] ++ [⟨[], modeOf true mode, .dir items.names⟩]

def Small (offset : Nat) (items : Items) : Prop :=
  offset + firstBlk + blocksOf (items.recs []) < 2 ^ 23 ∧ direntSize * items.names.length + 511 < 2 ^ 32

def OkOnly (P : Prop) : Res Nat Unit → Out → Prop
  | .ok _, _ => P
  | .err _, _ => False
  | .crash, _ => True

theorem OkOnly.bind {m : MkM Unit} {f : Unit → MkM Unit} {P P' : Prop} (first : wp m (OkOnly P) o)
    (next : ∀ o', P → wp (f ()) (OkOnly P') o') : wp (m >>= f) (OkOnly P') o := by
  rw [wp_bind]
  refine wp_mono first ?_
  rintro (u | e | _) o' holds
  · exact next o' holds
  · exact holds.elim
  · trivial

theorem OkOnly.mono {P P' : Prop} {m : MkM Unit} (all : wp m (OkOnly P) o) (imp : P → P') : wp m (OkOnly P') o := by
  refine wp_mono all ?_
  rintro (u | e | _) o' holds
  · exact imp holds
  · exact holds.elim
  · trivial

theorem ok_addBlocks (n : Nat) : ∀ (data : List Byte) (o : Out), wp (addBlocks offset n data) (OkOnly True) o := by
  induction n with
  | zero => exact fun _ _ => trivial
  | succ n ih => exact fun data o => ih _ _

theorem ok_writeDirents (names : List (List Byte)) : ∀ o : Out, wp (forEach names writeDirent) (OkOnly True) o := by
  induction names with
  | nil => exact fun _ => trivial
  | cons name names ih => exact fun o => ih _

theorem ok_addReg (o : Out) : wp (addReg offset dpath mode data) (OkOnly True) o := by
  unfold addReg
  rw [wp_bind, wp_get, after_ok]
  dsimp only
  split
  · trivial
  · exact ok_addBlocks _ _ _

theorem ok_closeDir {names : List (List Byte)} {last : Bool} (o : Out) :
    wp (closeDir offset dpath mode names last) (OkOnly True) o := by
  unfold closeDir
  rw [wp_bind, wp_get, after_ok]
  dsimp only
  split
  · trivial
  · exact ok_writeDirents _ _

mutual

theorem ok_addNode (node : Node) {spath dpath : List Byte} (o : Out) :
    wp (addNode offset spath dpath node) (OkOnly (node.Roomy spath dpath)) o := by
  cases node with
  | reg mode data =>
    unfold addNode Node.Roomy
    exact ok_addReg o
  | dir mode items =>
    unfold addNode Node.Roomy
    exact OkOnly.bind (ok_addItems items o) fun o' roomy => OkOnly.mono (ok_closeDir o') fun _ => roomy

theorem ok_addItems (items : Items) {spath dpath : List Byte} (o : Out) :
    wp (addItems offset spath dpath items) (OkOnly (items.Roomy spath dpath)) o := by
  cases items with
  | nil =>
    unfold addItems Items.Roomy
    trivial
  | dots parent rest =>
    unfold addItems Items.Roomy
    exact ok_addItems rest o
  | sub name node rest =>
    unfold addItems Items.Roomy
    split
    · trivial
    split
    · trivial
    · rename_i room short
      refine OkOnly.bind (ok_addNode node o) fun o' roomy => ?_
      refine OkOnly.mono (ok_addItems rest o') fun roomy' => ?_
      exact ⟨⟨Nat.lt_of_not_le room, Nat.le_of_not_lt short⟩, roomy, roomy'⟩

end

end Mkbfs
