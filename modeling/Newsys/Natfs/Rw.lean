import Newsys.Natfs.Trunc
import Newsys.Lib.Sparse

/- Reading and writing regular files (kern/fs/nat/rw.c). Offsets and counts are unsigned 64-bit
   numbers: the source's checks for negative ones are never true, and sums wrap around. -/
namespace Natfs
open Bytes Cmds Cmd Sparse List

/-- The part of the rest of a request that lies in the block of `off`. -/
def chunkLen (off count : Nat) : Nat := if 512 - off % 512 < count then 512 - off % 512 else count

/-- The loop of `nat_read`; every round takes at least one byte, so `count` rounds are enough. -/
def natReadFrom (cx : Cx) (i : Nat) : Nat → Nat → Nat → NatM (List Byte)
  | 0, _, _ => pure []
  | fuel + 1, off, count =>
    if count = 0 then pure [] else do
      let l := chunkLen off count
      natBmap cx i (off / 512 % 2 ^ 32) false
      let s ← get
      let chunk ← if (s.fso i).bmapPhys = 0 then pure (replicate l 0) else do
        let b ← blkRead cx (s.fso i).bmapPhys
        pure (slice b (off % 512) l)
      let rest ← natReadFrom cx i fuel ((off + l) % 2 ^ 64) (count - l)
      pure (chunk ++ rest)

def natRead (cx : Cx) (i offset count : Nat) : NatM (List Byte) := do
  fsChkPerm cx i rOk
  let s ← get
  let f := s.fso i
  if sIsdir f.mode then fail .EISDIR
  else if !sIsreg f.mode then fail .EINVAL
  else if f.size < offset then pure []
  else
    let count := if f.size < (offset + count) % 2 ^ 64 then f.size - offset else count
    if !s.fs.geo.readOnly && !s.fs.geo.noAtime then
      let now ← clockTime cx
      modifyFso i fun f => { f with atime := now, dirty := true }
    else pure ()
    natReadFrom cx i count offset count

def natWriteFrom (cx : Cx) (i : Nat) : Nat → Nat → List Byte → NatM Unit
  | 0, _, _ => pure ()
  | fuel + 1, off, data =>
    if data = [] then pure () else do
      let l := chunkLen off data.length
      natBmap cx i (off / 512 % 2 ^ 32) true
      let s ← get
      let phys := (s.fso i).bmapPhys
      if phys = 0 then crash else
        if (s.fso i).size < (off + l) % 2 ^ 64 then
          modifyFso i fun f => { f with size := (off + l) % 2 ^ 64, dirty := true }
        else pure ()
        if l ≠ 512 then do
          let _ ← blkRead cx phys
          pure ()
        else blkGet cx phys
        modify fun s => s.setDev phys (blit (s.dev phys) (off % 512) (data.take l))
        natWriteFrom cx i fuel ((off + l) % 2 ^ 64) (data.drop l)

def natWrite (cx : Cx) (i offset : Nat) (data : List Byte) : NatM Unit := do
  fsChkPerm cx i wOk
  let s ← get
  let f := s.fso i
  if sIsdir f.mode then fail .EISDIR
  else if !sIsreg f.mode then fail .EINVAL
  else if 0x7fffffff ≤ (offset + data.length) % 2 ^ 64 then fail .EINVAL
  else
    let now ← clockTime cx
    modifyFso i fun f => { f with mtime := now, dirty := true }
    natWriteFrom cx i data.length offset data

/- The abstract file -/

/-- What a file contains: its size, and the bytes of its blocks, those of a hole being zero. -/
def content (s : Vol) (i : Nat) : File Byte :=
  ⟨(obj s i).size, fun k => (obj s i).block (k / 512) (k % 512)⟩

/-- A call has worked on object `i`: the volume is in order, and no other file has changed. -/
structure Worked (s s' : Vol) (i : Nat) : Prop where
  disk : Disk s'
  only : Only s s' i
  files : s'.files = s.files
  refcnt : (s'.fso i).refcnt = (s.fso i).refcnt
  mode : (s'.fso i).mode = (s.fso i).mode
  nlink : (s'.fso i).nlink = (s.fso i).nlink
  counted : (hdr s i).Counted s.dev → (hdr s' i).Counted s'.dev

namespace Worked
variable {s t u : Vol} {i : Nat}

theorem refl (disk : Disk s) : Worked s s i := ⟨disk, .refl disk, rfl, rfl, rfl, rfl, id⟩

theorem trans (a : Worked s t i) (b : Worked t u i) : Worked s u i :=
  ⟨b.disk, a.only.trans b.only, b.files.trans a.files, b.refcnt.trans a.refcnt, b.mode.trans a.mode,
    b.nlink.trans a.nlink, fun count => b.counted (a.counted count)⟩

theorem of_extended (e : Extended s t i) : Worked s t i :=
  ⟨e.disk, e.only, e.files, e.attrs.refcnt, e.attrs.mode, e.attrs.nlink, e.counted⟩

theorem of_stored (st : Stored s t i log m) : Worked s t i :=
  ⟨st.disk, st.only, st.files, by rw [st.fso], by rw [st.fso], by rw [st.fso], st.counted⟩

theorem tick (disk : Disk s) (n : Nat) : Worked s { s with tick := n } i := by
  have bam : BamOk { s with tick := n } := disk.bam.congr rfl fun _ _ => rfl
  have only : Only s { s with tick := n } i :=
    ⟨bam, rfl, disk.files, fun _ _ => Iff.rfl, fun _ _ => rfl, fun _ _ _ _ _ => rfl⟩
  refine ⟨⟨bam, disk.files, disk.nodup, disk.apart, disk.data, disk.shape, ?_⟩, only, rfl, rfl, rfl,
    rfl, id⟩
  intro j ref
  have opened := disk.opened j ref
  exact ⟨opened.file, opened.cache, opened.small, opened.saved⟩

end Worked

variable {s t : Vol} {i : Nat}

theorem content_of_obj (same : obj t i = obj s i) : content t i = content s i := by
  rw [content, content, same]

theorem block_of_phys (found : (hdr s i).phys s.dev log = p) (pos : p ≠ 0) :
    (obj s i).block log = s.dev p := by
  show (hdr s i).block s.dev log = s.dev p
  rw [Hdr.block, found, if_neg pos]

variable {off : Nat} {chunk : List Byte}

theorem stored_chunk (disk : Disk s) (file : i ∈ s.files)
    (found : (hdr s i).phys s.dev (off / 512) = p) (pos : p ≠ 0) (fits : off % 512 + chunk.length ≤ 512) :
    let t := s.setDev p (blit (s.dev p) (off % 512) chunk)
    Worked s t i ∧ content t i = ⟨(content s i).size, ((content s i).write off chunk).byte⟩ := by
  intro t
  have stored := disk.setLeaf file found pos (blit (s.dev p) (off % 512) chunk)
  have held := block_of_phys found pos
  refine ⟨.of_stored stored, ?_⟩
  rw [content, stored.obj]
  simp only [File.mk.injEq]
  refine ⟨rfl, ?_⟩
  funext k
  by_cases here : k / 512 = off / 512
  · rw [here, update_same]
    by_cases inside : off ≤ k ∧ k < off + chunk.length
    · rw [byte_write_inside _ inside.1 0 inside.2, blit_inside _ _ _ _ (by omega) (by omega)]
      congr 1
      omega
    · rw [byte_write_outside _ (by omega), blit_outside _ _ _ _ (by omega), ← held, ← here]
      rfl
  · rw [update_ne _ _ _ here, byte_write_outside _ (by omega)]
    rfl

/-- The bytes `data` have been written at `off`; what the file contains then is known as long as
    no offset has wrapped around. -/
structure Wrote (s s' : Vol) (i off : Nat) (data : List Byte) : Prop where
  worked : Worked s s' i
  filled : (s.fso i).size < 2 ^ 32 → (data ≠ [] → off + data.length < 2 ^ 31) →
    (s'.fso i).size < 2 ^ 32 ∧ content s' i = (content s i).write off data

theorem Wrote.nothing (worked : Worked s s' i)
    (size : (s'.fso i).size = (s.fso i).size) (same : obj s' i = obj s i) (off : Nat) : Wrote s s' i off [] := by
  refine ⟨worked, ?_⟩
  intro small _
  rw [size, write_nil]
  exact ⟨small, content_of_obj same⟩

theorem Disk.nlink_lt (disk : Disk s) (ref : (s.fso i).refcnt ≠ 0) : (s.fso i).nlink < 2 ^ 32 := by
  have shape := disk.shape i (disk.opened i ref).file
  rw [hdr_of_open ref] at shape
  exact shape.nlink

theorem content_size (ref : (s.fso i).refcnt ≠ 0) (small : (s.fso i).size < 2 ^ 32) :
    (content s i).size = (s.fso i).size := by
  show (hdr s i).size = _
  rw [hdr_of_open ref]
  exact Nat.mod_eq_of_lt small

def resized (s : Vol) (i last : Nat) : Vol :=
  if (s.fso i).size < last then s.setFso i { s.fso i with size := last, dirty := true } else s

theorem resized_worked (disk : Disk s) (ref : (s.fso i).refcnt ≠ 0) (last : Nat) : Worked s (resized s i last) i ∧
      (∀ log, (hdr (resized s i last) i).phys (resized s i last).dev log = (hdr s i).phys s.dev log) ∧
      ((s.fso i).size < 2 ^ 32 → last < 2 ^ 32 → ((resized s i last).fso i).size < 2 ^ 32 ∧
        content (resized s i last) i = ⟨max (content s i).size last, (content s i).byte⟩) := by
  simp only [resized]
  split
  · rename_i grow
    have set := disk.setAttrs (f := { s.fso i with size := last, dirty := true }) ref
      ⟨rfl, rfl, rfl, rfl, rfl, rfl, ⟨rfl, rfl, rfl⟩, rfl, disk.nlink_lt ref⟩
    refine ⟨⟨set.disk, set.only, rfl, by rw [set.self], by rw [set.self], by rw [set.self],
      set.counted⟩, set.phys, ?_⟩
    intro small bound
    refine ⟨by rw [set.self]; exact bound, ?_⟩
    rw [content_size ref small, max_eq_right (by omega), content, set.obj]
    simp only [Nat.mod_eq_of_lt bound]
    rfl
  · rename_i enough
    refine ⟨.refl disk, fun _ => rfl, ?_⟩
    intro small _
    refine ⟨small, ?_⟩
    rw [content_size ref small, max_eq_left (by omega), ← content_size ref small]

theorem chunkLen_spec (off count : Nat) (pos : 0 < count) :
    0 < chunkLen off count ∧ chunkLen off count ≤ count ∧ off % 512 + chunkLen off count ≤ 512 := by
  simp only [chunkLen]
  split <;> omega

structure Seen (s s' : Vol) (i : Nat) : Prop where
  worked : Worked s s' i
  obj : obj s' i = obj s i
  size : (s'.fso i).size = (s.fso i).size

theorem Seen.refl (disk : Disk s) (i : Nat) : Seen s s i := ⟨.refl disk, rfl, rfl⟩

theorem Seen.trans (a : Seen s t i) (b : Seen t u i) : Seen s u i :=
  ⟨a.worked.trans b.worked, b.obj.trans a.obj, b.size.trans a.size⟩

theorem Seen.of_extended (e : Extended s t i) : Seen s t i :=
  ⟨.of_extended e, e.obj, e.attrs.size⟩

theorem Seen.tick (disk : Disk s) (n : Nat) : Seen s { s with tick := n } i :=
  ⟨.tick disk n, rfl, rfl⟩

/- The loop of `nat_write` on any device -/

theorem Seen.of_spilled (disk : Disk s) (file : i ∈ s.files) (spilled : Spilled s t b) : Seen s t i := by
  obtain ⟨bam, frame, bits⟩ := spilled.marked
  have dev : ∀ j ∈ s.files, ∀ x ∈ holds s j, t.dev x = s.dev x := fun j other x mem =>
    frame.dev x (data_not_bam disk.bam.geo (disk.data j other x mem).1)
  have kept : Kept s t i :=
    ⟨by rw [hdr, hdr, savedHdr, savedHdr, frame.fso, frame.geo, dev i file i (mem_cons_self ..)], dev i file⟩
  have marked : ∀ j ∈ s.files, ∀ x ∈ holds s j, used t x = true := by
    intro j other x mem
    obtain ⟨data, inUse⟩ := disk.data j other x mem
    rw [bits x (data_covered disk.bam.geo data), inUse, ite_self]
  have only : Only s t i := ⟨bam, frame.geo, by rw [frame.files]; exact disk.files,
    fun _ _ => by rw [frame.files], fun _ _ => by rw [frame.fso], fun j other _ => dev j other⟩
  have held := kept.trees.1
  have disk' : Disk t := by
    apply only.disk disk
    · exact fun _ => held ▸ disk.nodup i file
    · exact fun _ => kept.hdr ▸ disk.shape i file
    · intro _ x mem
      rw [held] at mem
      exact ⟨(disk.data i file x mem).1, marked i file x mem⟩
    · intro _ x mem
      rw [held] at mem
      exact .inl ⟨file, mem⟩
    · exact fun j other _ => marked j other
    · intro ref
      rw [frame.fso] at ref
      exact kept.opened frame.geo (by rw [frame.fso]) (frame.files ▸ file) ref (disk.shape i file) (disk.opened i ref)
  exact ⟨⟨disk', only, frame.files, by rw [frame.fso], by rw [frame.fso], by rw [frame.fso], kept.counted⟩,
    kept.obj, by rw [frame.fso]⟩

variable {Q : Res Errno Unit → Vol → Prop}

theorem wp_natBmap_seen (disk : Disk s) (ref : (s.fso i).refcnt ≠ 0)
    (small : log < 2 ^ 32) (kept : ¬ BmapAsks (BallocLoses cx) cx i log s)
    (done : ∀ t, Extended s t i → (t.fso i).bmapPhys ≠ 0 →
      (hdr t i).phys t.dev log = (t.fso i).bmapPhys → Q (.ok ()) t)
    (failed : ∀ e t, Seen s t i → Q (.err e) t) : wp (natBmap cx i log true) Q s := by
  apply wp_natBmap_io disk ref small kept
  · exact fun t _ st phys found => done t st.extended phys found
  · exact fun e t _ _ st => failed e t (.of_extended st.extended)
  · intro e t t' b _ _ st spilled
    have seen := Seen.of_extended st.extended
    have file := seen.worked.files ▸ (disk.opened i ref).file
    exact failed e t' (seen.trans (.of_spilled seen.worked.disk file spilled))
  · exact fun _ _ => failed _ s (.refl disk i)

/-- The state in which a chunk is stored in the block that `nat_bmap` has found. -/
def chunkStored (s : Vol) (i off : Nat) (chunk : List Byte) : Vol :=
  let u := { resized s i ((off + chunk.length) % 2 ^ 64) with tick := s.tick + 1 }
  u.setDev (s.fso i).bmapPhys (blit (u.dev (s.fso i).bmapPhys) (off % 512) chunk)

/-- The first bytes of `data` are in the file, and its size reaches over `m` bytes. What it contains then is
    known as long as no offset has wrapped around. -/
structure Covers (s s' : Vol) (i off : Nat) (data : List Byte) (m : Nat) : Prop where
  worked : Worked s s' i
  filled : (s.fso i).size < 2 ^ 32 → (m ≠ 0 → off + m < 2 ^ 31) → (s'.fso i).size < 2 ^ 32 ∧
    content s' i = ((content s i).write off data).cover off m

theorem Seen.covers (seen : Seen s t i) (off : Nat) : Covers s t i off [] 0 := by
  refine ⟨seen.worked, fun small _ => ⟨by rw [seen.size]; exact small, ?_⟩⟩
  rw [write_nil, File.cover, if_pos rfl, content_of_obj seen.obj]

variable {data : List Byte}

theorem Covers.wrote (r : Covers s t i off data data.length) : Wrote s t i off data := by
  refine ⟨r.worked, fun small bound => ?_⟩
  have filled := r.filled small fun some => bound fun none => some (by rw [none]; rfl)
  rw [cover_write] at filled
  exact filled

theorem Wrote.covers (w : Wrote s t i off data) : Covers s t i off data data.length := by
  refine ⟨w.worked, fun small bound => ?_⟩
  rw [cover_write]
  exact w.filled small fun some => bound fun none => some (length_eq_zero_iff.mp none)

theorem covers_of_resized (ref : (s.fso i).refcnt ≠ 0) (pos : 0 < l) (ext : Extended s t i) :
    Covers s { resized t i ((off + l) % 2 ^ 64) with tick := t.tick + 1 } i off [] l := by
  have ref' : (t.fso i).refcnt ≠ 0 := by rw [ext.attrs.refcnt]; exact ref
  obtain ⟨worked, _, sized⟩ := resized_worked ext.disk ref' ((off + l) % 2 ^ 64)
  refine ⟨((Worked.of_extended ext).trans worked).trans (.tick worked.disk _), fun small bound => ?_⟩
  have range := bound (by omega)
  rw [Nat.mod_eq_of_lt (show off + l < 2 ^ 64 by omega)] at sized ⊢
  obtain ⟨size, before⟩ := sized (by rw [ext.attrs.size]; exact small) (by omega)
  refine ⟨size, ?_⟩
  rw [write_nil, File.cover, if_neg (by omega), ← content_of_obj ext.obj]
  exact before

theorem wrote_of_stored (disk : Disk s) (ref : (s.fso i).refcnt ≠ 0)
    (pos : 0 < chunk.length) (fits : off % 512 + chunk.length ≤ 512) (ext : Extended s t i)
    (phys : (t.fso i).bmapPhys ≠ 0) (found : (hdr t i).phys t.dev (off / 512 % 2 ^ 32) = (t.fso i).bmapPhys) :
    Wrote s (chunkStored t i off chunk) i off chunk := by
  have ref' : (t.fso i).refcnt ≠ 0 := by rw [ext.attrs.refcnt]; exact ref
  obtain ⟨_, same, _⟩ := resized_worked ext.disk ref' ((off + chunk.length) % 2 ^ 64)
  have sized := @covers_of_resized _ _ _ off _ ref pos ext
  have file := sized.worked.files ▸ (disk.opened i ref).file
  refine ⟨sized.worked.trans (.of_stored (sized.worked.disk.setLeaf file ((same _).trans found) phys _)), ?_⟩
  intro small bound
  have range := bound (ne_nil_of_length_pos pos)
  obtain ⟨size, before⟩ := sized.filled small fun _ => range
  rw [Nat.mod_eq_of_lt (show off / 512 < 2 ^ 32 by omega)] at found
  obtain ⟨_, filled⟩ := stored_chunk sized.worked.disk file ((same _).trans found) phys fits
  refine ⟨size, filled.trans ?_⟩
  rw [before, write_nil, File.cover, if_neg (by omega)]
  simp only [File.write, if_neg (ne_nil_of_length_pos pos)]

theorem wp_writeChunk {cx : Cx} {l : Nat} (disk : Disk s)
    (ref : (s.fso i).refcnt ≠ 0) (pos : 0 < l) (len : chunk.length = l) (fits : off % 512 + l ≤ 512)
    (kept : ¬ BmapAsks (BallocLoses cx) cx i (off / 512 % 2 ^ 32) s) {next : NatM Unit}
    (rest : ∀ t, natBmap cx i (off / 512 % 2 ^ 32) true s = (.ok (), t) → cx.io t.tick = none →
      Wrote s (chunkStored t i off chunk) i off chunk → wp next Q (chunkStored t i off chunk))
    (blocked : ∀ t t' e, natBmap cx i (off / 512 % 2 ^ 32) true s = (.ok (), t) → cx.io t.tick = some e →
      Covers s t' i off [] l → Q (.err e) t')
    (stopped : ∀ t e, natBmap cx i (off / 512 % 2 ^ 32) true s = (.err e, t) → Covers s t i off [] 0 →
      Q (.err e) t) :
    wp (do
      natBmap cx i (off / 512 % 2 ^ 32) true
      let s ← get
      let phys := (s.fso i).bmapPhys
      if phys = 0 then crash else
        if (s.fso i).size < (off + l) % 2 ^ 64 then
          modifyFso i fun f => { f with size := (off + l) % 2 ^ 64, dirty := true }
        else pure ()
        if l ≠ 512 then do
          let _ ← blkRead cx phys
          pure ()
        else blkGet cx phys
        modify fun s => s.setDev phys (blit (s.dev phys) (off % 512) chunk)
        next) Q s := by
  subst len
  rw [wp_bind]
  apply wp_run
  apply wp_natBmap_seen disk ref (Nat.mod_lt _ (by decide)) kept
  · intro t ext phys found run
    -- the block is one request, whether or not it is read
    have fetch : ∀ u, u = resized t i ((off + chunk.length) % 2 ^ 64) →
        wp (blkGet cx (t.fso i).bmapPhys) (after (fun _ => do
          modify fun s => s.setDev (t.fso i).bmapPhys (blit (s.dev (t.fso i).bmapPhys) (off % 512) chunk)
          next) Q) u := by
      intro u raised
      have tick : u.tick = t.tick := by
        rw [raised, resized]
        split <;> rfl
      cases outcome : cx.io t.tick with
      | none =>
        have stored := rest t run outcome (wrote_of_stored disk ref pos fits ext phys found)
        refine wp_blkGet_taken (by rw [tick, outcome]) ?_
        rw [raised] at tick ⊢
        rw [tick]
        exact stored
      | some e =>
        have refused : blkGet cx (t.fso i).bmapPhys u = (.err e, { u with tick := t.tick + 1 }) := by
          simp only [blkGet, tick, outcome]
        refine wp_of_eq refused ?_
        rw [raised]
        exact blocked t _ e run outcome (covers_of_resized ref pos ext)
    have read : ∀ {u K}, wp (blkGet cx (t.fso i).bmapPhys) (after (fun _ => K) Q) u →
        wp (blkRead cx (t.fso i).bmapPhys) (after (fun _ => K) Q) u := by
      intro u K h
      rw [blkRead, wp_bind]
      apply wp_mono h
      rintro (_ | _ | _) _ h <;> exact h
    simp only [after_ok, wp_get, wp_bind, if_neg phys]
    by_cases grow : (t.fso i).size < (off + chunk.length) % 2 ^ 64
    · rw [if_pos grow]
      simp only [wp_bind, modifyFso, wp_modify, after_ok]
      split
      · rw [wp_bind]
        exact read (fetch _ (by rw [resized, if_pos grow]))
      · rw [wp_bind]
        exact fetch _ (by rw [resized, if_pos grow])
    · rw [if_neg grow]
      split
      · rw [wp_bind]
        exact read (fetch _ (by rw [resized, if_neg grow]))
      · rw [wp_bind]
        exact fetch _ (by rw [resized, if_neg grow])
  · intro e t seen run
    exact stopped t e run (seen.covers off)

/-- Where the loop stops with an error: the number of bytes stored until then, and the number of bytes that the
    size of the file reaches over. -/
def stopsAt (cx : Cx) (i : Nat) : Nat → Nat → List Byte → Vol → Option (Nat × Nat)
  | 0, _, _, _ => none
  | fuel + 1, off, data, s =>
    if data = [] then none else
      let l := chunkLen off data.length
      match natBmap cx i (off / 512 % 2 ^ 32) true s with
      | (.ok _, t) =>
        if cx.io t.tick = none then
          (stopsAt cx i fuel ((off + l) % 2 ^ 64) (data.drop l) (chunkStored t i off (data.take l))).map
            fun at' => (l + at'.1, l + at'.2)
        else some (0, l)
      | _ => some (0, 0)

def LoopLoses (cx : Cx) (i : Nat) : Nat → Nat → List Byte → Vol → Prop
  | 0, _, _, _ => False
  | fuel + 1, off, data, s =>
    let l := chunkLen off data.length
    data ≠ [] ∧ (BmapAsks (BallocLoses cx) cx i (off / 512 % 2 ^ 32) s ∨
      ∃ t, natBmap cx i (off / 512 % 2 ^ 32) true s = (.ok (), t) ∧ cx.io t.tick = none ∧
        LoopLoses cx i fuel ((off + l) % 2 ^ 64) (data.drop l) (chunkStored t i off (data.take l)))

theorem not_loopLoses (noio : cx.NoIoError) (i fuel : Nat) :
    ∀ (off : Nat) (data : List Byte) (s : Vol), ¬ LoopLoses cx i fuel off data s := by
  induction fuel with
  | zero => exact fun _ _ _ h => h
  | succ fuel ih =>
    rintro off data s ⟨_, here | ⟨t, _, _, later⟩⟩
    · exact not_bmapAsks (not_ballocLoses noio) here
    · exact ih _ _ _ later

theorem stopsAt_noio {cx : Cx} (noio : cx.NoIoError) (i fuel : Nat) :
    ∀ {off : Nat} {data : List Byte} {s : Vol} {n m : Nat}, stopsAt cx i fuel off data s = some (n, m) → m = n := by
  induction fuel with
  | zero =>
    intro off data s n m stops
    cases stops
  | succ fuel ih =>
    intro off data s n m stops
    simp only [stopsAt] at stops
    split at stops
    · cases stops
    · split at stops
      · rw [if_pos (noio _), Option.map_eq_some_iff] at stops
        obtain ⟨⟨n', m'⟩, later, eq⟩ := stops
        cases eq
        rw [ih later]
      · cases stops
        rfl

theorem Wrote.join (first : Wrote s t i off chunk)
    (some : chunk ≠ []) (later : Covers t u i ((off + chunk.length) % 2 ^ 64) rest m) :
    Covers s u i off (chunk ++ rest) (chunk.length + m) := by
  refine ⟨first.worked.trans later.worked, ?_⟩
  intro small bound
  have pos := length_pos_of_ne_nil some
  have range := bound (by omega)
  obtain ⟨size, filled⟩ := first.filled small fun _ => by omega
  rw [Nat.mod_eq_of_lt (by omega)] at later
  obtain ⟨size', filled'⟩ := later.filled size fun _ => by omega
  refine ⟨size', ?_⟩
  rw [filled', filled, cover_append]

theorem wp_natWriteFrom_io {cx : Cx} (i : Nat) (fuel : Nat) :
    ∀ {s : Vol} {off : Nat} {data : List Byte}, Disk s → (s.fso i).refcnt ≠ 0 → data.length ≤ fuel →
    ¬ LoopLoses cx i fuel off data s → ∀ {Q : Res Errno Unit → Vol → Prop},
    (∀ s', stopsAt cx i fuel off data s = none → Wrote s s' i off data → Q (.ok ()) s') →
    (∀ s' n m e, stopsAt cx i fuel off data s = some (n, m) → n ≤ m → m ≤ data.length →
      Covers s s' i off (data.take n) m → Q (.err e) s') →
    wp (natWriteFrom cx i fuel off data) Q s := by
  induction fuel with
  | zero =>
    intro s off data disk _ none _ Q done _
    have empty : data = [] := length_eq_zero_iff.mp (by omega)
    exact done s rfl (empty ▸ .nothing (.refl disk) rfl rfl off)
  | succ fuel ih =>
    intro s off data disk ref enough kept Q done stopped
    simp only [natWriteFrom]
    simp only [stopsAt] at done stopped
    by_cases empty : data = []
    · rw [if_pos empty] at done ⊢
      exact done s rfl (empty ▸ .nothing (.refl disk) rfl rfl off)
    · rw [if_neg empty] at done stopped ⊢
      obtain ⟨pos, le, fits⟩ := chunkLen_spec off data.length (length_pos_of_ne_nil empty)
      simp only [LoopLoses, empty, ne_eq, not_false_iff, true_and, not_or] at kept
      have len : (data.take (chunkLen off data.length)).length = chunkLen off data.length := by
        rw [length_take]
        omega
      have some : data.take (chunkLen off data.length) ≠ [] := ne_nil_of_length_pos (by omega)
      refine wp_writeChunk disk ref pos len fits kept.1 ?_ ?_ ?_
      · intro t run taken first
        rw [run] at done stopped
        simp only [taken, if_true] at done stopped
        have joined : ∀ {s' rest m}, Covers (chunkStored t i off (data.take (chunkLen off data.length))) s' i
            ((off + chunkLen off data.length) % 2 ^ 64) rest m →
            Covers s s' i off (data.take (chunkLen off data.length) ++ rest) (chunkLen off data.length + m) := by
          intro s' rest m later
          have all := first.join some (by rw [len]; exact later)
          rw [len] at all
          exact all
        apply ih first.worked.disk (by rw [first.worked.refcnt]; exact ref)
        · rw [length_drop]
          omega
        · exact fun loses => kept.2 ⟨t, run, taken, loses⟩
        · intro s' last later
          have all := joined later.covers
          rw [take_append_drop, length_drop, show chunkLen off data.length +
            (data.length - chunkLen off data.length) = data.length by omega] at all
          exact done s' (by rw [last]; rfl) all.wrote
        · intro s' n m e last order bound later
          rw [length_drop] at bound
          have part := joined later
          rw [← take_add] at part
          exact stopped s' _ _ e (by rw [last]; rfl) (by omega) (by omega) part
      · intro t t' e run failed part
        rw [run] at stopped
        simp only [failed, reduceCtorEq, if_false] at stopped
        exact stopped t' 0 _ e rfl (Nat.zero_le _) le part
      · intro t e run part
        rw [run] at stopped
        exact stopped t 0 0 e rfl (Nat.le_refl _) (Nat.zero_le _) part

theorem dated (disk : Disk s) (ref : (s.fso i).refcnt ≠ 0)
    (title : Retitled (s.fso i) f) (size : f.size = (s.fso i).size) (nlink : f.nlink = (s.fso i).nlink) :
    Worked s (s.setFso i f) i ∧ obj (s.setFso i f) i = obj s i ∧ ((s.setFso i f).fso i).size = (s.fso i).size := by
  have set := disk.setAttrs ref title
  refine ⟨⟨set.disk, set.only, rfl, by rw [set.self]; exact title.refcnt,
    by rw [set.self]; exact title.mode, by rw [set.self]; exact nlink, set.counted⟩, ?_,
    by rw [set.self]; exact size⟩
  rw [set.obj, obj, hdr_of_open ref, size, nlink]
  rfl

def Admitted (cx : Cx) (s : Vol) (i offset len : Nat) : Prop :=
  permError cx s.fs.geo (s.fso i) wOk = none ∧ sIsdir (s.fso i).mode = false ∧ sIsreg (s.fso i).mode = true ∧
    (offset + len) % 2 ^ 64 < 0x7fffffff

instance (cx : Cx) (s : Vol) (i offset len : Nat) : Decidable (Admitted cx s i offset len) :=
  inferInstanceAs (Decidable (_ ∧ _))

def begun (cx : Cx) (s : Vol) (i : Nat) : Vol :=
  s.setFso i { s.fso i with mtime := cx.clock s.tick, dirty := true }

def writeStops (cx : Cx) (i offset : Nat) (data : List Byte) (s : Vol) : Option (Nat × Nat) :=
  if Admitted cx s i offset data.length then stopsAt cx i data.length offset data (begun cx s i) else none

def WriteLoses (cx : Cx) (i offset : Nat) (data : List Byte) (s : Vol) : Prop :=
  Admitted cx s i offset data.length ∧ LoopLoses cx i data.length offset data (begun cx s i)

theorem wp_natWrite_io {cx : Cx} (disk : Disk s) (ref : (s.fso i).refcnt ≠ 0) (kept : ¬ WriteLoses cx i off data s)
    (done : ∀ s', Admitted cx s i off data.length → writeStops cx i off data s = none → Wrote s s' i off data →
      Q (.ok ()) s') (refused : ∀ e, ¬ Admitted cx s i off data.length → Q (.err e) s)
    (stopped : ∀ s' n m e, Admitted cx s i off data.length → writeStops cx i off data s = some (n, m) → n ≤ m →
      m ≤ data.length → Covers s s' i off (data.take n) m → Q (.err e) s') : wp (natWrite cx i off data) Q s := by
  simp only [natWrite, wp_bind]
  apply wp_fsChkPerm
  · intro allowed
    simp only [after_ok, wp_bind, wp_get]
    split
    · rename_i dir
      exact refused _ fun admitted => absurd dir (by rw [admitted.2.1]; decide)
    · rename_i notDir
      split
      · rename_i notReg
        exact refused _ fun admitted => absurd notReg (by rw [admitted.2.2.1]; decide)
      · rename_i reg
        split
        · exact refused _ fun admitted => absurd admitted.2.2.2 (by omega)
        · have admitted : Admitted cx s i off data.length := ⟨allowed, by simpa using notDir, by simpa using reg, by omega⟩
          have stops : writeStops cx i off data s = stopsAt cx i data.length off data (begun cx s i) := if_pos admitted
          rw [stops] at done stopped
          obtain ⟨worked, same, size⟩ := dated (f := { s.fso i with mtime := cx.clock s.tick, dirty := true })
            disk ref ⟨rfl, rfl, rfl, rfl, rfl, rfl, ⟨rfl, rfl, rfl⟩, rfl, disk.nlink_lt ref⟩ rfl rfl
          have joined : ∀ {s' part m}, Covers (begun cx s i) s' i off part m → Covers s s' i off part m := by
            intro s' part m later
            refine ⟨worked.trans later.worked, fun small bound => ?_⟩
            obtain ⟨size', filled⟩ := later.filled (by rw [begun, size]; exact small) bound
            exact ⟨size', by rw [filled, begun, content_of_obj same]⟩
          simp only [wp_bind, wp_clockTime, after_ok, modifyFso, wp_modify]
          apply wp_natWriteFrom_io i _ worked.disk (by rw [worked.refcnt]; exact ref) (le_refl _)
          · exact fun loses => kept ⟨admitted, loses⟩
          · exact fun s' last later => done s' admitted last (joined later.covers).wrote
          · exact fun s' n m e last order bound later => stopped s' n m e admitted last order bound (joined later)
  · intro e denied
    exact refused e fun admitted => by rw [admitted.1] at denied; cases denied

theorem wp_natWrite {cx : Cx} (noio : cx.NoIoError) (disk : Disk s) (ref : (s.fso i).refcnt ≠ 0)
    (done : ∀ s', (off + data.length) % 2 ^ 64 < 2 ^ 31 → Wrote s s' i off data → Q (.ok ()) s')
    (stopped : ∀ s' n e, n ≤ data.length → (n ≠ 0 → (off + data.length) % 2 ^ 64 < 2 ^ 31) →
      Wrote s s' i off (data.take n) → Q (.err e) s') : wp (natWrite cx i off data) Q s := by
  have limit : Admitted cx s i off data.length → (off + data.length) % 2 ^ 64 < 2 ^ 31 := fun admitted =>
    lt_trans admitted.2.2.2 (by decide)
  apply wp_natWrite_io disk ref fun loses => not_loopLoses noio _ _ _ _ _ loses.2
  · exact fun s' admitted _ wrote => done s' (limit admitted) wrote
  · exact fun e _ => stopped s 0 e (Nat.zero_le _) (fun h => absurd rfl h) (.nothing (.refl disk) rfl rfl off)
  · intro s' n m e admitted stops order bound covers
    rw [writeStops, if_pos admitted] at stops
    have even := stopsAt_noio noio _ _ stops
    rw [even] at covers bound
    refine stopped s' n e bound (fun _ => limit admitted) (Covers.wrote ?_)
    rw [length_take, min_eq_left bound]
    exact covers

theorem wp_natReadFrom {cx : Cx} (i : Nat) (fuel : Nat) :
    ∀ {s : Vol} {off count : Nat}, Disk s → (s.fso i).refcnt ≠ 0 → count ≤ fuel →
    off + count < 2 ^ 32 → ∀ {Q : Res Errno (List Byte) → Vol → Prop},
    (∀ s', Seen s s' i → Q (.ok ((content s i).bytes off count)) s') →
    (∀ s' e, Seen s s' i → Q (.err e) s') →
    wp (natReadFrom cx i fuel off count) Q s := by
  induction fuel with
  | zero =>
    intro s off count disk _ none _ Q done _
    have empty : count = 0 := by omega
    have post := done s (.refl disk i)
    rw [empty] at post
    exact post
  | succ fuel ih =>
    intro s off count disk ref enough small Q done failed
    simp only [natReadFrom]
    by_cases empty : count = 0
    · rw [if_pos empty]
      have post := done s (.refl disk i)
      rw [empty] at post
      exact post
    · rw [if_neg empty]
      obtain ⟨pos, le, fits⟩ := chunkLen_spec off count (by omega)
      rw [Nat.mod_eq_of_lt (show off / 512 < 2 ^ 32 by omega)]
      simp only [wp_bind]
      -- the bytes of the chunk are those of one block
      have chunk : (content s i).bytes off (chunkLen off count) =
          slice ((obj s i).block (off / 512)) (off % 512) (chunkLen off count) := by
        apply map_congr_left
        intro k mem
        rw [mem_range] at mem
        show (obj s i).block ((off + k) / 512) ((off + k) % 512) = _
        rw [show (off + k) / 512 = off / 512 by omega, show (off + k) % 512 = off % 512 + k by omega]
      have rest : ∀ {t : Vol}, Seen s t i →
          wp (natReadFrom cx i fuel (off + chunkLen off count) (count - chunkLen off count))
            (after (fun rest => pure (slice ((obj s i).block (off / 512)) (off % 512)
              (chunkLen off count) ++ rest)) Q) t := by
        intro t seen
        apply ih seen.worked.disk (by rw [seen.worked.refcnt]; exact ref) (by omega) (by omega)
        · intro s' later
          simp only [after_ok, wp_pure]
          rw [content_of_obj seen.obj, ← chunk, ← bytes_add, show chunkLen off count +
            (count - chunkLen off count) = count by omega]
          exact done s' (seen.trans later)
        · intro s' e later
          exact failed s' e (seen.trans later)
      rw [Nat.mod_eq_of_lt (show off + chunkLen off count < 2 ^ 64 by omega)]
      have head : hdr s i = (s.fso i).hdr := hdr_of_open ref
      apply wp_natBmap_lookup (disk.opened i ref).cache
      · intro slot s₁ looked
        obtain ⟨ext, phys⟩ := extended_of_looked disk ref (by omega) (by rw [head]; exact slot) looked
        have seen := Seen.of_extended ext
        have held : (obj s i).block (off / 512) =
            if (s₁.fso i).bmapPhys = 0 then zero else s₁.dev (s₁.fso i).bmapPhys := by
          rw [← ext.obj, phys]
          rfl
        simp only [after_ok, wp_get, wp_bind]
        split
        · rename_i hole
          rw [if_pos hole] at held
          have zeros : slice ((obj s i).block (off / 512)) (off % 512) (chunkLen off count) =
              replicate (chunkLen off count) 0 := by
            rw [held]
            simp [slice, zero, map_const']
          simp only [wp_bind, wp_pure, after_ok]
          rw [← zeros]
          exact rest seen
        · rename_i there
          rw [if_neg there] at held
          have ticked := fun n => seen.trans (.tick seen.worked.disk n)
          simp only [wp_bind]
          apply wp_blkRead_any
          · simp only [after_ok, wp_bind, wp_pure]
            rw [← held]
            exact rest (ticked _)
          · exact fun e _ => failed _ e (ticked _)
      · intro _
        exact failed s _ (.refl disk i)
      · exact fun e t _ => failed _ e (.tick disk t)

theorem wp_natRead {cx : Cx} {count : Nat} (disk : Disk s)
    (ref : (s.fso i).refcnt ≠ 0) (width : (s.fso i).size < 2 ^ 32)
    (range : off ≤ (s.fso i).size → off + count < 2 ^ 64) {Q : Res Errno (List Byte) → Vol → Prop}
    (done : ∀ s', Seen s s' i → Q (.ok ((content s i).read off count)) s')
    (failed : ∀ s' e, Seen s s' i → Q (.err e) s') : wp (natRead cx i off count) Q s := by
  have size := content_size ref width
  simp only [natRead, wp_bind]
  apply wp_fsChkPerm
  · intro _
    simp only [after_ok, wp_bind, wp_get]
    split
    · exact failed s _ (.refl disk i)
    · split
      · exact failed s _ (.refl disk i)
      · split
        · rename_i past
          have none : (content s i).read off count = [] := by
            rw [File.read, size, show (s.fso i).size - off = 0 by omega, Nat.min_zero]
            rfl
          have post := done s (.refl disk i)
          rw [none] at post
          exact post
        · rename_i inside
          have wanted : (if (s.fso i).size < (off + count) % 2 ^ 64 then (s.fso i).size - off else count) =
              min count ((content s i).size - off) := by
            rw [Nat.mod_eq_of_lt (range (by omega)), size]
            split <;> omega
          rw [wanted]
          have loop : ∀ {t : Vol}, Seen s t i → wp (natReadFrom cx i
              (min count ((content s i).size - off)) off (min count ((content s i).size - off))) Q t := by
            intro t seen
            apply wp_natReadFrom i _ seen.worked.disk (by rw [seen.worked.refcnt]; exact ref)
              (le_refl _) (by omega)
            · intro s' later
              rw [content_of_obj seen.obj]
              exact done s' (seen.trans later)
            · intro s' e later
              exact failed s' e (seen.trans later)
          split
          · simp only [wp_bind, wp_clockTime, after_ok, modifyFso, wp_modify]
            obtain ⟨worked, same, size'⟩ := dated
              (f := { s.fso i with atime := cx.clock s.tick, dirty := true }) disk ref
              ⟨rfl, rfl, rfl, rfl, rfl, rfl, ⟨rfl, rfl, rfl⟩, rfl, disk.nlink_lt ref⟩ rfl rfl
            exact loop ⟨worked, same, size'⟩
          · exact loop (.refl disk i)
  · intro e _
    exact failed s e (.refl disk i)

/- Sequences of requests -/

inductive Req where
  | write (cx : Cx) (i offset : Nat) (data : List Byte)
  | read (cx : Cx) (i offset count : Nat)
  | trunc (cx : Cx) (i : Nat)

namespace Req

def run : Req → NatM (List Byte)
  | write cx i offset data => do
    natWrite cx i offset data
    pure []
  | read cx i offset count => natRead cx i offset count
  | trunc cx i => do
    natTrunc cx i
    pure []

def cx : Req → Cx
  | write cx .. | read cx .. | trunc cx _ => cx

def target : Req → Nat
  | write _ i .. | read _ i .. | trunc _ i => i

structure Valid (s : Vol) (r : Req) : Prop where
  device : r.cx.NoIoError
  opened : (s.fso r.target).refcnt ≠ 0
  regular : sIsreg (s.fso r.target).mode = true
  size : (s.fso r.target).size < 2 ^ 32

def InRange : Req → Prop
  | write _ _ offset data => offset + data.length < 2 ^ 64
  | read _ _ offset count => offset + count < 2 ^ 64
  | trunc .. => True

/-- What a request that ends with the given outcome is for the abstract files. -/
def Meets (f f' : Nat → File Byte) : Req → Res Errno (List Byte) → Prop
  | write _ i offset data, .ok _ => f' = update f i ((f i).write offset data)
  | write _ i offset data, .err _ =>
    ∃ n, n ≤ data.length ∧ f' = update f i ((f i).write offset (data.take n))
  | read _ i offset count, .ok bytes => bytes = (f i).read offset count ∧ f' = f
  | read .., .err _ => f' = f
  | trunc _ i, .ok _ => f' = update f i (.empty 0)
  | trunc .., .err _ => f' = f
  | _, .crash => False

end Req

/-- The requests do to the volume what they do to abstract files, one after the other, and
    holes stay zero. -/
def Refines : Vol → (Nat → File Byte) → List Req → Prop
  | _, _, [] => True
  | s, f, r :: rs => ∃ f', r.Meets f f' (r.run s).1 ∧
      (∀ i ∈ s.files, content (r.run s).2 i = f' i) ∧ (∀ i, (f i).Tidy 0 → (f' i).Tidy 0) ∧
      Refines (r.run s).2 f' rs

structure Served (s s' : Vol) (r : Req) (f f' : Nat → File Byte) : Prop where
  disk : Disk s'
  files : s'.files = s.files
  content : ∀ i ∈ s.files, content s' i = f' i
  opened : ∀ i, (s'.fso i).refcnt = (s.fso i).refcnt ∧ (s'.fso i).mode = (s.fso i).mode
  size : ∀ i, (s.fso i).size < 2 ^ 32 → (s'.fso i).size < 2 ^ 32
  tidy : ∀ i, (f i).Tidy 0 → (f' i).Tidy 0

variable {r : Req} {f : Nat → File Byte}

theorem served_of_worked (worked : Worked s s' i) (start : ∀ j ∈ s.files, content s j = f j)
    (size : (s'.fso i).size < 2 ^ 32) (self : content s' i = g) (tidy : (f i).Tidy 0 → g.Tidy 0) :
    Served s s' r f (update f i g) := by
  refine ⟨worked.disk, worked.files, ?_, ?_, ?_, ?_⟩
  · intro j file
    by_cases eq : j = i
    · rw [eq, update_same]
      exact self
    · rw [update_ne _ _ _ eq, ← start j file]
      exact content_of_obj (worked.only.kept file eq).obj
  · intro j
    by_cases eq : j = i
    · rw [eq]
      exact ⟨worked.refcnt, worked.mode⟩
    · rw [worked.only.fso j eq]
      exact ⟨rfl, rfl⟩
  · intro j before
    by_cases eq : j = i
    · rw [eq]
      exact size
    · rw [worked.only.fso j eq]
      exact before
  · intro j before
    by_cases eq : j = i
    · rw [eq] at before ⊢
      rw [update_same]
      exact tidy before
    · rw [update_ne _ _ _ eq]
      exact before

theorem request_served (disk : Disk s) (valid : r.Valid s)
    (range : r.InRange) (start : ∀ i ∈ s.files, content s i = f i) :
    ∃ f', r.Meets f f' (r.run s).1 ∧ Served s (r.run s).2 r f f' := by
  cases r with
  | write cx i off data =>
    have opened : (s.fso i).refcnt ≠ 0 := valid.opened
    have before := start i (disk.opened i opened).file
    show wp _ (fun o s' => ∃ f', (Req.write cx i off data).Meets f f' o ∧
      Served s s' (.write cx i off data) f f') s
    simp only [Req.run, wp_bind]
    have range : off + data.length < 2 ^ 64 := range
    apply wp_natWrite valid.device disk opened
    · intro s' limit wrote
      simp only [after_ok, wp_pure]
      obtain ⟨size, all⟩ := wrote.filled valid.size fun _ => by omega
      rw [before] at all
      exact ⟨_, rfl, served_of_worked wrote.worked start size all fun tidy => write_tidy tidy off data⟩
    · intro s' n e bound limit wrote
      obtain ⟨size, part⟩ := wrote.filled valid.size (by
        intro some
        have taken : n ≠ 0 := by
          rintro rfl
          exact some take_zero
        have end' := limit taken
        rw [length_take]
        omega)
      rw [before] at part
      exact ⟨_, ⟨n, bound, rfl⟩,
        served_of_worked wrote.worked start size part fun tidy => write_tidy tidy off _⟩
  | read cx i off count =>
    have opened : (s.fso i).refcnt ≠ 0 := valid.opened
    have before := start i (disk.opened i opened).file
    show wp _ (fun o s' => ∃ f', (Req.read cx i off count).Meets f f' o ∧
      Served s s' (.read cx i off count) f f') s
    have unchanged : ∀ {s'}, Seen s s' i → Served s s' (.read cx i off count) f f := by
      intro s' seen
      have served := served_of_worked (r := .read cx i off count) seen.worked start
        (by rw [seen.size]; exact valid.size) ((content_of_obj seen.obj).trans before) id
      rw [update_self] at served
      exact served
    apply wp_natRead disk opened valid.size fun _ => range
    · intro s' seen
      exact ⟨f, ⟨by rw [before], rfl⟩, unchanged seen⟩
    · intro s' e seen
      exact ⟨f, rfl, unchanged seen⟩
  | trunc cx i =>
    have opened : (s.fso i).refcnt ≠ 0 := valid.opened
    show wp _ (fun o s' => ∃ f', (Req.trunc cx i).Meets f f' o ∧ Served s s' (.trunc cx i) f f') s
    simp only [Req.run, wp_bind]
    apply wp_natTrunc valid.device disk opened
    intro s' cut
    simp only [after_ok, wp_pure]
    have worked : Worked s s' i := ⟨cut.disk, cut.only, cut.files, by rw [cut.self], by rw [cut.self],
      by rw [cut.self], fun _ => cut.counted opened⟩
    refine ⟨_, rfl, served_of_worked worked start (by simp [cut.self]) ?_ fun _ _ _ => rfl⟩
    rw [content, cut.obj opened]
    rfl

theorem refines_from (rs : List Req) : ∀ {s : Vol}, Disk s → (∀ r ∈ rs, r.Valid s) →
    (∀ r ∈ rs, r.InRange) → ∀ {f : Nat → File Byte}, (∀ i ∈ s.files, content s i = f i) →
    Refines s f rs := by
  induction rs with
  | nil => intros; trivial
  | cons r rs ih =>
    intro s disk valid range f start
    obtain ⟨f', meets, served⟩ := request_served disk (valid r (mem_cons_self ..))
      (range r (mem_cons_self ..)) start
    refine ⟨f', meets, served.content, served.tidy, ih served.disk ?_ ?_ ?_⟩
    · intro x mem
      have old := valid x (mem_cons_of_mem _ mem)
      obtain ⟨refcnt, mode⟩ := served.opened x.target
      exact ⟨old.device, by rw [refcnt]; exact old.opened, by rw [mode]; exact old.regular,
        served.size _ old.size⟩
    · exact fun x mem => range x (mem_cons_of_mem _ mem)
    · rw [served.files]
      exact served.content

/-- Every sequence of requests on files in use that stays in range refines the sparse files the
    volume holds at its start. -/
theorem requests_refine (s : Vol) (rs : List Req) (disk : Disk s) (valid : ∀ r ∈ rs, r.Valid s)
    (range : ∀ r ∈ rs, r.InRange) : Refines s (content s) rs :=
  refines_from rs disk valid range fun _ _ => rfl

/- A small volume: blocks 8 to 31 are its data area, block 9 is the header of an empty file -/

def sampleMap : Mem := fun k => if k = 1 then 3 else if k = 2 ∨ k = 3 then 0 else 255

def sampleVol : Vol :=
  { dev := update (fun _ => zero) 2 sampleMap
    fs := { geo := { bamBlock := 2, bamSize := 1, dataBlock := 8, dataSize := 24, rootBlock := 8,
                     ndirblks := 98, nindirlev := 4, readOnly := false, noAtime := false,
                     insecure := false }
            freeBlock := 8, bamBuf := zero, bamCurr := 0, bamDirty := false }
    fso := update (fun _ => Fso.unused) 9 { Fso.unused with
      refcnt := 1, dirty := true, nlink := 1, blocks := 1, mode := 0o644, ndirblks := 98
      nindirlev := 4 }
    files := [9]
    tick := 0 }

def sampleCx : Cx :=
  { io := fun _ => none, nomem := fun _ => none, clock := fun _ => 0, euid := 0, egid := 0 }

theorem sampleVol_used (b : Nat) (lt : b < 4096) (out : b < 10 ∨ 32 ≤ b) : used sampleVol b = true := by
  have block : bamBlk sampleVol (b / 4096) = sampleMap := by
    rw [show b / 4096 = 0 by omega]
    rfl
  rw [used, block, Nat.mod_eq_of_lt lt, bit, sampleMap]
  rcases out with low | high
  · have cases : b = 8 ∨ b = 9 ∨ b / 8 = 0 := by omega
    rcases cases with eq | eq | first
    · rw [eq]
      decide
    · rw [eq]
      decide
    · rw [first]
      exact full_getLsbD _ (Nat.mod_lt _ (by decide))
  · rw [if_neg (by omega), if_neg (by omega)]
    exact full_getLsbD _ (Nat.mod_lt _ (by decide))

theorem sampleVol_bam : BamOk sampleVol := by
  refine ⟨⟨by decide, by decide, by decide, by decide, by decide, by decide⟩, ?_, ?_, ?_⟩
  · intro _ inside
    exact absurd inside (by decide)
  · intro dirty
    cases dirty
  · intro b lt out
    apply sampleVol_used b lt
    simp only [Geo.inData, sampleVol] at out
    omega

theorem single_disk (bam : BamOk s) (files : s.files = [i]) (data : s.fs.geo.inData i)
    (inUse : used s i = true) (ref : (s.fso i).refcnt ≠ 0) (dirty : (s.fso i).dirty = true)
    (valid : (s.fso i).bmapValid = false) (log : (s.fso i).bmapLog < 2 ^ 32) (empty : ∀ k, (s.fso i).bmap k = 0)
    (shape : (s.fso i).hdr.Shape) (closed : ∀ j, j ≠ i → (s.fso j).refcnt = 0) : Disk s := by
  have head : hdr s i = (s.fso i).hdr := hdr_of_open ref
  have bare : holds s i = [i] := by
    have none : (hdr s i).owned s.dev = [] := by
      rw [head]
      simp only [Hdr.owned, flatMap_eq_nil_iff, mem_range]
      intro k lt
      rw [Fso.hdr_bmap _ lt, empty]
      exact Radix.nodes_zero _
    rw [holds, none]
  have single : ∀ j ∈ s.files, j = i := fun j mem => mem_singleton.mp (files ▸ mem)
  refine ⟨bam, by rw [files]; exact nodup_singleton i, ?_, ?_, ?_, ?_, ?_⟩
  · intro j mem
    rw [single j mem, bare]
    exact nodup_singleton i
  · intro j mem j' mem' ne
    exact absurd ((single j mem).trans (single j' mem').symm) ne
  · intro j mem b held
    rw [single j mem, bare, mem_singleton] at held
    rw [held]
    exact ⟨data, inUse⟩
  · intro j mem
    rw [single j mem, head]
    exact shape
  · intro j open'
    by_cases eq : j = i
    · rw [eq]
      refine ⟨by rw [files]; exact mem_singleton_self i, ?_, log, ?_⟩
      · intro cached
        rw [valid] at cached
        cases cached
      · intro clean
        rw [dirty] at clean
        cases clean
    · exact absurd (closed j eq) open'

theorem sample_disk {f : Fso} (ref : f.refcnt ≠ 0) (dirty : f.dirty = true) (valid : f.bmapValid = false)
    (log : f.bmapLog < 2 ^ 32) (empty : ∀ k, f.bmap k = 0) (shape : f.hdr.Shape) :
    Disk (sampleVol.setFso 9 f) := by
  have self : (sampleVol.setFso 9 f).fso 9 = f := update_same sampleVol.fso 9 f
  rw [← self] at ref dirty valid log empty shape
  have data : sampleVol.fs.geo.inData 9 := by decide
  refine single_disk (sampleVol_bam.congr rfl fun _ _ => rfl) rfl data
    (sampleVol_used 9 (by decide) (.inl (by decide))) ref dirty valid log empty shape ?_
  intro j ne
  simp [Vol.setFso, sampleVol, update, ne, Fso.unused]

theorem sampleVol_disk : Disk sampleVol := by
  have disk := sample_disk (f := sampleVol.fso 9) (by decide) rfl rfl (by decide) (fun _ => rfl)
    ⟨⟨by decide, by decide⟩, by decide, by decide⟩
  rw [Vol.setFso, update_self] at disk
  exact disk

theorem sampleVol_valid (cx : r.cx = sampleCx) (target : r.target = 9) : r.Valid sampleVol := by
  refine ⟨?_, ?_, ?_, ?_⟩
  · rw [cx]
    exact fun _ => rfl
  · rw [target]
    decide
  · rw [target]
    decide
  · rw [target]
    decide

/-- A write, a read across its end and a truncation of the sample file. -/
theorem requests_refine_sample :
    let rs := [.write sampleCx 9 510 [1, 2, 3, 4], .read sampleCx 9 509 9, .trunc sampleCx 9]
    Disk sampleVol ∧ Refines sampleVol (content sampleVol) rs := by
  refine ⟨sampleVol_disk, requests_refine sampleVol _ sampleVol_disk ?_ ?_⟩
  · intro r mem
    simp only [mem_cons, not_mem_nil, or_false] at mem
    rcases mem with rfl | rfl | rfl <;> exact sampleVol_valid rfl rfl
  · intro r mem
    simp only [mem_cons, not_mem_nil, or_false] at mem
    rcases mem with rfl | rfl | rfl <;> simp [Req.InRange]

theorem refines_write (refines : Refines s f [.write cx i off data]) (file : i ∈ s.files)
    (ok : ((Req.write cx i off data).run s).1 = .ok []) :
    content ((Req.write cx i off data).run s).2 i = (f i).write off data := by
  obtain ⟨f', meets, same, _⟩ := refines
  rw [ok] at meets
  rw [same i file, meets, update_same]

theorem wrapped_write_ok : ((Req.write sampleCx 9 (2 ^ 64 - 1) [7]).run sampleVol).1 = .ok [] := by
  decide +kernel

theorem wrapped_write_size :
    (content ((Req.write sampleCx 9 (2 ^ 64 - 1) [7]).run sampleVol).2 9).size = 0 := by
  decide +kernel

/-- A byte written at the last offset there is: the call succeeds, but the file stays empty. -/
theorem requests_not_refine_wrapped : ¬ ∀ (s : Vol) (rs : List Req), Disk s →
    (∀ r ∈ rs, r.Valid s) → Refines s (content s) rs := by
  intro all
  have refines := all sampleVol [.write sampleCx 9 (2 ^ 64 - 1) [7]] sampleVol_disk (by
    intro r mem
    rw [mem_singleton.mp mem]
    exact sampleVol_valid rfl rfl)
  have size := wrapped_write_size
  rw [refines_write refines (mem_singleton_self 9) wrapped_write_ok] at size
  simp [File.write] at size

end Natfs
