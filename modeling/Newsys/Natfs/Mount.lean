import Newsys.Natfs.Bam

/- Mounting a native volume (kern/fs/nat/mount.c). -/
namespace Natfs
open Bytes Cmds Cmd

def Fso.unused : Fso :=
  { refcnt := 0, dirty := false, nlink := 0, uid := 0, gid := 0, atime := 0, ctime := 0,
    mtime := 0, blocks := 0, mode := 0, size := 0, rdev := 0, bmapValid := false, bmapLog := 0,
    bmapPhys := 0, bmap := fun _ => 0, ndirblks := 0, nindirlev := 0 }

/-- The `struct fs` that `fs_mount` hands to the file system: cleared, with the mount flags. -/
def freshVol (dev : Image) (readOnly noAtime insecure : Bool) : Vol :=
  { dev := dev
    fs := { geo := { bamBlock := 0, bamSize := 0, dataBlock := 0, dataSize := 0, rootBlock := 0,
                     ndirblks := 0, nindirlev := 0, readOnly := readOnly, noAtime := noAtime,
                     insecure := insecure }
            freeBlock := 0, bamBuf := zero, bamCurr := 0, bamDirty := false }
    fso := fun _ => Fso.unused
    files := []
    tick := 0 }

def natMount (cx : Cx) : NatM Unit := do
  let sb ← blkRead cx 1
  if sbMagic sb ≠ natMagic then fail .EINVAL else
    modify fun s => { s with fs :=
      { geo := { s.fs.geo with
          bamBlock := sbBamBlock sb, bamSize := sbBamSize sb, dataBlock := sbDataBlock sb
          dataSize := sbDataSize sb, rootBlock := sbRootBlock sb, ndirblks := sbNdirblks sb
          nindirlev := sbNindirlev sb }
        freeBlock := sbDataBlock sb, bamBuf := s.fs.bamBuf, bamCurr := 0, bamDirty := false } }
    let s ← get
    if s.fs.geo.readOnly then pure () else blkFill 1 (setLE sb 32 4 1)

def geoOf (sb : Mem) (flags : Geo) : Geo :=
  { flags with
    bamBlock := sbBamBlock sb, bamSize := sbBamSize sb, dataBlock := sbDataBlock sb
    dataSize := sbDataSize sb, rootBlock := sbRootBlock sb, ndirblks := sbNdirblks sb
    nindirlev := sbNindirlev sb }

theorem wp_natMount (noio : cx.NoIoError) (magic : sbMagic (s.dev 1) = natMagic)
    (post : ∀ s', s'.fs.geo = geoOf (s.dev 1) s.fs.geo → s'.fs.bamCurr = 0 →
      s'.fs.bamDirty = false → s'.fso = s.fso → s'.files = s.files →
      (∀ x, x ≠ 1 → s'.dev x = s.dev x) → Q (.ok ()) s') : wp (natMount cx) Q s := by
  simp only [natMount, wp_bind, wp_blkRead noio, after_ok]
  rw [if_neg (by simpa using magic)]
  simp only [wp_bind, wp_modify, after_ok, wp_get]
  split
  · exact post _ rfl rfl rfl rfl rfl (fun _ _ => rfl)
  · refine post _ rfl rfl rfl rfl rfl ?_
    intro x ne
    exact update_ne _ _ _ ne

end Natfs
