import Newsys.Natfs.Rw

/- Allocation followed by truncation (kern/fs/nat/bmap.c): the walk that frees goes down as many
   levels as the walk that maps, so that the map of the volume is what it was. -/
namespace Natfs.Reclaim
open Bytes Cmds Cmd List

/-- Calls of `nat_bmap` with allocation, whatever each of them returns. -/
def mapBlocks (cx : Cx) (i : Nat) (logs : List Nat) : NatM Unit :=
  forEach logs fun log => do
    let _ ← attempt (natBmap cx i log true)
    pure ()

structure Mapped (s s' : Vol) (i : Nat) : Prop where
  disk : Disk s'
  geo : s'.fs.geo = s.fs.geo
  files : s'.files = s.files
  refcnt : (s'.fso i).refcnt = (s.fso i).refcnt
  elsewhere : Elsewhere s s' i

theorem Mapped.refl (disk : Disk s) (i : Nat) : Mapped s s i :=
  ⟨disk, rfl, rfl, rfl, .refl s i⟩

theorem Mapped.grow (m : Mapped s t i) (ext : Extended t u i)
    (elsewhere : Elsewhere t u i) : Mapped s u i :=
  ⟨ext.disk, ext.only.geo.trans m.geo, ext.files.trans m.files, ext.attrs.refcnt.trans m.refcnt,
    m.elsewhere.trans m.geo elsewhere⟩

theorem wp_mapBlocks (noio : cx.NoIoError) (disk : Disk s)
    (ref : (s.fso i).refcnt ≠ 0) (small : ∀ log ∈ logs, log < 2 ^ 32)
    (post : ∀ s', Mapped s s' i → Q (.ok ()) s') : wp (mapBlocks cx i logs) Q s := by
  refine Cmd.wp_forEach (fun rest t => Mapped s t i ∧ ∀ log ∈ rest, log < 2 ^ 32)
    ⟨.refl disk i, small⟩ (fun t inv => post t inv.1) ?_
  intro log rest t inv
  obtain ⟨mapped, bound⟩ := inv
  have bound' : ∀ log ∈ rest, log < 2 ^ 32 := fun x mem => bound x (mem_cons_of_mem _ mem)
  have ref' : (t.fso i).refcnt ≠ 0 := by
    rw [mapped.refcnt]
    exact ref
  simp only [wp_bind, wp_attempt]
  apply wp_natBmap_grow noio mapped.disk ref' (bound log (mem_cons_self ..))
  · intro u ext elsewhere _ _
    exact ⟨mapped.grow ext elsewhere, bound'⟩
  · intro u ext elsewhere
    exact ⟨mapped.grow ext elsewhere, bound'⟩
  · intro _
    exact ⟨mapped, bound'⟩

/-- What `nat_trunc` has done to file `i`: `s` is the volume before it, `s'` after it. -/
structure Reclaimed (s s' : Vol) (i : Nat) : Prop where
  exact : ∀ b, b < 4096 * s.fs.geo.bamSize →
    (used s' b = true ↔ used s b = true ∧ b ∉ (hdr s i).owned s.dev)
  owned : ∀ b ∈ (hdr s i).owned s.dev, b < 4096 * s.fs.geo.bamSize ∧ used s b = true
  once : ((hdr s i).owned s.dev).Nodup
  header : i ∉ (hdr s i).owned s.dev ∧ used s' i = true
  others : ∀ j ∈ s.files, j ≠ i → ∀ b ∈ holds s j, b ∉ (hdr s i).owned s.dev ∧ used s' b = true
  bmap : ∀ k, k < 114 → (s'.fso i).bmap k = 0
  forgotten : (s'.fso i).bmapValid = false
  size : (s'.fso i).size = 0
  blocks : (s'.fso i).blocks = 1

theorem reclaimed_of_truncated (disk : Disk s) (file : i ∈ s.files)
    (cut : Truncated s s' i) (freed : ∀ b, b < 4096 * s.fs.geo.bamSize →
      (used s' b = true ↔ used s b = true ∧ b ∉ (hdr s i).owned s.dev)) : Reclaimed s s' i := by
  have own := disk.nodup i file
  rw [holds, nodup_cons] at own
  -- a block of a file that is not given back stays in use
  have still : ∀ j ∈ s.files, ∀ b ∈ holds s j, b ∉ (hdr s i).owned s.dev → used s' b = true := by
    intro j other b mem apart
    obtain ⟨inside, inUse⟩ := disk.data j other b mem
    exact (freed b (data_covered disk.bam.geo inside)).mpr ⟨inUse, apart⟩
  refine ⟨freed, ?_, own.2, ⟨own.1, still i file i (mem_cons_self ..) own.1⟩, ?_, ?_, ?_, ?_, ?_⟩
  · intro b mem
    obtain ⟨inside, inUse⟩ := disk.data i file b (mem_cons_of_mem _ mem)
    exact ⟨data_covered disk.bam.geo inside, inUse⟩
  · intro j other ne b mem
    have apart : b ∉ (hdr s i).owned s.dev := fun mem' =>
      disk.apart j other i file ne b mem (mem_cons_of_mem _ mem')
    exact ⟨apart, still j other b mem apart⟩
  · intro k lt
    rw [cut.self]
    exact if_pos lt
  · rw [cut.self]
  · rw [cut.self]
  · rw [cut.self]

/-- However the block map of an empty file was filled, truncation gives back the blocks of the
    file and no others, and the map of the volume is as before. -/
theorem trunc_restores_map {cx : Cx} (noio : cx.NoIoError) {s : Vol} {i : Nat} (disk : Disk s)
    (ref : (s.fso i).refcnt ≠ 0) (empty : ∀ k, k < 114 → (s.fso i).bmap k = 0) (logs : List Nat)
    (small : ∀ log ∈ logs, log < 2 ^ 32) :
    wp (mapBlocks cx i logs) (fun r s₁ => r = .ok () ∧
      wp (natTrunc cx i) (fun r s₂ => r = .ok () ∧ Reclaimed s₁ s₂ i ∧
        ∀ b, b < 4096 * s.fs.geo.bamSize → used s₂ b = used s b) s₁) s := by
  apply wp_mapBlocks noio disk ref small
  intro s₁ mapped
  have ref' : (s₁.fso i).refcnt ≠ 0 := by
    rw [mapped.refcnt]
    exact ref
  refine ⟨rfl, ?_⟩
  apply wp_natTrunc_exact noio mapped.disk ref'
  intro s₂ cut freed
  refine ⟨rfl, reclaimed_of_truncated mapped.disk (mapped.disk.opened i ref').file cut freed, ?_⟩
  intro b lt
  have nothing : (hdr s i).owned s.dev = [] := by
    rw [hdr_of_open ref, Hdr.owned, flatMap_eq_nil_iff]
    intro k mem
    rw [Fso.hdr_bmap _ (List.mem_range.mp mem), empty k (List.mem_range.mp mem)]
    exact Radix.nodes_zero ..
  have back : used s₂ b = true ↔ used s b = true := by
    have outside := mapped.elsewhere b lt
    rw [nothing] at outside
    rw [freed b (by rw [mapped.geo]; exact lt), outside]
    simp
  exact Bool.eq_iff_iff.mpr back

/-- Direct and indirect blocks of the sample file, one of them twice. -/
theorem trunc_restores_map_sample : Disk sampleVol ∧
    wp (mapBlocks sampleCx 9 [3, 98, 2 ^ 28, 3]) (fun r s₁ => r = .ok () ∧
      wp (natTrunc sampleCx 9) (fun r s₂ => r = .ok () ∧ Reclaimed s₁ s₂ 9 ∧
        ∀ b, b < 4096 * sampleVol.fs.geo.bamSize → used s₂ b = used sampleVol b) s₁) sampleVol :=
  ⟨sampleVol_disk, trunc_restores_map (fun _ => rfl) sampleVol_disk (by decide) (fun _ _ => rfl) _
    (by decide)⟩

end Natfs.Reclaim
