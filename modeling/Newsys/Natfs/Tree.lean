import Newsys.Lib.Links
import Newsys.Natfs.Dir

/- The files of a volume as a graph of directories and links, and what each step of the operations
   on directories does to that graph. -/
namespace Natfs
open Bytes Cmds Links List Function

/-- A volume on which every file counts its blocks and every directory is in order, and that gives
    new files block maps that work. -/
structure InOrder (s : Vol) : Prop where
  disk : Disk s
  counted : ∀ i ∈ s.files, (hdr s i).Counted s.dev
  dirs : ∀ d ∈ s.files, isDir s d → DirOk s d
  levels : 1 ≤ s.fs.geo.nindirlev ∧ s.fs.geo.nindirlev ≤ 4
  direct : s.fs.geo.ndirblks ≤ 114

abbrev Tree := Links.Graph Nat Name

instance (s : Vol) (d : Nat) : Decidable (isDir s d) := inferInstanceAs (Decidable (_ = _))

def tree (s : Vol) : Tree :=
  { root := s.fs.geo.rootBlock
    nodes := s.files
    dir := fun i => isDir s i
    nlink := fun i => (obj s i).nlink
    users := fun i => (s.fso i).refcnt
    ents := fun d => if isDir s d then live s d else [] }

structure Depicts (s : Vol) (G : Tree) : Prop where
  inOrder : InOrder s
  root : s.fs.geo.rootBlock = G.root
  nodes : s.files = G.nodes
  dir : ∀ i ∈ s.files, isDir s i ↔ G.dir i = true
  nlink : ∀ i ∈ s.files, (obj s i).nlink = G.nlink i
  users : ∀ i, (s.fso i).refcnt = G.users i
  ents : ∀ d ∈ s.files, isDir s d → (live s d).Perm (G.ents d)
  plain : ∀ d ∈ s.files, ¬ isDir s d → G.ents d = []

theorem InOrder.depicts (ok : InOrder s) : Depicts s (tree s) := by
  refine ⟨ok, rfl, rfl, ?_, fun _ _ => rfl, fun _ => rfl, ?_, ?_⟩
  · intro i _
    simp only [tree, decide_eq_true_eq]
  · intro d _ dir
    simp only [tree, if_pos dir]
    exact .refl _
  · intro d _ plain
    simp only [tree, if_neg plain]

theorem InOrder.distinct (ok : InOrder s) : (tree s).Distinct := by
  intro d file
  show ((if isDir s d then live s d else []).map Prod.fst).Nodup
  split
  · rename_i dir
    exact (ok.dirs d file dir).distinct
  · exact nodup_nil

theorem Depicts.same (dep : Depicts s G) : Links.Graph.Same G (tree s) := by
  refine ⟨dep.root, dep.nodes, ?_, ?_, fun x _ => dep.users x, ?_⟩ <;> rw [← dep.nodes] <;> intro x mem
  · have kind := dep.dir x mem
    show decide (isDir s x) = G.dir x
    cases value : G.dir x with
    | true => exact decide_eq_true (kind.mpr value)
    | false =>
      refine decide_eq_false fun dir => ?_
      rw [kind.mp dir] at value
      cases value
  · exact dep.nlink x mem
  · by_cases dir : isDir s x
    · simp only [tree, if_pos dir]
      exact dep.ents x mem dir
    · simp only [tree, if_neg dir]
      rw [dep.plain x mem dir]

theorem Kept.dirOk (k : Kept s t d) (fso : t.fso d = s.fso d) (ok : DirOk s d) : DirOk t d := by
  have same := k.obj
  refine ok.congr (by rw [same]) (by rw [same]) (fun log _ => k.trees.2 log) ?_
  rw [fso]
  exact ok.wide

structure DepictsAt (s : Vol) (G : Tree) (i : Nat) : Prop where
  counted : (hdr s i).Counted s.dev
  dirOk : isDir s i → DirOk s i
  dir : isDir s i ↔ G.dir i = true
  nlink : (obj s i).nlink = G.nlink i
  ents : isDir s i → (live s i).Perm (G.ents i)
  plain : ¬ isDir s i → G.ents i = []

structure Hdr.Fresh (h : Hdr) : Prop extends Hdr.Map h where
  size : h.size = 0
  nlink : h.nlink = 1
  blocks : h.blocks = 1
  bmap : ∀ k, k < 114 → h.bmap k = 0

namespace Hdr.Fresh
variable {h : Hdr}

theorem owned (f : h.Fresh) (dev : Image) : h.owned dev = [] := by
  rw [Hdr.owned, flatMap_eq_nil_iff]
  intro k mem
  rw [f.bmap k (List.mem_range.mp mem)]
  exact Radix.nodes_zero _

theorem shape (f : h.Fresh) : h.Shape :=
  ⟨f.toMap, by rw [f.nlink]; decide, by rw [f.blocks]; decide⟩

theorem counted (f : h.Fresh) (dev : Image) : h.Counted dev := by
  rw [Hdr.Counted, f.owned, f.blocks]
  rfl

end Hdr.Fresh

namespace Depicts
variable {s t : Vol} {G H : Tree} {i d : Nat}

section
variable (dep : Depicts s G)
include dep

theorem at' (file : i ∈ s.files) : DepictsAt s G i :=
  ⟨dep.inOrder.counted i file, dep.inOrder.dirs i file, dep.dir i file, dep.nlink i file, dep.ents i file,
    dep.plain i file⟩

theorem step (only : Only s t i) (disk : Disk t) (nodes : t.files = H.nodes)
    (root : H.root = G.root)
    (off : ∀ j, j ≠ i → H.dir j = G.dir j ∧ H.nlink j = G.nlink j ∧ H.users j = G.users j ∧
      H.ents j = G.ents j)
    (users : (t.fso i).refcnt = H.users i) (self : i ∈ t.files → DepictsAt t H i) : Depicts t H := by
  have all : ∀ j ∈ t.files, DepictsAt t H j := by
    intro j file
    by_cases eq : j = i
    · rw [eq] at file ⊢
      exact self file
    · have old := (only.files j eq).mp file
      have before := dep.at' old
      have kept := only.kept old eq
      obtain ⟨dir, nlink, _, ents⟩ := off j eq
      have kind : isDir t j ↔ isDir s j := by rw [isDir, isDir, kept.hdr]
      refine ⟨kept.counted before.counted, ?_, ?_, ?_, ?_, ?_⟩
      · exact fun h => kept.dirOk (only.fso j eq) (before.dirOk (kind.mp h))
      · rw [kind, dir]
        exact before.dir
      · rw [kept.obj, nlink]
        exact before.nlink
      · rw [live_congr kept.obj, ents]
        exact fun h => before.ents (kind.mp h)
      · rw [ents]
        exact fun h => before.plain fun h' => h (kind.mpr h')
  refine ⟨⟨disk, fun j file => (all j file).counted, fun j file => (all j file).dirOk,
    by rw [only.geo]; exact dep.inOrder.levels, by rw [only.geo]; exact dep.inOrder.direct⟩, ?_, nodes,
    fun j file => (all j file).dir, fun j file => (all j file).nlink, ?_, fun j file => (all j file).ents,
    fun j file => (all j file).plain⟩
  · rw [only.geo, root]
    exact dep.root
  · intro j
    by_cases eq : j = i
    · rw [eq]
      exact users
    · rw [only.fso j eq, (off j eq).2.2.1]
      exact dep.users j

theorem quiet (q : Quiet s t hold) : Depicts t (G.hold hold) := by
  have kind : ∀ j, isDir t j ↔ isDir s j := fun j => by rw [isDir, isDir, q.hdr]
  refine ⟨⟨q.disk, ?_, ?_, by rw [q.fs]; exact dep.inOrder.levels, by rw [q.fs]; exact dep.inOrder.direct⟩,
    by rw [q.fs]; exact dep.root, by rw [q.files]; exact dep.nodes, ?_, ?_, ?_, ?_, ?_⟩
  · intro i file
    rw [q.hdr, q.dev]
    exact dep.inOrder.counted i (q.files ▸ file)
  · intro d file dir
    exact q.dirOk (dep.inOrder.dirs d (q.files ▸ file) ((kind d).mp dir))
  · intro i file
    rw [kind]
    exact dep.dir i (q.files ▸ file)
  · intro i file
    rw [q.obj]
    exact dep.nlink i (q.files ▸ file)
  · intro i
    rw [q.refcnt, dep.users]
    rfl
  · intro d file dir
    rw [live_congr (q.obj d)]
    exact dep.ents d (q.files ▸ file) ((kind d).mp dir)
  · intro d file plain
    exact dep.plain d (q.files ▸ file) fun dir => plain ((kind d).mpr dir)

theorem worked (w : Worked s t i) (ref : (s.fso i).refcnt ≠ 0)
    (dirOk : isDir s i → DirOk t i) (ents : isDir s i → (live t i).Perm l)
    (plain : ¬ isDir s i → l = []) : Depicts t (G.setEnts i l) := by
  have file := (dep.inOrder.disk.opened i ref).file
  have ref' : (t.fso i).refcnt ≠ 0 := by rw [w.refcnt]; exact ref
  have kind : isDir t i ↔ isDir s i := by
    rw [isDir, isDir, hdr_of_open ref', hdr_of_open ref]
    simp only [Fso.hdr, w.mode]
  have nlink : (obj t i).nlink = (obj s i).nlink := by
    rw [obj, obj, hdr_of_open ref', hdr_of_open ref]
    exact w.nlink
  have before := dep.at' file
  refine dep.step w.only w.disk (w.files.trans dep.nodes) rfl ?_ ?_ ?_
  · intro j ne
    exact ⟨rfl, rfl, rfl, Links.Graph.ents_setEnts_ne G l ne⟩
  · rw [w.refcnt]
    exact dep.users i
  · intro _
    refine ⟨w.counted before.counted, fun h => dirOk (kind.mp h), kind.trans before.dir,
      nlink.trans before.nlink, ?_, ?_⟩
    · rw [Links.Graph.ents_setEnts_same]
      exact fun h => ents (kind.mp h)
    · rw [Links.Graph.ents_setEnts_same]
      exact fun h => plain fun h' => h (kind.mpr h')

theorem edited (e : Edited s t d l)
    (ref : (s.fso d).refcnt ≠ 0) (dir : isDir s d) : Depicts t (G.setEnts d l) :=
  dep.worked e.worked ref (fun _ => e.ok) (fun _ => e.live) fun plain => absurd dir plain

theorem titled (ref : (s.fso i).refcnt ≠ 0) (title : Retitled (s.fso i) f)
    (size : f.size = (s.fso i).size) : Depicts (s.setFso i f) (G.setLinks i f.nlink) := by
  have disk := dep.inOrder.disk
  have file := (disk.opened i ref).file
  have set := disk.setAttrs ref title
  have ref' : ((s.setFso i f).fso i).refcnt ≠ 0 := by rw [set.self, title.refcnt]; exact ref
  have kind : isDir (s.setFso i f) i ↔ isDir s i := by
    rw [isDir, isDir, hdr_of_open ref', hdr_of_open ref, set.self]
    simp only [Fso.hdr, title.mode]
  have same : obj (s.setFso i f) i = { obj s i with nlink := f.nlink } := by
    rw [set.obj, size, obj, hdr_of_open ref]
    rfl
  have entries : live (s.setFso i f) i = live s i := live_eq (by rw [same]) (by rw [same])
  have before := dep.at' file
  refine dep.step set.only set.disk dep.nodes rfl ?_ ?_ ?_
  · intro j ne
    exact ⟨rfl, update_of_ne ne .., rfl, rfl⟩
  · rw [set.self, title.refcnt]
    exact dep.users i
  · intro _
    refine ⟨set.counted before.counted, ?_, kind.trans before.dir, ?_, ?_, fun h => before.plain fun h' => h (kind.mpr h')⟩
    · intro dir
      have ok := before.dirOk (kind.mp dir)
      refine ok.congr (by rw [same]) (by rw [same]) (fun log _ => set.phys log) ?_
      intro _
      rw [set.self, size]
      exact ok.wide ref
    · rw [same]
      show f.nlink = Function.update G.nlink i f.nlink i
      rw [Function.update_self]
    · rw [entries]
      exact fun h => before.ents (kind.mp h)

theorem dated (ref : (s.fso i).refcnt ≠ 0) (title : Retitled (s.fso i) f)
    (size : f.size = (s.fso i).size) (nlink : f.nlink = (s.fso i).nlink) : Depicts (s.setFso i f) G := by
  have file := (dep.inOrder.disk.opened i ref).file
  have titled := dep.titled ref title size
  have links : G.setLinks i f.nlink = G := by
    have value : f.nlink = G.nlink i := by
      rw [nlink, ← dep.nlink i file, obj, hdr_of_open ref]
      rfl
    rw [Links.Graph.setLinks, value, update_eq_self]
  rw [links] at titled
  exact titled

theorem truncated (tr : Truncated s t i) (ref : (s.fso i).refcnt ≠ 0) :
    Depicts t (G.setEnts i []) := by
  have size : (obj t i).size = 0 := by rw [tr.obj ref]
  refine dep.worked ⟨tr.disk, tr.only, tr.files, by rw [tr.self], by rw [tr.self], by rw [tr.self],
    fun _ => tr.counted ref⟩ ref ?_ ?_ (fun _ => rfl)
  · intro _
    refine .empty size fun _ => ?_
    rw [tr.self]
    exact Nat.pow_pos (by decide)
  · rw [live_empty size]
    exact fun _ => .refl _

theorem closed (c : Closed s t i) (ref : (s.fso i).refcnt ≠ 0) : Depicts t (G.put i) := by
  have file := (dep.inOrder.disk.opened i ref).file
  have count := dep.users i
  have nlink : (s.fso i).nlink = G.nlink i := by
    rw [← dep.nlink i file, obj, hdr_of_open ref]
    rfl
  have before := dep.at' file
  have same := c.fate
  rw [count, nlink] at same
  rw [Links.Graph.put]
  rcases same with ⟨kept, files, still⟩ | ⟨last, files⟩
  · have kind : isDir t i ↔ isDir s i := by rw [isDir, isDir, still.hdr]
    rw [if_neg kept]
    refine dep.step c.only c.disk (files.trans dep.nodes) rfl ?_ ?_ ?_
    · intro j ne
      exact ⟨rfl, rfl, Function.update_of_ne ne .., rfl⟩
    · rw [c.refcnt, count]
      show _ = Function.update G.users i (G.users i - 1) i
      rw [Function.update_self]
    · intro _
      refine ⟨still.counted before.counted, ?_, kind.trans before.dir, ?_, ?_,
        fun h => before.plain fun h' => h (kind.mpr h')⟩
      · intro dir
        have ok := before.dirOk (kind.mp dir)
        have obj := still.obj
        refine ok.congr (by rw [obj]) (by rw [obj]) (fun log _ => still.trees.2 log) ?_
        intro open'
        rw [c.size open']
        exact ok.wide ref
      · rw [still.obj]
        exact before.nlink
      · rw [live_congr still.obj]
        exact fun h => before.ents (kind.mp h)
  · rw [if_pos last]
    refine dep.step c.only c.disk ?_ rfl ?_ ?_ ?_
    · rw [files, dep.nodes]
      rfl
    · intro j ne
      exact ⟨rfl, rfl, Function.update_of_ne ne .., rfl⟩
    · rw [c.refcnt, count, last.1]
      show _ = Function.update G.users i 0 i
      rw [Function.update_self]
    · intro mem
      rw [files] at mem
      exact absurd mem dep.inOrder.disk.files.not_mem_erase

theorem mapped (bam : BamOk t) (frame : BamFrame s t)
    (mark : ∀ b, s.fs.geo.inData b → used s b = true → used t b = true) : Depicts t G := by
  have disk := dep.inOrder.disk
  -- no file has number 0, so this is a step on none of them
  have none : 0 ∉ s.files := by
    intro file
    exact absurd (data_pos disk.bam.geo (disk.data 0 file 0 (mem_cons_self ..)).1) (Nat.lt_irrefl 0)
  have none' : 0 ∉ t.files := by rw [frame.files]; exact none
  have only : Only s t 0 := by
    refine ⟨bam, frame.geo, by rw [frame.files]; exact disk.files, fun j _ => by rw [frame.files],
      fun j _ => by rw [frame.fso], ?_⟩
    intro j file _ b mem
    exact frame.dev b (data_not_bam disk.bam.geo (disk.data j file b mem).1)
  have disk' : Disk t := by
    refine only.disk disk (fun h => absurd h none') (fun h => absurd h none') (fun h => absurd h none')
      (fun h => absurd h none') ?_ ?_
    · intro j file _ b mem
      obtain ⟨inside, set⟩ := disk.data j file b mem
      exact mark b inside set
    · intro ref
      rw [frame.fso] at ref
      exact absurd (disk.opened 0 ref).file none
  exact dep.step only disk' (frame.files.trans dep.nodes) rfl (fun _ _ => ⟨rfl, rfl, rfl, rfl⟩)
    (by rw [frame.fso]; exact dep.users 0) fun h => absurd h none'

theorem unfiled (free : used s i = false) : i ∉ s.files := by
  intro file
  have set := (dep.inOrder.disk.data i file i (mem_cons_self ..)).2
  rw [free] at set
  cases set

theorem unopened (absent : i ∉ s.files) : (s.fso i).refcnt = 0 := by
  apply Classical.byContradiction
  exact fun ref => absent (dep.inOrder.disk.opened i ref).file

theorem created (alloc : Allocated s t start i)
    (fs : u.fs = t.fs) (fso : u.fso = t.fso) (files : u.files = i :: t.files)
    (others : ∀ b, b ≠ i → u.dev b = t.dev b) (fresh : (loadFso s.fs.geo (u.dev i)).hdr.Fresh) :
    Depicts u (G.add i (decide ((loadFso s.fs.geo (u.dev i)).hdr.kind = 0o30000))) := by
  have disk := dep.inOrder.disk
  have absent := dep.unfiled alloc.free
  have frame := alloc.marked.frame
  have geo : u.fs.geo = s.fs.geo := by rw [fs]; exact frame.geo
  rw [frame.files] at files
  rw [frame.fso] at fso
  have bam : ∀ x, t.fs.geo.inBam x → u.dev x = t.dev x := by
    intro x inBam
    apply others
    rintro rfl
    exact data_not_bam disk.bam.geo alloc.data (frame.geo ▸ inBam)
  have mark : ∀ b, s.fs.geo.inData b → used u b = if b = i then true else used s b := by
    intro b inside
    have covered := data_covered disk.bam.geo inside
    rw [used_congr (by rw [fs]) (by rw [fs]) (by rw [fs]) (by rw [frame.geo]; exact covered) bam]
    exact alloc.marked.used b covered
  have foreign : ∀ j ∈ s.files, ∀ b ∈ holds s j, b ≠ i := by
    rintro j file b mem rfl
    have set := (disk.data j file b mem).2
    rw [alloc.free] at set
    cases set
  have head : hdr u i = (loadFso s.fs.geo (u.dev i)).hdr := by
    rw [hdr_of_closed (by rw [fso]; exact dep.unopened absent), savedHdr, geo]
  have held : holds u i = [i] := by rw [holds, head, fresh.owned]
  have only : Only s u i := by
    refine ⟨alloc.marked.ok.congr fs bam, geo, ?_, ?_, fun j _ => by rw [fso], ?_⟩
    · rw [files]
      exact List.nodup_cons.mpr ⟨absent, disk.files⟩
    · intro j ne
      rw [files, mem_cons]
      exact or_iff_right ne
    · intro j file _ b mem
      rw [others b (foreign j file b mem)]
      exact frame.dev b (data_not_bam disk.bam.geo (disk.data j file b mem).1)
  have disk' : Disk u := by
    refine only.disk disk ?_ ?_ ?_ ?_ ?_ ?_ <;> intro file
    · rw [held]
      exact nodup_singleton i
    · rw [head]
      exact fresh.shape
    · intro b mem
      rw [held, mem_singleton] at mem
      rw [mem, mark i alloc.data, if_pos rfl]
      exact ⟨alloc.data, rfl⟩
    · intro b mem
      rw [held, mem_singleton] at mem
      rw [mem]
      exact .inr alloc.free
    · intro mem _ b held
      obtain ⟨inside, set⟩ := disk.data file mem b held
      rw [mark b inside, if_neg (foreign file mem b held)]
      exact set
    · rw [fso] at file
      exact absurd (dep.unopened absent) file
  have size : (obj u i).size = 0 := by rw [obj, head]; exact fresh.size
  refine dep.step only disk' (by rw [files, dep.nodes]; rfl) rfl ?_ ?_ ?_
  · intro j ne
    exact ⟨update_of_ne ne .., update_of_ne ne .., rfl, update_of_ne ne ..⟩
  · rw [fso]
    exact dep.users i
  · intro _
    refine ⟨by rw [head]; exact fresh.counted _, ?_, ?_, ?_, ?_, ?_⟩
    · intro _
      refine .empty size fun ref => ?_
      rw [fso] at ref
      exact absurd (dep.unopened absent) ref
    · show isDir u i ↔ Function.update G.dir i _ i = true
      rw [Function.update_self, decide_eq_true_eq, isDir, head]
    · show (obj u i).nlink = Function.update G.nlink i 1 i
      rw [Function.update_self, obj, head]
      exact fresh.nlink
    · intro _
      rw [live_empty size]
      show List.Perm [] (Function.update G.ents i [] i)
      rw [Function.update_self]
    · intro _
      exact Function.update_self ..

theorem removed (file : i ∈ s.files) (closed : (s.fso i).refcnt = 0)
    (free : Marked s t i false) (fs : u.fs = t.fs) (fso : u.fso = t.fso) (dev : u.dev = t.dev)
    (files : u.files = t.files.erase i) : Depicts u (G.drop i) := by
  have disk := dep.inOrder.disk
  have frame := free.frame
  rw [frame.files] at files
  rw [frame.fso] at fso
  have absent : i ∉ u.files := by
    rw [files]
    exact disk.files.not_mem_erase
  have only : Only s u i := by
    refine ⟨free.ok.congr fs fun x _ => by rw [dev], by rw [fs]; exact frame.geo, ?_, ?_,
      fun j _ => by rw [fso], ?_⟩
    · rw [files]
      exact disk.files.erase i
    · intro j ne
      rw [files, disk.files.mem_erase_iff]
      exact ⟨And.right, fun mem => ⟨ne, mem⟩⟩
    · intro j other _ b mem
      rw [dev]
      exact frame.dev b (data_not_bam disk.bam.geo (disk.data j other b mem).1)
  have disk' : Disk u := by
    refine only.disk disk (fun h => absurd h absent) (fun h => absurd h absent) (fun h => absurd h absent)
      (fun h => absurd h absent) ?_ ?_
    · intro j other ne b mem
      obtain ⟨inside, set⟩ := disk.data j other b mem
      have apart : b ≠ i := by
        rintro rfl
        exact disk.apart j other b file ne b mem (mem_cons_self ..)
      have covered := data_covered disk.bam.geo inside
      have same : used u b = used t b := used_congr (by rw [fs]) (by rw [fs]) (by rw [fs])
        (by rw [frame.geo]; exact covered) fun x _ => by rw [dev]
      rw [same, free.used b covered, if_neg apart]
      exact set
    · intro ref
      rw [fso] at ref
      exact absurd closed ref
  exact dep.step only disk' (by rw [files, dep.nodes]; rfl) rfl (fun _ _ => ⟨rfl, rfl, rfl, rfl⟩)
    (by rw [fso]; exact dep.users i) fun h => absurd h absent

end

end Depicts

end Natfs
