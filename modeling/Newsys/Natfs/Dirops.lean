import Newsys.Natfs.Path

/- The operations that make, name, rename and remove files (kern/fs/nat/dir.c). -/
namespace Natfs
open Bytes Cmds Cmd Links List

def newHeader (cx : Cx) (geo : Geo) (mode rdev now : Nat) : Mem :=
  let hd := setLE zero 16 8 now
  let hd := setLE hd 0 8 now
  let hd := setLE hd 8 8 now
  let hd := setLE hd 24 4 cx.euid
  let hd := setLE hd 28 4 cx.egid
  let hd := setLE hd 36 4 mode
  let hd := setLE hd 40 4 1
  let hd := setLE hd 44 4 1
  let hd := setLE hd 48 4 rdev
  let hd := setLE hd 52 1 geo.ndirblks
  setLE hd 53 1 geo.nindirlev

/-- The file exists from the moment its header is there; it goes again when it gets no entry. -/
def natCreat (cx : Cx) (name : CStr) (mode rdev : Nat) : NatM Nat := do
  let dir ← lookupDir cx name
  onError (fsChkPerm cx dir wOk) (fsPutfso cx dir)
  let nr ← onError (natBalloc cx) (fsPutfso cx dir)
  onError (blkGet cx nr) (do
    let _ ← attempt (natBfree cx nr)
    fsPutfso cx dir)
  let now ← clockTime cx
  modify fun s => { s.setDev nr (newHeader cx s.fs.geo mode rdev now) with files := nr :: s.files }
  let err ← attempt (newEntry cx dir name.base nr)
  fsPutfso cx dir
  match err with
  | .error e => do
    let _ ← attempt (natBfree cx nr)
    modify fun s => { s with files := s.files.erase nr }
    fail e
  | .ok () => do
    fsGetfso cx nr
    pure nr

def natLink (cx : Cx) (i : Nat) (name : CStr) : NatM Unit := do
  let s ← get
  if sIsdir (s.fso i).mode then fail .EISDIR
  else
    let dir ← lookupDir cx name
    let err ← attempt (newEntry cx dir name.base i)
    fsPutfso cx dir
    match err with
    | .error e => fail e
    | .ok () => do
      let now ← clockTime cx
      modifyFso i fun f => { f with ctime := now, nlink := (f.nlink + 1) % 2 ^ 32, dirty := true }

def dropLink (i : Nat) : NatM Unit :=
  modifyFso i fun f => { f with nlink := (f.nlink + 2 ^ 32 - 1) % 2 ^ 32, dirty := true }

def touch (cx : Cx) (d : Nat) : NatM Unit := do
  let now ← clockTime cx
  modifyFso d fun f => { f with mtime := now, dirty := true }

def natUnlink (cx : Cx) (name : CStr) : NatM Unit := do
  let dir ← lookupDir cx name
  onError (fsChkPerm cx dir (xOk ||| wOk)) (fsPutfso cx dir)
  let p ← onError (findEntry cx dir name.base) (fsPutfso cx dir)
  let s ← get
  let f := deFirstBlock (s.dev p.1) p.2
  onError (fsGetfso cx f) (fsPutfso cx dir)
  let s ← get
  if sIsdir (s.fso f).mode then
    fsPutfso cx dir
    fsPutfso cx f
    fail .EISDIR
  else
    clearEntry p
    dropLink f
    touch cx dir
    fsPutfso cx dir
    fsPutfso cx f

/-- The entry that `nat_rename` finds under the new name is taken over: what it named loses a link,
    and it gets the block number of the old entry `p`. -/
def renameOver (cx : Cx) (ndir : Nat) (name : Name) (p : DirentPtr) : NatM Unit := do
  let np ← findEntry cx ndir name
  let s ← get
  let f := deFirstBlock (s.dev np.1) np.2
  fsGetfso cx f
  let s ← get
  if sIsdir (s.fso f).mode then onError (isEmpty cx f) (fsPutfso cx f) else pure ()
  dropLink f
  fsPutfso cx f
  modify fun s => s.setDev np.1 (blit (clearDirent (s.dev np.1) np.2) (32 * np.2) (name ++ [0]))
  modify fun s => s.setDev np.1
    (setLE (s.dev np.1) (32 * np.2 + 28) 4 (deFirstBlock (s.dev p.1) p.2))

def renameOut (cx : Cx) (odir ndir : Nat) (p : DirentPtr) : NatM Unit := do
  clearEntry p
  let now ← clockTime cx
  modifyFso odir fun f => { f with mtime := now, dirty := true }
  modifyFso ndir fun f => { f with mtime := now, dirty := true }

/-- What is left to do in `nat_rename` when the entry of the old name has been found. Any error of
    `new_entry` other than `EEXIST` is kept for the caller, but does not stop it. -/
def renameEntry (cx : Cx) (odir ndir : Nat) (name : Name) (p : DirentPtr) : NatM Unit := do
  let s ← get
  match ← attempt (newEntry cx ndir name (deFirstBlock (s.dev p.1) p.2)) with
  | .error .EEXIST => do
    renameOver cx ndir name p
    renameOut cx odir ndir p
  | .error e => do
    renameOut cx odir ndir p
    fail e
  | .ok () => renameOut cx odir ndir p

/-- The first half of `nat_rename`: both directories are looked up and the entry of the old name is
    found. -/
def renameFind (cx : Cx) (oldname newname : CStr) : NatM (Nat × Nat × DirentPtr) := do
  if oldname = newname then fail .EINVAL
  else if oldname.1 ++ [47] <+: newname.1 then fail .EINVAL
  else
    let odir ← lookupDir cx oldname
    onError (fsChkPerm cx odir (xOk ||| wOk)) (fsPutfso cx odir)
    let ndir ← onError (lookupDir cx newname) (fsPutfso cx odir)
    let clean : NatM Unit := do
      fsPutfso cx odir
      fsPutfso cx ndir
    onError (fsChkPerm cx ndir wOk) clean
    let p ← onError (findEntry cx odir oldname.base) clean
    pure (odir, ndir, p)

def natRename (cx : Cx) (oldname newname : CStr) : NatM Unit := do
  let (odir, ndir, p) ← renameFind cx oldname newname
  let clean : NatM Unit := do
    fsPutfso cx odir
    fsPutfso cx ndir
  onError (renameEntry cx odir ndir newname.base p) clean
  clean

def natMkdir (cx : Cx) (name : CStr) (mode : Nat) : NatM Unit := do
  let dir ← natCreat cx name (0o30000 ||| (mode &&& 0o7777)) 0
  fsPutfso cx dir

def natRmdir (cx : Cx) (name : CStr) : NatM Unit := do
  let parent ← lookupDir cx name
  onError (fsChkPerm cx parent (xOk ||| wOk)) (fsPutfso cx parent)
  let dir ← onError (natLookup cx name) (fsPutfso cx parent)
  let clean : NatM Unit := do
    fsPutfso cx parent
    fsPutfso cx dir
  onError (isEmpty cx dir) clean
  let p ← onError (findEntry cx parent name.base) clean
  touch cx parent
  clearEntry p
  dropLink dir
  clean

/- Steps on a volume and its graph -/

/-- A graph that has come from the one of `s`: link counts cover the entries, and they are exact if
    they were. -/
structure Sequel (s : Vol) (G : Tree) : Prop where
  bounded : G.Bounded
  exact : (tree s).Exact → G.Exact

def Keeps (s t : Vol) : Prop := ∃ G, Depicts t G ∧ Sequel s G

theorem Keeps.sane {s t : Vol} (k : Keeps s t) : Sane t := by
  obtain ⟨G, dep, seq⟩ := k
  exact ⟨dep.inOrder, dep.same.bounded seq.bounded⟩

theorem Keeps.exact {s t : Vol} (k : Keeps s t) (exact : (tree s).Exact) : (tree t).Exact := by
  obtain ⟨G, dep, seq⟩ := k
  exact dep.same.exact (seq.exact exact)

theorem Sane.depicts {s t : Vol} {hold : List Nat} (sane : Sane s) (q : Quiet s t hold) :
    Depicts t ((tree s).hold hold) := sane.toInOrder.depicts.quiet q

theorem Sane.sequel {s : Vol} (sane : Sane s) (hold : List Nat) : Sequel s ((tree s).hold hold) :=
  ⟨sane.bounded.hold hold, fun exact => exact.hold hold⟩

theorem Sane.keeps {s t : Vol} {hold : List Nat} (sane : Sane s) (q : Quiet s t hold) : Keeps s t :=
  ⟨_, sane.depicts q, sane.sequel hold⟩

theorem Keeps.trans (a : Keeps s t) (b : Keeps t u) : Keeps s u := by
  obtain ⟨G, dep, seq⟩ := b
  exact ⟨G, dep, seq.bounded, fun exact => seq.exact (a.exact exact)⟩

section Entries
variable {s t : Vol} {d b k : Nat} {n : Name} {p : DirentPtr}

structure Found (s : Vol) (d : Nat) (n : Name) (p : DirentPtr) (k b : Nat) : Prop where
  dir : isDir s d
  here : At s d k p
  entry : slot s d k = some (n, b)

theorem Found.quiet {hold : List Nat} (f : Found s d n p k b) (q : Quiet s t hold) :
    Found t d n p k b := by
  refine ⟨?_, q.at' f.here, by rw [slot, q.obj]; exact f.entry⟩
  rw [isDir, q.hdr]
  exact f.dir

theorem Found.edge (f : Found s d n p k b) (file : d ∈ s.files) :
    (tree s).Edge d n b := Sane.edge file f.dir (Slots.mem_live.mpr ⟨k, f.here.inside, f.entry⟩)

theorem Found.first (f : Found s d n p k b) (sane : Sane s) (file : d ∈ s.files) :
    deFirstBlock (s.dev p.1) p.2 = b := f.here.first (sane.dirs d file f.dir) f.entry

theorem Found.titled (found : Found s d n p k b) (disk : Disk s) (ref : (s.fso i).refcnt ≠ 0)
    (title : Retitled (s.fso i) f) (size : f.size = (s.fso i).size) : Found (s.setFso i f) d n p k b := by
  have set := disk.setAttrs ref title
  by_cases eq : d = i
  · rw [eq] at found ⊢
    have ref' : ((s.setFso i f).fso i).refcnt ≠ 0 := by rw [set.self, title.refcnt]; exact ref
    have same : obj (s.setFso i f) i = { obj s i with nlink := f.nlink } := by
      rw [set.obj, size, obj, hdr_of_open ref]
      rfl
    refine ⟨?_, ⟨by rw [slotCount, same]; exact found.here.inside, by rw [set.phys]; exact found.here.block,
      found.here.entry⟩, by rw [slot, same]; exact found.entry⟩
    have dir := found.dir
    rw [isDir, hdr_of_open ref] at dir
    rw [isDir, hdr_of_open ref', set.self]
    simp only [Fso.hdr, title.mode]
    exact dir
  · have head : hdr (s.setFso i f) d = hdr s d := by
      rw [hdr, hdr, show (s.setFso i f).fso d = s.fso d from update_ne _ _ _ eq]
      rfl
    have same : obj (s.setFso i f) d = obj s d := by
      rw [obj, obj, head]
      rfl
    exact ⟨by rw [isDir, head]; exact found.dir,
      ⟨by rw [slotCount, same]; exact found.here.inside, by rw [head]; exact found.here.block, found.here.entry⟩,
      by rw [slot, same]; exact found.entry⟩

theorem Found.kept (found : Found s d n p k b) (kept : Kept s t d) : Found t d n p k b := by
  refine ⟨by rw [isDir, kept.hdr]; exact found.dir,
    ⟨by rw [slotCount, kept.obj]; exact found.here.inside, ?_, found.here.entry⟩,
    by rw [slot, kept.obj]; exact found.entry⟩
  rw [kept.trees.2]
  exact found.here.block

theorem Found.edited (found : Found s d n p k b) (file : d ∈ s.files)
    (e : Edited s t c l) (ref : (s.fso c).refcnt ≠ 0) (mem : d = c → (n, b) ∈ l) : Found t d n p k b := by
  by_cases eq : d = c
  · rw [← eq] at e ref
    obtain ⟨here, entry⟩ := e.stays k p (n, b) found.here found.entry (mem eq)
    refine ⟨?_, here, entry⟩
    have ref' : (t.fso d).refcnt ≠ 0 := by rw [e.worked.refcnt]; exact ref
    have dir := found.dir
    rw [isDir, hdr_of_open ref] at dir
    rw [isDir, hdr_of_open ref']
    simp only [Fso.hdr, e.worked.mode]
    exact dir
  · exact found.kept (e.worked.only.kept file eq)

end Entries

section Steps
variable {cx : Cx} {s t : Vol} {G : Tree} {i d : Nat} {hold : List Nat} {e : Errno}
variable {α : Type} {Q : Res Errno Unit → Vol → Prop} {R : Res Errno α → Vol → Prop}

section
variable (dep : Depicts t G)
include dep

theorem Depicts.ref (used : G.users i ≠ 0) : (t.fso i).refcnt ≠ 0 := by
  rw [dep.users]
  exact used

theorem Depicts.file (used : G.users i ≠ 0) : i ∈ t.files :=
  (dep.inOrder.disk.opened i (dep.ref used)).file

theorem Depicts.node (used : G.users i ≠ 0) : i ∈ G.nodes := dep.nodes ▸ dep.file used

theorem Depicts.fsoNlink (used : G.users i ≠ 0) : (t.fso i).nlink = G.nlink i := by
  rw [← dep.nlink i (dep.file used), obj, hdr_of_open (dep.ref used)]
  rfl

end

theorem wp_putClosed (noio : cx.NoIoError) (dep : Depicts t G) (used : G.users i ≠ 0)
    (post : ∀ t', Closed t t' i → Depicts t' (G.put i) → Q (.ok ()) t') : wp (fsPutfso cx i) Q t :=
  wp_fsPutfso noio dep.inOrder.disk (dep.ref used) fun t' closed =>
    post t' closed (dep.closed closed (dep.ref used))

theorem wp_put (noio : cx.NoIoError) (dep : Depicts t G) (used : G.users i ≠ 0)
    (post : ∀ t', Depicts t' (G.put i) → Q (.ok ()) t') : wp (fsPutfso cx i) Q t :=
  wp_putClosed noio dep used fun t' _ => post t'

theorem wp_touch (dep : Depicts t G) (used : G.users d ≠ 0)
    (post : ∀ t', Depicts t' G → (∀ c n p k b, Found t c n p k b → Found t' c n p k b) → Q (.ok ()) t') :
    wp (touch cx d) Q t := by
  have ref := dep.ref used
  have title : Retitled (t.fso d) { t.fso d with mtime := cx.clock t.tick, dirty := true } :=
    ⟨rfl, rfl, rfl, rfl, rfl, rfl, ⟨rfl, rfl, rfl⟩, rfl, dep.inOrder.disk.nlink_lt ref⟩
  simp only [touch, wp_bind, wp_clockTime, after_ok, modifyFso, wp_modify]
  exact post _ (dep.dated ref title rfl rfl) fun c n p k b found => found.titled dep.inOrder.disk ref title rfl

theorem wp_dropLink (dep : Depicts t G) (used : G.users i ≠ 0) (pos : G.nlink i ≠ 0)
    (post : ∀ t', Depicts t' (G.setLinks i (G.nlink i - 1)) →
      (∀ c n p k b, Found t c n p k b → Found t' c n p k b) → Q (.ok ()) t') :
    wp (dropLink i) Q t := by
  have ref := dep.ref used
  have small := dep.inOrder.disk.nlink_lt ref
  rw [dep.fsoNlink used] at small
  have value : ((t.fso i).nlink + 2 ^ 32 - 1) % 2 ^ 32 = G.nlink i - 1 := by
    rw [dep.fsoNlink used]
    omega
  have title : Retitled (t.fso i) { t.fso i with nlink := G.nlink i - 1, dirty := true } :=
    ⟨rfl, rfl, rfl, rfl, rfl, rfl, ⟨rfl, rfl, rfl⟩, rfl, Nat.lt_of_le_of_lt (Nat.sub_le ..) small⟩
  simp only [dropLink, modifyFso, wp_modify, value]
  exact post _ (dep.titled ref title rfl) fun c n p k b found => found.titled dep.inOrder.disk ref title rfl

theorem wp_giveBack (sane : Sane s) (q : Quiet s t (i :: hold))
    (post : ∀ t', Quiet s t' hold → R (.err e) t') :
    wp (fsPutfso cx i) (after (fun _ => (fail e : NatM α)) R) t :=
  wp_fsPutfso_quiet q sane.linked post

theorem wp_clearEntry {p : DirentPtr} {k b : Nat} {n : Name} (dep : Depicts t G) (used : G.users d ≠ 0)
    (found : Found t d n p k b)
    (post : ∀ t' l, (G.ents d).Perm ((n, b) :: l) → Depicts t' (G.setEnts d l) → Q (.ok ()) t') :
    wp (clearEntry p) Q t := by
  have file := dep.file used
  obtain ⟨l, edited, perm⟩ := dep.inOrder.disk.clearEntry file (dep.inOrder.dirs d file found.dir)
    found.here found.entry
  simp only [clearEntry, wp_modify]
  exact post _ l ((dep.ents d file found.dir).symm.trans perm) (dep.edited edited (dep.ref used) found.dir)

theorem Sequel.put (seq : Sequel s G) (node : i ∈ G.nodes) (used : G.users i ≠ 0) : Sequel s (G.put i) :=
  ⟨seq.bounded.put node used, fun exact => (seq.exact exact).put node used⟩

theorem Sequel.same {H : Tree} (seq : Sequel s G) (same : Links.Graph.Same G H) : Sequel s H :=
  ⟨same.bounded seq.bounded, fun exact => same.exact (seq.exact exact)⟩

theorem used_of_held {l : List Nat} (held : ∀ x, l.count x ≤ G.users x) (mem : i ∈ l) : G.users i ≠ 0 := by
  have some := List.count_pos_iff.mpr mem
  have bound := held i
  omega

theorem held_pair (G : Tree) (a b x : Nat) : [a, b].count x ≤ (G.hold [b, a]).users x := by
  rw [(List.Perm.swap b a []).count_eq]
  exact Nat.le_add_left _ _

theorem wp_puts (noio : cx.NoIoError) {j : Nat} (dep : Depicts t G) (held : ∀ x, [i, j].count x ≤ G.users x)
    (post : ∀ t', G.users i ≠ 0 → (G.put i).users j ≠ 0 → i ∈ G.nodes → j ∈ (G.put i).nodes →
      Depicts t' ((G.put i).put j) → Q (.ok ()) t') :
    wp (do fsPutfso cx i; fsPutfso cx j) Q t := by
  have used := used_of_held held (mem_cons_self ..)
  have used' : (G.put i).users j ≠ 0 := by
    have both := held j
    rw [Links.Graph.users_put]
    split
    · rename_i eq
      rw [eq] at both
      simp only [count_cons_self, count_nil] at both
      omega
    · exact used_of_held held (mem_cons_of_mem _ (mem_singleton_self j))
  rw [wp_bind]
  apply wp_put noio dep used
  intro t' dep'
  apply wp_put noio dep' used'
  exact fun u dep₂ => post u used used' (dep.node used) (dep'.node used') dep₂

theorem wp_finish (noio : cx.NoIoError) {j : Nat} (dep : Depicts t G) (seq : Sequel s G)
    (held : ∀ x, [i, j].count x ≤ G.users x) (post : ∀ t', Keeps s t' → Q (.ok ()) t') :
    wp (do fsPutfso cx i; fsPutfso cx j) Q t :=
  wp_puts noio dep held fun t' used used' node node' dep' =>
    post t' ⟨_, dep', (seq.put node used).put node' used'⟩

theorem Sequel.unlink {b : Nat} {n : Name} {l : List (Name × Nat)} (seq : Sequel s G) (node : d ∈ G.nodes)
    (perm : (G.ents d).Perm ((n, b) :: l)) (used : G.users b ≠ 0) (leaf : G.ents b = []) :
    Sequel s ((G.setEnts d l).setLinks b (G.nlink b - 1)) :=
  ⟨seq.bounded.unlink node perm used, fun exact => (seq.exact exact).unlink node perm leaf used⟩

theorem Sequel.move (seq : Sequel s G)
    (edge : G.Edge d n x) (node : b ∈ G.nodes) (isDir : G.dir b = true) (alive : G.nlink b ≠ 0)
    (apart : ¬ G.Reach x b) (perm : l.Perm ((m, x) :: G.ents b))
    (perm' : ((G.setEnts b l).ents d).Perm ((n, x) :: l₂)) : Sequel s ((G.setEnts b l).setEnts d l₂) := by
  obtain ⟨l₁, l', was, now, same⟩ := Links.Graph.move_order edge.2 perm perm'
  rw [same]
  exact ⟨seq.bounded.move edge.1 was node isDir now,
    fun exact => (seq.exact exact).move edge.1 was node isDir alive apart now⟩

theorem nlink_pos (B : G.Bounded) {b : Nat} {n : Name} (edge : G.Edge d n b) : G.nlink b ≠ 0 := by
  have some := edge.refs_pos
  have bound := B.bounded b (B.edge_node edge)
  omega

end Steps

section Rules
variable {cx : Cx} {s t : Vol} {d b : Nat} {n : Name}

theorem Sane.wp_parent (sane : Sane s) {hold : List Nat} (q : Quiet s t hold) (path : CStr) (mask : Nat)
    {β : Type} {k : Nat → NatM β} {Q : Res Errno β → Vol → Prop}
    (done : ∀ t' d, Quiet s t' (d :: hold) → (tree s).Walk (tree s).root path.dirs d → d ∈ s.files →
      (t'.fso d).refcnt ≠ 0 → wp (k d) Q t')
    (failed : ∀ e t', Quiet s t' hold → Q (.err e) t') (crash : ∀ t', Q .crash t') :
    wp (do
      let dir ← lookupDir cx path
      onError (fsChkPerm cx dir mask) (fsPutfso cx dir)
      k dir) Q t := by
  rw [wp_bind]
  apply sane.wp_lookupDir q path
  · intro t' d q' walk
    have file : d ∈ s.files := sane.bounded.walk_node walk sane.bounded.root
    have ref : (t'.fso d).refcnt ≠ 0 := by rw [q'.refcnt, count_cons_self]; omega
    simp only [after_ok, wp_bind, wp_onError]
    apply wp_fsChkPerm
    · exact fun _ => done t' d q' walk file ref
    · exact fun e _ => wp_giveBack sane q' fun u q => failed e u q
  · exact failed
  · exact crash

theorem Sane.wp_find (sane : Sane s) {hold : List Nat} (q : Quiet s t hold) (file : d ∈ s.files)
    (ref : (t.fso d).refcnt ≠ 0) {Q : Res Errno DirentPtr → Vol → Prop}
    (found : ∀ t' p k b, Quiet s t' hold → Found s d n p k b → Q (.ok p) t')
    (failed : ∀ e t', Quiet s t' hold → Q (.err e) t') : wp (findEntry cx d n) Q t := by
  apply wp_findEntry q ref (sane.dirs d file)
  · exact fun t' p k b q' dir _ at' entry => found t' p k b q' ⟨dir, at', entry⟩
  · exact fun t' q' _ _ _ => failed _ t' q'
  · exact fun e _ => failed e t q
  · exact fun _ => failed _ t q
  · exact fun e t' _ q' => failed e t' q'

section
variable (noio : cx.NoIoError)
include noio

theorem wp_natUnlink (sane : Sane s) (name : CStr) :
    wp (natUnlink cx name) (fun r t => r = .crash ∨ Keeps s t) s := by
  have quiet : ∀ {r : Res Errno Unit} {t hold}, Quiet s t hold → r = .crash ∨ Keeps s t :=
    fun q => .inr (sane.keeps q)
  rw [natUnlink]
  apply sane.wp_parent (.refl sane.disk) name
  · intro t d q walk file ref
    have back : ∀ {β : Type} {R : Res Errno β → Vol → Prop} {e t'}, Quiet s t' [d] →
        (∀ u, Quiet s u [] → R (.err e) u) →
        wp (fsPutfso cx d) (after (fun _ => (fail e : NatM β)) R) t' :=
      fun q' post => wp_giveBack sane q' post
    simp only [wp_bind, wp_onError]
    apply sane.wp_find q file ref
    · intro t' p k b q' found
      have edge := found.edge file
      have target := sane.bounded.edge_node edge
      simp only [recovered_ok, after_ok, wp_bind, wp_get, wp_onError, q'.dev,
        found.first sane file]
      apply wp_fsGetfso q' target
      · intro u q₂
        have held : (u.fso b).refcnt ≠ 0 := by rw [q₂.refcnt, count_cons_self]; omega
        simp only [recovered_ok, after_ok, wp_bind, wp_get]
        split
        · rw [wp_bind]
          apply wp_fsPutfso_quiet (q₂.perm (.swap ..)) sane.linked
          intro v q₃
          simp only [after_ok, wp_bind]
          exact wp_giveBack sane q₃ fun _ q => quiet q
        · rename_i notDir
          have plain : ¬ isDir s b := by
            rw [← q₂.kind held]
            exact notDir
          have dep := sane.depicts q₂
          have seq := sane.sequel [b, d]
          have held := held_pair (tree s) d b
          have usedB := used_of_held (i := b) held (by simp)
          have usedD := used_of_held (i := d) held (by simp)
          simp only [wp_bind]
          apply wp_clearEntry dep usedD (found.quiet q₂)
          intro v l perm dep₁
          simp only [after_ok, wp_bind]
          apply wp_dropLink dep₁ usedB (nlink_pos sane.bounded edge)
          intro w dep₂ _
          have leaf : (tree s).ents b = [] := by simp only [tree, if_neg plain]
          have seq₂ := seq.unlink file perm usedB leaf
          simp only [after_ok, wp_bind]
          apply wp_touch dep₂ usedD
          intro x dep₃ _
          rw [after_ok]
          exact wp_finish noio dep₃ seq₂ held fun _ keeps => Or.inr keeps
      · exact fun e u q₂ => back q₂ fun _ q => quiet q
    · exact fun e t' q' => back q' fun _ q => quiet q
  · exact fun e t q => quiet q
  · exact fun _ => .inl rfl

theorem wp_natRmdir (sane : Sane s) (name : CStr) :
    wp (natRmdir cx name) (fun r t => r = .crash ∨ Keeps s t) s := by
  have quiet : ∀ {r : Res Errno Unit} {t hold}, Quiet s t hold → r = .crash ∨ Keeps s t :=
    fun q => .inr (sane.keeps q)
  rw [natRmdir]
  apply sane.wp_parent (.refl sane.disk) name
  · intro t d q walk file ref
    simp only [wp_bind, wp_onError]
    apply sane.wp_natLookup q name
    · intro t' x q' walk'
      have target : x ∈ s.files := sane.bounded.walk_node walk' sane.bounded.root
      have clean : ∀ {β : Type} {R : Res Errno β → Vol → Prop} {e t'}, Quiet s t' [x, d] →
          (∀ u, Quiet s u [] → R (.err e) u) →
          wp (do fsPutfso cx d; fsPutfso cx x) (after (fun _ => (fail e : NatM β)) R) t' := by
        intro β R e t' q' post
        rw [wp_bind]
        apply wp_fsPutfso_quiet (q'.perm (.swap ..)) sane.linked
        exact fun u q₂ => wp_giveBack sane q₂ post
      simp only [recovered_ok, after_ok, wp_bind, wp_onError]
      apply wp_isEmpty q' (by rw [q'.refcnt, count_cons_self]; omega) (sane.dirs x target)
      · intro u q₂ dir none
        simp only [recovered_ok, after_ok, wp_bind, wp_onError]
        apply sane.wp_find q₂ file (by rw [q₂.refcnt, count_cons, count_cons_self]; omega)
        · intro v p k b q₃ found
          -- the entry of the last component leads to the directory that has been looked up
          have edge := found.edge file
          have same : b = x := by
            have full : Sane.fullPath name = name.dirs ++ [name.base] := by
              refine if_neg fun empty => ?_
              have mem : (name.base, b) ∈ live s d := Slots.mem_live.mpr ⟨k, found.here.inside, found.entry⟩
              exact ((sane.dirs d file found.dir).names _ mem).nonempty empty
            rw [full] at walk'
            exact sane.distinct.walk (walk.snoc edge) walk'
          rw [same] at edge found
          have dep := sane.depicts q₃
          have seq := sane.sequel [x, d]
          have held := held_pair (tree s) d x
          have usedX := used_of_held (i := x) held (by simp)
          have usedD := used_of_held (i := d) held (by simp)
          simp only [recovered_ok, after_ok, wp_bind]
          apply wp_touch dep usedD
          intro w dep₁ moved
          simp only [after_ok, wp_bind]
          apply wp_clearEntry dep₁ usedD (moved _ _ _ _ _ (found.quiet q₃))
          intro w' l perm dep₂
          simp only [after_ok, wp_bind]
          apply wp_dropLink dep₂ usedX (nlink_pos sane.bounded edge)
          intro w'' dep₃ _
          have leaf : (tree s).ents x = [] := by simp only [tree, if_pos dir, none]
          rw [after_ok]
          exact wp_finish noio dep₃ (seq.unlink file perm usedX leaf) held fun _ keeps => Or.inr keeps
        · exact fun e v q₃ => clean q₃ fun _ q => quiet q
      · exact fun e u q₂ => clean q₂ fun _ q => quiet q
    · exact fun e t' q' => wp_giveBack sane q' fun _ q => quiet q
    · exact fun _ => .inl rfl
  · exact fun e t q => quiet q
  · exact fun _ => .inl rfl

theorem wp_enterName
    (dep : Depicts t G) (used : G.users d ≠ 0) (clean : (0 : Byte) ∉ n) (pos : v ≠ 0) (small : v < 2 ^ 32)
    (done : ∀ u l, G.dir d = true → l.Perm ((n, v) :: G.ents d) → Depicts u (G.setEnts d l) → Q (.ok ()) u)
    (failed : ∀ e u H, Links.Graph.Same G H → Depicts u H → Q (.err e) u) :
    wp (newEntry cx d n v) Q t := by
  have file := dep.file used
  have dirAfter : ∀ {t'}, Quiet t t' [] → isDir t d → isDir t' d := by
    intro t' q dir
    rw [isDir, q.hdr]
    exact dir
  apply wp_newEntry noio (.refl dep.inOrder.disk) (dep.ref used) (dep.inOrder.dirs d file) clean pos small
  · intro t' u q dir edited
    have dep' : Depicts t' G := dep.quiet q
    exact done u _ ((dep.dir d file).mp dir) ((dep.ents d file dir).cons _)
      (dep'.edited edited (dep'.ref used) (dirAfter q dir))
  · exact fun t' q _ _ => failed _ t' G (.refl G) (dep.quiet q)
  · intro e t' u _ q dir edited
    have dep' : Depicts t' G := dep.quiet q
    exact failed e u _ (Links.Graph.same_setEnts (dep.ents d file dir))
      (dep'.edited edited (dep'.ref used) (dirAfter q dir))
  · exact fun e _ => failed e t G (.refl G) dep

theorem wp_natLink (sane : Sane s) (ref : (s.fso i).refcnt ≠ 0)
    (room : (s.fso i).nlink + 1 < 2 ^ 32) (name : CStr)
    (post : ∀ r t, Keeps s t → (t.fso i).refcnt ≠ 0 → Q r t) (crash : ∀ t, Q .crash t) :
    wp (natLink cx i name) Q s := by
  have base := sane.toInOrder.depicts
  have target := base.file ref
  have data := (sane.disk.data i target i (mem_cons_self ..)).1
  have pos := pos_iff_ne_zero.mp (data_pos sane.disk.bam.geo data)
  simp only [natLink, wp_bind, wp_get, after_ok]
  split
  · exact post _ s (sane.keeps (.refl sane.disk)) ref
  · rename_i notDir
    have plain : (tree s).dir i = false := by
      refine decide_eq_false fun dir => notDir ?_
      exact ((Quiet.refl sane.disk).kind ref).mpr dir
    rw [wp_bind]
    apply sane.wp_lookupDir (.refl sane.disk) name
    · intro t d q walk
      have file : d ∈ s.files := sane.bounded.walk_node walk sane.bounded.root
      have alive := sane.bounded.walk_alive walk
      have dep := sane.depicts q
      have seq := sane.sequel [d]
      have used : ((tree s).hold [d]).users d ≠ 0 := by
        show (s.fso d).refcnt + [d].count d ≠ 0
        rw [count_cons_self]
        omega
      simp only [after_ok, wp_bind, wp_attempt]
      apply wp_enterName noio dep used name.base_noNul pos (data_fits sane.disk.bam.geo data)
      · intro u l isDir perm dep₁
        have seq' : Sequel s ((((tree s).hold [d]).setLinks i ((tree s).nlink i + 1)).setEnts d l) :=
          ⟨seq.bounded.link file isDir target plain perm,
            fun exact => (seq.exact exact).link file isDir alive target plain perm⟩
        simp only [caught_ok, after_ok, wp_bind]
        apply wp_put noio dep₁ used
        intro v dep₂
        have before : (((tree s).hold [d]).setEnts d l).nlink d ≠ 0 := alive
        rw [Links.Graph.put_alive before] at dep₂
        have ne : i ≠ d := by
          rintro rfl
          exact absurd (isDir.symm.trans plain) (by decide)
        have usedI : ((((tree s).hold [d]).setEnts d l).setUsers d
            ((((tree s).hold [d]).setEnts d l).users d - 1)).users i ≠ 0 := by
          show Function.update _ d _ i ≠ 0
          rw [Function.update_of_ne ne]
          exact Nat.ne_of_gt (Nat.lt_of_lt_of_le (Nat.pos_of_ne_zero ref) (Nat.le_add_right _ _))
        have count : (v.fso i).nlink = (tree s).nlink i := dep₂.fsoNlink usedI
        have value : ((v.fso i).nlink + 1) % 2 ^ 32 = (tree s).nlink i + 1 := by
          rw [count]
          rw [base.fsoNlink ref] at room
          exact Nat.mod_eq_of_lt room
        simp only [after_ok, wp_bind, wp_clockTime, modifyFso, wp_modify, value]
        have dep₃ := dep₂.titled (i := i) (f := { v.fso i with
            ctime := cx.clock v.tick, nlink := (tree s).nlink i + 1, dirty := true }) (dep₂.ref usedI)
          ⟨rfl, rfl, rfl, rfl, rfl, rfl, ⟨rfl, rfl, rfl⟩, rfl, by rw [base.fsoNlink ref] at room; exact room⟩ rfl
        have final := seq'.put (i := d) file used
        -- the directory has links, so giving it back commutes with counting the new link
        rw [Links.Graph.put_alive (by
          show Function.update _ i _ d ≠ 0
          rw [Function.update_of_ne (Ne.symm ne)]
          exact alive)] at final
        exact post _ _ ⟨_, dep₃, final⟩ (dep₃.ref usedI)
      · intro e u H same dep₁
        have used' : H.users d ≠ 0 := by
          rw [same.users d file]
          exact used
        have node : d ∈ H.nodes := by
          rw [same.nodes]
          exact file
        simp only [caught_err, after_ok, wp_bind]
        apply wp_put noio dep₁ used'
        intro v dep₂
        refine post _ v ⟨_, dep₂, (seq.same same).put node used'⟩ ?_
        rw [dep₂.users, Links.Graph.users_put]
        have counts : ∀ x ∈ s.files, H.users x = (s.fso x).refcnt + [d].count x := fun x mem => same.users x mem
        split
        · rename_i eq
          rw [counts d file, count_cons_self, ← eq]
          omega
        · rw [counts i target]
          omega
    · intro e t q
      refine post _ t (sane.keeps q) ?_
      rw [q.refcnt]
      exact ref
    · exact crash

end

end Rules

end Natfs
