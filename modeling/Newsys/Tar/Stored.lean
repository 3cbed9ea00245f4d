import Newsys.Tar.Archive

/- What the archiver (cmd/bin/tar.c) writes: a block for each path name it comes to, and the data of each file that is
   not a link to an earlier one. -/
namespace Tar
open Bytes Ints Kern Cstr Libc Cmds Cmd List

/-- What the archiver comes to: a path name under which there is nothing, or a member with the data to be stored. -/
inductive Visit where
  | lost (pathname : List Byte)
  | seen (mem : Member) (data : List Byte) (opens : Bool)

def Visit.warnings : Visit → List (List Byte)
  | .lost pathname => [pathname]
  | .seen mem _ opens => (if TooLong mem.pathname then [mem.pathname] else []) ++ if opens then [] else [mem.pathname]

def Visit.expected : Visit → Option (Member × List Byte)
  | .lost _ => none
  | .seen mem data opens => if ¬ TooLong mem.pathname ∧ opens then some (mem, data) else none

mutual

/-- A file that has been stored under another name is a link to it, and what is not a regular file has no size. -/
def Node.visits (namenodes : List Namenode) (pathname : List Byte) : Node → List Visit × List Namenode
  | .absent => ([.lost pathname], namenodes)
  | .found st opens data items =>
    let st := if st.isReg then st else { st with size := 0 }
    let mem := Member.ofStat st pathname
    match if 1 < st.nlink then findNamenode namenodes st.dev st.ino else none with
    | some nn => ([.seen (mem.linkTo nn.pathname) [] true], namenodes)
    | none =>
      let namenodes := if 1 < st.nlink then ⟨st.dev, st.ino, pathname⟩ :: namenodes else namenodes
      if st.isReg then ([.seen mem data opens], namenodes)
      else if st.isDir then
        let below := items.visits namenodes pathname
        (.seen mem [] opens :: below.1, below.2)
      else ([.seen mem [] true], namenodes)

def Items.visits (namenodes : List Namenode) (pathname : List Byte) : Items → List Visit × List Namenode
  | .nil => ([], namenodes)
  | .sub name node rest =>
    if name = dot ∨ name = dotdot then rest.visits namenodes pathname
    else
      let first := node.visits namenodes (pathname ++ slash :: name)
      let others := rest.visits first.2 pathname
      (first.1 ++ others.1, others.2)

end

def visits (namenodes : List Namenode) : List (List Byte × Node) → List Visit × List Namenode
  | [] => ([], namenodes)
  | member :: members =>
    let first := member.2.visits namenodes member.1
    let others := visits first.2 members
    (first.1 ++ others.1, others.2)

def Visit.Enters : Visit → Prop
  | .lost _ => True
  | .seen mem _ opens => mem.linkType = tarLtDir → opens

def padded512 (data : List Byte) : List Byte := data ++ replicate (roundUp data.length - data.length) 0

structure Heads (m : Machine) (hd : Mem) (mem : Member) : Prop where
  blank : TooLong mem.pathname → Blank m (slice hd 0 512)
  filled : ¬ TooLong mem.pathname → (0 : Byte) ∉ mem.pathname → (0 : Byte) ∉ mem.link → mem.Narrow → Filled m hd mem

inductive Chunk (m : Machine) : Visit → List Byte → Prop where
  | lost (pathname : List Byte) : Chunk m (.lost pathname) []
  | seen {mem : Member} {data : List Byte} {opens : Bool} (hd : Mem) (heads : Heads m hd mem) :
      Chunk m (.seen mem data opens) (slice hd 0 512 ++ if opens then padded512 data else [])

structure Stored (m : Machine) (vs : List Visit) (namenodes : List Namenode) (o o' : Out) : Prop where
  tape : ∃ chunks, List.Forall₂ (Chunk m) vs chunks ∧ o'.tape = o.tape ++ chunks.flatten
  namenodes : o'.namenodes = namenodes
  warned : o'.warned = o.warned ++ vs.flatMap Visit.warnings

def Stores (m : Machine) (vs : List Visit × List Namenode) (o : Out) : Res Unit Unit → Out → Prop
  | .ok (), o' => (∀ v ∈ vs.1, v.Enters) ∧ Stored m vs.1 vs.2 o o'
  | .err _, _ => False
  | .crash, _ => ∃ v ∈ vs.1, ¬ v.Enters

section Writer
variable {m : Machine} {o o' : Out} {vs vs' : List Visit} {namenodes namenodes' : List Namenode}

theorem Stored.nil : Stored m [] o.namenodes o o := ⟨⟨[], .nil, (append_nil _).symm⟩, rfl, (append_nil _).symm⟩

theorem Stored.append (first : Stored m vs namenodes o o') (second : Stored m vs' namenodes' o' o'') :
    Stored m (vs ++ vs') namenodes' o o'' := by
  obtain ⟨chunks, each, tape⟩ := first.tape
  obtain ⟨chunks', each', tape'⟩ := second.tape
  refine ⟨⟨chunks ++ chunks', rel_append each each', ?_⟩, second.namenodes, ?_⟩
  · rw [tape', tape, flatten_append, append_assoc]
  · rw [second.warned, first.warned, flatMap_append, append_assoc]

theorem Stores.behind (enters : ∀ v ∈ vs, v.Enters)
    (stored : Stored m vs namenodes o o') (stores : Stores m (vs', namenodes') o' r o'') :
    Stores m (vs ++ vs', namenodes') o r o'' := by
  rcases r with _ | _ | _
  · refine ⟨fun v mem => ?_, stored.append stores.2⟩
    exact (mem_append.mp mem).elim (enters v) (stores.1 v)
  · exact stores
  · obtain ⟨v, mem, not⟩ := stores
    exact ⟨v, mem_append_right _ mem, not⟩

theorem stores_bind (first : wp c (Stores m (vs, namenodes) o) o)
    (second : ∀ o', o'.namenodes = namenodes → wp (f ()) (Stores m (vs', namenodes') o') o') :
    wp (c >>= f) (Stores m (vs ++ vs', namenodes') o) o := by
  rw [wp_bind]
  refine wp_mono first ?_
  rintro (_ | _ | _) o₁ done
  · obtain ⟨enters, stored⟩ := done
    exact wp_mono (second o₁ stored.namenodes) fun r o₂ done' => done'.behind enters stored
  · exact done
  · obtain ⟨v, mem, not⟩ := done
    exact ⟨v, mem_append_left _ mem, not⟩

theorem stores_one (enters : v.Enters) (stored : Stored m [v] namenodes o o') :
    Stores m ([v], namenodes) o (.ok ()) o' :=
  ⟨fun w mem => by rw [mem_singleton.mp mem]; exact enters, stored⟩

theorem roundUp_add (n k : Nat) : roundUp (512 * k + n) = 512 * k + roundUp n := by
  unfold roundUp
  omega

theorem le_roundUp (n : Nat) : n ≤ roundUp n := by
  unfold roundUp
  omega

theorem wp_copyData (data : List Byte) (post : Q (.ok ()) { o with tape := o.tape ++ padded512 data }) : wp (copyData data) Q o := by
  induction data using copyData.induct generalizing o with
  | case1 =>
    rw [copyData, if_pos rfl]
    have none : padded512 [] = [] := rfl
    rw [none, append_nil] at post
    exact post
  | case2 data some ih =>
    rw [copyData, if_neg some, wp_bind]
    refine ih ?_
    have cut : padded512 data = padded512 (data.take sreqSize) ++ padded512 (data.drop sreqSize) := by
      by_cases long : sreqSize ≤ data.length
      · have full : (data.take sreqSize).length = 512 * 64 := by
          rw [length_take]
          exact Nat.min_eq_left long
        have length : data.length = 512 * 64 + (data.drop sreqSize).length := by
          rw [length_drop]
          change 32768 ≤ data.length at long
          change data.length = 512 * 64 + (data.length - 32768)
          omega
        have even : roundUp (512 * 64) = 512 * 64 := by decide
        rw [padded512, padded512, padded512, full, even, Nat.sub_self, replicate_zero, append_nil,
          ← append_assoc, take_append_drop, length, roundUp_add, Nat.add_sub_add_left]
      · have all : data.take sreqSize = data := take_of_length_le (by omega)
        have rest : data.drop sreqSize = [] := drop_of_length_le (by omega)
        have none : padded512 [] = [] := rfl
        rw [all, rest, none, append_nil]
    rw [cut, ← append_assoc] at post
    exact post

theorem wp_sreg (pathname : List Byte) (opens : Bool) (data : List Byte) (post : Q (.ok ()) { o with
      tape := o.tape ++ if opens then padded512 data else []
      warned := o.warned ++ if opens then [] else [pathname] }) : wp (sreg pathname opens data) Q o := by
  cases opens with
  | true =>
    have same : o.warned ++ [] = o.warned := append_nil _
    simp only [if_pos, same] at post
    exact wp_copyData data post
  | false =>
    have same : o.tape ++ [] = o.tape := append_nil _
    simp only [Bool.false_eq_true, if_false, same] at post
    exact post

theorem heads_first (m : Machine) (st : Stat) (pathname : List Byte) :
    Heads m (cksum m (initHead m st pathname)) (Member.ofStat st pathname) where
  blank long := by
    rw [initHead, if_pos (show TooLong pathname from long)]
    exact blank_cksum m
  filled short noNul _ narrow := filled_cksum (filled_initHead noNul short narrow) narrow short

theorem heads_link (m : Machine) (st : Stat) (pathname link : List Byte) :
    Heads m (cksum m (linkHead (initHead m st pathname) link)) ((Member.ofStat st pathname).linkTo link) where
  blank long := by
    rw [initHead, if_pos (show TooLong pathname from long)]
    exact blank_linkHead m link
  filled short noNul noNul' narrow := by
    have narrow' : (Member.ofStat st pathname).Narrow := ⟨narrow.mode, narrow.owner, narrow.group⟩
    exact filled_cksum (filled_linkHead (filled_initHead noNul short narrow') narrow' short noNul') narrow short

theorem stored_one (heads : Heads m hd mem)
    (names : o'.namenodes = namenodes) (tape : o'.tape = o.tape ++ slice hd 0 512 ++ if opens then padded512 data else [])
    (warned : o'.warned = o.warned ++ (if TooLong mem.pathname then [mem.pathname] else []) ++
      if opens then [] else [mem.pathname]) : Stored m [.seen mem data opens] namenodes o o' := by
  refine ⟨⟨_, .cons (.seen hd heads) .nil, ?_⟩, names, ?_⟩
  · rw [flatten_singleton, tape, append_assoc]
  · rw [flatMap_singleton, warned, append_assoc]
    rfl

mutual

theorem stores_store1 (node : Node) (pathname : List Byte) (o : Out) :
    wp (store1 m pathname node) (Stores m (node.visits o.namenodes pathname) o) o := by
  cases node with
  | absent =>
    unfold store1 Node.visits
    refine ⟨fun v mem => ?_, ⟨[[]], .cons (.lost pathname) .nil, (append_nil _).symm⟩, rfl, rfl⟩
    rw [mem_singleton.mp mem]
    trivial
  | found st opens data items =>
    unfold store1 Node.visits
    generalize (if st.isReg then st else { st with size := 0 }) = st
    dsimp only
    have heads := heads_first m st pathname
    have warns : wp (if TooLong pathname then warn pathname else pure ()) (fun r o' => r = .ok () ∧ o' = { o with
        warned := o.warned ++ if TooLong pathname then [pathname] else [] }) o := by
      by_cases long : TooLong pathname
      · rw [if_pos long, if_pos long]
        exact ⟨rfl, rfl⟩
      · rw [if_neg long, if_neg long, append_nil]
        exact ⟨rfl, rfl⟩
    rw [wp_bind]
    refine wp_mono warns ?_
    rintro r o₁ ⟨rfl, rfl⟩
    rw [after_ok, wp_bind, wp_get, after_ok]
    dsimp only
    generalize (if 1 < st.nlink then findNamenode o.namenodes st.dev st.ino else none) = nn
    cases nn with
    | some nn =>
      rw [if_neg fun h => Option.some_ne_none _ h.2]
      refine stores_one (fun _ => rfl) (stored_one (heads_link m st pathname nn.pathname) rfl ?_ ?_)
      · exact (append_nil _).symm
      · exact (append_nil _).symm
    | none =>
      have noted : wp (if 1 < st.nlink ∧ (none : Option Namenode) = none then addNamenode pathname st.dev st.ino
          else pure ()) (fun r o' => r = .ok () ∧ o' = { o with
            namenodes := if 1 < st.nlink then ⟨st.dev, st.ino, pathname⟩ :: o.namenodes else o.namenodes
            warned := o.warned ++ if TooLong pathname then [pathname] else [] })
          { o with warned := o.warned ++ if TooLong pathname then [pathname] else [] } := by
        by_cases linked : 1 < st.nlink
        · rw [if_pos ⟨linked, rfl⟩, if_pos linked]
          exact ⟨rfl, rfl⟩
        · rw [if_neg fun h => linked h.1, if_neg linked]
          exact ⟨rfl, rfl⟩
      rw [wp_bind]
      refine wp_mono noted ?_
      rintro r o₂ ⟨rfl, rfl⟩
      rw [after_ok]
      generalize (if 1 < st.nlink then ⟨st.dev, st.ino, pathname⟩ :: o.namenodes else o.namenodes) = namenodes
      dsimp only
      rw [wp_bind, write, wp_modify, after_ok]
      by_cases reg : st.isReg
      · rw [if_pos reg, if_pos reg]
        refine wp_sreg pathname opens data (stores_one (fun dir => ?_) (stored_one heads rfl rfl rfl))
        have file : (if st.isReg then tarLtReg else if st.isDir then tarLtDir else chr '0') = tarLtDir := dir
        rw [if_pos reg] at file
        exact absurd file (by decide)
      · rw [if_neg reg, if_neg reg]
        by_cases dir : st.isDir
        · rw [if_pos dir, if_pos dir]
          cases opens with
          | true =>
            rw [if_pos rfl]
            refine wp_mono (stores_sdir items pathname _) fun r o₃ done => ?_
            refine Stores.behind ?_ (stored_one heads rfl ?_ ?_) done
            · exact fun v mem => by rw [mem_singleton.mp mem]; exact fun _ => rfl
            · exact (append_nil _).symm
            · exact (append_nil _).symm
          | false =>
            rw [if_neg Bool.false_ne_true]
            refine ⟨_, mem_cons_self, fun enters => Bool.false_ne_true (enters ?_)⟩
            show (if st.isReg then tarLtReg else if st.isDir then tarLtDir else chr '0') = tarLtDir
            rw [if_neg reg, if_pos dir]
        · rw [if_neg dir, if_neg dir]
          refine stores_one (fun _ => rfl) (stored_one heads rfl ?_ ?_)
          · exact (append_nil _).symm
          · exact (append_nil _).symm

theorem stores_sdir (items : Items) (pathname : List Byte) (o : Out) :
    wp (sdir m pathname items) (Stores m (items.visits o.namenodes pathname) o) o := by
  cases items with
  | nil =>
    unfold sdir Items.visits
    exact ⟨fun v mem => absurd mem not_mem_nil, Stored.nil⟩
  | sub name node rest =>
    unfold sdir Items.visits
    by_cases dots : name = dot ∨ name = dotdot
    · rw [if_pos dots, if_pos dots]
      exact stores_sdir rest pathname o
    · rw [if_neg dots, if_neg dots]
      refine stores_bind (stores_store1 node _ o) fun o₁ same => ?_
      rw [← same]
      exact stores_sdir rest pathname o₁

end

theorem stores_members (members : List (List Byte × Node)) : ∀ o : Out,
    wp (forEach members fun member => store1 m member.1 member.2) (Stores m (visits o.namenodes members) o) o := by
  induction members with
  | nil => exact fun o => ⟨fun v mem => absurd mem not_mem_nil, Stored.nil⟩
  | cons member members ih =>
    intro o
    refine stores_bind (stores_store1 member.2 member.1 o) fun o₁ same => ?_
    rw [← same]
    exact ih o₁

structure Created (m : Machine) (vs : List Visit) (o : Out) : Prop where
  tape : ∃ chunks, List.Forall₂ (Chunk m) vs chunks ∧ o.tape = chunks.flatten ++ replicate 1024 0
  warned : o.warned = vs.flatMap Visit.warnings

theorem create_spec (m : Machine) (members : List (List Byte × Node)) : wp (store m members) (fun r o =>
    match r with
    | .ok () => (∀ v ∈ (visits [] members).1, v.Enters) ∧ Created m (visits [] members).1 o
    | .err _ => False
    | .crash => ∃ v ∈ (visits [] members).1, ¬ v.Enters) ⟨[], [], []⟩ := by
  rw [store, wp_bind]
  refine wp_mono (stores_members members ⟨[], [], []⟩) ?_
  rintro (_ | _ | _) o done
  · obtain ⟨enters, ⟨chunks, each, tape⟩, -, warned⟩ := done
    refine ⟨enters, ⟨chunks, each, ?_⟩, warned⟩
    exact congrArg (· ++ replicate 1024 0) tape
  · exact done
  · exact done

theorem padded512_length (data : List Byte) : (padded512 data).length = roundUp data.length := by
  have le := le_roundUp data.length
  rw [padded512, length_append, length_replicate]
  omega

def Visit.written : Visit → Nat
  | .lost _ => 0
  | .seen _ data opens => 512 + if opens then roundUp data.length else 0

theorem chunk_length (chunk : Chunk m v c) : c.length = v.written := by
  cases chunk with
  | lost pathname => rfl
  | @seen mem data opens hd heads =>
    rw [length_append, slice_length, Visit.written]
    cases opens with
    | true => exact congrArg (512 + ·) (padded512_length data)
    | false => rfl

theorem tape_length (m : Machine) (members : List (List Byte × Node)) (enters : ∀ v ∈ (visits [] members).1, v.Enters) :
    (create m members).2.tape.length = ((visits [] members).1.map Visit.written).sum + 1024 := by
  have spec := create_spec m members
  rw [wp, ← create] at spec
  generalize (visits [] members).1 = vs at enters spec ⊢
  generalize create m members = out at spec ⊢
  obtain ⟨r, o⟩ := out
  rcases r with _ | _ | _
  · obtain ⟨-, ⟨chunks, each, tape⟩, -⟩ := spec
    have flat : chunks.flatten.length = (vs.map Visit.written).sum := by
      clear tape enters
      induction each with
      | nil => rfl
      | cons chunk each ih =>
        rw [flatten_cons, length_append, chunk_length chunk, ih, map_cons, sum_cons]
    rw [tape, length_append, flat, length_replicate]
  · exact spec.elim
  · obtain ⟨v, mem, not⟩ := spec
    exact absurd (enters v mem) not

end Writer

end Tar
