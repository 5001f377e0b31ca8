import Hail.Cld.Step
import Hail.Cld.Tree
import Hail.Library.Run

/-!
# The namespace of the server

The inodes and their data are a tree of directories, and a handle was opened as what its inode is,
so that `msg_put` writes to files only. `msg_open` does not look at what kind of inode it puts a new
one into; that is the one way to spoil the tree, apart from directory data of `2 ^ 31` bytes.
-/
namespace Hail.Cld

open Library

/-- The inode with a number, as far as the namespace goes. -/
def nodeOf (inodes : Table RawInode.inum) (i : Inum) : Option Node :=
  (inodes.get i).map fun ino => ⟨ino.name, has ino.flags ciflDir⟩

/-- The data of an inode; one without a data record has none. -/
def contentOf (data : Table DataRec.inum) (i : Inum) : Bytes := (data.get i).elim [] DataRec.data

/-- The namespace: the root exists, every other inode is in a directory, and the data of a directory
decodes to the names of what is in it, each once. -/
structure Namespace (db : Cldb) : Prop where
  root : ∃ ino, db.byname [slash] = some ino
  parent : ∀ ino ∈ db.inodes.rows, ino.name ≠ [slash] →
    ∃ dir, db.byname (pathnameParse ino.name).dir = some dir ∧ has dir.flags ciflDir = true
  entries : ∀ dir ∈ db.inodes.rows, has dir.flags ciflDir = true →
    ∃ names, dirdataNames (contentOf db.data dir.inum) = some names ∧ names.Nodup ∧
      ∀ b, b ∈ names ↔ ∃ ino ∈ db.inodes.rows, ino.name ≠ [slash] ∧
        (pathnameParse ino.name).dir = dir.name ∧ (pathnameParse ino.name).base = b

/-- The invariant of runs. -/
structure Orderly (db : Cldb) : Prop where
  tree : Tree (nodeOf db.inodes) (contentOf db.data)
  handle : ∀ h ∈ db.handles.rows, ∃ nd, nodeOf db.inodes h.inum = some nd ∧
    has h.mode comDirectory = nd.isDir

section

variable {inodes : Table RawInode.inum} {data : Table DataRec.inum}

theorem nodeOf_eq_some {i : Inum} {nd : Node} :
    nodeOf inodes i = some nd ↔ ∃ ino ∈ inodes.rows, ino.inum = i ∧ ino.name = nd.name ∧
      has ino.flags ciflDir = nd.isDir := by
  obtain ⟨name, isDir⟩ := nd
  simp [nodeOf, Table.mem_get, and_assoc]

theorem nodeOf_inum {ino : RawInode} (h : ino ∈ inodes.rows) :
    nodeOf inodes ino.inum = some ⟨ino.name, has ino.flags ciflDir⟩ :=
  nodeOf_eq_some.mpr ⟨ino, h, rfl, rfl, rfl⟩

theorem nodeOf_put (ino : RawInode) :
    nodeOf (inodes.put unordered ino) =
      Function.update (nodeOf inodes) ino.inum (some ⟨ino.name, has ino.flags ciflDir⟩) := by
  funext i
  rw [nodeOf, Table.get_put, Function.update_apply]
  split <;> rfl

theorem nodeOf_del (k : Inum) :
    nodeOf (inodes.del k) = Function.update (nodeOf inodes) k none := by
  funext i
  rw [nodeOf, Table.get_del, Function.update_apply]
  split <;> rfl

/-- Writing an inode back with another size and other times changes nothing. -/
theorem nodeOf_touch {ino : RawInode} (h : ino ∈ inodes.rows) (size now : Nat) :
    nodeOf (inodes.put unordered (RawInode.touch { ino with size } now)) = nodeOf inodes := by
  rw [nodeOf_put]
  change Function.update (nodeOf inodes) ino.inum (some ⟨ino.name, has ino.flags ciflDir⟩) = _
  rw [← nodeOf_inum h, Function.update_eq_self]

theorem contentOf_put (i : Inum) (bs : Bytes) :
    contentOf (data.put unordered ⟨i, bs⟩) = Function.update (contentOf data) i bs := by
  funext k
  rw [contentOf, Table.get_put, Function.update_apply]
  split <;> rfl

theorem contentOf_del (i : Inum) :
    contentOf (data.del i) = Function.update (contentOf data) i [] := by
  funext k
  rw [contentOf, Table.get_del, Function.update_apply]
  split <;> rfl

end

theorem byname_eq_none {db : Cldb} {name : Bytes} (h : db.byname name = none) (i : Inum) (nd : Node)
    (hi : nodeOf db.inodes i = some nd) : nd.name ≠ name := by
  obtain ⟨ino, hm, -, hn, -⟩ := nodeOf_eq_some.mp hi
  have hno := List.find?_eq_none.mp h ino hm
  rw [← hn]
  simpa using hno

theorem Tree.byname_name {db : Cldb} (h : Tree (nodeOf db.inodes) (contentOf db.data))
    {ino : RawInode} (hm : ino ∈ db.inodes.rows) : db.byname ino.name = some ino := by
  cases hb : db.byname ino.name with
  | none => exact absurd rfl (byname_eq_none hb _ _ (nodeOf_inum hm))
  | some x =>
    obtain ⟨hx, hname⟩ := byname_eq_some hb
    rw [Table.eq_of_key hx hm (h.unique _ _ _ _ (nodeOf_inum hx) (nodeOf_inum hm) hname)]

/-- The tree is the namespace. -/
theorem Tree.namespace {db : Cldb} (h : Tree (nodeOf db.inodes) (contentOf db.data)) :
    Namespace db where
  root := by
    obtain ⟨i, hi⟩ := h.root
    obtain ⟨ino, hm, -, hn, -⟩ := nodeOf_eq_some.mp hi
    have hname : ino.name = [slash] := hn
    exact ⟨ino, hname ▸ h.byname_name hm⟩
  parent ino hm hr := by
    obtain ⟨j, hj⟩ := h.parent _ _ (nodeOf_inum hm) hr
    obtain ⟨dir, hd, -, hn, hdir⟩ := nodeOf_eq_some.mp hj
    have hname : dir.name = (pathnameParse ino.name).dir := hn
    exact ⟨dir, hname ▸ h.byname_name hd, hdir⟩
  entries dir hm hdir := by
    have hnode := nodeOf_inum hm
    rw [hdir] at hnode
    obtain ⟨names, hlist, hcont⟩ := h.entries _ _ hnode
    refine ⟨names, ?_, hlist.nodup, fun b => ?_⟩
    · rw [hcont, dirdataNames_dirdataOf (h.names_length hlist)]
    · rw [hlist.mem b]
      constructor
      · rintro ⟨i, nd, hi, hr, hp⟩
        obtain ⟨ino, hm, -, hn, -⟩ := nodeOf_eq_some.mp hi
        exact ⟨ino, hm, hn ▸ hr, by rw [hn, hp], by rw [hn, hp]⟩
      · rintro ⟨ino, hm, hr, hd, hb⟩
        refine ⟨ino.inum, _, nodeOf_inum hm, hr, ?_⟩
        rw [← hd, ← hb]

/-! ## Steps -/

/-- The step puts a new inode into nothing but a directory, and deletes no name whose entry begins
`2 ^ 31` bytes or more into the data of its directory. -/
def Op.treelike (s : Server) (op : Op) : Bool :=
  match op.request s with
  | some (_, .open m) => !has m.mode comCreate || (s.db.byname m.inodeName.bytes).isSome ||
      (s.db.byname (pathnameParse m.inodeName.bytes).dir).all fun dir => has dir.flags ciflDir
  | some (_, .del name) => (s.db.byname (pathnameParse name.bytes).dir).all fun dir =>
      match direntFind (contentOf s.db.data dir.inum) (pathnameParse name.bytes).base with
      | .found pos _ => pos < 2 ^ 31
      | _ => true
  | _ => true

theorem Orderly.mono {a b : Cldb} (h : Orderly a) (hi : b.inodes = a.inodes) (hd : b.data = a.data)
    (hh : ∀ x ∈ b.handles.rows, x ∈ a.handles.rows) : Orderly b where
  tree := by
    rw [hi, hd]
    exact h.tree
  handle x hx := by
    rw [hi]
    exact h.handle x (hh x hx)

theorem Orderly.addHandle {db : Cldb} (h : Orderly db) {x : RawHandle} {sess : RawSession} {nd : Node}
    (hi : nodeOf db.inodes x.inum = some nd) (hm : has x.mode comDirectory = nd.isDir) :
    Orderly (db.addHandle x sess) where
  tree := h.tree
  handle y hy := by
    rcases Table.mem_put.mp hy with rfl | ⟨hy, -⟩
    · exact ⟨nd, hi, hm⟩
    · exact h.handle y hy

theorem InodeName.length_lt (name : InodeName) : name.bytes.length < 65536 :=
  name.length_le.trans_lt (by decide)

theorem Orderly.link {db : Cldb} (h : Orderly db) {name : Bytes} {inum : Inum} {parent : RawInode}
    {flags size now : Nat} (hv : validInodeName name = true) (hlong : 2 ≤ name.length)
    (hlen : name.length < 65536) (habs : db.byname name = none)
    (hunused : db.inodes.get inum = none)
    (hparent : db.byname (pathnameParse name).dir = some parent)
    (hdir : has parent.flags ciflDir = true) :
    Orderly (db.link ((cldbInodeMem now name flags inum).touch now) ({ parent with size }.touch now)
      (dirdataAppend (contentOf db.data parent.inum) (pathnameParse name).base)) := by
  obtain ⟨hpm, hpn⟩ := byname_eq_some hparent
  have hfree : nodeOf db.inodes inum = none := by simp [nodeOf, hunused]
  have hnodes : ∀ ino' : RawInode, nodeOf ((db.inodes.put unordered
      ({ parent with size }.touch now)).put unordered ino') =
      Function.update (nodeOf db.inodes) ino'.inum (some ⟨ino'.name, has ino'.flags ciflDir⟩) := by
    intro ino'
    rw [nodeOf_put, nodeOf_touch hpm]
  constructor
  · simp only [Cldb.link, hnodes, contentOf_put]
    have hp := nodeOf_inum hpm
    rw [hpn, hdir] at hp
    exact h.tree.link hfree hv hlen (ne_slash_of_long hlong) (byname_eq_none habs) hp
  · intro x hx
    obtain ⟨nd, hnd, hm⟩ := h.handle x hx
    refine ⟨nd, ?_, hm⟩
    simp only [Cldb.link, hnodes]
    rwa [Function.update_of_ne]
    rintro he
    rw [he] at hnd
    exact absurd (hfree.symm.trans hnd) (by simp)

theorem Orderly.unlink {db : Cldb} (h : Orderly db) {name data : Bytes} {ino parent : RawInode}
    {size now : Nat} (hlong : 2 ≤ name.length)
    (hparent : db.byname (pathnameParse name).dir = some parent) (hino : db.byname name = some ino)
    (hempty : has ino.flags ciflDir = true → contentOf db.data ino.inum = [])
    (hpos : ∀ pos len, direntFind (contentOf db.data parent.inum) (pathnameParse name).base =
      .found pos len → pos < 2 ^ 31)
    (hdel : dirdataDelete (contentOf db.data parent.inum) (pathnameParse name).base = some data) :
    Orderly (db.unlink ino ({ parent with size }.touch now) data) := by
  obtain ⟨hpm, hpn⟩ := byname_eq_some hparent
  obtain ⟨him, rfl⟩ := byname_eq_some hino
  have hr := ne_slash_of_long hlong
  obtain ⟨p, hp⟩ := h.tree.parent _ _ (nodeOf_inum him) hr
  obtain rfl : p = parent.inum := h.tree.unique _ _ _ _ hp (nodeOf_inum hpm) hpn.symm
  have hne : parent.inum ≠ ino.inum := by
    intro he
    have heq := Table.eq_of_key hpm him he
    exact pathnameParse_dir_ne (h.tree.valid _ _ (nodeOf_inum him)).1 hr (heq ▸ hpn).symm
  have hnodes : nodeOf ((db.inodes.del ino.inum).put unordered ({ parent with size }.touch now)) =
      Function.update (nodeOf db.inodes) ino.inum none := by
    rw [nodeOf_touch (Table.mem_del.mpr ⟨hpm, hne⟩), nodeOf_del]
  constructor
  · simp only [Cldb.unlink, hnodes, contentOf_put, contentOf_del]
    exact h.tree.unlink (nodeOf_inum him) hr hp hempty hpos hdel
  · intro x hx
    obtain ⟨hx, hxi⟩ := Table.mem_filter.mp hx
    obtain ⟨nd, hnd, hm⟩ := h.handle x hx
    refine ⟨nd, ?_, hm⟩
    simp only [Cldb.unlink, hnodes]
    rwa [Function.update_of_ne (by simpa using hxi)]

theorem Orderly.effect {s : Server} {op : Op} (h : Orderly s.db) (hok : op.treelike s = true)
    {sid : Sid} {req : Request} {fh now : Nat} {db' : Cldb} (hr : op.request s = some (sid, req))
    (heff : DbEffect sid fh now s.db req db') : Orderly db' := by
  cases heff with
  | @put m x ino handle write file inode =>
    obtain ⟨hm, hi⟩ := Table.mem_get.mp inode
    obtain ⟨nd, hnd, hmode⟩ := h.handle x (Table.mem_get.mp handle).1
    constructor
    · simp only [nodeOf_touch hm, contentOf_put]
      exact h.tree.write hnd (hmode.symm.trans file) m.data
    · simp only [nodeOf_touch hm]
      exact h.handle
  | «open» valid inode dir hsess =>
    exact h.addHandle (nodeOf_inum (byname_eq_some inode).1) dir
  | @create m inum parent sess size flags valid long absent unused above dir hparent hsess creates =>
    have hdir : has parent.flags ciflDir = true := by
      simpa [Op.treelike, hr, creates, absent, hparent] using hok
    have hnode : nodeOf (s.db.link ((cldbInodeMem now m.inodeName.bytes flags inum).touch now)
        ({ parent with size }.touch now) (dirdataAppend (contentOf s.db.data parent.inum)
          (pathnameParse m.inodeName.bytes).base)).inodes inum =
        some ⟨m.inodeName.bytes, has flags ciflDir⟩ := by
      simp only [Cldb.link, nodeOf_put]
      exact Function.update_self ..
    exact (h.link valid long m.inodeName.length_lt absent unused hparent hdir).addHandle hnode
      dir.symm
  | close handle => exact h.mono rfl rfl fun x hx => (Table.mem_del.mp hx).1
  | @del name ino parent old data size valid long hparent hold inode empty entry =>
    have hcont : contentOf s.db.data parent.inum = old.data := by simp [contentOf, hold]
    refine h.unlink long hparent inode (fun hdir => ?_) ?_ (hcont ▸ entry)
    · cases hd : s.db.data.get ino.inum with
      | none => simp [contentOf, hd]
      | some d => simp [contentOf, hd, empty hdir d hd]
    · intro pos len hfind
      simpa [Op.treelike, hr, hparent, hfind] using hok
  | unlock handle mode scan => exact h.mono rfl rfl fun x hx => hx
  | lock handle mode add =>
    obtain ⟨lock, ls, -, -, -, -, -, -, rfl, -⟩ := cldbLockAdd_ok add
    exact h.mono rfl rfl fun x hx => hx

theorem Orderly.step (e : Env) {s : Server} {op : Op} (h : Orderly s.db)
    (hok : op.treelike s = true) : Orderly (s.step e op).db := by
  cases step_db e s op with
  | same hdb hfh => rwa [hdb]
  | created hc =>
    obtain ⟨raw, -, -, -, hdb⟩ := hc.db
    rw [hdb]
    exact h.mono rfl rfl fun x hx => hx
  | effect hr hn heff hopen hfh => exact h.effect hok hr heff
  | pruned hd hp hfh => exact h.mono hp.inodes hp.data hp.sub

theorem Orderly.init (now : Nat) : Orderly (Server.init now).db := by
  have hnodes : nodeOf (Server.init now).db.inodes =
      Function.update (fun _ => none) cldInoRoot (some ⟨[slash], true⟩) := by
    have hempty : nodeOf Table.empty = fun _ => none := rfl
    have hdir : has ciflDir ciflDir = true := by decide
    simp only [Server.init, nodeOf_put, hempty, rootInode, cldbInodeMem, hdir]
  have hroot : ∀ i nd, nodeOf (Server.init now).db.inodes i = some nd →
      i = cldInoRoot ∧ nd = ⟨[slash], true⟩ := by
    intro i nd hi
    rw [hnodes, Function.update_apply] at hi
    split at hi
    · next he => exact ⟨he, (Option.some.inj hi).symm⟩
    · cases hi
  refine ⟨⟨⟨cldInoRoot, by rw [hnodes, Function.update_self]⟩, ?_, ?_, ?_, ?_, fun i hi => rfl⟩,
    by simp [Server.init, Table.empty]⟩
  · intro i nd hi
    rw [(hroot i nd hi).2]
    decide
  · intro i j nd nd' hi hj _
    rw [(hroot i nd hi).1, (hroot j nd' hj).1]
  · intro i nd hi hne
    rw [(hroot i nd hi).2] at hne
    exact absurd rfl hne
  · intro i dir hi
    refine ⟨[], ⟨List.nodup_nil, fun b => ?_⟩, rfl⟩
    simp only [List.not_mem_nil, false_iff]
    rintro ⟨j, nd, hj, hin⟩
    exact hin.1 (by rw [(hroot j nd hj).2])

/-- In a run whose steps are all treelike the namespace is a tree that agrees with the data of its
directories. A beginning of such a run is one too, so this holds at every point of it. -/
theorem run_namespace (e : Env) (now : Nat) (ops : List Op)
    (h : Meets (Server.step e) (fun s op => op.treelike s = true) (Server.init now) ops) :
    Namespace (run (Server.step e) (Server.init now) ops).db := by
  have hinv := h.invariant (I := fun s => Orderly s.db) (.init now) fun s op hs hok => hs.step e hok
  exact hinv.tree.namespace

/-- A directory `/d` with a file `/d/f` in it, written, deleted and made again as a directory. -/
def gardenRun : List Op :=
  [.newSess 1, .open 1 (comCreate + comDirectory) [slash, 0x64],
    .open 1 (comCreate + comWrite) [slash, 0x64, slash, 0x66], .put 1 3 [0x01, 0x02],
    .del 1 [slash, 0x64, slash, 0x66],
    .open 1 (comCreate + comDirectory) [slash, 0x64, slash, 0x66], .close 1 4]

theorem run_namespace_garden :
    Meets (Server.step .plain) (fun s op => op.treelike s = true) (Server.init 0) gardenRun ∧
      Namespace (run (Server.step .plain) (Server.init 0) gardenRun).db := by
  have hmeets : Meets (Server.step .plain) (fun s op => op.treelike s = true) (Server.init 0)
      gardenRun := by decide +kernel
  exact ⟨hmeets, run_namespace .plain 0 gardenRun hmeets⟩

/-- A file `/a`, and then `/a/b`. -/
def graftRun : List Op :=
  [.newSess 1, .open 1 comCreate [slash, 0x61], .open 1 comCreate [slash, 0x61, slash, 0x62]]

/-- The second file is made in the first one. -/
theorem graftRun_not_namespace :
    ¬ Namespace (run (Server.step .plain) (Server.init 0) graftRun).db := by
  intro h
  have hchild : ((run (Server.step .plain) (Server.init 0) graftRun).db.inodes.rows.any
      fun ino => ino.name = [slash, 0x61, slash, 0x62]) = true := by decide +kernel
  have hparent : ((run (Server.step .plain) (Server.init 0) graftRun).db.byname
      [slash, 0x61]).all (fun ino => !has ino.flags ciflDir) = true := by decide +kernel
  obtain ⟨ino, hm, hname⟩ := List.any_eq_true.mp hchild
  obtain ⟨dir, hd, hdir⟩ := h.parent ino hm (by simp_all)
  rw [of_decide_eq_true hname, show (pathnameParse [slash, 0x61, slash, 0x62]).dir = [slash, 0x61]
    by decide] at hd
  simp [hd, hdir] at hparent

end Hail.Cld
