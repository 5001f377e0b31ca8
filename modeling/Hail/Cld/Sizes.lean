import Hail.Cld.Reply
import Hail.Library.Run

/-!
# Sizes and data

The size of an inode and its data are stored in two tables. `msg_put`, `msg_open` and `msg_del` write
them together, the latter two for the parent of a name, so they agree in every run in which no
record outgrows the 32 bits of a size. Then the comparison `msg_get` makes before it sends data
always succeeds.
-/
namespace Hail.Cld

open Library

structure SizesAgree (inodes : Table RawInode.inum) (data : Table DataRec.inum) : Prop where
  size : ∀ ino ∈ inodes.rows, ino.size = (data.get ino.inum).elim 0 fun d => d.data.length
  owned : ∀ d ∈ data.rows, inodes.Has d.inum

/-- No data record is longer than a size can say. -/
def Cldb.Fits (db : Cldb) : Prop := ∀ d ∈ db.data.rows, d.data.length < 2 ^ 32

instance (db : Cldb) : Decidable db.Fits := by unfold Cldb.Fits; infer_instance

namespace SizesAgree

variable {inodes : Table RawInode.inum} {data : Table DataRec.inum}

/-- Writing an inode together with its data. -/
theorem write (h : SizesAgree inodes data) {ino : RawInode} {d : DataRec} (hinum : ino.inum = d.inum)
    (hsize : ino.size = d.data.length) :
    SizesAgree (inodes.put unordered ino) (data.put unordered d) where
  size x hx := by
    rcases Table.mem_put.mp hx with rfl | ⟨hx, hne⟩
    · simp [hinum, hsize]
    · rw [Table.get_put_of_ne (hinum ▸ hne)]
      exact h.size x hx
  owned x hx := by
    rw [Table.has_put]
    rcases Table.mem_put.mp hx with rfl | ⟨hx, -⟩
    · exact .inl hinum.symm
    · exact .inr (h.owned x hx)

/-- A number without an inode has no data either, so an inode that is made has size zero. -/
theorem add (h : SizesAgree inodes data) {ino : RawInode} (hnew : inodes.get ino.inum = none)
    (hsize : ino.size = 0) : SizesAgree (inodes.put unordered ino) data where
  size x hx := by
    rcases Table.mem_put.mp hx with rfl | ⟨hx, -⟩
    · have hnone : data.get x.inum = none := by
        rw [Table.get_eq_none]
        intro d hd hk
        exact Table.get_none_iff.mp hnew (hk ▸ h.owned d hd)
      rw [hnone, hsize]
      rfl
    · exact h.size x hx
  owned x hx := Table.has_put.mpr (.inr (h.owned x hx))

theorem remove (h : SizesAgree inodes data) (inum : Inum) :
    SizesAgree (inodes.del inum) (data.del inum) where
  size x hx := by
    obtain ⟨hx, hne⟩ := Table.mem_del.mp hx
    rw [Table.get_del, if_neg hne]
    exact h.size x hx
  owned x hx := by
    obtain ⟨hx, hne⟩ := Table.mem_del.mp hx
    exact Table.has_del.mpr ⟨h.owned x hx, hne⟩

theorem effect {sid : Sid} {fh now : Nat} {db db' : Cldb} {req : Request}
    (h : SizesAgree db.inodes db.data) (heff : DbEffect sid fh now db req db') (hfits : db'.Fits) :
    SizesAgree db'.inodes db'.data := by
  cases heff with
  | put handle write file inode => exact h.write (Table.mem_get.mp inode).2 rfl
  | «open» | close | unlock => exact h
  | @create m inum parent sess size flags valid long absent unused above dir hparent hsess creates next hsize written =>
    have hlt := hfits _ (Table.mem_put.mpr (.inl rfl))
    rw [Nat.mod_eq_of_lt hlt] at hsize
    refine (h.write rfl hsize).add ?_ rfl
    -- the parent is stored, so the new inode is another one
    have hne : inum ≠ parent.inum := by
      rintro rfl
      exact Table.get_none_iff.mp unused ⟨parent, (byname_eq_some hparent).1, rfl⟩
    change (db.inodes.put unordered ({ parent with size }.touch now)).get inum = none
    rw [Table.get_put_of_ne (by exact hne)]
    exact unused
  | del valid long hparent hold inode empty entry hsize =>
    have hlt := hfits _ (Table.mem_put.mpr (.inl rfl))
    rw [Nat.mod_eq_of_lt hlt] at hsize
    exact (h.remove _).write rfl hsize
  | lock handle mode add =>
    obtain ⟨lock, ls, -, -, -, -, -, -, rfl, -⟩ := cldbLockAdd_ok add
    exact h

theorem init (now : Nat) : SizesAgree (Server.init now).db.inodes (Server.init now).db.data where
  size x hx := by
    obtain rfl : x = rootInode now := by simpa [Server.init, Table.empty] using hx
    rfl
  owned := by simp [Server.init, Table.empty]

theorem step {s : Server} (h : SizesAgree s.db.inodes s.db.data) (e : Env) (op : Op)
    (hfits : (s.step e op).db.Fits) :
    SizesAgree (s.step e op).db.inodes (s.step e op).db.data := by
  cases step_db e s op with
  | same hdb hfh => rwa [hdb]
  | created hc =>
    obtain ⟨raw, -, -, -, hdb⟩ := hc.db
    rwa [hdb]
  | effect hr hn heff hopen hfh => exact h.effect heff hfits
  | pruned hd hp hfh => rwa [hp.inodes, hp.data]

/-- A readable handle on a stored inode is answered, unless the database fails to read. -/
theorem get {s : Server} (h : SizesAgree s.db.inodes s.db.data) {ft : Faults} {sess : Session}
    {fh : Nat} {x : RawHandle} {ino : RawInode} (hget : ft .dataGet = false)
    (hx : cldbHandleGet ft s.db sess.sid fh = .ok x) (hmode : has x.mode comRead = true)
    (hino : cldbInodeGet ft s.db x.inum = .ok ino) :
    ∃ resp, (msgGetTxn ft sess fh s).1 = .ok resp := by
  obtain ⟨hmem, hinum⟩ := Table.mem_get.mp (found_ok.mp (Faults.guard_ok.mp hino).2)
  have hsize := h.size ino hmem
  have hdata : ∃ data, GetData ft s.db sess.msgOp x.inum ino.size data := by
    by_cases hop : sess.msgOp = .get
    · rw [hinum] at hsize
      cases hd : s.db.data.get x.inum with
      | none => exact ⟨[], .absent hop (by simp [cldbDataGet, hd, hget])⟩
      | some d =>
        rw [hd] at hsize
        exact ⟨d.data, .present hop (by simp [cldbDataGet, hd, hget]) hsize.symm⟩
    · exact ⟨[], .metadata hop⟩
  obtain ⟨data, hdata⟩ := hdata
  exact ⟨_, msgGetTxn_ok.mpr ⟨x, ino, data, hx, hmode, hino, hdata, rfl⟩⟩

end SizesAgree

/-- In every run the sizes agree with the data, and no data is without an inode, as long as every
record fits. `msg_get` then never finds data of another length than the inode says. -/
theorem run_sizesAgree (e : Env) (now : Nat) (ops : List Op)
    (h : Meets (Server.step e) (fun s op => (s.step e op).db.Fits) (Server.init now) ops) :
    SizesAgree (run (Server.step e) (Server.init now) ops).db.inodes
        (run (Server.step e) (Server.init now) ops).db.data ∧
      ∀ ft (sess : Session) fh x ino, ft .dataGet = false →
        cldbHandleGet ft (run (Server.step e) (Server.init now) ops).db sess.sid fh = .ok x →
        has x.mode comRead = true →
        cldbInodeGet ft (run (Server.step e) (Server.init now) ops).db x.inum = .ok ino →
        ∃ resp, (msgGetTxn ft sess fh (run (Server.step e) (Server.init now) ops)).1 = .ok resp := by
  have hrun : SizesAgree (run (Server.step e) (Server.init now) ops).db.inodes
      (run (Server.step e) (Server.init now) ops).db.data :=
    h.invariant (I := fun s => SizesAgree s.db.inodes s.db.data) (.init now)
      fun s op hs hok => hs.step e op hok
  refine ⟨hrun, ?_⟩
  intro ft sess fh x ino hget hx hmode hino
  exact hrun.get hget hx hmode hino

/-- Session 1 makes `/a`, writes to it and deletes it. -/
def writtenRun : List Op :=
  [.newSess 1, .open 1 (comCreate + comWrite) [slash, 0x61], .put 1 2 [7, 8, 9],
    .open 1 (comCreate + comWrite) [slash, 0x62], .del 1 [slash, 0x61]]

theorem run_sizesAgree_written :
    Meets (Server.step .plain) (fun s op => (s.step .plain op).db.Fits) (Server.init 0)
        writtenRun ∧
      SizesAgree (run (Server.step .plain) (Server.init 0) writtenRun).db.inodes
        (run (Server.step .plain) (Server.init 0) writtenRun).db.data := by
  have hfits : Meets (Server.step .plain) (fun s op => (s.step .plain op).db.Fits) (Server.init 0)
      writtenRun := by decide +kernel
  exact ⟨hfits, (run_sizesAgree .plain 0 writtenRun hfits).1⟩

end Hail.Cld
