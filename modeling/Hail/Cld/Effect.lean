import Hail.Cld.Msg

/-!
# What requests do

`DbEffect` lists, with everything the code has checked, the changes a committed request makes to
the database; a request that is not committed makes none (`handle_db`).
-/
namespace Hail.Cld

open Library

/-- Events that announce something other than a lock, and replies. -/
def NotLocked (m : Sent) : Prop := ¬ IsLocked m

theorem IsReply.notLocked {sid : Sid} {code : CleErrCodes} {m : Sent} (h : IsReply sid code m) :
    NotLocked m := by
  obtain ⟨op, xid, rfl⟩ := h
  rintro ⟨sid', fh, he⟩
  cases he

/-- The number of the handle that a message returns to its session. -/
def Sent.opened (m : Sent) : Option Nat :=
  match m.msg with
  | .openResp .ok _ fh => some fh
  | _ => none

/-- Neither is a lock announced nor a handle returned. -/
def IsPlain (m : Sent) : Prop := NotLocked m ∧ m.opened = none

theorem IsReply.isPlain {sid : Sid} {code : CleErrCodes} {m : Sent} (h : IsReply sid code m) :
    IsPlain m := by
  refine ⟨h.notLocked, ?_⟩
  obtain ⟨op, xid, rfl⟩ := h
  rfl

/-- The events that are sent to handles on an inode. -/
def IsNotice (m : Sent) : Prop := ∃ sid fh ev, ev ≠ ceLocked ∧ m = ⟨sid, .event, .event fh ev⟩

theorem IsNotice.notLocked {m : Sent} (h : IsNotice m) : NotLocked m := by
  obtain ⟨sid, fh, ev, hev, rfl⟩ := h
  rintro ⟨sid', fh', he⟩
  cases he
  exact hev rfl

def IsEvent (m : Sent) : Prop := ∃ sid fh ev, m = ⟨sid, .event, .event fh ev⟩

theorem IsNotice.isEvent {m : Sent} (h : IsNotice m) : IsEvent m := by
  obtain ⟨sid, fh, ev, -, rfl⟩ := h
  exact ⟨sid, fh, ev, rfl⟩

theorem IsLocked.isEvent {m : Sent} (h : IsLocked m) : IsEvent m := by
  obtain ⟨sid, fh, rfl⟩ := h
  exact ⟨sid, fh, ceLocked, rfl⟩

theorem notifyLoop_frame (e : Env) (ft : Faults) (nth : Nat) (deleted : Bool) (k : Nat)
    (hs : List RawHandle) (s : Server) :
    SendFrame IsNotice s (notifyLoop e ft nth deleted k hs s) := by
  induction hs generalizing k s with
  | nil => exact .refl _ s
  | cons h hs ih =>
    unfold notifyLoop
    split
    · exact .refl _ s
    · split
      · exact ih _ s
      · split
        · exact ih _ s
        · split
          · exact ih _ s
          · have hsend := sessSendmsg_frame e s h.sid
              (.event h.fh (if deleted then ceDeleted else ceUpdated)) .event
            have hq : ∀ m, m = ⟨h.sid, .event, .event h.fh (if deleted then ceDeleted else ceUpdated)⟩ →
                IsNotice m := fun m hm => ⟨_, _, _, by cases deleted <;> decide, hm⟩
            split
            · next srv hs =>
              rw [hs] at hsend
              exact (hsend.mono hq).trans (ih _ srv)
            · next srv hs =>
              rw [hs] at hsend
              exact hsend.mono hq

theorem inodeNotify_keeps (e : Env) (ft : Faults) (nth : Nat) (inum : Inum) (deleted : Bool) :
    Txn.Keeps (SendFrame IsNotice) (inodeNotify e ft nth inum deleted) := by
  refine .bind .trans (fun s => ?_) fun _ s => notifyLoop_frame e ft nth deleted 0 _ s
  rw [Txn.failIf_end]
  exact .refl _ s

theorem inodeNotify_ok {e : Env} {ft : Faults} {nth : Nat} {inum : Inum} {deleted : Bool}
    {s t : Server} {u : PUnit} (h : inodeNotify e ft nth inum deleted s = (.ok u, t)) :
    t.db = s.db := by
  have hk := (inodeNotify_keeps e ft nth inum deleted s).db
  rwa [h] at hk

theorem inodeTouch_keeps (e : Env) (ft : Faults) (nth : Nat) (ino : RawInode) :
    Txn.Keeps (Frame IsNotice) (inodeTouch e ft nth ino) :=
  .bind .trans (fun s => .refl _ s) fun _ => .bind .trans (dbPut_keeps _ _) fun _ s =>
    (inodeNotify_keeps e ft nth ino.inum false s).toFrame

theorem inodeTouch_ok {e : Env} {ft : Faults} {nth : Nat} {ino : RawInode} {s t : Server}
    {u : PUnit} (h : inodeTouch e ft nth ino s = (.ok u, t)) :
    t.db = { s.db with inodes := s.db.inodes.put unordered (ino.touch s.currentTime) } := by
  simp only [inodeTouch, Txn.bind_ok, Txn.read_ok, dbPut_ok, cldbInodePut, Faults.guard_ok] at h
  obtain ⟨_, _, ⟨rfl, rfl⟩, _, _, ⟨db, ⟨-, hdb⟩, rfl⟩, hn⟩ := h
  cases hdb
  exact inodeNotify_ok hn

/-- The record that `msg_open` adds for a handle. -/
def CldMsgOpen.handle (m : CldMsgOpen) (sid : Sid) (fh : Nat) (inum : Inum) : RawHandle :=
  ⟨sid, fh, inum, m.mode, m.events⟩

/-- Deleting inode `ino` and writing the new data of its parent. -/
def Cldb.unlink (db : Cldb) (ino parent : RawInode) (data : Bytes) : Cldb :=
  { db with
    inodes := (db.inodes.del ino.inum).put unordered parent
    data := (db.data.del ino.inum).put unordered ⟨parent.inum, data⟩
    handles := db.handles.filter fun h => h.inum ≠ ino.inum }

/-- Adding inode `ino` and writing the new data of its parent. -/
def Cldb.link (db : Cldb) (ino parent : RawInode) (data : Bytes) : Cldb :=
  { db with
    inodes := (db.inodes.put unordered parent).put unordered ino
    data := db.data.put unordered ⟨parent.inum, data⟩ }

/-- Adding a handle, and writing the session that now counts it. -/
def Cldb.addHandle (db : Cldb) (h : RawHandle) (sess : RawSession) : Cldb :=
  { db with
    handles := db.handles.put RawHandle.before h
    sessions := db.sessions.put unordered sess }

/-- What a committed request of session `sid` makes of a database, at time `now` and with `fh` for
the number of the next handle. -/
inductive DbEffect (sid : Sid) (fh now : Nat) (db : Cldb) : Request → Cldb → Prop where
  | put {m : CldMsgPut} {h : RawHandle} {ino : RawInode}
      (handle : db.handles.get (sid, m.fh) = some h)
      (write : has h.mode comWrite = true)
      (file : has h.mode comDirectory = false)
      (inode : db.inodes.get h.inum = some ino) :
      DbEffect sid fh now db (.put m) { db with
        data := db.data.put unordered ⟨h.inum, m.data⟩
        inodes := db.inodes.put unordered ({ ino with size := m.data.length }.touch now) }
  | open {m : CldMsgOpen} {ino : RawInode} {sess : RawSession}
      (valid : validInodeName m.inodeName.bytes = true)
      (inode : db.byname m.inodeName.bytes = some ino)
      (dir : has m.mode comDirectory = has ino.flags ciflDir)
      (hsess : sess.sid = sid)
      (next : sess.nextFh = (fh + 1) % 2 ^ 64)
      (written : sess.Written) :
      DbEffect sid fh now db (.open m) (db.addHandle (m.handle sid fh ino.inum) sess)
  | create {m : CldMsgOpen} {inum : Inum} {parent : RawInode} {sess : RawSession} {size flags : Nat}
      (valid : validInodeName m.inodeName.bytes = true)
      (long : 2 ≤ m.inodeName.bytes.length)
      (absent : db.byname m.inodeName.bytes = none)
      (unused : db.inodes.get inum = none)
      (above : cldInoReservedLast < inum)
      (dir : has flags ciflDir = has m.mode comDirectory)
      (hparent : db.byname (pathnameParse m.inodeName.bytes).dir = some parent)
      (hsess : sess.sid = sid)
      (creates : has m.mode comCreate = true)
      (next : sess.nextFh = (fh + 1) % 2 ^ 64)
      (hsize : size = (dirdataAppend ((db.data.get parent.inum).elim [] DataRec.data)
        (pathnameParse m.inodeName.bytes).base).length % 2 ^ 32)
      (written : sess.Written) :
      DbEffect sid fh now db (.open m)
        ((db.link ((cldbInodeMem now m.inodeName.bytes flags inum).touch now)
          ({ parent with size }.touch now)
          (dirdataAppend ((db.data.get parent.inum).elim [] DataRec.data)
            (pathnameParse m.inodeName.bytes).base)).addHandle (m.handle sid fh inum) sess)
  | close {n : Nat} {h : RawHandle}
      (handle : db.handles.get (sid, n) = some h) :
      DbEffect sid fh now db (.close n)
        ({ db with handles := db.handles.del (sid, n) }.setLocks h.lockInum
          (keptLocks sid n (db.locks h.lockInum)))
  | del {name : InodeName} {ino parent : RawInode} {old : DataRec} {data : Bytes} {size : Nat}
      (valid : validInodeName name.bytes = true)
      (long : 2 ≤ name.bytes.length)
      (hparent : db.byname (pathnameParse name.bytes).dir = some parent)
      (hold : db.data.get parent.inum = some old)
      (inode : db.byname name.bytes = some ino)
      (empty : has ino.flags ciflDir = true → ∀ d, db.data.get ino.inum = some d → d.data = [])
      (entry : dirdataDelete old.data (pathnameParse name.bytes).base = some data)
      (hsize : size = data.length % 2 ^ 32) :
      DbEffect sid fh now db (.del name) (db.unlink ino ({ parent with size }.touch now) data)
  | unlock {n : Nat} {h : RawHandle} {ls : List RawLock}
      (handle : db.handles.get (sid, n) = some h)
      (mode : has h.mode comLock = true)
      (scan : lockDelScan sid n (db.locks h.inum) = some ls) :
      DbEffect sid fh now db (.unlock n) (db.setLocks h.inum ls)
  | lock {n flags : Nat} {h : RawHandle} {wait acquired : Bool} {ft : Faults} {db' : Cldb}
      (handle : db.handles.get (sid, n) = some h)
      (mode : has h.mode comLock = true)
      (add : cldbLockAdd ft now db sid n h.inum (has flags clfShared) wait = .ok (db', acquired)) :
      DbEffect sid fh now db (.lock n flags) db'

theorem msgPutTxn_ok {e : Env} {ft : Faults} {sid : Sid} {m : CldMsgPut} {s t : Server} {u : PUnit}
    (fh : Nat) (h : msgPutTxn e ft sid m s = (.ok u, t)) :
    DbEffect sid fh s.currentTime s.db (.put m) t.db := by
  simp only [msgPutTxn, Txn.bind_ok, Txn.onErr_ok, Txn.failIf_ok, dbGet_ok, dbPut_ok,
    cldbHandleGet, cldbInodeGet, cldbDataPut, Faults.guard_ok, found_ok] at h
  obtain ⟨h, _, ⟨⟨-, hh⟩, rfl⟩, _, _, ⟨hmode, rfl⟩, ino, _, ⟨⟨-, hi⟩, rfl⟩, _, _,
    ⟨db, ⟨-, hdb⟩, rfl⟩, ht⟩ := h
  cases hdb
  simp only [Bool.or_eq_false_iff, Bool.not_eq_false'] at hmode
  rw [inodeTouch_ok ht]
  exact .put hh hmode.1 hmode.2 hi

theorem rescanIf_ok {e : Env} {ft : Faults} {inum : Inum} {waiter : Bool} {s t : Server} {u : PUnit}
    (h : (if waiter then (inodeLockRescan e ft inum).onErr fun _ => CleErrCodes.dbErr
      else pure ⟨⟩) s = (.ok u, t)) : t.db = s.db := by
  split at h
  · have hk := (inodeLockRescan_keeps e ft inum s).db
    rwa [Txn.onErr_ok.mp h] at hk
  · rw [(Txn.pure_ok.mp h).2]

theorem msgCloseTxn_ok {e : Env} {ft : Faults} {sid : Sid} {n : Nat} {s t : Server} {u : PUnit}
    (fh now : Nat) (h : msgCloseTxn e ft sid n s = (.ok u, t)) :
    DbEffect sid fh now s.db (.close n) t.db := by
  simp only [msgCloseTxn, Txn.bind_ok, Txn.onErr_ok, dbGet_ok, dbPut_ok, dbRun_ok, cldbHandleGet,
    cldbHandleDel, Faults.guard_ok, found_ok] at h
  obtain ⟨h, _, ⟨⟨-, hh⟩, rfl⟩, _, _, ⟨db, ⟨-, hdb⟩, rfl⟩, waiter, _, ⟨db', hrem, rfl⟩, ht⟩ := h
  rw [hh] at hdb
  cases hdb
  obtain ⟨rfl, -⟩ := sessionRemoveLocks_ok hrem
  rw [rescanIf_ok ht]
  exact .close hh

theorem msgUnlockTxn_ok {ft : Faults} {sid : Sid} {n : Nat} {s t : Server} {u : PUnit}
    (fh now : Nat) (h : msgUnlockTxn ft sid n s = (.ok u, t)) :
    DbEffect sid fh now s.db (.unlock n) t.db := by
  simp only [msgUnlockTxn, Txn.bind_ok, Txn.onErr_ok, Txn.failIf_ok, dbGet_ok, dbPut_ok,
    cldbHandleGet, cldbLockDel, Faults.guard_ok, found_ok, Bool.not_eq_false'] at h
  obtain ⟨h, _, ⟨⟨-, hh⟩, rfl⟩, _, _, ⟨hmode, rfl⟩, db, ⟨-, hdb⟩, rfl⟩ := h
  cases hs : lockDelScan sid n (s.db.locks h.inum) with
  | none => simp [hs, found, Except.map] at hdb
  | some ls =>
    simp only [hs, found, Except.map, Except.ok.injEq] at hdb
    subst hdb
    exact .unlock hh hmode hs

theorem msgLockTxn_ok {ft : Faults} {sid : Sid} {n flags : Nat} {wait acquired : Bool}
    {s t : Server} (h : msgLockTxn ft sid n flags wait s = (.ok acquired, t)) :
    ∃ h, s.db.handles.get (sid, n) = some h ∧ has h.mode comLock = true ∧
      cldbLockAdd ft s.currentTime s.db sid n h.inum (has flags clfShared) wait =
        .ok (t.db, acquired) := by
  simp only [msgLockTxn, Txn.bind_ok, Txn.onErr_ok, Txn.failIf_ok, Txn.read_ok, dbGet_ok, dbRun_ok,
    cldbHandleGet, Faults.guard_ok, found_ok, Bool.not_eq_false'] at h
  obtain ⟨h, _, ⟨⟨-, hh⟩, rfl⟩, _, _, ⟨hmode, rfl⟩, _, _, ⟨rfl, rfl⟩, db, hadd, rfl⟩ := h
  refine ⟨h, hh, hmode, ?_⟩
  cases ha : cldbLockAdd ft s.currentTime s.db sid n h.inum (has flags clfShared) wait with
  | error rc => simp [ha, Except.map] at hadd
  | ok r =>
    simp only [ha, Except.map, Except.ok.injEq, Prod.swap_eq_iff_eq_swap, Prod.swap_prod_mk] at hadd
    rw [hadd, Server.setDb_db]

theorem delInode_ok {ft : Faults} {inum : Inum} {db db' : Cldb}
    (h : delInode ft inum db = .ok db') :
    db' = { db with
      inodes := db.inodes.del inum
      data := db.data.del inum
      handles := db.handles.filter fun h => h.inum ≠ inum } := by
  unfold delInode at h
  split at h
  · cases h
  · split at h
    · cases h
    · cases h
      rfl

theorem msgDelTxn_ok {e : Env} {ft : Faults} {sid : Sid} {name : InodeName} {s t : Server}
    {u : PUnit} (fh : Nat) (hv : validInodeName name.bytes = true) (hlong : 2 ≤ name.bytes.length)
    (h : msgDelTxn e ft name.bytes s = (.ok u, t)) :
    DbEffect sid fh s.currentTime s.db (.del name) t.db := by
  simp only [msgDelTxn, Txn.bind_ok, Txn.onErr_ok, Txn.failIf_ok, Txn.read_ok, dbGet_ok, dbPut_ok,
    cldbInodeGetByname, cldbDataGet, Faults.guard_ok, found_ok, Option.map_eq_some_iff] at h
  obtain ⟨parent, _, ⟨⟨-, hparent⟩, rfl⟩, _, _, ⟨⟨-, old, hold, rfl⟩, rfl⟩, ino, _, ⟨⟨-, hino⟩, rfl⟩,
    data, _, ⟨rfl, rfl⟩, _, _, ⟨-, rfl⟩, _, _, ⟨hempty, rfl⟩, _, v, hn, _, _, ⟨db, hdel, rfl⟩, h⟩ := h
  have hvdb := inodeNotify_ok hn
  have hvtime : v.currentTime = s.currentTime := by
    have hk := (inodeNotify_keeps e ft 1 ino.inum true s).time
    rwa [hn] at hk
  have hdb := delInode_ok hdel
  cases hentry : dirdataDelete old.data (pathnameParse name.bytes).base with
  | none => simp [hentry] at h
  | some pdata =>
    simp only [hentry, Txn.bind_ok, Txn.onErr_ok, dbPut_ok, cldbDataPut, Faults.guard_ok] at h
    obtain ⟨_, _, ⟨db', ⟨-, hput⟩, rfl⟩, ht⟩ := h
    cases hput
    rw [inodeTouch_ok ht]
    subst hdb
    rw [hvdb] at *
    simp only [Server.setDb_time, Server.setDb_db, hvtime]
    refine .del hv hlong hparent hold hino ?_ hentry rfl
    intro hdir d hd
    simpa [hdir, hd] using hempty

theorem inumSearch_some {rand : Nat → Nat} {db : Cldb} {limit n m : Nat} {inum : Inum}
    (h : inumSearch rand db limit n = (some inum, m)) :
    cldInoReservedLast < inum ∧ db.inodes.get inum = none := by
  induction limit generalizing n with
  | zero => simp [inumSearch] at h
  | succ limit ih =>
    unfold inumSearch at h
    dsimp only at h
    split at h
    · exact ih h
    · next hlo =>
      split at h
      · exact ih h
      · next hu =>
        simp only [Prod.mk.injEq, Option.some.injEq] at h
        rw [← h.1]
        exact ⟨not_le.mp hlo, by simpa using hu⟩

theorem newInode_ok {e : Env} {ft : Faults} {name : Bytes} {s t : Server} {ino : RawInode}
    (h : newInode e ft name s = (.ok ino, t)) :
    t.db = s.db ∧ t.currentTime = s.currentTime ∧ ∃ inum, cldInoReservedLast < inum ∧
      s.db.inodes.get inum = none ∧ ino = cldbInodeMem s.currentTime name 0 inum := by
  unfold newInode at h
  split at h
  · cases h
  · split at h
    · cases h
    · next inode rnd hnew =>
      cases h
      simp only [cldbInodeNew] at hnew
      rcases hs : inumSearch e.rand s.db 100000 s.rnd with ⟨_ | inum, m⟩
      · simp [hs] at hnew
      · simp only [hs, Option.map_some, Prod.mk.injEq, Option.some.injEq] at hnew
        obtain ⟨habove, hunused⟩ := inumSearch_some hs
        exact ⟨rfl, rfl, inum, habove, hunused, hnew.1.symm⟩

theorem newInode_keeps (P : Sent → Prop) (e : Env) (ft : Faults) (name : Bytes) :
    Txn.Keeps (Frame P) (newInode e ft name) := by
  intro s
  have hrnd : ∀ rnd, Frame P s { s with rnd } := fun rnd =>
    ⟨⟨rfl, rfl, rfl, rfl, fun _ => rfl, (SessFrame.refl P s).queued, [], by simp, by simp⟩, fun _ => rfl⟩
  unfold newInode
  split
  · exact .refl _ s
  · split
    · exact hrnd _
    · exact hrnd _

theorem msgOpenFind_ok {ft : Faults} {m : CldMsgOpen} {s t : Server} {found : Option RawInode}
    (h : msgOpenFind ft m s = (.ok found, t)) :
    s = t ∧ validInodeName m.inodeName.bytes = true ∧ s.db.byname m.inodeName.bytes = found ∧
      (∀ ino, found = some ino → has m.mode comDirectory = has ino.flags ciflDir) ∧
      (found = none → 2 ≤ m.inodeName.bytes.length ∧ has m.mode comCreate = true) := by
  simp only [msgOpenFind, Txn.bind_ok, Txn.onErr_ok, Txn.failIf_ok, Txn.pure_ok, dbGet_ok] at h
  obtain ⟨_, _, ⟨hname, rfl⟩, inode, _, ⟨hget, rfl⟩, _, _, ⟨hcreate, rfl⟩, _, _, ⟨-, rfl⟩, _, _,
    ⟨hdir, rfl⟩, rfl, rfl⟩ := h
  have hby : s.db.byname m.inodeName.bytes = inode := by
    split at hget
    · next hb =>
      cases hget
      exact found_ok.mp (Faults.guard_ok.mp hb).2
    · next hb =>
      cases hget
      exact found_notfound.mp (Faults.guard_notfound.mp hb).2
    · cases hget
  refine ⟨rfl, ?_, hby, ?_, ?_⟩
  · cases hv : validInodeName m.inodeName.bytes <;> simp_all
  · rintro ino rfl
    simpa using hdir
  · rintro rfl
    have hc : has m.mode comCreate = true := by simpa using hcreate
    refine ⟨?_, hc⟩
    by_contra hl
    simp [hc, not_le.mp hl] at hname

theorem msgOpenCreate_ok {e : Env} {ft : Faults} {name : Bytes} {doDir : Bool} {s t : Server}
    {ino : RawInode} (h : msgOpenCreate e ft name doDir s = (.ok ino, t)) :
    ∃ inum parent size flags, cldInoReservedLast < inum ∧ s.db.inodes.get inum = none ∧
      has flags ciflDir = doDir ∧ ino = cldbInodeMem s.currentTime name flags inum ∧
      s.db.byname (pathnameParse name).dir = some parent ∧
      size = (dirdataAppend ((s.db.data.get parent.inum).elim [] DataRec.data)
        (pathnameParse name).base).length % 2 ^ 32 ∧
      t.db = { s.db with
        inodes := s.db.inodes.put unordered ({ parent with size }.touch s.currentTime)
        data := s.db.data.put unordered ⟨parent.inum, dirdataAppend
          ((s.db.data.get parent.inum).elim [] DataRec.data) (pathnameParse name).base⟩ } := by
  simp only [msgOpenCreate, Txn.bind_ok, Txn.onErr_ok, Txn.failIf_ok, Txn.pure_ok, dbGet_ok,
    dbPut_ok, cldbInodeGetByname, cldbDataPut, Faults.guard_ok, found_ok] at h
  obtain ⟨ino', v, hnew, parent, _, ⟨⟨-, hparent⟩, rfl⟩, pdata, _, ⟨hget, rfl⟩, _, _, ⟨-, rfl⟩, _, _,
    ⟨db, ⟨-, hdb⟩, rfl⟩, _, _, ht, rfl, rfl⟩ := h
  obtain ⟨hvdb, hvtime, inum, habove, hunused, rfl⟩ := newInode_ok hnew
  cases hdb
  have hpdata : pdata = (s.db.data.get parent.inum).elim [] DataRec.data := by
    rw [hvdb] at hget
    split at hget
    · next hd =>
      cases hget
      have hd := (Faults.guard_notfound.mp hd).2
      simp at hd
      simp [hd]
    · have hd := (Faults.guard_ok.mp hget).2
      simp at hd
      obtain ⟨d, hd, rfl⟩ := hd
      simp [hd]
  refine ⟨inum, parent, (dirdataAppend pdata (pathnameParse name).base).length % 2 ^ 32,
    if doDir then ciflDir else 0, habove, hunused, ?_, ?_, hvdb ▸ hparent, by rw [hpdata], ?_⟩
  · cases doDir <;> rfl
  · cases doDir <;> simp [cldbInodeMem]
  · rw [inodeTouch_ok ht, ← hpdata]
    simp only [Server.setDb_db, Server.setDb_time, hvdb, hvtime]

/-- One handle number of the session is taken. -/
def FhTaken (sid : Sid) (s t : Server) : Prop :=
  ∃ fh, s.nextFh sid = some fh ∧
    ∀ k, t.nextFh k = if k = sid then some ((fh + 1) % 2 ^ 64) else s.nextFh k

theorem cldbHandleNew_ok {ft : Faults} {sid : Sid} {inum : Inum} {mode events : Nat} {s t : Server}
    {h : RawHandle} (hn : cldbHandleNew ft sid inum mode events s = (.ok h, t)) :
    ∃ fh, s.nextFh sid = some fh ∧ h = ⟨sid, fh, inum, mode, events⟩ ∧ t.db = s.db ∧
      t.currentTime = s.currentTime ∧ t.nextFh sid = some ((fh + 1) % 2 ^ 64) := by
  unfold cldbHandleNew at hn
  split at hn
  · cases hn
  · next sess hg =>
    split at hn
    · cases hn
    · cases hn
      refine ⟨sess.nextFh, by simp [Server.nextFh, hg], rfl, rfl, rfl, ?_⟩
      simp [Server.nextFh, Server.putSess, get_sid hg]

/-- What opening does to sessions, however it ends: at most one handle number is taken. -/
def OpenEnd (sid : Sid) (s t : Server) : Prop :=
  SessFrame IsNotice s t ∧ ((∀ k, t.nextFh k = s.nextFh k) ∨ FhTaken sid s t)

theorem Frame.openEnd {sid : Sid} {s t : Server} (h : Frame IsNotice s t) : OpenEnd sid s t :=
  ⟨h.toSessFrame, .inl h.nextFh⟩

theorem nextFh_trans {sid : Sid} {s t u : Server}
    (h : (∀ k, t.nextFh k = s.nextFh k) ∨ FhTaken sid s t) (g : ∀ k, u.nextFh k = t.nextFh k) :
    (∀ k, u.nextFh k = s.nextFh k) ∨ FhTaken sid s u := by
  refine h.imp (fun hs k => (g k).trans (hs k)) ?_
  rintro ⟨fh, hs, ht⟩
  exact ⟨fh, hs, fun k => (g k).trans (ht k)⟩

theorem OpenEnd.trans_frame {sid : Sid} {s t u : Server} (h : OpenEnd sid s t)
    (g : Frame IsNotice t u) : OpenEnd sid s u :=
  ⟨h.1.trans g.toSessFrame, nextFh_trans h.2 g.nextFh⟩

theorem Frame.trans_openEnd {sid : Sid} {s t u : Server} (h : Frame IsNotice s t)
    (g : OpenEnd sid t u) : OpenEnd sid s u := by
  refine ⟨h.toSessFrame.trans g.1, g.2.imp (fun hs k => (hs k).trans (h.nextFh k)) ?_⟩
  rintro ⟨fh, hs, ht⟩
  refine ⟨fh, (h.nextFh sid).symm.trans hs, fun k => ?_⟩
  rw [ht k, h.nextFh k]

theorem cldbHandleNew_end (ft : Faults) (sid : Sid) (inum : Inum) (mode events : Nat) (s : Server) :
    OpenEnd sid s (cldbHandleNew ft sid inum mode events s).2 := by
  unfold cldbHandleNew
  split
  · exact ⟨.refl _ s, .inl fun _ => rfl⟩
  · next sess hg =>
    split
    · exact ⟨.refl _ s, .inl fun _ => rfl⟩
    · refine ⟨⟨rfl, rfl, rfl, rfl, map_get_putSess Session.core hg rfl rfl,
        queued_putSess hg rfl (.of_eq rfl rfl), [], by simp [Server.putSess], by simp⟩, .inr ⟨sess.nextFh, by simp [Server.nextFh, hg], fun k => ?_⟩⟩
      simp only [Server.nextFh, Server.putSess, Table.get_put, get_sid hg]
      split <;> simp

theorem msgOpenFind_keeps (P : Sent → Prop) (ft : Faults) (m : CldMsgOpen) :
    Txn.Keeps (Frame P) (msgOpenFind ft m) :=
  .bind .trans (failIf_keeps _ _ _) fun _ => .bind .trans ((dbGet_keeps _ _).onErr _) fun _ =>
    .bind .trans (failIf_keeps _ _ _) fun _ => .bind .trans (failIf_keeps _ _ _) fun _ =>
      .bind .trans (failIf_keeps _ _ _) fun _ => fun s => .refl _ s

theorem msgOpenCreate_keeps (e : Env) (ft : Faults) (name : Bytes) (doDir : Bool) :
    Txn.Keeps (Frame IsNotice) (msgOpenCreate e ft name doDir) :=
  .bind .trans (newInode_keeps _ e ft name) fun _ => .bind .trans ((dbGet_keeps _ _).onErr _) fun _ =>
    .bind .trans ((dbGet_keeps _ _).onErr _) fun _ => .bind .trans (failIf_keeps _ _ _) fun _ =>
      .bind .trans ((dbPut_keeps _ _).onErr _) fun _ =>
        .bind .trans ((inodeTouch_keeps e ft 0 _).onErr _) fun _ => fun s => .refl _ s

theorem msgOpenInode_keeps (e : Env) (ft : Faults) (m : CldMsgOpen) (found : Option RawInode) :
    Txn.Keeps (Frame IsNotice) (msgOpenInode e ft m found) := by
  cases found with
  | none => exact msgOpenCreate_keeps e ft _ _
  | some ino => exact fun s => .refl _ s

theorem touchIf_keeps (e : Env) (ft : Faults) (create : Bool) (ino : RawInode) :
    Txn.Keeps (Frame IsNotice) (if create then
      (inodeTouch e ft 1 ino).onErr fun _ => CleErrCodes.dbErr else pure ⟨⟩) := by
  split
  · exact (inodeTouch_keeps e ft 1 ino).onErr _
  · exact fun s => .refl _ s

theorem msgOpenStore_end (e : Env) (ft : Faults) (sid : Sid) (m : CldMsgOpen) (create : Bool)
    (ino : RawInode) (s : Server) : OpenEnd sid s (msgOpenStore e ft sid m create ino s).2 := by
  have hnew := cldbHandleNew_end ft sid ino.inum m.mode m.events s
  refine Txn.bind_end (fun code u hu => by rwa [hu] at hnew) fun h u hu => ?_
  rw [hu] at hnew
  refine hnew.trans_frame ?_
  exact (Txn.Keeps.bind .trans ((dbPut_keeps _ _).onErr _) fun _ =>
    .bind .trans (touchIf_keeps e ft create ino) fun _ =>
    .bind .trans (fun s => .refl _ s) fun _ => .bind .trans (failIf_keeps _ _ _) fun _ =>
      .bind .trans ((dbPut_keeps _ _).onErr _) fun _ => fun s => .refl _ s) u

theorem msgOpenTxn_end (e : Env) (ft : Faults) (sid : Sid) (m : CldMsgOpen) (s : Server) :
    OpenEnd sid s (msgOpenTxn e ft sid m s).2 := by
  have hfind := msgOpenFind_keeps IsNotice ft m s
  refine Txn.bind_end (fun code u hu => ?_) fun found u hu => ?_
  · rw [hu] at hfind
    exact hfind.openEnd
  · rw [hu] at hfind
    have hino := hfind.trans (msgOpenInode_keeps e ft m found u)
    refine Txn.bind_end (fun code v hv => ?_) fun ino v hv => ?_
    · rw [hv] at hino
      exact hino.openEnd
    · rw [hv] at hino
      exact hino.trans_openEnd (msgOpenStore_end e ft sid m _ ino v)

theorem msgOpenStore_ok {e : Env} {ft : Faults} {sid : Sid} {m : CldMsgOpen} {create : Bool}
    {ino : RawInode} {s t : Server} {n fh : Nat} (hfh : s.nextFh sid = some fh)
    (h : msgOpenStore e ft sid m create ino s = (.ok n, t)) :
    n = fh ∧ t.nextFh sid = some ((fh + 1) % 2 ^ 64) ∧ ∃ sess : RawSession, sess.sid = sid ∧
      sess.nextFh = (fh + 1) % 2 ^ 64 ∧ sess.Written ∧ t.db = (if create then
        { s.db with inodes := s.db.inodes.put unordered (ino.touch s.currentTime) }
      else s.db).addHandle (m.handle sid fh ino.inum) sess := by
  simp only [msgOpenStore, Txn.bind_ok, Txn.onErr_ok, Txn.failIf_ok, Txn.read_ok, Txn.pure_ok,
    dbPut_ok, cldbHandlePut, Faults.guard_ok] at h
  obtain ⟨h, u, hnew, _, _, ⟨db, ⟨-, hdb⟩, rfl⟩, _, v, hv, sess, _, ⟨hsess, rfl⟩, _, _, ⟨-, rfl⟩, _, _,
    ⟨db', hput, rfl⟩, hn, rfl⟩ := h
  obtain ⟨fh', hfh', rfl, hudb, hutime, hufh⟩ := cldbHandleNew_ok hnew
  cases hdb
  obtain rfl : fh' = fh := Option.some.inj (hfh'.symm.trans hfh)
  cases sess with
  | none => cases hput
  | some sess =>
    have hsid : sess.sid = sid := get_sid hsess
    have hput := (Faults.guard_ok.mp hput).2
    cases hput
    have hnext := (((touchIf_keeps e ft create ino).run hv).nextFh sid).trans hufh
    refine ⟨hn.symm, hnext, sessionEncode sess, hsid, ?_, ⟨sess, rfl⟩, ?_⟩
    · rw [Server.nextFh, hsess] at hnext
      exact Option.some.inj hnext
    · cases create with
      | true =>
        rw [if_pos rfl, Txn.onErr_ok] at hv
        rw [Server.setDb_db, inodeTouch_ok hv]
        simp only [Server.setDb_db, Server.setDb_time, hudb, hutime]
        rfl
      | false =>
        rw [if_neg (by simp), Txn.pure_ok] at hv
        obtain ⟨-, rfl⟩ := hv
        simp only [Server.setDb_db, hudb]
        rfl

theorem msgOpenTxn_ok {e : Env} {ft : Faults} {sid : Sid} {m : CldMsgOpen} {s t : Server}
    {n fh : Nat} (hfh : s.nextFh sid = some fh) (h : msgOpenTxn e ft sid m s = (.ok n, t)) :
    n = fh ∧ t.nextFh sid = some ((fh + 1) % 2 ^ 64) ∧
      DbEffect sid fh s.currentTime s.db (.open m) t.db := by
  simp only [msgOpenTxn, Txn.bind_ok] at h
  obtain ⟨found, _, hfind, ino, v, hino, hstore⟩ := h
  obtain ⟨rfl, hvalid, hby, hdir, hlong⟩ := msgOpenFind_ok hfind
  cases found with
  | some inode =>
    obtain ⟨rfl, rfl⟩ := Txn.pure_ok.mp hino
    obtain ⟨hn, hnext, sess, hsess, hstored, hwritten, hdb⟩ := msgOpenStore_ok hfh hstore
    refine ⟨hn, hnext, ?_⟩
    rw [hdb]
    exact .open hvalid hby (hdir inode rfl) hsess hstored hwritten
  | none =>
    have hk := msgOpenCreate_keeps e ft m.inodeName.bytes (has m.mode comDirectory) s
    rw [show msgOpenCreate e ft m.inodeName.bytes (has m.mode comDirectory) s = (.ok ino, v)
      from hino] at hk
    obtain ⟨inum, parent, size, flags, habove, hunused, hflags, rfl, hparent, hsize, hvdb⟩ :=
      msgOpenCreate_ok hino
    obtain ⟨hn, hnext, sess, hsess, hstored, hwritten, hdb⟩ :=
      msgOpenStore_ok ((hk.nextFh sid).trans hfh) hstore
    refine ⟨hn, hnext, ?_⟩
    rw [hdb, hvdb, hk.time]
    exact .create hvalid (hlong rfl).1 hby hunused habove hflags hparent hsess (hlong rfl).2 hstored
      hsize hwritten

/-! ## Whole requests -/

theorem inTxn_error' {ε α : Type} {ft : Faults} {dbErr code : ε} {body : Txn Server ε α}
    {s t : Server} (h : inTxn ft dbErr body s = (.error code, t)) : t.db = s.db := (inTxn_error h).1

/-- A request whose success is answered with `CLE_OK` commits or leaves the database alone. -/
theorem respond_db {e : Env} {ft : Faults} {sid : Sid} {body : Txn Server CleErrCodes PUnit}
    {s : Server} {E : Cldb → Prop} (h : ∀ u t, body s = (.ok u, t) → E t.db) :
    if (inTxn ft .dbErr body s).1.isOk then E (respond e sid (inTxn ft .dbErr body s)).db
    else (respond e sid (inTxn ft .dbErr body s)).db = s.db := by
  unfold respond
  generalize ht : inTxn ft .dbErr body s = r
  rcases r with ⟨code | u, t⟩
  · change (sessSendrespGeneric e t sid code).db = s.db
    rw [(sessSendrespGeneric_frame e t sid code).db, inTxn_error' ht]
  · change E (sessSendrespGeneric e t sid .ok).db
    rw [(sessSendrespGeneric_frame e t sid .ok).db]
    exact h u t (inTxn_ok.mp ht).2.2

theorem msgGet_frame (e : Env) (ft : Faults) (sid : Sid) (fh : Nat) (s : Server) :
    SendFrame NotLocked s (msgGet e ft sid fh s) := by
  have hreply : ∀ code, SendFrame NotLocked s (sessSendrespGeneric e s sid code) := fun code =>
    (sessSendrespGeneric_frame e s sid code).mono fun m hm => hm.notLocked
  unfold msgGet
  split
  · exact .refl _ s
  · split
    · exact hreply _
    · split
      · refine (sessSendmsg_frame ..).mono ?_
        rintro m rfl ⟨sid', fh', he⟩
        cases he
      · exact hreply _

/-- A request that commits has its effect; an opening then has taken its handle number. One that does
not leaves the database alone. -/
theorem handle_commits (e : Env) (ft : Faults) {sid : Sid} {fh : Nat} (req : Request) {s : Server}
    (hfh : s.nextFh sid = some fh) :
    if req.commits e ft sid s then
      DbEffect sid fh s.currentTime s.db req (req.handle e ft sid s).db ∧
        ∀ m, req = .open m → (req.handle e ft sid s).nextFh sid = some ((fh + 1) % 2 ^ 64)
    else (req.handle e ft sid s).db = s.db := by
  have hrespond : ∀ {body : Txn Server CleErrCodes PUnit},
      (∀ u t, body s = (.ok u, t) → DbEffect sid fh s.currentTime s.db req t.db) →
      (∀ m, req ≠ .open m) →
      if (inTxn ft .dbErr body s).1.isOk then
        DbEffect sid fh s.currentTime s.db req (respond e sid (inTxn ft .dbErr body s)).db ∧
          ∀ m, req = .open m →
            (respond e sid (inTxn ft .dbErr body s)).nextFh sid = some ((fh + 1) % 2 ^ 64)
      else (respond e sid (inTxn ft .dbErr body s)).db = s.db := by
    intro body hbody hopen
    have hdb := @respond_db e ft sid body s _ hbody
    split at hdb
    · next hc =>
      rw [if_pos hc]
      exact ⟨hdb, fun m hm => absurd hm (hopen m)⟩
    · next hc =>
      rw [if_neg hc]
      exact hdb
  cases req with
  | get n => exact (msgGet_frame e ft sid n s).db
  | «open» m =>
    rcases ht : inTxn ft .dbErr (msgOpenTxn e ft sid m) s with ⟨code | n, t⟩
    · have hc : (Request.open m).commits e ft sid s = false := by
        simp [Request.commits, ht, Except.isOk, Except.toBool]
      rw [if_neg (by simp [hc])]
      simp only [Request.handle, msgOpen, ht]
      rw [(sessSendrespGeneric_frame e t sid code).db, inTxn_error' ht]
    · have hc : (Request.open m).commits e ft sid s = true := by
        simp [Request.commits, ht, Except.isOk, Except.toBool]
      obtain ⟨-, hnext, hok⟩ := msgOpenTxn_ok hfh (inTxn_ok.mp ht).2.2
      rw [if_pos hc]
      simp only [Request.handle, msgOpen, ht]
      split
      · exact ⟨hok, fun _ _ => hnext⟩
      · rw [(sessSendmsg_frame ..).db, (sessSendmsg_frame ..).nextFh]
        exact ⟨hok, fun _ _ => hnext⟩
  | put m => exact hrespond (fun u t ht => msgPutTxn_ok fh ht) (fun _ h => by cases h)
  | close n => exact hrespond (fun u t ht => msgCloseTxn_ok fh s.currentTime ht) (fun _ h => by cases h)
  | del name =>
    simp only [Request.handle, Request.commits, msgDel]
    by_cases hname : validInodeName name.bytes = true ∧ 2 ≤ name.bytes.length
    · obtain ⟨hvalid, hlong⟩ := hname
      simp only [hvalid, hlong, hlong.not_gt, Bool.not_true, decide_true, decide_false, Bool.or_self,
        Bool.and_self, Bool.true_and, Bool.false_eq_true, if_false]
      exact hrespond (fun u t ht => msgDelTxn_ok fh hvalid hlong ht) (fun _ h => by cases h)
    · have hc : (validInodeName name.bytes && decide (2 ≤ name.bytes.length)) = false := by
        simpa using hname
      have hn : (!validInodeName name.bytes || decide (name.bytes.length < 2)) = true := by
        simpa [or_iff_not_imp_left] using hname
      simp only [hc, hn, Bool.false_and, Bool.false_eq_true, if_false, if_true]
      exact (sessSendrespGeneric_frame ..).db
  | unlock n => exact hrespond (fun u t ht => msgUnlockTxn_ok fh s.currentTime ht) (fun _ h => by cases h)
  | lock n flags =>
    obtain ⟨sess, hs⟩ : ∃ sess, s.sessions.get sid = some sess := by
      obtain ⟨sess, hs, -⟩ := Option.map_eq_some_iff.mp hfh
      exact ⟨sess, hs⟩
    rcases ht : inTxn ft .dbErr (msgLockTxn ft sid n flags (sess.msgOp = .lock)) s with ⟨code | acquired, t⟩
    · have hc : (Request.lock n flags).commits e ft sid s = false := by
        simp [Request.commits, hs, ht, Except.isOk, Except.toBool]
      rw [if_neg (by simp [hc])]
      simp only [Request.handle, msgLock, hs, ht]
      rw [(sessSendrespGeneric_frame e t sid code).db, inTxn_error' ht]
    · have hc : (Request.lock n flags).commits e ft sid s = true := by
        simp [Request.commits, hs, ht, Except.isOk, Except.toBool]
      obtain ⟨h, hh, hmode, hadd⟩ := msgLockTxn_ok (inTxn_ok.mp ht).2.2
      rw [if_pos hc]
      simp only [Request.handle, msgLock, hs, ht]
      rw [(sessSendrespGeneric_frame ..).db]
      exact ⟨.lock hh hmode hadd, fun _ h => by cases h⟩

theorem handle_db (e : Env) (ft : Faults) {sid : Sid} {fh : Nat} (req : Request) {s : Server}
    (hfh : s.nextFh sid = some fh) :
    (req.handle e ft sid s).db = s.db ∨
      DbEffect sid fh s.currentTime s.db req (req.handle e ft sid s).db ∧
        ∀ m, req = .open m → (req.handle e ft sid s).nextFh sid = some ((fh + 1) % 2 ^ 64) := by
  have h := handle_commits e ft req hfh
  split at h
  · exact .inr h
  · exact .inl h

theorem inTxn_end {ε α : Type} (ft : Faults) (dbErr : ε) (body : Txn Server ε α) (s : Server) :
    (inTxn ft dbErr body s).2 = s ∨ ∃ db, (inTxn ft dbErr body s).2 = (body s).2.setDb db := by
  unfold inTxn
  split
  · exact .inl rfl
  · split
    · next hb => exact .inr ⟨s.db, by rw [hb]⟩
    · next t hb =>
      split
      · exact .inr ⟨s.db, by rw [hb]⟩
      · exact .inr ⟨t.db, by rw [hb]; rfl⟩

theorem msgPutTxn_keeps (e : Env) (ft : Faults) (sid : Sid) (m : CldMsgPut) :
    Txn.Keeps (Frame IsNotice) (msgPutTxn e ft sid m) :=
  .bind .trans ((dbGet_keeps _ _).onErr _) fun _ => .bind .trans (failIf_keeps _ _ _) fun _ =>
    .bind .trans ((dbGet_keeps _ _).onErr _) fun _ => .bind .trans ((dbPut_keeps _ _).onErr _) fun _ =>
      (inodeTouch_keeps e ft 0 _).onErr _

theorem msgCloseTxn_keeps (e : Env) (ft : Faults) (sid : Sid) (n : Nat) :
    Txn.Keeps (Frame IsLocked) (msgCloseTxn e ft sid n) := by
  refine .bind .trans ((dbGet_keeps _ _).onErr _) fun h =>
    .bind .trans ((dbPut_keeps _ _).onErr _) fun _ => .bind .trans ((dbRun_keeps _ _).onErr _)
      fun waiter => ?_
  split
  · exact Txn.Keeps.onErr (fun s => (inodeLockRescan_keeps e ft h.lockInum s).toFrame) _
  · exact fun s => .refl _ s

theorem msgDelTxn_keeps (e : Env) (ft : Faults) (name : Bytes) :
    Txn.Keeps (Frame IsNotice) (msgDelTxn e ft name) := by
  refine .bind .trans ((dbGet_keeps _ _).onErr _) fun parent =>
    .bind .trans ((dbGet_keeps _ _).onErr _) fun pdata =>
    .bind .trans ((dbGet_keeps _ _).onErr _) fun ino => .bind .trans (fun s => .refl _ s) fun data =>
    .bind .trans (failIf_keeps _ _ _) fun _ => .bind .trans (failIf_keeps _ _ _) fun _ =>
    .bind .trans (Txn.Keeps.onErr (fun s => (inodeNotify_keeps e ft 1 ino.inum true s).toFrame) _)
      fun _ => .bind .trans ((dbPut_keeps _ _).onErr _) fun _ => ?_
  cases dirdataDelete pdata (pathnameParse name).base with
  | none => exact fun s => .refl _ s
  | some pdata =>
    exact .bind .trans ((dbPut_keeps _ _).onErr _) fun _ => (inodeTouch_keeps e ft 0 _).onErr _

theorem msgUnlockTxn_keeps (ft : Faults) (sid : Sid) (n : Nat) :
    Txn.Keeps Silent (msgUnlockTxn ft sid n) :=
  .bind .trans ((dbGet_keeps _ _).onErr _) fun _ => .bind .trans (failIf_keeps _ _ _) fun _ =>
    (dbPut_keeps _ _).onErr _

theorem msgLockTxn_keeps (ft : Faults) (sid : Sid) (n flags : Nat) (wait : Bool) :
    Txn.Keeps Silent (msgLockTxn ft sid n flags wait) :=
  .bind .trans ((dbGet_keeps _ _).onErr _) fun _ => .bind .trans (failIf_keeps _ _ _) fun _ =>
    .bind .trans (fun s => .refl _ s) fun _ => (dbRun_keeps _ _).onErr _

/-- A transaction that keeps the frame of sessions, and the reply to it. -/
theorem respond_nextFh {e : Env} {P : Sent → Prop} {ft : Faults} {sid : Sid}
    {body : Txn Server CleErrCodes PUnit} (h : Txn.Keeps (Frame P) body) (s : Server) (k : Sid) :
    (respond e sid (inTxn ft .dbErr body s)).nextFh k = s.nextFh k := by
  have hk := (inTxn_keeps ft .dbErr h s).nextFh k
  unfold respond
  split
  · next code t ht =>
    rw [ht] at hk
    exact ((sessSendrespGeneric_frame e t sid code).nextFh k).trans hk
  · next u t ht =>
    rw [ht] at hk
    exact ((sessSendrespGeneric_frame e t sid .ok).nextFh k).trans hk

theorem msgOpen_nextFh (e : Env) (ft : Faults) (sid : Sid) (m : CldMsgOpen) (s : Server) :
    (∀ k, (msgOpen e ft sid m s).nextFh k = s.nextFh k) ∨ FhTaken sid s (msgOpen e ft sid m s) := by
  have htxn : OpenEnd sid s (inTxn ft .dbErr (msgOpenTxn e ft sid m) s).2 := by
    rcases inTxn_end ft .dbErr (msgOpenTxn e ft sid m) s with h | ⟨db, h⟩
    · rw [h]
      exact (Frame.refl _ s).openEnd
    · rw [h]
      exact (msgOpenTxn_end e ft sid m s).trans_frame ((Frame.refl _ _).setDb db)
  unfold msgOpen
  split
  · next code t ht =>
    rw [ht] at htxn
    exact nextFh_trans htxn.2 (sessSendrespGeneric_frame e t sid code).nextFh
  · next fh t ht =>
    rw [ht] at htxn
    split
    · exact htxn.2
    · exact nextFh_trans htxn.2 (sessSendmsg_frame ..).nextFh

/-- Only opening takes handle numbers. -/
theorem handle_nextFh (e : Env) (ft : Faults) (sid : Sid) (req : Request) (s : Server) :
    (∀ k, (req.handle e ft sid s).nextFh k = s.nextFh k) ∨
      (∃ m, req = .open m) ∧ FhTaken sid s (req.handle e ft sid s) := by
  cases req with
  | get n => exact .inl (msgGet_frame e ft sid n s).nextFh
  | «open» m => exact (msgOpen_nextFh e ft sid m s).imp id fun h => ⟨⟨m, rfl⟩, h⟩
  | put m => exact .inl (respond_nextFh (msgPutTxn_keeps e ft sid m) s)
  | close n => exact .inl (respond_nextFh (msgCloseTxn_keeps e ft sid n) s)
  | del name =>
    left
    simp only [Request.handle, msgDel]
    split
    · exact (sessSendrespGeneric_frame ..).nextFh
    · exact respond_nextFh (msgDelTxn_keeps e ft name.bytes) s
  | unlock n => exact .inl (respond_nextFh (msgUnlockTxn_keeps ft sid n) s)
  | lock n flags =>
    left
    simp only [Request.handle, msgLock]
    split
    · exact fun _ => rfl
    · next sess hg =>
      have hk := inTxn_keeps ft CleErrCodes.dbErr
        (msgLockTxn_keeps ft sid n flags (sess.msgOp = .lock)) s
      split
      · next code t ht =>
        rw [ht] at hk
        exact fun k => ((sessSendrespGeneric_frame e t sid code).nextFh k).trans (hk.nextFh k)
      · next acquired t ht =>
        rw [ht] at hk
        exact fun k => ((sessSendrespGeneric_frame ..).nextFh k).trans (hk.nextFh k)

theorem msgOpenTxn_frame (e : Env) (ft : Faults) (sid : Sid) (m : CldMsgOpen) (s : Server) :
    SessFrame IsNotice s (inTxn ft .dbErr (msgOpenTxn e ft sid m) s).2 := by
  rcases inTxn_end ft .dbErr (msgOpenTxn e ft sid m) s with h | ⟨db, h⟩
  · rw [h]
    exact .refl _ s
  · rw [h]
    exact (msgOpenTxn_end e ft sid m s).1.setDb db

theorem core_msgXid {sess sess' : Session} (h : sess'.core = sess.core) :
    sess'.msgXid = sess.msgXid := by
  have hc : sess'.core.msgXid = sess.core.msgXid := by rw [h]
  exact hc

theorem core_msgOp {sess sess' : Session} (h : sess'.core = sess.core) :
    sess'.msgOp = sess.msgOp := by
  have hc : sess'.core.msgOp = sess.core.msgOp := by rw [h]
  exact hc

/-- The messages that a request of session `sid` may make the server send, when `op` is the operation
of the session's message. -/
inductive Request.Sends (sid : Sid) (op : CldMsgOp) : Request → Sent → Prop where
  | event {req : Request} {m : Sent} (h : IsEvent m) : Sends sid op req m
  | generic (req : Request) (code : CleErrCodes) (xid : Nat) :
      Sends sid op req ⟨sid, op, .genericResp code xid⟩
  | get (fh xid : Nat) (resp : CldMsgGetResp) :
      Sends sid op (.get fh) ⟨sid, .get, .getResp .ok xid resp⟩
  | open (m : CldMsgOpen) (xid fh : Nat) :
      Sends sid op (.open m) ⟨sid, .open, .openResp .ok xid fh⟩

/-- Whatever a request does, sessions keep their core. -/
theorem handle_sessFrame (e : Env) (ft : Faults) {sid : Sid} (req : Request) {s : Server}
    {sess : Session} (hg : s.sessions.get sid = some sess) :
    SessFrame (req.Sends sid sess.msgOp) s (req.handle e ft sid s) := by
  have hevent : ∀ {P : Sent → Prop} {t : Server}, SessFrame P s t → (∀ m, P m → IsEvent m) →
      SessFrame (req.Sends sid sess.msgOp) s t := fun h hP => h.mono fun m hm => .event (hP m hm)
  have hreply : ∀ t code, SessFrame (req.Sends sid sess.msgOp) s t →
      SessFrame (req.Sends sid sess.msgOp) s (sessSendrespGeneric e t sid code) := by
    intro t code h
    obtain ⟨sess', hg', hcore⟩ := h.get' hg
    simp only [sessSendrespGeneric, hg', core_msgOp hcore]
    refine h.trans ((sessSendmsg_frame ..).mono ?_).toSessFrame
    rintro m rfl
    exact .generic req code _
  have hrespond : ∀ {P : Sent → Prop} {body : Txn Server CleErrCodes PUnit},
      Txn.Keeps (Frame P) body → (∀ m, P m → IsEvent m) →
      SessFrame (req.Sends sid sess.msgOp) s (respond e sid (inTxn ft .dbErr body s)) := by
    intro P body h hP
    have hk := hevent (inTxn_keeps ft CleErrCodes.dbErr h s).toSessFrame hP
    unfold respond
    split
    · next ht => exact hreply _ _ (by rwa [ht] at hk)
    · next ht => exact hreply _ _ (by rwa [ht] at hk)
  cases req with
  | get n =>
    simp only [Request.handle, msgGet, hg]
    split
    · exact hreply _ _ (.refl _ s)
    · split
      · refine ((sessSendmsg_frame ..).mono ?_).toSessFrame
        rintro m rfl
        exact .get n _ _
      · exact hreply _ _ (.refl _ s)
  | «open» m =>
    have htxn := hevent (msgOpenTxn_frame e ft sid m s) fun _ h => h.isEvent
    simp only [Request.handle, msgOpen]
    split
    · next ht => exact hreply _ _ (by rwa [ht] at htxn)
    · next fh t ht =>
      rw [ht] at htxn
      split
      · exact htxn
      · refine htxn.trans ((sessSendmsg_frame ..).mono ?_).toSessFrame
        rintro x rfl
        exact .open m _ _
  | put m => exact hrespond (msgPutTxn_keeps e ft sid m) fun _ h => h.isEvent
  | close n => exact hrespond (msgCloseTxn_keeps e ft sid n) fun _ h => h.isEvent
  | del name =>
    simp only [Request.handle, msgDel]
    split
    · exact hreply _ _ (.refl _ s)
    · exact hrespond (msgDelTxn_keeps e ft name.bytes) fun _ h => h.isEvent
  | unlock n => exact hrespond (msgUnlockTxn_keeps ft sid n) fun _ h => h.elim
  | lock n flags =>
    have hk := hevent (inTxn_keeps ft CleErrCodes.dbErr
      (msgLockTxn_keeps ft sid n flags (sess.msgOp = .lock)) s).toSessFrame fun _ h => h.elim
    simp only [Request.handle, msgLock, hg]
    split
    · next ht => exact hreply _ _ (by rwa [ht] at hk)
    · next ht => exact hreply _ _ (by rwa [ht] at hk)

/-- A handle whose closing lets no waiter through is closed without a message. -/
theorem msgCloseTxn_silent (e : Env) (ft : Faults) {sid : Sid} {n : Nat} {s : Server}
    (hw : ∀ h, s.db.handles.get (sid, n) = some h →
      promotes (keptLocks sid n (s.db.locks h.lockInum)) = false) :
    Silent s (msgCloseTxn e ft sid n s).2 := by
  have hget := ((dbGet_keeps (fun _ => False) fun db => cldbHandleGet ft db sid n).onErr fun rc =>
    if rc = .notfound then CleErrCodes.fhInval else .dbErr) s
  refine Txn.bind_end (fun _ u hu => by rwa [hu] at hget) fun h u hu => ?_
  obtain ⟨hg, rfl⟩ := dbGet_ok.mp (Txn.onErr_ok.mp hu)
  have hh := found_ok.mp (Faults.guard_ok.mp hg).2
  have hdel := ((dbPut_keeps (fun _ => False) fun db => cldbHandleDel ft db sid n).onErr fun _ =>
    CleErrCodes.dbErr) s
  refine Txn.bind_end (fun _ u hu => by rwa [hu] at hdel) fun _ u hu => ?_
  rw [hu] at hdel
  obtain ⟨db, hdb, rfl⟩ := dbPut_ok.mp (Txn.onErr_ok.mp hu)
  have hlocks : db.locks = s.db.locks := by
    simp only [cldbHandleDel, hh, Faults.guard_ok, Except.ok.injEq] at hdb
    rw [← hdb.2]
  have hrem := ((dbRun_keeps (fun _ => False) (sessionRemoveLocks ft sid n h.lockInum)).onErr fun _ =>
    CleErrCodes.dbErr) (s.setDb db)
  refine Txn.bind_end (fun _ u hu => ?_) fun waiter u hu => ?_
  · rw [hu] at hrem
    exact hdel.trans hrem
  rw [hu] at hrem
  obtain ⟨db', hrm, rfl⟩ := dbRun_ok.mp (Txn.onErr_ok.mp hu)
  obtain ⟨rfl, -⟩ := sessionRemoveLocks_ok hrm
  have hboth := hdel.trans hrem
  split
  · rw [Txn.onErr_snd, inodeLockRescan_idle]
    · exact hboth
    · rw [Server.setDb_db, setLocks_self, Server.setDb_db, hlocks]
      exact hw h hh
  · exact hboth

/-- The replies that are given when nothing was committed. -/
def CleErrCodes.Fault (code : CleErrCodes) : Prop := code ≠ .ok ∧ code ≠ .lockPending

theorem msgCloseTxn_fails (e : Env) (ft : Faults) (sid : Sid) (n : Nat) :
    Txn.FailsWith CleErrCodes.Fault (msgCloseTxn e ft sid n) := by
  refine .bind (.onErr _ fun rc => ?_) fun h => .bind (.onErr _ fun _ => ⟨nofun, nofun⟩) fun _ =>
    .bind (.onErr _ fun _ => ⟨nofun, nofun⟩) fun waiter => ?_
  · split <;> exact ⟨nofun, nofun⟩
  · split
    · exact .onErr _ fun _ => ⟨nofun, nofun⟩
    · exact .pure _

theorem msgUnlockTxn_fails (ft : Faults) (sid : Sid) (n : Nat) :
    Txn.FailsWith CleErrCodes.Fault (msgUnlockTxn ft sid n) :=
  .bind (.onErr _ fun _ => ⟨nofun, nofun⟩) fun _ => .bind (.failIf ⟨nofun, nofun⟩) fun _ =>
    .onErr _ fun _ => ⟨nofun, nofun⟩

theorem msgLockTxn_fails (ft : Faults) (sid : Sid) (n flags : Nat) (wait : Bool) :
    Txn.FailsWith CleErrCodes.Fault (msgLockTxn ft sid n flags wait) := by
  refine .bind (.onErr _ fun _ => ⟨nofun, nofun⟩) fun _ => .bind (.failIf ⟨nofun, nofun⟩) fun _ =>
    .bind (.read _) fun _ => .onErr _ fun rc => ?_
  split <;> exact ⟨nofun, nofun⟩

theorem inTxn_fails {α : Type} (ft : Faults) {body : Txn Server CleErrCodes α}
    (h : Txn.FailsWith CleErrCodes.Fault body) :
    Txn.FailsWith CleErrCodes.Fault (inTxn ft .dbErr body) := by
  intro s code t hc
  unfold inTxn at hc
  split at hc
  · cases hc
    exact ⟨nofun, nofun⟩
  · split at hc
    · next hb =>
      cases hc
      exact h s _ _ hb
    · split at hc
      · cases hc
        exact ⟨nofun, nofun⟩
      · cases hc

end Hail.Cld
