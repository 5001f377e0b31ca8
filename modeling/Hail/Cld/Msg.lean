import Hail.Cld.Release

/-!
# Requests

The handlers of `msg.c`. Each runs one transaction and replies to its session; the body of the
transaction is a definition of its own, with the error code each failure is answered with.
-/
namespace Hail.Cld

open Library

/-! ## Notification -/

/-- The handles on an inode, as its secondary index lists them. -/
def Cldb.handlesOn (db : Cldb) (inum : Inum) : List RawHandle :=
  db.handles.rows.filter fun h => h.inum = inum

/-- The loop of `inode_notify`; an error of the cursor ends it as its end does. -/
def notifyLoop (e : Env) (ft : Faults) (nth : Nat) (deleted : Bool) :
    Nat → List RawHandle → Server → Server
  | _, [], srv => srv
  | k, h :: hs, srv =>
    if ft (.notifyGet nth k) then srv
    else if !deleted && !has h.events ceUpdated then notifyLoop e ft nth deleted (k + 1) hs srv
    else
      match srv.sessions.get h.sid with
      | none => notifyLoop e ft nth deleted (k + 1) hs srv
      | some sess =>
        if sess.sockFd = 0 then notifyLoop e ft nth deleted (k + 1) hs srv
        else
          match sessSendmsg e srv h.sid (.event h.fh (if deleted then ceDeleted else ceUpdated))
            .event .none with
          | (true, srv) => notifyLoop e ft nth deleted (k + 1) hs srv
          | (false, srv) => srv

def inodeNotify (e : Env) (ft : Faults) (nth : Nat) (inum : Inum) (deleted : Bool) :
    Txn Server Rc PUnit := do
  Txn.failIf (ft (.notifyCur nth)) .err
  Txn.update fun srv => notifyLoop e ft nth deleted 0 (srv.db.handlesOn inum) srv

def RawInode.touch (ino : RawInode) (now : Nat) : RawInode :=
  { ino with
    timeModify := now
    timeCreate := if ino.timeCreate = 0 then now else ino.timeCreate
    version := (ino.version + 1) % 2 ^ 32 }

def inodeTouch (e : Env) (ft : Faults) (nth : Nat) (ino : RawInode) : Txn Server Rc PUnit := do
  let now ← Txn.read Server.currentTime
  dbPut fun db => cldbInodePut ft nth db (ino.touch now)
  inodeNotify e ft nth ino.inum false

/-! ## `msg_get` -/

def msgGetTxn (ft : Faults) (sess : Session) (fh : Nat) : Txn Server CleErrCodes CldMsgGetResp := do
  let h ← (dbGet fun db => cldbHandleGet ft db sess.sid fh).onErr fun _ => .fhInval
  Txn.failIf (!has h.mode comRead) .modeInval
  let inode ← (dbGet fun db => cldbInodeGet ft db h.inum).onErr fun _ => .inodeInval
  let data ← (dbGet fun db =>
    if sess.msgOp ≠ .get then .ok []
    else
      match cldbDataGet ft db h.inum with
      | .error .notfound => .ok []
      | .error rc => .error rc
      | .ok data => if data.length ≠ inode.size then .error .err else .ok data).onErr fun _ => .dbErr
  return ⟨inode.inum, inode.version, inode.timeCreate, inode.timeModify, inode.flags,
    cstr inode.name, data⟩

/-- The reply is sent inside the transaction, which has nothing to write; that its commit fails is
only logged. -/
def msgGet (e : Env) (ft : Faults) (sid : Sid) (fh : Nat) (srv : Server) : Server :=
  match srv.sessions.get sid with
  | none => srv
  | some sess =>
    if ft .txnBegin then sessSendrespGeneric e srv sid .dbErr
    else
      match (msgGetTxn ft sess fh srv).1 with
      | .ok resp => (sessSendmsg e srv sid (.getResp .ok sess.msgXid resp) .get .none).2
      | .error code => sessSendrespGeneric e srv sid code

/-! ## `msg_open` -/

/-- `cldb_handle_new` takes the next handle number of the session in memory, where it stays taken
if the transaction aborts. -/
def cldbHandleNew (ft : Faults) (sid : Sid) (inum : Inum) (mode events : Nat) :
    Txn Server CleErrCodes RawHandle := fun srv =>
  match srv.sessions.get sid with
  | none => (.error .oom, srv)
  | some sess =>
    if ft .handleNew then (.error .oom, srv)
    else (.ok ⟨sid, sess.nextFh, inum, mode, events⟩,
      srv.putSess { sess with nextFh := (sess.nextFh + 1) % 2 ^ 64 })

def newInode (e : Env) (ft : Faults) (name : Bytes) : Txn Server CleErrCodes RawInode := fun srv =>
  if ft .inodeNew then (.error .oom, srv)
  else
    match cldbInodeNew e.rand srv.currentTime srv.db name srv.rnd with
    | (none, rnd) => (.error .oom, { srv with rnd })
    | (some inode, rnd) => (.ok inode, { srv with rnd })

/-- The part of `msg_open` that makes a new inode and enters it in its parent. -/
def msgOpenCreate (e : Env) (ft : Faults) (name : Bytes) (doDir : Bool) :
    Txn Server CleErrCodes RawInode := do
  let inode ← newInode e ft name
  let inode := if doDir then { inode with flags := inode.flags ||| ciflDir } else inode
  let parent ← (dbGet fun db =>
    cldbInodeGetByname ft 1 db (pathnameParse name).dir).onErr fun _ => .dbErr
  let parentData ← (dbGet fun db =>
    match cldbDataGet ft db parent.inum with
    | .error .notfound => .ok []
    | r => r).onErr fun _ => .dbErr
  Txn.failIf (ft .dataAppend) .oom
  let parentData := dirdataAppend parentData (pathnameParse name).base
  (dbPut fun db => cldbDataPut ft db parent.inum parentData).onErr fun _ => .dbErr
  (inodeTouch e ft 0 { parent with size := parentData.length % 2 ^ 32 }).onErr fun _ => .dbErr
  return inode

/-- The lookup of the name, with the checks on the inode if there is one. -/
def msgOpenFind (ft : Faults) (m : CldMsgOpen) : Txn Server CleErrCodes (Option RawInode) := do
  let name := m.inodeName.bytes
  let create := has m.mode comCreate
  Txn.failIf (!validInodeName name || (create && name.length < 2)) .nameInval
  let inode ← (dbGet fun db =>
    match cldbInodeGetByname ft 0 db name with
    | .ok inode => .ok (some inode)
    | .error .notfound => .ok none
    | .error rc => .error rc).onErr fun _ => .dbErr
  Txn.failIf (!create && inode.isNone) .nameInval
  Txn.failIf (create && inode.isSome && has m.mode comExcl) .inodeExists
  Txn.failIf (inode.any fun inode => has m.mode comDirectory != has inode.flags ciflDir) .modeInval
  return inode

/-- The inode that was found, or a new one. -/
def msgOpenInode (e : Env) (ft : Faults) (m : CldMsgOpen) :
    Option RawInode → Txn Server CleErrCodes RawInode
  | some inode => pure inode
  | none => msgOpenCreate e ft m.inodeName.bytes (has m.mode comDirectory)

/-- The end of `msg_open`: the handle, the new inode if there is one, and the session are stored. -/
def msgOpenStore (e : Env) (ft : Faults) (sid : Sid) (m : CldMsgOpen) (create : Bool)
    (inode : RawInode) : Txn Server CleErrCodes Nat := do
  let h ← cldbHandleNew ft sid inode.inum m.mode m.events
  (dbPut fun db => cldbHandlePut ft db h).onErr fun _ => .dbErr
  (if create then (inodeTouch e ft 1 inode).onErr fun _ => .dbErr else pure ⟨⟩)
  let sess ← Txn.read fun srv => srv.sessions.get sid
  Txn.failIf (ft .sessionNew) .oom
  (dbPut fun db =>
    match sess with
    | some sess => cldbSessionPut ft db (sessionEncode sess)
    | none => .error .err).onErr fun _ => .dbErr
  return h.fh

def msgOpenTxn (e : Env) (ft : Faults) (sid : Sid) (m : CldMsgOpen) :
    Txn Server CleErrCodes Nat := do
  let found ← msgOpenFind ft m
  let inode ← msgOpenInode e ft m found
  msgOpenStore e ft sid m found.isNone inode

def msgOpen (e : Env) (ft : Faults) (sid : Sid) (m : CldMsgOpen) (srv : Server) : Server :=
  match inTxn ft .dbErr (msgOpenTxn e ft sid m) srv with
  | (.error code, srv) => sessSendrespGeneric e srv sid code
  | (.ok fh, srv) =>
    match srv.sessions.get sid with
    | none => srv
    | some sess => (sessSendmsg e srv sid (.openResp .ok sess.msgXid fh) .open .none).2

/-! ## `msg_put`, `msg_close`, `msg_del`, `msg_unlock`, `msg_lock` -/

/-- The reply to a request whose success is answered with `CLE_OK`. -/
def respond (e : Env) (sid : Sid) (r : Except CleErrCodes PUnit × Server) : Server :=
  match r with
  | (.error code, srv) => sessSendrespGeneric e srv sid code
  | (.ok _, srv) => sessSendrespGeneric e srv sid .ok

def msgPutTxn (e : Env) (ft : Faults) (sid : Sid) (put : CldMsgPut) :
    Txn Server CleErrCodes PUnit := do
  let h ← (dbGet fun db => cldbHandleGet ft db sid put.fh).onErr fun _ => .fhInval
  Txn.failIf (!has h.mode comWrite || has h.mode comDirectory) .modeInval
  let inode ← (dbGet fun db => cldbInodeGet ft db h.inum).onErr fun _ => .inodeInval
  (dbPut fun db => cldbDataPut ft db h.inum put.data).onErr fun _ => .dbErr
  (inodeTouch e ft 0 { inode with size := put.data.length }).onErr fun _ => .dbErr

def msgPut (e : Env) (ft : Faults) (sid : Sid) (put : CldMsgPut) (srv : Server) : Server :=
  respond e sid (inTxn ft .dbErr (msgPutTxn e ft sid put) srv)

/-- The inode whose locks a handle may hold; inode numbers start above zero. -/
def RawHandle.lockInum (h : RawHandle) : Inum := if has h.mode comLock then h.inum else 0

def msgCloseTxn (e : Env) (ft : Faults) (sid : Sid) (fh : Nat) : Txn Server CleErrCodes PUnit := do
  let h ← (dbGet fun db => cldbHandleGet ft db sid fh).onErr fun rc =>
    if rc = .notfound then .fhInval else .dbErr
  (dbPut fun db => cldbHandleDel ft db sid fh).onErr fun _ => .dbErr
  let waiter ← (dbRun (sessionRemoveLocks ft sid fh h.lockInum)).onErr fun _ => .dbErr
  if waiter then (inodeLockRescan e ft h.lockInum).onErr fun _ => .dbErr else pure ⟨⟩

def msgClose (e : Env) (ft : Faults) (sid : Sid) (fh : Nat) (srv : Server) : Server :=
  respond e sid (inTxn ft .dbErr (msgCloseTxn e ft sid fh) srv)

/-- The deletions of `msg_del`: the inode, its data and the handles on it. -/
def delInode (ft : Faults) (inum : Inum) (db : Cldb) : Except Rc Cldb :=
  if ft .inodeDel || ft .dataDel || ft .handleIdxDel then .error .err
  else if (db.inodes.get inum).isNone then .error .notfound
  else .ok { db with
    inodes := db.inodes.del inum
    data := db.data.del inum
    handles := db.handles.filter fun h => h.inum ≠ inum }

def msgDelTxn (e : Env) (ft : Faults) (name : Bytes) : Txn Server CleErrCodes PUnit := do
  let parent ← (dbGet fun db =>
    cldbInodeGetByname ft 1 db (pathnameParse name).dir).onErr fun _ => .dbErr
  let parentData ← (dbGet fun db => cldbDataGet ft db parent.inum).onErr fun _ => .dbErr
  let ino ← (dbGet fun db => cldbInodeGetByname ft 0 db name).onErr fun rc =>
    if rc = .notfound then .nameInval else .dbErr
  let data ← Txn.read fun srv => srv.db.data.get ino.inum
  Txn.failIf (has ino.flags ciflDir && ft .dataRmdir) .dbErr
  Txn.failIf (has ino.flags ciflDir && data.any fun d => 0 < d.data.length) .dirNotempty
  (inodeNotify e ft 1 ino.inum true).onErr fun _ => .dbErr
  (dbPut (delInode ft ino.inum)).onErr fun rc => if rc = .notfound then .inodeInval else .dbErr
  match dirdataDelete parentData (pathnameParse name).base with
  | none => Txn.fail .dbErr
  | some parentData =>
    (dbPut fun db => cldbDataPut ft db parent.inum parentData).onErr fun _ => .dbErr
    (inodeTouch e ft 0 { parent with size := parentData.length % 2 ^ 32 }).onErr fun _ => .dbErr

def msgDel (e : Env) (ft : Faults) (sid : Sid) (inodeName : InodeName) (srv : Server) : Server :=
  let name := inodeName.bytes
  if !validInodeName name || name.length < 2 then sessSendrespGeneric e srv sid .nameInval
  else respond e sid (inTxn ft .dbErr (msgDelTxn e ft name) srv)

def msgUnlockTxn (ft : Faults) (sid : Sid) (fh : Nat) : Txn Server CleErrCodes PUnit := do
  let h ← (dbGet fun db => cldbHandleGet ft db sid fh).onErr fun _ => .fhInval
  Txn.failIf (!has h.mode comLock) .modeInval
  (dbPut fun db => cldbLockDel ft db sid fh h.inum).onErr fun _ => .lockInval

/-- Unlike `msg_close`, this looks for no waiter. -/
def msgUnlock (e : Env) (ft : Faults) (sid : Sid) (fh : Nat) (srv : Server) : Server :=
  respond e sid (inTxn ft .dbErr (msgUnlockTxn ft sid fh) srv)

def msgLockTxn (ft : Faults) (sid : Sid) (fh flags : Nat) (wait : Bool) :
    Txn Server CleErrCodes Bool := do
  let h ← (dbGet fun db => cldbHandleGet ft db sid fh).onErr fun _ => .fhInval
  Txn.failIf (!has h.mode comLock) .modeInval
  let now ← Txn.read Server.currentTime
  (dbRun fun db =>
    (cldbLockAdd ft now db sid fh h.inum (has flags clfShared) wait).map Prod.swap).onErr fun rc =>
      if rc = .keyexist then .lockConflict else .dbErr

/-- `acquired` is not set when the lock was added in the waiting state. -/
def msgLock (e : Env) (ft : Faults) (sid : Sid) (fh flags : Nat) (srv : Server) : Server :=
  match srv.sessions.get sid with
  | none => srv
  | some sess =>
    match inTxn ft .dbErr (msgLockTxn ft sid fh flags (sess.msgOp = .lock)) srv with
    | (.error code, srv) => sessSendrespGeneric e srv sid code
    | (.ok acquired, srv) =>
      sessSendrespGeneric e srv sid (if acquired then .ok else .lockPending)

/-- The handler of a decoded request. -/
def Request.handle (e : Env) (ft : Faults) (sid : Sid) : Request → Server → Server
  | .get fh => msgGet e ft sid fh
  | .open m => msgOpen e ft sid m
  | .put m => msgPut e ft sid m
  | .close fh => msgClose e ft sid fh
  | .del name => msgDel e ft sid name
  | .unlock fh => msgUnlock e ft sid fh
  | .lock fh flags => msgLock e ft sid fh flags

/-- The handler of a request commits what it has written. -/
def Request.commits (e : Env) (ft : Faults) (sid : Sid) (srv : Server) : Request → Bool
  | .get _ => false
  | .open m => (inTxn ft .dbErr (msgOpenTxn e ft sid m) srv).1.isOk
  | .put m => (inTxn ft .dbErr (msgPutTxn e ft sid m) srv).1.isOk
  | .close fh => (inTxn ft .dbErr (msgCloseTxn e ft sid fh) srv).1.isOk
  | .del name =>
    validInodeName name.bytes && 2 ≤ name.bytes.length &&
      (inTxn ft .dbErr (msgDelTxn e ft name.bytes) srv).1.isOk
  | .unlock fh => (inTxn ft .dbErr (msgUnlockTxn ft sid fh) srv).1.isOk
  | .lock fh flags =>
    let wait := (srv.sessions.get sid).any fun sess => sess.msgOp = .lock
    (inTxn ft .dbErr (msgLockTxn ft sid fh flags wait) srv).1.isOk

end Hail.Cld
