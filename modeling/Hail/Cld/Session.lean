import Hail.Cld.Server
import Hail.Library.Txn

/-!
# Sessions, and the release of locks

What `session.c` does to sessions, and `inode_lock_rescan` of `msg.c`. Locks are released when a
handle is closed and when a session ends; both look for waiters and rescan the inode if there is
one.
-/
namespace Hail.Cld

open Library

/-! ## Steps of a database transaction -/

def dbGet {α : Type} (f : Cldb → Except Rc α) : Txn Server Rc α := fun srv => (f srv.db, srv)

def dbRun {α : Type} (f : Cldb → Except Rc (α × Cldb)) : Txn Server Rc α := fun srv =>
  match f srv.db with
  | .ok (a, db) => (.ok a, srv.setDb db)
  | .error rc => (.error rc, srv)

def dbPut (f : Cldb → Except Rc Cldb) : Txn Server Rc PUnit :=
  dbRun fun db => (f db).map (⟨⟩, ·)

@[simp] theorem dbGet_ok {α : Type} {f : Cldb → Except Rc α} {s t : Server} {a : α} :
    dbGet f s = (.ok a, t) ↔ f s.db = .ok a ∧ s = t := by simp [dbGet]

@[simp] theorem dbRun_ok {α : Type} {f : Cldb → Except Rc (α × Cldb)} {s t : Server} {a : α} :
    dbRun f s = (.ok a, t) ↔ ∃ db, f s.db = .ok (a, db) ∧ s.setDb db = t := by
  unfold dbRun
  rcases f s.db with rc | ⟨b, db⟩ <;> simp

@[simp] theorem dbPut_ok {f : Cldb → Except Rc Cldb} {s t : Server} {a : PUnit} :
    dbPut f s = (.ok a, t) ↔ ∃ db, f s.db = .ok db ∧ s.setDb db = t := by
  unfold dbPut
  rw [dbRun_ok]
  rcases f s.db with rc | db <;> simp [Except.map]

theorem dbGet_keeps {α : Type} (P : Sent → Prop) (f : Cldb → Except Rc α) :
    Txn.Keeps (Frame P) (dbGet f) := fun s => .refl P s

theorem dbRun_keeps {α : Type} (P : Sent → Prop) (f : Cldb → Except Rc (α × Cldb)) :
    Txn.Keeps (Frame P) (dbRun f) := by
  intro s
  unfold dbRun
  rcases f s.db with rc | ⟨b, db⟩
  · exact .refl P s
  · exact (Frame.refl P s).setDb db

theorem dbPut_keeps (P : Sent → Prop) (f : Cldb → Except Rc Cldb) :
    Txn.Keeps (Frame P) (dbPut f) := dbRun_keeps P _

/-! ## Waking waiters -/

/-- The loop of `inode_lock_rescan`, `acq` locks having been acquired. The pending bit is cleared in
the local `lflags` only: what `cur->put` stores is the record as it was read. -/
def rescanLoop (e : Env) (ft : Faults) (inum : Inum) :
    Nat → Nat → List RawLock → Txn Server Rc PUnit
  | nth, _, [] => Txn.failIf (ft (.rescanGet inum nth)) .err
  | nth, acq, lock :: ls => do
    Txn.failIf (ft (.rescanGet inum nth)) .err
    if !lock.pending then pure ⟨⟩
    else if 0 < acq && !lock.shared then pure ⟨⟩
    else
      Txn.failIf (ft (.rescanPut inum nth)) .err
      let sess ← Txn.read fun srv => srv.sessions.get lock.sid
      match sess with
      | none => pure ⟨⟩
      | some sess =>
        if sess.sockFd = 0 then rescanLoop e ft inum (nth + 1) (acq + 1) ls
        else
          let sent ← fun srv =>
            let (sent, srv) := sessSendmsg e srv lock.sid (.event lock.fh ceLocked) .event .none
            (.ok sent, srv)
          if sent then rescanLoop e ft inum (nth + 1) (acq + 1) ls else pure ⟨⟩

def inodeLockRescan (e : Env) (ft : Faults) (inum : Inum) : Txn Server Rc PUnit := do
  Txn.failIf (ft (.rescanCur inum)) .err
  let locks ← Txn.read fun srv => srv.db.locks inum
  rescanLoop e ft inum 0 0 locks

/-! ## Removing locks and sessions -/

/-- A zero `fh` stands for every handle of the session. -/
def lmatch (lock : RawLock) (sid : Sid) (fh : Nat) : Bool :=
  if lock.sid ≠ sid then false
  else if fh ≠ 0 ∧ lock.fh ≠ fh then false
  else true

/-- The loop of `session_remove_locks`: the records that stay and whether one of them waits. -/
def removeLocksScan (sid : Sid) (fh : Nat) : List RawLock → List RawLock × Bool
  | [] => ([], false)
  | l :: ls =>
    let (kept, waiter) := removeLocksScan sid fh ls
    if !lmatch l sid fh then (l :: kept, l.pending || waiter) else (kept, waiter)

def sessionRemoveLocks (ft : Faults) (sid : Sid) (fh : Nat) (inum : Inum) (db : Cldb) :
    Except Rc (Bool × Cldb) :=
  let (kept, waiter) := removeLocksScan sid fh (db.locks inum)
  ft.guard (.removeCur inum) (.ok (waiter, db.setLocks inum kept))

/-- The handles of a session. Its id begins their keys, so a cursor set to the key `(sid, 0)` meets
them one after the other before it meets anything else. -/
def Cldb.handlesOf (db : Cldb) (sid : Sid) : List RawHandle :=
  db.handles.rows.filter fun h => h.sid = sid

/-- The first loop of `session_remove`: handles are deleted, and the inodes of those opened for
locking collected in an array of `alloc` entries. Without memory for a larger one there is no
result, but no error is returned either. -/
def removeHandles (ft : Faults) :
    Nat → Nat → List Inum → List RawHandle → Cldb → Except Rc (Option (List Inum) × Cldb)
  | nth, _, locks, [], db => ft.guard (.handleCur nth) (.ok (some locks, db))
  | nth, alloc, locks, h :: hs, db =>
    let db' := { db with handles := db.handles.del h.key }
    if ft (.handleCur nth) then .error .err
    else if has h.mode comLock then
      let locks := locks ++ [h.inum]
      if locks.length = alloc then
        if ft (.allocLocks (alloc * 2)) then .ok (none, db)
        else removeHandles ft (nth + 1) (alloc * 2) locks hs db'
      else removeHandles ft (nth + 1) alloc locks hs db'
    else removeHandles ft (nth + 1) alloc locks hs db'

/-- The second loop: the locks on these inodes are removed, and the inodes with waiters collected. -/
def removeLocks (ft : Faults) (sid : Sid) :
    Nat → List Inum → List Inum → Cldb → Except Rc (Option (List Inum) × Cldb)
  | _, waiters, [], db => .ok (some waiters, db)
  | alloc, waiters, inum :: rest, db =>
    match sessionRemoveLocks ft sid 0 inum db with
    | .error rc => .error rc
    | .ok (false, db) => removeLocks ft sid alloc waiters rest db
    | .ok (true, db) =>
      let waiters := waiters ++ [inum]
      if waiters.length = alloc then
        if ft (.allocWaiters (alloc * 2)) then .ok (none, db)
        else removeLocks ft sid (alloc * 2) waiters rest db
      else removeLocks ft sid alloc waiters rest db

def rescanAll (e : Env) (ft : Faults) : List Inum → Txn Server Rc PUnit
  | [] => pure ⟨⟩
  | inum :: rest => do
    inodeLockRescan e ft inum
    rescanAll e ft rest

def sessionRemove (e : Env) (ft : Faults) (sid : Sid) : Txn Server Rc PUnit := do
  Txn.failIf (ft (.allocLocks 128)) .err
  Txn.failIf (ft (.allocWaiters 64)) .err
  let locks ← dbRun fun db => removeHandles ft 0 128 [] (db.handlesOf sid) db
  match locks with
  | none => pure ⟨⟩
  | some locks =>
    let waiters ← dbRun (removeLocks ft sid 64 [] locks)
    match waiters with
    | none => pure ⟨⟩
    | some waiters =>
      rescanAll e ft waiters
      dbPut fun db => cldbSessionDel ft db sid

/-- `session_free` with `hash_remove`. -/
def sessionFree (sid : Sid) (srv : Server) : Server :=
  { srv with sessions := srv.sessions.del sid }

/-- The memory of the session goes whether or not it could be removed from the database. -/
def sessionDispose (e : Env) (ft : Faults) (sid : Sid) : Txn Server Rc PUnit := fun srv =>
  let (rc, srv) := sessionRemove e ft sid srv
  (rc, sessionFree sid srv)

/-! ## Transactions -/

/-- A transaction as the requests and `session_timeout` run one: it ends with a commit, or leaves
the database as it was. -/
def inTxn {ε α : Type} (ft : Faults) (dbErr : ε) (body : Txn Server ε α) : Txn Server ε α :=
  fun srv =>
    if ft .txnBegin then (.error dbErr, srv)
    else
      match body srv with
      | (.error code, t) => (.error code, t.setDb srv.db)
      | (.ok a, t) => if ft .commit then (.error dbErr, t.setDb srv.db) else (.ok a, t)

theorem inTxn_ok {ε α : Type} {ft : Faults} {dbErr : ε} {body : Txn Server ε α} {s t : Server}
    {a : α} :
    inTxn ft dbErr body s = (.ok a, t) ↔
      ft .txnBegin = false ∧ ft .commit = false ∧ body s = (.ok a, t) := by
  unfold inTxn
  cases ft .txnBegin <;> rcases body s with ⟨code | b, u⟩ <;> cases ft .commit <;> simp

theorem inTxn_error {ε α : Type} {ft : Faults} {dbErr code : ε} {body : Txn Server ε α}
    {s t : Server} (h : inTxn ft dbErr body s = (.error code, t)) :
    t.db = s.db ∧ (t = s ∨ t = (body s).2.setDb s.db) := by
  unfold inTxn at h
  split at h
  · cases h
    exact ⟨rfl, .inl rfl⟩
  · split at h
    · next hb =>
      cases h
      exact ⟨rfl, .inr (by rw [hb])⟩
    · next hb =>
      split at h
      · cases h
        exact ⟨rfl, .inr (by rw [hb])⟩
      · cases h

theorem inTxn_keeps {ε α : Type} {P : Sent → Prop} (ft : Faults) (dbErr : ε)
    {body : Txn Server ε α} (h : Txn.Keeps (Frame P) body) :
    Txn.Keeps (Frame P) (inTxn ft dbErr body) := by
  intro s
  have hb := h s
  unfold inTxn
  split
  · exact .refl P s
  · split
    · next hs =>
      rw [hs] at hb
      exact hb.setDb s.db
    · next hs =>
      rw [hs] at hb
      split
      · exact hb.setDb s.db
      · exact hb

/-! ## Requests about sessions -/

def cldSessTimeout : Nat := 60

def Session.expire (sess : Session) : Nat := (sess.lastContact + cldSessTimeout) % 2 ^ 64

/-- The session is dead or its time is over. -/
def Session.expired (sess : Session) (now : Nat) : Bool := !(!sess.dead && now < sess.expire)

/-- `session_timeout`, fired at `now`. The guard of the ping compares the time of expiry with a truth
value. -/
def sessionTimeout (e : Env) (ft : Faults) (now : Nat) (sid : Sid) (srv : Server) : Server :=
  match srv.sessions.get sid with
  | none => srv
  | some sess =>
    if sess.expired now then (inTxn ft .err (sessionDispose e ft sid) srv).2
    else
      let isOpen := decide (sess.lastContact + cldSessTimeout / 2 ≠ 0 ∧ 0 < sess.sockFd)
      if !sess.pingOpen && isOpen.toNat < sess.expire then
        (sessSendmsg e (srv.putSess { sess with pingOpen := true }) sid .void .ping
          .sessionPingDone).2
      else srv

def sessionEncode (sess : Session) : RawSession where
  sid := sess.sid
  addr := sess.addr
  user := sess.user.name
  lastContact := sess.lastContact
  nextFh := sess.nextFh
  nextSeqidIn := sess.nextSeqidIn
  nextSeqidOut := sess.nextSeqidOut

/-- A record that was written from a session in memory. -/
def RawSession.Written (raw : RawSession) : Prop := ∃ sess, raw = sessionEncode sess

/-- `simple_sendmsg` to socket `fd`. -/
def simpleSendmsg (e : Env) (srv : Server) (fd : Nat) (sid : Sid) (user : Bytes) (seqid : Nat)
    (msg : ServerMsg) (op : CldMsgOp) : Server :=
  match msg.encode with
  | none => { srv with rnd := srv.rnd + 2 }
  | some body =>
    let pkt := simplePkt e sid user seqid (cldRand64 e srv.rnd) op body
    { srv with rnd := srv.rnd + 2, tx := srv.tx ++ pkt.toList.map fun p => (fd, p.data) }

/-- `msg_new_sess` for a packet from socket `fd` of a client at `addr`. -/
def msgNewSess (e : Env) (ft : Faults) (fd : Nat) (addr : Bytes) (sid : Sid) (user : User)
    (seqid xid : Nat) (srv : Server) : Server :=
  let refuse (srv : Server) (code : CleErrCodes) : Server :=
    simpleSendmsg e srv fd sid user.name 0xdeadbeef (.genericResp code xid) .newSess
  if ft .sessionNew then refuse srv .oom
  else
    let sess : Session :=
      { sid, sockFd := fd, addr, user, lastContact := srv.currentTime, nextFh := 2
        nextSeqidIn := (seqid + 1) % 2 ^ 64, nextSeqidOut := cldRand64 e srv.rnd, outQ := []
        pingOpen := false, dead := false, msgOp := .nop, msgXid := 0, msgBuf := [] }
    let srv := { srv with rnd := srv.rnd + 2 }
    if ft .sessionPut then refuse (sessionFree sid srv) .dbErr
    else if (srv.db.sessions.get sid).isSome then refuse (sessionFree sid srv) .sessExists
    else
      let db := { srv.db with sessions := srv.db.sessions.put unordered (sessionEncode sess) }
      (sessSendmsg e ({ srv with db }.putSess sess) sid (.genericResp .ok xid) .newSess .none).2

/-- What the callback of an acknowledged packet does to its session. -/
def DoneCb.run (sess : Session) : DoneCb → Session
  | .none => sess
  | .sessionPingDone => { sess with pingOpen := false }
  | .endSessDone => { sess with dead := true }

/-- The loop of `msg_ack`: the packets acknowledged are taken from the queue, and their callbacks
called. -/
def Session.ack (sess : Session) (seqid : Nat) : Session :=
  (sess.outQ.filter fun op => footSeqid op.pktData = seqid).foldl (fun sess op => op.doneCb.run sess)
    { sess with outQ := sess.outQ.filter fun op => footSeqid op.pktData ≠ seqid }

/-- Acknowledging this sequence number ends the session. -/
def Session.kills (sess : Session) (seqid : Nat) : Bool :=
  sess.outQ.any fun op => op.doneCb = .endSessDone && footSeqid op.pktData = seqid

theorem runDone_eq (acked : List OutPkt) (sess : Session) :
    ∃ pingOpen, acked.foldl (fun sess op => op.doneCb.run sess) sess =
      { sess with
        pingOpen
        dead := sess.dead || acked.any fun op => op.doneCb = .endSessDone } := by
  induction acked generalizing sess with
  | nil => exact ⟨sess.pingOpen, by simp⟩
  | cons op acked ih =>
    obtain ⟨pingOpen, h⟩ := ih (op.doneCb.run sess)
    refine ⟨pingOpen, ?_⟩
    rw [List.foldl_cons, h]
    cases hcb : op.doneCb <;> simp [DoneCb.run, hcb]

/-- An acknowledgement shortens the queue, may close the ping and may end the session. -/
theorem Session.ack_eq (sess : Session) (seqid : Nat) :
    sess.ack seqid = { sess with
      outQ := sess.outQ.filter fun op => footSeqid op.pktData ≠ seqid
      pingOpen := (sess.ack seqid).pingOpen
      dead := sess.dead || sess.kills seqid } := by
  obtain ⟨pingOpen, h⟩ := runDone_eq (sess.outQ.filter fun op => footSeqid op.pktData = seqid)
    { sess with outQ := sess.outQ.filter fun op => footSeqid op.pktData ≠ seqid }
  rw [Session.ack, h]
  simp [Session.kills, List.any_filter, Bool.and_comm]

def msgAck (sid : Sid) (seqid : Nat) (srv : Server) : Server :=
  match srv.sessions.get sid with
  | none => srv
  | some sess => srv.putSess (sess.ack seqid)

def msgEndSess (e : Env) (sid : Sid) (xid : Nat) (srv : Server) : Server :=
  (sessSendmsg e srv sid (.genericResp .ok xid) .endSess .endSessDone).2

/-! ## Sending again -/

/-- The loop of `sess_retry_output`, with the packets sent. The `i`-th call of `tcp_tx` succeeds if
`ok i`; the first that does not ends the loop. -/
def retryLoop (now : Nat) (ok : Nat → Bool) : Nat → List OutPkt → List OutPkt × List Bytes
  | _, [] => ([], [])
  | i, op :: ops =>
    if now < op.nextRetry then
      let (rest, sent) := retryLoop now ok i ops
      (op :: rest, sent)
    else if ok i then
      let (rest, sent) := retryLoop now ok (i + 1) ops
      ({ op with nextRetry := op.nextRetry + 5 } :: rest, op.pktData :: sent)
    else (op :: ops, [])

/-- `session_retry` for a session. -/
def sessionRetry (ok : Nat → Bool) (sid : Sid) (srv : Server) : Server :=
  match srv.sessions.get sid with
  | none => srv
  | some sess =>
    let (outQ, sent) := retryLoop srv.currentTime ok 0 sess.outQ
    { srv.putSess { sess with outQ } with tx := srv.tx ++ sent.map (sess.sockFd, ·) }

theorem retryLoop_spec (now : Nat) (ok : Nat → Bool) (i : Nat) (outQ : List OutPkt) :
    (retryLoop now ok i outQ).1.map (fun op => (op.pktData, op.doneCb)) =
        outQ.map (fun op => (op.pktData, op.doneCb)) ∧
      ∀ pkt ∈ (retryLoop now ok i outQ).2, ∃ op ∈ outQ, op.pktData = pkt := by
  induction outQ generalizing i with
  | nil => exact ⟨rfl, by simp [retryLoop]⟩
  | cons op ops ih =>
    unfold retryLoop
    split
    · obtain ⟨hmap, hsent⟩ := ih i
      refine ⟨by simp [hmap], fun pkt hp => ?_⟩
      obtain ⟨x, hx, hd⟩ := hsent pkt hp
      exact ⟨x, List.mem_cons_of_mem op hx, hd⟩
    · split
      · obtain ⟨hmap, hsent⟩ := ih (i + 1)
        refine ⟨by simp [hmap], fun pkt hp => ?_⟩
        rcases List.mem_cons.mp hp with rfl | hp
        · exact ⟨op, by simp, rfl⟩
        · obtain ⟨x, hx, hd⟩ := hsent pkt hp
          exact ⟨x, List.mem_cons_of_mem op hx, hd⟩
      · exact ⟨rfl, by simp⟩

end Hail.Cld
