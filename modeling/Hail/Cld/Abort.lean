import Hail.Cld.Reply
import Hail.Cld.Told

/-!
# Requests that fail

A request that fails leaves the database as it was, since its transaction is aborted. Events are
not part of the transaction: `inode_touch`, `inode_notify` and `inode_lock_rescan` send them at
once, and those a failing request has sent are not called back. `Unheard` says that there are none,
because the request fails before its first notification or nobody is told by it.
-/
namespace Hail.Cld

open Library

/-! ## Who is told -/

/-- Something is sent to the session of a handle when its inode changes or is deleted. -/
def hears (sessions : Table Session.sid) (deleted : Bool) (h : RawHandle) : Bool :=
  (deleted || has h.events ceUpdated) && ((sessions.get h.sid).map Session.sockFd).any (· ≠ 0)

/-- `inode_notify` tells one of these handles. -/
def notifies (ft : Faults) (nth : Nat) (deleted : Bool) (sessions : Table Session.sid) :
    Nat → List RawHandle → Bool
  | _, [] => false
  | k, h :: hs =>
    !ft (.notifyGet nth k) && (hears sessions deleted h || notifies ft nth deleted sessions (k + 1) hs)

/-- `inode_touch` gets to its notification, and tells one of these handles. -/
def touches (ft : Faults) (nth : Nat) (sessions : Table Session.sid) (hs : List RawHandle) : Bool :=
  !ft (.inodePut nth) && !ft (.notifyCur nth) && notifies ft nth false sessions 0 hs

/-- The loop of `inode_lock_rescan` tells the owner of one of these locks. -/
def wakes (ft : Faults) (inum : Inum) (sessions : Table Session.sid) :
    Nat → Nat → List RawLock → Bool
  | _, _, [] => false
  | nth, acq, lock :: ls =>
    !ft (.rescanGet inum nth) && lock.pending && !(0 < acq && !lock.shared) &&
      !ft (.rescanPut inum nth) && match (sessions.get lock.sid).map Session.sockFd with
        | none => false
        | some sockFd => sockFd ≠ 0 || wakes ft inum sessions (nth + 1) (acq + 1) ls

/-- The handles on an inode when one has been added. -/
def Cldb.handlesWith (db : Cldb) (h : RawHandle) : List RawHandle :=
  (db.handles.put RawHandle.before h).rows.filter fun x => x.inum = h.inum

/-- `msg_put` does not get to its notification, or tells nobody. -/
def UnheardPut (ft : Faults) (sid : Sid) (s : Server) (m : CldMsgPut) : Prop :=
  ∀ h, cldbHandleGet ft s.db sid m.fh = .ok h →
    has h.mode comWrite = true → has h.mode comDirectory = false →
    ∀ ino, cldbInodeGet ft s.db h.inum = .ok ino → ft .dataPut = false →
    touches ft 0 s.sessions (s.db.handlesOn ino.inum) = false

/-- The same for `msg_close` and the rescan of the locks. -/
def UnheardClose (ft : Faults) (sid : Sid) (s : Server) (n : Nat) : Prop :=
  ∀ h, cldbHandleGet ft s.db sid n = .ok h → ft .handleDel = false →
    ft (.removeCur h.lockInum) = false → ft (.rescanCur h.lockInum) = false →
    wakes ft h.lockInum s.sessions 0 0 (keptLocks sid n (s.db.locks h.lockInum)) = false

/-- The same for `msg_del`, which notifies the handles on the inode and, when it is deleted, those on
its parent. -/
def UnheardDel (ft : Faults) (s : Server) (name : Bytes) : Prop :=
  ∀ parent, cldbInodeGetByname ft 1 s.db (pathnameParse name).dir = .ok parent →
    ∀ old, cldbDataGet ft s.db parent.inum = .ok old →
    ∀ ino, cldbInodeGetByname ft 0 s.db name = .ok ino →
    (has ino.flags ciflDir && ft .dataRmdir) = false →
    (has ino.flags ciflDir && (s.db.data.get ino.inum).any fun d => 0 < d.data.length) = false →
    ft (.notifyCur 1) = false →
    notifies ft 1 true s.sessions 0 (s.db.handlesOn ino.inum) = false ∧
      ∀ db, delInode ft ino.inum s.db = .ok db →
        ∀ data, dirdataDelete old (pathnameParse name).base = some data → ft .dataPut = false →
        touches ft 0 s.sessions (db.handlesOn parent.inum) = false

/-- The same for `msg_open` when it makes an inode: the handles on the parent are notified, and those
on the new inode, of which there is one by then. -/
def UnheardCreate (e : Env) (ft : Faults) (sid : Sid) (s : Server) (m : CldMsgOpen) (name : Bytes) :
    Prop :=
  ft .inodeNew = false → ∀ inum rnd, inumSearch e.rand s.db 100000 s.rnd = (some inum, rnd) →
    ∀ parent, cldbInodeGetByname ft 1 s.db (pathnameParse name).dir = .ok parent →
    ft .dataGet = false → ft .dataAppend = false → ft .dataPut = false →
    touches ft 0 s.sessions (s.db.handlesOn parent.inum) = false ∧
      (ft (.inodePut 0) = false → ft (.notifyCur 0) = false →
        ∀ fh, s.nextFh sid = some fh → ft .handleNew = false → ft .handlePut = false →
        touches ft 1 s.sessions (s.db.handlesWith (m.handle sid fh inum)) = false)

/-- A request that begins its transaction does not get to a notification that tells anybody. -/
def Unheard (e : Env) (ft : Faults) (sid : Sid) (s : Server) (req : Request) : Prop :=
  ft .txnBegin = false →
    match req with
    | .put m => UnheardPut ft sid s m
    | .close n => UnheardClose ft sid s n
    | .del name => validInodeName name.bytes = true → 2 ≤ name.bytes.length → UnheardDel ft s name.bytes
    | .open m =>
      validInodeName m.inodeName.bytes = true → has m.mode comCreate = true →
        2 ≤ m.inodeName.bytes.length →
        cldbInodeGetByname ft 0 s.db m.inodeName.bytes = .error .notfound →
        UnheardCreate e ft sid s m m.inodeName.bytes
    | _ => True

theorem SessFrame.sent_grows {P : Sent → Prop} {s t : Server} (h : SessFrame P s t) :
    s.sent <+: t.sent := by
  obtain ⟨told, ht, -⟩ := h.sent
  exact ⟨told, ht.symm⟩

/-- An event for a session that exists is queued. -/
theorem sendEvent_queue (e : Env) {s : Server} {sid : Sid} {sess : Session}
    (hg : s.sessions.get sid = some sess) (fh ev : Nat) :
    ∃ pkts, sessSendmsg e s sid (.event fh ev) .event .none =
      (true, s.queue sess ⟨sid, .event, .event fh ev⟩ .none pkts) := by
  have hlen : (Xdr.putHyper fh ++ Xdr.putInt ev).length ≤ cldMaxMsgSz := by simp [cldMaxMsgSz]
  have hsent : (sessSendmsg e s sid (.event fh ev) .event .none).2.sent =
      s.sent ++ [⟨sid, .event, .event fh ev⟩] := sessSendmsg_sent hg rfl hlen
  rcases sessSendmsg_cases e s sid (.event fh ev) .event .none with ⟨sess', pkts, hg', -, h⟩ | h
  · cases hg.symm.trans hg'
    exact ⟨pkts, h⟩
  · rw [h] at hsent
    simp at hsent

/-- One round of `inode_notify`. -/
theorem notifyLoop_cons (e : Env) {ft : Faults} {nth : Nat} (deleted : Bool) {k : Nat} (x : RawHandle)
    (hs : List RawHandle) (s : Server) (hft : ft (.notifyGet nth k) = false) :
    if hears s.sessions deleted x then
      ∃ sess m pkts, s.sessions.get x.sid = some sess ∧ notifyLoop e ft nth deleted k (x :: hs) s =
        notifyLoop e ft nth deleted (k + 1) hs (s.queue sess m .none pkts)
    else notifyLoop e ft nth deleted k (x :: hs) s = notifyLoop e ft nth deleted (k + 1) hs s := by
  simp only [notifyLoop, hft, Bool.false_eq_true, if_false, hears]
  cases hev : !deleted && !has x.events ceUpdated with
  | true =>
    have hno : (deleted || has x.events ceUpdated) = false := by
      rw [← Bool.not_eq_true', Bool.not_or]
      exact hev
    simp [hno]
  | false =>
    have hyes : (deleted || has x.events ceUpdated) = true := by
      rw [← Bool.not_eq_false', Bool.not_or]
      exact hev
    simp only [hyes, Bool.true_and, Bool.false_eq_true, if_false]
    cases hg : s.sessions.get x.sid with
    | none => simp
    | some sess =>
      by_cases hfd : sess.sockFd = 0
      · simp [hfd]
      · obtain ⟨pkts, hsend⟩ := sendEvent_queue e hg x.fh (if deleted then ceDeleted else ceUpdated)
        simp only [Option.map_some, Option.any_some, ne_eq, hfd, not_false_eq_true, decide_true,
          if_true, if_false, hsend]
        exact ⟨sess, _, pkts, rfl, rfl⟩

theorem notifyLoop_idle (e : Env) {ft : Faults} {nth : Nat} {deleted : Bool} {k : Nat}
    {hs : List RawHandle} {s : Server} (h : notifies ft nth deleted s.sessions k hs = false) :
    notifyLoop e ft nth deleted k hs s = s := by
  induction hs generalizing k with
  | nil => rfl
  | cons x hs ih =>
    cases hft : ft (.notifyGet nth k) with
    | true => simp [notifyLoop, hft]
    | false =>
      simp only [notifies, hft, Bool.not_false, Bool.true_and, Bool.or_eq_false_iff] at h
      have hround := notifyLoop_cons e deleted x hs s hft
      rw [h.1] at hround
      exact hround.trans (ih h.2)

theorem notifyLoop_sent (e : Env) {ft : Faults} {nth : Nat} {deleted : Bool} {k : Nat}
    {hs : List RawHandle} {s : Server} (h : notifies ft nth deleted s.sessions k hs = true) :
    (notifyLoop e ft nth deleted k hs s).sent ≠ s.sent := by
  induction hs generalizing k with
  | nil => cases h
  | cons x hs ih =>
    simp only [notifies, Bool.and_eq_true, Bool.or_eq_true, Bool.not_eq_true'] at h
    obtain ⟨hft, h⟩ := h
    have hround := notifyLoop_cons e deleted x hs s hft
    split at hround
    · obtain ⟨sess, m, pkts, hg, hround⟩ := hround
      rw [hround]
      -- What comes after the event only adds to what was sent.
      have hmore := (notifyLoop_frame e ft nth deleted (k + 1) hs
        (s.queue sess m .none pkts)).toSessFrame.sent_grows.length_le
      intro heq
      rw [heq] at hmore
      simp [Server.queue] at hmore
    · next hnot =>
      rw [hround]
      exact ih (h.resolve_left hnot)

/-! ## Transactions that send nothing -/

/-- The transaction sends nothing. -/
def Still {ε α : Type} (x : Txn Server ε α) (s : Server) : Prop := (x s).2.sent = s.sent

section

variable {ε α β : Type} {s : Server}

@[simp] theorem still_pure (a : α) : Still (pure a : Txn Server ε α) s ↔ True := iff_true_intro rfl

@[simp] theorem still_fail (code : ε) : Still (Txn.fail code : Txn Server ε α) s ↔ True :=
  iff_true_intro rfl

@[simp] theorem still_onErr {ρ : Type} (x : Txn Server ρ α) (code : ρ → ε) :
    Still (x.onErr code) s ↔ Still x s := by
  simp only [Still, Txn.onErr_snd]

/-- A step that sends nothing leaves it to the next. -/
theorem still_bind {x : Txn Server ε α} {g : α → Txn Server ε β} (hx : Txn.Keeps Silent x) :
    Still (x >>= g) s ↔ ∀ a t, x s = (.ok a, t) → Still (g a) t :=
  Txn.bind_fixes fun s => (hx s).sent_eq

@[simp] theorem still_failIf {c : Bool} {code : ε} {g : PUnit → Txn Server ε β} :
    Still (Txn.failIf c code >>= g) s ↔ (c = false → Still (g ⟨⟩) s) := by
  rw [still_bind (failIf_keeps _ c code)]
  simp only [Txn.failIf_ok]
  constructor
  · intro h hc
    exact h ⟨⟩ s ⟨hc, rfl⟩
  · rintro h _ t ⟨hc, rfl⟩
    exact h hc

@[simp] theorem still_read {f : Server → α} {g : α → Txn Server ε β} :
    Still (Txn.read f >>= g) s ↔ Still (g (f s)) s := Iff.rfl

@[simp] theorem still_dbGet {f : Cldb → Except Rc α} {code : Rc → ε} {g : α → Txn Server ε β} :
    Still ((dbGet f).onErr code >>= g) s ↔ ∀ a, f s.db = .ok a → Still (g a) s := by
  rw [still_bind ((dbGet_keeps _ f).onErr code)]
  simp only [Txn.onErr_ok, dbGet_ok]
  constructor
  · intro h a ha
    exact h a s ⟨ha, rfl⟩
  · rintro h a t ⟨ha, rfl⟩
    exact h a ha

@[simp] theorem still_dbRun {f : Cldb → Except Rc (α × Cldb)} {code : Rc → ε}
    {g : α → Txn Server ε β} :
    Still ((dbRun f).onErr code >>= g) s ↔
      ∀ a db, f s.db = .ok (a, db) → Still (g a) (s.setDb db) := by
  rw [still_bind ((dbRun_keeps _ f).onErr code)]
  simp only [Txn.onErr_ok, dbRun_ok]
  constructor
  · intro h a db hd
    exact h a _ ⟨db, hd, rfl⟩
  · rintro h a t ⟨db, hd, rfl⟩
    exact h a db hd

@[simp] theorem still_dbPut {f : Cldb → Except Rc Cldb} {code : Rc → ε}
    {g : PUnit → Txn Server ε β} :
    Still ((dbPut f).onErr code >>= g) s ↔
      ∀ db, f s.db = .ok db → Still (g ⟨⟩) (s.setDb db) := by
  rw [still_bind ((dbPut_keeps _ f).onErr code)]
  simp only [Txn.onErr_ok, dbPut_ok]
  constructor
  · intro h db hd
    exact h ⟨⟩ _ ⟨db, hd, rfl⟩
  · rintro h _ t ⟨db, hd, rfl⟩
    exact h db hd

/-- A write that only its call can make fail. -/
theorem still_dbWrite {ft : Faults} {c : Call} {f : Cldb → Cldb} {code : Rc → ε}
    {g : PUnit → Txn Server ε β} :
    Still ((dbPut fun db => ft.guard c (.ok (f db))).onErr code >>= g) s ↔
      (ft c = false → Still (g ⟨⟩) (s.setDb (f s.db))) := by
  simp only [still_dbPut, Faults.guard_ok, Except.ok.injEq, and_imp]
  exact ⟨fun h hc => h _ hc rfl, fun h db hc hdb => hdb ▸ h hc⟩

end

theorem inodeNotify_run (e : Env) (ft : Faults) (nth : Nat) (inum : Inum) (deleted : Bool)
    (s : Server) :
    inodeNotify e ft nth inum deleted s =
      if ft (.notifyCur nth) then (.error .err, s)
      else (.ok ⟨⟩, notifyLoop e ft nth deleted 0 (s.db.handlesOn inum) s) := by
  unfold inodeNotify Txn.failIf
  split <;> rfl

theorem inodeNotify_still (e : Env) (ft : Faults) (nth : Nat) (inum : Inum) (deleted : Bool)
    (s : Server) :
    Still (inodeNotify e ft nth inum deleted) s ↔
      (ft (.notifyCur nth) = false →
        notifies ft nth deleted s.sessions 0 (s.db.handlesOn inum) = false) := by
  simp only [inodeNotify, still_failIf]
  refine imp_congr_right fun _ => ?_
  cases hn : notifies ft nth deleted s.sessions 0 (s.db.handlesOn inum) with
  | false => exact iff_of_true (congrArg Server.sent (notifyLoop_idle e hn)) rfl
  | true => exact iff_of_false (notifyLoop_sent e hn) nofun

theorem inodeTouch_run (e : Env) (ft : Faults) (nth : Nat) (ino : RawInode) (s : Server) :
    inodeTouch e ft nth ino s =
      if ft (.inodePut nth) then (.error .err, s)
      else inodeNotify e ft nth ino.inum false (s.setDb { s.db with
        inodes := s.db.inodes.put unordered (ino.touch s.currentTime) }) := by
  have hput : dbPut (fun db => cldbInodePut ft nth db (ino.touch s.currentTime)) s =
      if ft (.inodePut nth) then (.error .err, s)
      else (.ok ⟨⟩, s.setDb { s.db with
        inodes := s.db.inodes.put unordered (ino.touch s.currentTime) }) := by
    unfold dbPut dbRun cldbInodePut Faults.guard
    cases ft (.inodePut nth) <;> rfl
  change (dbPut (fun db => cldbInodePut ft nth db (ino.touch s.currentTime)) >>= fun _ =>
    inodeNotify e ft nth ino.inum false) s = _
  split
  · next h => exact Txn.bind_stop (hput.trans (if_pos h))
  · next h => exact Txn.bind_run (hput.trans (if_neg h))

theorem inodeTouch_still (e : Env) (ft : Faults) (nth : Nat) (ino : RawInode) (s : Server) :
    Still (inodeTouch e ft nth ino) s ↔
      touches ft nth s.sessions (s.db.handlesOn ino.inum) = false := by
  have hnotify := inodeNotify_still e ft nth ino.inum false (s.setDb { s.db with
    inodes := s.db.inodes.put unordered (ino.touch s.currentTime) })
  rw [Still, inodeTouch_run, touches]
  cases hput : ft (.inodePut nth) with
  | true => simp
  | false =>
    rw [if_neg Bool.false_ne_true]
    refine hnotify.trans ?_
    cases ft (.notifyCur nth) <;> simp [Cldb.handlesOn]

/-- One round of `inode_lock_rescan`. -/
theorem rescanLoop_still (e : Env) (ft : Faults) (inum : Inum) (nth acq : Nat) (ls : List RawLock)
    (s : Server) :
    Still (rescanLoop e ft inum nth acq ls) s ↔ wakes ft inum s.sessions nth acq ls = false := by
  induction ls generalizing nth acq with
  | nil => exact iff_of_true (by rw [Still, rescanLoop, Txn.failIf_end]) rfl
  | cons lock ls ih =>
    simp only [rescanLoop, still_failIf, wakes]
    cases hget : ft (.rescanGet inum nth) with
    | true => simp
    | false =>
      cases hp : lock.pending with
      | false => simp
      | true =>
        cases hacq : decide (0 < acq) && !lock.shared with
        | true => simp
        | false =>
          cases hput : ft (.rescanPut inum nth) with
          | true => simp
          | false =>
            simp only [Bool.not_true, Bool.false_eq_true, if_false, still_failIf, still_read,
              Bool.not_false, Bool.true_and, forall_const]
            cases hg : s.sessions.get lock.sid with
            | none => simp
            | some sess =>
              by_cases hfd : sess.sockFd = 0
              · simp [hfd, ih]
              · obtain ⟨pkts, hsend⟩ := sendEvent_queue e hg lock.fh ceLocked
                simp only [Option.map_some, hfd, if_false]
                refine iff_of_false ?_ (by simp [hfd])
                refine Txn.bind_end (C := fun t : Server => ¬ t.sent = s.sent) (fun code u hu => ?_)
                  fun sent u hu => ?_
                · cases hu
                · simp only [hsend, Prod.mk.injEq, Except.ok.injEq] at hu
                  obtain ⟨rfl, rfl⟩ := hu
                  have hmore := (rescanLoop_keeps e ft inum (nth + 1) (acq + 1) ls
                    (s.queue sess ⟨lock.sid, .event, .event lock.fh ceLocked⟩ .none
                      pkts)).toSessFrame.sent_grows.length_le
                  intro heq
                  rw [if_pos rfl] at heq
                  rw [heq] at hmore
                  simp [Server.queue] at hmore

theorem inodeLockRescan_still (e : Env) (ft : Faults) (inum : Inum) (s : Server) :
    Still (inodeLockRescan e ft inum) s ↔
      (ft (.rescanCur inum) = false → wakes ft inum s.sessions 0 0 (s.db.locks inum) = false) := by
  simp only [inodeLockRescan, still_failIf, still_read, rescanLoop_still]

/-! ## Requests that tell nobody -/

theorem msgPutTxn_still (e : Env) (ft : Faults) (sid : Sid) (m : CldMsgPut) (s : Server) :
    Still (msgPutTxn e ft sid m) s ↔ UnheardPut ft sid s m := by
  unfold UnheardPut
  simp only [msgPutTxn, still_dbGet, still_failIf, cldbDataPut, still_dbWrite, still_onErr,
    inodeTouch_still, Bool.or_eq_false_iff, Bool.not_eq_false', and_imp]
  rfl

theorem wakes_pending {ft : Faults} {inum : Inum} {sessions : Table Session.sid} {nth acq : Nat}
    {ls : List RawLock} (h : wakes ft inum sessions nth acq ls = true) :
    ls.any RawLock.pending = true := by
  cases ls with
  | nil => cases h
  | cons lock ls =>
    simp only [wakes, Bool.and_eq_true] at h
    simp [h.1.1.1.2]

theorem msgCloseTxn_still (e : Env) (ft : Faults) (sid : Sid) (n : Nat) (s : Server) :
    Still (msgCloseTxn e ft sid n) s ↔ UnheardClose ft sid s n := by
  unfold UnheardClose
  simp only [msgCloseTxn, still_dbGet, still_dbPut, still_dbRun]
  refine forall_congr' fun h => imp_congr_right fun hh => ?_
  have hget := found_ok.mp (Faults.guard_ok.mp hh).2
  simp only [cldbHandleDel, hget, Faults.guard_ok, sessionRemoveLocks, removeLocksScan_eq,
    Except.ok.injEq, Prod.mk.injEq]
  constructor
  · intro H hdel hrem hcur
    have hend := H _ ⟨hdel, rfl⟩ _ _ ⟨hrem, rfl, rfl⟩
    cases hw : wakes ft h.lockInum s.sessions 0 0 (keptLocks sid n (s.db.locks h.lockInum)) with
    | false => rfl
    | true =>
      have hpend := wakes_pending hw
      simp only [Server.setDb_db, hpend, if_true, still_onErr, inodeLockRescan_still] at hend
      have hidle := hend hcur
      rw [setLocks_self] at hidle
      exact hw.symm.trans hidle
  · rintro H db ⟨hdel, rfl⟩ waiter db' ⟨hrem, rfl, rfl⟩
    split
    · rw [still_onErr, inodeLockRescan_still]
      intro hcur
      simp only [Server.setDb_db, Server.setDb_sessions, setLocks_self]
      exact H hdel hrem hcur
    · simp

/-- A notification leaves it to the next step, unless somebody is told. -/
theorem still_inodeNotify {ε β : Type} {e : Env} {ft : Faults} {nth : Nat} {inum : Inum}
    {deleted : Bool} {code : Rc → ε} {g : PUnit → Txn Server ε β} {s : Server}
    (hg : Txn.Keeps (fun s t : Server => s.sent <+: t.sent) (g ⟨⟩)) :
    Still ((inodeNotify e ft nth inum deleted).onErr code >>= g) s ↔
      (ft (.notifyCur nth) = false →
        notifies ft nth deleted s.sessions 0 (s.db.handlesOn inum) = false ∧ Still (g ⟨⟩) s) := by
  cases hcur : ft (.notifyCur nth) with
  | true =>
    have hrun : (inodeNotify e ft nth inum deleted).onErr code s = (.error (code .err), s) := by
      simp [Txn.onErr, inodeNotify_run, hcur]
    simp [Still, Txn.bind_stop hrun]
  | false =>
    have hrun : (inodeNotify e ft nth inum deleted).onErr code s =
        (.ok ⟨⟩, notifyLoop e ft nth deleted 0 (s.db.handlesOn inum) s) := by
      simp [Txn.onErr, inodeNotify_run, hcur]
    rw [Still, Txn.bind_run hrun]
    refine Iff.trans ?_ ⟨fun h _ => h, fun h => h rfl⟩
    cases hn : notifies ft nth deleted s.sessions 0 (s.db.handlesOn inum) with
    | false =>
      rw [notifyLoop_idle e hn]
      exact (and_iff_right rfl).symm
    | true =>
      refine iff_of_false (fun h => notifyLoop_sent e hn ?_) (by simp)
      have hloop := (notifyLoop_frame e ft nth deleted 0 (s.db.handlesOn inum) s).toSessFrame.sent_grows
      have hmore := hg (notifyLoop e ft nth deleted 0 (s.db.handlesOn inum) s)
      simp only [h] at hmore
      exact hmore.eq_of_length_le hloop.length_le

/-- Touching an inode leaves it to the next step, unless somebody is told. -/
theorem still_inodeTouch {ε β : Type} {e : Env} {ft : Faults} {nth : Nat} {ino : RawInode}
    {code : Rc → ε} {g : PUnit → Txn Server ε β} {s : Server}
    (hg : Txn.Keeps (fun s t : Server => s.sent <+: t.sent) (g ⟨⟩)) :
    Still ((inodeTouch e ft nth ino).onErr code >>= g) s ↔
      touches ft nth s.sessions (s.db.handlesOn ino.inum) = false ∧
        (ft (.inodePut nth) = false → ft (.notifyCur nth) = false → Still (g ⟨⟩) (s.setDb { s.db with
          inodes := s.db.inodes.put unordered (ino.touch s.currentTime) })) := by
  cases hput : ft (.inodePut nth) with
  | true =>
    have hrun : (inodeTouch e ft nth ino).onErr code s = (.error (code .err), s) := by
      simp [Txn.onErr, inodeTouch_run, hput]
    simp [Still, Txn.bind_stop hrun, touches, hput]
  | false =>
    have hrun : (inodeTouch e ft nth ino).onErr code s =
        (inodeNotify e ft nth ino.inum false).onErr code (s.setDb { s.db with
          inodes := s.db.inodes.put unordered (ino.touch s.currentTime) }) := by
      simp [Txn.onErr, inodeTouch_run, hput]
    have hnotify := @still_inodeNotify ε β e ft nth ino.inum false code g (s.setDb { s.db with
      inodes := s.db.inodes.put unordered (ino.touch s.currentTime) }) hg
    rw [Still, Txn.bind_congr_run hrun]
    refine hnotify.trans ?_
    cases hcur : ft (.notifyCur nth) <;> simp [touches, hput, hcur, Cldb.handlesOn]

theorem keeps_prefix {ε α : Type} {P : Sent → Prop} {x : Txn Server ε α}
    (h : Txn.Keeps (Frame P) x) : Txn.Keeps (fun s t : Server => s.sent <+: t.sent) x :=
  fun s => (h s).toSessFrame.sent_grows

theorem msgDelTxn_still (e : Env) (ft : Faults) (name : Bytes) (s : Server) :
    Still (msgDelTxn e ft name) s ↔ UnheardDel ft s name := by
  unfold UnheardDel
  simp only [msgDelTxn, still_dbGet, still_read, still_failIf]
  refine forall_congr' fun parent => imp_congr_right fun _ => forall_congr' fun old =>
    imp_congr_right fun _ => forall_congr' fun ino => imp_congr_right fun _ =>
      imp_congr_right fun _ => imp_congr_right fun _ => ?_
  rw [still_inodeNotify]
  · refine imp_congr_right fun _ => and_congr_right fun _ => ?_
    rw [still_dbPut]
    refine forall_congr' fun db => imp_congr_right fun _ => ?_
    cases dirdataDelete old (pathnameParse name).base with
    | none => simp
    | some data =>
      simp only [cldbDataPut, still_dbWrite, still_onErr, inodeTouch_still, Option.some.injEq,
        forall_eq']
      rfl
  · refine keeps_prefix (P := IsNotice) (.bind .trans ((dbPut_keeps _ _).onErr _) fun _ => ?_)
    cases dirdataDelete old (pathnameParse name).base with
    | none => exact fun s => .refl _ s
    | some data =>
      exact .bind .trans ((dbPut_keeps _ _).onErr _) fun _ => (inodeTouch_keeps e ft 0 _).onErr _

/-- Who is told depends on the sockets of the sessions only. -/
theorem touches_congr {S T : Table Session.sid}
    (h : ∀ k, (T.get k).map Session.sockFd = (S.get k).map Session.sockFd) (ft : Faults) (nth : Nat)
    (hs : List RawHandle) : touches ft nth T hs = touches ft nth S hs := by
  have hloop : ∀ k, notifies ft nth false T k hs = notifies ft nth false S k hs := by
    induction hs with
    | nil => exact fun _ => rfl
    | cons x hs ih =>
      intro k
      simp only [notifies, hears, h, ih]
  rw [touches, touches, hloop]

/-- Taking a handle number leaves the sockets alone, and sends nothing. -/
theorem still_cldbHandleNew {β : Type} {ft : Faults} {sid : Sid} {inum : Inum} {mode events : Nat}
    {g : RawHandle → Txn Server CleErrCodes β} {s : Server} :
    Still (cldbHandleNew ft sid inum mode events >>= g) s ↔
      ∀ sess, s.sessions.get sid = some sess → ft .handleNew = false →
        Still (g ⟨sid, sess.nextFh, inum, mode, events⟩)
          (s.putSess { sess with nextFh := (sess.nextFh + 1) % 2 ^ 64 }) := by
  cases hg : s.sessions.get sid with
  | none =>
    have hrun : cldbHandleNew ft sid inum mode events s = (.error .oom, s) := by
      simp [cldbHandleNew, hg]
    simp [Still, Txn.bind_stop hrun]
  | some sess =>
    cases hnew : ft .handleNew with
    | true =>
      have hrun : cldbHandleNew ft sid inum mode events s = (.error .oom, s) := by
        simp [cldbHandleNew, hg, hnew]
      simp [Still, Txn.bind_stop hrun]
    | false =>
      have hrun : cldbHandleNew ft sid inum mode events s =
          (.ok ⟨sid, sess.nextFh, inum, mode, events⟩,
            s.putSess { sess with nextFh := (sess.nextFh + 1) % 2 ^ 64 }) := by
        simp [cldbHandleNew, hg, hnew]
      rw [Still, Txn.bind_run hrun]
      exact ⟨fun h _ hs _ => Option.some.inj hs ▸ h, fun h => h sess rfl rfl⟩

/-- The last notification of `msg_open`. -/
theorem still_touchIf {ε β : Type} {e : Env} {ft : Faults} {create : Bool} {ino : RawInode}
    {code : Rc → ε} {g : PUnit → Txn Server ε β} {s : Server} (hg : ∀ t, Still (g ⟨⟩) t) :
    Still ((if create then (inodeTouch e ft 1 ino).onErr code else pure ⟨⟩) >>= g) s ↔
      (create = true → touches ft 1 s.sessions (s.db.handlesOn ino.inum) = false) := by
  cases create with
  | false => exact iff_of_true (hg s) nofun
  | true =>
    have hmore : Txn.Keeps (fun s t : Server => s.sent <+: t.sent) (g ⟨⟩) := by
      intro t
      have ht : ((g ⟨⟩) t).2.sent = t.sent := hg t
      simp only [ht, List.prefix_rfl]
    simp only [if_true, still_inodeTouch hmore, hg, implies_true, and_true, forall_const]

theorem msgOpenStore_still (e : Env) (ft : Faults) (sid : Sid) (m : CldMsgOpen) (create : Bool)
    (ino : RawInode) (s : Server) :
    Still (msgOpenStore e ft sid m create ino) s ↔
      (create = true → ∀ fh, s.nextFh sid = some fh → ft .handleNew = false →
        ft .handlePut = false →
        touches ft 1 s.sessions (s.db.handlesWith (m.handle sid fh ino.inum)) = false) := by
  have hsame : ∀ sess, s.sessions.get sid = some sess → touches ft 1
      (s.putSess { sess with nextFh := (sess.nextFh + 1) % 2 ^ 64 }).sessions
        (s.db.handlesWith (m.handle sid sess.nextFh ino.inum)) =
      touches ft 1 s.sessions (s.db.handlesWith (m.handle sid sess.nextFh ino.inum)) := by
    intro sess hg
    apply touches_congr
    exact map_get_putSess Session.sockFd hg rfl rfl
  simp only [msgOpenStore, still_cldbHandleNew, cldbHandlePut, still_dbWrite]
  constructor
  · intro h hc fh hfh hnew hput
    obtain ⟨sess, hg, rfl⟩ := Option.map_eq_some_iff.mp hfh
    rw [← hsame sess hg]
    exact (still_touchIf fun t => by simp).mp (h sess hg hnew hput) hc
  · intro h sess hg hnew hput
    refine (still_touchIf fun t => by simp).mpr fun hc => ?_
    refine (hsame sess hg).trans (h hc sess.nextFh ?_ hnew hput)
    exact Option.map_eq_some_iff.mpr ⟨sess, hg, rfl⟩

theorem still_newInode {β : Type} {e : Env} {ft : Faults} {name : Bytes}
    {g : RawInode → Txn Server CleErrCodes β} {s : Server} :
    Still (newInode e ft name >>= g) s ↔
      (ft .inodeNew = false → ∀ inum rnd, inumSearch e.rand s.db 100000 s.rnd = (some inum, rnd) →
        Still (g (cldbInodeMem s.currentTime name 0 inum)) { s with rnd }) := by
  cases hnew : ft .inodeNew with
  | true =>
    have hrun : newInode e ft name s = (.error .oom, s) := by simp [newInode, hnew]
    simp [Still, Txn.bind_stop hrun]
  | false =>
    rcases hs : inumSearch e.rand s.db 100000 s.rnd with ⟨_ | inum, rnd⟩
    · have hrun : newInode e ft name s = (.error .oom, { s with rnd }) := by
        simp [newInode, hnew, cldbInodeNew, hs]
      simp [Still, Txn.bind_stop hrun]
    · have hrun : newInode e ft name s =
          (.ok (cldbInodeMem s.currentTime name 0 inum), { s with rnd }) := by
        simp [newInode, hnew, cldbInodeNew, hs]
      rw [Still, Txn.bind_run hrun]
      constructor
      · intro h _ inum' rnd' heq
        cases heq
        exact h
      · exact fun h => h rfl inum rnd rfl

/-- The data of the parent is read unless the call fails. -/
theorem parentData_ok (ft : Faults) (db : Cldb) (inum : Inum) :
    (∃ data, (match cldbDataGet ft db inum with
      | .error .notfound => .ok []
      | r => r : Except Rc Bytes) = .ok data) ↔ ft .dataGet = false := by
  unfold cldbDataGet Faults.guard
  cases ft .dataGet with
  | true => simp
  | false => cases db.data.get inum <;> simp [found]

theorem msgOpenFind_none {ft : Faults} {m : CldMsgOpen} {s t : Server} :
    msgOpenFind ft m s = (.ok none, t) ↔
      validInodeName m.inodeName.bytes = true ∧ has m.mode comCreate = true ∧
        2 ≤ m.inodeName.bytes.length ∧
        cldbInodeGetByname ft 0 s.db m.inodeName.bytes = .error .notfound ∧ s = t := by
  constructor
  · intro h
    obtain ⟨ht, hv, -, -, hnone⟩ := msgOpenFind_ok h
    obtain ⟨hlong, hcreate⟩ := hnone rfl
    refine ⟨hv, hcreate, hlong, ?_, ht⟩
    simp only [msgOpenFind, Txn.bind_ok, Txn.onErr_ok, Txn.failIf_ok, Txn.pure_ok, dbGet_ok] at h
    obtain ⟨_, _, ⟨-, rfl⟩, inode, _, ⟨hget, rfl⟩, _, _, -, _, _, -, _, _, -, rfl, -⟩ := h
    split at hget
    · cases hget
    · assumption
    · cases hget
  · rintro ⟨hv, hcreate, hlong, hget, rfl⟩
    simp only [msgOpenFind, Txn.bind_ok, Txn.onErr_ok, Txn.failIf_ok, Txn.pure_ok, dbGet_ok]
    refine ⟨⟨⟩, s, ⟨by simp [hv, hcreate]; omega, rfl⟩, none, s, ⟨by rw [hget], rfl⟩, ⟨⟩, s,
      ⟨by simp [hcreate], rfl⟩, ⟨⟩, s, ⟨by simp, rfl⟩, ⟨⟩, s, ⟨by simp, rfl⟩, rfl, rfl⟩

theorem msgOpenCreate_still (e : Env) (ft : Faults) (sid : Sid) (m : CldMsgOpen) (name : Bytes)
    (doDir : Bool) (s : Server) :
    Still (msgOpenCreate e ft name doDir >>= msgOpenStore e ft sid m true) s ↔ 
      UnheardCreate e ft sid s m name := by
  unfold UnheardCreate
  have hstore : ∀ ino, Txn.Keeps (fun s t : Server => s.sent <+: t.sent)
      (pure ino >>= msgOpenStore e ft sid m true) :=
    fun ino s => (msgOpenStore_end e ft sid m true ino s).1.sent_grows
  simp only [msgOpenCreate, Txn.bind_assoc, still_newInode, still_dbGet, still_failIf, cldbDataPut,
    still_dbWrite]
  refine imp_congr_right fun _ => forall_congr' fun inum => forall_congr' fun rnd =>
    imp_congr_right fun _ => forall_congr' fun parent => imp_congr_right fun _ => ?_
  rw [← parentData_ok ft s.db parent.inum, exists_imp]
  refine forall_congr' fun data => imp_congr_right fun _ => imp_congr_right fun _ =>
    imp_congr_right fun _ => ?_
  rw [still_inodeTouch (hstore _)]
  refine and_congr_right fun _ => imp_congr_right fun _ => imp_congr_right fun _ => ?_
  refine (msgOpenStore_still e ft sid m true _ _).trans ⟨fun h => ?_, fun h _ => ?_⟩
  · have hopen := h rfl
    cases doDir <;> exact hopen
  · cases doDir <;> exact h

theorem msgOpenTxn_still (e : Env) (ft : Faults) (sid : Sid) (m : CldMsgOpen) (s : Server) :
    Still (msgOpenTxn e ft sid m) s ↔
      (validInodeName m.inodeName.bytes = true → has m.mode comCreate = true →
        2 ≤ m.inodeName.bytes.length →
        cldbInodeGetByname ft 0 s.db m.inodeName.bytes = .error .notfound →
        UnheardCreate e ft sid s m m.inodeName.bytes) := by
  rw [← msgOpenCreate_still e ft sid m _ (has m.mode comDirectory), msgOpenTxn,
    still_bind (msgOpenFind_keeps _ ft m)]
  constructor
  · intro h hv hcreate hlong hget
    exact h none s (msgOpenFind_none.mpr ⟨hv, hcreate, hlong, hget, rfl⟩)
  · intro h found t hfind
    cases found with
    | some ino =>
      refine (msgOpenStore_still e ft sid m false ino t).mpr fun hc => ?_
      cases hc
    | none =>
      obtain ⟨hv, hcreate, hlong, hget, rfl⟩ := msgOpenFind_none.mp hfind
      exact h hv hcreate hlong hget

/-! ## Requests that fail -/

/-- The messages sent from `s` to `t`. -/
def sentSince (s t : Server) : List Sent := t.sent.drop s.sent.length

/-- A request of session `sid` was answered with an error. -/
def Failed (sid : Sid) (s t : Server) : Prop :=
  ∃ op code xid, ⟨sid, op, .genericResp code xid⟩ ∈ sentSince s t ∧ code.Fault

/-- The database is as it was, and no event was sent. -/
def NoEffect (s t : Server) : Prop := t.db = s.db ∧ ∀ m ∈ sentSince s t, ¬ IsEvent m

theorem inTxn_sent {ε α : Type} (ft : Faults) (dbErr : ε) (body : Txn Server ε α) (s : Server) :
    (inTxn ft dbErr body s).2.sent = s.sent ↔ (ft .txnBegin = false → Still body s) := by
  unfold inTxn Still
  cases ft .txnBegin with
  | true => simp
  | false =>
    rcases body s with ⟨code | a, t⟩
    · simp
    · cases ft .commit <;> simp

theorem answers_not_event {sid : Sid} {xid : Nat} {m : Sent} (h : m.answers sid xid = true) :
    ¬ IsEvent m := by
  rintro ⟨sid', fh, ev, rfl⟩
  simp [Sent.answers] at h

/-- A handler whose reply is an error has had no effect, unless its transaction has sent an event. -/
theorem Ends.noEffect_iff {α : Type} {P : Sent → Prop} {ft : Faults}
    {body : Txn Server CleErrCodes α} {sid : Sid} {sess : Session} {s t : Server}
    (h : Ends sid sess (inTxn ft .dbErr body s) t)
    (hf : SessFrame P s (inTxn ft .dbErr body s).2) (hP : ∀ m, P m → IsEvent m)
    (hfail : Failed sid s t) : NoEffect s t ↔ (ft .txnBegin = false → Still body s) := by
  obtain ⟨m, hsent, hm, hfault⟩ := h.reply
  obtain ⟨told, htold, hev⟩ := hf.sent
  have hnew : sentSince s t = told ++ [m] := by
    rw [sentSince, hsent, htold, List.append_assoc, List.drop_left]
  -- The error is the last message, so the transaction had one.
  obtain ⟨op, code, xid, hmem, hcode⟩ := hfail
  rw [hnew, List.mem_append, List.mem_singleton] at hmem
  have hlast : ⟨sid, op, .genericResp code xid⟩ = m := by
    refine hmem.resolve_left fun hin => ?_
    obtain ⟨sid', fh, ev, he⟩ := hP _ (hev _ hin)
    cases he
  obtain ⟨c, hc⟩ := hfault op code xid hlast.symm hcode
  have hdb : t.db = s.db := h.db.trans (inTxn_error' (Prod.ext hc rfl))
  rw [← inTxn_sent ft .dbErr, NoEffect, hnew, htold]
  simp only [hdb, true_and, List.append_right_eq_self]
  constructor
  · intro hnone
    cases told with
    | nil => rfl
    | cons x told => exact absurd (hP x (hev x (by simp))) (hnone x (by simp))
  · rintro rfl x hx
    rw [List.nil_append, List.mem_singleton] at hx
    rw [hx]
    exact answers_not_event hm

theorem respond_noEffect_iff (e : Env) (ft : Faults) {P : Sent → Prop}
    {body : Txn Server CleErrCodes PUnit} (hk : Txn.Keeps (Frame P) body) (hP : ∀ m, P m → IsEvent m)
    {sid : Sid} {sess : Session} {s : Server} (hg : s.sessions.get sid = some sess)
    (hfail : Failed sid s (respond e sid (inTxn ft .dbErr body s))) :
    NoEffect s (respond e sid (inTxn ft .dbErr body s)) ↔ (ft .txnBegin = false → Still body s) := by
  have hf := (inTxn_keeps ft CleErrCodes.dbErr hk s).toSessFrame
  exact (respond_ends e ft hf hg).noEffect_iff hf hP hfail

theorem handle_noEffect_iff (e : Env) (ft : Faults) {req : Request} (hreq : ∀ fh, req ≠ .get fh)
    {sid : Sid} {sess : Session} {s : Server} (hg : s.sessions.get sid = some sess)
    (hfail : Failed sid s (req.handle e ft sid s)) :
    NoEffect s (req.handle e ft sid s) ↔ Unheard e ft sid s req := by
  cases req with
  | get fh => exact absurd rfl (hreq fh)
  | «open» m =>
    refine ((msgOpen_ends e ft m hg).noEffect_iff (msgOpenTxn_frame e ft sid m s)
      (fun _ h => h.isEvent) hfail).trans ?_
    exact imp_congr_right fun _ => msgOpenTxn_still e ft sid m s
  | put m =>
    refine (respond_noEffect_iff e ft (msgPutTxn_keeps e ft sid m) (fun _ h => h.isEvent) hg
      hfail).trans ?_
    exact imp_congr_right fun _ => msgPutTxn_still e ft sid m s
  | close n =>
    refine (respond_noEffect_iff e ft (msgCloseTxn_keeps e ft sid n) (fun _ h => h.isEvent) hg
      hfail).trans ?_
    exact imp_congr_right fun _ => msgCloseTxn_still e ft sid n s
  | del name =>
    simp only [Request.handle, msgDel] at hfail ⊢
    split at hfail
    · next hname =>
      rw [if_pos hname]
      refine iff_of_true ⟨(sessSendrespGeneric_frame ..).db, fun m hm => ?_⟩ fun _ hv hlong => ?_
      · rw [sentSince, sessSendrespGeneric_sent e _ hg, List.drop_left, List.mem_singleton] at hm
        rw [hm]
        rintro ⟨_, _, _, he⟩
        cases congrArg Sent.msg he
      · simp [hv] at hname
        omega
    · next hname =>
      rw [if_neg hname]
      simp only [Bool.or_eq_true, Bool.not_eq_true', decide_eq_true_eq, not_or, Bool.not_eq_false,
        not_lt] at hname
      refine (respond_noEffect_iff e ft (msgDelTxn_keeps e ft name.bytes) (fun _ h => h.isEvent) hg
        hfail).trans ?_
      refine imp_congr_right fun _ => (msgDelTxn_still e ft name.bytes s).trans ?_
      exact ⟨fun h _ _ => h, fun h => h hname.1 hname.2⟩
  | unlock n =>
    refine (respond_noEffect_iff e ft (msgUnlockTxn_keeps ft sid n) (fun _ h => h.elim) hg hfail).trans ?_
    exact iff_of_true (fun _ => (msgUnlockTxn_keeps ft sid n s).sent_eq) fun _ => trivial
  | lock n flags =>
    have hk := msgLockTxn_keeps ft sid n flags (sess.msgOp = .lock)
    refine ((msgLock_ends e ft n flags hg).noEffect_iff
      (inTxn_keeps ft CleErrCodes.dbErr hk s).toSessFrame (fun _ h => h.elim) hfail).trans ?_
    exact iff_of_true (fun _ => (hk s).sent_eq) fun _ => trivial

/-- The server when the session of a packet has taken it in. -/
def Op.arrived (s : Server) : Op → Server
  | .rx fd _ pkt seqid chunk _ =>
    match getPktInfo s pkt seqid with
    | none => s
    | some info => (s.arrive fd info chunk).2
  | _ => s

/-- A step that handles a request. -/
theorem step_handles (e : Env) {s : Server} {op : Op} {sid : Sid} {req : Request}
    (h : op.request s = some (sid, req)) :
    ∃ sess hd, (op.arrived s).sessions.get sid = some sess ∧ (op.arrived s).db = s.db ∧
      (op.arrived s).sent = s.sent ∧
      s.step e op = req.handle e op.faults sid ((op.arrived s).note hd) := by
  cases op with
  | tick now => cases h
  | timeout sid now ft => cases h
  | rx fd addr pkt seqid chunk ft =>
    simp only [Op.request, Option.bind_eq_bind, Option.bind_eq_some_iff] at h
    obtain ⟨info, hinfo, _, hval, h⟩ := h
    have hval : validatePktSession s info addr = .ok := by simpa [guard] using hval
    have harr := arrive_idle s fd info chunk
    have hsent := arrive_sent s fd info chunk
    rcases hv : s.arrive fd info chunk with ⟨fits, v⟩
    rw [hv] at harr hsent
    simp only [PktInfo.request, hv, Option.bind_eq_bind, Option.bind_eq_some_iff, Option.pure_def,
      Option.some.injEq, Prod.mk.injEq] at h
    obtain ⟨_, hguard, sess, hg, dec, hdec, ⟨r, rest⟩, hbody, rfl, rfl⟩ := h
    have hguard : (fits && info.pkt.mi.isLast) = true := by simpa [guard] using hguard
    obtain ⟨rfl, hlast⟩ := Bool.and_eq_true_iff.mp hguard
    have harrived : (Op.rx fd addr pkt seqid chunk ft).arrived s = v := by
      simp only [Op.arrived, hinfo, hv]
    rw [harrived]
    refine ⟨sess, .request sess.sid info.seqid info.op info.xid sess.msgBuf, by rwa [get_sid hg],
      harr.db, hsent, ?_⟩
    simp only [Server.step, hinfo, hval, if_true, tcpRx, hv, hlast, Bool.not_true,
      Bool.false_eq_true, if_false, dispatch_of_decode hdec, tcpRxHandle, hg, hbody, Op.faults]

/-- In every state that is reached, a request that is answered with an error has no effect, if and
only if it tells nobody before it fails. -/
theorem run_noEffect_iff (e : Env) (now : Nat) (ops : List Op) (op : Op) {sid : Sid} {req : Request}
    (hr : op.request (run (Server.step e) (.init now) ops) = some (sid, req))
    (hreq : ∀ fh, req ≠ .get fh)
    (hfail : Failed sid (run (Server.step e) (.init now) ops)
      ((run (Server.step e) (.init now) ops).step e op)) :
    NoEffect (run (Server.step e) (.init now) ops) ((run (Server.step e) (.init now) ops).step e op) ↔
      Unheard e op.faults sid (op.arrived (run (Server.step e) (.init now) ops)) req := by
  generalize run (Server.step e) (.init now) ops = s at hr hfail ⊢
  obtain ⟨sess, hd, hg, hdb, hsent, hstep⟩ := step_handles e hr
  have hsince : ∀ t, sentSince ((op.arrived s).note hd) t = sentSince s t := fun t =>
    congrArg (fun l => t.sent.drop (List.length l)) hsent
  have hfail' : Failed sid ((op.arrived s).note hd) (s.step e op) := by
    unfold Failed
    rw [hsince]
    exact hfail
  have hsame : NoEffect ((op.arrived s).note hd) (s.step e op) ↔ NoEffect s (s.step e op) := by
    unfold NoEffect
    rw [hsince, show ((op.arrived s).note hd).db = s.db from hdb]
  rw [← hsame]
  rw [hstep] at hfail' ⊢
  exact handle_noEffect_iff e op.faults hreq hg hfail'

/-- A session makes a file, and wants to hear of its updates. -/
def watchedFile : List Op :=
  [.newSess 1, .msg 1 .open (Xdr.putInt (comWrite ||| comCreate) ++ Xdr.putInt ceUpdated ++
    (Xdr.putVar cldInodeNameMax [slash, 0x61]).getD [])]

/-- The file is written, but the transaction cannot be committed. -/
def uncommittedPut : Op :=
  .rx 5 [] (pktHdr 1 User.cli.name (.firstLast 0 .put)) 0
    (Xdr.putHyper 2 ++ (Xdr.putVar cldMaxPayloadSz [1]).getD []) fun c => c = .commit

theorem run_noEffect_iff_badHandle :
    NoEffect (run (Server.step .plain) (.init 0) watchedFile)
      ((run (Server.step .plain) (.init 0) watchedFile).step .plain (.put 1 3 [1])) := by
  have hr : (Op.put 1 3 [1]).request (run (Server.step .plain) (.init 0) watchedFile) =
      some (1, .put ⟨3, [1], by decide⟩) := by
    decide +kernel
  have hnone : ((Op.put 1 3 [1]).arrived
      (run (Server.step .plain) (.init 0) watchedFile)).db.handles.get (1, 3) = none := by
    decide +kernel
  have hreply : sentSince (run (Server.step .plain) (.init 0) watchedFile)
      ((run (Server.step .plain) (.init 0) watchedFile).step .plain (.put 1 3 [1])) =
      [⟨1, .put, .genericResp .fhInval 0⟩] := by
    decide +kernel
  refine (run_noEffect_iff .plain 0 watchedFile (.put 1 3 [1]) hr nofun ?_).mpr fun _ h hh => ?_
  · exact ⟨.put, .fhInval, 0, by rw [hreply]; exact List.mem_singleton_self _, nofun, nofun⟩
  · have hget := found_ok.mp (Faults.guard_ok.mp hh).2
    rw [hnone] at hget
    cases hget

/-- The writer is told that the write failed, and also that the file was updated. -/
theorem uncommittedPut_heard :
    (uncommittedPut.request (run (Server.step .plain) (.init 0) watchedFile)).isSome = true ∧
      Failed 1 (run (Server.step .plain) (.init 0) watchedFile)
        ((run (Server.step .plain) (.init 0) watchedFile).step .plain uncommittedPut) ∧
      ¬ NoEffect (run (Server.step .plain) (.init 0) watchedFile)
        ((run (Server.step .plain) (.init 0) watchedFile).step .plain uncommittedPut) := by
  have hreply : sentSince (run (Server.step .plain) (.init 0) watchedFile)
      ((run (Server.step .plain) (.init 0) watchedFile).step .plain uncommittedPut) =
      [⟨1, .event, .event 2 ceUpdated⟩, ⟨1, .put, .genericResp .dbErr 0⟩] := by
    decide +kernel
  refine ⟨by decide +kernel, ⟨.put, .dbErr, 0, by rw [hreply]; simp, nofun, nofun⟩, fun h => ?_⟩
  exact h.2 ⟨1, .event, .event 2 ceUpdated⟩ (by rw [hreply]; simp) ⟨1, 2, ceUpdated, rfl⟩

end Hail.Cld
