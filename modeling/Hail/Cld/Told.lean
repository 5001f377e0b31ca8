import Hail.Cld.Step

/-!
# What the owners of locks are told

The messages a step sends, as far as they concern locks: the reply to a lock, unlock or close
request, and the events of a rescan.
-/
namespace Hail.Cld

open Library

theorem Silent.sent_eq {s t : Server} (h : Silent s t) : t.sent = s.sent := by
  obtain ⟨told, ht, hf⟩ := h.sent
  cases told with
  | nil => simpa using ht
  | cons m told => exact (hf m (by simp)).elim

/-- The reply that session `sess` gets to its current message. -/
def Session.reply (sess : Session) (code : CleErrCodes) : Sent :=
  ⟨sess.sid, sess.msgOp, .genericResp code sess.msgXid⟩

theorem reply_told (e : Env) {P : Sent → Prop} {s t : Server} {sid : Sid} {sess : Session}
    (hs : s.sessions.get sid = some sess) (hf : SessFrame P s t) (ht : t.sent = s.sent)
    (code : CleErrCodes) :
    (sessSendrespGeneric e t sid code).sent = s.sent ++ [sess.reply code] := by
  obtain ⟨sess', hg, hc⟩ := hf.get' hs
  have hop : sess'.core.msgOp = sess.core.msgOp := by rw [hc]
  have hxid : sess'.core.msgXid = sess.core.msgXid := by rw [hc]
  change sess'.msgOp = sess.msgOp at hop
  change sess'.msgXid = sess.msgXid at hxid
  rw [sessSendrespGeneric_sent e code hg, ht, hop, hxid, Session.reply, get_sid hs]

/-- A silent transaction is answered with one reply, `CLE_OK` if and only if it was committed. -/
theorem respond_told (e : Env) (ft : Faults) {sid : Sid} {body : Txn Server CleErrCodes PUnit}
    {s : Server} {sess : Session} (hs : s.sessions.get sid = some sess)
    (hsil : Silent s (body s).2) (hfail : Txn.FailsWith CleErrCodes.Fault body) :
    ∃ code, (respond e sid (inTxn ft .dbErr body s)).sent = s.sent ++ [sess.reply code] ∧
      (code.Fault ∧ (respond e sid (inTxn ft .dbErr body s)).db = s.db ∨
        code = .ok ∧ ∃ u t, body s = (.ok u, t) ∧
          (respond e sid (inTxn ft .dbErr body s)).db = t.db) := by
  unfold respond
  split
  · next code t ht =>
    have hframe : Silent s t := by
      rcases (inTxn_error ht).2 with h | h
      · rw [h]
        exact .refl _ s
      · rw [h]
        exact hsil.setDb s.db
    refine ⟨code, reply_told e hs hframe.toSessFrame hframe.sent_eq code, .inl ⟨?_, ?_⟩⟩
    · exact inTxn_fails ft hfail s code t ht
    · rw [(sessSendrespGeneric_frame e t sid code).db, inTxn_error' ht]
  · next u t ht =>
    have hbody := (inTxn_ok.mp ht).2.2
    rw [hbody] at hsil
    refine ⟨.ok, reply_told e hs hsil.toSessFrame hsil.sent_eq .ok, .inr ⟨rfl, u, t, hbody, ?_⟩⟩
    rw [(sessSendrespGeneric_frame e t sid .ok).db]

theorem msgLock_told (e : Env) (ft : Faults) {sid : Sid} (n flags : Nat) {s : Server}
    {sess : Session} (hs : s.sessions.get sid = some sess) :
    ∃ code, (msgLock e ft sid n flags s).sent = s.sent ++ [sess.reply code] ∧
      (code.Fault ∧ (msgLock e ft sid n flags s).db = s.db ∨
        ∃ acquired h wait, code = (if acquired then .ok else .lockPending) ∧
          s.db.handles.get (sid, n) = some h ∧
          cldbLockAdd ft s.currentTime s.db sid n h.inum (has flags clfShared) wait =
            .ok ((msgLock e ft sid n flags s).db, acquired)) := by
  have hkeep := msgLockTxn_keeps ft sid n flags (decide (sess.msgOp = .lock))
  unfold msgLock
  rw [hs]
  dsimp only
  split
  · next code t ht =>
    have hframe : Silent s t := (inTxn_keeps ft CleErrCodes.dbErr hkeep).run ht
    refine ⟨code, reply_told e hs hframe.toSessFrame hframe.sent_eq code, .inl ⟨?_, ?_⟩⟩
    · exact inTxn_fails ft (msgLockTxn_fails ft sid n flags (decide (sess.msgOp = .lock))) s code t ht
    · rw [(sessSendrespGeneric_frame e t sid code).db, inTxn_error' ht]
  · next acquired t ht =>
    have hframe : Silent s t := (inTxn_keeps ft CleErrCodes.dbErr hkeep).run ht
    obtain ⟨h, hh, -, hadd⟩ := msgLockTxn_ok (inTxn_ok.mp ht).2.2
    refine ⟨_, reply_told e hs hframe.toSessFrame hframe.sent_eq _,
      .inr ⟨acquired, h, decide (sess.msgOp = .lock), rfl, hh, ?_⟩⟩
    rwa [(sessSendrespGeneric_frame ..).db]

/-- Messages of this kind are all that is sent between two states. -/
def Tells (P : Sent → Prop) (s t : Server) : Prop :=
  ∃ told, t.sent = s.sent ++ told ∧ ∀ m ∈ told, P m

theorem Tells.trans {P : Sent → Prop} {s t u : Server} (h : Tells P s t) (g : Tells P t u) :
    Tells P s u := by
  obtain ⟨l, hl, hP⟩ := h
  obtain ⟨k, hk, hQ⟩ := g
  exact ⟨l ++ k, by rw [hk, hl, List.append_assoc], fun m hm =>
    (List.mem_append.mp hm).elim (hP m) (hQ m)⟩

theorem Tells.mono {P Q : Sent → Prop} {s t : Server} (h : Tells P s t) (hPQ : ∀ m, P m → Q m) :
    Tells Q s t :=
  h.imp fun _ hl => ⟨hl.1, fun m hm => hPQ m (hl.2 m hm)⟩

theorem reply_tells (e : Env) (s : Server) (sid : Sid) (code : CleErrCodes) :
    Tells NotLocked s (sessSendrespGeneric e s sid code) :=
  ((sessSendrespGeneric_frame e s sid code).mono fun _ hm => hm.notLocked).sent

theorem respond_tells (e : Env) (ft : Faults) (sid : Sid) {body : Txn Server CleErrCodes PUnit}
    (h : Txn.Keeps (Frame IsNotice) body) (s : Server) :
    Tells NotLocked s (respond e sid (inTxn ft .dbErr body s)) := by
  have hk : Tells NotLocked s (inTxn ft .dbErr body s).2 :=
    ((inTxn_keeps ft CleErrCodes.dbErr h s).mono fun _ hm => hm.notLocked).sent
  unfold respond
  split
  · next ht =>
    rw [ht] at hk
    exact hk.trans (reply_tells ..)
  · next ht =>
    rw [ht] at hk
    exact hk.trans (reply_tells ..)

/-- Requests about locks. -/
def Request.aboutLocks : Request → Bool
  | .lock .. | .unlock _ | .close _ => true
  | _ => false

/-- The other requests announce no lock. -/
theorem handle_tells (e : Env) (ft : Faults) (sid : Sid) {req : Request}
    (h : req.aboutLocks = false) (s : Server) : Tells NotLocked s (req.handle e ft sid s) := by
  cases req with
  | get n => exact (msgGet_frame e ft sid n s).sent
  | «open» m =>
    have htxn : Tells NotLocked s (inTxn ft .dbErr (msgOpenTxn e ft sid m) s).2 := by
      rcases inTxn_end ft .dbErr (msgOpenTxn e ft sid m) s with h | ⟨db, h⟩
      · rw [h]
        exact (Frame.refl _ s).sent
      · rw [h]
        exact ((msgOpenTxn_end e ft sid m s).1.mono fun _ hm => hm.notLocked).sent
    simp only [Request.handle, msgOpen]
    split
    · next ht =>
      rw [ht] at htxn
      exact htxn.trans (reply_tells ..)
    · next fh t ht =>
      rw [ht] at htxn
      split
      · exact htxn
      · next sess hg =>
        refine htxn.trans ((sessSendmsg_frame e t sid (.openResp .ok sess.msgXid fh)
          .open).mono ?_).sent
        rintro m rfl ⟨sid', fh', he⟩
        cases he
  | put m => exact respond_tells e ft sid (msgPutTxn_keeps e ft sid m) s
  | del name =>
    simp only [Request.handle, msgDel]
    split
    · exact reply_tells ..
    · exact respond_tells e ft sid (msgDelTxn_keeps e ft name.bytes) s
  | close | unlock | lock => simp [Request.aboutLocks] at h

end Hail.Cld
