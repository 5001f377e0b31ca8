import Hail.Cld.Cldb
import Hail.Cld.Pkt

/-!
# The state of the CLD server

Sessions in memory, the database, and what has been sent. Sending touches nothing but the output
queue and the outgoing sequence number of a session; `Frame` says so and lists what was sent.
-/
namespace Hail.Cld

open Library

/-- Called when a queued packet is acknowledged. -/
inductive DoneCb where
  | none | sessionPingDone | endSessDone
  deriving DecidableEq, Repr

/-- `struct session_outpkt`. -/
structure OutPkt where
  pktData : Bytes
  nextRetry : Nat
  doneCb : DoneCb
  deriving DecidableEq, Repr

/-- `struct session`; `msgBuf` holds the `msg_buf_len` bytes of the message so far. A session is
made of a packet that passed `pkt_chk_sig`, so its user has a key. -/
structure Session where
  sid : Sid
  sockFd : Nat
  addr : Bytes
  user : User
  lastContact : Nat
  nextFh : Nat
  nextSeqidIn : Nat
  nextSeqidOut : Nat
  outQ : List OutPkt
  pingOpen : Bool
  dead : Bool
  msgOp : CldMsgOp
  msgXid : Nat
  msgBuf : Bytes
  deriving DecidableEq, Repr

/-- A message handed to a session. -/
structure Sent where
  sid : Sid
  op : CldMsgOp
  msg : ServerMsg
  deriving DecidableEq, Repr

/-- A complete message as `tcp_rx` hands it to its handler, with the sequence number of its last
packet. -/
inductive Handled where
  | request (sid : Sid) (seqid : Nat) (op : CldMsgOp) (xid : Nat) (body : Bytes)
  | ack (sid : Sid) (seqid : Nat)
  deriving DecidableEq, Repr

/-- `rnd` counts the calls of `rand`; `sent`, `tx` and `handled` are the history of the messages
queued by `sess_sendmsg`, of the packets given to `tcp_tx` with their socket, and of the messages
handled. -/
structure Server where
  db : Cldb
  sessions : Table Session.sid
  currentTime : Nat
  isMaster : Bool
  up : Bool
  rnd : Nat
  garbage : Nat
  sent : List Sent
  tx : List (Nat × Bytes)
  handled : List Handled

def cldRetryStart : Nat := 2

def Server.putSess (srv : Server) (sess : Session) : Server :=
  { srv with sessions := srv.sessions.put unordered sess }

def Server.setDb (srv : Server) (db : Cldb) : Server := { srv with db }

section

variable (srv : Server) (db db' : Cldb)

@[simp] theorem Server.setDb_db : (srv.setDb db).db = db := rfl
@[simp] theorem Server.setDb_sessions : (srv.setDb db).sessions = srv.sessions := rfl
@[simp] theorem Server.setDb_time : (srv.setDb db).currentTime = srv.currentTime := rfl
@[simp] theorem Server.setDb_sent : (srv.setDb db).sent = srv.sent := rfl
@[simp] theorem Server.setDb_setDb : (srv.setDb db).setDb db' = srv.setDb db' := rfl

end

/-- The end of `sess_sendmsg`: the packets are sent and kept for retransmission. -/
def Server.queue (srv : Server) (sess : Session) (m : Sent) (doneCb : DoneCb) (pkts : List Bytes) :
    Server :=
  { srv.putSess { sess with
      nextSeqidOut := (sess.nextSeqidOut + pkts.length) % 2 ^ 64
      outQ := sess.outQ ++ pkts.map (⟨·, srv.currentTime + cldRetryStart, doneCb⟩) } with
    rnd := srv.rnd + 2
    sent := srv.sent ++ [m]
    tx := srv.tx ++ pkts.map (sess.sockFd, ·) }

/-- `sess_sendmsg`, with whether it succeeded. A signature that cannot be made is noticed when the
first sequence number has been used. -/
def sessSendmsg (e : Env) (srv : Server) (sid : Sid) (msg : ServerMsg) (op : CldMsgOp)
    (doneCb : DoneCb) : Bool × Server :=
  match srv.sessions.get sid, msg.encode with
  | some sess, some body =>
    if cldMaxMsgSz < body.length then (false, srv)
    else
      match sessPkts e sid sess.user.name sess.nextSeqidOut (cldRand64 e srv.rnd) op body with
      | none =>
        (false, { srv.putSess { sess with nextSeqidOut := (sess.nextSeqidOut + 1) % 2 ^ 64 } with
          rnd := srv.rnd + 2 })
      | some pkts => (true, srv.queue sess ⟨sid, op, msg⟩ doneCb (pkts.map (·.1.data)))
  | _, _ => (false, srv)

def sessSendrespGeneric (e : Env) (srv : Server) (sid : Sid) (code : CleErrCodes) : Server :=
  match srv.sessions.get sid with
  | none => srv
  | some sess => (sessSendmsg e srv sid (.genericResp code sess.msgXid) sess.msgOp .none).2

/-! ## Sending changes nothing else -/

/-- A session apart from what requests change in it: the numbers of the next handle and the next
packet, and the packets not yet acknowledged, except for those whose acknowledgement is its end. -/
def Session.core (sess : Session) : Session :=
  { sess with
    nextFh := 0
    nextSeqidOut := 0
    outQ := sess.outQ.filter fun p => p.doneCb = .endSessDone }

/-- The number the next handle of a session gets. -/
def Server.nextFh (srv : Server) (sid : Sid) : Option Nat := (srv.sessions.get sid).map Session.nextFh

/-- A packet to session `sid` of a message with this operation, numbered `n`. -/
def OutPkt.Carries (sid : Sid) (op : CldMsgOp) (n : Nat) (p : OutPkt) : Prop :=
  ∃ (e : Env) (u : User) (xid : Nat) (first last : Bool) (chunk : Bytes) (seqid : Nat),
    p.pktData = rawPkt e u.name (hdrBytes sid u (pktMi xid op first last)) chunk seqid ∧
      xid < 2 ^ 64 ∧ seqid % 2 ^ 64 = n % 2 ^ 64

/-- From `sess` to `sess'`, packets of messages that satisfy `P` are queued, with the numbers from the
next one on. -/
def Queues (P : Sent → Prop) (sess sess' : Session) : Prop :=
  ∃ pkts : List OutPkt, sess'.outQ = sess.outQ ++ pkts ∧
    sess'.nextSeqidOut % 2 ^ 64 = (sess.nextSeqidOut + pkts.length) % 2 ^ 64 ∧
    ∀ (i : Nat) (p : OutPkt), pkts[i]? = some p →
      ∃ m, P m ∧ p.Carries sess.sid m.op (sess.nextSeqidOut + i)

/-- Apart from the database, nothing changes but what requests change in sessions, and messages that
satisfy `P` are sent. -/
structure SessFrame (P : Sent → Prop) (s t : Server) : Prop where
  time : t.currentTime = s.currentTime
  isMaster : t.isMaster = s.isMaster
  up : t.up = s.up
  handled : t.handled = s.handled
  core : ∀ sid, (t.sessions.get sid).map Session.core = (s.sessions.get sid).map Session.core
  queued : ∀ sid sess sess', s.sessions.get sid = some sess → t.sessions.get sid = some sess' →
    Queues P sess sess'
  sent : ∃ told, t.sent = s.sent ++ told ∧ ∀ m ∈ told, P m

/-- The same, and no handle number is taken. -/
structure Frame (P : Sent → Prop) (s t : Server) : Prop extends SessFrame P s t where
  nextFh : ∀ sid, t.nextFh sid = s.nextFh sid

/-- Nothing but what sending changes. -/
structure SendFrame (P : Sent → Prop) (s t : Server) : Prop extends Frame P s t where
  db : t.db = s.db

section

variable {P Q : Sent → Prop} {s t u : Server}

theorem Queues.of_eq {sess sess' : Session} (hq : sess'.outQ = sess.outQ)
    (hn : sess'.nextSeqidOut = sess.nextSeqidOut) : Queues P sess sess' :=
  ⟨[], by simp [hq], by simp [hn], by simp⟩

theorem Queues.mono {sess sess' : Session} (h : Queues P sess sess') (hPQ : ∀ m, P m → Q m) :
    Queues Q sess sess' := by
  obtain ⟨pkts, hq, hn, hp⟩ := h
  refine ⟨pkts, hq, hn, fun i p hi => ?_⟩
  obtain ⟨m, hm, hc⟩ := hp i p hi
  exact ⟨m, hPQ m hm, hc⟩

theorem OutPkt.Carries.congr {sid : Sid} {op : CldMsgOp} {n n' : Nat} {p : OutPkt}
    (h : p.Carries sid op n) (hn : n % 2 ^ 64 = n' % 2 ^ 64) : p.Carries sid op n' := by
  obtain ⟨e, u, xid, first, last, chunk, seqid, hraw, hxid, hseqid⟩ := h
  exact ⟨e, u, xid, first, last, chunk, seqid, hraw, hxid, hseqid.trans hn⟩

theorem Queues.trans {a b c : Session} (hab : Queues P a b) (hbc : Queues P b c)
    (hsid : b.sid = a.sid) : Queues P a c := by
  obtain ⟨ps, hq, hn, hp⟩ := hab
  obtain ⟨qs, hq', hn', hp'⟩ := hbc
  refine ⟨ps ++ qs, by rw [hq', hq, List.append_assoc], ?_, fun i p hi => ?_⟩
  · rw [List.length_append]
    omega
  · rw [List.getElem?_append] at hi
    split at hi
    · exact hp i p hi
    · -- what is queued second follows the numbers of what is queued first
      obtain ⟨m, hm, hc⟩ := hp' _ p hi
      exact ⟨m, hm, hsid ▸ hc.congr (by omega)⟩

theorem SessFrame.refl (P : Sent → Prop) (s : Server) : SessFrame P s s where
  time := rfl
  isMaster := rfl
  up := rfl
  handled := rfl
  core _ := rfl
  queued sid sess sess' h h' := by
    obtain rfl : sess = sess' := Option.some.inj (h.symm.trans h')
    exact .of_eq rfl rfl
  sent := ⟨[], by simp, by simp⟩

theorem SessFrame.trans (h : SessFrame P s t) (g : SessFrame P t u) : SessFrame P s u where
  time := g.time.trans h.time
  isMaster := g.isMaster.trans h.isMaster
  up := g.up.trans h.up
  handled := g.handled.trans h.handled
  core sid := (g.core sid).trans (h.core sid)
  queued sid sess sess' hs hu := by
    have hc := h.core sid
    rw [hs, Option.map_some, Option.map_eq_some_iff] at hc
    obtain ⟨mid, ht, -⟩ := hc
    have hsid : mid.sid = sess.sid := by
      rw [(Table.mem_get.mp ht).2, (Table.mem_get.mp hs).2]
    exact (h.queued sid sess mid hs ht).trans (g.queued sid mid sess' ht hu) hsid
  sent := by
    obtain ⟨l, hl, hP⟩ := h.sent
    obtain ⟨k, hk, hQ⟩ := g.sent
    refine ⟨l ++ k, by rw [hk, hl, List.append_assoc], ?_⟩
    intro m hm
    exact (List.mem_append.mp hm).elim (hP m) (hQ m)

theorem SessFrame.mono (h : SessFrame P s t) (hPQ : ∀ m, P m → Q m) : SessFrame Q s t where
  time := h.time
  isMaster := h.isMaster
  up := h.up
  handled := h.handled
  core := h.core
  queued sid sess sess' hs ht := (h.queued sid sess sess' hs ht).mono hPQ
  sent := h.sent.imp fun _ hl => ⟨hl.1, fun m hm => hPQ m (hl.2 m hm)⟩

/-- The database is no part of the frame. -/
theorem SessFrame.setDb (h : SessFrame P s t) (db : Cldb) : SessFrame P s (t.setDb db) :=
  ⟨h.time, h.isMaster, h.up, h.handled, h.core, h.queued, h.sent⟩

theorem Frame.refl (P : Sent → Prop) (s : Server) : Frame P s s := ⟨.refl P s, fun _ => rfl⟩

theorem Frame.trans (h : Frame P s t) (g : Frame P t u) : Frame P s u :=
  ⟨h.toSessFrame.trans g.toSessFrame, fun sid => (g.nextFh sid).trans (h.nextFh sid)⟩

theorem Frame.mono (h : Frame P s t) (hPQ : ∀ m, P m → Q m) : Frame Q s t :=
  ⟨h.toSessFrame.mono hPQ, h.nextFh⟩

theorem Frame.setDb (h : Frame P s t) (db : Cldb) : Frame P s (t.setDb db) :=
  ⟨h.toSessFrame.setDb db, h.nextFh⟩

theorem SendFrame.refl (P : Sent → Prop) (s : Server) : SendFrame P s s := ⟨.refl P s, rfl⟩

theorem SendFrame.trans (h : SendFrame P s t) (g : SendFrame P t u) : SendFrame P s u :=
  ⟨h.toFrame.trans g.toFrame, g.db.trans h.db⟩

theorem SendFrame.mono (h : SendFrame P s t) (hPQ : ∀ m, P m → Q m) : SendFrame Q s t :=
  ⟨h.toFrame.mono hPQ, h.db⟩

/-- A session found afterwards was there before, with the same core. -/
theorem SessFrame.get (h : SessFrame P s t) {sid : Sid} {sess : Session}
    (hg : t.sessions.get sid = some sess) :
    ∃ sess', s.sessions.get sid = some sess' ∧ sess'.core = sess.core := by
  have hc := h.core sid
  rw [hg, Option.map_some] at hc
  exact Option.map_eq_some_iff.mp hc.symm

theorem SessFrame.get' (h : SessFrame P s t) {sid : Sid} {sess : Session}
    (hg : s.sessions.get sid = some sess) :
    ∃ sess', t.sessions.get sid = some sess' ∧ sess'.core = sess.core := by
  have hc := h.core sid
  rw [hg, Option.map_some] at hc
  exact Option.map_eq_some_iff.mp hc

end

theorem get_sid {s : Server} {sid : Sid} {sess : Session} (h : s.sessions.get sid = some sess) :
    sess.sid = sid := (Table.mem_get.mp h).2

/-- The table seen through `f` when one row is replaced by one that `f` does not tell apart. -/
theorem map_get_putSess {α : Type} (f : Session → α) {s : Server} {sid : Sid} {sess sess' : Session}
    (hg : s.sessions.get sid = some sess) (hs : sess'.sid = sess.sid) (hf : f sess' = f sess)
    (k : Sid) : ((s.putSess sess').sessions.get k).map f = (s.sessions.get k).map f := by
  rw [Server.putSess, Table.get_put]
  split
  · next h => rw [h, hs, get_sid hg, hg, Option.map_some, Option.map_some, hf]
  · rfl

theorem Server.queue_get (srv : Server) (sess : Session) (m : Sent) (doneCb : DoneCb)
    (pkts : List Bytes) :
    (srv.queue sess m doneCb pkts).sessions.get sess.sid = some { sess with
      nextSeqidOut := (sess.nextSeqidOut + pkts.length) % 2 ^ 64
      outQ := sess.outQ ++ pkts.map (⟨·, srv.currentTime + cldRetryStart, doneCb⟩) } := by
  simp only [Server.queue, Server.putSess, Table.get_put, if_true]

/-- One row is replaced by one to which packets have been queued. -/
theorem queued_putSess {P : Sent → Prop} {s : Server} {sid : Sid} {sess sess' : Session}
    (hg : s.sessions.get sid = some sess) (hs : sess'.sid = sess.sid) (hq : Queues P sess sess')
    (k : Sid) (a b : Session) (ha : s.sessions.get k = some a)
    (hb : (s.putSess sess').sessions.get k = some b) : Queues P a b := by
  rw [Server.putSess, Table.get_put] at hb
  split at hb
  · next h =>
    rw [h, hs, get_sid hg, hg] at ha
    cases ha
    cases hb
    exact hq
  · rw [ha] at hb
    cases hb
    exact .of_eq rfl rfl

/-- The packets of a message that is sent by `sess`. -/
def Packets (sess : Session) (op : CldMsgOp) (pkts : List Bytes) : Prop :=
  pkts ≠ [] ∧ ∀ i raw, pkts[i]? = some raw → ∀ nextRetry doneCb,
    OutPkt.Carries sess.sid op (sess.nextSeqidOut + i) ⟨raw, nextRetry, doneCb⟩

theorem Packets.queues {sess : Session} {m : Sent} {pkts : List Bytes}
    (h : Packets sess m.op pkts) (nextRetry : Nat) (doneCb : DoneCb) :
    Queues (· = m) sess { sess with
      nextSeqidOut := (sess.nextSeqidOut + pkts.length) % 2 ^ 64
      outQ := sess.outQ ++ pkts.map (⟨·, nextRetry, doneCb⟩) } := by
  refine ⟨pkts.map (⟨·, nextRetry, doneCb⟩), rfl, by simp, fun i p hi => ⟨m, rfl, ?_⟩⟩
  rw [List.getElem?_map, Option.map_eq_some_iff] at hi
  obtain ⟨raw, hraw, rfl⟩ := hi
  exact h.2 i raw hraw nextRetry doneCb

theorem Server.queue_frame {srv : Server} {sess : Session} (m : Sent) {pkts : List Bytes}
    (hg : srv.sessions.get m.sid = some sess) (hp : Packets sess m.op pkts) :
    SendFrame (· = m) srv (srv.queue sess m .none pkts) where
  time := rfl
  isMaster := rfl
  up := rfl
  handled := rfl
  core := map_get_putSess Session.core hg rfl (by simp [Session.core])
  queued := queued_putSess hg rfl (hp.queues _ _)
  sent := ⟨[m], rfl, by simp⟩
  nextFh := map_get_putSess Session.nextFh hg rfl rfl
  db := rfl

theorem sessPkts_packets (e : Env) (sess : Session) {xid : Nat} (hxid : xid < 2 ^ 64) (op : CldMsgOp)
    (body : Bytes) :
    Packets sess op ((signedPkts e sess.user.name sess.user sess.sid sess.nextSeqidOut
      (msgParts xid op body.length true body)).map (·.1.data)) := by
  constructor
  · rcases msgParts_cases xid op body.length true body with h | ⟨n, -, h⟩ <;> simp [h, signedPkts]
  · intro i raw hi nextRetry doneCb
    rw [List.getElem?_map, Option.map_eq_some_iff] at hi
    obtain ⟨p, hp, rfl⟩ := hi
    obtain ⟨q, hq, n, hn, hdata⟩ := signedPkts_get hp
    obtain ⟨first, last, hmi, -⟩ := mem_msgParts hq
    exact ⟨e, sess.user, xid, first, last, q.2, n, by rw [hdata, hmi], hxid, hn⟩

theorem sessSendmsg_cases (e : Env) (srv : Server) (sid : Sid) (msg : ServerMsg) (op : CldMsgOp)
    (doneCb : DoneCb) :
    (∃ sess pkts, srv.sessions.get sid = some sess ∧ Packets sess op pkts ∧
      sessSendmsg e srv sid msg op doneCb = (true, srv.queue sess ⟨sid, op, msg⟩ doneCb pkts)) ∨
    sessSendmsg e srv sid msg op doneCb = (false, srv) := by
  unfold sessSendmsg
  split
  · next sess body hg hb =>
    split
    · exact .inr rfl
    · next hl =>
      rw [sessPkts_eq e sid sess.user sess.nextSeqidOut _ op (not_lt.mp hl)]
      have hp := sessPkts_packets e sess (cldRand64_lt e srv.rnd) op body
      rw [get_sid hg] at hp
      exact .inl ⟨sess, _, hg, hp, rfl⟩
  · exact .inr rfl

theorem sessSendmsg_frame (e : Env) (srv : Server) (sid : Sid) (msg : ServerMsg) (op : CldMsgOp) :
    SendFrame (· = ⟨sid, op, msg⟩) srv (sessSendmsg e srv sid msg op .none).2 := by
  rcases sessSendmsg_cases e srv sid msg op .none with ⟨sess, pkts, hg, hp, h⟩ | h
  · rw [h]
    exact Server.queue_frame ⟨sid, op, msg⟩ hg hp
  · rw [h]
    exact .refl _ srv

/-- A short message to a session is sent. -/
theorem sessSendmsg_sent {e : Env} {srv : Server} {sid : Sid} {sess : Session} {msg : ServerMsg}
    {op : CldMsgOp} {doneCb : DoneCb} {body : Bytes} (hg : srv.sessions.get sid = some sess)
    (hb : msg.encode = some body) (hl : body.length ≤ cldMaxMsgSz) :
    (sessSendmsg e srv sid msg op doneCb).2.sent = srv.sent ++ [⟨sid, op, msg⟩] := by
  simp only [sessSendmsg, hg, hb, hl.not_gt, if_false,
    sessPkts_eq e sid sess.user sess.nextSeqidOut _ op hl]
  rfl

theorem sessSendrespGeneric_sent (e : Env) {srv : Server} {sid : Sid} {sess : Session}
    (code : CleErrCodes) (hg : srv.sessions.get sid = some sess) :
    (sessSendrespGeneric e srv sid code).sent =
      srv.sent ++ [⟨sid, sess.msgOp, .genericResp code sess.msgXid⟩] := by
  simp only [sessSendrespGeneric, hg]
  exact sessSendmsg_sent hg rfl (by simp [putGeneric, cldMaxMsgSz])

/-- The messages of a reply to a session. -/
def IsReply (sid : Sid) (code : CleErrCodes) (m : Sent) : Prop :=
  ∃ op xid, m = ⟨sid, op, .genericResp code xid⟩

theorem sessSendrespGeneric_frame (e : Env) (srv : Server) (sid : Sid) (code : CleErrCodes) :
    SendFrame (IsReply sid code) srv (sessSendrespGeneric e srv sid code) := by
  unfold sessSendrespGeneric
  split
  · exact .refl _ srv
  · exact (sessSendmsg_frame ..).mono fun m hm => ⟨_, _, hm⟩

end Hail.Cld
