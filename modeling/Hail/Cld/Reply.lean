import Hail.Cld.Step
import Hail.Library.Run

/-!
# Replies

A request that is not about reading runs a transaction, in which events may be sent, and then sends
one reply, whatever the outcome. The reply to `CMO_GET` carries the name and the data of the inode:
when these are larger than `cld_msg_get_resp` allows, it cannot be encoded, and there is none.
-/
namespace Hail.Cld

open Library

/-- The message is a response to the request `xid` of session `sid`. -/
def Sent.answers (sid : Sid) (xid : Nat) (m : Sent) : Bool :=
  m.sid = sid && match m.msg with
    | .genericResp _ xidIn | .openResp _ xidIn _ | .getResp _ xidIn _ => xidIn = xid
    | _ => false

/-- How many responses to a request were queued from `s` to `t`. -/
def answersSince (sid : Sid) (xid : Nat) (s t : Server) : Nat :=
  (t.sent.drop s.sent.length).countP (Sent.answers sid xid)

/-! ## The reply after a transaction -/

/-- How a handler ends when its transaction has ended with `r`: one reply is sent, with an error code
only if the transaction had an error. -/
structure Ends {α : Type} (sid : Sid) (sess : Session) (r : Except CleErrCodes α × Server)
    (t : Server) : Prop where
  db : t.db = r.2.db
  reply : ∃ m : Sent, t.sent = r.2.sent ++ [m] ∧ m.answers sid sess.msgXid = true ∧
    ∀ op code xid, m = ⟨sid, op, .genericResp code xid⟩ → code.Fault → ∃ c, r.1 = .error c

section

variable {P : Sent → Prop} {s u : Server} {sid : Sid} {sess : Session}

/-- A reply, when nothing but events has been sent since the request came. -/
theorem sendresp_ends {α : Type} (e : Env) (hf : SessFrame P s u) (hg : s.sessions.get sid = some sess)
    {r : Except CleErrCodes α} (code : CleErrCodes) (hr : code.Fault → ∃ c, r = .error c) :
    Ends sid sess (r, u) (sessSendrespGeneric e u sid code) := by
  obtain ⟨sess', hg', hcore⟩ := hf.get' hg
  have hxid := core_msgXid hcore
  refine ⟨(sessSendrespGeneric_frame e u sid code).db, _, sessSendrespGeneric_sent e code hg', ?_, ?_⟩
  · simp [Sent.answers, hxid]
  · rintro op code' xid h hfault
    cases h
    exact hr hfault

theorem respond_ends (e : Env) (ft : Faults) {body : Txn Server CleErrCodes PUnit}
    (hk : SessFrame P s (inTxn ft .dbErr body s).2) (hg : s.sessions.get sid = some sess) :
    Ends sid sess (inTxn ft .dbErr body s) (respond e sid (inTxn ft .dbErr body s)) := by
  generalize inTxn ft .dbErr body s = r at hk ⊢
  unfold respond
  split
  · next code t => exact sendresp_ends e hk hg code fun _ => ⟨code, rfl⟩
  · exact sendresp_ends e hk hg .ok fun h => absurd rfl h.1

theorem msgLock_ends (e : Env) (ft : Faults) (n flags : Nat) (hg : s.sessions.get sid = some sess) :
    Ends sid sess (inTxn ft .dbErr (msgLockTxn ft sid n flags (sess.msgOp = .lock)) s)
      (msgLock e ft sid n flags s) := by
  have hk := (inTxn_keeps ft CleErrCodes.dbErr
    (msgLockTxn_keeps ft sid n flags (sess.msgOp = .lock)) s).toSessFrame
  simp only [msgLock, hg]
  generalize inTxn ft .dbErr (msgLockTxn ft sid n flags (sess.msgOp = .lock)) s = r at hk ⊢
  split
  · next code t => exact sendresp_ends e hk hg code fun _ => ⟨code, rfl⟩
  · next acquired t =>
    refine sendresp_ends e hk hg _ fun h => ?_
    cases acquired
    · exact absurd rfl h.2
    · exact absurd rfl h.1

theorem msgOpen_ends (e : Env) (ft : Faults) (m : CldMsgOpen) (hg : s.sessions.get sid = some sess) :
    Ends sid sess (inTxn ft .dbErr (msgOpenTxn e ft sid m) s) (msgOpen e ft sid m s) := by
  have hk := msgOpenTxn_frame e ft sid m s
  unfold msgOpen
  generalize inTxn ft .dbErr (msgOpenTxn e ft sid m) s = r at hk ⊢
  split
  · next code t => exact sendresp_ends e hk hg code fun _ => ⟨code, rfl⟩
  · next fh t =>
    obtain ⟨sess', hg', hcore⟩ := hk.get' hg
    have hxid := core_msgXid hcore
    simp only [hg']
    refine ⟨(sessSendmsg_frame ..).db, _, sessSendmsg_sent hg' rfl ?_, ?_, fun _ _ _ h => by cases h⟩
    · simp [putGeneric, cldMaxMsgSz]
    · simp [Sent.answers, hxid]

/-- Events and then one reply. -/
structure Replies (sid : Sid) (xid : Nat) (s t : Server) : Prop where
  sent : ∃ told m, t.sent = s.sent ++ told ++ [m] ∧ (∀ x ∈ told, IsEvent x) ∧ m.answers sid xid = true

theorem Replies.once {xid : Nat} {t : Server} (h : Replies sid xid s t) :
    answersSince sid xid s t = 1 := by
  obtain ⟨told, m, hsent, hevents, hm⟩ := h.sent
  have hnone : told.countP (Sent.answers sid xid) = 0 := by
    refine List.countP_eq_zero.mpr fun x hx => ?_
    obtain ⟨sid', fh, ev, rfl⟩ := hevents x hx
    simp [Sent.answers]
  rw [answersSince, hsent, List.append_assoc, List.drop_left, List.countP_append, hnone,
    List.countP_singleton, hm]
  rfl

theorem Ends.replies {α : Type} {r : Except CleErrCodes α × Server} {t : Server}
    (h : Ends sid sess r t) (hf : SessFrame P s r.2) (hP : ∀ m, P m → IsEvent m) :
    Replies sid sess.msgXid s t := by
  obtain ⟨m, hsent, hm, -⟩ := h.reply
  obtain ⟨told, htold, hev⟩ := hf.sent
  exact ⟨told, m, by rw [hsent, htold], fun x hx => hP x (hev x hx), hm⟩

theorem respond_replies (e : Env) (ft : Faults) {body : Txn Server CleErrCodes PUnit}
    (hk : Txn.Keeps (Frame P) body) (hP : ∀ m, P m → IsEvent m)
    (hg : s.sessions.get sid = some sess) :
    Replies sid sess.msgXid s (respond e sid (inTxn ft .dbErr body s)) := by
  have hf := (inTxn_keeps ft CleErrCodes.dbErr hk s).toSessFrame
  exact (respond_ends e ft hf hg).replies hf hP

theorem sendresp_replies (e : Env) (code : CleErrCodes) (hg : s.sessions.get sid = some sess) :
    Replies sid sess.msgXid s (sessSendrespGeneric e s sid code) :=
  ⟨[], _, by rw [sessSendrespGeneric_sent e code hg, List.append_nil], by simp,
    by simp [Sent.answers]⟩

theorem msgEndSess_replies (e : Env) (xid : Nat) (hg : s.sessions.get sid = some sess) :
    Replies sid xid s (msgEndSess e sid xid s) := by
  have hlen : (putGeneric .ok xid).length ≤ cldMaxMsgSz := by simp [putGeneric, cldMaxMsgSz]
  refine ⟨[], _, by rw [msgEndSess, sessSendmsg_sent hg rfl hlen, List.append_nil], by simp, ?_⟩
  simp [Sent.answers]

/-- A request that is not about reading is answered. -/
theorem handle_replies (e : Env) (ft : Faults) {req : Request} (hreq : ∀ fh, req ≠ .get fh)
    (hg : s.sessions.get sid = some sess) :
    Replies sid sess.msgXid s (req.handle e ft sid s) := by
  cases req with
  | get fh => exact absurd rfl (hreq fh)
  | «open» m =>
    exact (msgOpen_ends e ft m hg).replies (msgOpenTxn_frame e ft sid m s) fun _ h => h.isEvent
  | put m => exact respond_replies e ft (msgPutTxn_keeps e ft sid m) (fun _ h => h.isEvent) hg
  | close n => exact respond_replies e ft (msgCloseTxn_keeps e ft sid n) (fun _ h => h.isEvent) hg
  | del name =>
    simp only [Request.handle, msgDel]
    split
    · exact sendresp_replies e _ hg
    · exact respond_replies e ft (msgDelTxn_keeps e ft name.bytes) (fun _ h => h.isEvent) hg
  | unlock n => exact respond_replies e ft (msgUnlockTxn_keeps ft sid n) (fun _ h => h.elim) hg
  | lock n flags =>
    exact (msgLock_ends e ft n flags hg).replies (inTxn_keeps ft CleErrCodes.dbErr
      (msgLockTxn_keeps ft sid n flags (sess.msgOp = .lock)) s).toSessFrame (fun _ h => h.elim)

/-! ## `msg_get` -/

/-- What `msg_get` reads of the data of an inode with this number and size: only `CMO_GET` reads it,
and no record stands for no data. -/
inductive GetData (ft : Faults) (db : Cldb) (op : CldMsgOp) (inum : Inum) (size : Nat) :
    Bytes → Prop where
  | metadata (hop : op ≠ .get) : GetData ft db op inum size []
  | absent (hop : op = .get) (h : cldbDataGet ft db inum = .error .notfound) :
      GetData ft db op inum size []
  | present {data : Bytes} (hop : op = .get) (h : cldbDataGet ft db inum = .ok data)
      (hsize : data.length = size) : GetData ft db op inum size data

/-- A `CMO_GET` or `CMO_GET_META` that finds everything, but more of it than a response may carry. -/
def Oversized (ft : Faults) (db : Cldb) (sid : Sid) (op : CldMsgOp) (fh : Nat) : Prop :=
  ft .txnBegin = false ∧ ∃ h ino data, cldbHandleGet ft db sid fh = .ok h ∧
    has h.mode comRead = true ∧ cldbInodeGet ft db h.inum = .ok ino ∧
    GetData ft db op h.inum ino.size data ∧
    (cldInodeNameMax < (cstr ino.name).length ∨ cldMaxPayloadSz < data.length)

theorem getData_ok {ft : Faults} {db : Cldb} {op : CldMsgOp} {inum : Inum} {size : Nat}
    {data : Bytes} :
    (if op ≠ .get then .ok []
      else
        match cldbDataGet ft db inum with
        | .error .notfound => .ok []
        | .error rc => .error rc
        | .ok data => if data.length ≠ size then .error .err else .ok data : Except Rc Bytes) =
      .ok data ↔ GetData ft db op inum size data := by
  constructor
  · intro h
    split at h
    · next hop =>
      cases h
      exact .metadata hop
    · next hop =>
      have hop := not_not.mp hop
      split at h
      · next hd =>
        cases h
        exact .absent hop hd
      · cases h
      · next hd =>
        split at h
        · cases h
        · next hsize =>
          cases h
          exact .present hop hd (not_not.mp hsize)
  · rintro (hop | ⟨hop, h⟩ | ⟨hop, h, hsize⟩)
    · exact if_pos hop
    · simp [hop, h]
    · simp [hop, h, hsize]

theorem msgGetTxn_ok {ft : Faults} {fh : Nat} {resp : CldMsgGetResp} :
    (msgGetTxn ft sess fh s).1 = .ok resp ↔ ∃ h ino data,
      cldbHandleGet ft s.db sess.sid fh = .ok h ∧ has h.mode comRead = true ∧
      cldbInodeGet ft s.db h.inum = .ok ino ∧ GetData ft s.db sess.msgOp h.inum ino.size data ∧
      resp = ⟨ino.inum, ino.version, ino.timeCreate, ino.timeModify, ino.flags, cstr ino.name,
        data⟩ := by
  have hpair : (msgGetTxn ft sess fh s).1 = .ok resp ↔
      ∃ t, msgGetTxn ft sess fh s = (.ok resp, t) := by
    constructor
    · intro h
      exact ⟨_, Prod.ext h rfl⟩
    · rintro ⟨t, h⟩
      rw [h]
  rw [hpair]
  simp only [msgGetTxn, Txn.bind_ok, Txn.onErr_ok, Txn.failIf_ok, Txn.pure_ok, dbGet_ok,
    Bool.not_eq_false']
  constructor
  · rintro ⟨t, h, _, ⟨hh, rfl⟩, _, _, ⟨hmode, rfl⟩, ino, _, ⟨hino, rfl⟩, data, _, ⟨hdata, rfl⟩, rfl, -⟩
    exact ⟨h, ino, data, hh, hmode, hino, getData_ok.mp hdata, rfl⟩
  · rintro ⟨h, ino, data, hh, hmode, hino, hdata, rfl⟩
    exact ⟨s, h, s, ⟨hh, rfl⟩, ⟨⟩, s, ⟨hmode, rfl⟩, ino, s, ⟨hino, rfl⟩, data, s,
      ⟨getData_ok.mpr hdata, rfl⟩, rfl, rfl⟩

theorem getResp_encode (code : CleErrCodes) (xid : Nat) (resp : CldMsgGetResp) :
    if resp.inodeName.length ≤ cldInodeNameMax ∧ resp.data.length ≤ cldMaxPayloadSz then
      ∃ body, (ServerMsg.getResp code xid resp).encode = some body ∧ body.length ≤ cldMaxMsgSz
    else (ServerMsg.getResp code xid resp).encode = none := by
  split
  · next h =>
    obtain ⟨hname, hdata⟩ := h
    have hpad : ∀ n, Xdr.pad n ≤ 3 := by
      intro n
      unfold Xdr.pad
      omega
    have hn := hpad resp.inodeName.length
    have hd := hpad resp.data.length
    refine ⟨_, by simp only [ServerMsg.encode, Xdr.putVar, hname, hdata, if_true]; rfl, ?_⟩
    simp only [cldInodeNameMax, cldMaxPayloadSz] at hname hdata
    simp [putGeneric, cldMaxMsgSz]
    omega
  · next h =>
    rw [not_and_or] at h
    rcases h with h | h
    · simp [ServerMsg.encode, Xdr.putVar, h]
    · simp [ServerMsg.encode, Xdr.putVar, h]

/-- A request to read is answered unless what it reads is too large. -/
theorem msgGet_answers (e : Env) (ft : Faults) (fh : Nat) (hg : s.sessions.get sid = some sess) :
    answersSince sid sess.msgXid s (msgGet e ft sid fh s) = 1 ↔
      ¬ Oversized ft s.db sid sess.msgOp fh := by
  have hsid : sess.sid = sid := get_sid hg
  simp only [msgGet, hg]
  cases hbegin : ft .txnBegin with
  | true =>
    simp only [if_true]
    refine iff_of_true (sendresp_replies e _ hg).once ?_
    simp [Oversized, hbegin]
  | false =>
    simp only [Bool.false_eq_true, if_false]
    have hok := @msgGetTxn_ok s sess ft fh
    rw [hsid] at hok
    generalize (msgGetTxn ft sess fh s).1 = r at hok ⊢
    cases r with
    | error code =>
      refine iff_of_true (sendresp_replies e _ hg).once ?_
      rintro ⟨-, h, ino, data, hh, hmode, hino, hdata, -⟩
      cases hok.mpr ⟨h, ino, data, hh, hmode, hino, hdata, rfl⟩
    | ok resp =>
      obtain ⟨h, ino, data, hh, hmode, hino, hdata, rfl⟩ := hok.mp rfl
      have henc := getResp_encode .ok sess.msgXid ⟨ino.inum, ino.version, ino.timeCreate,
        ino.timeModify, ino.flags, cstr ino.name, data⟩
      split at henc
      · next hfits =>
        obtain ⟨body, hbody, hlen⟩ := henc
        refine iff_of_true ?_ ?_
        · simp only [answersSince, sessSendmsg_sent hg hbody hlen, List.drop_left,
            List.countP_singleton]
          simp [Sent.answers]
        · rintro ⟨-, h', ino', data', hh', hmode', hino', hdata', hbig⟩
          obtain rfl : h = h' := Except.ok.inj (hh.symm.trans hh')
          obtain rfl : ino = ino' := Except.ok.inj (hino.symm.trans hino')
          have heq := Except.ok.inj (hok.mpr ⟨h, ino, data', hh, hmode, hino, hdata', rfl⟩)
          obtain rfl : data = data' := congrArg CldMsgGetResp.data heq
          dsimp only at hfits
          omega
      · next hfits =>
        refine iff_of_false ?_ ?_
        · simp [answersSince, sessSendmsg, hg, henc]
        · refine not_not.mpr ⟨hbegin, h, ino, data, hh, hmode, hino, hdata, ?_⟩
          rw [not_and_or, not_le, not_le] at hfits
          exact hfits

/-- A request is answered, unless it is one to read what is too large. -/
theorem handle_answers (e : Env) (ft : Faults) (req : Request) (hg : s.sessions.get sid = some sess) :
    answersSince sid sess.msgXid s (req.handle e ft sid s) = 1 ↔
      ¬ ∃ fh, req = .get fh ∧ Oversized ft s.db sid sess.msgOp fh := by
  by_cases hreq : ∃ fh, req = .get fh
  · obtain ⟨fh, rfl⟩ := hreq
    simpa [Request.handle] using msgGet_answers e ft fh hg
  · rw [not_exists] at hreq
    refine iff_of_true (handle_replies e ft hreq hg).once ?_
    rintro ⟨fh, h, -⟩
    exact hreq fh h

end

/-! ## From the last packet of a request to its reply -/

/-- What a complete message is decoded to. -/
def requestOf (op : CldMsgOp) (body : Bytes) : Option Request := do
  let dec ← Request.decode op
  let (req, _) ← dec body
  return req

/-- The messages of a session that are handled as a request. -/
def IsRequest (op : CldMsgOp) (body : Bytes) : Prop :=
  op = .nop ∨ op = .endSess ∨ (requestOf op body).isSome = true

/-- The session of a packet keeps what the packet is taken for. -/
theorem Session.rx_msg {s : Server} {info : PktInfo} {sess : Session}
    (hg : s.sessions.get info.pkt.sid = some sess)
    (hinfo : getPktInfo s info.pkt info.seqid = some info) (now fd : Nat) (chunk : Bytes) :
    (sess.rx now fd info chunk).2.msgOp = info.op ∧
      (sess.rx now fd info chunk).2.msgXid = info.xid := by
  have hbegin : ((sess.contact now fd info.op).begin info).msgOp = info.op ∧
      ((sess.contact now fd info.op).begin info).msgXid = info.xid := by
    unfold Session.begin
    split
    · exact ⟨rfl, rfl⟩
    · next hfirst =>
      have hnone : info.pkt.mi.infos = none := by
        simpa [CldPktMsgInfo.isFirst] using hfirst
      simp only [getPktInfo, hnone, hg, Option.map_some, Option.some.injEq] at hinfo
      exact ⟨congrArg PktInfo.op hinfo, congrArg PktInfo.xid hinfo⟩
  unfold Session.rx
  dsimp only
  split <;> exact hbegin

theorem requestOf_eq_some {op : CldMsgOp} {body : Bytes} {req : Request} :
    requestOf op body = some req ↔
      ∃ dec rest, Request.decode op = some dec ∧ dec body = some (req, rest) := by
  simp [requestOf, Option.bind_eq_some_iff]

/-- The last packet of a message that there is room for is dispatched with what its session holds. -/
theorem tcpRx_last (e : Env) (ft : Faults) (fd : Nat) (addr : Bytes) {chunk : Bytes} {s : Server}
    {info : PktInfo} {sess sess' : Session} (hg : s.sessions.get info.pkt.sid = some sess)
    (hlast : info.pkt.mi.isLast = true) (hrx : sess.rx s.currentTime fd info chunk = (true, sess')) :
    tcpRx e ft fd addr info chunk s = dispatch e ft fd addr info (s.putSess sess') := by
  simp only [tcpRx, Server.arrive, hg, hrx, hlast, Bool.not_true, Bool.false_eq_true, if_false]

theorem dispatch_answers (e : Env) (ft : Faults) (fd : Nat) (addr : Bytes) {s : Server}
    {info : PktInfo} {sess : Session} (hg : s.sessions.get info.pkt.sid = some sess)
    (hop : sess.msgOp = info.op) (hxid : sess.msgXid = info.xid)
    (hreq : IsRequest info.op sess.msgBuf) :
    answersSince info.pkt.sid info.xid s (dispatch e ft fd addr info s).2 = 1 ↔
      ¬ ∃ fh, requestOf info.op sess.msgBuf = some (.get fh) ∧
        Oversized ft s.db info.pkt.sid info.op fh := by
  have hget : ∀ h, (s.note h).sessions.get info.pkt.sid = some sess := fun _ => hg
  rw [← hxid]
  rcases hreq with hnop | hend | hsome
  · have hnone : requestOf info.op sess.msgBuf = none := by rw [hnop]; rfl
    simp only [dispatch, hnop]
    refine iff_of_true (sendresp_replies e .ok (hget _)).once ?_
    simp [← hnop, hnone]
  · have hnone : requestOf info.op sess.msgBuf = none := by rw [hend]; rfl
    simp only [dispatch, hend]
    refine iff_of_true ?_ (by simp [← hend, hnone])
    rw [hxid]
    exact (msgEndSess_replies e info.xid (hget _)).once
  · obtain ⟨req, hreq⟩ := Option.isSome_iff_exists.mp hsome
    obtain ⟨dec, rest, hdec, hbody⟩ := requestOf_eq_some.mp hreq
    have hans := handle_answers e ft req (hget (.request sess.sid info.seqid info.op info.xid
      sess.msgBuf))
    rw [dispatch_of_decode hdec]
    simp only [tcpRxHandle, hg, hbody, hreq, Option.some.injEq, get_sid hg]
    rw [hop, get_sid hg] at hans
    exact hans

/-- When the last packet of a request has come, exactly one response to it is queued, if and only if
it is not a request to read what is too large. -/
theorem tcpRx_answers_iff (e : Env) (ft : Faults) (fd : Nat) (addr chunk : Bytes) {s : Server}
    {info : PktInfo} {sess : Session} (hg : s.sessions.get info.pkt.sid = some sess)
    (hinfo : getPktInfo s info.pkt info.seqid = some info) (hlast : info.pkt.mi.isLast = true)
    (hfits : (sess.rx s.currentTime fd info chunk).1 = true)
    (hreq : IsRequest info.op (sess.rx s.currentTime fd info chunk).2.msgBuf) :
    answersSince info.pkt.sid info.xid s (tcpRx e ft fd addr info chunk s).2 = 1 ↔
      ¬ ∃ fh, requestOf info.op (sess.rx s.currentTime fd info chunk).2.msgBuf = some (.get fh) ∧
        Oversized ft s.db info.pkt.sid info.op fh := by
  obtain ⟨hop, hxid⟩ := Session.rx_msg hg hinfo s.currentTime fd chunk
  have hsid := (sess.rx_sid s.currentTime fd info chunk).1.trans (get_sid hg)
  rcases hrx : sess.rx s.currentTime fd info chunk with ⟨fits, sess'⟩
  rw [hrx] at hop hxid hsid hfits hreq
  dsimp only at hop hxid hsid hfits hreq ⊢
  subst hfits
  have hget : (s.putSess sess').sessions.get info.pkt.sid = some sess' := by
    rw [← hsid]
    exact Table.get_put_self
  rw [tcpRx_last e ft fd addr hg hlast hrx]
  exact dispatch_answers e ft fd addr hget hop hxid hreq

/-- A session with a handle on the root directory. -/
def rootReader : Server :=
  run (Server.step .plain) (.init 0) [.newSess 1, .open 1 (comRead ||| comDirectory) [slash]]

/-- The request to read it. -/
def rootGet : PktInfo := ⟨pktHdr 1 User.cli.name (.firstLast 7 .get), 0, 7, .get⟩

theorem tcpRx_answers_iff_rootReader :
    answersSince 1 7 rootReader (tcpRx .plain .none 5 [] rootGet (Xdr.putHyper 2) rootReader).2 =
      1 := by
  obtain ⟨sess, hg, hfits, hreq⟩ : ∃ sess, rootReader.sessions.get rootGet.pkt.sid = some sess ∧
      (sess.rx rootReader.currentTime 5 rootGet (Xdr.putHyper 2)).1 = true ∧
      requestOf .get (sess.rx rootReader.currentTime 5 rootGet (Xdr.putHyper 2)).2.msgBuf =
        some (.get 2) := by
    decide +kernel
  have hnames : ∀ ino ∈ rootReader.db.inodes.rows, (cstr ino.name).length ≤ cldInodeNameMax := by
    decide +kernel
  have hempty : rootReader.db.data.rows = [] := by decide +kernel
  have hans := tcpRx_answers_iff .plain .none 5 [] (Xdr.putHyper 2) hg rfl rfl hfits
    (.inr (.inr (by rw [show rootGet.op = .get from rfl, hreq]; rfl)))
  refine hans.mpr ?_
  rintro ⟨fh, -, -, h, ino, data, -, -, hino, hdata, hbig⟩
  have hname := hnames ino (Table.mem_get.mp (found_ok.mp (Faults.guard_ok.mp hino).2)).1
  have hnil : data = [] := by
    cases hdata with
    | metadata hop => rfl
    | absent hop hd => rfl
    | present hop hd hsize =>
      have hget := found_ok.mp (Faults.guard_ok.mp hd).2
      obtain ⟨d, hd, -⟩ := Option.map_eq_some_iff.mp hget
      have hmem := (Table.mem_get.mp hd).1
      simp [hempty] at hmem
  rcases hbig with hbig | hbig
  · omega
  · simp [hnil] at hbig

/-- The root directory has other data. -/
def rootHolding (data : Bytes) : Server :=
  { rootReader with
    db := { rootReader.db with
      data := rootReader.db.data.put unordered ⟨cldInoRoot, data⟩
      inodes := rootReader.db.inodes.put unordered { rootInode 0 with size := data.length } } }

theorem rootHolding_answers {data : Bytes} (hlen : cldMaxPayloadSz < data.length) :
    ∃ sess, (rootHolding data).sessions.get rootGet.pkt.sid = some sess ∧ sess.dead = false ∧
      getPktInfo (rootHolding data) rootGet.pkt rootGet.seqid = some rootGet ∧
      rootGet.pkt.mi.isLast = true ∧
      (sess.rx (rootHolding data).currentTime 5 rootGet (Xdr.putHyper 2)).1 = true ∧
      IsRequest rootGet.op
        (sess.rx (rootHolding data).currentTime 5 rootGet (Xdr.putHyper 2)).2.msgBuf ∧
      answersSince rootGet.pkt.sid rootGet.xid (rootHolding data)
        (tcpRx .plain .none 5 [] rootGet (Xdr.putHyper 2) (rootHolding data)).2 ≠ 1 := by
  obtain ⟨sess, hg, hdead, hfits, hsid, hop, hxid, hreq⟩ : ∃ sess,
      rootReader.sessions.get 1 = some sess ∧ sess.dead = false ∧
        (sess.rx rootReader.currentTime 5 rootGet (Xdr.putHyper 2)).1 = true ∧
        (sess.rx rootReader.currentTime 5 rootGet (Xdr.putHyper 2)).2.sid = 1 ∧
        (sess.rx rootReader.currentTime 5 rootGet (Xdr.putHyper 2)).2.msgOp = .get ∧
        (sess.rx rootReader.currentTime 5 rootGet (Xdr.putHyper 2)).2.msgXid = 7 ∧
        requestOf .get (sess.rx rootReader.currentTime 5 rootGet (Xdr.putHyper 2)).2.msgBuf =
          some (.get 2) := by
    decide +kernel
  obtain ⟨h, hh, hmode, hinum⟩ : ∃ h, rootReader.db.handles.get (1, 2) = some h ∧
      has h.mode comRead = true ∧ h.inum = cldInoRoot := by
    decide +kernel
  rcases hrx : sess.rx rootReader.currentTime 5 rootGet (Xdr.putHyper 2) with ⟨fits, sess'⟩
  rw [hrx] at hfits hsid hop hxid hreq
  dsimp only at hfits hsid hop hxid hreq
  subst hfits
  have hisreq : IsRequest rootGet.op sess'.msgBuf :=
    .inr (.inr (by rw [show rootGet.op = .get from rfl, hreq]; rfl))
  have hsame : (rootHolding data).sessions = rootReader.sessions ∧
      (rootHolding data).currentTime = rootReader.currentTime := by simp only [rootHolding, and_self]
  have hget : rootGet.pkt.sid = 1 := by decide +kernel
  have hg : (rootHolding data).sessions.get rootGet.pkt.sid = some sess := by
    rw [hsame.1, hget]
    exact hg
  have hrx : sess.rx (rootHolding data).currentTime 5 rootGet (Xdr.putHyper 2) = (true, sess') := by
    rw [hsame.2]
    exact hrx
  refine ⟨sess, hg, hdead, rfl, rfl, by rw [hrx], by rw [hrx]; exact hisreq, ?_⟩
  have hget : ((rootHolding data).putSess sess').sessions.get 1 = some sess' := by
    rw [← hsid]
    exact Table.get_put_self
  have hino : (rootHolding data).db.inodes.get h.inum =
      some { rootInode 0 with size := data.length } := by
    rw [hinum]
    exact Table.get_put_self
  have hdata : (rootHolding data).db.data.get h.inum = some ⟨cldInoRoot, data⟩ := by
    rw [hinum]
    exact Table.get_put_self
  rw [tcpRx_last .plain .none 5 [] hg rfl hrx]
  refine mt (dispatch_answers .plain .none 5 [] hget hop hxid hisreq).mp (not_not.mpr ?_)
  exact ⟨2, hreq, rfl, h, _, data, found_ok.mpr hh, hmode, found_ok.mpr hino,
    .present rfl (found_ok.mpr (Option.map_eq_some_iff.mpr ⟨_, hdata, rfl⟩)) rfl, .inr hlen⟩

/-- The names of the files in a crowded directory. -/
def crowdedBase (i : Nat) : Bytes :=
  [UInt8.ofNat (128 + i / 100), UInt8.ofNat (128 + i % 100)] ++ List.replicate 250 0x61

/-- A directory with 520 files that have long names. -/
def crowdedDir : Bytes := (List.range 520).flatMap fun i => direntRec (crowdedBase i)

theorem crowdedDir_length : crowdedDir.length = 520 * 256 := by
  have hbase : ∀ i, (crowdedBase i).length = 252 := by
    intro i
    rw [crowdedBase, List.length_append, List.length_replicate]
    rfl
  have hrec : ∀ i, (direntRec (crowdedBase i)).length = 256 := by
    intro i
    rw [direntRec, List.length_append, List.length_append, leBytes_length, hbase,
      List.length_replicate]
    rfl
  rw [crowdedDir, List.length_flatMap]
  simp only [hrec, List.map_const', List.length_range, List.sum_replicate, smul_eq_mul]

/-- The request to read the directory is not answered. -/
theorem crowdedDir_unanswered :
    ∃ sess, (rootHolding crowdedDir).sessions.get rootGet.pkt.sid = some sess ∧ sess.dead = false ∧
      getPktInfo (rootHolding crowdedDir) rootGet.pkt rootGet.seqid = some rootGet ∧
      rootGet.pkt.mi.isLast = true ∧
      (sess.rx (rootHolding crowdedDir).currentTime 5 rootGet (Xdr.putHyper 2)).1 = true ∧
      IsRequest rootGet.op
        (sess.rx (rootHolding crowdedDir).currentTime 5 rootGet (Xdr.putHyper 2)).2.msgBuf ∧
      answersSince rootGet.pkt.sid rootGet.xid (rootHolding crowdedDir)
        (tcpRx .plain .none 5 [] rootGet (Xdr.putHyper 2) (rootHolding crowdedDir)).2 ≠ 1 := by
  have hlen : cldMaxPayloadSz < crowdedDir.length := by
    rw [crowdedDir_length]
    decide
  exact rootHolding_answers hlen

end Hail.Cld
