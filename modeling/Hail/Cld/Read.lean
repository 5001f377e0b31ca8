import Hail.Cld.Step

/-!
# Reading the packets of a session

What `cli_rd_pkt` makes of a packet that a client of an established session has built: it always
reaches `tcp_rx`, so that what happens is decided by the order of the packet in its message and by
what the session has put together so far.
-/
namespace Hail.Cld

open Library

/-! ## Headers -/

theorem pktMagic_lt : ofLe cldPktMagic < 2 ^ 64 := by decide

theorem pktMi_wire (u : User) {sid : Sid} {xid : Nat} {op : CldMsgOp} (hsid : sid < 2 ^ 64)
    (hxid : xid < 2 ^ 64) (hop : op.Wire) (first last : Bool) :
    (pktHdr sid u.name (pktMi xid op first last)).Wire := by
  refine ⟨pktMagic_lt, hsid, u.noNul, fun x o h => ?_⟩
  cases first <;> cases last <;> cases h <;> exact ⟨hxid, hop⟩

theorem decode_rawPkt (e : Env) {sid : Sid} {u : User} {mi : CldPktMsgInfo}
    (hw : (pktHdr sid u.name mi).Wire) (key chunk : Bytes) (seqid : Nat) :
    CldPktHdr.decode ((rawPkt e key (hdrBytes sid u mi) chunk seqid).take
      ((rawPkt e key (hdrBytes sid u mi) chunk seqid).length - cldPktFtrLen)) =
      some (pktHdr sid u.name mi, chunk) := by
  rw [rawPkt_length, Nat.add_sub_cancel, rawPkt, ← List.length_append, List.append_assoc,
    List.take_left]
  exact CldPktHdr.decode_encode hw (pktHdr_encode sid u mi) chunk

theorem parsePktHeader_rawPkt (e : Env) {sid : Sid} {u : User} {mi : CldPktMsgInfo}
    (hw : (pktHdr sid u.name mi).Wire) (key chunk : Bytes) (seqid : Nat) :
    parsePktHeader (rawPkt e key (hdrBytes sid u mi) chunk seqid) =
      some (pktHdr sid u.name mi, (hdrBytes sid u mi).length) := by
  have hlen : ¬ (rawPkt e key (hdrBytes sid u mi) chunk seqid).length ≤ cldPktFtrLen := by
    have hpos : 0 < (hdrBytes sid u mi).length := by simp [hdrBytes]
    rw [rawPkt_length]
    omega
  simp only [parsePktHeader, hlen, if_false, decode_rawPkt e hw]
  simp [pktHdr, rawPkt_length]

theorem chunk_rawPkt (e : Env) (sid : Sid) (u : User) (mi : CldPktMsgInfo) (key chunk : Bytes)
    (seqid : Nat) :
    ((rawPkt e key (hdrBytes sid u mi) chunk seqid).take
      ((rawPkt e key (hdrBytes sid u mi) chunk seqid).length - cldPktFtrLen)).drop
        (hdrBytes sid u mi).length = chunk := by
  rw [rawPkt_length, Nat.add_sub_cancel, rawPkt, ← List.length_append, List.append_assoc,
    List.take_left, List.drop_left]

/-! ## Established sessions -/

/-- A session that the packets of its client reach. -/
structure Reaches (s : Server) (sid : Sid) (addr : Bytes) (u : User) (sess : Session) : Prop where
  get : s.sessions.get sid = some sess
  addr : sess.addr = addr
  user : sess.user = u
  live : sess.dead = false
  master : s.isMaster = true
  up : s.up = true

/-- What the server takes a packet for. -/
def Session.pktInfo (sess : Session) (u : User) (mi : CldPktMsgInfo) (seqid : Nat) : PktInfo :=
  let (xid, op) := mi.infos.getD (sess.msgXid, sess.msgOp)
  ⟨pktHdr sess.sid u.name mi, seqid % 2 ^ 64, xid, op⟩

/-- A packet with a good header and signature gets to `tcp_rx`. -/
theorem cliRdPkt_rawPkt (e : Env) (ft : Faults) (fd : Nat) {s : Server} {sid : Sid} {addr : Bytes}
    {u : User} {sess : Session} (hc : Reaches s sid addr u sess) {mi : CldPktMsgInfo}
    (hw : (pktHdr sid u.name mi).Wire) (chunk : Bytes) (seqid : Nat)
    (hop : (sess.pktInfo u mi seqid).op ≠ .newSess) :
    cliRdPkt e ft fd addr (rawPkt e u.name (hdrBytes sid u mi) chunk seqid) s =
      match tcpRx e ft fd addr (sess.pktInfo u mi seqid) chunk s with
      | (.ok, t) => (true, t)
      | (code, t) => (false, simpleSendresp e fd (sess.pktInfo u mi seqid) code t) := by
  have hsid : sess.sid = sid := get_sid hc.get
  have hinfo : getPktInfo s (pktHdr sid u.name mi) (seqid % 2 ^ 64) =
      some (sess.pktInfo u mi seqid) := by
    unfold getPktInfo Session.pktInfo
    cases hi : mi.infos <;> simp [pktHdr, hi, hc.get, hsid]
  have hpkt : (sess.pktInfo u mi seqid).pkt = pktHdr sid u.name mi := by
    simp [Session.pktInfo, hsid]
  have hval : validatePktSession s (sess.pktInfo u mi seqid) addr = .ok := by
    simp [validatePktSession, hpkt, pktHdr, hc.get, hop, hc.addr, hc.user, hc.live]
  have hsig : pktChkSig e (rawPkt e u.name (hdrBytes sid u mi) chunk seqid)
      (pktHdr sid u.name mi) = .ok := by
    simp [pktChkSig, pktHdr, u.userKey, footCheck_rawPkt e u.ne_nil]
  simp only [cliRdPkt, parsePktHeader_rawPkt e hw, footSeqid_rawPkt, hinfo, hval, hsig, hc.master,
    hc.up, chunk_rawPkt]
  rcases tcpRx e ft fd addr (sess.pktInfo u mi seqid) chunk s with ⟨code, t⟩
  cases code <;> rfl

/-- A packet that arrives at time `now`, with the faults of its request. -/
structure Arrival where
  now : Nat
  ft : Faults
  raw : Bytes

/-- A packet from socket `fd` of a client at `addr` is read. -/
def Server.read (e : Env) (fd : Nat) (addr : Bytes) (s : Server) (a : Arrival) : Server :=
  (cliRdPkt e a.ft fd addr a.raw { s with currentTime := a.now }).2

/-- What is left of a session, and what has been handled, after packets were read. -/
structure After (s t : Server) (sid : Sid) (sess : Session) (told : List Handled) : Prop where
  get : t.sessions.get sid = some sess
  handled : t.handled = s.handled ++ told
  master : t.isMaster = s.isMaster
  up : t.up = s.up

theorem After.trans {s t v : Server} {sid : Sid} {sess sess' : Session} {told told' : List Handled}
    (h : After s t sid sess told) (g : After t v sid sess' told') :
    After s v sid sess' (told ++ told') :=
  ⟨g.get, by rw [g.handled, h.handled, List.append_assoc], g.master.trans h.master,
    g.up.trans h.up⟩

/-- The session is still reached if it is alive. -/
theorem After.reaches {s t : Server} {sid : Sid} {addr : Bytes} {u : User} {sess sess' : Session}
    {told : List Handled} (h : After s t sid sess' told) (hc : Reaches s sid addr u sess)
    (ha : sess'.addr = sess.addr) (hu : sess'.user = sess.user) (hd : sess'.dead = false) :
    Reaches t sid addr u sess' :=
  ⟨h.get, ha.trans hc.addr, hu.trans hc.user, hd, h.master.trans hc.master, h.up.trans hc.up⟩

theorem simpleSendmsg_after {s t : Server} {sid : Sid} {sess : Session} {told : List Handled}
    (h : After s t sid sess told) (e : Env) (fd : Nat) (sid' : Sid) (user : Bytes) (seqid : Nat)
    (msg : ServerMsg) (op : CldMsgOp) :
    After s (simpleSendmsg e t fd sid' user seqid msg op) sid sess told := by
  unfold simpleSendmsg
  split <;> exact ⟨h.get, h.handled, h.master, h.up⟩

/-- What reading a packet comes to is what `tcp_rx` makes of it. -/
theorem read_rawPkt (e : Env) (fd : Nat) {s : Server} {sid : Sid} {addr : Bytes} {u : User}
    {sess : Session} (hc : Reaches s sid addr u sess) {mi : CldPktMsgInfo}
    (hw : (pktHdr sid u.name mi).Wire) {chunk : Bytes} {seqid : Nat}
    (hop : (sess.pktInfo u mi seqid).op ≠ .newSess) {a : Arrival}
    (ha : a.raw = rawPkt e u.name (hdrBytes sid u mi) chunk seqid) {sess' : Session}
    {told : List Handled}
    (h : After { s with currentTime := a.now } (tcpRx e a.ft fd addr (sess.pktInfo u mi seqid) chunk
      { s with currentTime := a.now }).2 sid sess' told) :
    After s (s.read e fd addr a) sid sess' told := by
  suffices hafter : After { s with currentTime := a.now } (s.read e fd addr a) sid sess' told from
    ⟨hafter.get, hafter.handled, hafter.master, hafter.up⟩
  have hc' : Reaches { s with currentTime := a.now } sid addr u sess :=
    ⟨hc.get, hc.addr, hc.user, hc.live, hc.master, hc.up⟩
  rw [Server.read, ha, cliRdPkt_rawPkt e a.ft fd hc' hw chunk seqid hop]
  split
  · next ht => rwa [ht] at h
  · next ht =>
    rw [ht] at h
    dsimp only [simpleSendresp]
    exact simpleSendmsg_after h e fd _ _ _ _ _

/-- The message bytes of a session when a packet has come. -/
def Session.bufWith (sess : Session) (mi : CldPktMsgInfo) (chunk : Bytes) : Bytes :=
  (if mi.isFirst then [] else sess.msgBuf) ++ chunk

/-- The session when a packet has come whose bytes there is room for. -/
def Session.taken (sess : Session) (now fd : Nat) (u : User) (mi : CldPktMsgInfo) (chunk : Bytes)
    (seqid : Nat) : Session :=
  { sess.contact now fd (sess.pktInfo u mi seqid).op with
    msgOp := (sess.pktInfo u mi seqid).op
    msgXid := (sess.pktInfo u mi seqid).xid
    msgBuf := sess.bufWith mi chunk }

theorem Session.rx_fits (sess : Session) (now fd : Nat) (u : User) (mi : CldPktMsgInfo)
    {chunk : Bytes} (seqid : Nat) (h : (sess.bufWith mi chunk).length ≤ cldMaxMsgSz) :
    sess.rx now fd (sess.pktInfo u mi seqid) chunk =
      (true, sess.taken now fd u mi chunk seqid) := by
  cases hi : mi.infos with
  | none =>
    have hf : mi.isFirst = false := by simp [CldPktMsgInfo.isFirst, hi]
    simp only [bufWith, hf, Bool.false_eq_true, if_false, List.length_append] at h
    simp [Session.rx, Session.begin, Session.pktInfo, Session.taken, Session.contact, pktHdr, hi,
      hf, h.not_gt, bufWith]
  | some p =>
    have hf : mi.isFirst = true := by simp [CldPktMsgInfo.isFirst, hi]
    simp only [bufWith, hf, if_true, List.nil_append] at h
    simp [Session.rx, Session.begin, Session.pktInfo, Session.taken, Session.contact, pktHdr, hi,
      hf, h.not_gt, bufWith]

theorem arrive_fits {s : Server} {sid : Sid} {sess : Session} (hg : s.sessions.get sid = some sess)
    (fd : Nat) (u : User) (mi : CldPktMsgInfo) {chunk : Bytes} (seqid : Nat)
    (h : (sess.bufWith mi chunk).length ≤ cldMaxMsgSz) :
    s.arrive fd (sess.pktInfo u mi seqid) chunk =
      (true, s.putSess (sess.taken s.currentTime fd u mi chunk seqid)) := by
  have hsid : (sess.pktInfo u mi seqid).pkt.sid = sid := by
    simp [Session.pktInfo, pktHdr, get_sid hg]
  simp only [Server.arrive, hsid, hg, sess.rx_fits s.currentTime fd u mi seqid h]

/-! ## One packet -/

section

variable (e : Env) (fd : Nat) {s : Server} {sid : Sid} {addr : Bytes} {u : User} {sess : Session}

theorem After.putSess (s : Server) (sess : Session) : After s (s.putSess sess) sess.sid sess [] :=
  ⟨by simp [Server.putSess], by simp [Server.putSess], rfl, rfl⟩

/-- A piece that is not the last of its message waits for the others. -/
theorem read_part (hc : Reaches s sid addr u sess) {mi : CldPktMsgInfo}
    (hw : (pktHdr sid u.name mi).Wire) {chunk : Bytes} {seqid : Nat}
    (hop : (sess.pktInfo u mi seqid).op ≠ .newSess) (hl : mi.isLast = false)
    (hfit : (sess.bufWith mi chunk).length ≤ cldMaxMsgSz) {a : Arrival}
    (ha : a.raw = rawPkt e u.name (hdrBytes sid u mi) chunk seqid) :
    After s (s.read e fd addr a) sid (sess.taken a.now fd u mi chunk seqid) [] := by
  refine read_rawPkt e fd hc hw hop ha ?_
  have hlast : (sess.pktInfo u mi seqid).pkt.mi.isLast = false := hl
  have hput := After.putSess { s with currentTime := a.now } (sess.taken a.now fd u mi chunk seqid)
  have hsid : sess.sid = sid := get_sid hc.get
  simp only [tcpRx, arrive_fits (s := { s with currentTime := a.now }) hc.get fd u mi seqid hfit,
    hlast, Bool.not_true, Bool.not_false, Bool.false_eq_true, if_false, if_true]
  rw [show (sess.taken a.now fd u mi chunk seqid).sid = sid from hsid] at hput
  exact simpleSendmsg_after hput ..

theorem msgAck_after {v : Server} (hg : v.sessions.get sid = some sess) (n : Nat) :
    After v (msgAck sid n (v.note (.ack sid n))) sid (sess.ack n) [.ack sid n] := by
  have hsid : sess.sid = sid := get_sid hg
  have hack : (sess.ack n).sid = sid := by
    rw [Session.ack_eq]
    exact hsid
  have hnote : (v.note (.ack sid n)).sessions.get sid = some sess := hg
  simp only [msgAck, hnote]
  refine ⟨?_, rfl, rfl, rfl⟩
  rw [← hack]
  exact Table.get_put_self

theorem putSess_get {v : Server} {sess' : Session} (h : sess'.sid = sid) :
    (v.putSess sess').sessions.get sid = some sess' := by
  rw [← h]
  exact Table.get_put_self

/-- The last piece of what the server takes for an acknowledgement is handed to `msg_ack`. -/
theorem read_ack (hc : Reaches s sid addr u sess) {mi : CldPktMsgInfo}
    (hw : (pktHdr sid u.name mi).Wire) {chunk : Bytes} {seqid : Nat}
    (hop : (sess.pktInfo u mi seqid).op = .ack) (hl : mi.isLast = true)
    (hfit : (sess.bufWith mi chunk).length ≤ cldMaxMsgSz) {a : Arrival}
    (ha : a.raw = rawPkt e u.name (hdrBytes sid u mi) chunk seqid) :
    After s (s.read e fd addr a) sid
      ((sess.taken a.now fd u mi chunk seqid).ack (seqid % 2 ^ 64))
      [.ack sid (seqid % 2 ^ 64)] := by
  refine read_rawPkt e fd hc hw (by simp [hop]) ha ?_
  have hsid : sess.sid = sid := get_sid hc.get
  have hlast : (sess.pktInfo u mi seqid).pkt.mi.isLast = true := hl
  have hpsid : (sess.pktInfo u mi seqid).pkt.sid = sid := hsid
  have hseq : (sess.pktInfo u mi seqid).seqid = seqid % 2 ^ 64 := rfl
  have hget : (({ s with currentTime := a.now } : Server).putSess
      (sess.taken a.now fd u mi chunk seqid)).sessions.get sid =
      some (sess.taken a.now fd u mi chunk seqid) := putSess_get hsid
  have hafter := msgAck_after hget (seqid % 2 ^ 64)
  simp only [tcpRx, arrive_fits (s := { s with currentTime := a.now }) hc.get fd u mi seqid hfit,
    hlast, dispatch, hop, hpsid, hseq, Bool.not_true, Bool.false_eq_true, if_false]
  exact ⟨hafter.get, hafter.handled, hafter.master, hafter.up⟩

/-- A piece there is no room for is dropped. -/
theorem read_overflow (hc : Reaches s sid addr u sess) {mi : CldPktMsgInfo}
    (hw : (pktHdr sid u.name mi).Wire) {chunk : Bytes} {seqid : Nat}
    (hop : (sess.pktInfo u mi seqid).op ≠ .newSess) (hf : mi.isFirst = false)
    (hfit : cldMaxMsgSz < (sess.bufWith mi chunk).length) {a : Arrival}
    (ha : a.raw = rawPkt e u.name (hdrBytes sid u mi) chunk seqid) :
    After s (s.read e fd addr a) sid
      (sess.contact a.now fd (sess.pktInfo u mi seqid).op) [] := by
  refine read_rawPkt e fd hc hw hop ha ?_
  have hsid : sess.sid = sid := get_sid hc.get
  have hpsid : (sess.pktInfo u mi seqid).pkt.sid = sid := hsid
  have hfirst : (sess.pktInfo u mi seqid).pkt.mi.isFirst = false := hf
  have hfull : cldMaxMsgSz < sess.msgBuf.length + chunk.length := by
    simpa [Session.bufWith, hf] using hfit
  have hrx : sess.rx a.now fd (sess.pktInfo u mi seqid) chunk =
      (false, sess.contact a.now fd (sess.pktInfo u mi seqid).op) := by
    simp only [Session.rx, Session.begin, hfirst, Bool.false_eq_true, if_false]
    exact if_pos hfull
  have hput := After.putSess { s with currentTime := a.now }
    (sess.contact a.now fd (sess.pktInfo u mi seqid).op)
  rw [show (sess.contact a.now fd (sess.pktInfo u mi seqid).op).sid = sid from hsid] at hput
  simp only [tcpRx, Server.arrive, hpsid, hc.get, hrx, Bool.not_false, if_true]
  exact hput

/-- A dead session gets no packet. -/
theorem read_dead (addr : Bytes) (hg : s.sessions.get sid = some sess) (hd : sess.dead = true) {mi : CldPktMsgInfo}
    (hw : (pktHdr sid u.name mi).Wire) {chunk : Bytes} {seqid : Nat} {a : Arrival}
    (ha : a.raw = rawPkt e u.name (hdrBytes sid u mi) chunk seqid) :
    After s (s.read e fd addr a) sid sess [] := by
  have hinfo : getPktInfo { s with currentTime := a.now } (pktHdr sid u.name mi) (seqid % 2 ^ 64) =
      some (sess.pktInfo u mi seqid) := by
    unfold getPktInfo Session.pktInfo
    cases hi : mi.infos <;> simp [pktHdr, hi, hg, get_sid hg]
  have hpsid : (sess.pktInfo u mi seqid).pkt.sid = sid := get_sid hg
  have hval : validatePktSession { s with currentTime := a.now } (sess.pktInfo u mi seqid) addr ≠
      .ok := by
    simp only [validatePktSession, hpsid, hg, hd, if_true]
    split_ifs <;> simp
  simp only [Server.read, ha, cliRdPkt, parsePktHeader_rawPkt e hw, footSeqid_rawPkt, hinfo, hval,
    ne_eq, not_false_eq_true, if_true, simpleSendresp]
  have hsame : After s { s with currentTime := a.now } sid sess [] :=
    ⟨hg, (List.append_nil _).symm, rfl, rfl⟩
  exact simpleSendmsg_after hsame ..

end

/-! ## Complete messages -/

/-- A message body that is an encoding of a request with this `op`. -/
def Encodes (op : CldMsgOp) (body : Bytes) : Prop :=
  (op = .nop ∨ op = .endSess) ∧ body = [] ∨
    ∃ dec, Request.decode op = some dec ∧ (dec body).isSome = true

/-- What a session keeps when a request of it has been handled: everything its packets are checked
against, and the packets whose acknowledgement ends it, of which there is a new one if that is what
was requested. -/
structure Survives (sess sess' : Session) (op : CldMsgOp) : Prop where
  addr : sess'.addr = sess.addr
  user : sess'.user = sess.user
  dead : sess'.dead = sess.dead
  kills : ∀ n, sess'.kills n = (sess.kills n || (op = .endSess && n = sess.nextSeqidOut % 2 ^ 64))

theorem Session.kills_core (sess : Session) (n : Nat) :
    sess.kills n = sess.core.outQ.any fun op => footSeqid op.pktData = n := by
  simp [Session.kills, Session.core, List.any_filter]

theorem Survives.of_core {sess sess' : Session} {op : CldMsgOp} (h : sess'.core = sess.core)
    (hop : op ≠ .endSess) : Survives sess sess' op where
  addr := by
    have hc : sess'.core.addr = sess.core.addr := by rw [h]
    exact hc
  user := by
    have hc : sess'.core.user = sess.core.user := by rw [h]
    exact hc
  dead := by
    have hc : sess'.core.dead = sess.core.dead := by rw [h]
    exact hc
  kills n := by simp [Session.kills_core, h, hop]

theorem SessFrame.after {P : Sent → Prop} {s t : Server} {sid : Sid} {sess : Session} {h : Handled}
    (hf : SessFrame P (s.note h) t) (hg : s.sessions.get sid = some sess) :
    ∃ sess', After s t sid sess' [h] ∧ sess'.core = sess.core := by
  obtain ⟨sess', hg', hcore⟩ := hf.get' (s := s.note h) hg
  exact ⟨sess', ⟨hg', hf.handled, hf.isMaster, hf.up⟩, hcore⟩

/-- The reply to `CMO_END_SESS` is one packet. -/
theorem msgEndSess_eq (e : Env) {s : Server} {sid : Sid} {sess : Session}
    (hg : s.sessions.get sid = some sess) (xid : Nat) :
    ∃ pkt, footSeqid pkt = sess.nextSeqidOut % 2 ^ 64 ∧ msgEndSess e sid xid s =
      s.queue sess ⟨sid, .endSess, .genericResp .ok xid⟩ .endSessDone [pkt] := by
  have hlen : (putGeneric .ok xid).length ≤ cldMaxPktMsgSz := by simp [putGeneric, cldMaxPktMsgSz]
  have hmax : (putGeneric .ok xid).length ≤ cldMaxMsgSz := hlen.trans (by decide)
  have hparts : ∀ rnd, msgParts rnd .endSess (putGeneric .ok xid).length true (putGeneric .ok xid) =
      [(.firstLast rnd .endSess, putGeneric .ok xid)] := by
    intro rnd
    cases hn : (putGeneric .ok xid).length <;> simp [msgParts, pktMi, hlen]
  refine ⟨rawPkt e sess.user.name (hdrBytes sid sess.user (.firstLast (cldRand64 e s.rnd) .endSess))
    (putGeneric .ok xid) sess.nextSeqidOut, footSeqid_rawPkt .., ?_⟩
  simp only [msgEndSess, sessSendmsg, hg, ServerMsg.encode, hmax.not_gt, if_false,
    sessPkts_eq e sid sess.user sess.nextSeqidOut _ .endSess hmax, hparts, signedPkts, List.map_cons,
    List.map_nil]

theorem dispatch_after (e : Env) (ft : Faults) (fd : Nat) (addr : Bytes) {s : Server} {sid : Sid}
    {sess : Session} (hg : s.sessions.get sid = some sess) {info : PktInfo}
    (hsid : info.pkt.sid = sid) (henc : Encodes info.op sess.msgBuf) :
    ∃ sess', After s (dispatch e ft fd addr info s).2 sid sess'
        [.request sid info.seqid info.op info.xid sess.msgBuf] ∧ Survives sess sess' info.op := by
  have hbuf : s.msgBuf sid = sess.msgBuf := by simp [Server.msgBuf, hg]
  rcases henc with ⟨hop | hop, hb⟩ | ⟨dec, hdec, hreq⟩
  · simp only [dispatch, hop, hsid, hbuf]
    have hf := (sessSendrespGeneric_frame e (s.note (.request sid info.seqid .nop info.xid
      sess.msgBuf)) sid .ok).toSessFrame
    obtain ⟨sess', hafter, hcore⟩ := hf.after hg
    exact ⟨sess', hafter, .of_core hcore (by simp)⟩
  · simp only [dispatch, hop, hsid, hbuf]
    obtain ⟨pkt, hpkt, heq⟩ := msgEndSess_eq e (s := s.note (.request sid info.seqid .endSess info.xid
      sess.msgBuf)) hg info.xid
    rw [heq]
    have hq := Server.queue_get (s.note (.request sid info.seqid .endSess info.xid sess.msgBuf)) sess
      ⟨sid, .endSess, .genericResp .ok info.xid⟩ .endSessDone [pkt]
    rw [get_sid hg] at hq
    refine ⟨_, ⟨hq, rfl, rfl, rfl⟩, ⟨rfl, rfl, rfl, fun n => ?_⟩⟩
    have hn : decide (footSeqid pkt = n) = decide (n = sess.nextSeqidOut % 2 ^ 64) := by
      rw [hpkt, decide_eq_decide, eq_comm]
    simp only [Session.kills, List.map_cons, List.map_nil, List.any_append, List.any_cons,
      List.any_nil, hn, decide_true, Bool.true_and, Bool.or_false]
  · have hop : info.op ≠ .endSess := by
      intro he
      rw [he] at hdec
      cases hdec
    obtain ⟨⟨req, rest⟩, hr⟩ := Option.isSome_iff_exists.mp hreq
    rw [dispatch_of_decode hdec]
    simp only [tcpRxHandle, hsid, hg, hr, get_sid hg]
    have hframe := @handle_sessFrame e ft sid req (s.note (.request sid info.seqid info.op info.xid
      sess.msgBuf)) sess hg
    obtain ⟨sess', hafter, hcore⟩ := hframe.after hg
    exact ⟨sess', hafter, .of_core hcore hop⟩

/-- The last piece of a message that decodes completes it. -/
theorem read_last (e : Env) (fd : Nat) {s : Server} {sid : Sid} {addr : Bytes} {u : User}
    {sess : Session} (hc : Reaches s sid addr u sess) {mi : CldPktMsgInfo}
    (hw : (pktHdr sid u.name mi).Wire) {chunk : Bytes} {seqid : Nat} (hl : mi.isLast = true)
    (hfit : (sess.bufWith mi chunk).length ≤ cldMaxMsgSz)
    (henc : Encodes (sess.pktInfo u mi seqid).op (sess.bufWith mi chunk)) {a : Arrival}
    (ha : a.raw = rawPkt e u.name (hdrBytes sid u mi) chunk seqid) :
    ∃ sess', After s (s.read e fd addr a) sid sess' [.request sid (seqid % 2 ^ 64)
        (sess.pktInfo u mi seqid).op (sess.pktInfo u mi seqid).xid (sess.bufWith mi chunk)] ∧
      Survives sess sess' (sess.pktInfo u mi seqid).op := by
  have hop : (sess.pktInfo u mi seqid).op ≠ .newSess := by
    intro he
    rw [he] at henc
    rcases henc with ⟨h | h, -⟩ | ⟨dec, hdec, -⟩
    · cases h
    · cases h
    · cases hdec
  have hsid : sess.sid = sid := get_sid hc.get
  have hlast : (sess.pktInfo u mi seqid).pkt.mi.isLast = true := hl
  have hpsid : (sess.pktInfo u mi seqid).pkt.sid = sid := hsid
  have hget : (({ s with currentTime := a.now } : Server).putSess
      (sess.taken a.now fd u mi chunk seqid)).sessions.get sid =
      some (sess.taken a.now fd u mi chunk seqid) := putSess_get hsid
  obtain ⟨sess', hafter, hsurv⟩ := dispatch_after e a.ft fd addr hget hpsid henc
  refine ⟨sess', read_rawPkt e fd hc hw hop ha ?_, ?_⟩
  · simp only [tcpRx, arrive_fits (s := { s with currentTime := a.now }) hc.get fd u mi seqid hfit,
      hlast, Bool.not_true, Bool.false_eq_true, if_false]
    exact ⟨hafter.get, hafter.handled, hafter.master, hafter.up⟩
  · exact ⟨hsurv.addr, hsurv.user, hsurv.dead, hsurv.kills⟩

end Hail.Cld
