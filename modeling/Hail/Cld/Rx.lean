import Hail.Cld.Msg

/-!
# Receiving packets

From a packet to the handler of its message: `parse_pkt_header`, `get_pkt_info`,
`validate_pkt_session`, `pkt_chk_sig` and `tcp_rx` of `server.c`. A message that takes several
packets is put together in the session.
-/
namespace Hail.Cld

open Library

/-- `struct pkt_info` without its session, which is looked up by `pkt.sid`. -/
structure PktInfo where
  pkt : CldPktHdr
  seqid : Nat
  xid : Nat
  op : CldMsgOp
  deriving DecidableEq, Repr

/-- The header and its length. -/
def parsePktHeader (raw : Bytes) : Option (CldPktHdr × Nat) :=
  if raw.length ≤ cldPktFtrLen then none
  else
    match CldPktHdr.decode (raw.take (raw.length - cldPktFtrLen)) with
    | none => none
    | some (pkt, rest) =>
      if pkt.magic ≠ ofLe cldPktMagic then none
      else some (pkt, raw.length - cldPktFtrLen - rest.length)

/-- A packet that is not the first of its message takes `xid` and `op` from its session. -/
def getPktInfo (srv : Server) (pkt : CldPktHdr) (seqid : Nat) : Option PktInfo :=
  match pkt.mi.infos with
  | some (xid, op) => some ⟨pkt, seqid, xid, op⟩
  | none => (srv.sessions.get pkt.sid).map fun s => ⟨pkt, seqid, s.msgXid, s.msgOp⟩

def validatePktSession (srv : Server) (info : PktInfo) (addr : Bytes) : CleErrCodes :=
  match srv.sessions.get info.pkt.sid with
  | none => if info.op ≠ .newSess then .sessInval else .ok
  | some sess =>
    if info.op = .newSess then .sessExists
    else if sess.addr ≠ addr then .sessInval
    else if info.pkt.user ≠ sess.user.name then .sessInval
    else if sess.dead then .sessInval
    else .ok

def pktChkSig (e : Env) (raw : Bytes) (pkt : CldPktHdr) : CleErrCodes :=
  if footCheck e (userKey pkt.user) raw then .ok else .sigInval

/-- The user of a packet that has passed `pkt_chk_sig`. -/
def User.ofBytes (name : Bytes) : Option User :=
  if h : name ≠ [] ∧ name.length < cldMaxUsername ∧ ∀ b ∈ name, b ≠ 0 then
    some ⟨name, h.1, h.2.1, h.2.2⟩
  else none

/-- The contact of a packet with its session is noted. -/
def Session.contact (sess : Session) (now fd : Nat) (op : CldMsgOp) : Session :=
  { sess with
    lastContact := now
    sockFd := fd
    nextSeqidIn := if op ≠ .ack then (sess.nextSeqidIn + 1) % 2 ^ 64 else sess.nextSeqidIn }

/-- A first packet begins a new message. -/
def Session.begin (sess : Session) (info : PktInfo) : Session :=
  if info.pkt.mi.isFirst then { sess with msgOp := info.op, msgXid := info.xid, msgBuf := [] }
  else sess

/-- What a packet does to its session, and whether there is room for the piece of message it
carries. -/
def Session.rx (sess : Session) (now fd : Nat) (info : PktInfo) (chunk : Bytes) : Bool × Session :=
  let sess := (sess.contact now fd info.op).begin info
  if cldMaxMsgSz < sess.msgBuf.length + chunk.length then (false, sess)
  else (true, { sess with msgBuf := sess.msgBuf ++ chunk })

/-- The message bytes a session has put together. -/
def Server.msgBuf (srv : Server) (sid : Sid) : Bytes := (srv.sessions.get sid).elim [] Session.msgBuf

def Server.note (srv : Server) (h : Handled) : Server := { srv with handled := srv.handled ++ [h] }

/-- `tcp_rx_handle` -/
def tcpRxHandle (e : Env) (ft : Faults) (info : PktInfo) (dec : Xdr.Decoder Request)
    (srv : Server) : CleErrCodes × Server :=
  match srv.sessions.get info.pkt.sid with
  | none => (.badPkt, srv)
  | some sess =>
    match dec sess.msgBuf with
    | none => (.badPkt, srv)
    | some (req, _) =>
      (.ok, req.handle e ft sess.sid
        (srv.note (.request sess.sid info.seqid info.op info.xid sess.msgBuf)))

/-- The switch of `tcp_rx` over a complete message. -/
def dispatch (e : Env) (ft : Faults) (fd : Nat) (addr : Bytes) (info : PktInfo) (srv : Server) :
    CleErrCodes × Server :=
  let sid := info.pkt.sid
  let noted := srv.note (.request sid info.seqid info.op info.xid (srv.msgBuf sid))
  match info.op with
  | .ack => (.ok, msgAck sid info.seqid (srv.note (.ack sid info.seqid)))
  | .nop => (.ok, sessSendrespGeneric e noted sid .ok)
  | .newSess =>
    match User.ofBytes info.pkt.user with
    | none => (.ok, srv)
    | some user => (.ok, msgNewSess e ft fd addr sid user info.seqid info.xid noted)
  | .endSess => (.ok, msgEndSess e sid info.xid noted)
  | op =>
    match Request.decode op with
    | none => (.ok, srv)
    | some dec => tcpRxHandle e ft info dec srv

/-- The session of a packet takes it in, if there is one and there is room. -/
def Server.arrive (srv : Server) (fd : Nat) (info : PktInfo) (chunk : Bytes) : Bool × Server :=
  match srv.sessions.get info.pkt.sid with
  | none => (true, srv)
  | some sess =>
    let (fits, sess) := sess.rx srv.currentTime fd info chunk
    (fits, srv.putSess sess)

/-- `tcp_rx` of a packet with the message bytes `chunk`. -/
def tcpRx (e : Env) (ft : Faults) (fd : Nat) (addr : Bytes) (info : PktInfo) (chunk : Bytes)
    (srv : Server) : CleErrCodes × Server :=
  let pkt := info.pkt
  let (fits, srv) := srv.arrive fd info chunk
  if !fits then (.badPkt, srv)
  else if !pkt.mi.isLast then
    (.ok, simpleSendmsg e srv fd pkt.sid pkt.user 0xdeadbeef (.ackFrag info.seqid) .ackFrag)
  else dispatch e ft fd addr info srv

def simpleSendresp (e : Env) (fd : Nat) (info : PktInfo) (code : CleErrCodes) (srv : Server) :
    Server :=
  simpleSendmsg e srv fd info.pkt.sid info.pkt.user info.seqid (.genericResp code info.xid) info.op

/-- `cli_rd_pkt` for a raw packet from socket `fd` of a client at `addr`, up to the point where it
asks for the next packet, and whether it gets there. -/
def cliRdPkt (e : Env) (ft : Faults) (fd : Nat) (addr : Bytes) (raw : Bytes) (srv : Server) :
    Bool × Server :=
  match parsePktHeader raw with
  | none => (false, { srv with garbage := srv.garbage + 1 })
  | some (pkt, hdrLen) =>
    match getPktInfo srv pkt (footSeqid raw) with
    | none => (false, { srv with garbage := srv.garbage + 1 })
    | some info =>
      let code := validatePktSession srv info addr
      if code ≠ .ok then (false, simpleSendresp e fd info code srv)
      else
        let code := pktChkSig e raw pkt
        if code ≠ .ok then (false, simpleSendresp e fd info code srv)
        else if !(srv.isMaster && srv.up) then
          (false, simpleSendmsg e srv fd pkt.sid pkt.user 0xdeadbeef .void .notMaster)
        else
          let chunk := (raw.take (raw.length - cldPktFtrLen)).drop hdrLen
          match tcpRx e ft fd addr info chunk srv with
          | (.ok, srv) => (true, srv)
          | (code, srv) => (false, simpleSendresp e fd info code srv)

end Hail.Cld
