import Hail.Cldc.Session

/-!
# Receiving packets in the client library

`cldc_receive_pkt` and what it calls: the window of sequence numbers, the assembly of messages, and
what is done with a complete message. Every message that is understood is acknowledged, but for
events.
-/
namespace Hail.Cldc

open Library Cld

def eacces : Nat := 13
def ebade : Nat := 52
def ebadrqc : Nat := 56
def ebadslt : Nat := 57
def eproto : Nat := 71

/-! ## Sequence numbers -/

/-- The difference of two 64-bit numbers is not negative, as a signed number. -/
def seqidAfterEq (a b : Nat) : Bool := (a + 2 ^ 64 - b % 2 ^ 64) % 2 ^ 64 < 2 ^ 63

def seqidBeforeEq (a b : Nat) : Bool := seqidAfterEq b a

def seqidInRange (a b c : Nat) : Bool := seqidAfterEq a b && seqidBeforeEq a c

/-- `accept_seqid`, or `none` if the number is not in the window. -/
def CldcSession.acceptSeqid (sess : CldcSession) (seqid : Nat) : CldMsgOp → Option CldcSession
  | .newSess =>
    let next := (seqid + 1) % 2 ^ 64
    some { sess with
      nextSeqidIn := next, nextSeqidInTr := (next + 2 ^ 64 - cldcMsgRemember) % 2 ^ 64 }
  | .notMaster | .ackFrag => some sess
  | _ =>
    if seqid = sess.nextSeqidIn then
      some { sess with
        nextSeqidIn := (sess.nextSeqidIn + 1) % 2 ^ 64
        nextSeqidInTr := (sess.nextSeqidInTr + 1) % 2 ^ 64 }
    else if seqidInRange seqid sess.nextSeqidInTr sess.nextSeqidIn then some sess
    else none

/-! ## Complete messages -/

/-- `ack_seqid`; the write succeeds if `ok`. -/
def CldcSession.ackSeqid (e : Env) (ok : Bool) (sess : CldcSession) (seqid : Nat) :
    Int × CldcSession :=
  match ackPkt e sess.sid sess.user.name sess.secretKey seqid with
  | none => (-1009, sess)
  | some buf => if ok then (0, sess.sendPkts [⟨none, false, buf.data⟩]) else (-eio, sess)

/-- `rxmsg_generic`: a response is matched with its request, whose callback is made if this is the
first one. -/
def CldcSession.rxmsgGeneric (e : Env) (ok : Bool) (sess : CldcSession) (seqid : Nat) :
    Int × CldcSession :=
  match getGeneric sess.msgBuf with
  | none => (-1008, sess)
  | some ((code, xidIn), _) =>
    match sess.outMsg.find? fun msg => msg.xid = xidIn with
    | none => (-1005, sess)
    | some req =>
      if req.done then sess.ackSeqid e ok seqid
      else
        let outMsg := sess.outMsg.map fun msg =>
          if msg.num = req.num then { msg with done := true } else msg
        let (rc, sess) := { sess with outMsg }.runCb req sess.msgBuf code
        if rc < 0 then (rc, sess) else sess.ackSeqid e ok seqid

/-- `rxmsg_event` -/
def CldcSession.rxmsgEvent (sess : CldcSession) : Int × CldcSession :=
  let decode : Xdr.Decoder (Nat × Nat) := do
    let fh ← Xdr.getHyper
    let events ← Xdr.getInt
    return (fh, events)
  match decode sess.msgBuf with
  | none => (-1008, sess)
  | some ((fh, events), _) =>
    match sess.cfh.find? fun f => f.fh = fh with
    | none => (-1011, sess)
    | some f => (0, { sess with events := sess.events ++ [(some f.id, events)] })

/-- `rxmsg_ack_frag`. The number compared with is not read from the footer of a packet but
`CLD_PKT_FTR_LEN` times as far behind its beginning: `stray num i` is what is found there for the
`i`-th packet of a message. -/
def CldcSession.rxmsgAckFrag (stray : Nat → Nat → Nat) (sess : CldcSession) : Int × CldcSession :=
  match Xdr.getHyper sess.msgBuf with
  | none => (-1008, sess)
  | some (seqid, _) =>
    let outMsg := sess.outMsg.map fun msg =>
      { msg with pktInfo := msg.pktInfo.mapIdx fun i pi =>
          if stray msg.num i = seqid then none else pi }
    (0, { sess with outMsg })

/-- `rx_complete` -/
def CldcSession.rxComplete (e : Env) (ok : Bool) (stray : Nat → Nat → Nat) (sess : CldcSession)
    (seqid : Nat) : Int × CldcSession :=
  match sess.msgBufOp with
  | .ack => (-ebadrqc, sess)
  | .ping => sess.ackSeqid e ok seqid
  | .notMaster => (-1055, sess)
  | .event => sess.rxmsgEvent
  | .ackFrag => sess.rxmsgAckFrag stray
  | _ => sess.rxmsgGeneric e ok seqid

/-! ## Packets -/

/-- `sess_expire_outmsg` -/
def CldcSession.expireOutmsg (sess : CldcSession) (now : Nat) : CldcSession :=
  { sess with
    outMsg := sess.outMsg.filter fun msg => ¬ msg.expireTime < now
    msgScanTime := now + cldcMsgScan }

/-- The part of `cldc_receive_pkt` after the checks of the packet. -/
def CldcSession.rxPkt (e : Env) (now : Nat) (ok : Bool) (stray : Nat → Nat → Nat)
    (sess : CldcSession) (mi : CldPktMsgInfo) (chunk : Bytes) (seqid : Nat) : Int × CldcSession :=
  let sess := if sess.msgScanTime ≤ now then sess.expireOutmsg now else sess
  let sess := { sess with msgBufOp := (mi.infos.map Prod.snd).getD sess.msgBufOp }
  match sess.acceptSeqid seqid sess.msgBufOp with
  | none => (-ebadslt, sess)
  | some sess =>
    let sess := if mi.isFirst then { sess with msgBuf := [] } else sess
    if cldMaxMsgSz < sess.msgBuf.length + chunk.length then (-eproto, sess)
    else
      let sess := { sess with
        msgBuf := sess.msgBuf ++ chunk, expireTime := now + cldcSessExpire }
      if mi.isLast then sess.rxComplete e ok stray seqid else sess.ackSeqid e ok seqid

/-- `cldc_receive_pkt` at `now`, for a packet from `netAddr`. -/
def cldcReceivePkt (e : Env) (now : Nat) (ok : Bool) (stray : Nat → Nat → Nat) (netAddr raw : Bytes)
    (sess : CldcSession) : Int × CldcSession :=
  if raw.length < cldPktFtrLen then (-eproto, sess)
  else
    match CldPktHdr.decode (raw.take (raw.length - cldPktFtrLen)) with
    | none => (-eproto, sess)
    | some (pkt, chunk) =>
      if pkt.magic ≠ ofLe cldPktMagic then (-eproto, sess)
      else if !footCheck e (cldcUserKey sess.user.name sess.secretKey pkt.user) raw then
        (-eacces, sess)
      else if sess.addr ≠ netAddr then (-ebade, sess)
      else sess.rxPkt e now ok stray pkt.mi chunk (footSeqid raw)

end Hail.Cldc
