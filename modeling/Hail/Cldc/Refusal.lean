import Hail.Cldc.Window

/-!
# Replies to packets that are refused

`cli_rd_pkt` answers a packet that it refuses through `simple_sendresp`, which gives the reply the
sequence number of that packet. The numbers of a client's packets and those of the server's are
drawn independently, and the client looks for the number of a reply among the latter: the reply is
dropped unless the two happen to be close to each other.
-/
namespace Hail.Cldc

open Library Cld

/-- What `cli_rd_pkt` has `simple_sendresp` answer: what the packet was taken for, and the code. -/
def refusal (e : Env) (ft : Faults) (fd : Nat) (addr raw : Bytes) (srv : Server) :
    Option (PktInfo × CleErrCodes) := do
  let (pkt, hdrLen) ← parsePktHeader raw
  let info ← getPktInfo srv pkt (footSeqid raw)
  let code := validatePktSession srv info addr
  if code ≠ .ok then return (info, code)
  let code := pktChkSig e raw pkt
  if code ≠ .ok then return (info, code)
  guard (srv.isMaster && srv.up)
  let (code, _) := tcpRx e ft fd addr info ((raw.take (raw.length - cldPktFtrLen)).drop hdrLen) srv
  guard (code ≠ .ok)
  return (info, code)

theorem cliRdPkt_refusal {e : Env} {ft : Faults} {fd : Nat} {addr raw : Bytes} {srv : Server}
    {info : PktInfo} {code : CleErrCodes} (h : refusal e ft fd addr raw srv = some (info, code)) :
    code ≠ .ok ∧ info.seqid = footSeqid raw ∧
      ∃ t, cliRdPkt e ft fd addr raw srv = (false, simpleSendresp e fd info code t) := by
  unfold refusal at h
  cases hp : parsePktHeader raw with
  | none => simp [hp] at h
  | some hdr =>
    obtain ⟨pkt, hdrLen⟩ := hdr
    cases hi : getPktInfo srv pkt (footSeqid raw) with
    | none => simp [hp, hi] at h
    | some info' =>
      have hseqid : info'.seqid = footSeqid raw := by
        unfold getPktInfo at hi
        split at hi
        · cases hi
          rfl
        · obtain ⟨sess, -, rfl⟩ := Option.map_eq_some_iff.mp hi
          rfl
      simp only [hp, hi, Option.bind_eq_bind, Option.bind_some] at h
      unfold cliRdPkt
      simp only [hp, hi]
      by_cases hval : validatePktSession srv info' addr = .ok
      · by_cases hsig : pktChkSig e raw pkt = .ok
        · rcases hrx : tcpRx e ft fd addr info'
            ((raw.take (raw.length - cldPktFtrLen)).drop hdrLen) srv with ⟨code', t⟩
          simp only [hval, hsig, hrx, ne_eq, not_true_eq_false, if_false, guard, pure] at h
          by_cases hup : (srv.isMaster && srv.up) = true
          · by_cases hcode : code' = .ok
            · simp [hup, hcode] at h
            · simp only [hup, hcode, not_false_eq_true, if_true, Option.bind_some,
                Option.some.injEq, Prod.mk.injEq] at h
              obtain ⟨rfl, rfl⟩ := h
              refine ⟨hcode, hseqid, t, ?_⟩
              cases code' <;> simp_all
          · simp [hup] at h
        · simp only [hval, hsig, ne_eq, not_true_eq_false, if_false, not_false_eq_true, if_true,
            pure, Option.some.injEq, Prod.mk.injEq] at h
          obtain ⟨rfl, rfl⟩ := h
          exact ⟨hsig, hseqid, srv, by simp [hval, hsig]⟩
      · simp only [hval, ne_eq, not_false_eq_true, if_true, pure, Option.some.injEq,
          Prod.mk.injEq] at h
        obtain ⟨rfl, rfl⟩ := h
        exact ⟨hval, hseqid, srv, by simp [hval]⟩

/-- The reply that `simple_sendresp` is to send, with the random `xid` of its header, signed with
`key`. -/
def errorReply (e : Env) (key : Bytes) (xid : Nat) (info : PktInfo) (code : CleErrCodes) : Bytes :=
  let hdr := (pktHdr info.pkt.sid info.pkt.user (.firstLast xid info.op)).encode.getD []
  rawPkt e key hdr (putGeneric code info.xid) info.seqid

/-- The operations that a client requests. -/
def isClientRequest : CldMsgOp → Bool
  | .ack | .ping | .notMaster | .event | .ackFrag | .other _ => false
  | _ => true

theorem isClientRequest_wire {op : CldMsgOp} (h : isClientRequest op = true) : op.Wire := by
  cases op <;> first | decide | cases h

/-- The scan for messages that have expired keeps the others. -/
theorem find_begun {sess : CldcSession} {now xid : Nat} {req : CldcMsg} (mi : CldPktMsgInfo)
    (h : sess.outMsg.find? (fun msg => msg.xid = xid) = some req) (hexp : now ≤ req.expireTime) :
    (sess.begun now mi).outMsg.find? (fun msg => msg.xid = xid) = some req := by
  unfold CldcSession.begun
  dsimp only
  split
  · obtain ⟨hx, before, after, heq, hnot⟩ := List.find?_eq_some_iff_append.mp h
    simp only [CldcSession.expireOutmsg, List.find?_filter]
    rw [List.find?_eq_some_iff_append]
    refine ⟨by simpa [hexp] using hx, before, after, heq, fun msg hm => ?_⟩
    have hne := hnot msg hm
    simp only [Bool.not_eq_true', decide_eq_false_iff_not] at hne
    simp [hne]
  · exact h

theorem runCb_calls (sess : CldcSession) (msg : CldcMsg) (resp : Bytes) (code : Nat) :
    (sess.runCb msg resp code).2.calls = sess.calls ++ [(msg.num, code)] := by
  unfold CldcSession.runCb
  dsimp only
  split
  · split <;> rfl
  · split <;> rfl
  · rfl
  · split
    · split <;> rfl
    · rfl
  · split <;> rfl
  · split <;> rfl

theorem ackSeqid_calls (e : Env) (ok : Bool) (sess : CldcSession) (seqid : Nat) :
    (sess.ackSeqid e ok seqid).2.calls = sess.calls := by
  unfold CldcSession.ackSeqid
  split
  · rfl
  · split <;> rfl

theorem rxComplete_of_request {op : CldMsgOp} (e : Env) (ok : Bool) (stray : Nat → Nat → Nat)
    {sess : CldcSession} (hop : sess.msgBufOp = op) (hreq : isClientRequest op = true)
    (seqid : Nat) : sess.rxComplete e ok stray seqid = sess.rxmsgGeneric e ok seqid := by
  unfold CldcSession.rxComplete
  subst hop
  split <;> simp_all [isClientRequest]

/-- A pending request is completed by the first response to it. -/
theorem rxmsgGeneric_calls (e : Env) (ok : Bool) {sess : CldcSession} {code : CleErrCodes}
    {xid : Nat} {req : CldcMsg} (hbuf : sess.msgBuf = putGeneric code xid)
    (hfind : sess.outMsg.find? (fun msg => msg.xid = xid % 2 ^ 64) = some req)
    (hdone : req.done = false) (seqid : Nat) :
    (sess.rxmsgGeneric e ok seqid).2.calls = sess.calls ++ [(req.num, code.toNat)] := by
  have hget := getGeneric_putGeneric code xid []
  rw [List.append_nil] at hget
  simp only [CldcSession.rxmsgGeneric, hbuf, hget, hfind, hdone, Bool.false_eq_true, if_false]
  split
  · rw [runCb_calls]
  · rw [ackSeqid_calls, runCb_calls]

/-- The reply to a request that is refused is accepted, and completes the request with its code, if
and only if the number of the request is in the window of the numbers of the server. -/
theorem errorReply_completes_iff {e : Env} {ft : Faults} {fd : Nat} {addr raw : Bytes}
    {srv : Server} {info : PktInfo} {code : CleErrCodes}
    (hr : refusal e ft fd addr raw srv = some (info, code)) {sess : CldcSession}
    (hsess : sess.Established) (hsid : info.pkt.sid = sess.sid)
    (huser : info.pkt.user = sess.user.name) (hreq : isClientRequest info.op = true)
    {req : CldcMsg} (hfind : sess.outMsg.find? (fun msg => msg.xid = info.xid % 2 ^ 64) = some req)
    (hdone : req.done = false) {now : Nat} (hexp : now ≤ req.expireTime) {xid : Nat}
    (hxid : xid < 2 ^ 64) (ok : Bool) (stray : Nat → Nat → Nat) :
    (sess.acceptSeqid info.seqid info.op).isSome = true ∧
        (cldcReceivePkt e now ok stray sess.addr
          (errorReply e sess.secretKey xid info code) sess).2.calls =
            sess.calls ++ [(req.num, code.toNat)] ↔
      info.op = .newSess ∨ sess.window.lag info.seqid ≤ cldcMsgRemember := by
  obtain ⟨-, hseqid, -⟩ := cliRdPkt_refusal hr
  have hmod : info.seqid % 2 ^ 64 = info.seqid := by
    rw [hseqid]
    exact Nat.mod_eq_of_lt (footSeqid_lt raw)
  have hne : info.op ≠ .notMaster ∧ info.op ≠ .ackFrag := by
    constructor <;> (intro h; simp [h, isClientRequest] at hreq)
  have hacc := SeqWindow.accept_isSome hsess info.seqid info.op
  simp only [hmod, hne, false_or] at hacc
  set mi : CldPktMsgInfo := .firstLast xid info.op with hmi
  have hw : (pktHdr info.pkt.sid sess.user.name mi).Wire :=
    pktMi_wire sess.user (hsid ▸ sess.sid_lt) hxid (isClientRequest_wire hreq) true true
  have hrecv := cldcReceivePkt_rawPkt e now ok stray sess hw (putGeneric code info.xid) info.seqid
  rw [hmod] at hrecv
  simp only [errorReply, huser, pktHdr_encode, Option.getD_some]
  rw [← hacc, hrecv, acceptSeqid_eq, Option.isSome_map]
  refine and_iff_left_of_imp fun hsome => ?_
  have hcase := rxPkt_cases e now ok stray sess mi (putGeneric code info.xid) info.seqid
  generalize sess.rxPkt e now ok stray mi (putGeneric code info.xid) info.seqid = r at hcase ⊢
  cases hcase with
  | refused h =>
    rw [show sess.opOf mi = info.op from rfl] at h
    simp [h] at hsome
  | tooLong h hlen =>
    simp [CldcSession.kept, hmi, CldPktMsgInfo.isFirst, CldPktMsgInfo.infos, putGeneric,
      cldMaxMsgSz] at hlen
  | @taken w h hlen =>
    have hlast : mi.isLast = true := rfl
    have hcalls : (sess.taken now mi (putGeneric code info.xid) w).calls = sess.calls := by
      unfold CldcSession.taken CldcSession.begun
      dsimp only [CldcSession.setWindow]
      split <;> rfl
    have hout : (sess.taken now mi (putGeneric code info.xid) w).outMsg.find?
        (fun msg => msg.xid = info.xid % 2 ^ 64) = some req := find_begun mi hfind hexp
    rw [if_pos hlast, rxComplete_of_request e ok stray rfl hreq,
      rxmsgGeneric_calls e ok rfl hout hdone]
    exact congrArg (· ++ _) hcalls

/-- The session is made, times out at the server, and is then used. -/
def lapsedLink : Link :=
  run (Link.step .plain 5 []) newLink
    (openedLink ++ [.other (.timeout newLink.sess.sid 1000 .none),
      .call 1001 (fun _ => true) none .nop])

/-- The packet of the last request. -/
def lapsedNop : Bytes := (lapsedLink.sess.tx.map Tx.data).getLast?.getD []

/-- What the server takes it for. -/
def lapsedInfo : PktInfo :=
  ⟨pktHdr lapsedLink.sess.sid User.cli.name (.firstLast 249108103225 .nop), 231928234038,
    249108103225, .nop⟩

theorem lapsedNop_refused :
    refusal .plain .none 5 [] lapsedNop lapsedLink.srv = some (lapsedInfo, .sessInval) := by
  decide +kernel

/-- The client, had the server begun to count at about the same number. -/
def luckySess : CldcSession :=
  { lapsedLink.sess with nextSeqidIn := 231928234040, nextSeqidInTr := 231928234015 }

theorem luckySess_established : luckySess.Established := ⟨by decide +kernel, by decide +kernel⟩

theorem errorReply_completes_iff_lucky :
    ∃ req ∈ luckySess.outMsg, (luckySess.acceptSeqid lapsedInfo.seqid lapsedInfo.op).isSome = true ∧
      (cldcReceivePkt .plain 1002 true (fun _ _ => 0) luckySess.addr
        (errorReply .plain luckySess.secretKey 7 lapsedInfo .sessInval) luckySess).2.calls =
          luckySess.calls ++ [(req.num, CleErrCodes.sessInval.toNat)] := by
  have hfind : luckySess.outMsg.find? (fun msg => msg.xid = lapsedInfo.xid % 2 ^ 64) =
      luckySess.outMsg.head? := by decide +kernel
  obtain ⟨req, hreq, hdone, hexp⟩ : ∃ req, luckySess.outMsg.head? = some req ∧
      req.done = false ∧ 1002 ≤ req.expireTime := by decide +kernel
  have hsid : lapsedInfo.pkt.sid = luckySess.sid := by decide +kernel
  have huser : lapsedInfo.pkt.user = luckySess.user.name := by decide +kernel
  have hop : isClientRequest lapsedInfo.op = true := by decide +kernel
  exact ⟨req, List.mem_of_head? hreq, (errorReply_completes_iff lapsedNop_refused
    luckySess_established hsid huser hop (hfind.trans hreq) hdone hexp (by decide) true _).mpr
      (by decide +kernel)⟩

/-- The reply has a number of the client's own: it is dropped, and the request stays pending. -/
theorem lapsedNop_unanswered :
    refusal .plain .none 5 [] lapsedNop lapsedLink.srv = some (lapsedInfo, .sessInval) ∧
      lapsedLink.sess.Established ∧
      ∃ req, lapsedLink.sess.outMsg.find? (fun msg => msg.xid = lapsedInfo.xid % 2 ^ 64) = some req ∧
        req.done = false ∧ 1002 ≤ req.expireTime ∧
        ¬ ((lapsedLink.sess.acceptSeqid lapsedInfo.seqid lapsedInfo.op).isSome = true ∧
          (cldcReceivePkt .plain 1002 true (fun _ _ => 0) lapsedLink.sess.addr
            (errorReply .plain lapsedLink.sess.secretKey 7 lapsedInfo .sessInval)
              lapsedLink.sess).2.calls =
            lapsedLink.sess.calls ++ [(req.num, CleErrCodes.sessInval.toNat)]) :=
  ⟨lapsedNop_refused, ⟨by decide +kernel, by decide +kernel⟩, by decide +kernel⟩

end Hail.Cldc
