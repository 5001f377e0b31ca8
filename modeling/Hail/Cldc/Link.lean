import Hail.Cld.Conn
import Hail.Cldc.Receive
import Mathlib.Data.List.ReduceOption

/-!
# A client and the server

A session of the client library on a connection to the server that loses and reorders nothing. The
application makes requests, the timer of the session fires and packets come in at any time; the
server reads the packets of the client one by one, between any other packets and timeouts. The
server does not compare the number of a packet with the one it expects, so a request that the timer
sends again is handled again.
-/
namespace Hail.Cldc

open Library Cld

/-- `read` counts the packets of the client that the server has read. `ran` lists the messages whose
handler was run, each as often as it was, by their numbers. -/
structure Link where
  srv : Server
  sess : CldcSession
  read : Nat
  ran : List Nat

/-- `other` is anything else that happens at the server. -/
inductive LinkEvent where
  | call (now : Nat) (ok : Nat → Bool) (appCb : Option Int) (c : Call)
  | timer (now : Nat) (ok : Nat → Bool)
  | receive (now : Nat) (ok : Bool) (stray : Nat → Nat → Nat) (netAddr raw : Bytes)
  | deliver (ft : Faults)
  | other (op : Op)

def isRequest : Handled → Bool
  | .request .. => true
  | .ack .. => false

section

variable (e : Env) (fd : Nat) (addr : Bytes)

/-- The server, which knows the client at `addr` on socket `fd`, reads the next packet. -/
def Link.deliver (ft : Faults) (link : Link) : Link :=
  match link.sess.tx[link.read]? with
  | none => link
  | some p =>
    let srv := (cliRdPkt e ft fd addr p.data link.srv).2
    let runs := (srv.handled.drop link.srv.handled.length).countP isRequest
    { link with
      srv, read := link.read + 1, ran := link.ran ++ (List.replicate runs p.num).reduceOption }

def Link.step (link : Link) : LinkEvent → Link
  | .call now ok appCb c => { link with sess := (link.sess.call e now ok appCb c).2 }
  | .timer now ok => { link with sess := link.sess.timer now ok }
  | .receive now ok stray netAddr raw =>
    { link with sess := (cldcReceivePkt e now ok stray netAddr raw link.sess).2 }
  | .deliver ft => link.deliver e fd addr ft
  | .other op => { link with srv := link.srv.step e op }

/-- The condition on a step: a packet that the timer has sent again is not admitted when the server
reads it, as when a session that exists is to be made once more. -/
def Link.admitsOnce (link : Link) : LinkEvent → Bool
  | .deliver _ => (link.sess.tx[link.read]?).all fun p =>
      !p.again || (admitted e link.srv addr p.data).isNone
  | _ => true

end

/-! ## What one packet makes the server do -/

/-- The packet is the last of its message. -/
def lastPkt (raw : Bytes) : Bool := (parsePktHeader raw).any fun p => p.1.mi.isLast

theorem sendmsg_handled (e : Env) (s : Server) (sid : Sid) (msg : ServerMsg) (op : CldMsgOp)
    (doneCb : DoneCb) : (sessSendmsg e s sid msg op doneCb).2.handled = s.handled := by
  rcases sessSendmsg_cases e s sid msg op doneCb with ⟨sess, pkts, -, -, h⟩ | h
  · rw [h]
    rfl
  · rw [h]

theorem msgNewSess_handled (e : Env) (ft : Faults) (fd : Nat) (addr : Bytes) (sid : Sid)
    (user : User) (seqid xid : Nat) (s : Server) :
    (msgNewSess e ft fd addr sid user seqid xid s).handled = s.handled := by
  unfold msgNewSess
  dsimp only
  split_ifs
  · exact simpleSendmsg_handled ..
  · exact simpleSendmsg_handled ..
  · exact simpleSendmsg_handled ..
  · exact sendmsg_handled ..

theorem msgAck_handled (sid : Sid) (seqid : Nat) (s : Server) :
    (msgAck sid seqid s).handled = s.handled := by
  unfold msgAck
  split <;> rfl

theorem dispatch_handled (e : Env) (ft : Faults) (fd : Nat) (addr : Bytes) (info : PktInfo)
    (s : Server) :
    ∃ told, (dispatch e ft fd addr info s).2.handled = s.handled ++ told ∧ told.length ≤ 1 := by
  cases hdec : Request.decode info.op with
  | some dec =>
    rw [dispatch_of_decode hdec, tcpRxHandle]
    split
    · exact ⟨[], by simp, by simp⟩
    · next sess hg =>
      split
      · exact ⟨[], by simp, by simp⟩
      · exact ⟨[_], (handle_sessFrame e ft _ (s := s.note _) (get_sid hg ▸ hg)).handled, by simp⟩
  | none =>
    unfold dispatch
    split
    · exact ⟨[_], msgAck_handled .., by simp⟩
    · exact ⟨[_], (sessSendrespGeneric_frame ..).handled, by simp⟩
    · split
      · exact ⟨[], by simp, by simp⟩
      · exact ⟨[_], msgNewSess_handled .., by simp⟩
    · exact ⟨[_], sendmsg_handled .., by simp⟩
    · rw [hdec]
      exact ⟨[], by simp, by simp⟩

theorem arrive_handled (s : Server) (fd : Nat) (info : PktInfo) (chunk : Bytes) :
    (s.arrive fd info chunk).2.handled = s.handled := by
  unfold Server.arrive
  split <;> rfl

theorem tcpRx_handled (e : Env) (ft : Faults) (fd : Nat) (addr : Bytes) (info : PktInfo)
    (chunk : Bytes) (s : Server) :
    ∃ told, (tcpRx e ft fd addr info chunk s).2.handled = s.handled ++ told ∧ told.length ≤ 1 ∧
      (told ≠ [] → info.pkt.mi.isLast = true) := by
  rw [← arrive_handled s fd info chunk]
  unfold tcpRx
  dsimp only
  split
  · exact ⟨[], by simp, by simp, by simp⟩
  · split
    · exact ⟨[], by simp [simpleSendmsg_handled], by simp, by simp⟩
    · next hlast =>
      obtain ⟨told, ht, hle⟩ := dispatch_handled e ft fd addr info (s.arrive fd info chunk).2
      exact ⟨told, ht, hle, fun _ => by simpa using hlast⟩

/-- A packet runs one handler at most, and none unless it is admitted and the last of its message. -/
theorem cliRdPkt_handled (e : Env) (ft : Faults) (fd : Nat) (addr raw : Bytes) (s : Server) :
    ∃ told, (cliRdPkt e ft fd addr raw s).2.handled = s.handled ++ told ∧ told.length ≤ 1 ∧
      (told ≠ [] → lastPkt raw = true ∧ admitted e s addr raw ≠ none) := by
  cases hadm : admitted e s addr raw with
  | none =>
    obtain ⟨garbage, rnd, tx, heq⟩ := cliRdPkt_refused e ft fd hadm
    exact ⟨[], by simp [heq], by simp, by simp⟩
  | some p =>
    obtain ⟨info, chunk⟩ := p
    obtain ⟨n, hparse, -⟩ := admitted_spec hadm
    obtain ⟨told, ht, hle, hlast⟩ := tcpRx_handled e ft fd addr info chunk s
    refine ⟨told, ?_, hle, fun hne => ⟨by simp [lastPkt, hparse, hlast hne], by simp⟩⟩
    rw [cliRdPkt_admitted e ft fd hadm]
    split
    · next heq =>
      rw [heq] at ht
      exact ht
    · next heq =>
      rw [heq] at ht
      rw [simpleSendresp, simpleSendmsg_handled]
      exact ht

/-! ## What the client sends -/

/-- The messages whose last packet is among some packets, not counting what the timer sends. -/
def firstSent (tx : List Tx) : List Nat :=
  tx.filterMap fun p => if !p.again && lastPkt p.data then p.num else none

theorem firstSent_append (tx more : List Tx) :
    firstSent (tx ++ more) = firstSent tx ++ firstSent more := List.filterMap_append ..

/-- What a step of the client may do: it sends packets, among them the last packets of messages that
are new. -/
structure Grows (s t : CldcSession) : Prop where
  tx : ∃ more, t.tx = s.tx ++ more ∧ (firstSent more).Nodup ∧
    ∀ n ∈ firstSent more, s.msgs ≤ n ∧ n < t.msgs
  msgs : s.msgs ≤ t.msgs

/-- No message is new. -/
theorem Grows.of_none {s t : CldcSession} {more : List Tx} (htx : t.tx = s.tx ++ more)
    (hmsgs : t.msgs = s.msgs) (hmore : firstSent more = []) : Grows s t :=
  ⟨⟨more, htx, by simp [hmore], by simp [hmore]⟩, hmsgs.ge⟩

theorem Grows.refl (s : CldcSession) : Grows s s := .of_none (List.append_nil _).symm rfl rfl

/-- A step from a session that differs in other things. -/
theorem Grows.of_same {s s' t : CldcSession} (h : Grows s' t) (htx : s'.tx = s.tx)
    (hmsgs : s'.msgs = s.msgs) : Grows s t := by
  obtain ⟨⟨more, ht, hn, hb⟩, hm⟩ := h
  rw [htx] at ht
  rw [hmsgs] at hb hm
  exact ⟨⟨more, ht, hn, hb⟩, hm⟩

/-- One of the packets of a message is the last. -/
theorem firstSent_signedPkts (e : Env) (key : Bytes) (u : User) {sid : Sid} (hsid : sid < 2 ^ 64)
    {xid : Nat} (hxid : xid < 2 ^ 64) {op : CldMsgOp} (hop : op.Wire) (num fuel : Nat)
    (first : Bool) (msg : Bytes) (seqid : Nat) :
    firstSent (((signedPkts e key u sid seqid (msgParts xid op fuel first msg)).map
      fun p => p.1.data).map (⟨some num, false, ·⟩)) = [num] := by
  have hlast : ∀ first' last chunk n, lastPkt (rawPkt e key
      (hdrBytes sid u (pktMi xid op first' last)) chunk n) = last := by
    intro first' last chunk n
    rw [lastPkt, parsePktHeader_rawPkt e (pktMi_wire u hsid hxid hop first' last)]
    cases first' <;> cases last <;> rfl
  induction fuel generalizing first msg seqid with
  | zero => simp [msgParts, signedPkts, firstSent, hlast]
  | succ fuel ih =>
    rcases msgParts_cases xid op (fuel + 1) first msg with hp | ⟨n, hn, hp⟩
    · simp [hp, signedPkts, firstSent, hlast]
    · obtain rfl : fuel = n := by omega
      have hrest := ih false (msg.drop cldMaxPktMsgSz) ((seqid + 1) % 2 ^ 64)
      rw [hp, signedPkts, List.map_cons, List.map_cons]
      unfold firstSent at hrest ⊢
      rw [List.filterMap_cons]
      simp only [hlast, Bool.and_false, Bool.false_eq_true, if_false]
      exact hrest

theorem request_grows (e : Env) (now : Nat) (ok : Nat → Bool) {op : CldMsgOp} (hop : op.Wire)
    (body : Bytes) (cb : MsgCb) (appCb : Option Int) (sess : CldcSession) :
    Grows sess (sess.request e now ok op body cb appCb).2 := by
  have hpkts := sessSendPkts_eq e sess.sid sess.user sess.key_ne_nil sess.nextSeqidOut
    (cldRand64 e sess.rnd) op body
  rw [cldcParts_eq] at hpkts
  unfold CldcSession.request
  simp only [hpkts]
  set data := (signedPkts e sess.secretKey sess.user sess.sid sess.nextSeqidOut
    (msgParts (cldRand64 e sess.rnd) op body.length true body)).map fun p => p.1.data with hdata
  have hfull : firstSent (data.map (⟨some sess.msgs, false, ·⟩)) = [sess.msgs] :=
    firstSent_signedPkts e sess.secretKey sess.user sess.sid_lt (cldRand64_lt e sess.rnd) hop ..
  -- what was sent is a beginning of the packets
  have hsub : ∀ k, (firstSent ((data.take k).map (⟨some sess.msgs, false, ·⟩))).Sublist
      [sess.msgs] := by
    intro k
    rw [← hfull]
    exact ((List.take_sublist k data).map _).filterMap _
  have hmore : ∀ k, ∀ n ∈ firstSent ((data.take k).map (⟨some sess.msgs, false, ·⟩)),
      sess.msgs ≤ n ∧ n < sess.msgs + 1 := by
    intro k n hn
    have hn' := (hsub k).subset hn
    rw [List.mem_singleton] at hn'
    omega
  split
  · exact ⟨⟨_, rfl, (hsub _).nodup (by simp), hmore _⟩, Nat.le_succ _⟩
  · exact ⟨⟨_, rfl, (hsub _).nodup (by simp), hmore _⟩, Nat.le_succ _⟩

/-- A call makes no request, or one from a session that differs in its handles. -/
theorem call_request (e : Env) (now : Nat) (ok : Nat → Bool) (appCb : Option Int)
    (sess : CldcSession) (c : Call) :
    ∃ cfh, (sess.call e now ok appCb c).2 = { sess with cfh } ∨
      ∃ op body cb, CldMsgOp.Wire op ∧
        (sess.call e now ok appCb c).2 = ({ sess with cfh }.request e now ok op body cb appCb).2 := by
  have hand : ∀ {id op body cb}, CldMsgOp.Wire op → ∃ cfh,
      (sess.onHandle e now ok appCb id op body cb).2 = { sess with cfh } ∨
        ∃ op' body' cb', CldMsgOp.Wire op' ∧ (sess.onHandle e now ok appCb id op body cb).2 =
          ({ sess with cfh }.request e now ok op' body' cb' appCb).2 := by
    intro id op body cb hop
    unfold CldcSession.onHandle
    split
    · exact ⟨sess.cfh, .inl rfl⟩
    · exact ⟨sess.cfh, .inr ⟨op, _, cb, hop, rfl⟩⟩
  cases c with
  | endSess | nop =>
    simp only [CldcSession.call]
    split
    · exact ⟨sess.cfh, .inl rfl⟩
    · exact ⟨sess.cfh, .inr ⟨_, _, _, by decide, rfl⟩⟩
  | del pathname =>
    simp only [CldcSession.call]
    split
    · exact ⟨sess.cfh, .inl rfl⟩
    · split
      · exact ⟨sess.cfh, .inl rfl⟩
      · exact ⟨sess.cfh, .inr ⟨_, _, _, by decide, rfl⟩⟩
  | «open» pathname mode events =>
    simp only [CldcSession.call]
    split
    · exact ⟨sess.cfh, .inl rfl⟩
    · split
      · exact ⟨sess.cfh, .inl rfl⟩
      · exact ⟨_, .inr ⟨_, _, _, by decide, rfl⟩⟩
  | close id =>
    simp only [CldcSession.call]
    split
    · exact ⟨sess.cfh, .inl rfl⟩
    · split
      · exact ⟨_, .inl rfl⟩
      · exact ⟨_, .inr ⟨_, _, _, by decide, rfl⟩⟩
  | lock id flags wait =>
    simp only [CldcSession.call]
    exact hand (by cases wait <;> decide)
  | unlock id =>
    simp only [CldcSession.call]
    exact hand (by decide)
  | get id metadataOnly =>
    simp only [CldcSession.call]
    exact hand (by decide)
  | put id data =>
    simp only [CldcSession.call]
    split
    · exact ⟨sess.cfh, .inl rfl⟩
    · split
      · exact ⟨sess.cfh, .inl rfl⟩
      · exact ⟨sess.cfh, .inr ⟨.put, _, .generic, by decide, rfl⟩⟩

theorem call_grows (e : Env) (now : Nat) (ok : Nat → Bool) (appCb : Option Int)
    (sess : CldcSession) (c : Call) : Grows sess (sess.call e now ok appCb c).2 := by
  obtain ⟨cfh, h | ⟨op, body, cb, hop, h⟩⟩ := call_request e now ok appCb sess c
  · rw [h]
    exact .of_none (List.append_nil _).symm rfl rfl
  · rw [h]
    exact (request_grows e now ok hop ..).of_same rfl rfl

theorem runCb_same (sess : CldcSession) (msg : CldcMsg) (resp : Bytes) (code : Nat) :
    (sess.runCb msg resp code).2.tx = sess.tx ∧ (sess.runCb msg resp code).2.msgs = sess.msgs := by
  unfold CldcSession.runCb
  dsimp only
  split
  · split <;> exact ⟨rfl, rfl⟩
  · split <;> exact ⟨rfl, rfl⟩
  · exact ⟨rfl, rfl⟩
  · split
    · split <;> exact ⟨rfl, rfl⟩
    · exact ⟨rfl, rfl⟩
  · split <;> exact ⟨rfl, rfl⟩
  · split <;> exact ⟨rfl, rfl⟩

theorem drop_same (sess : CldcSession) (msgs : List CldcMsg) :
    (sess.drop msgs).tx = sess.tx ∧ (sess.drop msgs).msgs = sess.msgs := by
  induction msgs generalizing sess with
  | nil => exact ⟨rfl, rfl⟩
  | cons msg msgs ih =>
    have hcb := runCb_same sess msg [] CleErrCodes.timeout.toNat
    set t := if msg.done then sess else (sess.runCb msg [] CleErrCodes.timeout.toNat).2 with ht
    have hsame : t.tx = sess.tx ∧ t.msgs = sess.msgs := by
      rw [ht]
      split
      · exact ⟨rfl, rfl⟩
      · exact hcb
    simp only [CldcSession.drop, ← ht]
    split
    · exact hsame
    · exact ⟨(ih t).1.trans hsame.1, (ih t).2.trans hsame.2⟩

/-- What the timer sends is marked. -/
theorem firstSent_again {tx : List Tx} (h : ∀ p ∈ tx, p.again = true) : firstSent tx = [] := by
  rw [firstSent, List.filterMap_eq_nil_iff]
  intro p hp
  simp [h p hp]

theorem timer_grows (now : Nat) (ok : Nat → Bool) (sess : CldcSession) :
    Grows sess (sess.timer now ok) := by
  unfold CldcSession.timer
  split
  · obtain ⟨htx, hmsgs⟩ := drop_same { sess with expired := true } sess.outMsg
    exact .of_none (by rw [List.append_nil]; exact htx) hmsgs rfl
  · refine .of_none rfl rfl (firstSent_again fun p hp => ?_)
    obtain ⟨⟨q, i⟩, hq, rfl⟩ := List.mem_map.mp hp
    obtain ⟨msg, -, hmsg⟩ := List.mem_flatMap.mp
      (List.fst_mem_of_mem_zipIdx (List.mem_filter.mp hq).1)
    unfold CldcMsg.resend at hmsg
    split at hmsg
    · cases hmsg
    · obtain ⟨data, -, rfl⟩ := List.mem_map.mp hmsg
      rfl

theorem ackSeqid_grows (e : Env) (ok : Bool) (sess : CldcSession) (seqid : Nat) :
    Grows sess (sess.ackSeqid e ok seqid).2 := by
  unfold CldcSession.ackSeqid
  split
  · exact .refl sess
  · split
    · exact .of_none rfl rfl (by simp [firstSent])
    · exact .refl sess

theorem rxComplete_grows (e : Env) (ok : Bool) (stray : Nat → Nat → Nat) (sess : CldcSession)
    (seqid : Nat) : Grows sess (sess.rxComplete e ok stray seqid).2 := by
  unfold CldcSession.rxComplete
  split
  · exact .refl sess
  · exact ackSeqid_grows e ok sess seqid
  · exact .refl sess
  · unfold CldcSession.rxmsgEvent
    dsimp only
    split
    · exact .refl sess
    · split
      · exact .refl sess
      · exact .of_none (List.append_nil _).symm rfl rfl
  · unfold CldcSession.rxmsgAckFrag
    split
    · exact .refl sess
    · exact .of_none (List.append_nil _).symm rfl rfl
  · unfold CldcSession.rxmsgGeneric
    split
    · exact .refl sess
    · split
      · exact .refl sess
      · split
        · exact ackSeqid_grows e ok sess seqid
        · next req _ _ =>
          dsimp only
          set sess' : CldcSession := { sess with outMsg := sess.outMsg.map fun msg =>
            if msg.num = req.num then { msg with done := true } else msg }
          have hsame := runCb_same sess' req sess.msgBuf
          split
          · exact .of_none (by rw [List.append_nil]; exact (hsame _).1) (hsame _).2 rfl
          · exact (ackSeqid_grows e ok _ seqid).of_same (hsame _).1 (hsame _).2

theorem acceptSeqid_same {sess sess' : CldcSession} {seqid : Nat} {op : CldMsgOp}
    (h : sess.acceptSeqid seqid op = some sess') : sess'.tx = sess.tx ∧ sess'.msgs = sess.msgs := by
  unfold CldcSession.acceptSeqid at h
  split at h
  · cases h
    exact ⟨rfl, rfl⟩
  · cases h
    exact ⟨rfl, rfl⟩
  · cases h
    exact ⟨rfl, rfl⟩
  · split at h
    · cases h
      exact ⟨rfl, rfl⟩
    · split at h
      · cases h
        exact ⟨rfl, rfl⟩
      · cases h

theorem rxPkt_grows (e : Env) (now : Nat) (ok : Bool) (stray : Nat → Nat → Nat)
    (sess : CldcSession) (mi : CldPktMsgInfo) (chunk : Bytes) (seqid : Nat) :
    Grows sess (sess.rxPkt e now ok stray mi chunk seqid).2 := by
  unfold CldcSession.rxPkt
  dsimp only
  set scanned := if sess.msgScanTime ≤ now then sess.expireOutmsg now else sess with hscan
  have hs : scanned.tx = sess.tx ∧ scanned.msgs = sess.msgs := by
    rw [hscan]
    split <;> exact ⟨rfl, rfl⟩
  split
  · exact .of_none (by rw [List.append_nil]; exact hs.1) hs.2 rfl
  · next got hgot =>
    obtain ⟨htx, hmsgs⟩ := acceptSeqid_same hgot
    set begun := if mi.isFirst then { got with msgBuf := [] } else got with hbegun
    have hb : begun.tx = sess.tx ∧ begun.msgs = sess.msgs := by
      rw [hbegun]
      split <;> exact ⟨htx.trans hs.1, hmsgs.trans hs.2⟩
    split
    · exact .of_none (by rw [List.append_nil]; exact hb.1) hb.2 rfl
    · split
      · exact (rxComplete_grows e ok stray _ seqid).of_same hb.1 hb.2
      · exact (ackSeqid_grows e ok _ seqid).of_same hb.1 hb.2

theorem receive_grows (e : Env) (now : Nat) (ok : Bool) (stray : Nat → Nat → Nat)
    (netAddr raw : Bytes) (sess : CldcSession) :
    Grows sess (cldcReceivePkt e now ok stray netAddr raw sess).2 := by
  unfold cldcReceivePkt
  split
  · exact .refl sess
  · split
    · exact .refl sess
    · split_ifs
      · exact .refl sess
      · exact .refl sess
      · exact .refl sess
      · exact rxPkt_grows e now ok stray sess ..

/-! ## Runs -/

/-- Every message's last packet was sent once at most, not counting what the timer sent, and the
handlers were run for messages of which it has been read. -/
structure Link.Inv (link : Link) : Prop where
  nodup : (firstSent link.sess.tx).Nodup
  lt : ∀ n ∈ firstSent link.sess.tx, n < link.sess.msgs
  read : link.read ≤ link.sess.tx.length
  ran : link.ran.Sublist (firstSent (link.sess.tx.take link.read))

theorem Link.Inv.grow {link : Link} {sess : CldcSession} (h : link.Inv) (hg : Grows link.sess sess) :
    Link.Inv { link with sess } := by
  obtain ⟨⟨more, htx, hnodup, hmore⟩, hmsgs⟩ := hg
  refine ⟨?_, ?_, ?_, ?_⟩
  · rw [htx, firstSent_append]
    refine h.nodup.append hnodup fun n hn hn' => ?_
    exact absurd (h.lt n hn) (hmore n hn').1.not_gt
  · intro n hn
    rw [htx, firstSent_append, List.mem_append] at hn
    rcases hn with hn | hn
    · exact (h.lt n hn).trans_le hmsgs
    · exact (hmore n hn).2
  · have hread := h.read
    simp only [htx, List.length_append]
    omega
  · simp only [htx, List.take_append_of_le_length h.read]
    exact h.ran

theorem deliver_inv (e : Env) (fd : Nat) (addr : Bytes) (ft : Faults) {link : Link} (h : link.Inv)
    (hok : link.admitsOnce e addr (.deliver ft) = true) : (link.deliver e fd addr ft).Inv := by
  unfold Link.deliver
  cases hp : link.sess.tx[link.read]? with
  | none => exact h
  | some p =>
    obtain ⟨hlt, hget⟩ := List.getElem?_eq_some_iff.mp hp
    have htake : link.sess.tx.take (link.read + 1) = link.sess.tx.take link.read ++ [p] := by
      rw [List.take_add_one, hp]
      rfl
    refine ⟨h.nodup, h.lt, hlt, ?_⟩
    dsimp only
    rw [htake, firstSent_append]
    refine h.ran.append ?_
    obtain ⟨told, htold, hle, hlast⟩ := cliRdPkt_handled e ft fd addr p.data link.srv
    rw [htold, List.drop_left]
    -- a handler is run only for a packet that is admitted and the last of its message
    by_cases hnil : told = []
    · simp [hnil]
    · obtain ⟨hl, hadm⟩ := hlast hnil
      have hagain : p.again = false := by
        simp only [Link.admitsOnce, hp, Option.all_some, Bool.or_eq_true, Option.isNone_iff_eq_none,
          hadm, or_false, Bool.not_eq_true'] at hok
        exact hok
      have hruns : told.countP isRequest ≤ 1 := List.countP_le_length.trans hle
      have hone : firstSent [p] = [p.num].reduceOption := by
        cases hn : p.num <;> simp [firstSent, hagain, hl, hn]
      rw [hone]
      have hsub : (List.replicate (told.countP isRequest) p.num).Sublist [p.num] := by
        rw [show [p.num] = List.replicate 1 p.num from rfl]
        exact List.replicate_sublist_replicate p.num |>.mpr hruns
      exact hsub.filterMap id

theorem step_linkInv (e : Env) (fd : Nat) (addr : Bytes) (link : Link) (ev : LinkEvent)
    (h : link.Inv) (hok : link.admitsOnce e addr ev = true) : (link.step e fd addr ev).Inv := by
  cases ev with
  | call now ok appCb c => exact h.grow (call_grows ..)
  | timer now ok => exact h.grow (timer_grows ..)
  | receive now ok stray netAddr raw => exact h.grow (receive_grows ..)
  | deliver ft => exact deliver_inv e fd addr ft h hok
  | other op => exact ⟨h.nodup, h.lt, h.read, h.ran⟩

/-- A new session on a connection to a server in any state. -/
def Link.init (srv : Server) (sess : CldcSession) : Link := ⟨srv, sess, 0, []⟩

section

variable (e : Env) (now : Nat) (ok : Nat → Bool) (appCb : Option Int) (srvAddr : Bytes) (user : User)
  {secretKey : Bytes} (hkey : secretKey ≠ []) (rnd : Nat)

theorem init_inv (srv : Server) :
    (Link.init srv (cldcNewSess e now ok appCb srvAddr user secretKey hkey rnd).2).Inv := by
  obtain ⟨⟨more, htx, hnodup, hmore⟩, -⟩ := request_grows e now ok
    (show CldMsgOp.newSess.Wire by decide) [] .newSess appCb _
  refine ⟨?_, ?_, Nat.zero_le _, by simp [Link.init]⟩
  · simp only [Link.init, cldcNewSess]
    rw [htx]
    exact hnodup
  · simp only [Link.init, cldcNewSess]
    rw [htx]
    exact fun n hn => (hmore n hn).2

/-- In a run in which no packet that was sent again is admitted, every message is handled once at
most. -/
theorem run_ran_nodup (fd : Nat) (addr : Bytes) (srv : Server) (evs : List LinkEvent)
    (h : Meets (Link.step e fd addr) (fun link ev => link.admitsOnce e addr ev = true)
      (.init srv (cldcNewSess e now ok appCb srvAddr user secretKey hkey rnd).2) evs) :
    (run (Link.step e fd addr)
      (.init srv (cldcNewSess e now ok appCb srvAddr user secretKey hkey rnd).2) evs).ran.Nodup := by
  have hinv := h.invariant (I := Link.Inv) (init_inv e now ok appCb srvAddr user hkey rnd srv)
    (step_linkInv e fd addr)
  exact hinv.ran.nodup (hinv.nodup.sublist ((List.take_sublist ..).filterMap _))

end

/-- A new session of the user `cli` and a new server. -/
def newLink : Link :=
  .init (.init 0) (cldcNewSess .plain 0 (fun _ => true) none [] .cli User.cli.name User.cli.ne_nil 0).2

/-- The `n`-th packet that the server sends when `evs` happen. -/
def replyAfter (evs : List LinkEvent) (n : Nat) : Bytes :=
  ((run (Link.step .plain 5 []) newLink evs).srv.tx.map Prod.snd).getD n []

/-- The session is made and its client told so. -/
def openedLink : List LinkEvent :=
  [.deliver .none, .receive 1 true (fun _ _ => 0) [] (replyAfter [.deliver .none] 0)]

/-- A file is created at the path `/a`. -/
def createCall : LinkEvent :=
  .call 2 (fun _ => true) none (.open [0x2f, 0x61] (comRead ||| comCreate) 0)

/-- The session is asked for twice and the second packet refused; the file is answered in time. -/
def calmLink : List LinkEvent :=
  [.deliver .none, .timer 5 (fun _ => true), .deliver .none,
    .receive 6 true (fun _ _ => 0) [] (replyAfter [.deliver .none] 0), createCall, .deliver .none,
    .deliver .none]

theorem run_ran_nodup_calmLink : (run (Link.step .plain 5 []) newLink calmLink).ran.Nodup :=
  run_ran_nodup .plain 0 (fun _ => true) none [] .cli (by decide) 0 5 [] (.init 0) calmLink
    (by decide +kernel)

/-- The timer fires before the server has answered. -/
def hastyLink : List LinkEvent :=
  openedLink ++ [createCall, .timer 7 (fun _ => true), .deliver .none, .deliver .none, .deliver .none]

/-- The file is opened twice. -/
theorem hastyLink_ran_twice : ¬ (run (Link.step .plain 5 []) newLink hastyLink).ran.Nodup := by
  have hran : (run (Link.step .plain 5 []) newLink hastyLink).ran = [0, 1, 1] := by decide +kernel
  rw [hran]
  decide

end Hail.Cldc
