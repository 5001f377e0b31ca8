import Hail.Cld.Reply

/-!
# The numbers of packets

What a step puts in the output queue of a session: packets whose numbers follow one another from the
next one of the session on. The first packet of a session is the reply to `CMO_NEW_SESS`.
-/
namespace Hail.Cld

open Library

/-- Operations of messages whose numbers the client minds. -/
def CldMsgOp.Numbered (op : CldMsgOp) : Prop := op.Wire ∧ op ≠ .notMaster ∧ op ≠ .ackFrag

instance (op : CldMsgOp) : Decidable op.Numbered := inferInstanceAs (Decidable (_ ∧ _ ∧ _))

theorem IsEvent.numbered {m : Sent} (h : IsEvent m) : m.op.Numbered := by
  obtain ⟨sid, fh, ev, rfl⟩ := h
  show CldMsgOp.event.Numbered
  decide

/-- The reply to `CMO_NEW_SESS` of session `sid`, with number `n`. -/
def OutPkt.Greets (sid : Sid) (n : Nat) (p : OutPkt) : Prop :=
  ∃ (e : Env) (u : User) (xid : Nat) (chunk : Bytes),
    p.pktData = rawPkt e u.name (hdrBytes sid u (.firstLast xid .newSess)) chunk n ∧ xid < 2 ^ 64

/-- What a step does to the output of session `sid`. -/
inductive OutStep (sid : Sid) : Option Session → Option Session → Prop where
  | gone (a : Option Session) : OutStep sid a none
  | queued {a b : Session} (hsid : a.sid = sid) (h : Queues (fun m => m.op.Numbered) a b) :
      OutStep sid (some a) (some b)
  | acked {a b : Session} (hq : b.outQ.length ≤ a.outQ.length)
      (hn : b.nextSeqidOut = a.nextSeqidOut) : OutStep sid (some a) (some b)
  | created {b : Session} {n : Nat} {p : OutPkt} (hp : p.Greets sid n) (hq : b.outQ = [p])
      (hn : b.nextSeqidOut = (n + 1) % 2 ^ 64) : OutStep sid none (some b)

theorem OutStep.refl (s : Server) (sid : Sid) : OutStep sid (s.sessions.get sid) (s.sessions.get sid) := by
  cases hg : s.sessions.get sid with
  | none => exact .gone none
  | some sess => exact .queued (get_sid hg) (.of_eq rfl rfl)

theorem SessFrame.outStep {P : Sent → Prop} {s t : Server} (h : SessFrame P s t)
    (hP : ∀ m, P m → m.op.Numbered) (sid : Sid) :
    OutStep sid (s.sessions.get sid) (t.sessions.get sid) := by
  cases ht : t.sessions.get sid with
  | none => exact .gone _
  | some b =>
    obtain ⟨a, ha, -⟩ := h.get ht
    rw [ha]
    exact .queued (get_sid ha) ((h.queued sid a b ha ht).mono hP)

/-- A row is replaced by one with the same output. -/
theorem putSess_outStep {s : Server} {k : Sid} {sess sess' : Session}
    (hg : s.sessions.get k = some sess) (hs : sess'.sid = sess.sid)
    (hq : Queues (fun m => m.op.Numbered) sess sess') (sid : Sid) :
    OutStep sid (s.sessions.get sid) ((s.putSess sess').sessions.get sid) := by
  cases ht : (s.putSess sess').sessions.get sid with
  | none => exact .gone _
  | some b =>
    have ha : ∃ a, s.sessions.get sid = some a := by
      rw [Server.putSess, Table.get_put] at ht
      split at ht
      · next heq =>
        rw [heq, hs, get_sid hg]
        exact ⟨sess, hg⟩
      · exact ⟨b, ht⟩
    obtain ⟨a, ha⟩ := ha
    rw [ha]
    exact .queued (get_sid ha) (queued_putSess hg hs hq sid a b ha ht)

theorem sendmsg_outStep (e : Env) (s : Server) (k : Sid) (msg : ServerMsg) {op : CldMsgOp}
    (doneCb : DoneCb) (hop : op.Numbered) (sid : Sid) :
    OutStep sid (s.sessions.get sid) ((sessSendmsg e s k msg op doneCb).2.sessions.get sid) := by
  rcases sessSendmsg_cases e s k msg op doneCb with ⟨sess, pkts, hg, hp, h⟩ | h
  · rw [h]
    have hq := Packets.queues (m := ⟨k, op, msg⟩) hp (s.currentTime + cldRetryStart) doneCb
    have hnum := hq.mono (Q := fun m => m.op.Numbered) fun m hm => by rw [hm]; exact hop
    exact putSess_outStep hg (by rfl) hnum sid
  · rw [h]
    exact .refl s sid

/-- What the output of a session consists of. -/
def Session.out (sess : Session) : Sid × List OutPkt × Nat := (sess.sid, sess.outQ, sess.nextSeqidOut)

/-- A change of sessions that leaves their output alone, before a step. -/
theorem OutStep.after {s v t : Server} {sid : Sid}
    (hv : (v.sessions.get sid).map Session.out = (s.sessions.get sid).map Session.out)
    (h : OutStep sid (v.sessions.get sid) (t.sessions.get sid)) :
    OutStep sid (s.sessions.get sid) (t.sessions.get sid) := by
  cases hb : t.sessions.get sid with
  | none => exact .gone _
  | some b =>
    rw [hb] at h
    cases ha : v.sessions.get sid with
    | none =>
      rw [ha, Option.map_none] at hv
      rw [Option.map_eq_none_iff.mp hv.symm]
      rwa [ha] at h
    | some a =>
      rw [ha, Option.map_some] at hv
      obtain ⟨a', ha', hout⟩ := Option.map_eq_some_iff.mp hv.symm
      simp only [Session.out, Prod.mk.injEq] at hout
      obtain ⟨hsid, hq, hn⟩ := hout
      rw [ha']
      rw [ha] at h
      cases h with
      | queued has hqueues =>
        obtain ⟨pkts, hbq, hbn, hp⟩ := hqueues
        exact .queued (hsid.trans has) ⟨pkts, by rw [hbq, hq], by rw [hbn, hn], by rwa [hsid, hn]⟩
      | acked hbq hbn => exact .acked (by rwa [hq]) (by rw [hbn, hn])

theorem Session.rx_out (sess : Session) (now fd : Nat) (info : PktInfo) (chunk : Bytes) :
    (sess.rx now fd info chunk).2.out = sess.out := by
  have hb : ((sess.contact now fd info.op).begin info).out = sess.out := by
    unfold Session.begin
    split <;> rfl
  unfold Session.rx
  dsimp only
  split <;> exact hb

theorem arrive_out (s : Server) (fd : Nat) (info : PktInfo) (chunk : Bytes) (sid : Sid) :
    ((s.arrive fd info chunk).2.sessions.get sid).map Session.out =
      (s.sessions.get sid).map Session.out := by
  unfold Server.arrive
  split
  · rfl
  · next sess hg =>
    exact map_get_putSess Session.out hg (sess.rx_sid s.currentTime fd info chunk).1
      (sess.rx_out s.currentTime fd info chunk) sid

theorem simpleSendmsg_sessions (e : Env) (s : Server) (fd : Nat) (k : Sid) (user : Bytes)
    (seqid : Nat) (msg : ServerMsg) (op : CldMsgOp) :
    (simpleSendmsg e s fd k user seqid msg op).sessions = s.sessions := by
  unfold simpleSendmsg
  split <;> rfl

/-- The reply to `CMO_NEW_SESS` is one packet. -/
theorem greeting_eq (e : Env) {s : Server} {sid : Sid} {sess : Session}
    (hg : s.sessions.get sid = some sess) (xid : Nat) :
    ∃ pkt, (∀ retry cb, OutPkt.Greets sid sess.nextSeqidOut ⟨pkt, retry, cb⟩) ∧
      (sessSendmsg e s sid (.genericResp .ok xid) .newSess .none).2 =
        s.queue sess ⟨sid, .newSess, .genericResp .ok xid⟩ .none [pkt] := by
  have hlen : (putGeneric .ok xid).length ≤ cldMaxPktMsgSz := by simp [putGeneric, cldMaxPktMsgSz]
  have hmax : (putGeneric .ok xid).length ≤ cldMaxMsgSz := hlen.trans (by decide)
  have hparts : ∀ rnd, msgParts rnd .newSess (putGeneric .ok xid).length true (putGeneric .ok xid) =
      [(.firstLast rnd .newSess, putGeneric .ok xid)] := by
    intro rnd
    cases hn : (putGeneric .ok xid).length <;> simp [msgParts, pktMi, hlen]
  refine ⟨rawPkt e sess.user.name (hdrBytes sid sess.user (.firstLast (cldRand64 e s.rnd) .newSess))
    (putGeneric .ok xid) sess.nextSeqidOut,
    fun _ _ => ⟨e, sess.user, cldRand64 e s.rnd, _, rfl, cldRand64_lt e s.rnd⟩, ?_⟩
  simp only [sessSendmsg, hg, ServerMsg.encode, hmax.not_gt, if_false,
    sessPkts_eq e sid sess.user sess.nextSeqidOut _ .newSess hmax, hparts, signedPkts, List.map_cons,
    List.map_nil]

theorem msgNewSess_outStep (e : Env) (ft : Faults) (fd : Nat) (addr : Bytes) {k : Sid} (user : User)
    (seqid xid : Nat) {s : Server} (h : s.sessions.get k = none) (sid : Sid) :
    OutStep sid (s.sessions.get sid)
      ((msgNewSess e ft fd addr k user seqid xid s).sessions.get sid) := by
  have hrefuse : ∀ (v : Server) code, v.sessions = s.sessions →
      OutStep sid (s.sessions.get sid) ((simpleSendmsg e (sessionFree k v) fd k user.name 0xdeadbeef
        (.genericResp code xid) .newSess).sessions.get sid) := by
    intro v code hv
    rw [simpleSendmsg_sessions, sessionFree, hv, Table.get_del]
    split
    · exact .gone _
    · exact .refl s sid
  unfold msgNewSess
  dsimp only
  split
  · rw [simpleSendmsg_sessions]
    exact .refl s sid
  · split
    · exact hrefuse { s with rnd := s.rnd + 2 } .dbErr rfl
    · split
      · exact hrefuse { s with rnd := s.rnd + 2 } .sessExists rfl
      · set sess : Session := _ with hsess
        set v : Server := Server.putSess _ sess with hv
        have hv' : v.sessions.get k = some sess := by
          rw [hv, Server.putSess, Table.get_put, if_pos rfl]
        obtain ⟨pkt, hgreets, hsend⟩ := greeting_eq e hv' xid
        rw [hsend]
        by_cases hk : sid = k
        · subst hk
          have hq := Server.queue_get v sess ⟨sid, .newSess, .genericResp .ok xid⟩ .none [pkt]
          rw [h, show sess.sid = sid from rfl] at *
          rw [hq]
          exact .created (hgreets _ _) rfl rfl
        · have hne : (v.queue sess ⟨k, .newSess, .genericResp .ok xid⟩ .none [pkt]).sessions.get sid =
              s.sessions.get sid := by
            simp only [Server.queue, hv, Server.putSess]
            rw [Table.get_put_of_ne hk, Table.get_put_of_ne hk]
          rw [hne]
          exact .refl s sid

theorem Request.decode_numbered {op : CldMsgOp} {dec : Xdr.Decoder Request}
    (h : Request.decode op = some dec) : op.Numbered := by
  cases op <;> first | cases h; done | decide

theorem Request.Sends.numbered {sid : Sid} {op : CldMsgOp} {req : Request} {m : Sent}
    (h : req.Sends sid op m) (hop : op.Numbered) : m.op.Numbered := by
  cases h with
  | event hev => exact hev.numbered
  | generic => exact hop
  | get =>
    show CldMsgOp.get.Numbered
    decide
  | «open» =>
    show CldMsgOp.open.Numbered
    decide

/-- A complete message of a session, whose operation is `info.op`. -/
theorem dispatch_outStep (e : Env) (ft : Faults) (fd : Nat) (addr : Bytes) {info : PktInfo}
    {s : Server} (hop : ∀ sess, s.sessions.get info.pkt.sid = some sess → sess.msgOp = info.op)
    (hnew : info.op = .newSess → s.sessions.get info.pkt.sid = none) (sid : Sid) :
    OutStep sid (s.sessions.get sid) ((dispatch e ft fd addr info s).2.sessions.get sid) := by
  cases hdec : Request.decode info.op with
  | some dec =>
    rw [dispatch_of_decode hdec]
    unfold tcpRxHandle
    split
    · exact .refl s sid
    · next sess hg =>
      split
      · exact .refl s sid
      · next req rest hreq =>
        have hsid := get_sid hg
        set v := s.note (.request sess.sid info.seqid info.op info.xid sess.msgBuf)
        have hv : v.sessions.get sess.sid = some sess := by rw [hsid]; exact hg
        have hnum : sess.msgOp.Numbered := by
          rw [hop sess hg]
          exact Request.decode_numbered hdec
        exact (handle_sessFrame e ft req hv).outStep (fun m hm => hm.numbered hnum) sid
  | none =>
    unfold dispatch
    dsimp only
    split
    · -- an acknowledgement shortens the queue
      simp only [msgAck, Server.note]
      split
      · exact .refl s sid
      · next sess hg =>
        rw [Server.putSess, Table.get_put]
        split
        · next heq =>
          have hack : (sess.ack info.seqid).sid = sess.sid := by rw [sess.ack_eq]
          have hsid : sid = info.pkt.sid := heq.trans (hack.trans (get_sid hg))
          rw [hsid, hg]
          refine .acked ?_ ?_ <;> rw [sess.ack_eq]
          exact List.length_filter_le _ _
        · exact .refl s sid
    · next hnop =>
      unfold sessSendrespGeneric
      split
      · exact .refl s sid
      · next sess hg =>
        rw [hop sess hg, hnop]
        exact sendmsg_outStep e (s.note _) _ _ .none (by decide) sid
    · next hns =>
      split
      · exact .refl s sid
      · next user hu =>
        exact msgNewSess_outStep e ft fd addr user info.seqid info.xid
          (s := s.note (.request info.pkt.sid info.seqid info.op info.xid
            (s.msgBuf info.pkt.sid))) (hnew hns) sid
    · have hend : CldMsgOp.endSess.Numbered := by decide
      exact sendmsg_outStep e (s.note _) _ _ .endSessDone hend sid
    · rw [hdec]
      exact .refl s sid

theorem tcpRx_outStep (e : Env) (ft : Faults) (fd : Nat) (addr : Bytes) {info : PktInfo}
    (chunk : Bytes) {s : Server} (hinfo : getPktInfo s info.pkt info.seqid = some info)
    (hnew : info.op = .newSess → s.sessions.get info.pkt.sid = none) (sid : Sid) :
    OutStep sid (s.sessions.get sid) ((tcpRx e ft fd addr info chunk s).2.sessions.get sid) := by
  have hout := arrive_out s fd info chunk sid
  have hnone : info.op = .newSess → (s.arrive fd info chunk).2.sessions.get info.pkt.sid = none :=
    fun h => arrive_get_none fd info chunk (hnew h)
  have hop : ∀ sess, (s.arrive fd info chunk).2.sessions.get info.pkt.sid = some sess →
      sess.msgOp = info.op := by
    intro sess hg
    unfold Server.arrive at hg
    split at hg
    · next hn => rw [hn] at hg; cases hg
    · next old hold =>
      have hsid := (old.rx_sid s.currentTime fd info chunk).1.trans (get_sid hold)
      dsimp only at hg
      rw [Server.putSess, Table.get_put, if_pos hsid.symm] at hg
      cases hg
      exact (Session.rx_msg hold hinfo s.currentTime fd chunk).1
  unfold tcpRx
  rcases hv : s.arrive fd info chunk with ⟨fits, v⟩
  rw [hv] at hout hnone hop
  dsimp only at hout hnone hop ⊢
  split
  · exact .after hout (.refl v sid)
  · split
    · rw [simpleSendmsg_sessions]
      exact .after hout (.refl v sid)
    · exact .after hout (dispatch_outStep e ft fd addr hop hnone sid)

/-- What a step does to the output of a session. -/
theorem step_outStep (e : Env) (s : Server) (op : Op) (sid : Sid) :
    OutStep sid (s.sessions.get sid) ((s.step e op).sessions.get sid) := by
  cases op with
  | tick now => exact .refl s sid
  | rx fd addr pkt seqid chunk ft =>
    simp only [Server.step]
    cases hinfo : getPktInfo s pkt seqid with
    | none => exact .refl s sid
    | some info =>
      dsimp only
      split
      · next hval =>
        obtain ⟨rfl, rfl⟩ := getPktInfo_some hinfo
        refine tcpRx_outStep e ft fd addr chunk hinfo (fun hns => ?_) sid
        unfold validatePktSession at hval
        split at hval
        · assumption
        · simp [hns] at hval
      · exact .refl s sid
  | timeout k now ft =>
    simp only [Server.step, sessionTimeout]
    split
    · exact .refl s sid
    · next sess hg =>
      split
      · rcases inTxn_end ft .err (sessionDispose e ft k) s with h | ⟨db, h⟩
        · rw [h]
          exact .refl s sid
        · rw [h]
          have hframe := (sessionRemove_keeps e ft k s).toSessFrame.outStep
            (fun m hm => hm.isEvent.numbered) sid
          simp only [Server.setDb_sessions, sessionDispose, sessionFree, Table.get_del]
          split
          · exact .gone _
          · exact hframe
      · split
        · have hping : CldMsgOp.ping.Numbered := by decide
          refine .after (map_get_putSess Session.out hg ?_ ?_ sid) (sendmsg_outStep e
            (s.putSess { sess with pingOpen := true }) k .void .sessionPingDone hping sid) <;> rfl
        · exact .refl s sid

end Hail.Cld
