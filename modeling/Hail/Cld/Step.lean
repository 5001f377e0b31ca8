import Hail.Cld.Effect
import Hail.Cld.Rx

/-!
# Steps of the server

A run of the server is a sequence of packets and timeouts in any order, with the clock set in
between. `step_cases` says what one step can do: handle a request, make a session, end one, or
nothing that matters to the database.
-/
namespace Hail.Cld

open Library

inductive Op where
  | tick (now : Nat)
  | rx (fd : Nat) (addr : Bytes) (pkt : CldPktHdr) (seqid : Nat) (chunk : Bytes) (ft : Faults)
  | timeout (sid : Sid) (now : Nat) (ft : Faults)

/-- A step. A packet that is refused before `tcp_rx` leaves nothing but a reply. -/
def Server.step (e : Env) (srv : Server) : Op → Server
  | .tick now => { srv with currentTime := now }
  | .rx fd addr pkt seqid chunk ft =>
    match getPktInfo srv pkt seqid with
    | none => srv
    | some info =>
      if validatePktSession srv info addr = .ok then (tcpRx e ft fd addr info chunk srv).2 else srv
  | .timeout sid now ft => sessionTimeout e ft now sid srv

theorem getPktInfo_some {srv : Server} {pkt : CldPktHdr} {seqid : Nat} {info : PktInfo}
    (h : getPktInfo srv pkt seqid = some info) : info.pkt = pkt ∧ info.seqid = seqid := by
  unfold getPktInfo at h
  split at h
  · cases h
    exact ⟨rfl, rfl⟩
  · obtain ⟨sess, -, rfl⟩ := Option.map_eq_some_iff.mp h
    exact ⟨rfl, rfl⟩

/-- The request that a packet completes, with its session. -/
def PktInfo.request (srv : Server) (fd : Nat) (info : PktInfo) (chunk : Bytes) :
    Option (Sid × Request) := do
  let (fits, srv) := srv.arrive fd info chunk
  guard (fits && info.pkt.mi.isLast)
  let sess ← srv.sessions.get info.pkt.sid
  let dec ← Request.decode info.op
  let (req, _) ← dec sess.msgBuf
  return (sess.sid, req)

/-- The request that a step handles. -/
def Op.request (srv : Server) : Op → Option (Sid × Request)
  | .rx fd addr pkt seqid chunk _ => do
    let info ← getPktInfo srv pkt seqid
    guard (validatePktSession srv info addr = .ok)
    info.request srv fd chunk
  | _ => none

/-- The state a request is handed to its handler in. -/
def PktInfo.entry (srv : Server) (fd : Nat) (info : PktInfo) (chunk : Bytes) : Server :=
  let srv := (srv.arrive fd info chunk).2
  srv.note (.request info.pkt.sid info.seqid info.op info.xid (srv.msgBuf info.pkt.sid))

/-- The same for a step. -/
def Op.entry (srv : Server) : Op → Server
  | .rx fd _ pkt seqid chunk _ => ((getPktInfo srv pkt seqid).map (·.entry srv fd chunk)).getD srv
  | _ => srv

/-- The session that a step disposes of. -/
def Op.disposes (srv : Server) : Op → Option Sid
  | .timeout sid now _ => do
    let sess ← srv.sessions.get sid
    guard (sess.expired now)
    return sid
  | _ => none

/-- The faults of a step. -/
def Op.faults : Op → Faults
  | .tick _ => .none
  | .rx _ _ _ _ _ ft | .timeout _ _ ft => ft

/-- Nothing happens to the database or the numbers of handles, and neither is a lock announced nor a
handle returned. -/
structure Idle (s t : Server) : Prop where
  db : t.db = s.db
  nextFh : ∀ sid, t.nextFh sid = s.nextFh sid
  sent : ∃ told, t.sent = s.sent ++ told ∧ ∀ m ∈ told, IsPlain m

theorem Idle.refl (s : Server) : Idle s s := ⟨rfl, fun _ => rfl, [], by simp, by simp⟩

theorem Idle.trans {s t u : Server} (h : Idle s t) (g : Idle t u) : Idle s u := by
  obtain ⟨l, hl, hP⟩ := h.sent
  obtain ⟨k, hk, hQ⟩ := g.sent
  refine ⟨g.db.trans h.db, fun sid => (g.nextFh sid).trans (h.nextFh sid), l ++ k,
    by rw [hk, hl, List.append_assoc], ?_⟩
  intro m hm
  exact (List.mem_append.mp hm).elim (hP m) (hQ m)

theorem SendFrame.idle {P : Sent → Prop} {s t : Server} (h : SendFrame P s t)
    (hP : ∀ m, P m → IsPlain m) : Idle s t := ⟨h.db, h.nextFh, (h.mono hP).sent⟩

theorem sendmsg_idle (e : Env) (s : Server) (sid : Sid) (msg : ServerMsg) (op : CldMsgOp)
    (doneCb : DoneCb) (hm : ∀ fh, msg ≠ .event fh ceLocked)
    (ho : ∀ code xid fh, msg ≠ .openResp code xid fh) :
    Idle s (sessSendmsg e s sid msg op doneCb).2 := by
  rcases sessSendmsg_cases e s sid msg op doneCb with ⟨sess, pkts, hg, -, h⟩ | h
  · rw [h]
    refine ⟨rfl, map_get_putSess Session.nextFh hg rfl rfl, [⟨sid, op, msg⟩], rfl, ?_⟩
    intro m hin
    rw [List.mem_singleton] at hin
    subst hin
    constructor
    · rintro ⟨sid', fh, he⟩
      cases he
      exact hm fh rfl
    · cases msg with
      | openResp code xid fh => exact absurd rfl (ho code xid fh)
      | _ => rfl
  · rw [h]
    exact .refl s

theorem putSess_idle {s : Server} {sid : Sid} {sess : Session} (sess' : Session)
    (hg : s.sessions.get sid = some sess) (hsid : sess'.sid = sess.sid)
    (hfh : sess'.nextFh = sess.nextFh) : Idle s (s.putSess sess') :=
  ⟨rfl, map_get_putSess Session.nextFh hg hsid hfh, [], by simp [Server.putSess], by simp⟩

theorem note_idle (s : Server) (h : Handled) : Idle s (s.note h) :=
  ⟨rfl, fun _ => rfl, [], by simp [Server.note], by simp⟩

theorem simpleSendmsg_idle (e : Env) (s : Server) (fd : Nat) (sid : Sid) (user : Bytes)
    (seqid : Nat) (msg : ServerMsg) (op : CldMsgOp) :
    Idle s (simpleSendmsg e s fd sid user seqid msg op) := by
  unfold simpleSendmsg
  split <;> exact ⟨rfl, fun _ => rfl, [], by simp, by simp⟩

theorem Session.rx_sid (sess : Session) (now fd : Nat) (info : PktInfo) (chunk : Bytes) :
    (sess.rx now fd info chunk).2.sid = sess.sid ∧
      (sess.rx now fd info chunk).2.nextFh = sess.nextFh := by
  have hb : (sess.contact now fd info.op |>.begin info).sid = sess.sid ∧
      (sess.contact now fd info.op |>.begin info).nextFh = sess.nextFh := by
    unfold Session.begin
    split <;> exact ⟨rfl, rfl⟩
  unfold Session.rx
  dsimp only
  split <;> exact hb

theorem arrive_idle (s : Server) (fd : Nat) (info : PktInfo) (chunk : Bytes) :
    Idle s (s.arrive fd info chunk).2 := by
  unfold Server.arrive
  split
  · exact .refl s
  · next sess hg =>
    obtain ⟨hsid, hfh⟩ := sess.rx_sid s.currentTime fd info chunk
    exact putSess_idle _ hg hsid hfh

@[simp] theorem entry_db (s : Server) (op : Op) : (op.entry s).db = s.db := by
  cases op with
  | rx fd addr pkt seqid chunk ft =>
    cases h : getPktInfo s pkt seqid with
    | none => simp [Op.entry, h]
    | some info => simpa [Op.entry, h, PktInfo.entry, Server.note] using (arrive_idle s fd info chunk).db
  | tick now => rfl
  | timeout sid now ft => rfl

theorem arrive_time (s : Server) (fd : Nat) (info : PktInfo) (chunk : Bytes) :
    (s.arrive fd info chunk).2.currentTime = s.currentTime := by
  unfold Server.arrive
  split <;> rfl

theorem msgAck_idle (sid : Sid) (seqid : Nat) (s : Server) : Idle s (msgAck sid seqid s) := by
  unfold msgAck
  split
  · exact .refl s
  · next sess hg =>
    have hack := sess.ack_eq seqid
    exact putSess_idle _ hg (by rw [hack]) (by rw [hack])

/-- A new session, stored and in memory. -/
structure Created (sid : Sid) (s t : Server) : Prop where
  unused : s.db.sessions.get sid = none
  db : ∃ raw : RawSession, raw.sid = sid ∧ raw.nextFh = 2 ∧ raw.Written ∧
    t.db = { s.db with sessions := s.db.sessions.put unordered raw }
  nextFh : ∀ k, t.nextFh k = if k = sid then some 2 else s.nextFh k
  sent : ∃ told, t.sent = s.sent ++ told ∧ ∀ m ∈ told, IsPlain m

theorem sessionFree_idle {s : Server} {sid : Sid} (h : s.sessions.get sid = none) :
    Idle s (sessionFree sid s) := by
  refine ⟨rfl, fun k => ?_, [], by simp [sessionFree], by simp⟩
  have hk : (s.sessions.del sid).get k = s.sessions.get k := by
    apply Table.get_congr
    intro a ha
    rw [Table.mem_del, and_iff_left_iff_imp]
    exact fun hm => Table.get_eq_none.mp h a hm
  simp only [Server.nextFh, sessionFree, hk]

/-- `msg_new_sess` stores a session `sid`. -/
def Server.stores (srv : Server) (ft : Faults) (sid : Sid) : Bool :=
  !(ft .sessionNew || ft .sessionPut || (srv.db.sessions.get sid).isSome)

theorem msgNewSess_idle (e : Env) {ft : Faults} (fd : Nat) (addr : Bytes) {sid : Sid} (user : User)
    (seqid xid : Nat) {s : Server} (h : s.sessions.get sid = none) (hst : s.stores ft sid = false) :
    Idle s (msgNewSess e ft fd addr sid user seqid xid s) := by
  have hrnd : Idle s { s with rnd := s.rnd + 2 } := ⟨rfl, fun _ => rfl, [], by simp, by simp⟩
  have hfree := hrnd.trans (sessionFree_idle h)
  unfold msgNewSess
  dsimp only
  split
  · exact simpleSendmsg_idle ..
  · next hnew =>
    split
    · exact hfree.trans (simpleSendmsg_idle ..)
    · next hput =>
      split
      · exact hfree.trans (simpleSendmsg_idle ..)
      · next hused => simp [Server.stores, hnew, hput, hused] at hst

theorem msgNewSess_created (e : Env) {ft : Faults} (fd : Nat) (addr : Bytes) {sid : Sid} (user : User)
    (seqid xid : Nat) {s : Server} (hst : s.stores ft sid = true) :
    Created sid s (msgNewSess e ft fd addr sid user seqid xid s) := by
  simp only [Server.stores, Bool.not_eq_true', Bool.or_eq_false_iff] at hst
  obtain ⟨⟨hnew, hput⟩, hused⟩ := hst
  unfold msgNewSess
  dsimp only
  rw [if_neg (by simp [hnew]), if_neg (by simp [hput]), if_neg (by simp [hused])]
  set sess : Session := _ with hsess
  set v : Server := Server.putSess _ sess with hv
  have hsend := sendmsg_idle e v sid (.genericResp .ok xid) .newSess .none (fun _ h => by cases h)
    (fun _ _ _ h => by cases h)
  refine ⟨by simpa using hused, ⟨sessionEncode sess, rfl, rfl, ⟨sess, rfl⟩, hsend.db⟩, fun k => ?_,
    hsend.sent⟩
  rw [hsend.nextFh k]
  simp only [Server.nextFh, hv, Server.putSess, Table.get_put]
  split <;> rfl

theorem Idle.created {sid : Sid} {s t u : Server} (h : Idle s t) (g : Created sid t u) :
    Created sid s u := by
  obtain ⟨l, hl, hP⟩ := h.sent
  obtain ⟨k, hk, hQ⟩ := g.sent
  refine ⟨h.db ▸ g.unused, h.db ▸ g.db, fun k => ?_, l ++ k, by rw [hk, hl, List.append_assoc], ?_⟩
  · rw [g.nextFh k, h.nextFh k]
  · intro m hm
    exact (List.mem_append.mp hm).elim (hP m) (hQ m)

theorem dispatch_of_decode {e : Env} {ft : Faults} {fd : Nat} {addr : Bytes} {info : PktInfo}
    {dec : Xdr.Decoder Request} {s : Server} (h : Request.decode info.op = some dec) :
    dispatch e ft fd addr info s = tcpRxHandle e ft info dec s := by
  unfold dispatch
  cases hop : info.op <;> rw [hop] at h <;> first | cases h; done | simp only [h]

theorem dispatch_idle (e : Env) (ft : Faults) (fd : Nat) (addr : Bytes) {info : PktInfo}
    {s : Server} (h : Request.decode info.op = none) (hop : info.op ≠ .newSess) :
    Idle s (dispatch e ft fd addr info s).2 := by
  unfold dispatch
  dsimp only
  split
  · exact (note_idle ..).trans (msgAck_idle ..)
  · exact (note_idle ..).trans ((sessSendrespGeneric_frame ..).idle fun m hm => hm.isPlain)
  · next hnew => exact absurd hnew hop
  · exact (note_idle ..).trans
      (sendmsg_idle e _ _ (.genericResp .ok info.xid) .endSess .endSessDone nofun nofun)
  · rw [h]
    exact .refl s

/-- The session that `msg_new_sess` stores for a packet that completes a message. -/
def PktInfo.begins (srv : Server) (ft : Faults) (info : PktInfo) : Bool :=
  info.op = .newSess && (User.ofBytes info.pkt.user).isSome && srv.stores ft info.pkt.sid

theorem dispatch_newSess (e : Env) (ft : Faults) (fd : Nat) (addr : Bytes) {info : PktInfo}
    {s : Server} (hop : info.op = .newSess) (hnone : s.sessions.get info.pkt.sid = none) :
    (info.begins s ft = false → Idle s (dispatch e ft fd addr info s).2) ∧
      (info.begins s ft = true → Created info.pkt.sid s (dispatch e ft fd addr info s).2) := by
  have hnote := note_idle s (.request info.pkt.sid info.seqid info.op info.xid (s.msgBuf info.pkt.sid))
  set v := s.note (.request info.pkt.sid info.seqid info.op info.xid (s.msgBuf info.pkt.sid)) with hv
  cases hu : User.ofBytes info.pkt.user with
  | none => simp [dispatch, hop, PktInfo.begins, hu, Idle.refl]
  | some user =>
    have hb : info.begins s ft = v.stores ft info.pkt.sid := by
      simp [PktInfo.begins, hop, hu, hv, Server.stores, Server.note]
    have hd : (dispatch e ft fd addr info s).2 =
        msgNewSess e ft fd addr info.pkt.sid user info.seqid info.xid v := by
      simp only [dispatch, hop, hu, hv]
    rw [hb, hd]
    exact ⟨fun h => hnote.trans (msgNewSess_idle e fd addr user info.seqid info.xid hnone h),
      fun h => hnote.created (msgNewSess_created e fd addr user info.seqid info.xid h)⟩

/-- A message that is no request makes a session or leaves the database alone. -/
theorem dispatch_other (e : Env) (ft : Faults) (fd : Nat) (addr : Bytes) {info : PktInfo}
    {s : Server} (h : Request.decode info.op = none)
    (hnew : info.op = .newSess → s.sessions.get info.pkt.sid = none) :
    Idle s (dispatch e ft fd addr info s).2 ∨
      ∃ sid, Created sid s (dispatch e ft fd addr info s).2 := by
  by_cases hop : info.op = .newSess
  · have hcases := dispatch_newSess e ft fd addr hop (hnew hop)
    cases hb : info.begins s ft with
    | false => exact .inl (hcases.1 hb)
    | true => exact .inr ⟨_, hcases.2 hb⟩
  · exact .inl (dispatch_idle e ft fd addr h hop)

/-- What a step can do. -/
inductive StepCase (e : Env) (s : Server) (op : Op) (t : Server) : Prop where
  | idle (hr : op.request s = none) (hd : op.disposes s = none) (h : Idle s t)
  | created {sid : Sid} (hr : op.request s = none) (hd : op.disposes s = none) (h : Created sid s t)
  | request {sid : Sid} {req : Request} {v : Server} {sess : Session}
      (hr : op.request s = some (sid, req)) (hd : op.disposes s = none) (hv : Idle s v)
      (hsent : v.sent = s.sent) (htime : v.currentTime = s.currentTime)
      (hsess : v.sessions.get sid = some sess) (ht : t = req.handle e op.faults sid v)
      (hentry : v = op.entry s)
  | dispose {sid : Sid} (hr : op.request s = none) (hd : op.disposes s = some sid)
      (ht : t = (inTxn op.faults .err (sessionDispose e op.faults sid) s).2)

theorem arrive_sent (s : Server) (fd : Nat) (info : PktInfo) (chunk : Bytes) :
    (s.arrive fd info chunk).2.sent = s.sent := by
  unfold Server.arrive
  split <;> rfl

theorem arrive_get_none {s : Server} (fd : Nat) (info : PktInfo) (chunk : Bytes) {sid : Sid}
    (h : s.sessions.get sid = none) : (s.arrive fd info chunk).2.sessions.get sid = none := by
  have hfh := (arrive_idle s fd info chunk).nextFh sid
  rw [Server.nextFh, Server.nextFh, h] at hfh
  simpa using hfh

theorem tcpRx_cases (e : Env) (ft : Faults) (fd : Nat) (addr : Bytes) (info : PktInfo)
    (chunk : Bytes) {s : Server} (hnew : info.op = .newSess → s.sessions.get info.pkt.sid = none) :
    let t := (tcpRx e ft fd addr info chunk s).2
    (info.request s fd chunk = none ∧ (Idle s t ∨ ∃ sid, Created sid s t)) ∨
      ∃ sid req v sess, info.request s fd chunk = some (sid, req) ∧ Idle s v ∧ v.sent = s.sent ∧
        v.currentTime = s.currentTime ∧ v.sessions.get sid = some sess ∧
        t = req.handle e ft sid v ∧ v = info.entry s fd chunk := by
  have harr := arrive_idle s fd info chunk
  have hsent := arrive_sent s fd info chunk
  have htime := arrive_time s fd info chunk
  have hnone := fun h => arrive_get_none fd info chunk (hnew h)
  dsimp only
  unfold tcpRx PktInfo.request PktInfo.entry
  rcases hv : s.arrive fd info chunk with ⟨fits, v⟩
  rw [hv] at harr hsent htime hnone
  dsimp only at *
  cases fits with
  | false => exact .inl ⟨rfl, .inl harr⟩
  | true =>
    cases hl : info.pkt.mi.isLast with
    | false =>
      simp only [Bool.not_true, Bool.false_eq_true, if_false, Bool.not_false, if_true]
      exact .inl ⟨rfl, .inl (harr.trans (simpleSendmsg_idle ..))⟩
    | true =>
      simp only [Bool.not_true, Bool.false_eq_true, if_false, Bool.and_self, guard]
      cases hdec : Request.decode info.op with
      | none =>
        left
        refine ⟨by cases v.sessions.get info.pkt.sid <;> rfl, ?_⟩
        exact (dispatch_other e ft fd addr hdec hnone).imp harr.trans fun hc =>
          hc.imp fun sid hc => harr.created hc
      | some dec =>
        rw [dispatch_of_decode hdec]
        unfold tcpRxHandle
        cases hg : v.sessions.get info.pkt.sid with
        | none => exact .inl ⟨rfl, .inl harr⟩
        | some sess =>
          cases hreq : dec sess.msgBuf with
          | none => exact .inl ⟨by simp [hreq], .inl (by simpa [hreq] using harr)⟩
          | some r =>
            obtain ⟨req, rest⟩ := r
            right
            refine ⟨sess.sid, req, v.note (.request sess.sid info.seqid info.op info.xid sess.msgBuf),
              sess, by simp [hreq], harr.trans (note_idle v _), hsent, htime, ?_, by simp [hreq], ?_⟩
            · rw [get_sid hg]
              exact hg
            · simp [get_sid hg, Server.msgBuf, hg]

theorem sessionTimeout_idle (e : Env) (ft : Faults) {now : Nat} {sid : Sid} {s : Server}
    (h : ∀ sess, s.sessions.get sid = some sess → sess.expired now = false) :
    Idle s (sessionTimeout e ft now sid s) := by
  unfold sessionTimeout
  split
  · exact .refl s
  · next sess hg =>
    rw [if_neg (by simp [h sess hg])]
    dsimp only
    split
    · exact (putSess_idle { sess with pingOpen := true } hg rfl rfl).trans
        (sendmsg_idle e _ sid .void .ping .sessionPingDone nofun nofun)
    · exact .refl s

/-- Everything a step can do, however it goes. -/
theorem step_cases (e : Env) (s : Server) (op : Op) : StepCase e s op (s.step e op) := by
  cases op with
  | tick now => exact .idle rfl rfl ⟨rfl, fun _ => rfl, [], by simp [Server.step], by simp⟩
  | rx fd addr pkt seqid chunk ft =>
    simp only [Server.step]
    cases hinfo : getPktInfo s pkt seqid with
    | none => exact .idle (by simp [Op.request, hinfo]) rfl (.refl s)
    | some info =>
      by_cases hval : validatePktSession s info addr = .ok
      · have hnew : info.op = .newSess → s.sessions.get info.pkt.sid = none := by
          intro hop
          unfold validatePktSession at hval
          split at hval
          · assumption
          · simp [hop] at hval
        have hreq : (Op.rx fd addr pkt seqid chunk ft).request s = info.request s fd chunk := by
          simp [Op.request, hinfo, hval, guard]
        simp only [hval, if_true]
        rcases tcpRx_cases e ft fd addr info chunk hnew with ⟨hr, hi | ⟨sid, hc⟩⟩ | ⟨sid, req, v, sess, hr, hv, hsent, htime, hg, ht, hentry⟩
        · exact .idle (hreq.trans hr) rfl hi
        · exact .created (hreq.trans hr) rfl hc
        · exact .request (hreq.trans hr) rfl hv hsent htime hg ht (by simp [Op.entry, hinfo, hentry])
      · simp only [hval, if_false]
        exact .idle (by simp [Op.request, hinfo, hval, guard, failure]) rfl (.refl s)
  | timeout sid now ft =>
    cases hg : s.sessions.get sid with
    | none =>
      exact .idle rfl (by simp [Op.disposes, hg]) (sessionTimeout_idle e ft (by simp [hg]))
    | some sess =>
      cases hexp : sess.expired now with
      | false =>
        exact .idle rfl (by simp [Op.disposes, hg, hexp, guard, failure])
          (sessionTimeout_idle e ft (by simp [hg, hexp]))
      | true =>
        have hd : (Op.timeout sid now ft).disposes s = some sid := by
          simp [Op.disposes, hg, hexp, guard]
        refine .dispose rfl hd ?_
        simp [Server.step, sessionTimeout, hg, hexp, Op.faults]

/-! ## Steps as the database sees them -/

/-- Sessions may be gone, and a session that opens an inode may take a handle number. -/
def FhStep (s : Server) (op : Op) (t : Server) : Prop :=
  ∀ k fh, t.nextFh k = some fh → s.nextFh k = some fh ∨
    ∃ n m, op.request s = some (k, .open m) ∧ s.nextFh k = some n ∧ fh = (n + 1) % 2 ^ 64

/-- What a step can do to the database. -/
inductive DbStep (s : Server) (op : Op) (t : Server) : Prop where
  | same (hdb : t.db = s.db) (hfh : FhStep s op t)
  | created {sid : Sid} (h : Created sid s t)
  | effect {sid : Sid} {req : Request} {fh : Nat} (hr : op.request s = some (sid, req))
      (hn : s.nextFh sid = some fh) (h : DbEffect sid fh s.currentTime s.db req t.db)
      (hopen : ∀ m, req = .open m → t.nextFh sid = some ((fh + 1) % 2 ^ 64)) (hfh : FhStep s op t)
  | pruned {sid : Sid} (hd : op.disposes s = some sid) (h : Pruned op.faults sid s.db t.db)
      (hfh : FhStep s op t) (hfree : t.sessions.get sid = none)

theorem sessionFree_get (sid : Sid) (s : Server) : (sessionFree sid s).sessions.get sid = none := by
  simp [sessionFree, Table.get_del]

theorem sessionFree_nextFh {s : Server} {sid k : Sid} {fh : Nat}
    (h : (sessionFree sid s).nextFh k = some fh) : s.nextFh k = some fh := by
  simp only [Server.nextFh, Option.map_eq_some_iff] at h ⊢
  obtain ⟨sess, hg, rfl⟩ := h
  obtain ⟨hm, hk⟩ := Table.mem_get.mp hg
  exact ⟨sess, Table.mem_get.mpr ⟨(Table.mem_del.mp hm).1, hk⟩, rfl⟩

theorem sessionDispose_nextFh {e : Env} {ft : Faults} {sid : Sid} {s : Server} {k : Sid} {fh : Nat}
    (h : (inTxn ft .err (sessionDispose e ft sid) s).2.nextFh k = some fh) :
    s.nextFh k = some fh := by
  rcases inTxn_end ft .err (sessionDispose e ft sid) s with he | ⟨db, he⟩
  · rwa [he] at h
  · rw [he] at h
    have hf : ((sessionRemove e ft sid s).2).nextFh k = some fh := sessionFree_nextFh h
    rwa [(sessionRemove_keeps e ft sid s).nextFh k] at hf

theorem sessionDispose_db (e : Env) (ft : Faults) (sid : Sid) (s : Server) :
    (inTxn ft .err (sessionDispose e ft sid) s).2.db = s.db ∨
      Pruned ft sid s.db (inTxn ft .err (sessionDispose e ft sid) s).2.db ∧
        (inTxn ft .err (sessionDispose e ft sid) s).2.sessions.get sid = none := by
  rcases hres : inTxn ft .err (sessionDispose e ft sid) s with ⟨code | u, t⟩
  · rw [hres]
    exact .inl (inTxn_error' hres)
  · rw [hres]
    right
    have hbody := (inTxn_ok.mp hres).2.2
    rcases hrem : sessionRemove e ft sid s with ⟨rc, v⟩
    simp only [sessionDispose, hrem] at hbody
    cases hbody
    have hp : Pruned ft sid s.db v.db := sessionRemove_ok hrem
    exact ⟨hp, sessionFree_get sid v⟩

theorem step_db (e : Env) (s : Server) (op : Op) : DbStep s op (s.step e op) := by
  cases step_cases e s op with
  | idle hr hd h => exact .same h.db fun k fh hk => .inl ((h.nextFh k).symm.trans hk)
  | created hr hd h => exact .created h
  | @request sid req v sess hr hd hv hsent htime hsess ht =>
    have hvn : v.nextFh sid = some sess.nextFh := by simp [Server.nextFh, hsess]
    have hfh : FhStep s op (s.step e op) := by
      rw [ht]
      intro k fh hk
      rcases handle_nextFh e op.faults sid req v with hs | ⟨⟨m, rfl⟩, n, hn, hs⟩
      · exact .inl (by rw [← hv.nextFh k, ← hs k, hk])
      · rw [hs k] at hk
        split at hk
        · next heq =>
          subst heq
          exact .inr ⟨n, m, hr, (hv.nextFh k).symm.trans hn, (Option.some.inj hk).symm⟩
        · exact .inl ((hv.nextFh k).symm.trans hk)
    rcases handle_db e op.faults req hvn with hdb | ⟨heff, hopen⟩
    · rw [← ht, hv.db] at hdb
      exact .same hdb hfh
    · rw [← ht, hv.db, htime] at heff
      exact .effect hr ((hv.nextFh sid).symm.trans hvn) heff (ht ▸ hopen) hfh
  | @dispose sid hr hd ht =>
    have hfh : FhStep s op (s.step e op) := by
      rw [ht]
      exact fun k fh hk => .inl (sessionDispose_nextFh hk)
    rw [ht] at hfh ⊢
    rcases sessionDispose_db e op.faults sid s with hdb | ⟨hp, hfree⟩
    · exact .same hdb hfh
    · exact .pruned hd hp hfh hfree

/-! ## The server as it starts -/

/-- The inode `ensure_root` makes. -/
def rootInode (now : Nat) : RawInode := { cldbInodeMem now [slash] ciflDir cldInoRoot with version := 1 }

/-- A server over an empty database, to which `ensure_root` adds the root directory. -/
def Server.init (now : Nat) : Server where
  db :=
    { sessions := .empty, inodes := Table.empty.put unordered (rootInode now), data := .empty
      handles := .empty, locks := fun _ => [] }
  sessions := .empty
  currentTime := now
  isMaster := true
  up := true
  rnd := 0
  garbage := 0
  sent := []
  tx := []
  handled := []

/-- A message in one packet, from socket 5, of a session of the user `cli`. -/
def Op.msg (sid : Sid) (op : CldMsgOp) (body : Bytes) : Op :=
  .rx 5 [] (pktHdr sid User.cli.name (.firstLast 0 op)) 0 body .none

def Op.newSess (sid : Sid) : Op := .msg sid .newSess []

def Op.open (sid : Sid) (mode : Nat) (name : Bytes) : Op :=
  .msg sid .open (Xdr.putInt mode ++ Xdr.putInt 0 ++ (Xdr.putVar cldInodeNameMax name).getD [])

def Op.close (sid : Sid) (fh : Nat) : Op := .msg sid .close (Xdr.putHyper fh)

def Op.put (sid : Sid) (fh : Nat) (data : Bytes) : Op :=
  .msg sid .put (Xdr.putHyper fh ++ (Xdr.putVar cldMaxPayloadSz data).getD [])

def Op.del (sid : Sid) (name : Bytes) : Op :=
  .msg sid .del ((Xdr.putVar cldInodeNameMax name).getD [])

def Op.lock (sid : Sid) (fh : Nat) : Op := .msg sid .lock (Xdr.putHyper fh ++ Xdr.putInt 0)

def Op.lockShared (sid : Sid) (fh : Nat) : Op :=
  .msg sid .lock (Xdr.putHyper fh ++ Xdr.putInt clfShared)

def Op.trylock (sid : Sid) (fh : Nat) : Op := .msg sid .trylock (Xdr.putHyper fh ++ Xdr.putInt 0)

def Op.unlock (sid : Sid) (fh : Nat) : Op := .msg sid .unlock (Xdr.putHyper fh)

/-- The session of `Op.msg` when it has taken in the packet. -/
def Session.takes (sess : Session) (now : Nat) (op : CldMsgOp) (body : Bytes) : Session :=
  { sess.contact now 5 op with msgOp := op, msgXid := 0, msgBuf := body }

/-- A message in one packet is handed to its handler. -/
theorem step_msg (e : Env) {s : Server} {sid : Sid} {sess : Session} {op : CldMsgOp} {body : Bytes}
    {dec : Xdr.Decoder Request} {req : Request} {rest : Bytes}
    (hs : s.sessions.get sid = some sess) (hu : sess.user = User.cli) (ha : sess.addr = [])
    (hd : sess.dead = false) (hl : body.length ≤ cldMaxMsgSz) (hdec : Request.decode op = some dec)
    (hreq : dec body = some (req, rest)) :
    s.step e (.msg sid op body) = req.handle e .none sid
      ((s.putSess (sess.takes s.currentTime op body)).note (.request sid 0 op 0 body)) := by
  have hsid : sess.sid = sid := get_sid hs
  set info : PktInfo := ⟨pktHdr sid User.cli.name (.firstLast 0 op), 0, 0, op⟩ with hinfo
  have hop : op ≠ .newSess := by
    rintro rfl
    cases hdec
  have hval : validatePktSession s info [] = .ok := by
    simp [validatePktSession, hinfo, pktHdr, hs, hu, ha, hd, hop]
  have harr : s.arrive 5 info body = (true, s.putSess (sess.takes s.currentTime op body)) := by
    simp [Server.arrive, hinfo, pktHdr, hs, Session.rx, Session.begin, CldPktMsgInfo.isFirst,
      CldPktMsgInfo.infos, hl.not_gt, Session.takes]
  have hget : (s.putSess (sess.takes s.currentTime op body)).sessions.get sid =
      some (sess.takes s.currentTime op body) := by
    simp [Server.putSess, Session.takes, Session.contact, hsid]
  have hstep : s.step e (.msg sid op body) = (tcpRx e .none 5 [] info body s).2 := by
    change (if validatePktSession s info [] = .ok then _ else _) = _
    rw [if_pos hval]
  have hlast : info.pkt.mi.isLast = true := rfl
  rw [hstep, tcpRx, harr]
  simp only [Bool.not_true, Bool.false_eq_true, if_false, hlast]
  rw [dispatch_of_decode hdec, tcpRxHandle]
  simp only [hinfo, pktHdr, hget]
  have hbuf : (sess.takes s.currentTime op body).msgBuf = body := rfl
  have hsid' : (sess.takes s.currentTime op body).sid = sid := hsid
  rw [hbuf, hreq, hsid']

end Hail.Cld
