import Hail.Cldc.Window

/-!
# Events

The server keeps a packet in the output queue of its session, and sends it again from time to time,
until the client acknowledges it. Of the messages that `rx_complete` tells apart, it acknowledges
all that are understood but for events: a packet with an event stays in the queue as long as the
session lives.
-/
namespace Hail.Cldc

open Library Cld

/-! ## What a client acknowledges -/

/-- The packet of an acknowledgement. -/
def ackRaw (e : Env) (sess : CldcSession) (seqid : Nat) : Bytes :=
  rawPkt e sess.secretKey (hdrBytes sess.sid sess.user (.firstLast 0 .ack)) [] seqid

/-- Nothing was sent, or one acknowledgement of `seqid`. -/
def Acks (e : Env) (seqid : Nat) (s t : CldcSession) : Prop :=
  t.tx = s.tx ∨ t.tx = s.tx ++ [⟨none, false, ackRaw e s seqid⟩]

theorem ackSeqid_acks (e : Env) (ok : Bool) (sess : CldcSession) (seqid : Nat) :
    Acks e seqid sess (sess.ackSeqid e ok seqid).2 := by
  unfold CldcSession.ackSeqid
  rw [ackPkt_eq e sess.sid sess.user sess.key_ne_nil]
  dsimp only
  split
  · exact .inr rfl
  · exact .inl rfl

/-- What a client signs its packets with. -/
structure SameClient (s t : CldcSession) : Prop where
  sid : t.sid = s.sid
  user : t.user = s.user
  key : t.secretKey = s.secretKey

theorem SameClient.of_rxState {s t : CldcSession} {r : RxState} (hsid : r.sid = s.sid)
    (huser : r.user = s.user) (hkey : r.secretKey = s.secretKey) (h : t.rxState = r) :
    SameClient s t := by
  subst h
  exact ⟨hsid, huser, hkey⟩

theorem ackRaw_congr (e : Env) {s t : CldcSession} (h : SameClient s t) (seqid : Nat) :
    ackRaw e t seqid = ackRaw e s seqid := by
  rw [ackRaw, h.sid, h.user, h.key, ackRaw]

theorem rxmsgGeneric_acks (e : Env) (ok : Bool) (sess : CldcSession) (seqid : Nat) :
    Acks e seqid sess (sess.rxmsgGeneric e ok seqid).2 := by
  unfold CldcSession.rxmsgGeneric
  split
  · exact .inl rfl
  · next code xidIn _ _ =>
    split
    · exact .inl rfl
    · next req _ =>
      split
      · exact ackSeqid_acks e ok sess seqid
      · dsimp only
        set marked : CldcSession := { sess with outMsg := _ }
        obtain ⟨htx, -⟩ := runCb_same marked req sess.msgBuf code
        split
        · exact .inl htx
        · have hacks := ackSeqid_acks e ok (marked.runCb req sess.msgBuf code).2 seqid
          have hraw := ackRaw_congr e
            (.of_rxState rfl rfl rfl (runCb_rxState marked req sess.msgBuf code)) seqid
          unfold Acks at hacks ⊢
          rw [htx, hraw] at hacks
          exact hacks

theorem rxComplete_acks (e : Env) (ok : Bool) (stray : Nat → Nat → Nat) (sess : CldcSession)
    (seqid : Nat) : Acks e seqid sess (sess.rxComplete e ok stray seqid).2 := by
  unfold CldcSession.rxComplete
  split
  · exact .inl rfl
  · exact ackSeqid_acks e ok sess seqid
  · exact .inl rfl
  · unfold CldcSession.rxmsgEvent
    dsimp only
    split
    · exact .inl rfl
    · split <;> exact .inl rfl
  · unfold CldcSession.rxmsgAckFrag
    split <;> exact .inl rfl
  · exact rxmsgGeneric_acks e ok sess seqid

theorem begun_tx (sess : CldcSession) (now : Nat) (mi : CldPktMsgInfo) :
    (sess.begun now mi).tx = sess.tx := by
  unfold CldcSession.begun
  dsimp only
  split <;> rfl

/-- A packet is acknowledged with its own number, if at all. -/
theorem rxPkt_acks (e : Env) (now : Nat) (ok : Bool) (stray : Nat → Nat → Nat) (sess : CldcSession)
    (mi : CldPktMsgInfo) (chunk : Bytes) (seqid : Nat) :
    Acks e seqid sess (sess.rxPkt e now ok stray mi chunk seqid).2 := by
  have hcase := rxPkt_cases e now ok stray sess mi chunk seqid
  generalize sess.rxPkt e now ok stray mi chunk seqid = r at hcase ⊢
  cases hcase with
  | refused => exact .inl (begun_tx sess now mi)
  | tooLong => exact .inl (begun_tx sess now mi)
  | @taken w =>
    have htx : (sess.taken now mi chunk w).tx = sess.tx := begun_tx sess now mi
    have hraw : ackRaw e (sess.taken now mi chunk w) seqid = ackRaw e sess seqid :=
      ackRaw_congr e (.of_rxState rfl rfl rfl (taken_rxState sess now mi chunk w)) seqid
    have hacks : Acks e seqid (sess.taken now mi chunk w)
        (if mi.isLast then (sess.taken now mi chunk w).rxComplete e ok stray seqid
          else (sess.taken now mi chunk w).ackSeqid e ok seqid).2 := by
      split
      · exact rxComplete_acks ..
      · exact ackSeqid_acks ..
    unfold Acks at hacks ⊢
    rwa [htx, hraw] at hacks

theorem receive_acks (e : Env) (now : Nat) (ok : Bool) (stray : Nat → Nat → Nat)
    (netAddr raw : Bytes) (sess : CldcSession) :
    Acks e (footSeqid raw) sess (cldcReceivePkt e now ok stray netAddr raw sess).2 := by
  unfold cldcReceivePkt
  split
  · exact .inl rfl
  · split
    · exact .inl rfl
    · split_ifs
      · exact .inl rfl
      · exact .inl rfl
      · exact .inl rfl
      · exact rxPkt_acks ..

/-- The packet of an event. -/
def eventRaw (e : Env) (sess : CldcSession) (xid fh events seqid : Nat) : Bytes :=
  rawPkt e sess.secretKey (hdrBytes sess.sid sess.user (.firstLast xid .event))
    (Xdr.putHyper fh ++ Xdr.putInt events) seqid

/-- An event is not acknowledged. -/
theorem receive_event (e : Env) (now : Nat) (ok : Bool) (stray : Nat → Nat → Nat)
    (sess : CldcSession) {xid : Nat} (hxid : xid < 2 ^ 64) (fh events seqid : Nat) :
    (cldcReceivePkt e now ok stray sess.addr (eventRaw e sess xid fh events seqid) sess).2.tx =
      sess.tx := by
  have hw : (pktHdr sess.sid sess.user.name (.firstLast xid .event)).Wire :=
    pktMi_wire sess.user sess.sid_lt hxid (by decide) true true
  rw [eventRaw, cldcReceivePkt_rawPkt e now ok stray sess hw]
  set mi : CldPktMsgInfo := .firstLast xid .event
  set chunk := Xdr.putHyper fh ++ Xdr.putInt events
  have hcase := rxPkt_cases e now ok stray sess mi chunk (seqid % 2 ^ 64)
  generalize sess.rxPkt e now ok stray mi chunk (seqid % 2 ^ 64) = r at hcase ⊢
  cases hcase with
  | refused => exact begun_tx sess now mi
  | tooLong => exact begun_tx sess now mi
  | @taken w =>
    have hlast : mi.isLast = true := rfl
    have hevent : (sess.taken now mi chunk w).rxComplete e ok stray (seqid % 2 ^ 64) =
        (sess.taken now mi chunk w).rxmsgEvent := rfl
    rw [if_pos hlast, hevent]
    have htx : (sess.taken now mi chunk w).tx = sess.tx := begun_tx sess now mi
    unfold CldcSession.rxmsgEvent
    dsimp only
    split
    · exact htx
    · split <;> exact htx

theorem eventRaw_congr (e : Env) {s t : CldcSession} (h : SameClient s t) (xid fh events seqid : Nat) :
    eventRaw e t xid fh events seqid = eventRaw e s xid fh events seqid := by
  rw [eventRaw, h.sid, h.user, h.key, eventRaw]

theorem receive_sameClient (e : Env) (now : Nat) (ok : Bool) (stray : Nat → Nat → Nat)
    (netAddr raw : Bytes) (sess : CldcSession) :
    SameClient sess (cldcReceivePkt e now ok stray netAddr raw sess).2 := by
  have hrx : ∀ mi chunk seqid, SameClient sess (sess.rxPkt e now ok stray mi chunk seqid).2 := by
    intro mi chunk seqid
    have h := rxPkt_rxState e now ok stray sess mi chunk seqid
    split at h <;> exact .of_rxState rfl rfl rfl h
  unfold cldcReceivePkt
  split
  · exact ⟨rfl, rfl, rfl⟩
  · split
    · exact ⟨rfl, rfl, rfl⟩
    · split_ifs
      · exact ⟨rfl, rfl, rfl⟩
      · exact ⟨rfl, rfl, rfl⟩
      · exact ⟨rfl, rfl, rfl⟩
      · exact hrx ..

/-! ## Acknowledgements at the server -/

/-- An acknowledgement that reaches its session is handed to `msg_ack`, and nothing is sent. -/
theorem cliRdPkt_ack (e : Env) (ft : Faults) (fd : Nat) {s : Server} {sid : Sid} {addr : Bytes}
    {u : User} {sess : Session} (hc : Reaches s sid addr u sess) (hsid : sid < 2 ^ 64) (seqid : Nat) :
    let mi : CldPktMsgInfo := .firstLast 0 .ack
    let t := (cliRdPkt e ft fd addr (rawPkt e u.name (hdrBytes sid u mi) [] seqid) s).2
    t.sessions.get sid = some ((sess.taken s.currentTime fd u mi [] seqid).ack (seqid % 2 ^ 64)) ∧
      t.tx = s.tx ∧ t.isMaster = s.isMaster ∧ t.up = s.up := by
  intro mi t
  have hw : (pktHdr sid u.name mi).Wire := pktMi_wire u hsid (by decide) (by decide) true true
  have hfit : (sess.bufWith mi []).length ≤ cldMaxMsgSz := Nat.zero_le _
  have hop : (sess.pktInfo u mi seqid).op = .ack := rfl
  have hsess : sess.sid = sid := get_sid hc.get
  have hpsid : (sess.pktInfo u mi seqid).pkt.sid = sid := hsess
  have hlast : (sess.pktInfo u mi seqid).pkt.mi.isLast = true := rfl
  have hseq : (sess.pktInfo u mi seqid).seqid = seqid % 2 ^ 64 := rfl
  have hget : (s.putSess (sess.taken s.currentTime fd u mi [] seqid)).sessions.get sid =
      some (sess.taken s.currentTime fd u mi [] seqid) := putSess_get hsess
  have hafter := msgAck_after hget (seqid % 2 ^ 64)
  have hrx : tcpRx e ft fd addr (sess.pktInfo u mi seqid) [] s = (.ok,
      msgAck sid (seqid % 2 ^ 64) ((s.putSess (sess.taken s.currentTime fd u mi [] seqid)).note
        (.ack sid (seqid % 2 ^ 64)))) := by
    simp only [tcpRx, arrive_fits hc.get fd u mi seqid hfit, hlast, dispatch, hop, hpsid, hseq,
      Bool.not_true, Bool.false_eq_true, if_false]
  have ht : t = msgAck sid (seqid % 2 ^ 64)
      ((s.putSess (sess.taken s.currentTime fd u mi [] seqid)).note
        (.ack sid (seqid % 2 ^ 64))) := by
    simp only [t, cliRdPkt_rawPkt e ft fd hc hw [] seqid (by simp [hop]), hrx]
  rw [ht]
  refine ⟨hafter.get, ?_, hafter.master, hafter.up⟩
  unfold msgAck
  split <;> rfl

/-! ## Schedules -/

/-- The server and a client of it. `got` counts the packets of the server that the client has
received, and `read` those of the client that the server has read. -/
structure Duplex where
  srv : Server
  sess : CldcSession
  got : Nat
  read : Nat

inductive Turn where
  | tick (now : Nat)
  | retry (ok : Nat → Bool)
  | receive (now : Nat) (ok : Bool) (stray : Nat → Nat → Nat)
  | deliver (ft : Faults)

/-- The packets the server has sent on a socket. -/
def wireOf (fd : Nat) (srv : Server) : List Bytes := (srv.tx.filter (·.1 = fd)).map Prod.snd

/-- The client is at `addr` on socket `fd`. -/
def Duplex.step (e : Env) (fd : Nat) (addr : Bytes) (d : Duplex) : Turn → Duplex
  | .tick now => { d with srv := d.srv.step e (.tick now) }
  | .retry ok => { d with srv := sessionRetry ok d.sess.sid d.srv }
  | .receive now ok stray =>
    match (wireOf fd d.srv)[d.got]? with
    | none => d
    | some pkt =>
      { d with
        sess := (cldcReceivePkt e now ok stray d.sess.addr pkt d.sess).2
        got := d.got + 1 }
  | .deliver ft =>
    match d.sess.tx[d.read]? with
    | none => d
    | some p => { d with srv := (cliRdPkt e ft fd addr p.data d.srv).2, read := d.read + 1 }

/-- The packet `ev` is in the queue, the only one with its number, and no packet of the queue ends the
session. -/
structure Keeps (ev : Bytes) (outQ : List OutPkt) : Prop where
  has : ∃ op ∈ outQ, op.pktData = ev
  alone : ∀ op ∈ outQ, op.pktData = ev ∨ footSeqid op.pktData ≠ footSeqid ev
  lasting : ∀ op ∈ outQ, op.doneCb ≠ .endSessDone

/-- The packet `ev` is queued for a client that is alive: the packets of the client reach its session,
and what is on its way between the two has other numbers than that packet. -/
structure Duplex.Queued (e : Env) (fd : Nat) (addr ev : Bytes) (d : Duplex) : Prop where
  key : d.sess.secretKey = d.sess.user.name
  session : ∃ s, Reaches d.srv d.sess.sid addr d.sess.user s ∧ Keeps ev s.outQ
  wire : ∀ pkt ∈ (wireOf fd d.srv).drop d.got, pkt = ev ∨ footSeqid pkt ≠ footSeqid ev
  acks : ∀ p ∈ d.sess.tx.drop d.read, footSeqid p.data ≠ footSeqid ev ∧
    p.data = ackRaw e d.sess (footSeqid p.data)

theorem Keeps.retry {ev : Bytes} {outQ : List OutPkt} (h : Keeps ev outQ) (now : Nat)
    (ok : Nat → Bool) :
    Keeps ev (retryLoop now ok 0 outQ).1 ∧
      ∀ pkt ∈ (retryLoop now ok 0 outQ).2, pkt = ev ∨ footSeqid pkt ≠ footSeqid ev := by
  obtain ⟨hmap, hsent⟩ := retryLoop_spec now ok 0 outQ
  have hmem : ∀ d cb, (∃ op ∈ (retryLoop now ok 0 outQ).1, op.pktData = d ∧ op.doneCb = cb) ↔
      ∃ op ∈ outQ, op.pktData = d ∧ op.doneCb = cb := by
    intro d cb
    have hpair := congrArg ((d, cb) ∈ ·) hmap
    simpa using hpair
  refine ⟨⟨?_, fun op hop => ?_, fun op hop => ?_⟩, fun pkt hp => ?_⟩
  · obtain ⟨op, hop, hev⟩ := h.has
    obtain ⟨op', hop', hev', -⟩ := (hmem ev op.doneCb).mpr ⟨op, hop, hev, rfl⟩
    exact ⟨op', hop', hev'⟩
  · obtain ⟨op', hop', hd, -⟩ := (hmem op.pktData op.doneCb).mp ⟨op, hop, rfl, rfl⟩
    rw [← hd]
    exact h.alone op' hop'
  · obtain ⟨op', hop', -, hcb⟩ := (hmem op.pktData op.doneCb).mp ⟨op, hop, rfl, rfl⟩
    rw [← hcb]
    exact h.lasting op' hop'
  · obtain ⟨op, hop, rfl⟩ := hsent pkt hp
    exact h.alone op hop

theorem Keeps.filter {ev : Bytes} {outQ : List OutPkt} (h : Keeps ev outQ) {n : Nat}
    (hn : footSeqid ev ≠ n) : Keeps ev (outQ.filter fun op => footSeqid op.pktData ≠ n) := by
  refine ⟨?_, fun op hop => h.alone op (List.mem_filter.mp hop).1,
    fun op hop => h.lasting op (List.mem_filter.mp hop).1⟩
  obtain ⟨op, hop, hev⟩ := h.has
  exact ⟨op, List.mem_filter.mpr ⟨hop, by simpa [hev] using hn⟩, hev⟩

theorem wireOf_append (fd : Nat) (srv t : Server) (fd' : Nat) (pkts : List Bytes)
    (h : t.tx = srv.tx ++ pkts.map (fd', ·)) :
    wireOf fd t = wireOf fd srv ++ if fd' = fd then pkts else [] := by
  unfold wireOf
  rw [h, List.filter_append, List.map_append]
  split <;> simp_all [List.filter_map, Function.comp_def]

theorem Duplex.Queued.retry {e : Env} {fd : Nat} {addr ev : Bytes} {d : Duplex}
    (h : d.Queued e fd addr ev) (ok : Nat → Bool) :
    (d.step e fd addr (.retry ok)).Queued e fd addr ev := by
  obtain ⟨s, hc, hkeeps⟩ := h.session
  have hsid : s.sid = d.sess.sid := get_sid hc.get
  obtain ⟨hkeeps', hsent⟩ := hkeeps.retry d.srv.currentTime ok
  have hstep : d.step e fd addr (.retry ok) = { d with
      srv := { d.srv.putSess { s with outQ := (retryLoop d.srv.currentTime ok 0 s.outQ).1 } with
        tx := d.srv.tx ++
          (retryLoop d.srv.currentTime ok 0 s.outQ).2.map (s.sockFd, ·) } } := by
    simp only [Duplex.step, sessionRetry, hc.get]
  rw [hstep]
  refine ⟨h.key, ⟨_, ⟨putSess_get hsid, hc.addr, hc.user, hc.live, hc.master, hc.up⟩, hkeeps'⟩, ?_,
    h.acks⟩
  intro pkt hp
  rw [wireOf_append fd d.srv _ s.sockFd _ rfl, List.drop_append] at hp
  rcases List.mem_append.mp hp with hp | hp
  · exact h.wire pkt hp
  · have hp := List.mem_of_mem_drop hp
    split at hp
    · exact hsent pkt hp
    · cases hp

/-- What a client sends for a packet that is the event, or has another number than it. -/
theorem receive_others (e : Env) (now : Nat) (ok : Bool) (stray : Nat → Nat → Nat)
    (sess : CldcSession) {xid : Nat} (hxid : xid < 2 ^ 64) {fh events seqid : Nat} {pkt : Bytes}
    (hpkt : pkt = eventRaw e sess xid fh events seqid ∨
      footSeqid pkt ≠ footSeqid (eventRaw e sess xid fh events seqid)) :
    ∃ more, (cldcReceivePkt e now ok stray sess.addr pkt sess).2.tx = sess.tx ++ more ∧
      ∀ p ∈ more, footSeqid p.data ≠ footSeqid (eventRaw e sess xid fh events seqid) ∧
        p.data = ackRaw e sess (footSeqid p.data) := by
  rcases hpkt with rfl | hne
  · exact ⟨[], by rw [receive_event e now ok stray sess hxid, List.append_nil], by simp⟩
  · rcases receive_acks e now ok stray sess.addr pkt sess with htx | htx
    · exact ⟨[], by rw [htx, List.append_nil], by simp⟩
    · refine ⟨_, htx, fun p hp => ?_⟩
      have hfoot : footSeqid (ackRaw e sess (footSeqid pkt)) = footSeqid pkt := by
        rw [ackRaw, footSeqid_rawPkt, Nat.mod_eq_of_lt (footSeqid_lt pkt)]
      rw [List.mem_singleton.mp hp, hfoot]
      exact ⟨hne, rfl⟩

/-- A client sends nothing new but acknowledgements of other packets. -/
def Unacked (e : Env) (ev : Bytes) (s t : CldcSession) : Prop :=
  SameClient s t ∧ ∃ more, t.tx = s.tx ++ more ∧
    ∀ p ∈ more, footSeqid p.data ≠ footSeqid ev ∧ p.data = ackRaw e s (footSeqid p.data)

theorem Unacked.refl (e : Env) (ev : Bytes) (s : CldcSession) : Unacked e ev s s :=
  ⟨⟨rfl, rfl, rfl⟩, [], (List.append_nil _).symm, by simp⟩

theorem Unacked.trans {e : Env} {ev : Bytes} {s t v : CldcSession} (h : Unacked e ev s t)
    (g : Unacked e ev t v) : Unacked e ev s v := by
  obtain ⟨hsame, more, htx, hmore⟩ := h
  obtain ⟨gsame, more', gtx, gmore⟩ := g
  refine ⟨⟨gsame.sid.trans hsame.sid, gsame.user.trans hsame.user, gsame.key.trans hsame.key⟩,
    more ++ more', by rw [gtx, htx, List.append_assoc], fun p hp => ?_⟩
  rcases List.mem_append.mp hp with hp | hp
  · exact hmore p hp
  · rw [← ackRaw_congr e hsame]
    exact gmore p hp

theorem Duplex.Queued.receive {e : Env} {fd : Nat} {addr : Bytes} {d : Duplex} {xid fh events seqid : Nat}
    (hxid : xid < 2 ^ 64) (h : d.Queued e fd addr (eventRaw e d.sess xid fh events seqid)) (now : Nat)
    (ok : Bool) (stray : Nat → Nat → Nat) :
    (d.step e fd addr (.receive now ok stray)).Queued e fd addr
        (eventRaw e d.sess xid fh events seqid) ∧
      Unacked e (eventRaw e d.sess xid fh events seqid) d.sess
        (d.step e fd addr (.receive now ok stray)).sess := by
  simp only [Duplex.step]
  split
  · exact ⟨h, .refl ..⟩
  · next pkt hpkt =>
    obtain ⟨hlt, hget⟩ := List.getElem?_eq_some_iff.mp hpkt
    have hwire := h.wire
    rw [List.drop_eq_getElem_cons hlt, hget] at hwire
    obtain ⟨hfirst, hrest⟩ := List.forall_mem_cons.mp hwire
    have hsame := receive_sameClient e now ok stray d.sess.addr pkt d.sess
    obtain ⟨more, htx, hmore⟩ := receive_others e now ok stray d.sess hxid hfirst
    refine ⟨⟨by rw [hsame.key, hsame.user]; exact h.key, ?_, hrest, fun p hp => ?_⟩,
      hsame, more, htx, hmore⟩
    · rw [hsame.sid, hsame.user]
      exact h.session
    · rw [ackRaw_congr e hsame]
      rw [htx, List.drop_append] at hp
      rcases List.mem_append.mp hp with hp | hp
      · exact h.acks p hp
      · exact hmore p (List.mem_of_mem_drop hp)

theorem Duplex.Queued.deliver {e : Env} {fd : Nat} {addr ev : Bytes} {d : Duplex}
    (h : d.Queued e fd addr ev) (ft : Faults) :
    (d.step e fd addr (.deliver ft)).Queued e fd addr ev := by
  simp only [Duplex.step]
  split
  · exact h
  · next p hp =>
    obtain ⟨hlt, hget⟩ := List.getElem?_eq_some_iff.mp hp
    have hacks := h.acks
    rw [List.drop_eq_getElem_cons hlt, hget] at hacks
    obtain ⟨⟨hne, hraw⟩, hrest⟩ := List.forall_mem_cons.mp hacks
    obtain ⟨s, hc, hkeeps⟩ := h.session
    obtain ⟨hgot, htx, hmaster, hup⟩ :=
      cliRdPkt_ack e ft fd hc d.sess.sid_lt (footSeqid p.data)
    rw [ackRaw, h.key] at hraw
    rw [← hraw, Nat.mod_eq_of_lt (footSeqid_lt p.data), Session.ack_eq] at hgot
    rw [← hraw] at htx hmaster hup
    refine ⟨h.key, ⟨_, ⟨hgot, hc.addr, hc.user, ?_, hmaster.trans hc.master, hup.trans hc.up⟩,
      hkeeps.filter hne.symm⟩, ?_, hrest⟩
    · have hkills : s.kills (footSeqid p.data) = false := by
        refine List.any_eq_false.mpr fun op hop => ?_
        simp [hkeeps.lasting op hop]
      exact (congrArg₂ or hc.live hkills : (s.dead || s.kills (footSeqid p.data)) = (false || false))
    · rw [wireOf, htx]
      exact h.wire

theorem step_queued {e : Env} {fd : Nat} {addr : Bytes} {d : Duplex} {xid fh events seqid : Nat}
    (hxid : xid < 2 ^ 64) (h : d.Queued e fd addr (eventRaw e d.sess xid fh events seqid))
    (turn : Turn) :
    (d.step e fd addr turn).Queued e fd addr (eventRaw e d.sess xid fh events seqid) ∧
      Unacked e (eventRaw e d.sess xid fh events seqid) d.sess (d.step e fd addr turn).sess := by
  cases turn with
  | tick now =>
    obtain ⟨s, hc, hkeeps⟩ := h.session
    exact ⟨⟨h.key, ⟨s, ⟨hc.get, hc.addr, hc.user, hc.live, hc.master, hc.up⟩, hkeeps⟩, h.wire,
      h.acks⟩, .refl ..⟩
  | retry ok => exact ⟨h.retry ok, .refl ..⟩
  | receive now ok stray => exact h.receive hxid now ok stray
  | deliver ft =>
    refine ⟨h.deliver ft, ?_⟩
    simp only [Duplex.step]
    split <;> exact .refl ..

theorem run_queued {e : Env} {fd : Nat} {addr : Bytes} {d : Duplex} {xid fh events seqid : Nat}
    (hxid : xid < 2 ^ 64) (h : d.Queued e fd addr (eventRaw e d.sess xid fh events seqid))
    (turns : List Turn) :
    (run (Duplex.step e fd addr) d turns).Queued e fd addr (eventRaw e d.sess xid fh events seqid) ∧
      Unacked e (eventRaw e d.sess xid fh events seqid) d.sess
        (run (Duplex.step e fd addr) d turns).sess := by
  induction turns generalizing d with
  | nil => exact ⟨h, .refl ..⟩
  | cons turn turns ih =>
    obtain ⟨hnext, hun⟩ := step_queued hxid h turn
    have hev := eventRaw_congr e hun.1 xid fh events seqid
    rw [← hev] at hnext
    obtain ⟨hend, hun'⟩ := ih hnext
    rw [hev] at hend hun'
    exact ⟨hend, hun.trans hun'⟩

/-- Whatever is sent again and received in whatever order: the client never acknowledges the event,
and its packet stays in the queue. -/
theorem run_event_unacked (e : Env) (fd : Nat) (addr : Bytes) (d : Duplex) {xid : Nat}
    (hxid : xid < 2 ^ 64) (fh events seqid : Nat)
    (h : d.Queued e fd addr (eventRaw e d.sess xid fh events seqid)) (turns : List Turn) :
    (∀ p ∈ (run (Duplex.step e fd addr) d turns).sess.tx.drop d.sess.tx.length,
        footSeqid p.data ≠ seqid % 2 ^ 64) ∧
      ∃ s, (run (Duplex.step e fd addr) d turns).srv.sessions.get d.sess.sid = some s ∧
        s.dead = false ∧ ∃ op ∈ s.outQ, op.pktData = eventRaw e d.sess xid fh events seqid := by
  obtain ⟨hend, hsame, more, htx, hmore⟩ := run_queued hxid h turns
  obtain ⟨s, hc, hkeeps⟩ := hend.session
  have hfoot : footSeqid (eventRaw e d.sess xid fh events seqid) = seqid % 2 ^ 64 :=
    footSeqid_rawPkt ..
  refine ⟨fun p hp => ?_, s, hsame.sid ▸ hc.get, hc.live, hkeeps.has⟩
  rw [htx, List.drop_left] at hp
  rw [← hfoot]
  exact (hmore p hp).1

/-- A file is created, and its updates asked for: the first event is that of its creation. -/
def watchedLink : Link :=
  run (Link.step .plain 5 []) newLink (openedLink ++ [.deliver .none,
    .call 2 (fun _ => true) none (.open [0x2f, 0x61] (comRead ||| comCreate) ceUpdated),
    .deliver .none])

/-- The event and the reply to the request are still to be received. -/
def watchedDuplex : Duplex := ⟨watchedLink.srv, watchedLink.sess, 1, watchedLink.read⟩

/-- The client acknowledges what it does, and what is left is sent to it twice. -/
def watchedTurns : List Turn :=
  [.receive 3 true fun _ _ => 0, .receive 3 true fun _ _ => 0, .deliver .none,
    .tick 10, .retry fun _ => true, .receive 10 true fun _ _ => 0,
    .tick 20, .retry fun _ => true, .receive 20 true fun _ _ => 0]

/-- The packet of the event. -/
def watchedEvent : Bytes := eventRaw .plain watchedLink.sess 244813135928 2 ceUpdated 223338299444

theorem watchedDuplex_queued : watchedDuplex.Queued .plain 5 [] watchedEvent := by
  obtain ⟨s, hget, ⟨haddr, huser, hlive⟩, hhas, halone, hlasting⟩ : ∃ s,
      watchedDuplex.srv.sessions.get watchedDuplex.sess.sid = some s ∧
        (s.addr = [] ∧ s.user = watchedDuplex.sess.user ∧ s.dead = false) ∧
        (∃ op ∈ s.outQ, op.pktData = watchedEvent) ∧
        (∀ op ∈ s.outQ, op.pktData = watchedEvent ∨ footSeqid op.pktData ≠ footSeqid watchedEvent) ∧
        ∀ op ∈ s.outQ, op.doneCb ≠ .endSessDone := by
    decide +kernel
  exact ⟨by decide +kernel, ⟨s, ⟨hget, haddr, huser, hlive, by decide +kernel, by decide +kernel⟩,
    hhas, halone, hlasting⟩, by decide +kernel, by decide +kernel⟩

theorem run_event_unacked_watched :
    (∀ p ∈ (run (Duplex.step .plain 5 []) watchedDuplex watchedTurns).sess.tx.drop
        watchedDuplex.sess.tx.length, footSeqid p.data ≠ 223338299444 % 2 ^ 64) ∧
      ∃ s, (run (Duplex.step .plain 5 []) watchedDuplex watchedTurns).srv.sessions.get
          watchedDuplex.sess.sid = some s ∧
        s.dead = false ∧ ∃ op ∈ s.outQ, op.pktData = watchedEvent := by
  have hxid : 244813135928 < 2 ^ 64 := by decide
  have hevent : eventRaw .plain watchedDuplex.sess 244813135928 2 ceUpdated 223338299444 =
      watchedEvent := by
    rw [watchedEvent, watchedDuplex]
  have hun := run_event_unacked .plain 5 [] watchedDuplex hxid 2 ceUpdated 223338299444
  rw [hevent] at hun
  exact hun watchedDuplex_queued watchedTurns

/-- The event is reported twice, and its packet is still in the queue. -/
theorem watched_event_twice :
    watchedDuplex.sess.events = [] ∧
      (run (Duplex.step .plain 5 []) watchedDuplex watchedTurns).sess.events =
        [(some 1, ceUpdated), (some 1, ceUpdated)] ∧
      ∃ s, (run (Duplex.step .plain 5 []) watchedDuplex watchedTurns).srv.sessions.get
          watchedDuplex.sess.sid = some s ∧ ∃ op ∈ s.outQ, op.pktData = watchedEvent := by
  decide +kernel

end Hail.Cldc
