import Hail.Cld.Read
import Hail.Cld.Ubbp
import Hail.Library.Run

/-!
# Connections

Reading from TCP connections. `atcp_read` queues a read of so many bytes with a callback;
`tcp_cli_event` fills the queued reads with what has arrived and calls back. The callbacks
`cli_rd_ubbp` and `cli_rd_pkt` take turns, each of them asking for what the other is to be called
with. A callback that does not ask leaves its connection without a read: the client is not heard
any more.
-/
namespace Hail.Cld

open Library

inductive ReadCb where
  | cliRdUbbp | cliRdPkt
  deriving DecidableEq, Repr

/-- `struct atcp_read`; `buf` holds the `bytes_read` bytes read so far. -/
structure AtcpRead where
  buf : Bytes
  bufSize : Nat
  bytesWanted : Nat
  cb : ReadCb
  deriving DecidableEq, Repr

/-- `struct client`. The socket holds `inbox`, which has arrived and not been read. `read` and
`passed` are the history of the bytes read and of the packets passed to `cli_rd_pkt`. -/
structure Client where
  fd : Nat
  addr : Bytes
  rst : List AtcpRead
  freed : Bool
  inbox : Bytes
  read : Bytes
  passed : List Bytes
  deriving DecidableEq, Repr

def Client.atcpRead (cli : Client) (bufSize : Nat) (cb : ReadCb) : Client :=
  { cli with rst := cli.rst ++ [⟨[], bufSize, bufSize, cb⟩] }

/-- `cli_rd_ubbp` -/
def Client.rdUbbp (cli : Client) (ubbp : Bytes) : Client :=
  match ubbpCheck 1 ubbp with
  | none => { cli with freed := true }
  | some sz => cli.atcpRead sz .cliRdPkt

/-- `cli_rd_pkt` with the read it asks for. -/
def Client.rdPkt (e : Env) (ft : Faults) (cli : Client) (raw : Bytes) (srv : Server) :
    Server × Client :=
  let cli := { cli with passed := cli.passed ++ [raw] }
  match cliRdPkt e ft cli.fd cli.addr raw srv with
  | (true, srv) => (srv, cli.atcpRead ubbpLen .cliRdUbbp)
  | (false, srv) => (srv, cli)

def Client.callback (e : Env) (ft : Faults) (cli : Client) (rd : AtcpRead) (srv : Server) :
    Server × Client :=
  match rd.cb with
  | .cliRdUbbp => (srv, cli.rdUbbp rd.buf)
  | .cliRdPkt => cli.rdPkt e ft rd.buf srv

/-- The bytes that `read` returns for a queued read. -/
def AtcpRead.filled (rd : AtcpRead) (got : Bytes) : AtcpRead :=
  { rd with buf := rd.buf ++ got, bytesWanted := rd.bytesWanted - got.length }

/-- The loop of `atcp_read_event` from the `i`-th queued read on. The next read is looked up before
the callback is made, so one that the callback queues behind the last is left for the next event.
Every round but the last takes a byte, so as many rounds as there are bytes are enough. -/
def atcpReadLoop (e : Env) (ft : Faults) : Nat → Nat → Server → Client → Server × Client
  | 0, _, srv, cli => (srv, cli)
  | n + 1, i, srv, cli =>
    match cli.rst[i]? with
    | none => (srv, cli)
    | some tmp =>
      let last := i + 1 = cli.rst.length
      let got := cli.inbox.take tmp.bytesWanted
      if got = [] then (srv, cli)
      else
        let rd := tmp.filled got
        let cli := { cli with inbox := cli.inbox.drop tmp.bytesWanted, read := cli.read ++ got }
        if rd.buf.length = rd.bufSize then
          let (srv, cli) := { cli with rst := cli.rst.eraseIdx i }.callback e ft rd srv
          if cli.freed || last then (srv, cli) else atcpReadLoop e ft n i srv cli
        else
          let cli := { cli with rst := cli.rst.set i rd }
          if last then (srv, cli) else atcpReadLoop e ft n (i + 1) srv cli

/-- `tcp_cli_event` -/
def tcpCliEvent (e : Env) (ft : Faults) (srv : Server) (cli : Client) : Server × Client :=
  atcpReadLoop e ft (cli.inbox.length + 1) 0 srv cli

/-- `tcp_srv_event`: a connection is accepted and its first header is asked for. -/
def Client.accept (fd : Nat) (addr : Bytes) : Client :=
  Client.atcpRead ⟨fd, addr, [], false, [], [], []⟩ ubbpLen .cliRdUbbp

/-- The server with its connections. -/
structure Net where
  srv : Server
  clients : Table Client.fd

inductive NetEvent where
  | accept (fd : Nat) (addr : Bytes)
  | arrive (fd : Nat) (data : Bytes)
  | readable (fd : Nat) (ft : Faults)
  | tick (now : Nat)
  | timeout (sid : Sid) (now : Nat) (ft : Faults)

/-- The open connection on a socket. -/
def Net.conn (net : Net) (fd : Nat) : Option Client :=
  (net.clients.get fd).filter fun cli => !cli.freed

def Net.put (net : Net) (cli : Client) : Net :=
  { net with clients := net.clients.put unordered cli }

def Net.step (e : Env) (net : Net) : NetEvent → Net
  | .accept fd addr => if (net.conn fd).isSome then net else net.put (.accept fd addr)
  | .arrive fd data =>
    match net.conn fd with
    | none => net
    | some cli => net.put { cli with inbox := cli.inbox ++ data }
  | .readable fd ft =>
    match net.conn fd with
    | none => net
    | some cli =>
      let (srv, cli) := tcpCliEvent e ft net.srv cli
      { net with srv }.put cli
  | .tick now => { net with srv := net.srv.step e (.tick now) }
  | .timeout sid now ft => { net with srv := net.srv.step e (.timeout sid now ft) }

/-! ## Packets that are answered without an error -/

/-- The checks of `tcp_rx`: room for the piece of message, and a message that decodes if the piece is
the last one. -/
def Server.takes (srv : Server) (info : PktInfo) (chunk : Bytes) : Bool :=
  match srv.sessions.get info.pkt.sid with
  | none => true
  | some sess =>
    let buf := sess.bufWith info.pkt.mi chunk
    buf.length ≤ cldMaxMsgSz &&
      (!info.pkt.mi.isLast || (Request.decode info.op).all fun dec => (dec buf).isSome)

/-- The checks of `cli_rd_pkt` before it calls `tcp_rx`: header, session, signature, and a master to
serve the packet. What the packet is taken for, with its piece of message. -/
def admitted (e : Env) (srv : Server) (addr raw : Bytes) : Option (PktInfo × Bytes) :=
  match parsePktHeader raw with
  | none => none
  | some (pkt, hdrLen) =>
    match getPktInfo srv pkt (footSeqid raw) with
    | none => none
    | some info =>
      if validatePktSession srv info addr = .ok ∧ pktChkSig e raw pkt = .ok ∧
          (srv.isMaster && srv.up) = true then
        some (info, (raw.take (raw.length - cldPktFtrLen)).drop hdrLen)
      else none

/-- All checks of a packet. -/
def accepted (e : Env) (srv : Server) (addr raw : Bytes) : Bool :=
  (admitted e srv addr raw).any fun p => srv.takes p.1 p.2

theorem simpleSendmsg_handled (e : Env) (srv : Server) (fd : Nat) (sid : Sid) (user : Bytes)
    (seqid : Nat) (msg : ServerMsg) (op : CldMsgOp) :
    (simpleSendmsg e srv fd sid user seqid msg op).handled = srv.handled := by
  unfold simpleSendmsg
  split <;> rfl

theorem dispatch_code (e : Env) (ft : Faults) (fd : Nat) (addr : Bytes) {info : PktInfo}
    {srv : Server} {sess : Session} (hg : srv.sessions.get info.pkt.sid = some sess) :
    (dispatch e ft fd addr info srv).1 =
      if (Request.decode info.op).all fun dec => (dec sess.msgBuf).isSome then .ok else .badPkt := by
  cases hdec : Request.decode info.op with
  | some dec =>
    rw [dispatch_of_decode hdec]
    cases hd : dec sess.msgBuf <;> simp [tcpRxHandle, hg, hd]
  | none =>
    unfold dispatch
    split <;> simp_all
    split <;> rfl

theorem Session.begin_msgBuf (sess : Session) (info : PktInfo) :
    (sess.begin info).msgBuf = if info.pkt.mi.isFirst then [] else sess.msgBuf := by
  unfold Session.begin
  split <;> rfl

theorem Session.begin_sid (sess : Session) (info : PktInfo) : (sess.begin info).sid = sess.sid := by
  unfold Session.begin
  split <;> rfl

theorem tcpRx_code (e : Env) (ft : Faults) (fd : Nat) (addr : Bytes) {info : PktInfo}
    {srv : Server} {sess : Session} (hg : srv.sessions.get info.pkt.sid = some sess)
    (chunk : Bytes) :
    (tcpRx e ft fd addr info chunk srv).1 = .ok ↔
      (sess.bufWith info.pkt.mi chunk).length ≤ cldMaxMsgSz ∧ (info.pkt.mi.isLast = true →
        (Request.decode info.op).all fun dec => (dec (sess.bufWith info.pkt.mi chunk)).isSome) := by
  let begun := (sess.contact srv.currentTime fd info.op).begin info
  have hbuf : begun.msgBuf ++ chunk = sess.bufWith info.pkt.mi chunk := by
    rw [Session.bufWith, Session.begin_msgBuf]
    rfl
  have hsid : begun.sid = info.pkt.sid := by
    rw [Session.begin_sid]
    have hsess := get_sid hg
    exact hsess
  have hlen : begun.msgBuf.length + chunk.length = (sess.bufWith info.pkt.mi chunk).length := by
    rw [← hbuf, List.length_append]
  by_cases hfit : (sess.bufWith info.pkt.mi chunk).length ≤ cldMaxMsgSz
  · have harr : srv.arrive fd info chunk =
        (true, srv.putSess { begun with msgBuf := sess.bufWith info.pkt.mi chunk }) := by
      simp only [Server.arrive, hg, Session.rx]
      rw [if_neg (by rw [hlen]; omega), hbuf]
    have hget : (srv.putSess { begun with msgBuf := sess.bufWith info.pkt.mi chunk }).sessions.get
        info.pkt.sid = some { begun with msgBuf := sess.bufWith info.pkt.mi chunk } :=
      putSess_get hsid
    cases hl : info.pkt.mi.isLast with
    | false => simp [tcpRx, harr, hl, hfit]
    | true =>
      simp only [tcpRx, harr, hl, hfit, Bool.not_true, Bool.false_eq_true, if_false, true_and,
        dispatch_code e ft fd addr hget, forall_const]
      split <;> simp_all
  · have harr : srv.arrive fd info chunk = (false, srv.putSess begun) := by
      simp only [Server.arrive, hg, Session.rx]
      rw [if_pos (by rw [hlen]; omega)]
    simp [tcpRx, harr, hfit]

theorem tcpRx_newSess (e : Env) (ft : Faults) (fd : Nat) (addr : Bytes) {info : PktInfo}
    {srv : Server} (hg : srv.sessions.get info.pkt.sid = none) (hop : info.op = .newSess)
    (chunk : Bytes) : (tcpRx e ft fd addr info chunk srv).1 = .ok := by
  simp only [tcpRx, Server.arrive, hg, dispatch, hop, Bool.not_true, Bool.false_eq_true, if_false]
  split
  · rfl
  · split <;> rfl

theorem tcpRx_takes (e : Env) (ft : Faults) (fd : Nat) {addr : Bytes} {info : PktInfo}
    {srv : Server} (hval : validatePktSession srv info addr = .ok) (chunk : Bytes) :
    (tcpRx e ft fd addr info chunk srv).1 = .ok ↔ srv.takes info chunk = true := by
  cases hg : srv.sessions.get info.pkt.sid with
  | none =>
    have hop : info.op = .newSess := by
      by_contra hop
      simp [validatePktSession, hg, hop] at hval
    simp [tcpRx_newSess e ft fd addr hg hop, Server.takes, hg]
  | some sess =>
    rw [tcpRx_code e ft fd addr hg]
    simp [Server.takes, hg, imp_iff_not_or]

/-- What is known of a packet that is admitted. -/
theorem admitted_spec {e : Env} {addr raw : Bytes} {srv : Server} {info : PktInfo} {chunk : Bytes}
    (h : admitted e srv addr raw = some (info, chunk)) :
    ∃ n, parsePktHeader raw = some (info.pkt, n) ∧
      getPktInfo srv info.pkt (footSeqid raw) = some info ∧
      validatePktSession srv info addr = .ok ∧ pktChkSig e raw info.pkt = .ok ∧
      (srv.isMaster && srv.up) = true ∧
      chunk = (raw.take (raw.length - cldPktFtrLen)).drop n := by
  unfold admitted at h
  split at h
  · cases h
  · next pkt hdrLen hp =>
    split at h
    · cases h
    · next info' hi =>
      split at h
      · next hok =>
        obtain ⟨hval, hsig, hup⟩ := hok
        cases h
        have hpkt : info.pkt = pkt := (getPktInfo_some hi).1
        subst hpkt
        exact ⟨hdrLen, hp, hi, hval, hsig, hup, rfl⟩
      · cases h

/-- A packet that is not admitted is answered, if at all, with no effect but the answer. -/
theorem cliRdPkt_refused (e : Env) (ft : Faults) (fd : Nat) {addr raw : Bytes} {srv : Server}
    (h : admitted e srv addr raw = none) :
    ∃ garbage rnd tx, cliRdPkt e ft fd addr raw srv = (false, { srv with garbage, rnd, tx }) := by
  have hsend : ∀ sid user seqid msg op, ∃ garbage rnd tx,
      simpleSendmsg e srv fd sid user seqid msg op = { srv with garbage, rnd, tx } := by
    intro sid user seqid msg op
    unfold simpleSendmsg
    split <;> exact ⟨_, _, _, rfl⟩
  unfold admitted at h
  unfold cliRdPkt
  cases hp : parsePktHeader raw with
  | none => exact ⟨_, _, _, rfl⟩
  | some hdr =>
    obtain ⟨pkt, hdrLen⟩ := hdr
    simp only [hp] at h
    dsimp only
    cases hi : getPktInfo srv pkt (footSeqid raw) with
    | none => exact ⟨_, _, _, rfl⟩
    | some info =>
      simp only [hi] at h
      dsimp only
      by_cases hval : validatePktSession srv info addr = .ok
      · by_cases hsig : pktChkSig e raw pkt = .ok
        · by_cases hup : (srv.isMaster && srv.up) = true
          · simp [hval, hsig, hup] at h
          · simpa [hval, hsig, hup] using hsend ..
        · simpa [hval, hsig, simpleSendresp] using hsend ..
      · simpa [hval, simpleSendresp] using hsend ..

/-- A packet that is admitted gets to `tcp_rx`. -/
theorem cliRdPkt_admitted (e : Env) (ft : Faults) (fd : Nat) {addr raw : Bytes} {srv : Server}
    {info : PktInfo} {chunk : Bytes} (h : admitted e srv addr raw = some (info, chunk)) :
    cliRdPkt e ft fd addr raw srv =
      match tcpRx e ft fd addr info chunk srv with
      | (.ok, t) => (true, t)
      | (code, t) => (false, simpleSendresp e fd info code t) := by
  obtain ⟨n, hp, hi, hval, hsig, hup, rfl⟩ := admitted_spec h
  unfold cliRdPkt
  simp only [hp, hi, hval, hsig, hup]
  rcases tcpRx e ft fd addr info ((raw.take (raw.length - cldPktFtrLen)).drop n) srv with ⟨code, t⟩
  cases code <;> rfl

/-- `cli_rd_pkt` asks for the next packet if and only if the packet passes every check. -/
theorem cliRdPkt_fst (e : Env) (ft : Faults) (fd : Nat) (addr raw : Bytes) (srv : Server) :
    (cliRdPkt e ft fd addr raw srv).1 = accepted e srv addr raw := by
  unfold accepted
  cases h : admitted e srv addr raw with
  | none =>
    obtain ⟨garbage, rnd, tx, heq⟩ := cliRdPkt_refused e ft fd h
    rw [heq]
    rfl
  | some p =>
    obtain ⟨info, chunk⟩ := p
    obtain ⟨-, -, -, hval, -⟩ := admitted_spec h
    rw [cliRdPkt_admitted e ft fd h, Option.any_some, Bool.eq_iff_iff, ← tcpRx_takes e ft fd hval]
    rcases tcpRx e ft fd addr info chunk srv with ⟨code, t⟩
    cases code <;> simp

/-! ## One connection -/

section

variable {cli : Client} {rd : AtcpRead}

/-- Where a queued read stands in the stream: in a header, or in the packet after its header. -/
def AtcpRead.At (rd : AtcpRead) (cli : Client) : Prop :=
  match rd.cb with
  | .cliRdUbbp => rd.bufSize = ubbpLen ∧ (ubbpFraming 1).Reads cli.read cli.passed rd.buf
  | .cliRdPkt => ∃ ubbp, ubbp.length = ubbpLen ∧ ubbpCheck 1 ubbp = some rd.bufSize ∧
      (ubbpFraming 1).Reads cli.read cli.passed (ubbp ++ rd.buf)

/-- A connection is listened to: what is to be read next is queued. -/
structure Listens (cli : Client) (rd : AtcpRead) : Prop where
  rst : cli.rst = [rd]
  wanted : 0 < rd.bytesWanted
  size : rd.buf.length + rd.bytesWanted = rd.bufSize
  place : rd.At cli

/-- A connection is closed or listened to, and what was complete has been passed on. -/
structure Client.Inv (cli : Client) : Prop where
  listens : cli.freed = false → ∃ rd, Listens cli rd
  passed : cli.passed = (ubbpFraming 1).frames cli.read

theorem Listens.passed (h : Listens cli rd) : cli.passed = (ubbpFraming 1).frames cli.read := by
  have hsize := h.size
  have hwanted := h.wanted
  have hplace := h.place
  unfold AtcpRead.At at hplace
  split at hplace
  · obtain ⟨hlen, hreads⟩ := hplace
    rw [hreads.frames_eq, Framing.frames_short, List.append_nil]
    show rd.buf.length < ubbpLen
    omega
  · obtain ⟨ubbp, hlen, hcheck, hreads⟩ := hplace
    rw [hreads.frames_eq, Framing.frames_partial hlen hcheck (by omega), List.append_nil]

theorem Listens.inv (h : Listens cli rd) : cli.Inv := ⟨fun _ => ⟨rd, h⟩, h.passed⟩

/-- A read event makes one read, and the callback if that fills the buffer. -/
theorem tcpCliEvent_eq (e : Env) (ft : Faults) (srv : Server) (h : Listens cli rd) :
    tcpCliEvent e ft srv cli =
      if cli.inbox.length < rd.bytesWanted then
        (srv, { cli with
          rst := [rd.filled cli.inbox], inbox := [], read := cli.read ++ cli.inbox })
      else Client.callback e ft { cli with
          rst := [], inbox := cli.inbox.drop rd.bytesWanted
          read := cli.read ++ cli.inbox.take rd.bytesWanted }
        (rd.filled (cli.inbox.take rd.bytesWanted)) srv := by
  have hsize := h.size
  have hwanted := h.wanted
  have hget : cli.rst[0]? = some rd := by simp [h.rst]
  have hlast : 0 + 1 = cli.rst.length := by simp [h.rst]
  simp only [tcpCliEvent, atcpReadLoop, hget, hlast, decide_true, Bool.or_true, if_true]
  by_cases hshort : cli.inbox.length < rd.bytesWanted
  · rw [if_pos hshort, List.take_of_length_le hshort.le, List.drop_of_length_le hshort.le]
    by_cases hnil : cli.inbox = []
    · have hsame : rd.filled [] = rd := by simp [AtcpRead.filled]
      rw [if_pos hnil, hnil, hsame, List.append_nil, ← h.rst, ← hnil]
    · have hpart : ¬ (rd.filled cli.inbox).buf.length = (rd.filled cli.inbox).bufSize := by
        simp only [AtcpRead.filled, List.length_append]
        omega
      rw [if_neg hnil, if_neg hpart, h.rst]
      rfl
  · have hlen : (cli.inbox.take rd.bytesWanted).length = rd.bytesWanted := by
      rw [List.length_take]
      omega
    have hgot : cli.inbox.take rd.bytesWanted ≠ [] := by
      rw [← List.length_pos_iff, hlen]
      exact hwanted
    have hfull : (rd.filled (cli.inbox.take rd.bytesWanted)).buf.length =
        (rd.filled (cli.inbox.take rd.bytesWanted)).bufSize := by
      simp only [AtcpRead.filled, List.length_append, hlen]
      omega
    rw [if_neg hshort, if_neg hgot, if_pos hfull, h.rst]
    rfl

theorem callback_inbox (e : Env) (ft : Faults) (cli : Client) (rd : AtcpRead) (srv : Server) :
    (cli.callback e ft rd srv).2.inbox = cli.inbox := by
  unfold Client.callback
  split
  · unfold Client.rdUbbp
    split <;> rfl
  · unfold Client.rdPkt
    dsimp only
    split <;> rfl

/-- While a connection is listened to, a read event takes something of what has arrived. -/
theorem Listens.takes (h : Listens cli rd) (hin : cli.inbox ≠ []) (e : Env) (ft : Faults)
    (srv : Server) : (tcpCliEvent e ft srv cli).2.inbox.length < cli.inbox.length := by
  have hwanted := h.wanted
  have hpos : 0 < cli.inbox.length := List.length_pos_iff.mpr hin
  rw [tcpCliEvent_eq e ft srv h]
  split
  · exact hpos
  · rw [callback_inbox, List.length_drop]
    omega

/-- The read that a read event completes, with what it has read. -/
def Client.completes (cli : Client) : Option (ReadCb × Bytes) :=
  match cli.rst with
  | [rd] =>
    if rd.bytesWanted ≤ cli.inbox.length then
      some (rd.cb, rd.buf ++ cli.inbox.take rd.bytesWanted)
    else none
  | _ => none

/-- What a read event completes is a header that does not announce an empty packet, or a packet that
is accepted. -/
def Client.heard (e : Env) (srv : Server) (cli : Client) : Bool :=
  match cli.completes with
  | some (.cliRdUbbp, ubbp) => ubbpCheck 1 ubbp ≠ some 0
  | some (.cliRdPkt, raw) => accepted e srv cli.addr raw
  | none => true

/-- What the server owes an open connection: one read is queued and wants a byte at least, what has
arrived is taken in by read events, and the packets passed on are those of the stream. -/
structure Client.Serves (e : Env) (cli : Client) : Prop where
  armed : cli.freed = false → ∃ rd, cli.rst = [rd] ∧ 0 < rd.bytesWanted
  takes : cli.freed = false → cli.inbox ≠ [] → ∀ ft srv,
    (tcpCliEvent e ft srv cli).2.inbox.length < cli.inbox.length
  passed : cli.passed = (ubbpFraming 1).frames cli.read

theorem Client.Inv.serves (h : cli.Inv) (e : Env) : cli.Serves e where
  armed hf := by
    obtain ⟨rd, hl⟩ := h.listens hf
    exact ⟨rd, hl.rst, hl.wanted⟩
  takes hf hin ft srv := by
    obtain ⟨rd, hl⟩ := h.listens hf
    exact hl.takes hin e ft srv
  passed := h.passed

/-- A header is complete. -/
theorem rdUbbp_cases {c : Client} {ubbp : Bytes} (hrst : c.rst = []) (hf : c.freed = false)
    (hlen : ubbp.length = ubbpLen) (hreads : (ubbpFraming 1).Reads c.read c.passed ubbp) :
    ubbpCheck 1 ubbp ≠ some 0 ∧ (c.rdUbbp ubbp).Inv ∨
      ubbpCheck 1 ubbp = some 0 ∧ ∀ e, ¬ (c.rdUbbp ubbp).Serves e := by
  unfold Client.rdUbbp
  cases hcheck : ubbpCheck 1 ubbp with
  | none =>
    refine .inl ⟨by simp, by simp, ?_⟩
    have hrefused : (ubbpFraming 1).frames (ubbp ++ []) = [] :=
      Framing.frames_refused hlen hcheck []
    rw [List.append_nil] at hrefused
    simp only [hreads.frames_eq, hrefused, List.append_nil]
  | some sz =>
    cases sz with
    | zero =>
      refine .inr ⟨rfl, fun e h => ?_⟩
      obtain ⟨rd, hrd, hpos⟩ := h.armed hf
      simp only [Client.atcpRead, hrst, List.nil_append, List.cons.injEq, and_true] at hrd
      rw [← hrd] at hpos
      exact absurd hpos (by simp)
    | succ n =>
      have hplace : (⟨[], n + 1, n + 1, .cliRdPkt⟩ : AtcpRead).At
          (c.atcpRead (n + 1) .cliRdPkt) := by
        refine ⟨ubbp, hlen, hcheck, ?_⟩
        rw [List.append_nil]
        exact hreads
      exact .inl ⟨by simp, Listens.inv ⟨by simp [Client.atcpRead, hrst], by simp, by simp, hplace⟩⟩

/-- A packet is complete. -/
theorem rdPkt_cases {c : Client} (e : Env) (ft : Faults) (srv : Server) {raw : Bytes} (hrst : c.rst = [])
    (hf : c.freed = false)
    (hreads : (ubbpFraming 1).Reads c.read (c.passed ++ [raw]) []) :
    accepted e srv c.addr raw = true ∧ (c.rdPkt e ft raw srv).2.Inv ∨
      accepted e srv c.addr raw = false ∧ ∀ e', ¬ (c.rdPkt e ft raw srv).2.Serves e' := by
  rw [← cliRdPkt_fst e ft c.fd]
  unfold Client.rdPkt
  dsimp only
  rcases cliRdPkt e ft c.fd c.addr raw srv with ⟨asks, t⟩
  cases asks with
  | true =>
    have hplace : (⟨[], ubbpLen, ubbpLen, .cliRdUbbp⟩ : AtcpRead).At
        (Client.atcpRead { c with passed := c.passed ++ [raw] } ubbpLen .cliRdUbbp) :=
      ⟨rfl, hreads⟩
    exact .inl ⟨rfl, Listens.inv ⟨by simp [Client.atcpRead, hrst], by decide, by simp, hplace⟩⟩
  | false =>
    refine .inr ⟨rfl, fun e' h => ?_⟩
    obtain ⟨rd, hrd, -⟩ := h.armed hf
    exact absurd (hrst.symm.trans hrd) (by simp)

/-- A read event keeps listening if and only if it completes nothing that stops it. -/
theorem tcpCliEvent_cases (e : Env) (ft : Faults) (srv : Server) (h : Listens cli rd)
    (hf : cli.freed = false) :
    cli.heard e srv = true ∧ (tcpCliEvent e ft srv cli).2.Inv ∨
      cli.heard e srv = false ∧ ∀ e', ¬ (tcpCliEvent e ft srv cli).2.Serves e' := by
  have hsize := h.size
  have hplace := h.place
  rw [tcpCliEvent_eq e ft srv h]
  by_cases hshort : cli.inbox.length < rd.bytesWanted
  · have hnone : cli.completes = none := by simp [Client.completes, h.rst, hshort]
    rw [if_pos hshort]
    refine .inl ⟨by simp [Client.heard, hnone], Listens.inv ⟨rfl, ?_, ?_, ?_⟩⟩
    · exact Nat.sub_pos_of_lt hshort
    · simp only [AtcpRead.filled, List.length_append]
      omega
    · unfold AtcpRead.At at hplace ⊢
      cases hcb : rd.cb with
      | cliRdUbbp =>
        simp only [hcb] at hplace
        simp only [AtcpRead.filled, hcb]
        exact ⟨hplace.1, hplace.2.append _⟩
      | cliRdPkt =>
        simp only [hcb] at hplace
        obtain ⟨ubbp, hlen, hcheck, hreads⟩ := hplace
        simp only [AtcpRead.filled, hcb]
        refine ⟨ubbp, hlen, hcheck, ?_⟩
        rw [← List.append_assoc]
        exact hreads.append _
  · have hfull : (rd.buf ++ cli.inbox.take rd.bytesWanted).length = rd.bufSize := by
      simp only [List.length_append, List.length_take]
      omega
    have hsome : cli.completes = some (rd.cb, rd.buf ++ cli.inbox.take rd.bytesWanted) := by
      simp [Client.completes, h.rst, Nat.le_of_not_lt hshort]
    rw [if_neg hshort]
    let taken : Client := { cli with
      rst := [], inbox := cli.inbox.drop rd.bytesWanted
      read := cli.read ++ cli.inbox.take rd.bytesWanted }
    unfold Client.heard Client.callback
    rw [hsome]
    unfold AtcpRead.At at hplace
    cases hcb : rd.cb with
    | cliRdUbbp =>
      simp only [hcb] at hplace
      have hc := rdUbbp_cases (c := taken) rfl hf (hfull.trans hplace.1) (hplace.2.append _)
      simpa [AtcpRead.filled, hcb] using hc
    | cliRdPkt =>
      simp only [hcb] at hplace
      obtain ⟨ubbp, hlen, hcheck, hreads⟩ := hplace
      have hmore := hreads.append (cli.inbox.take rd.bytesWanted)
      rw [List.append_assoc] at hmore
      have hc := rdPkt_cases (c := taken) e ft srv rfl hf
        (hmore.snoc hlen (by rw [hfull]; exact hcheck))
      simpa [AtcpRead.filled, hcb] using hc

end

/-! ## Runs -/

/-- The condition on a step: what its read event completes is heard. -/
def Net.heard (e : Env) (net : Net) : NetEvent → Bool
  | .readable fd _ => (net.conn fd).all fun cli => cli.heard e net.srv
  | _ => true

def Net.Inv (net : Net) : Prop := ∀ cli ∈ net.clients.rows, cli.Inv

def Net.Serves (e : Env) (net : Net) : Prop := ∀ cli ∈ net.clients.rows, cli.Serves e

theorem conn_eq_some {net : Net} {fd : Nat} {cli : Client} (h : net.conn fd = some cli) :
    cli ∈ net.clients.rows ∧ cli.freed = false := by
  obtain ⟨hget, hfreed⟩ := Option.filter_eq_some_iff.mp h
  exact ⟨(Table.mem_get.mp hget).1, by simpa using hfreed⟩

theorem Net.Inv.put {net : Net} {cli : Client} (h : net.Inv) (hc : cli.Inv) : (net.put cli).Inv := by
  intro c hm
  rcases Table.mem_put.mp hm with rfl | ⟨hm, -⟩
  · exact hc
  · exact h c hm

theorem accept_inv (fd : Nat) (addr : Bytes) : (Client.accept fd addr).Inv := by
  have hplace : (⟨[], ubbpLen, ubbpLen, .cliRdUbbp⟩ : AtcpRead).At (.accept fd addr) :=
    ⟨rfl, .nil []⟩
  exact Listens.inv ⟨rfl, by decide, rfl, hplace⟩

theorem arrive_inv {cli : Client} (h : cli.Inv) (data : Bytes) :
    Client.Inv { cli with inbox := cli.inbox ++ data } where
  listens hf := by
    obtain ⟨rd, hl⟩ := h.listens hf
    exact ⟨rd, hl.rst, hl.wanted, hl.size, hl.place⟩
  passed := h.passed

theorem step_netInv (e : Env) (net : Net) (ev : NetEvent) (h : net.Inv)
    (hok : net.heard e ev = true) : (net.step e ev).Inv := by
  cases ev with
  | accept fd addr =>
    simp only [Net.step]
    split
    · exact h
    · exact h.put (accept_inv fd addr)
  | arrive fd data =>
    simp only [Net.step]
    split
    · exact h
    · next cli hconn => exact h.put (arrive_inv (h cli (conn_eq_some hconn).1) data)
  | readable fd ft =>
    simp only [Net.step]
    split
    · exact h
    · next cli hconn =>
      obtain ⟨hm, hf⟩ := conn_eq_some hconn
      obtain ⟨rd, hl⟩ := (h cli hm).listens hf
      simp only [Net.heard, hconn, Option.all_some] at hok
      rcases tcpCliEvent_cases e ft net.srv hl hf with ⟨-, hinv⟩ | ⟨hno, -⟩
      · exact Net.Inv.put h hinv
      · rw [hno] at hok
        cases hok
  | tick now => exact h
  | timeout sid now ft => exact h

theorem step_heard (e : Env) (net : Net) (ev : NetEvent) (h : net.Inv)
    (hs : (net.step e ev).Serves e) : net.heard e ev = true := by
  cases ev with
  | readable fd ft =>
    cases hconn : net.conn fd with
    | none => simp [Net.heard, hconn]
    | some cli =>
      obtain ⟨hm, hf⟩ := conn_eq_some hconn
      obtain ⟨rd, hl⟩ := (h cli hm).listens hf
      rcases tcpCliEvent_cases e ft net.srv hl hf with ⟨hyes, -⟩ | ⟨-, hno⟩
      · simp [Net.heard, hconn, hyes]
      · refine absurd (hs (tcpCliEvent e ft net.srv cli).2 ?_) (hno e)
        simp only [Net.step, hconn]
        exact Table.mem_put.mpr (.inl rfl)
  | accept | arrive | tick | timeout => rfl

/-- A server without connections. -/
def Net.init (srv : Server) : Net := ⟨srv, .empty⟩

/-- Every connection is served in every state of a run if and only if no read event of the run
completes the header of an empty packet or a packet that is not accepted. -/
theorem run_serves_iff (e : Env) (srv : Server) (evs : List NetEvent) :
    (∀ pre, pre <+: evs → (run (Net.step e) (.init srv) pre).Serves e) ↔
      Meets (Net.step e) (fun net ev => net.heard e ev = true) (.init srv) evs := by
  refine Meets.iff_forall (I := Net.Inv) ?_ ?_ (step_netInv e) (step_heard e)
  · intro cli hm
    cases hm
  · intro net h cli hm
    exact (h cli hm).serves e

/-- The packet that makes session 1. -/
def newSessPkt : Bytes := rawPkt .plain User.cli.name (hdrBytes 1 .cli (.firstLast 7 .newSess)) [] 0

-- The packet comes in two pieces, and the header of a second one is still read.
example : Meets (Net.step .plain) (fun net ev => net.heard .plain ev = true) (.init (.init 0))
    [.accept 5 [], .arrive 5 ((ubbpFrame 1 newSessPkt).take 20), .readable 5 .none,
      .readable 5 .none, .arrive 5 ((ubbpFrame 1 newSessPkt).drop 20 ++ ubbpHeader 1 40),
      .readable 5 .none, .readable 5 .none] := by
  decide +kernel

/-- A packet of one byte on a new connection. -/
def garbageRun : List NetEvent :=
  [.accept 5 [], .arrive 5 (ubbpFrame 1 [0]), .readable 5 .none, .readable 5 .none]

/-- The connection is open and no read is queued for it. -/
theorem garbageRun_unserved :
    ¬ ∀ pre, pre <+: garbageRun →
      (run (Net.step .plain) (.init (.init 0)) pre).Serves .plain := by
  intro h
  have hmem : (run (Net.step .plain) (.init (.init 0)) garbageRun).clients.rows =
      [⟨5, [], [], false, [], ubbpFrame 1 [0], [[0]]⟩] := by decide +kernel
  have hserves := h garbageRun (List.prefix_refl _) ⟨5, [], [], false, [], ubbpFrame 1 [0], [[0]]⟩
    (by rw [hmem]; simp)
  obtain ⟨rd, hrd, -⟩ := hserves.armed rfl
  cases hrd

end Hail.Cld
