import Hail.Cldc.Window

/-!
# Putting messages together

The server sends each message in packets with consecutive sequence numbers, and may send a packet
again. A client that gets every packet once puts together what was sent. A packet that comes again
within the window is appended to the message once more, and one that is refused may still set the
operation; neither does harm only when it leaves the message as it is.
-/
namespace Hail.Cldc

open Library Cld

/-! ## What the server sends -/

/-- A packet of the server, with the message that it is a piece of. -/
structure SrvPkt where
  mi : CldPktMsgInfo
  chunk : Bytes
  seqid : Nat
  msg : CldMsgOp × Bytes
  deriving DecidableEq

/-- The packet can be encoded. -/
def SrvPkt.Wire (p : SrvPkt) : Prop :=
  ∀ xid op, p.mi.infos = some (xid, op) → xid < 2 ^ 64 ∧ op.Wire

/-- The packet in bytes, signed for a session. -/
def SrvPkt.raw (e : Env) (sess : CldcSession) (p : SrvPkt) : Bytes :=
  rawPkt e sess.secretKey (hdrBytes sess.sid sess.user p.mi) p.chunk p.seqid

/-- A message given to `sess_sendmsg` in an established session. -/
structure SessMsg where
  xid : Nat
  op : CldMsgOp
  body : Bytes
  xid_lt : xid < 2 ^ 64
  wire : op.Wire
  numbered : op ≠ .newSess ∧ op ≠ .notMaster ∧ op ≠ .ackFrag
  fits : body.length ≤ cldMaxMsgSz

/-- A message in one packet whose number is not looked at: the reply to `CMO_NEW_SESS`, from which
the client learns the numbers, and what `simple_sendmsg` sends of itself. -/
structure LoneMsg where
  xid : Nat
  op : CldMsgOp
  body : Bytes
  seqid : Nat
  xid_lt : xid < 2 ^ 64
  fits : body.length ≤ cldMaxMsgSz

inductive Sending where
  | sess (m : SessMsg)
  | simple (m : LoneMsg) (h : m.op = .notMaster ∨ m.op = .ackFrag)

def SessMsg.parts (m : SessMsg) : List (CldPktMsgInfo × Bytes) :=
  msgParts m.xid m.op m.body.length true m.body

def LoneMsg.pkt (m : LoneMsg) : SrvPkt :=
  ⟨.firstLast m.xid m.op, m.body, m.seqid, (m.op, m.body)⟩

/-- Packets with the sequence numbers from `seqid` on. -/
def number (msg : CldMsgOp × Bytes) : Nat → List (CldPktMsgInfo × Bytes) → List SrvPkt
  | _, [] => []
  | seqid, (mi, chunk) :: rest => ⟨mi, chunk, seqid, msg⟩ :: number msg ((seqid + 1) % 2 ^ 64) rest

/-- The packets of a session, `seqid` being its next sequence number. -/
def stream : Nat → List Sending → List SrvPkt
  | _, [] => []
  | seqid, .sess m :: rest =>
    number (m.op, m.body) seqid m.parts ++ stream ((seqid + m.parts.length) % 2 ^ 64) rest
  | seqid, .simple m _ :: rest => m.pkt :: stream seqid rest

/-- The packets of a message are what `sess_sendmsg` sends. -/
theorem number_raw (e : Env) (sess : CldcSession) (msg : CldMsgOp × Bytes) (seqid : Nat)
    (parts : List (CldPktMsgInfo × Bytes)) :
    (number msg seqid parts).map (SrvPkt.raw e sess) =
      (signedPkts e sess.secretKey sess.user sess.sid seqid parts).map fun p => p.1.data := by
  induction parts generalizing seqid with
  | nil => rfl
  | cons part parts ih =>
    simp only [number, signedPkts, List.map_cons, ih]
    rfl

/-! ## What a client makes of it -/

/-- The message being put together when a packet has been added to it. -/
def SrvPkt.assemble (st : CldMsgOp × Bytes) (p : SrvPkt) : CldMsgOp × Bytes :=
  match p.mi.infos with
  | some (_, op) => (op, p.chunk)
  | none => (st.1, st.2 ++ p.chunk)

/-- A packet that comes next to a client that is putting `st` together and expects the number
`next`, if it knows the numbers. -/
inductive Next (st : CldMsgOp × Bytes) : Option Nat → SrvPkt → Option Nat → Prop where
  | lone {next : Option Nat} (m : LoneMsg) (h : m.op = .notMaster ∨ m.op = .ackFrag) :
      Next st next m.pkt next
  | opening (m : LoneMsg) (h : m.op = .newSess) : Next st none m.pkt (some ((m.seqid + 1) % 2 ^ 64))
  | numbered (p : SrvPkt) (hw : p.Wire) (hop : (p.assemble st).1 = p.msg.1)
      (hne : p.msg.1 ≠ .newSess ∧ p.msg.1 ≠ .notMaster ∧ p.msg.1 ≠ .ackFrag)
      (hlen : (p.assemble st).2.length ≤ cldMaxMsgSz) (hseqid : p.seqid < 2 ^ 64)
      (hlast : p.mi.isLast = true → p.assemble st = p.msg)
      (hone : p.mi.isFirst = true → p.mi.isLast = true → p.chunk = p.msg.2) :
      Next st (some p.seqid) p (some ((p.seqid + 1) % 2 ^ 64))

inductive Follows : CldMsgOp × Bytes → Option Nat → List SrvPkt → Prop where
  | nil {st : CldMsgOp × Bytes} {next : Option Nat} : Follows st next []
  | cons {st : CldMsgOp × Bytes} {next next' : Option Nat} {p : SrvPkt} {ps : List SrvPkt}
      (h : Next st next p next') (hps : Follows (p.assemble st) next' ps) :
      Follows st next (p :: ps)

theorem pktMi_infos (xid : Nat) (op : CldMsgOp) (first last : Bool) :
    (pktMi xid op first last).infos = if first then some (xid, op) else none := by
  cases first <;> cases last <;> rfl

theorem pktMi_isLast (xid : Nat) (op : CldMsgOp) (first last : Bool) :
    (pktMi xid op first last).isLast = last := by
  cases first <;> cases last <;> rfl

section

variable (m : SessMsg) {st : CldMsgOp × Bytes} {first : Bool}

/-- A piece of a message. -/
def SessMsg.part (first last : Bool) (chunk : Bytes) (seqid : Nat) : SrvPkt :=
  ⟨pktMi m.xid m.op first last, chunk, seqid, (m.op, m.body)⟩

theorem assemble_part (hst : first = false → st.1 = m.op) (last : Bool) (chunk : Bytes)
    (seqid : Nat) :
    (m.part first last chunk seqid).assemble st = (m.op, (if first then [] else st.2) ++ chunk) := by
  rw [SrvPkt.assemble, SessMsg.part, pktMi_infos]
  cases first
  · simp [hst rfl]
  · rfl

theorem next_part (hst : first = false → st.1 = m.op) {last : Bool} {chunk : Bytes} {seqid : Nat}
    (hseqid : seqid < 2 ^ 64) (hlen : ((if first then [] else st.2) ++ chunk).length ≤ cldMaxMsgSz)
    (hlast : last = true → (if first then [] else st.2) ++ chunk = m.body) :
    Next st (some seqid) (m.part first last chunk seqid) (some ((seqid + 1) % 2 ^ 64)) := by
  have hasm := assemble_part m hst last chunk seqid
  refine .numbered (m.part first last chunk seqid) ?_ ?_ m.numbered ?_ hseqid ?_ ?_
  · intro xid op h
    rw [SessMsg.part, pktMi_infos] at h
    cases first
    · cases h
    · cases h
      exact ⟨m.xid_lt, m.wire⟩
  · rw [hasm]
    rfl
  · rw [hasm]
    exact hlen
  · intro h
    rw [SessMsg.part, pktMi_isLast] at h
    rw [hasm, hlast h]
    rfl
  · intro hf h
    simp only [SessMsg.part, CldPktMsgInfo.isFirst, pktMi_infos, pktMi_isLast] at hf h
    cases first
    · cases hf
    · exact hlast h

theorem follows_last (hst : first = false → st.1 = m.op) {msg : Bytes} {seqid : Nat}
    (hseqid : seqid < 2 ^ 64) (hbody : (if first then [] else st.2) ++ msg = m.body)
    {rest : List SrvPkt} (hrest : Follows (m.op, m.body) (some ((seqid + 1) % 2 ^ 64)) rest) :
    Follows st (some seqid) (m.part first true msg seqid :: rest) := by
  refine .cons (next_part m hst hseqid (hbody ▸ m.fits) fun _ => hbody) ?_
  rw [assemble_part m hst true msg seqid, hbody]
  exact hrest

/-- The packets of a message follow each other, and put it together. -/
theorem follows_number {rest : List SrvPkt} (fuel : Nat) (first : Bool) {msg : Bytes} {seqid : Nat}
    (hseqid : seqid < 2 ^ 64) (hst : first = false → st.1 = m.op)
    (hbody : (if first then [] else st.2) ++ msg = m.body)
    (hrest : Follows (m.op, m.body)
      (some ((seqid + (msgParts m.xid m.op fuel first msg).length) % 2 ^ 64)) rest) :
    Follows st (some seqid)
      (number (m.op, m.body) seqid (msgParts m.xid m.op fuel first msg) ++ rest) := by
  induction fuel generalizing first msg st seqid with
  | zero => exact follows_last m hst hseqid hbody hrest
  | succ fuel ih =>
    rcases msgParts_cases m.xid m.op (fuel + 1) first msg with hp | ⟨n, hn, hp⟩
    · rw [hp] at hrest ⊢
      exact follows_last m hst hseqid hbody hrest
    · obtain rfl : fuel = n := by omega
      have hsplit : (if first then [] else st.2) ++ msg.take cldMaxPktMsgSz ++
          msg.drop cldMaxPktMsgSz = m.body := by
        rw [List.append_assoc, List.take_append_drop, hbody]
      have hlen : ((if first then [] else st.2) ++ msg.take cldMaxPktMsgSz).length ≤ cldMaxMsgSz := by
        have hle := congrArg List.length hsplit
        rw [List.length_append] at hle
        exact le_trans (by omega) m.fits
      have hcount : (seqid + (msgParts m.xid m.op (fuel + 1) first msg).length) % 2 ^ 64 =
          ((seqid + 1) % 2 ^ 64 +
            (msgParts m.xid m.op fuel false (msg.drop cldMaxPktMsgSz)).length) % 2 ^ 64 := by
        rw [hp, List.length_cons]
        omega
      rw [hcount] at hrest
      rw [hp]
      refine .cons (next_part m hst hseqid hlen nofun) ?_
      have hasm := assemble_part m hst false (msg.take cldMaxPktMsgSz) seqid
      rw [SessMsg.part] at hasm
      apply ih false (Nat.mod_lt _ (by decide))
      · intro _
        rw [hasm]
      · rw [hasm]
        exact hsplit
      · exact hrest

end

/-- What the server sends in an established session follows each other. -/
theorem follows_stream (sends : List Sending) {st : CldMsgOp × Bytes} {seqid : Nat}
    (hseqid : seqid < 2 ^ 64) : Follows st (some seqid) (stream seqid sends) := by
  induction sends generalizing st seqid with
  | nil => exact .nil
  | cons send sends ih =>
    cases send with
    | sess m =>
      exact follows_number m m.body.length true hseqid nofun rfl (ih (Nat.mod_lt _ (by decide)))
    | simple m h => exact .cons (.lone m h) (ih hseqid)

/-! ## Deliveries -/

def CldcSession.assembled (sess : CldcSession) : CldMsgOp × Bytes := (sess.msgBufOp, sess.msgBuf)

/-- What a packet makes `cldc_receive_pkt` pass to `rx_complete`, by `rxPkt_completes`: the operation and
the bytes of a message. -/
def CldcSession.completes (sess : CldcSession) (mi : CldPktMsgInfo) (chunk : Bytes) (seqid : Nat) :
    Option (CldMsgOp × Bytes) :=
  if (sess.window.accept seqid (sess.opOf mi)).isSome &&
      decide ((sess.kept mi).length + chunk.length ≤ cldMaxMsgSz) && mi.isLast then
    some (sess.opOf mi, sess.kept mi ++ chunk)
  else none

theorem rxPkt_completes (e : Env) (now : Nat) (ok : Bool) (stray : Nat → Nat → Nat)
    (sess : CldcSession) (mi : CldPktMsgInfo) (chunk : Bytes) (seqid : Nat) :
    (∃ t : CldcSession, sess.completes mi chunk seqid = some t.assembled ∧
      sess.rxPkt e now ok stray mi chunk seqid = t.rxComplete e ok stray seqid) ∨
    sess.completes mi chunk seqid = none ∧ ∃ t : CldcSession,
      sess.rxPkt e now ok stray mi chunk seqid ∈
        [((-ebadslt : Int), t), ((-eproto : Int), t), t.ackSeqid e ok seqid] := by
  have hcase := rxPkt_cases e now ok stray sess mi chunk seqid
  generalize sess.rxPkt e now ok stray mi chunk seqid = r at hcase ⊢
  cases hcase with
  | refused h => exact .inr ⟨by simp [CldcSession.completes, h], sess.begun now mi, by simp⟩
  | @tooLong w h hlen =>
    exact .inr ⟨by simp [CldcSession.completes, hlen.not_ge],
      { (sess.begun now mi).setWindow w with msgBuf := sess.kept mi }, by simp⟩
  | @taken w h hlen =>
    cases hl : mi.isLast with
    | false => exact .inr ⟨by simp [CldcSession.completes, hl], sess.taken now mi chunk w, by simp⟩
    | true =>
      refine .inl ⟨sess.taken now mi chunk w, ?_, by simp⟩
      simp [CldcSession.completes, h, hlen, hl]
      rfl

/-- A client with the packets it has got from the server, those to come, and the messages passed to
`rx_complete`, each with the packet that completed it. `rxPkt_completes` says that these are the messages
for which the function is called. -/
structure Feed where
  sess : CldcSession
  seen : List SrvPkt
  todo : List SrvPkt
  done : List (SrvPkt × CldMsgOp × Bytes)

/-- The next packet comes, or one that has come comes again, or a packet with a number that is not
expected. -/
inductive Delivery where
  | next (now : Nat) (ok : Bool) (stray : Nat → Nat → Nat)
  | again (i : Nat) (now : Nat) (ok : Bool) (stray : Nat → Nat → Nat)
  | misplaced (p : SrvPkt) (hw : p.Wire) (now : Nat) (ok : Bool) (stray : Nat → Nat → Nat)

def Feed.receive (e : Env) (now : Nat) (ok : Bool) (stray : Nat → Nat → Nat) (f : Feed)
    (p : SrvPkt) : Feed :=
  { f with
    sess := (cldcReceivePkt e now ok stray f.sess.addr (p.raw e f.sess) f.sess).2
    done := f.done ++
      (f.sess.completes p.mi p.chunk (p.seqid % 2 ^ 64)).toList.map fun msg => (p, msg) }

def Feed.step (e : Env) (f : Feed) : Delivery → Feed
  | .next now ok stray =>
    match f.todo with
    | [] => f
    | p :: ps => { f with seen := f.seen ++ [p], todo := ps }.receive e now ok stray p
  | .again i now ok stray =>
    match f.seen[i]? with
    | none => f
    | some p => f.receive e now ok stray p
  | .misplaced p _ now ok stray => f.receive e now ok stray p

/-- The number of the packet is not accepted. -/
def CldcSession.refuses (sess : CldcSession) (p : SrvPkt) : Bool :=
  (sess.window.accept (p.seqid % 2 ^ 64) (sess.opOf p.mi)).isNone

/-- The packet begins the message being put together, of which there is nothing else, and its number
is not taken for the next one. -/
def CldcSession.restarts (sess : CldcSession) (p : SrvPkt) : Bool :=
  (sess.window.accept (p.seqid % 2 ^ 64) (sess.opOf p.mi)).any
    (fun w => w.next = sess.nextSeqidIn) && p.mi.isFirst && p.chunk = sess.msgBuf

/-- The condition on a delivery: a packet that is not new is refused, or begins the message over
again; in either case it has the operation of that message, if it has one. -/
def Feed.calm (f : Feed) : Delivery → Bool
  | .next .. => true
  | .again i .. => (f.seen[i]?).all fun p =>
      (f.sess.refuses p || f.sess.restarts p) && f.sess.opOf p.mi = f.sess.msgBufOp
  | .misplaced p .. => f.sess.refuses p && f.sess.opOf p.mi = f.sess.msgBufOp

/-! ## Runs -/

/-- What there is to know of a packet that has come. -/
structure SrvPkt.Sound (p : SrvPkt) : Prop where
  wire : p.Wire
  whole : ∀ xid op, p.mi = .firstLast xid op → p.msg = (op, p.chunk)

theorem LoneMsg.pkt_sound (m : LoneMsg) (h : m.op.Wire) : m.pkt.Sound := by
  constructor
  · rintro xid op hi
    cases hi
    exact ⟨m.xid_lt, h⟩
  · rintro xid op hi
    cases hi
    rfl

theorem Next.sound {st : CldMsgOp × Bytes} {next next' : Option Nat} {p : SrvPkt}
    (h : Next st next p next') : p.Sound := by
  cases h with
  | lone m h =>
    apply m.pkt_sound
    rcases h with h | h <;> rw [h] <;> decide
  | opening m h =>
    apply m.pkt_sound
    rw [h]
    decide
  | numbered _ hw hop _ _ _ _ hone =>
    refine ⟨hw, fun xid op hi => ?_⟩
    have hasm : p.assemble st = (op, p.chunk) := by simp [SrvPkt.assemble, hi, CldPktMsgInfo.infos]
    rw [hasm] at hop
    have hchunk := hone (by simp [hi, CldPktMsgInfo.isFirst, CldPktMsgInfo.infos])
      (by simp [hi, CldPktMsgInfo.isLast])
    exact Prod.ext hop.symm hchunk.symm

/-- The client expects the number `next`, if it knows the numbers. -/
def Awaits (w : SeqWindow) : Option Nat → Prop
  | none => True
  | some next => w.Full ∧ w.next = next

/-- A delivered packet is received as `cldc_receive_pkt` does after its checks. -/
theorem receive_raw (e : Env) (now : Nat) (ok : Bool) (stray : Nat → Nat → Nat) {p : SrvPkt}
    (hw : p.Wire) (sess : CldcSession) :
    cldcReceivePkt e now ok stray sess.addr (p.raw e sess) sess =
      sess.rxPkt e now ok stray p.mi p.chunk (p.seqid % 2 ^ 64) :=
  cldcReceivePkt_rawPkt e now ok stray sess
    ⟨pktMagic_lt, sess.sid_lt, sess.user.noNul, fun xid op h => hw xid op h⟩ p.chunk p.seqid

theorem opOf_eq (sess : CldcSession) (p : SrvPkt) :
    sess.opOf p.mi = (p.assemble sess.assembled).1 := by
  unfold CldcSession.opOf SrvPkt.assemble
  cases p.mi.infos <;> rfl

theorem kept_append (sess : CldcSession) (p : SrvPkt) :
    sess.kept p.mi ++ p.chunk = (p.assemble sess.assembled).2 := by
  unfold CldcSession.kept SrvPkt.assemble CldPktMsgInfo.isFirst
  cases p.mi.infos <;> rfl

/-- A packet whose number is accepted is added to the message. -/
theorem rxPkt_assembled (e : Env) (now : Nat) (ok : Bool) (stray : Nat → Nat → Nat)
    {sess : CldcSession} {p : SrvPkt} {w : SeqWindow} {seqid : Nat}
    (hacc : sess.window.accept seqid (sess.opOf p.mi) = some w)
    (hlen : (p.assemble sess.assembled).2.length ≤ cldMaxMsgSz) :
    (sess.rxPkt e now ok stray p.mi p.chunk seqid).2.assembled = p.assemble sess.assembled ∧
      (sess.rxPkt e now ok stray p.mi p.chunk seqid).2.window = w ∧
      sess.completes p.mi p.chunk seqid =
        if p.mi.isLast then some (p.assemble sess.assembled) else none := by
  rw [← kept_append, List.length_append] at hlen
  have hrx := rxPkt_rxState e now ok stray sess p.mi p.chunk seqid
  rw [hacc] at hrx
  simp only [if_neg hlen.not_gt, kept_append, opOf_eq] at hrx
  refine ⟨Prod.ext (congrArg RxState.msgBufOp hrx) (congrArg RxState.msgBuf hrx),
    congrArg RxState.window hrx, ?_⟩
  rw [CldcSession.completes, hacc, kept_append, opOf_eq]
  simp [hlen]

/-- One that is refused leaves the bytes, and the window, alone. -/
theorem rxPkt_refused (e : Env) (now : Nat) (ok : Bool) (stray : Nat → Nat → Nat)
    {sess : CldcSession} {p : SrvPkt} {seqid : Nat}
    (hacc : sess.window.accept seqid (sess.opOf p.mi) = none) :
    (sess.rxPkt e now ok stray p.mi p.chunk seqid).2.assembled = (sess.opOf p.mi, sess.msgBuf) ∧
      (sess.rxPkt e now ok stray p.mi p.chunk seqid).2.window = sess.window ∧
      sess.completes p.mi p.chunk seqid = none := by
  have hrx := rxPkt_rxState e now ok stray sess p.mi p.chunk seqid
  rw [hacc] at hrx
  exact ⟨Prod.ext (congrArg RxState.msgBufOp hrx) (congrArg RxState.msgBuf hrx),
    congrArg RxState.window hrx, by simp [CldcSession.completes, hacc]⟩

/-- The client holds what the packets it has got put together, and has completed what was sent. -/
structure Feed.Inv (st : CldMsgOp × Bytes) (f : Feed) : Prop where
  state : f.sess.assembled = f.seen.foldl SrvPkt.assemble st
  room : f.sess.msgBuf.length ≤ cldMaxMsgSz
  todo : ∃ next, Follows f.sess.assembled next f.todo ∧ Awaits f.sess.window next
  seen : ∀ p ∈ f.seen, p.Sound
  done : ∀ c ∈ f.done, c.2 = c.1.msg

/-- A packet that is not new, if it is refused or begins the message over again. -/
theorem rxPkt_stale (e : Env) (now : Nat) (ok : Bool) (stray : Nat → Nat → Nat)
    {sess : CldcSession} {p : SrvPkt} (hroom : sess.msgBuf.length ≤ cldMaxMsgSz)
    (hop : sess.opOf p.mi = sess.msgBufOp)
    (hcalm : sess.refuses p = true ∨ p.Sound ∧ sess.restarts p = true) :
    let t := (sess.rxPkt e now ok stray p.mi p.chunk (p.seqid % 2 ^ 64)).2
    t.assembled = sess.assembled ∧ (sess.window.Full → t.window.Full) ∧
      t.window.next = sess.window.next ∧
      ∀ c ∈ sess.completes p.mi p.chunk (p.seqid % 2 ^ 64), c = p.msg := by
  rcases hcalm with href | ⟨hsound, hre⟩
  · have hnone := Option.isNone_iff_eq_none.mp href
    obtain ⟨hasm, hwin, hdone⟩ := rxPkt_refused e now ok stray hnone
    rw [hop] at hasm
    refine ⟨hasm, fun h => hwin ▸ h, by rw [hwin], ?_⟩
    rw [hdone]
    nofun
  · simp only [CldcSession.restarts, Bool.and_eq_true, Option.any_eq_true, decide_eq_true_eq] at hre
    obtain ⟨⟨⟨w, hacc, hnext⟩, hfirst⟩, hchunk⟩ := hre
    -- the message begins with this packet and ends there
    have hsame : p.assemble sess.assembled = sess.assembled := by
      have hop' := opOf_eq sess p
      have hbuf := kept_append sess p
      rw [CldcSession.kept, if_pos hfirst, List.nil_append, hchunk] at hbuf
      exact Prod.ext (hop'.symm.trans hop) hbuf.symm
    obtain ⟨hasm, hwin, hdone⟩ := rxPkt_assembled e now ok stray hacc (by rwa [hsame])
    refine ⟨hasm.trans hsame, fun h => ?_, by rw [hwin]; exact hnext, ?_⟩
    · rw [hwin]
      exact SeqWindow.accept_full (.inr h) hacc
    · intro c hc
      rw [hdone] at hc
      split at hc
      · next hlast =>
        cases hc
        cases hmi : p.mi with
        | mid | last => simp [hmi, CldPktMsgInfo.isFirst, CldPktMsgInfo.infos] at hfirst
        | first xid op => simp [hmi, CldPktMsgInfo.isLast] at hlast
        | firstLast xid op =>
          rw [hsound.whole xid op hmi]
          simp [SrvPkt.assemble, hmi, CldPktMsgInfo.infos]
      · cases hc

theorem Feed.Inv.stale {st : CldMsgOp × Bytes} {f : Feed} (h : f.Inv st) (e : Env) (now : Nat)
    (ok : Bool) (stray : Nat → Nat → Nat) {p : SrvPkt} (hw : p.Wire)
    (hop : f.sess.opOf p.mi = f.sess.msgBufOp)
    (hcalm : f.sess.refuses p = true ∨ p.Sound ∧ f.sess.restarts p = true) :
    (f.receive e now ok stray p).Inv st := by
  obtain ⟨next, hfollows, hawaits⟩ := h.todo
  obtain ⟨hasm, hfull, hnext, hdone⟩ := rxPkt_stale e now ok stray h.room hop hcalm
  have hbuf := congrArg (fun m : CldMsgOp × Bytes => m.2.length) hasm
  unfold Feed.receive
  rw [receive_raw e now ok stray hw]
  refine ⟨hasm.trans h.state, hbuf.trans_le h.room, ⟨next, ?_, ?_⟩, h.seen, ?_⟩
  · dsimp only
    rw [hasm]
    exact hfollows
  · cases next with
    | none => trivial
    | some n => exact ⟨hfull hawaits.1, hnext.trans hawaits.2⟩
  · intro c hc
    rcases List.mem_append.mp hc with hc | hc
    · exact h.done c hc
    · obtain ⟨msg, hmsg, rfl⟩ := List.mem_map.mp hc
      exact hdone msg (Option.mem_toList.mp hmsg)

/-- The next packet is taken in. -/
theorem Next.accepts {sess : CldcSession} {next next' : Option Nat} {p : SrvPkt}
    (h : Next sess.assembled next p next') (hawaits : Awaits sess.window next) :
    ∃ w, sess.window.accept (p.seqid % 2 ^ 64) (sess.opOf p.mi) = some w ∧ Awaits w next' ∧
      (p.assemble sess.assembled).2.length ≤ cldMaxMsgSz ∧
      (p.mi.isLast = true → p.assemble sess.assembled = p.msg) := by
  cases h with
  | lone m h =>
    have hop : sess.opOf m.pkt.mi = m.op := rfl
    rw [hop]
    exact ⟨sess.window, by rcases h with h | h <;> rw [h] <;> rfl, hawaits, m.fits, fun _ => rfl⟩
  | opening m h =>
    have hop : sess.opOf m.pkt.mi = .newSess := h
    rw [hop]
    have hacc : sess.window.accept (m.pkt.seqid % 2 ^ 64) .newSess =
        some ⟨(m.seqid % 2 ^ 64 + 1) % 2 ^ 64, _⟩ := rfl
    refine ⟨_, hacc, ⟨SeqWindow.accept_full (.inl rfl) hacc, ?_⟩, m.fits, fun _ => rfl⟩
    show (m.seqid % 2 ^ 64 + 1) % 2 ^ 64 = (m.seqid + 1) % 2 ^ 64
    omega
  | numbered _ hw hop hne hlen hseqid hlast =>
    obtain ⟨hfull, hnext⟩ := hawaits
    have hacc : sess.window.accept (p.seqid % 2 ^ 64) (sess.opOf p.mi) =
        some ⟨(sess.window.next + 1) % 2 ^ 64, (sess.window.tr + 1) % 2 ^ 64⟩ := by
      rw [opOf_eq, hop, Nat.mod_eq_of_lt hseqid]
      unfold SeqWindow.accept
      split
      · next h => exact absurd h hne.1
      · next h => exact absurd h hne.2.1
      · next h => exact absurd h hne.2.2
      · rw [if_pos hnext.symm]
    exact ⟨_, hacc, ⟨SeqWindow.accept_full (.inr hfull) hacc, by rw [← hnext]⟩, hlen, hlast⟩

theorem Feed.Inv.next {st : CldMsgOp × Bytes} {f : Feed} (h : f.Inv st) (e : Env) (now : Nat)
    (ok : Bool) (stray : Nat → Nat → Nat) {p : SrvPkt} {ps : List SrvPkt} (hp : f.todo = p :: ps) :
    ({ f with seen := f.seen ++ [p], todo := ps }.receive e now ok stray p).Inv st := by
  obtain ⟨next, hfollows, hawaits⟩ := h.todo
  rw [hp] at hfollows
  cases hfollows with
  | @cons _ _ next' _ _ hnext hps =>
    obtain ⟨w, hacc, hw, hlen, hlast⟩ := hnext.accepts hawaits
    obtain ⟨hasm, hwin, hdone⟩ := rxPkt_assembled e now ok stray hacc hlen
    have hbuf := congrArg (fun m : CldMsgOp × Bytes => m.2.length) hasm
    unfold Feed.receive
    simp only [receive_raw e now ok stray hnext.sound.wire]
    refine ⟨?_, hbuf.trans_le hlen, ⟨next', ?_, ?_⟩, ?_, ?_⟩
    · rw [List.foldl_append, ← h.state]
      exact hasm
    · rw [hasm]
      exact hps
    · rw [hwin]
      exact hw
    · intro q hq
      rcases List.mem_append.mp hq with hq | hq
      · exact h.seen q hq
      · rw [List.mem_singleton.mp hq]
        exact hnext.sound
    · intro c hc
      rcases List.mem_append.mp hc with hc | hc
      · exact h.done c hc
      · obtain ⟨msg, hmsg, rfl⟩ := List.mem_map.mp hc
        rw [Option.mem_toList, hdone] at hmsg
        split at hmsg
        · next hl =>
          cases hmsg
          exact hlast hl
        · cases hmsg

theorem step_feedInv (e : Env) {st : CldMsgOp × Bytes} (f : Feed) (d : Delivery) (h : f.Inv st)
    (hcalm : f.calm d = true) : (f.step e d).Inv st := by
  cases d with
  | next now ok stray =>
    simp only [Feed.step]
    split
    · exact h
    · next hp => exact h.next e now ok stray hp
  | again i now ok stray =>
    simp only [Feed.step]
    simp only [Feed.calm] at hcalm
    split
    · exact h
    · next p hp =>
      have hsound := h.seen p (List.mem_of_getElem? hp)
      simp only [hp, Option.all_some, Bool.and_eq_true, Bool.or_eq_true, decide_eq_true_eq] at hcalm
      exact h.stale e now ok stray hsound.wire hcalm.2 (hcalm.1.imp id fun hre => ⟨hsound, hre⟩)
  | misplaced p hw now ok stray =>
    simp only [Feed.calm, Bool.and_eq_true, decide_eq_true_eq] at hcalm
    exact h.stale e now ok stray hw hcalm.2 (.inl hcalm.1)

/-- A client to which the reply to `CMO_NEW_SESS` and then what the server sends is delivered. -/
def Feed.init (sess : CldcSession) (opening : LoneMsg) (sends : List Sending) : Feed :=
  ⟨sess, [], opening.pkt :: stream ((opening.seqid + 1) % 2 ^ 64) sends, []⟩

/-- In a run in which packets that are not new leave the message alone, the client holds what the
packets it has got put together, and completes the messages that were sent. -/
theorem run_assembles (e : Env) (sess : CldcSession) (hroom : sess.msgBuf.length ≤ cldMaxMsgSz)
    (opening : LoneMsg) (hop : opening.op = .newSess) (sends : List Sending) (ds : List Delivery)
    (h : Meets (Feed.step e) (fun f d => f.calm d = true) (.init sess opening sends) ds) :
    (run (Feed.step e) (.init sess opening sends) ds).sess.assembled =
        (run (Feed.step e) (.init sess opening sends) ds).seen.foldl SrvPkt.assemble sess.assembled ∧
      ∀ c ∈ (run (Feed.step e) (.init sess opening sends) ds).done, c.2 = c.1.msg := by
  have hinv := h.invariant (I := Feed.Inv sess.assembled) ?_ (step_feedInv e)
  · exact ⟨hinv.state, hinv.done⟩
  · refine ⟨rfl, hroom, ⟨none, ?_, trivial⟩, by simp [Feed.init], by simp [Feed.init]⟩
    exact .cons (.opening opening hop) (follows_stream sends (Nat.mod_lt _ (by decide)))

/-- The reply to the request of the session of `newLink`. -/
def plainOpening : LoneMsg where
  xid := 7
  op := .newSess
  body := putGeneric .ok 240518168631
  seqid := 100
  xid_lt := by decide
  fits := by decide

theorem eight_lt : 8 < 2 ^ 64 := by decide

theorem get_wire : CldMsgOp.get.Wire := by decide

theorem get_numbered :
    CldMsgOp.get ≠ .newSess ∧ CldMsgOp.get ≠ .notMaster ∧ CldMsgOp.get ≠ .ackFrag := by decide

theorem longBody_le : (List.replicate 1025 9 : Bytes).length ≤ cldMaxMsgSz := by
  rw [List.length_replicate, cldMaxMsgSz]
  omega

/-- A message in two packets. -/
def longMsg : SessMsg where
  xid := 8
  op := .get
  body := List.replicate 1025 9
  xid_lt := eight_lt
  wire := get_wire
  numbered := get_numbered
  fits := longBody_le

def plainFeed : Feed := .init newLink.sess plainOpening [.sess longMsg]

/-- The next packet. -/
def onward : Delivery := .next 1 true fun _ _ => 0

/-- A packet again. -/
def repeated (i : Nat) : Delivery := .again i 1 true fun _ _ => 0

/-- The first packet of each message comes twice. -/
def calmFeed : List Delivery := [onward, repeated 0, onward, repeated 1, onward]

theorem run_assembles_calmFeed :
    (run (Feed.step .plain) plainFeed calmFeed).sess.assembled =
        (run (Feed.step .plain) plainFeed calmFeed).seen.foldl SrvPkt.assemble
          newLink.sess.assembled ∧
      ∀ c ∈ (run (Feed.step .plain) plainFeed calmFeed).done, c.2 = c.1.msg :=
  run_assembles .plain newLink.sess (by decide +kernel) plainOpening rfl [.sess longMsg] calmFeed
    (by decide +kernel)

/-- The last packet of a message comes twice: the second time it completes a message that is longer
than the one that was sent. -/
theorem repeatedLast_wrong :
    ¬ ((run (Feed.step .plain) plainFeed [onward, onward, onward, repeated 2]).sess.assembled =
        (run (Feed.step .plain) plainFeed [onward, onward, onward, repeated 2]).seen.foldl
          SrvPkt.assemble newLink.sess.assembled ∧
      ∀ c ∈ (run (Feed.step .plain) plainFeed [onward, onward, onward, repeated 2]).done,
        c.2 = c.1.msg) := by
  decide +kernel

end Hail.Cldc
