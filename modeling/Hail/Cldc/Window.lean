import Hail.Cldc.Link

/-!
# The window of a session

What a packet of the server meets at the client: the message being put together and the window of
sequence numbers. Only `accept_seqid` moves the window, and only packets are put together; requests,
the timer and complete messages leave both alone.
-/
namespace Hail.Cldc

open Library Cld

/-! ## Sequence numbers -/

theorem footSeqid_lt (raw : Bytes) : footSeqid raw < 2 ^ 64 := by
  have hlt : ∀ bs : Bytes, ofLe bs < 256 ^ bs.length := by
    intro bs
    induction bs with
    | nil => simp [ofLe]
    | cons b bs ih =>
      have hb := b.toNat_lt
      rw [ofLe, List.length_cons, Nat.pow_succ]
      omega
  have hlen : ((raw.drop (raw.length - cldPktFtrLen)).take 8).length ≤ 8 := by simp
  calc footSeqid raw < 256 ^ ((raw.drop (raw.length - cldPktFtrLen)).take 8).length := hlt _
    _ ≤ 256 ^ 8 := Nat.pow_le_pow_right (by decide) hlen
    _ = 2 ^ 64 := by decide

/-- `next_seqid_in` and `next_seqid_in_tr`. -/
structure SeqWindow where
  next : Nat
  tr : Nat
  deriving DecidableEq

/-- The window of an established session: it ends before the next number and has
`CLDC_MSG_REMEMBER` numbers. -/
structure SeqWindow.Full (w : SeqWindow) : Prop where
  next_lt : w.next < 2 ^ 64
  tr_eq : w.tr = (w.next + 2 ^ 64 - cldcMsgRemember) % 2 ^ 64

/-- How far a sequence number is behind the next one. -/
def SeqWindow.lag (w : SeqWindow) (seqid : Nat) : Nat :=
  (w.next + 2 ^ 64 - seqid % 2 ^ 64) % 2 ^ 64

/-- `accept_seqid` as it moves the window. -/
def SeqWindow.accept (w : SeqWindow) (seqid : Nat) : CldMsgOp → Option SeqWindow
  | .newSess =>
    let next := (seqid + 1) % 2 ^ 64
    some ⟨next, (next + 2 ^ 64 - cldcMsgRemember) % 2 ^ 64⟩
  | .notMaster | .ackFrag => some w
  | _ =>
    if seqid = w.next then some ⟨(w.next + 1) % 2 ^ 64, (w.tr + 1) % 2 ^ 64⟩
    else if seqidInRange seqid w.tr w.next then some w
    else none

/-- The reply to `CMO_NEW_SESS` establishes a session, and an established one stays so. -/
theorem SeqWindow.accept_full {w w' : SeqWindow} {seqid : Nat} {op : CldMsgOp}
    (h : op = .newSess ∨ w.Full) (hw : w.accept seqid op = some w') : w'.Full := by
  unfold SeqWindow.accept at hw
  split at hw
  · cases hw
    exact ⟨Nat.mod_lt _ (by decide), rfl⟩
  · cases hw
    exact h.resolve_left nofun
  · cases hw
    exact h.resolve_left nofun
  · next hne _ _ =>
    have hfull := h.resolve_left hne
    have hlt := hfull.next_lt
    have htr := hfull.tr_eq
    split at hw
    · cases hw
      refine ⟨Nat.mod_lt _ (by decide), ?_⟩
      simp only [cldcMsgRemember] at htr ⊢
      omega
    · split at hw
      · cases hw
        exact hfull
      · cases hw

/-- The numbers in the window are the next one and the `CLDC_MSG_REMEMBER` before it. -/
theorem SeqWindow.inRange_iff {w : SeqWindow} (h : w.Full) (seqid : Nat) :
    seqid % 2 ^ 64 = w.next ∨ seqidInRange (seqid % 2 ^ 64) w.tr w.next = true ↔
      w.lag seqid ≤ cldcMsgRemember := by
  have hlt := h.next_lt
  have htr := h.tr_eq
  simp only [seqidInRange, seqidBeforeEq, seqidAfterEq, Bool.and_eq_true, decide_eq_true_eq,
    SeqWindow.lag, cldcMsgRemember] at htr ⊢
  omega

theorem SeqWindow.accept_isSome {w : SeqWindow} (h : w.Full) (seqid : Nat) (op : CldMsgOp) :
    (w.accept (seqid % 2 ^ 64) op).isSome = true ↔
      op = .newSess ∨ op = .notMaster ∨ op = .ackFrag ∨ w.lag seqid ≤ cldcMsgRemember := by
  rw [← SeqWindow.inRange_iff h]
  unfold SeqWindow.accept
  split
  · simp
  · simp
  · simp
  · split
    · simp_all
    · split <;> simp_all

/-! ## What receiving depends on -/

def CldcSession.window (sess : CldcSession) : SeqWindow := ⟨sess.nextSeqidIn, sess.nextSeqidInTr⟩

def CldcSession.setWindow (sess : CldcSession) (w : SeqWindow) : CldcSession :=
  { sess with nextSeqidIn := w.next, nextSeqidInTr := w.tr }

/-- The reply to `CMO_NEW_SESS` was received. -/
abbrev CldcSession.Established (sess : CldcSession) : Prop := sess.window.Full

theorem acceptSeqid_eq (sess : CldcSession) (seqid : Nat) (op : CldMsgOp) :
    sess.acceptSeqid seqid op = (sess.window.accept seqid op).map sess.setWindow := by
  cases op with
  | newSess | notMaster | ackFrag => rfl
  | _ =>
    simp only [CldcSession.acceptSeqid, SeqWindow.accept, CldcSession.window]
    by_cases hnext : seqid = sess.nextSeqidIn
    · simp only [hnext, if_true]
      rfl
    · by_cases hin : seqidInRange seqid sess.nextSeqidInTr sess.nextSeqidIn = true
      · simp only [hnext, hin, if_false, if_true]
        rfl
      · simp only [hnext, hin, if_false]
        rfl

/-- The part of a session that packets are received with. -/
structure RxState where
  sid : Sid
  user : User
  secretKey : Bytes
  addr : Bytes
  window : SeqWindow
  msgBufOp : CldMsgOp
  msgBuf : Bytes
  deriving DecidableEq

def CldcSession.rxState (sess : CldcSession) : RxState :=
  ⟨sess.sid, sess.user, sess.secretKey, sess.addr, sess.window, sess.msgBufOp, sess.msgBuf⟩

@[simp] theorem request_rxState (e : Env) (now : Nat) (ok : Nat → Bool) (op : CldMsgOp)
    (body : Bytes) (cb : MsgCb) (appCb : Option Int) (sess : CldcSession) :
    (sess.request e now ok op body cb appCb).2.rxState = sess.rxState := by
  unfold CldcSession.request
  dsimp only
  split
  · rfl
  · split <;> rfl

@[simp] theorem setFh_rxState (sess : CldcSession) (id : Nat) (f : CldcFh → CldcFh) :
    (sess.setFh id f).rxState = sess.rxState := rfl

theorem onHandle_rxState (e : Env) (now : Nat) (ok : Nat → Bool) (appCb : Option Int)
    (sess : CldcSession) (id : Nat) (op : CldMsgOp) (body : Nat → Bytes) (cb : MsgCb) :
    (sess.onHandle e now ok appCb id op body cb).2.rxState = sess.rxState := by
  unfold CldcSession.onHandle
  split
  · rfl
  · exact request_rxState ..

@[simp] theorem call_rxState (e : Env) (now : Nat) (ok : Nat → Bool) (appCb : Option Int)
    (sess : CldcSession) (c : Call) : (sess.call e now ok appCb c).2.rxState = sess.rxState := by
  cases c with
  | endSess | nop | del =>
    simp only [CldcSession.call]
    repeat' split
    all_goals first | rfl | exact request_rxState ..
  | «open» =>
    simp only [CldcSession.call]
    split
    · rfl
    · split
      · rfl
      · exact request_rxState ..
  | close =>
    simp only [CldcSession.call]
    split
    · rfl
    · split
      · rfl
      · exact request_rxState ..
  | put =>
    simp only [CldcSession.call]
    split
    · rfl
    · split
      · rfl
      · exact request_rxState ..
  | lock | unlock | get =>
    simp only [CldcSession.call]
    exact onHandle_rxState ..

@[simp] theorem runCb_rxState (sess : CldcSession) (msg : CldcMsg) (resp : Bytes) (code : Nat) :
    (sess.runCb msg resp code).2.rxState = sess.rxState := by
  unfold CldcSession.runCb
  dsimp only
  split
  · split <;> rfl
  · split <;> rfl
  · rfl
  · split
    · split <;> rfl
    · rfl
  · split <;> rfl
  · split <;> rfl

theorem drop_rxState (sess : CldcSession) (msgs : List CldcMsg) :
    (sess.drop msgs).rxState = sess.rxState := by
  induction msgs generalizing sess with
  | nil => rfl
  | cons msg msgs ih =>
    set t := if msg.done then sess else (sess.runCb msg [] CleErrCodes.timeout.toNat).2 with ht
    have hsame : t.rxState = sess.rxState := by
      rw [ht]
      split
      · rfl
      · exact runCb_rxState ..
    simp only [CldcSession.drop, ← ht]
    split
    · exact hsame
    · exact (ih t).trans hsame

@[simp] theorem timer_rxState (now : Nat) (ok : Nat → Bool) (sess : CldcSession) :
    (sess.timer now ok).rxState = sess.rxState := by
  unfold CldcSession.timer
  split
  · exact drop_rxState { sess with expired := true } sess.outMsg
  · rfl

@[simp] theorem ackSeqid_rxState (e : Env) (ok : Bool) (sess : CldcSession) (seqid : Nat) :
    (sess.ackSeqid e ok seqid).2.rxState = sess.rxState := by
  unfold CldcSession.ackSeqid
  split
  · rfl
  · split <;> rfl

@[simp] theorem rxmsgGeneric_rxState (e : Env) (ok : Bool) (sess : CldcSession) (seqid : Nat) :
    (sess.rxmsgGeneric e ok seqid).2.rxState = sess.rxState := by
  unfold CldcSession.rxmsgGeneric
  split
  · rfl
  · split
    · rfl
    · split
      · exact ackSeqid_rxState ..
      · dsimp only
        split
        · exact runCb_rxState ..
        · rw [ackSeqid_rxState, runCb_rxState]
          rfl

@[simp] theorem rxComplete_rxState (e : Env) (ok : Bool) (stray : Nat → Nat → Nat)
    (sess : CldcSession) (seqid : Nat) :
    (sess.rxComplete e ok stray seqid).2.rxState = sess.rxState := by
  unfold CldcSession.rxComplete
  split
  · rfl
  · exact ackSeqid_rxState ..
  · rfl
  · unfold CldcSession.rxmsgEvent
    dsimp only
    split
    · rfl
    · split <;> rfl
  · unfold CldcSession.rxmsgAckFrag
    split <;> rfl
  · exact rxmsgGeneric_rxState ..

/-- A packet that the server has signed for the session gets to the part of `cldc_receive_pkt` after
the checks. -/
theorem cldcReceivePkt_rawPkt (e : Env) (now : Nat) (ok : Bool) (stray : Nat → Nat → Nat)
    (sess : CldcSession) {sid : Sid} {mi : CldPktMsgInfo}
    (hw : (pktHdr sid sess.user.name mi).Wire) (chunk : Bytes) (seqid : Nat) :
    cldcReceivePkt e now ok stray sess.addr
        (rawPkt e sess.secretKey (hdrBytes sid sess.user mi) chunk seqid) sess =
      sess.rxPkt e now ok stray mi chunk (seqid % 2 ^ 64) := by
  have hlen : ¬ (rawPkt e sess.secretKey (hdrBytes sid sess.user mi) chunk seqid).length <
      cldPktFtrLen := by
    rw [rawPkt_length]
    omega
  simp only [cldcReceivePkt, hlen, if_false, decode_rawPkt e hw, footSeqid_rawPkt]
  simp [pktHdr, sess.user.cldcUserKey, footCheck_rawPkt e sess.key_ne_nil]

/-! ## Packets -/

section

variable (sess : CldcSession) (now : Nat) (mi : CldPktMsgInfo) (chunk : Bytes) (w : SeqWindow)

/-- The operation a packet is taken for: its own or that of the message being put together. -/
def CldcSession.opOf : CldMsgOp := (mi.infos.map Prod.snd).getD sess.msgBufOp

/-- What a packet finds of the message it belongs to. -/
def CldcSession.kept : Bytes := if mi.isFirst then [] else sess.msgBuf

/-- The session when `accept_seqid` is called. -/
def CldcSession.begun : CldcSession :=
  { if sess.msgScanTime ≤ now then sess.expireOutmsg now else sess with msgBufOp := sess.opOf mi }

/-- The session when a packet has been taken in, the window being `w`. -/
def CldcSession.taken : CldcSession :=
  { (sess.begun now mi).setWindow w with
    msgBuf := sess.kept mi ++ chunk, expireTime := now + cldcSessExpire }

theorem begun_rxState :
    (sess.begun now mi).rxState = { sess.rxState with msgBufOp := sess.opOf mi } := by
  unfold CldcSession.begun
  split <;> rfl

theorem taken_rxState :
    (sess.taken now mi chunk w).rxState =
      { sess.rxState with window := w, msgBufOp := sess.opOf mi, msgBuf := sess.kept mi ++ chunk } :=
  congrArg (fun r => ({ r with window := w, msgBuf := sess.kept mi ++ chunk } : RxState))
    (begun_rxState sess now mi)

end

/-- What can become of a packet: its number is refused, there is no room for it, or it is taken in. -/
inductive RxCase (e : Env) (now : Nat) (ok : Bool) (stray : Nat → Nat → Nat) (sess : CldcSession)
    (mi : CldPktMsgInfo) (chunk : Bytes) (seqid : Nat) : Int × CldcSession → Prop where
  | refused (h : sess.window.accept seqid (sess.opOf mi) = none) :
      RxCase e now ok stray sess mi chunk seqid (-ebadslt, sess.begun now mi)
  | tooLong {w : SeqWindow} (h : sess.window.accept seqid (sess.opOf mi) = some w)
      (hlen : cldMaxMsgSz < (sess.kept mi).length + chunk.length) :
      RxCase e now ok stray sess mi chunk seqid
        (-eproto, { (sess.begun now mi).setWindow w with msgBuf := sess.kept mi })
  | taken {w : SeqWindow} (h : sess.window.accept seqid (sess.opOf mi) = some w)
      (hlen : (sess.kept mi).length + chunk.length ≤ cldMaxMsgSz) :
      RxCase e now ok stray sess mi chunk seqid
        (if mi.isLast then (sess.taken now mi chunk w).rxComplete e ok stray seqid
          else (sess.taken now mi chunk w).ackSeqid e ok seqid)

theorem rxPkt_cases (e : Env) (now : Nat) (ok : Bool) (stray : Nat → Nat → Nat)
    (sess : CldcSession) (mi : CldPktMsgInfo) (chunk : Bytes) (seqid : Nat) :
    RxCase e now ok stray sess mi chunk seqid (sess.rxPkt e now ok stray mi chunk seqid) := by
  have hop : (mi.infos.map Prod.snd).getD
      (if sess.msgScanTime ≤ now then sess.expireOutmsg now else sess).msgBufOp = sess.opOf mi := by
    split <;> rfl
  have hrx := begun_rxState sess now mi
  have hwin : (sess.begun now mi).window = sess.window := congrArg RxState.window hrx
  have hbuf : (sess.begun now mi).msgBuf = sess.msgBuf := congrArg RxState.msgBuf hrx
  unfold CldcSession.rxPkt
  dsimp only
  rw [hop]
  have hacc := acceptSeqid_eq (sess.begun now mi) seqid (sess.opOf mi)
  rw [hwin] at hacc
  split
  · next hnone =>
    rw [show (sess.begun now mi).acceptSeqid seqid (sess.opOf mi) = none from hnone] at hacc
    exact .refused (Option.map_eq_none_iff.mp hacc.symm)
  · next t hsome =>
    rw [show (sess.begun now mi).acceptSeqid seqid (sess.opOf mi) = some t from hsome] at hacc
    obtain ⟨w, h, rfl⟩ := Option.map_eq_some_iff.mp hacc.symm
    have hkept : (if mi.isFirst then { (sess.begun now mi).setWindow w with msgBuf := [] }
        else (sess.begun now mi).setWindow w) =
        { (sess.begun now mi).setWindow w with msgBuf := sess.kept mi } := by
      unfold CldcSession.kept
      split
      · rfl
      · rw [← hbuf]
        rfl
    simp only [hkept]
    split
    · next hlen => exact .tooLong h hlen
    · next hlen => exact .taken h (not_lt.mp hlen)

/-- What a packet leaves of what packets are received with. -/
theorem rxPkt_rxState (e : Env) (now : Nat) (ok : Bool) (stray : Nat → Nat → Nat)
    (sess : CldcSession) (mi : CldPktMsgInfo) (chunk : Bytes) (seqid : Nat) :
    (sess.rxPkt e now ok stray mi chunk seqid).2.rxState =
      match sess.window.accept seqid (sess.opOf mi) with
      | none => { sess.rxState with msgBufOp := sess.opOf mi }
      | some w => { sess.rxState with
          window := w
          msgBufOp := sess.opOf mi
          msgBuf := if cldMaxMsgSz < (sess.kept mi).length + chunk.length then sess.kept mi
            else sess.kept mi ++ chunk } := by
  have hcase := rxPkt_cases e now ok stray sess mi chunk seqid
  generalize sess.rxPkt e now ok stray mi chunk seqid = r at hcase ⊢
  cases hcase with
  | refused h =>
    rw [h]
    exact begun_rxState sess now mi
  | @tooLong w h hlen =>
    rw [h]
    simp only [if_pos hlen]
    exact congrArg (fun r => ({ r with window := w, msgBuf := sess.kept mi } : RxState))
      (begun_rxState sess now mi)
  | @taken w h hlen =>
    rw [h]
    simp only [if_neg hlen.not_gt, ← taken_rxState sess now mi chunk w]
    split
    · exact rxComplete_rxState ..
    · exact ackSeqid_rxState ..

/-! ## Runs of packets -/

/-- A packet given to `accept_seqid`, which leaves the session as it is if it refuses it. -/
def seqStep (sess : CldcSession) (pkt : Nat × CldMsgOp) : CldcSession :=
  (sess.acceptSeqid pkt.1 pkt.2).getD sess

theorem seqStep_established {sess : CldcSession} (h : sess.Established) (pkt : Nat × CldMsgOp) :
    (seqStep sess pkt).Established := by
  rw [seqStep, acceptSeqid_eq]
  cases hw : sess.window.accept pkt.1 pkt.2 with
  | none => exact h
  | some w => exact SeqWindow.accept_full (.inr h) hw

/-- From the reply to `CMO_NEW_SESS` on, whatever packets come, a numbered packet is accepted if and only
if it is at most `CLDC_MSG_REMEMBER` behind the next one, counted modulo `2 ^ 64`, and the next number
moves on exactly when it comes. -/
theorem run_window_exact (sess sess₀ : CldcSession) (start : Nat)
    (hnew : sess.acceptSeqid start .newSess = some sess₀) (pkts : List (Nat × CldMsgOp))
    (seqid : Nat) (hseqid : seqid < 2 ^ 64) (op : CldMsgOp)
    (hop : op ≠ .newSess ∧ op ≠ .notMaster ∧ op ≠ .ackFrag) :
    (((run seqStep sess₀ pkts).acceptSeqid seqid op).isSome = true ↔
      ((run seqStep sess₀ pkts).nextSeqidIn + 2 ^ 64 - seqid) % 2 ^ 64 ≤ cldcMsgRemember) ∧
    (run seqStep sess₀ (pkts ++ [(seqid, op)])).nextSeqidIn =
      (if seqid = (run seqStep sess₀ pkts).nextSeqidIn then
        ((run seqStep sess₀ pkts).nextSeqidIn + 1) % 2 ^ 64
      else (run seqStep sess₀ pkts).nextSeqidIn) ∧
    ((run seqStep sess₀ pkts).nextSeqidIn + 2 ^ 64 - (run seqStep sess₀ pkts).nextSeqidInTr) % 2 ^ 64 =
      cldcMsgRemember := by
  have hfirst : sess₀.Established := by
    rw [acceptSeqid_eq] at hnew
    obtain ⟨w, hw, rfl⟩ := Option.map_eq_some_iff.mp hnew
    exact SeqWindow.accept_full (.inl rfl) hw
  have hfull : (run seqStep sess₀ pkts).Established :=
    @run_invariant _ _ seqStep sess₀ CldcSession.Established hfirst
      (fun s i hs => seqStep_established hs i) pkts
  rw [run_append]
  generalize run seqStep sess₀ pkts = s at hfull ⊢
  have hmod : seqid % 2 ^ 64 = seqid := Nat.mod_eq_of_lt hseqid
  have hisSome := SeqWindow.accept_isSome hfull seqid op
  rw [hmod, SeqWindow.lag, hmod] at hisSome
  obtain ⟨hne, hne', hne''⟩ := hop
  refine ⟨?_, ?_, ?_⟩
  · rw [acceptSeqid_eq, Option.isSome_map, hisSome]
    tauto
  · change (seqStep s (seqid, op)).nextSeqidIn = _
    rw [seqStep, acceptSeqid_eq]
    have hacc : s.window.accept seqid op =
        if seqid = s.window.next then
          some ⟨(s.window.next + 1) % 2 ^ 64, (s.window.tr + 1) % 2 ^ 64⟩
        else if seqidInRange seqid s.window.tr s.window.next then some s.window else none := by
      cases op <;> first | rfl | exact absurd rfl hne | exact absurd rfl hne' | exact absurd rfl hne''
    dsimp only
    rw [hacc]
    change _ = if seqid = s.window.next then (s.window.next + 1) % 2 ^ 64 else s.window.next
    split
    · rfl
    · split <;> rfl
  · have hlt := hfull.next_lt
    have htr := hfull.tr_eq
    change (s.window.next + 2 ^ 64 - s.window.tr) % 2 ^ 64 = _
    simp only [cldcMsgRemember] at htr ⊢
    omega

/-- A session that starts at number 3: its window goes round zero. -/
theorem run_window_exact_wrap :
    (((run seqStep { newLink.sess with nextSeqidIn := 3, nextSeqidInTr := 2 ^ 64 - 22 }
        [(3, .nop), (9, .nop)]).acceptSeqid (2 ^ 64 - 1) .nop).isSome = true ↔
      ((run seqStep { newLink.sess with nextSeqidIn := 3, nextSeqidInTr := 2 ^ 64 - 22 }
        [(3, .nop), (9, .nop)]).nextSeqidIn + 2 ^ 64 - (2 ^ 64 - 1)) % 2 ^ 64 ≤ cldcMsgRemember) :=
  (run_window_exact newLink.sess _ 2 rfl [(3, .nop), (9, .nop)] (2 ^ 64 - 1) (by decide) .nop
    (by decide)).1

end Hail.Cldc
