import Hail.Cldc.Assembly
import Hail.Library.Ledger

/-!
# The completion of requests

The messages of `out_msg` with their `done` flags, and the callbacks made, are a ledger: a call enters
a message, a response settles it, the expiry of the session closes the ledger, and the scan for old
messages purges it. A message is settled once at most. One that is entered is settled in the end,
unless the scan takes it away before, the session is freed, `cldc_put` has not entered it at all, or a
callback has entered it while the messages of an expired session are dropped.
-/
namespace Hail.Cldc

open Library Cld

def CldcSession.ledger (sess : CldcSession) : Ledger where
  entries := sess.outMsg.map fun msg => (msg.num, msg.done)
  settled := sess.calls.map Prod.fst
  next := sess.msgs

/-- `n_pkts` of a message with a body of this length. -/
def nPkts (bodyLen : Nat) : Nat :=
  if bodyLen = 0 then 1 else (bodyLen + cldMaxPktMsgSz - 1) / cldMaxPktMsgSz

/-- Completing the message frees the session. -/
def CldcMsg.frees (msg : CldcMsg) : Prop := msg.cb = .endSess ∧ msg.appCb = none

/-! ## What the functions of the client do to the ledger -/

theorem signedPkts_length (e : Env) (key : Bytes) (u : User) (sid seqid : Nat)
    (parts : List (CldPktMsgInfo × Bytes)) :
    (signedPkts e key u sid seqid parts).length = parts.length := by
  induction parts generalizing seqid with
  | nil => rfl
  | cons part parts ih => rw [signedPkts, List.length_cons, ih, List.length_cons]

theorem findIdx_range_lt {n : Nat} {ok : Nat → Bool} :
    (List.range n).findIdx (fun i => !ok i) < n ↔ ¬ ∀ i < n, ok i = true := by
  have h := @List.findIdx_lt_length Nat (fun i => !ok i) (List.range n)
  rw [List.length_range] at h
  rw [h]
  simp

/-- A request that is sent is entered, and one that is not is forgotten. -/
theorem request_ledger (e : Env) (now : Nat) (ok : Nat → Bool) (op : CldMsgOp) (body : Bytes)
    (cb : MsgCb) (appCb : Option Int) (sess : CldcSession) :
    (sess.request e now ok op body cb appCb).2.freed = sess.freed ∧
    if ∀ i < nPkts body.length, ok i = true then
      (sess.request e now ok op body cb appCb).1 = 0 ∧
        (sess.request e now ok op body cb appCb).2.ledger =
          { sess.ledger with
            entries := (sess.msgs, false) :: sess.ledger.entries, next := sess.msgs + 1 }
    else
      (sess.request e now ok op body cb appCb).1 = -eio ∧
        (sess.request e now ok op body cb appCb).2.ledger =
          { sess.ledger with next := sess.msgs + 1 } := by
  have hpkts := sessSendPkts_eq e sess.sid sess.user sess.key_ne_nil sess.nextSeqidOut
    (cldRand64 e sess.rnd) op body
  have hlen : (signedPkts e sess.secretKey sess.user sess.sid sess.nextSeqidOut
      (cldcParts (cldRand64 e sess.rnd) op body)).length = nPkts body.length := by
    rw [signedPkts_length, cldcParts, List.length_map, List.length_range, nPkts]
  unfold CldcSession.request
  simp only [hpkts, List.length_map, hlen]
  by_cases hok : ∀ i < nPkts body.length, ok i = true
  · rw [if_pos hok, if_neg (findIdx_range_lt.not.mpr (not_not.mpr hok))]
    exact ⟨rfl, rfl, rfl⟩
  · rw [if_neg hok, if_pos (findIdx_range_lt.mpr hok)]
    exact ⟨rfl, rfl, rfl⟩

/-- The body of a `CMO_PUT`. -/
def putBody (fh : Nat) (data : Bytes) : Bytes :=
  Xdr.putHyper fh ++ (Xdr.putVar cldMaxPayloadSz data).getD []

/-- A `cldc_put` that is not refused, some packet of which cannot be sent. -/
def CldcSession.putFails (sess : CldcSession) (ok : Nat → Bool) : Call → Prop
  | .put id data => data ≠ [] ∧ data.length ≤ cldMaxPayloadSz ∧
      ∃ fh ∈ sess.handle id, ∃ i < nPkts (putBody fh.fh data).length, ok i = false
  | _ => False

/-- All packets of a message with this body are sent. -/
def SendsAll (ok : Nat → Bool) (body : Bytes) : Prop := ∀ i < nPkts body.length, ok i = true

/-- The call passes its checks and is sent, which `cldc_put` does not look at. -/
def CldcSession.accepts (sess : CldcSession) (ok : Nat → Bool) : Call → Prop
  | .endSess | .nop => sess.confirmed = true ∧ SendsAll ok []
  | .del pathname => sess.confirmed = true ∧ ∃ name ∈ putPathname pathname, SendsAll ok name
  | .open pathname mode events => sess.confirmed = true ∧ ∃ name ∈ putPathname pathname,
      SendsAll ok (Xdr.putInt mode ++ Xdr.putInt events ++ name)
  | .close id => sess.expired = false ∧ ∃ fh ∈ sess.handle id, SendsAll ok (Xdr.putHyper fh.fh)
  | .lock id flags _ => ∃ fh ∈ sess.handle id, SendsAll ok (Xdr.putHyper fh.fh ++ Xdr.putInt flags)
  | .unlock id | .get id _ => ∃ fh ∈ sess.handle id, SendsAll ok (Xdr.putHyper fh.fh)
  | .put id data => data ≠ [] ∧ data.length ≤ cldMaxPayloadSz ∧ (sess.handle id).isSome = true

/-- What a call does to the ledger of messages: with the result 0 it enters one, unless it is a
`cldc_put` that fails. -/
inductive Entered (sess : CldcSession) (ok : Nat → Bool) (c : Call) (r : Int × CldcSession) : Prop where
  | kept (hrc : r.1 ≠ 0) (h : r.2.ledger = sess.ledger)
  | skipped (hrc : r.1 ≠ 0) (h : r.2.ledger = { sess.ledger with next := sess.msgs + 1 })
  | entered (hrc : r.1 = 0) (h : r.2.ledger = { sess.ledger with
      entries := (sess.msgs, false) :: sess.ledger.entries, next := sess.msgs + 1 })
  | forgotten (hput : sess.putFails ok c) (hrc : r.1 = 0)
      (h : r.2.ledger = { sess.ledger with next := sess.msgs + 1 })

theorem einval_ne_zero : (-einval : Int) ≠ 0 := by decide

theorem epipe_ne_zero : (-epipe : Int) ≠ 0 := by decide

section

variable (e : Env) (now : Nat) (ok : Nat → Bool) (appCb : Option Int) (sess : CldcSession) (c : Call)

/-- A request from a session that differs in other things. -/
theorem request_entered {t : CldcSession} (ht : t.ledger = sess.ledger) (hf : t.freed = sess.freed)
    (op : CldMsgOp) (body : Bytes) (cb : MsgCb) :
    (t.request e now ok op body cb appCb).2.freed = sess.freed ∧
      Entered sess ok c (t.request e now ok op body cb appCb) := by
  obtain ⟨hfreed, hled⟩ := request_ledger e now ok op body cb appCb t
  have hmsgs : t.msgs = sess.msgs := congrArg Ledger.next ht
  rw [ht, hmsgs] at hled
  refine ⟨hfreed.trans hf, ?_⟩
  split at hled
  · exact .entered hled.1 hled.2
  · exact .skipped (by rw [hled.1]; decide) hled.2

theorem onHandle_entered (id : Nat) (op : CldMsgOp) (body : Nat → Bytes) (cb : MsgCb) :
    (sess.onHandle e now ok appCb id op body cb).2.freed = sess.freed ∧
      Entered sess ok c (sess.onHandle e now ok appCb id op body cb) := by
  unfold CldcSession.onHandle
  split
  · exact ⟨rfl, .kept einval_ne_zero rfl⟩
  · exact request_entered e now ok appCb sess c (by rfl) (by rfl) _ _ _

theorem call_entered :
    (sess.call e now ok appCb c).2.freed = sess.freed ∧
      Entered sess ok c (sess.call e now ok appCb c) := by
  have hinval : sess.freed = sess.freed ∧ Entered sess ok c (-einval, sess) :=
    ⟨rfl, .kept einval_ne_zero rfl⟩
  cases c with
  | endSess | nop =>
    simp only [CldcSession.call]
    split
    · exact hinval
    · exact request_entered e now ok appCb sess _ (by rfl) (by rfl) _ _ _
  | del pathname =>
    simp only [CldcSession.call]
    split
    · exact hinval
    · split
      · exact hinval
      · exact request_entered e now ok appCb sess _ (by rfl) (by rfl) _ _ _
  | «open» pathname mode events =>
    simp only [CldcSession.call]
    split
    · exact hinval
    · split
      · exact hinval
      · exact request_entered e now ok appCb sess _ (by rfl) (by rfl) _ _ _
  | close id =>
    simp only [CldcSession.call]
    split
    · exact hinval
    · split
      · exact ⟨rfl, .kept epipe_ne_zero rfl⟩
      · exact request_entered e now ok appCb sess _ (by rfl) (by rfl) _ _ _
  | lock id flags wait =>
    simp only [CldcSession.call]
    exact onHandle_entered e now ok appCb sess _ id _ _ _
  | unlock id =>
    simp only [CldcSession.call]
    exact onHandle_entered e now ok appCb sess _ id _ _ _
  | get id metadataOnly =>
    simp only [CldcSession.call]
    exact onHandle_entered e now ok appCb sess _ id _ _ _
  | put id data =>
    simp only [CldcSession.call]
    split
    · exact hinval
    · next hdata =>
      split
      · exact hinval
      · next fh hfh =>
        obtain ⟨hfreed, hled⟩ := request_ledger e now ok .put (putBody fh.fh data) .generic appCb sess
        refine ⟨hfreed, ?_⟩
        split at hled
        · exact .entered rfl hled.2
        · next hok =>
          rw [not_or, not_lt] at hdata
          refine .forgotten ⟨hdata.1, hdata.2, fh, hfh, ?_⟩ rfl hled.2
          simpa using hok

end

theorem request_zero (e : Env) (now : Nat) (ok : Nat → Bool) (op : CldMsgOp) (body : Bytes)
    (cb : MsgCb) (appCb : Option Int) (sess : CldcSession) :
    (sess.request e now ok op body cb appCb).1 = 0 ↔ SendsAll ok body := by
  have hled := (request_ledger e now ok op body cb appCb sess).2
  split at hled
  · next h => exact ⟨fun _ => h, fun _ => hled.1⟩
  · next h =>
    rw [hled.1]
    exact ⟨fun hz => absurd hz (by decide), fun hs => absurd hs h⟩

theorem onHandle_zero (e : Env) (now : Nat) (ok : Nat → Bool) (appCb : Option Int) (sess : CldcSession)
    (id : Nat) (op : CldMsgOp) (body : Nat → Bytes) (cb : MsgCb) :
    (sess.onHandle e now ok appCb id op body cb).1 = 0 ↔
      ∃ fh ∈ sess.handle id, SendsAll ok (body fh.fh) := by
  unfold CldcSession.onHandle
  cases sess.handle id with
  | none => simp [einval]
  | some fh => simp [request_zero]

/-- A call returns 0 if and only if it is accepted. -/
theorem call_zero (e : Env) (now : Nat) (ok : Nat → Bool) (appCb : Option Int) (sess : CldcSession)
    (c : Call) : (sess.call e now ok appCb c).1 = 0 ↔ sess.accepts ok c := by
  cases c with
  | endSess | nop =>
    cases hc : sess.confirmed <;>
      simp [CldcSession.call, CldcSession.accepts, hc, request_zero, einval]
  | del pathname | «open» pathname mode events =>
    cases hc : sess.confirmed <;> cases hp : putPathname pathname <;>
      simp [CldcSession.call, CldcSession.accepts, hc, hp, request_zero, einval]
  | close id =>
    cases hx : sess.expired <;> cases hf : sess.handle id <;>
      simp [CldcSession.call, CldcSession.accepts, hx, hf, request_zero, einval, epipe]
  | lock id flags wait =>
    simp only [CldcSession.call, CldcSession.accepts]
    exact onHandle_zero e now ok appCb sess id _ _ _
  | unlock id =>
    simp only [CldcSession.call, CldcSession.accepts]
    exact onHandle_zero e now ok appCb sess id _ _ _
  | get id metadataOnly =>
    simp only [CldcSession.call, CldcSession.accepts]
    exact onHandle_zero e now ok appCb sess id _ _ _
  | put id data =>
    simp only [CldcSession.call, CldcSession.accepts]
    by_cases hdata : data = [] ∨ cldMaxPayloadSz < data.length
    · rw [if_pos hdata]
      refine iff_of_false einval_ne_zero fun h => ?_
      exact hdata.elim h.1 (not_lt.mpr h.2.1)
    · rw [if_neg hdata]
      rw [not_or, not_lt] at hdata
      cases hf : sess.handle id with
      | none => exact iff_of_false einval_ne_zero (by simp)
      | some fh => exact iff_of_true rfl ⟨hdata.1, hdata.2, rfl⟩

/-- A callback is made, and frees the session if it is to. -/
theorem runCb_ledger (sess : CldcSession) (msg : CldcMsg) (resp : Bytes) (code : Nat) :
    (sess.runCb msg resp code).2.ledger =
        { sess.ledger with settled := sess.ledger.settled ++ [msg.num] } ∧
      ((sess.runCb msg resp code).2.freed = true ↔ sess.freed = true ∨ msg.frees) := by
  have hled : ({ sess with calls := sess.calls ++ [(msg.num, code)] } : CldcSession).ledger =
      { sess.ledger with settled := sess.ledger.settled ++ [msg.num] } := by
    simp [CldcSession.ledger]
  rw [← hled]
  unfold CldcSession.runCb CldcMsg.frees
  dsimp only
  split
  · next h => split <;> exact ⟨rfl, by simp [h]⟩
  · next h =>
    split
    · next hcb => exact ⟨rfl, by simp [h, hcb]⟩
    · next hcb => exact ⟨rfl, by simp [hcb]⟩
  · next h => exact ⟨rfl, by simp [h]⟩
  · next h =>
    split
    · split <;> exact ⟨rfl, by simp [h, CldcSession.setFh]⟩
    · exact ⟨rfl, by simp [h]⟩
  · next h => split <;> exact ⟨rfl, by simp [h]⟩
  · next h => split <;> exact ⟨rfl, by simp [h]⟩

theorem ackSeqid_ledger (e : Env) (ok : Bool) (sess : CldcSession) (seqid : Nat) :
    (sess.ackSeqid e ok seqid).2.ledger = sess.ledger ∧
      (sess.ackSeqid e ok seqid).2.freed = sess.freed := by
  unfold CldcSession.ackSeqid
  split
  · exact ⟨rfl, rfl⟩
  · split <;> exact ⟨rfl, rfl⟩

/-- The request that `rxmsg_generic` completes for a response. -/
def CldcSession.answered (sess : CldcSession) (resp : Bytes) : Option CldcMsg := do
  let ((_, xidIn), _) ← getGeneric resp
  let req ← sess.outMsg.find? fun msg => msg.xid = xidIn
  guard !req.done
  return req

theorem answered_due {sess : CldcSession} {resp : Bytes} {req : CldcMsg}
    (h : sess.answered resp = some req) : req ∈ sess.outMsg ∧ req.done = false := by
  simp only [CldcSession.answered, Option.bind_eq_bind, Option.bind_eq_some_iff, Option.pure_def,
    Option.some.injEq] at h
  obtain ⟨r, -, msg, hfind, _, hdone, rfl⟩ := h
  refine ⟨List.mem_of_find?_eq_some hfind, ?_⟩
  simpa [guard] using hdone

theorem rxmsgGeneric_ledger (e : Env) (ok : Bool) (sess : CldcSession) (seqid : Nat) :
    (sess.answered sess.msgBuf = none ∧ (sess.rxmsgGeneric e ok seqid).2.ledger = sess.ledger ∧
      (sess.rxmsgGeneric e ok seqid).2.freed = sess.freed) ∨
    ∃ req, sess.answered sess.msgBuf = some req ∧
      (sess.rxmsgGeneric e ok seqid).2.ledger =
        { sess.ledger with
          entries := sess.ledger.entries.map (Ledger.settleAt req.num)
          settled := sess.ledger.settled ++ [req.num] } ∧
      ((sess.rxmsgGeneric e ok seqid).2.freed = true ↔ sess.freed = true ∨ req.frees) := by
  unfold CldcSession.rxmsgGeneric CldcSession.answered
  cases hgen : getGeneric sess.msgBuf with
  | none => exact .inl ⟨rfl, rfl, rfl⟩
  | some r =>
    obtain ⟨⟨code, xidIn⟩, rest⟩ := r
    cases hfind : sess.outMsg.find? fun msg => msg.xid = xidIn with
    | none => exact .inl ⟨by simp [hfind], by simp [hfind], by simp [hfind]⟩
    | some req =>
      cases hdone : req.done with
      | true =>
        obtain ⟨hled, hfreed⟩ := ackSeqid_ledger e ok sess seqid
        simp only [hfind, hdone, if_true]
        exact .inl ⟨by simp [hfind, hdone, guard, failure], hled, hfreed⟩
      | false =>
        refine .inr ⟨req, by simp [hfind, hdone, guard], ?_⟩
        simp only [hfind, hdone, Bool.false_eq_true, if_false]
        set marked : CldcSession := { sess with outMsg := sess.outMsg.map fun msg =>
          if msg.num = req.num then { msg with done := true } else msg } with hmarked
        have hled : marked.ledger = { sess.ledger with
            entries := sess.ledger.entries.map (Ledger.settleAt req.num) } := by
          simp only [CldcSession.ledger, hmarked, List.map_map, Ledger.mk.injEq, and_true]
          refine List.map_congr_left fun msg _ => ?_
          simp only [Function.comp_apply, Ledger.settleAt]
          split <;> rfl
        obtain ⟨hcb, hfree⟩ := runCb_ledger marked req sess.msgBuf code
        rw [hled] at hcb
        split
        · exact ⟨hcb, hfree⟩
        · obtain ⟨hack, hkeep⟩ := ackSeqid_ledger e ok (marked.runCb req sess.msgBuf code).2 seqid
          exact ⟨hack.trans hcb, hkeep ▸ hfree⟩

/-- A message that is a response, to `rx_complete`. -/
def isResponse : CldMsgOp → Bool
  | .ack | .ping | .notMaster | .event | .ackFrag => false
  | _ => true

theorem rxmsgAckFrag_ledger (stray : Nat → Nat → Nat) (sess : CldcSession) :
    (sess.rxmsgAckFrag stray).2.ledger = sess.ledger ∧
      (sess.rxmsgAckFrag stray).2.freed = sess.freed := by
  unfold CldcSession.rxmsgAckFrag
  split
  · exact ⟨rfl, rfl⟩
  · refine ⟨?_, rfl⟩
    simp [CldcSession.ledger, Function.comp_def]

theorem rxmsgEvent_ledger (sess : CldcSession) :
    sess.rxmsgEvent.2.ledger = sess.ledger ∧ sess.rxmsgEvent.2.freed = sess.freed := by
  unfold CldcSession.rxmsgEvent
  dsimp only
  split
  · exact ⟨rfl, rfl⟩
  · split <;> exact ⟨rfl, rfl⟩

/-- A complete message settles the request it answers, if it is a response. -/
theorem rxComplete_ledger (e : Env) (ok : Bool) (stray : Nat → Nat → Nat) (sess : CldcSession)
    (seqid : Nat) :
    ((sess.rxComplete e ok stray seqid).2.ledger = sess.ledger ∧
      (sess.rxComplete e ok stray seqid).2.freed = sess.freed) ∨
    ∃ req, isResponse sess.msgBufOp = true ∧ sess.answered sess.msgBuf = some req ∧
      (sess.rxComplete e ok stray seqid).2.ledger =
        { sess.ledger with
          entries := sess.ledger.entries.map (Ledger.settleAt req.num)
          settled := sess.ledger.settled ++ [req.num] } ∧
      ((sess.rxComplete e ok stray seqid).2.freed = true ↔ sess.freed = true ∨ req.frees) := by
  cases hop : isResponse sess.msgBufOp with
  | false =>
    left
    unfold CldcSession.rxComplete
    split
    · exact ⟨rfl, rfl⟩
    · exact ackSeqid_ledger ..
    · exact ⟨rfl, rfl⟩
    · exact rxmsgEvent_ledger sess
    · exact rxmsgAckFrag_ledger stray sess
    · next h1 h2 h3 h4 h5 => cases hm : sess.msgBufOp <;> simp_all [isResponse]
  | true =>
    have hgen : sess.rxComplete e ok stray seqid = sess.rxmsgGeneric e ok seqid := by
      unfold CldcSession.rxComplete
      cases hm : sess.msgBufOp <;> simp_all [isResponse]
    rw [hgen]
    rcases rxmsgGeneric_ledger e ok sess seqid with ⟨-, h⟩ | ⟨req, h⟩
    · exact .inl h
    · exact .inr ⟨req, rfl, h⟩

/-! ## Packets and the timer -/

/-- What `cldc_receive_pkt` has read of a packet that passes its checks. -/
def CldcSession.admits (e : Env) (netAddr raw : Bytes) (sess : CldcSession) :
    Option (CldPktMsgInfo × Bytes) :=
  if raw.length < cldPktFtrLen then none
  else
    match CldPktHdr.decode (raw.take (raw.length - cldPktFtrLen)) with
    | none => none
    | some (pkt, chunk) =>
      if pkt.magic ≠ ofLe cldPktMagic then none
      else if !footCheck e (cldcUserKey sess.user.name sess.secretKey pkt.user) raw then none
      else if sess.addr ≠ netAddr then none
      else some (pkt.mi, chunk)

theorem receive_admits (e : Env) (now : Nat) (ok : Bool) (stray : Nat → Nat → Nat)
    (netAddr raw : Bytes) (sess : CldcSession) :
    (sess.admits e netAddr raw = none ∧ (cldcReceivePkt e now ok stray netAddr raw sess).2 = sess) ∨
    ∃ mi chunk, sess.admits e netAddr raw = some (mi, chunk) ∧
      cldcReceivePkt e now ok stray netAddr raw sess =
        sess.rxPkt e now ok stray mi chunk (footSeqid raw) := by
  unfold CldcSession.admits cldcReceivePkt
  by_cases hlen : raw.length < cldPktFtrLen
  · simp [hlen]
  · simp only [hlen, if_false]
    cases hdec : CldPktHdr.decode (raw.take (raw.length - cldPktFtrLen)) with
    | none => simp
    | some r =>
      obtain ⟨pkt, chunk⟩ := r
      by_cases hmagic : pkt.magic = ofLe cldPktMagic
      · cases hsig : footCheck e (cldcUserKey sess.user.name sess.secretKey pkt.user) raw with
        | false => simp [hmagic, hsig]
        | true =>
          by_cases haddr : sess.addr = netAddr
          · exact .inr ⟨pkt.mi, chunk, by simp [hmagic, hsig, haddr], by simp [hmagic, hsig, haddr]⟩
          · simp [hmagic, hsig, haddr]
      · simp [hmagic]

/-- The messages that the scan at the beginning of `cldc_receive_pkt` leaves. -/
def CldcSession.scanned (sess : CldcSession) (now : Nat) : List CldcMsg :=
  if sess.msgScanTime ≤ now then sess.outMsg.filter fun msg => ¬ msg.expireTime < now else sess.outMsg

theorem scanned_sublist (sess : CldcSession) (now : Nat) :
    (sess.scanned now).Sublist sess.outMsg := by
  unfold CldcSession.scanned
  split
  · exact List.filter_sublist
  · exact .refl _

theorem begun_outMsg (sess : CldcSession) (now : Nat) (mi : CldPktMsgInfo) :
    (sess.begun now mi).outMsg = sess.scanned now ∧
      (sess.begun now mi).ledger =
        { sess.ledger with entries := (sess.scanned now).map fun msg => (msg.num, msg.done) } ∧
      (sess.begun now mi).freed = sess.freed := by
  unfold CldcSession.begun CldcSession.scanned
  split <;> exact ⟨rfl, rfl, rfl⟩

/-- What a packet completes: the request answered by the message of which it is the last packet. -/
def CldcSession.settles (sess : CldcSession) (now : Nat) (mi : CldPktMsgInfo) (chunk : Bytes)
    (seqid : Nat) : Option CldcMsg := do
  let (op, resp) ← sess.completes mi chunk seqid
  guard (isResponse op)
  (sess.begun now mi).answered resp

/-- A packet scans the ledger and settles a request at most. -/
theorem rxPkt_ledger (e : Env) (now : Nat) (ok : Bool) (stray : Nat → Nat → Nat) (sess : CldcSession)
    (mi : CldPktMsgInfo) (chunk : Bytes) (seqid : Nat) :
    ((sess.rxPkt e now ok stray mi chunk seqid).2.ledger = (sess.begun now mi).ledger ∧
      (sess.rxPkt e now ok stray mi chunk seqid).2.freed = sess.freed) ∨
    ∃ req, sess.settles now mi chunk seqid = some req ∧
      req ∈ sess.scanned now ∧ req.done = false ∧
      (sess.rxPkt e now ok stray mi chunk seqid).2.ledger =
        { (sess.begun now mi).ledger with
          entries := (sess.begun now mi).ledger.entries.map (Ledger.settleAt req.num)
          settled := sess.ledger.settled ++ [req.num] } ∧
      ((sess.rxPkt e now ok stray mi chunk seqid).2.freed = true ↔ sess.freed = true ∨ req.frees) := by
  obtain ⟨hout, hled, hfreed⟩ := begun_outMsg sess now mi
  have hcase := rxPkt_cases e now ok stray sess mi chunk seqid
  generalize sess.rxPkt e now ok stray mi chunk seqid = r at hcase ⊢
  cases hcase with
  | refused h => exact .inl ⟨rfl, hfreed⟩
  | tooLong h hlen => exact .inl ⟨rfl, hfreed⟩
  | @taken w h hlen =>
    have htaken : (sess.taken now mi chunk w).ledger = (sess.begun now mi).ledger := rfl
    cases hl : mi.isLast with
    | false =>
      obtain ⟨hack, hkeep⟩ := ackSeqid_ledger e ok (sess.taken now mi chunk w) seqid
      simp only [Bool.false_eq_true, if_false]
      exact .inl ⟨hack.trans htaken, hkeep.trans hfreed⟩
    | true =>
      simp only [if_true]
      have hcomp : sess.completes mi chunk seqid = some (sess.opOf mi, sess.kept mi ++ chunk) := by
        simp [CldcSession.completes, h, hlen, hl]
      have hbuf : (sess.taken now mi chunk w).msgBuf = sess.kept mi ++ chunk := rfl
      have hop : (sess.taken now mi chunk w).msgBufOp = sess.opOf mi := rfl
      rcases rxComplete_ledger e ok stray (sess.taken now mi chunk w) seqid with
        ⟨h1, h2⟩ | ⟨req, hresp, hans, h1, h2⟩
      · exact .inl ⟨h1, h2.trans hfreed⟩
      · rw [hop] at hresp
        rw [hbuf] at hans
        have hans' : (sess.begun now mi).answered (sess.kept mi ++ chunk) = some req := hans
        have hdue := answered_due hans'
        rw [hout] at hdue
        refine .inr ⟨req, by simp [CldcSession.settles, hcomp, guard, hresp, hans'], hdue.1, hdue.2,
          ?_, ?_⟩
        · have hsettled : (sess.begun now mi).ledger.settled = sess.ledger.settled := by rw [hled]
          rw [h1, htaken, hsettled]
        · rw [h2]
          change (sess.begun now mi).freed = true ∨ _ ↔ _
          rw [hfreed]

/-! ## Clients -/

/-- A call as an application makes it. -/
structure AppCall where
  now : Nat
  ok : Nat → Bool
  appCb : Option Int
  call : Call

/-- A session, with the numbers of the messages of the calls that have returned 0. -/
structure Client where
  sess : CldcSession
  accepted : List Nat

/-- `told` says which calls the callback of a message makes when the message is dropped. Those that a
callback makes when it is told of a response are calls after the packet, of which only its
acknowledgement is left by then. -/
inductive ClientEvent where
  | call (c : AppCall)
  | timer (now : Nat) (ok : Nat → Bool) (told : Nat → List AppCall)
  | receive (now : Nat) (ok : Bool) (stray : Nat → Nat → Nat) (netAddr raw : Bytes)

def Client.call (e : Env) (w : Client) (c : AppCall) : Client where
  sess := (w.sess.call e c.now c.ok c.appCb c.call).2
  accepted := w.accepted ++
    if (w.sess.call e c.now c.ok c.appCb c.call).1 = 0 then [w.sess.msgs] else []

/-- The calls made when a message is dropped that has not been answered. -/
def CldcMsg.calls (told : Nat → List AppCall) (msg : CldcMsg) : List AppCall :=
  if msg.appCb.isSome then told msg.num else []

/-- The callback of a message that is dropped. -/
def Client.timeOut (e : Env) (told : Nat → List AppCall) (w : Client) (msg : CldcMsg) : Client :=
  if msg.done then w
  else
    run (Client.call e) { w with sess := (w.sess.runCb msg [] CleErrCodes.timeout.toNat).2 }
      (msg.calls told)

/-- `sess_msg_drop` of the messages `msgs`, as `CldcSession.drop`, with what the callbacks ask for. The
list is emptied at the end, whatever was added to it meanwhile. -/
def Client.drop (e : Env) (told : Nat → List AppCall) (w : Client) : List CldcMsg → Client
  | [] => { w with sess := { w.sess with outMsg := [] } }
  | msg :: msgs =>
    let w := w.timeOut e told msg
    if w.sess.freed then { w with sess := { w.sess with outMsg := [] } } else Client.drop e told w msgs

/-- `sess_expire` -/
def Client.expire (e : Env) (told : Nat → List AppCall) (w : Client) : Client :=
  let w := Client.drop e told { w with sess := { w.sess with expired := true } } w.sess.outMsg
  { w with sess := { w.sess with events := w.sess.events ++ [(none, ceSessFailed)] } }

/-- A step. Nothing happens any more to a session that has been freed. -/
def Client.step (e : Env) (w : Client) (ev : ClientEvent) : Client :=
  if w.sess.freed then w
  else
    match ev with
    | .call c => w.call e c
    | .timer now ok told =>
      if w.sess.expireTime < now then w.expire e told else { w with sess := w.sess.timer now ok }
    | .receive now ok stray netAddr raw =>
      { w with sess := (cldcReceivePkt e now ok stray netAddr raw w.sess).2 }

/-! ## Messages that are dropped -/

/-- The messages that are not done, by their numbers. -/
def undone (msgs : List CldcMsg) : List Nat := (msgs.filter fun msg => !msg.done).map CldcMsg.num

theorem ledger_due (sess : CldcSession) : sess.ledger.due = undone sess.outMsg := by
  simp [Ledger.due, CldcSession.ledger, undone, List.filter_map, Function.comp_def]

/-- Only this message is not done. -/
def Alone (msgs : List CldcMsg) (msg : CldcMsg) : Prop := ∀ m ∈ msgs, m.done = false → m.num = msg.num

theorem Alone.tail {msgs : List CldcMsg} {m msg : CldcMsg} (h : Alone (m :: msgs) msg) :
    Alone msgs msg :=
  fun x hx => h x (List.mem_cons_of_mem _ hx)

/-- A message that frees the session is the only one of its list that is not done. -/
def FreedLast (msgs : List CldcMsg) : Prop :=
  ∀ msg ∈ msgs, msg.done = false → msg.frees → Alone msgs msg

theorem FreedLast.tail {msgs : List CldcMsg} {msg : CldcMsg} (h : FreedLast (msg :: msgs)) :
    FreedLast msgs :=
  fun m hm hd hf => (h m (List.mem_cons_of_mem _ hm) hd hf).tail

/-- The calls of callbacks settle nothing. -/
theorem calls_settled (e : Env) (w : Client) (cs : List AppCall) :
    (run (Client.call e) w cs).sess.ledger.settled = w.sess.ledger.settled ∧
      w.sess.msgs ≤ (run (Client.call e) w cs).sess.msgs ∧
      (run (Client.call e) w cs).sess.freed = w.sess.freed := by
  refine run_invariant (I := fun v : Client => v.sess.ledger.settled = w.sess.ledger.settled ∧
    w.sess.msgs ≤ v.sess.msgs ∧ v.sess.freed = w.sess.freed) ⟨rfl, le_rfl, rfl⟩ (fun v c hv => ?_) cs
  obtain ⟨hfreed, hent⟩ := call_entered e c.now c.ok c.appCb v.sess c.call
  obtain ⟨hs, hm, hf⟩ := hv
  have hstep : (v.call e c).sess.ledger.settled = v.sess.ledger.settled ∧
      v.sess.msgs ≤ (v.call e c).sess.ledger.next := by
    change (v.sess.call e c.now c.ok c.appCb c.call).2.ledger.settled = _ ∧
      _ ≤ (v.sess.call e c.now c.ok c.appCb c.call).2.ledger.next
    cases hent with
    | kept hrc hl =>
      rw [hl]
      exact ⟨rfl, le_rfl⟩
    | skipped hrc hl | entered hrc hl | forgotten hput hrc hl =>
      rw [hl]
      exact ⟨rfl, Nat.le_succ _⟩
  exact ⟨hstep.1.trans hs, hm.trans hstep.2, hfreed.trans hf⟩

/-- The calls of callbacks that are not accepted. -/
theorem calls_accepted (e : Env) {w : Client} {cs : List AppCall}
    (h : Meets (Client.call e) (fun w c => ¬ w.sess.accepts c.ok c.call) w cs) :
    (run (Client.call e) w cs).accepted = w.accepted := by
  refine h.invariant (I := fun v : Client => v.accepted = w.accepted) rfl fun v c hv hc => ?_
  simp [Client.call, call_zero, hc, hv]

/-- The messages dropped are settled unless they are already, up to one that frees the session. -/
theorem drop_ledger (e : Env) (told : Nat → List AppCall) {w : Client} (hnf : w.sess.freed = false)
    (msgs : List CldcMsg) :
    ∃ ns next, ns.Sublist (undone msgs) ∧ w.sess.msgs ≤ next ∧
      (w.drop e told msgs).sess.ledger = ⟨[], w.sess.ledger.settled ++ ns, next⟩ ∧
      ((msgs.map CldcMsg.num).Nodup → FreedLast msgs → ns = undone msgs) := by
  induction msgs generalizing w with
  | nil =>
    refine ⟨[], w.sess.msgs, .refl _, le_rfl, ?_, fun _ _ => rfl⟩
    simp [Client.drop, CldcSession.ledger]
  | cons msg msgs ih =>
    cases hdone : msg.done with
    | true =>
      have hsame : w.timeOut e told msg = w := by simp [Client.timeOut, hdone]
      have hskip : undone (msg :: msgs) = undone msgs := by simp [undone, hdone]
      obtain ⟨ns, next, hsub, hnext, hled, hall⟩ := ih hnf
      simp only [Client.drop, hsame, hnf, Bool.false_eq_true, if_false]
      rw [hskip]
      exact ⟨ns, next, hsub, hnext, hled, fun hnd hlast => hall (List.nodup_cons.mp hnd).2 hlast.tail⟩
    | false =>
      obtain ⟨hcb, hcbf⟩ := runCb_ledger w.sess msg [] CleErrCodes.timeout.toNat
      have hcons : undone (msg :: msgs) = msg.num :: undone msgs := by simp [undone, hdone]
      obtain ⟨hsettled, hmsgs, hfreed⟩ := calls_settled e
        { w with sess := (w.sess.runCb msg [] CleErrCodes.timeout.toNat).2 } (msg.calls told)
      set v := run (Client.call e) { w with sess := (w.sess.runCb msg [] CleErrCodes.timeout.toNat).2 }
        (msg.calls told) with hv
      have hout : w.timeOut e told msg = v := by simp [Client.timeOut, hdone, hv]
      have hmsgs' : w.sess.msgs ≤ v.sess.msgs := (congrArg Ledger.next hcb).symm.trans_le hmsgs
      have hsettled' : v.sess.ledger.settled = w.sess.ledger.settled ++ [msg.num] :=
        hsettled.trans (congrArg Ledger.settled hcb)
      simp only [Client.drop, hout]
      rw [hcons]
      cases hfree : v.sess.freed with
      | true =>
        have hfrees : msg.frees := (hcbf.mp (hfreed ▸ hfree)).resolve_left (by simp [hnf])
        refine ⟨[msg.num], v.sess.msgs, by simp, hmsgs', ?_, fun hnd hlast => ?_⟩
        · simp only [if_true]
          rw [← hsettled']
          rfl
        · -- the others, with other numbers, are done
          have hnone : undone msgs = [] := by
            simp only [undone, List.map_eq_nil_iff, List.filter_eq_nil_iff, Bool.not_eq_true',
              Bool.not_eq_false]
            intro m hm
            by_contra hd
            have hnum := hlast msg (by simp) hdone hfrees m (List.mem_cons_of_mem _ hm)
              (by simpa using hd)
            rw [List.map_cons, List.nodup_cons] at hnd
            exact hnd.1 (hnum ▸ List.mem_map_of_mem hm)
          rw [hnone]
      | false =>
        obtain ⟨ns, next, hsub, hnext, hled, hall⟩ := ih hfree
        simp only [Bool.false_eq_true, if_false]
        refine ⟨msg.num :: ns, next, hsub.cons_cons _, hmsgs'.trans hnext, ?_, fun hnd hlast => ?_⟩
        · rw [hled, hsettled', List.append_assoc, List.singleton_append]
        · rw [hall (List.nodup_cons.mp hnd).2 hlast.tail]

/-- No call is accepted that a callback makes while these messages are dropped. -/
def Client.Quiet (e : Env) (told : Nat → List AppCall) (w : Client) : List CldcMsg → Prop
  | [] => True
  | msg :: msgs =>
    (msg.done = false →
      Meets (Client.call e) (fun w c => ¬ w.sess.accepts c.ok c.call)
        { w with sess := (w.sess.runCb msg [] CleErrCodes.timeout.toNat).2 } (msg.calls told)) ∧
    ((w.timeOut e told msg).sess.freed = false → Client.Quiet e told (w.timeOut e told msg) msgs)

theorem drop_accepted (e : Env) (told : Nat → List AppCall) {w : Client} {msgs : List CldcMsg}
    (h : w.Quiet e told msgs) : (w.drop e told msgs).accepted = w.accepted := by
  induction msgs generalizing w with
  | nil => rfl
  | cons msg msgs ih =>
    obtain ⟨hcalls, hrest⟩ := h
    have hone : (w.timeOut e told msg).accepted = w.accepted := by
      unfold Client.timeOut
      split
      · rfl
      · next hd => exact calls_accepted e (hcalls (by simpa using hd))
    rw [Client.drop]
    dsimp only
    split
    · exact hone
    · next hnf => rw [ih (hrest (by simpa using hnf)), hone]

/-- A session that expires closes its ledger. -/
theorem expire_ledger (e : Env) (told : Nat → List AppCall) {w : Client} (hnf : w.sess.freed = false) :
    ∃ ns next, ns.Sublist w.sess.ledger.due ∧ w.sess.msgs ≤ next ∧
      (w.expire e told).sess.ledger = ⟨[], w.sess.ledger.settled ++ ns, next⟩ ∧
      (w.sess.ledger.Sound → FreedLast w.sess.outMsg → ns = w.sess.ledger.due) := by
  set v : Client := { w with sess := { w.sess with expired := true } } with hv
  obtain ⟨ns, next, hsub, hnext, hled, hall⟩ := drop_ledger e told (w := v) hnf w.sess.outMsg
  rw [ledger_due]
  refine ⟨ns, next, hsub, hnext, hled, fun hs hlast => hall ?_ hlast⟩
  have hnd := hs.nodup
  simpa [CldcSession.ledger, Function.comp_def] using hnd

/-- A timer that does not find the session expired. -/
theorem timer_ledger {sess : CldcSession} {now : Nat} (ok : Nat → Bool)
    (h : ¬ sess.expireTime < now) :
    (sess.timer now ok).ledger = sess.ledger ∧ (sess.timer now ok).freed = sess.freed := by
  have hretry : ∀ msg : CldcMsg, msg.retry.num = msg.num ∧ msg.retry.done = msg.done := by
    intro msg
    unfold CldcMsg.retry
    split <;> exact ⟨rfl, rfl⟩
  unfold CldcSession.timer
  rw [if_neg h]
  simp [CldcSession.ledger, CldcSession.sendPkts, Function.comp_def, hretry]

theorem drop_plain (e : Env) {told : Nat → List AppCall} (h : ∀ n, told n = []) (w : Client)
    (msgs : List CldcMsg) : w.drop e told msgs = { w with sess := w.sess.drop msgs } := by
  have hcalls : ∀ msg : CldcMsg, msg.calls told = [] := by
    intro msg
    simp [CldcMsg.calls, h]
  induction msgs generalizing w with
  | nil => rfl
  | cons msg msgs ih =>
    have hone : w.timeOut e told msg = { w with
        sess := if msg.done then w.sess else (w.sess.runCb msg [] CleErrCodes.timeout.toNat).2 } := by
      unfold Client.timeOut
      rw [hcalls]
      split <;> rfl
    rw [Client.drop, CldcSession.drop, hone]
    dsimp only
    generalize (if msg.done then w.sess
      else (w.sess.runCb msg [] CleErrCodes.timeout.toNat).2) = t
    cases hf : t.freed with
    | true => simp only [if_true]
    | false =>
      simp only [Bool.false_eq_true, if_false]
      exact ih _

/-- When no callback makes a call, the timer of a client is that of its session. -/
theorem step_timer (e : Env) {w : Client} (hnf : w.sess.freed = false) (now : Nat) (ok : Nat → Bool)
    {told : Nat → List AppCall} (h : ∀ n, told n = []) :
    w.step e (.timer now ok told) = { w with sess := w.sess.timer now ok } := by
  unfold Client.step CldcSession.timer
  rw [if_neg (by simp [hnf])]
  dsimp only
  split
  · rw [Client.expire, drop_plain e h]
    rfl
  · rfl

/-! ## Runs of a client -/

/-- A client that has asked for a session. -/
def Client.init (e : Env) (now : Nat) (ok : Nat → Bool) (appCb : Option Int) (addr : Bytes)
    (user : User) (secretKey : Bytes) (hkey : secretKey ≠ []) (rnd : Nat) : Client :=
  ⟨(cldcNewSess e now ok appCb addr user secretKey hkey rnd).2, []⟩

theorem Entered.ledger_step {sess : CldcSession} {ok : Nat → Bool} {c : Call} {r : Int × CldcSession}
    (h : Entered sess ok c r) : Ledger.Step sess.ledger r.2.ledger := by
  cases h with
  | kept hrc h =>
    rw [h]
    exact .keep
  | skipped hrc h | forgotten hput hrc h =>
    rw [h]
    exact .skip
  | entered hrc h =>
    rw [h]
    exact .enter

/-- A step of a client is two of its ledger at most. -/
theorem step_ledger (e : Env) (w : Client) (ev : ClientEvent) :
    ∃ l, Ledger.Step w.sess.ledger l ∧ Ledger.Step l (w.step e ev).sess.ledger := by
  unfold Client.step
  split
  · exact ⟨_, .keep, .keep⟩
  · next hnf =>
    cases ev with
    | call c => exact ⟨_, (call_entered e c.now c.ok c.appCb w.sess c.call).2.ledger_step, .keep⟩
    | timer now ok told =>
      dsimp only
      split
      · obtain ⟨ns, next, hsub, hnext, hled, -⟩ := expire_ledger e told (w := w) (by simpa using hnf)
        rw [hled]
        exact ⟨_, .close hsub hnext, .keep⟩
      · next hexp =>
        rw [(timer_ledger ok hexp).1]
        exact ⟨_, .keep, .keep⟩
    | receive now ok stray netAddr raw =>
      dsimp only
      rcases receive_admits e now ok stray netAddr raw w.sess with ⟨-, h⟩ | ⟨mi, chunk, -, h⟩
      · rw [h]
        exact ⟨_, .keep, .keep⟩
      · have hscan : Ledger.Step w.sess.ledger (w.sess.begun now mi).ledger := by
          rw [(begun_outMsg w.sess now mi).2.1]
          exact .purge ((scanned_sublist w.sess now).map _)
        refine ⟨_, hscan, ?_⟩
        rw [h]
        rcases rxPkt_ledger e now ok stray w.sess mi chunk (footSeqid raw) with
          ⟨hled, -⟩ | ⟨req, -, hreq, hdone, hled, -⟩
        · rw [hled]
          exact .keep
        · have hsettled : (w.sess.begun now mi).ledger.settled = w.sess.ledger.settled := by
            rw [(begun_outMsg w.sess now mi).2.1]
          rw [hled, ← hsettled]
          refine .settle (Ledger.mem_due.mpr ?_)
          rw [(begun_outMsg w.sess now mi).2.1]
          exact List.mem_map.mpr ⟨req, hreq, by rw [hdone]⟩

theorem init_ledger (e : Env) (now : Nat) (ok : Nat → Bool) (appCb : Option Int) (addr : Bytes)
    (user : User) (secretKey : Bytes) (hkey : secretKey ≠ []) (rnd : Nat) :
    (Client.init e now ok appCb addr user secretKey hkey rnd).sess.ledger.Sound := by
  have hempty : (⟨[], [], 0⟩ : Ledger).Sound :=
    ⟨by simp, by simp, by simp, by simp, by simp⟩
  obtain ⟨-, h⟩ := request_ledger e now ok .newSess [] .newSess appCb
    { sid := cldRand64 e rnd, sid_lt := cldRand64_lt e rnd, user, secretKey, key_ne_nil := hkey, addr
      cfh := [], outMsg := [], msgScanTime := 0, expireTime := now + cldcSessExpire
      expired := false, nextSeqidIn := 0, nextSeqidInTr := 0, nextSeqidOut := cldRand64 e (rnd + 2)
      confirmed := false, msgBufOp := .nop, msgBuf := [], freed := false
      msgs := 0, rnd := rnd + 4, tx := [], calls := [], events := [] }
  simp only [Client.init, cldcNewSess]
  split at h
  · rw [h.2]
    exact Ledger.Step.enter.sound hempty
  · rw [h.2]
    exact Ledger.Step.skip.sound hempty

theorem run_ledger (e : Env) {w : Client} (h : w.sess.ledger.Sound) (evs : List ClientEvent) :
    (run (Client.step e) w evs).sess.ledger.Sound := by
  refine run_invariant (I := fun w : Client => w.sess.ledger.Sound) h (fun w ev hw => ?_) evs
  obtain ⟨l, h1, h2⟩ := step_ledger e w ev
  exact h2.sound (h1.sound hw)

/-- In every run of a client, whatever comes in and however often, the callback of each message is
made once at most. -/
theorem run_calls_once (e : Env) (now : Nat) (ok : Nat → Bool) (appCb : Option Int) (addr : Bytes)
    (user : User) (secretKey : Bytes) (hkey : secretKey ≠ []) (rnd : Nat) (evs : List ClientEvent) :
    ((run (Client.step e) (.init e now ok appCb addr user secretKey hkey rnd) evs).sess.calls.map
      Prod.fst).Nodup :=
  (run_ledger e (init_ledger ..) evs).once

/-- A client of the user `cli`. -/
def plainClient : Client :=
  .init .plain 0 (fun _ => true) none [] .cli User.cli.name User.cli.ne_nil 0

/-- The reply to the request for a session, with this number. -/
def greeting (seqid : Nat) : Bytes :=
  SrvPkt.raw .plain plainClient.sess
    ⟨.firstLast 7 .newSess, putGeneric .ok 240518168631, seqid, (.newSess, [])⟩

def ClientEvent.get (now : Nat) (raw : Bytes) : ClientEvent :=
  .receive now true (fun _ _ => 0) [] raw

/-- The timer, with callbacks that ask for nothing. -/
def ClientEvent.expire (now : Nat) : ClientEvent := .timer now (fun _ => true) fun _ => []

/-- The reply comes twice, and then the session expires. -/
theorem run_calls_once_repeated :
    ((run (Client.step .plain) plainClient
        [.get 1 (greeting 100), .get 2 (greeting 100), .expire 500]).sess.calls.map
      Prod.fst) = [0] ∧
    ((run (Client.step .plain) plainClient
        [.get 1 (greeting 100), .get 2 (greeting 100), .expire 500]).sess.calls.map
      Prod.fst).Nodup :=
  ⟨by decide +kernel,
    run_calls_once .plain 0 (fun _ => true) none [] .cli User.cli.name User.cli.ne_nil 0 _⟩

/-! ## Requests that are not lost -/

/-- Every message of a call that returned 0 has had its callback made, or is on the list of a session
that is not freed. -/
def Client.Kept (w : Client) : Prop :=
  ∀ n ∈ w.accepted, (∃ code, (n, code) ∈ w.sess.calls) ∨
    w.sess.freed = false ∧ ∃ msg ∈ w.sess.outMsg, msg.num = n

/-- The condition on a step: no packet of a `cldc_put` fails to be sent, a scan finds no message that
has expired and is not done, the session is not freed while another message is not done, and no call is
accepted that a callback makes while the messages are dropped. -/
def Client.Safe (e : Env) (w : Client) : ClientEvent → Prop
  | .call c => ¬ w.sess.putFails c.ok c.call
  | .timer now _ told => w.sess.expireTime < now → FreedLast w.sess.outMsg ∧
      Client.Quiet e told { w with sess := { w.sess with expired := true } } w.sess.outMsg
  | .receive now _ _ netAddr raw => ∀ p ∈ w.sess.admits e netAddr raw,
      (w.sess.msgScanTime ≤ now →
        ∀ msg ∈ w.sess.outMsg, msg.done = false → now ≤ msg.expireTime) ∧
      ∀ msg ∈ w.sess.settles now p.1 p.2 (footSeqid raw), msg.frees → Alone w.sess.outMsg msg

instance (msg : CldcMsg) : Decidable msg.frees := inferInstanceAs (Decidable (_ ∧ _))

instance (msgs : List CldcMsg) (msg : CldcMsg) : Decidable (Alone msgs msg) :=
  inferInstanceAs (Decidable (∀ m ∈ msgs, m.done = false → m.num = msg.num))

instance (msgs : List CldcMsg) : Decidable (FreedLast msgs) :=
  inferInstanceAs (Decidable (∀ msg ∈ msgs, msg.done = false → msg.frees → Alone msgs msg))

instance (sess : CldcSession) (ok : Nat → Bool) : (c : Call) → Decidable (sess.putFails ok c)
  | .put .. => inferInstanceAs (Decidable (_ ∧ _))
  | .endSess | .nop | .del _ | .open .. | .close _ | .lock .. | .unlock _ | .get .. => .isFalse id

instance (sess : CldcSession) (ok : Nat → Bool) (c : Call) : Decidable (sess.accepts ok c) :=
  decidable_of_iff _ (call_zero .plain 0 ok none sess c)

instance Client.Quiet.decidable (e : Env) (told : Nat → List AppCall) :
    (w : Client) → (msgs : List CldcMsg) → Decidable (w.Quiet e told msgs)
  | _, [] => .isTrue trivial
  | w, msg :: msgs =>
    @instDecidableAnd _ _ inferInstance
      (@instDecidableForall _ _ _ (Client.Quiet.decidable e told (w.timeOut e told msg) msgs))

instance (e : Env) (w : Client) : (ev : ClientEvent) → Decidable (w.Safe e ev)
  | .call c => inferInstanceAs (Decidable (¬ w.sess.putFails c.ok c.call))
  | .timer now _ told => inferInstanceAs (Decidable (w.sess.expireTime < now →
    FreedLast w.sess.outMsg ∧
      Client.Quiet e told { w with sess := { w.sess with expired := true } } w.sess.outMsg))
  | .receive now _ _ netAddr raw => inferInstanceAs (Decidable (∀ p ∈ w.sess.admits e netAddr raw,
      (w.sess.msgScanTime ≤ now →
        ∀ msg ∈ w.sess.outMsg, msg.done = false → now ≤ msg.expireTime) ∧
      ∀ msg ∈ w.sess.settles now p.1 p.2 (footSeqid raw), msg.frees → Alone w.sess.outMsg msg))

/-- What safe steps preserve. -/
structure Client.Inv (w : Client) : Prop where
  sound : w.sess.ledger.Sound
  holds : ∀ n ∈ w.accepted, w.sess.ledger.Holds n
  freed : w.sess.freed = true → ∀ n ∈ w.accepted, n ∈ w.sess.ledger.settled

theorem Client.Inv.kept {w : Client} (h : w.Inv) : w.Kept := by
  intro n hn
  have hcalled : n ∈ w.sess.ledger.settled → ∃ code, (n, code) ∈ w.sess.calls := by
    intro hs
    obtain ⟨c, hc, rfl⟩ := List.mem_map.mp hs
    exact ⟨c.2, hc⟩
  cases hf : w.sess.freed with
  | true => exact .inl (hcalled (h.freed hf n hn))
  | false =>
    refine (h.holds n hn).imp hcalled fun hd => ⟨rfl, ?_⟩
    obtain ⟨msg, hmsg, he⟩ := List.mem_map.mp (Ledger.mem_due.mp hd)
    exact ⟨msg, hmsg, congrArg Prod.fst he⟩

/-- When only one message is not done, all others that were accepted have been settled. -/
theorem settled_of_alone {sess : CldcSession} {msg : CldcMsg} (h : Alone sess.outMsg msg) {n : Nat}
    (hn : sess.ledger.Holds n) : n ∈ sess.ledger.settled ++ [msg.num] := by
  rcases hn with hn | hn
  · exact List.mem_append_left _ hn
  · obtain ⟨m, hm, he⟩ := List.mem_map.mp (Ledger.mem_due.mp hn)
    simp only [Prod.mk.injEq] at he
    rw [← he.1, h m hm he.2]
    simp

theorem Client.Inv.call {w : Client} (h : w.Inv) (e : Env) (c : AppCall)
    (hsafe : ¬ w.sess.putFails c.ok c.call) (hnf : w.sess.freed = false) : (w.call e c).Inv := by
  obtain ⟨hfreed, hent⟩ := call_entered e c.now c.ok c.appCb w.sess c.call
  have hsound := hent.ledger_step.sound h.sound
  unfold Client.call
  refine ⟨hsound, fun n hn => ?_, fun hf => ?_⟩
  · cases hent with
    | kept hrc hl =>
      simp only [hrc, if_false, List.append_nil] at hn
      rw [hl]
      exact h.holds n hn
    | skipped hrc hl =>
      simp only [hrc, if_false, List.append_nil] at hn
      rw [hl]
      exact h.holds n hn
    | entered hrc hl =>
      simp only [hrc, if_true, List.mem_append, List.mem_singleton] at hn
      rw [hl]
      rcases hn with hn | rfl
      · refine (h.holds n hn).imp id fun hd => Ledger.mem_due.mpr ?_
        exact List.mem_cons_of_mem _ (Ledger.mem_due.mp hd)
      · exact .inr (Ledger.mem_due.mpr (List.mem_cons_self ..))
    | forgotten hput => exact absurd hput hsafe
  · rw [hfreed, hnf] at hf
    cases hf

/-- A session that expires settles all that is due, and no more is accepted meanwhile. -/
theorem Client.Inv.expire {w : Client} (h : w.Inv) (e : Env) (told : Nat → List AppCall)
    (hlast : FreedLast w.sess.outMsg)
    (hquiet : Client.Quiet e told { w with sess := { w.sess with expired := true } } w.sess.outMsg)
    (hnf : w.sess.freed = false) : (w.expire e told).Inv := by
  obtain ⟨ns, next, hsub, hnext, hled, hall⟩ := expire_ledger e told hnf
  have hacc : (w.expire e told).accepted = w.accepted := drop_accepted e told hquiet
  have hsettled : ∀ n ∈ (w.expire e told).accepted, n ∈ (w.expire e told).sess.ledger.settled := by
    intro n hn
    rw [hacc] at hn
    rw [hled, hall h.sound hlast]
    exact List.mem_append.mpr (h.holds n hn)
  refine ⟨?_, fun n hn => .inl (hsettled n hn), fun _ => hsettled⟩
  rw [hled]
  exact h.sound.close hsub hnext

theorem Client.Inv.timer {w : Client} (h : w.Inv) {now : Nat} (ok : Nat → Bool)
    (hexp : ¬ w.sess.expireTime < now) (hnf : w.sess.freed = false) :
    Client.Inv { w with sess := w.sess.timer now ok } := by
  obtain ⟨hled, hfreed⟩ := timer_ledger ok hexp
  refine ⟨?_, fun n hn => ?_, fun hf => ?_⟩
  · dsimp only
    rw [hled]
    exact h.sound
  · dsimp only
    rw [hled]
    exact h.holds n hn
  · dsimp only at hf
    rw [hfreed, hnf] at hf
    cases hf

theorem mem_scanned {sess : CldcSession} {now : Nat} {msg : CldcMsg} (h : msg ∈ sess.outMsg)
    (hnew : sess.msgScanTime ≤ now → now ≤ msg.expireTime) : msg ∈ sess.scanned now := by
  unfold CldcSession.scanned
  split
  · next hscan => simpa [h] using hnew hscan
  · exact h

theorem Client.Inv.rxPkt {w : Client} (h : w.Inv) (e : Env) (now : Nat) (ok : Bool)
    (stray : Nat → Nat → Nat) (mi : CldPktMsgInfo) (chunk : Bytes) (seqid : Nat)
    (hscan : w.sess.msgScanTime ≤ now →
      ∀ msg ∈ w.sess.outMsg, msg.done = false → now ≤ msg.expireTime)
    (hfrees : ∀ msg ∈ w.sess.settles now mi chunk seqid, msg.frees → Alone w.sess.outMsg msg)
    (hnf : w.sess.freed = false) :
    Client.Inv { w with sess := (w.sess.rxPkt e now ok stray mi chunk seqid).2 } := by
  obtain ⟨-, hbegun, -⟩ := begun_outMsg w.sess now mi
  have hsound : (w.sess.begun now mi).ledger.Sound := by
    rw [hbegun]
    exact (Ledger.Step.purge ((scanned_sublist w.sess now).map _)).sound h.sound
  have hholds : ∀ n ∈ w.accepted, (w.sess.begun now mi).ledger.Holds n := by
    intro n hn
    rw [hbegun]
    refine Ledger.holds_purge (h.holds n hn) fun x hx hdone => ?_
    obtain ⟨msg, hmsg, rfl⟩ := List.mem_map.mp hx
    exact List.mem_map_of_mem (mem_scanned hmsg fun hs => hscan hs msg hmsg hdone)
  have hsettled : (w.sess.begun now mi).ledger.settled = w.sess.ledger.settled := by rw [hbegun]
  rcases rxPkt_ledger e now ok stray w.sess mi chunk seqid with
    ⟨hled, hkeep⟩ | ⟨req, hset, hreq, hdone, hled, hfree⟩
  · refine ⟨by simpa only [hled] using hsound, fun n hn => ?_, fun hf => ?_⟩
    · simpa only [hled] using hholds n hn
    · dsimp only at hf
      rw [hkeep, hnf] at hf
      cases hf
  · rw [← hsettled] at hled
    have hdue : req.num ∈ (w.sess.begun now mi).ledger.due := by
      rw [Ledger.mem_due, hbegun]
      exact List.mem_map.mpr ⟨req, hreq, by rw [hdone]⟩
    refine ⟨by simpa only [hled] using hsound.settle hdue, fun n hn => ?_, fun hf n hn => ?_⟩
    · simpa only [hled] using Ledger.holds_settle (hholds n hn)
    · dsimp only at hf ⊢
      have hreqFrees : req.frees := (hfree.mp hf).resolve_left (by simp [hnf])
      rw [hled, hsettled]
      exact settled_of_alone (hfrees req hset hreqFrees) (h.holds n hn)

theorem Client.Inv.step {e : Env} {w : Client} {ev : ClientEvent} (h : w.Inv) (hsafe : w.Safe e ev) :
    (w.step e ev).Inv := by
  unfold Client.step
  split
  · exact h
  · next hf =>
    have hnf : w.sess.freed = false := by simpa using hf
    cases ev with
    | call c => exact h.call e c hsafe hnf
    | timer now ok told =>
      dsimp only
      split
      · next hexp => exact h.expire e told (hsafe hexp).1 (hsafe hexp).2 hnf
      · next hexp => exact h.timer ok hexp hnf
    | receive now ok stray netAddr raw =>
      dsimp only
      rcases receive_admits e now ok stray netAddr raw w.sess with ⟨-, hr⟩ | ⟨mi, chunk, hadm, hr⟩
      · rw [hr]
        exact h
      · rw [hr]
        obtain ⟨hscan, hfrees⟩ := hsafe (mi, chunk) hadm
        exact h.rxPkt e now ok stray mi chunk (footSeqid raw) hscan hfrees hnf

/-- A call of `cldc_nop`; its callback returns `appCb`, if there is one. -/
def AppCall.nop (now : Nat) (appCb : Option Int) : AppCall := ⟨now, fun _ => true, appCb, .nop⟩

/-- A call of `cldc_unlock` for a handle that there is not. -/
def AppCall.unlock (now : Nat) : AppCall := ⟨now, fun _ => true, none, .unlock 9⟩

/-- A `CMO_PING` of the server. -/
def ping (seqid : Nat) : Bytes :=
  SrvPkt.raw .plain plainClient.sess ⟨.firstLast 7 .ping, [], seqid, (.ping, [])⟩

end Hail.Cldc
