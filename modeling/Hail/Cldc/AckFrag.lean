import Hail.Cldc.Completion

/-!
# Fragments acknowledged

`rxmsg_ack_frag` looks for the footer of each packet that waits to be acknowledged. The length before
the footer is added to a pointer to footers, not to bytes, so that it looks far behind every packet.
-/
namespace Hail.Cldc

open Library Cld

/-- The packets that wait to be acknowledged, of which the timer sends those of messages not done. -/
def CldcSession.waiting (sess : CldcSession) : List Bytes := sess.outMsg.flatMap CldcMsg.unacked

/-! ## Packets that have been sent -/

/-- A packet as `sess_send` leaves it: something before the footer, and the number in the footer. -/
def Sent (e : Env) (data : Bytes) : Prop :=
  ∃ key hdr chunk seqid, hdr ≠ [] ∧ data = rawPkt e key hdr chunk seqid

theorem hdrBytes_ne_nil (sid : Nat) (u : User) (mi : CldPktMsgInfo) : hdrBytes sid u mi ≠ [] := by
  rw [← List.length_pos_iff]
  simp only [hdrBytes, List.length_append, Xdr.putHyper_length]
  omega

section

variable {e : Env} {s t : CldcSession}

/-- What waits after a step has waited before or has been sent in it. -/
def Waits (e : Env) (s t : CldcSession) : Prop := ∀ d ∈ t.waiting, d ∈ s.waiting ∨ Sent e d

theorem Waits.of_outMsg (h : t.outMsg = s.outMsg) : Waits e s t := by
  intro d hd
  rw [CldcSession.waiting, h] at hd
  exact .inl hd

theorem Waits.trans {u : CldcSession} (h : Waits e s t) (h' : Waits e t u) : Waits e s u := by
  intro d hd
  rcases h' d hd with hd | hd
  · exact h d hd
  · exact .inr hd

/-- Messages are dropped, and what remains of the others waited before. -/
theorem Waits.of_msgs (h : ∀ msg ∈ t.outMsg, ∃ msg' ∈ s.outMsg, msg.unacked ⊆ msg'.unacked) :
    Waits e s t := by
  intro d hd
  obtain ⟨msg, hmsg, hd⟩ := List.mem_flatMap.mp hd
  obtain ⟨msg', hmsg', hsub⟩ := h msg hmsg
  exact .inl (List.mem_flatMap.mpr ⟨msg', hmsg', hsub hd⟩)

/-- Every message is replaced by one with fewer packets. -/
theorem Waits.of_map {f : CldcMsg → CldcMsg} (hf : ∀ msg, (f msg).unacked ⊆ msg.unacked)
    (h : t.outMsg = s.outMsg.map f) : Waits e s t := by
  refine .of_msgs fun msg hmsg => ?_
  rw [h] at hmsg
  obtain ⟨msg', hmsg', rfl⟩ := List.mem_map.mp hmsg
  exact ⟨msg', hmsg', hf msg'⟩

end

theorem request_waits (e : Env) (now : Nat) (ok : Nat → Bool) (op : CldMsgOp) (body : Bytes)
    (cb : MsgCb) (appCb : Option Int) (sess : CldcSession) :
    Waits e sess (sess.request e now ok op body cb appCb).2 := by
  have hpkts := sessSendPkts_eq e sess.sid sess.user sess.key_ne_nil sess.nextSeqidOut
    (cldRand64 e sess.rnd) op body
  unfold CldcSession.request
  simp only [hpkts]
  split
  · exact .of_outMsg rfl
  · intro d hd
    rw [CldcSession.waiting, List.flatMap_cons] at hd
    rcases List.mem_append.mp hd with hd | hd
    · right
      rw [CldcMsg.unacked, List.map_map, List.filterMap_map] at hd
      obtain ⟨p, hp, hpd⟩ := List.mem_filterMap.mp hd
      obtain rfl : p.1.data = d := by simpa using hpd
      obtain ⟨i, hi⟩ := List.getElem?_of_mem hp
      obtain ⟨q, -, n, -, hq⟩ := signedPkts_get hi
      exact ⟨_, _, _, _, hdrBytes_ne_nil _ _ _, hq⟩
    · exact .inl hd

theorem runCb_outMsg (sess : CldcSession) (msg : CldcMsg) (resp : Bytes) (code : Nat) :
    (sess.runCb msg resp code).2.outMsg = sess.outMsg := by
  unfold CldcSession.runCb
  dsimp only
  split
  · split <;> rfl
  · split <;> rfl
  · rfl
  · split
    · split <;> rfl
    · rfl
  · split <;> rfl
  · split <;> rfl

theorem drop_outMsg (e : Env) (told : Nat → List AppCall) (w : Client) (msgs : List CldcMsg) :
    (w.drop e told msgs).sess.outMsg = [] := by
  induction msgs generalizing w with
  | nil => rfl
  | cons msg msgs ih =>
    rw [Client.drop]
    dsimp only
    split
    · rfl
    · exact ih _

theorem expire_waits (e : Env) (told : Nat → List AppCall) (w : Client) :
    Waits e w.sess (w.expire e told).sess := by
  refine .of_msgs fun msg hmsg => ?_
  have hout : (w.expire e told).sess.outMsg = [] := drop_outMsg ..
  rw [hout] at hmsg
  cases hmsg

theorem retry_unacked (msg : CldcMsg) : msg.retry.unacked = msg.unacked := by
  unfold CldcMsg.retry
  split
  · rfl
  · rw [CldcMsg.unacked, List.filterMap_map, CldcMsg.unacked]
    refine List.filterMap_congr fun pi _ => ?_
    cases pi <;> rfl

theorem timer_waits (e : Env) {now : Nat} (ok : Nat → Bool) {sess : CldcSession}
    (h : ¬ sess.expireTime < now) : Waits e sess (sess.timer now ok) := by
  unfold CldcSession.timer
  rw [if_neg h]
  exact .of_map (fun msg => (retry_unacked msg).symm ▸ List.Subset.refl _) rfl

theorem ackSeqid_outMsg (e : Env) (ok : Bool) (sess : CldcSession) (seqid : Nat) :
    (sess.ackSeqid e ok seqid).2.outMsg = sess.outMsg := by
  unfold CldcSession.ackSeqid
  split
  · rfl
  · split <;> rfl

/-- Packets are only taken off a message. -/
theorem mapIdx_unacked (msg : CldcMsg) (p : Nat → Bool) :
    { msg with pktInfo := msg.pktInfo.mapIdx fun i pi => if p i then none else pi }.unacked ⊆
      msg.unacked := by
  intro d hd
  obtain ⟨pi, hpi, hd⟩ := List.mem_filterMap.mp hd
  obtain ⟨i, hi, rfl⟩ := List.mem_mapIdx.mp hpi
  split at hd
  · cases hd
  · exact List.mem_filterMap.mpr ⟨_, List.getElem_mem hi, hd⟩

theorem rxmsgAckFrag_waits (e : Env) (stray : Nat → Nat → Nat) (sess : CldcSession) :
    Waits e sess (sess.rxmsgAckFrag stray).2 := by
  unfold CldcSession.rxmsgAckFrag
  split
  · exact .of_outMsg rfl
  · next seqid _ _ =>
    refine .of_map (fun msg => ?_) rfl
    have h := mapIdx_unacked msg fun i => decide (stray msg.num i = seqid)
    simpa only [decide_eq_true_eq] using h

theorem rxComplete_waits (e : Env) (ok : Bool) (stray : Nat → Nat → Nat) (sess : CldcSession)
    (seqid : Nat) : Waits e sess (sess.rxComplete e ok stray seqid).2 := by
  unfold CldcSession.rxComplete
  split
  · exact .of_outMsg rfl
  · exact .of_outMsg (ackSeqid_outMsg ..)
  · exact .of_outMsg rfl
  · unfold CldcSession.rxmsgEvent
    dsimp only
    split
    · exact .of_outMsg rfl
    · split <;> exact .of_outMsg rfl
  · exact rxmsgAckFrag_waits e stray sess
  · unfold CldcSession.rxmsgGeneric
    split
    · exact .of_outMsg rfl
    · split
      · exact .of_outMsg rfl
      · split
        · exact .of_outMsg (ackSeqid_outMsg ..)
        · next req _ _ =>
          have hdone : ∀ msg : CldcMsg,
              (if msg.num = req.num then { msg with done := true } else msg).unacked ⊆
                msg.unacked := by
            intro msg
            split <;> exact List.Subset.refl _
          dsimp only
          split
          · exact .of_map hdone (runCb_outMsg ..)
          · exact .of_map hdone ((ackSeqid_outMsg ..).trans (runCb_outMsg ..))

theorem rxPkt_waits (e : Env) (now : Nat) (ok : Bool) (stray : Nat → Nat → Nat) (sess : CldcSession)
    (mi : CldPktMsgInfo) (chunk : Bytes) (seqid : Nat) :
    Waits e sess (sess.rxPkt e now ok stray mi chunk seqid).2 := by
  have hscan : ∀ t : CldcSession, t.outMsg = sess.scanned now → Waits e sess t := by
    intro t ht
    refine .of_msgs fun msg hmsg => ?_
    rw [ht] at hmsg
    exact ⟨msg, (scanned_sublist sess now).subset hmsg, List.Subset.refl _⟩
  have hbegun := (begun_outMsg sess now mi).1
  have hcase := rxPkt_cases e now ok stray sess mi chunk seqid
  generalize sess.rxPkt e now ok stray mi chunk seqid = r at hcase ⊢
  cases hcase with
  | refused h => exact hscan _ hbegun
  | tooLong h hlen => exact hscan _ hbegun
  | @taken w h hlen =>
    have htaken : (sess.taken now mi chunk w).outMsg = sess.scanned now := hbegun
    split
    · exact (hscan _ htaken).trans (rxComplete_waits e ok stray _ seqid)
    · exact hscan _ ((ackSeqid_outMsg ..).trans htaken)

theorem step_waits (e : Env) (w : Client) (ev : ClientEvent) : Waits e w.sess (w.step e ev).sess := by
  unfold Client.step
  split
  · exact .of_outMsg rfl
  · cases ev with
    | call c =>
      obtain ⟨cfh, h | ⟨op, body, cb, -, h⟩⟩ := call_request e c.now c.ok c.appCb w.sess c.call
      · dsimp only [Client.call]
        rw [h]
        exact .of_outMsg rfl
      · dsimp only [Client.call]
        rw [h]
        exact request_waits e c.now c.ok op body cb c.appCb { w.sess with cfh }
    | timer now ok told =>
      dsimp only
      split
      · exact expire_waits e told w
      · next hexp => exact timer_waits e ok hexp
    | receive now ok stray netAddr raw =>
      rcases receive_admits e now ok stray netAddr raw w.sess with ⟨-, h⟩ | ⟨mi, chunk, -, h⟩
      · dsimp only
        rw [h]
        exact .of_outMsg rfl
      · dsimp only
        rw [h]
        exact rxPkt_waits e now ok stray w.sess mi chunk (footSeqid raw)

/-- All packets that wait in a run of a client have been completed by `sess_send`. -/
theorem run_waiting_sent (e : Env) (now : Nat) (ok : Nat → Bool) (appCb : Option Int) (addr : Bytes)
    (user : User) (secretKey : Bytes) (hkey : secretKey ≠ []) (rnd : Nat) (evs : List ClientEvent) :
    ∀ d ∈ (run (Client.step e) (.init e now ok appCb addr user secretKey hkey rnd) evs).sess.waiting,
      Sent e d := by
  refine run_invariant (I := fun w : Client => ∀ d ∈ w.sess.waiting, Sent e d) ?_ ?_ evs
  · intro d hd
    have hinit := request_waits e now ok .newSess [] .newSess appCb
      { sid := cldRand64 e rnd, sid_lt := cldRand64_lt e rnd, user, secretKey, key_ne_nil := hkey
        addr, cfh := [], outMsg := [], msgScanTime := 0, expireTime := now + cldcSessExpire
        expired := false, nextSeqidIn := 0, nextSeqidInTr := 0
        nextSeqidOut := cldRand64 e (rnd + 2), confirmed := false, msgBufOp := .nop, msgBuf := []
        freed := false, msgs := 0, rnd := rnd + 4, tx := [], calls := [], events := [] }
    exact (hinit d hd).resolve_left (by simp [CldcSession.waiting])
  · intro w ev hw d hd
    exact (step_waits e w ev d hd).elim (hw d) id

/-! ## The acknowledgement -/

/-- Where `rxmsg_ack_frag` reads the number of a packet, from the beginning of the packet on. -/
def ackFragOfs (pktLen : Nat) : Nat := (pktLen - cldPktFtrLen) * cldPktFtrLen

/-- The eight bytes read of each packet that waits lie inside it. -/
def CldcSession.readsInside (sess : CldcSession) : Prop :=
  ∀ d ∈ sess.waiting, ackFragOfs d.length + 8 ≤ d.length

/-- The message without the packet whose footer holds the number. -/
def CldcMsg.without (seqid : Nat) (msg : CldcMsg) : CldcMsg :=
  { msg with pktInfo := msg.pktInfo.map (Option.filter fun pi => footSeqid pi.data != seqid) }

/-- The number is looked for behind every packet that has been sent. -/
theorem Sent.outside {e : Env} {d : Bytes} (h : Sent e d) : d.length < ackFragOfs d.length + 8 := by
  obtain ⟨key, hdr, chunk, seqid, hne, rfl⟩ := h
  have hpos := List.length_pos_iff.mpr hne
  rw [rawPkt_length, ackFragOfs]
  simp only [cldPktFtrLen]
  omega

theorem without_eq_self {msg : CldcMsg} (h : msg.unacked = []) (seqid : Nat) :
    msg.without seqid = msg := by
  rw [CldcMsg.without]
  congr 1
  refine (List.map_congr_left fun pi hpi => ?_).trans (List.map_id _)
  cases pi with
  | none => rfl
  | some p =>
    have hmem : p.data ∈ msg.unacked := List.mem_filterMap.mpr ⟨some p, hpi, rfl⟩
    rw [h] at hmem
    cases hmem

theorem mapIdx_eq_self {msg : CldcMsg} (h : msg.unacked = []) (p : Nat → Prop) [DecidablePred p] :
    (msg.pktInfo.mapIdx fun i pi => if p i then none else pi) = msg.pktInfo := by
  refine List.ext_getElem (by simp) fun i hi hi' => ?_
  rw [List.getElem_mapIdx]
  split
  · cases hpi : msg.pktInfo[i] with
    | none => rfl
    | some pi =>
      have hmem : pi.data ∈ msg.unacked :=
        List.mem_filterMap.mpr ⟨some pi, hpi ▸ List.getElem_mem hi', rfl⟩
      rw [h] at hmem
      cases hmem
  · rfl

/-- An acknowledgement takes off the packet with its number, reading inside packets only, if and only if
no packet waits. -/
theorem ackFrag_exact_iff (e : Env) (stray : Nat → Nat → Nat) (sess : CldcSession)
    (hsent : ∀ d ∈ sess.waiting, Sent e d) (seqid : Nat) (rest : Bytes)
    (hmsg : Xdr.getHyper sess.msgBuf = some (seqid, rest)) :
    (sess.rxmsgAckFrag stray).2.outMsg = sess.outMsg.map (CldcMsg.without seqid) ∧
      sess.readsInside ↔ sess.waiting = [] := by
  constructor
  · rintro ⟨-, hin⟩
    refine List.eq_nil_iff_forall_not_mem.mpr fun d hd => ?_
    have hout := (hsent d hd).outside
    have hle := hin d hd
    omega
  · intro hnone
    have hmsgs : ∀ msg ∈ sess.outMsg, msg.unacked = [] := List.flatMap_eq_nil_iff.mp hnone
    refine ⟨?_, fun d hd => ?_⟩
    · simp only [CldcSession.rxmsgAckFrag, hmsg]
      refine List.map_congr_left fun msg hm => ?_
      rw [mapIdx_eq_self (hmsgs msg hm), without_eq_self (hmsgs msg hm)]
    · rw [hnone] at hd
      cases hd

/-- A client whose request for a session is acknowledged. -/
def ackedClient : CldcSession := { plainClient.sess with msgBuf := Xdr.putHyper 231928234037 }

theorem ackFrag_exact_iff_newSess :
    (ackedClient.rxmsgAckFrag fun _ _ => 0).2.outMsg =
        ackedClient.outMsg.map (CldcMsg.without 231928234037) ∧ ackedClient.readsInside ↔
      ackedClient.waiting = [] :=
  ackFrag_exact_iff .plain (fun _ _ => 0) ackedClient
    (run_waiting_sent .plain 0 (fun _ => true) none [] .cli User.cli.name User.cli.ne_nil 0 [])
    231928234037 [] (by decide +kernel)

/-- The packet of the request, 68 bytes long, has this number. It is looked for in the bytes from the
1120th on, and where zeros are found there the packet stays. -/
theorem ackFrag_missed :
    (ackedClient.waiting.map fun d => (d.length, footSeqid d, ackFragOfs d.length)) =
        [(68, 231928234037, 1120)] ∧
      (ackedClient.rxmsgAckFrag fun _ _ => 0).2.waiting = ackedClient.waiting ∧
      ¬ ((ackedClient.rxmsgAckFrag fun _ _ => 0).2.outMsg =
        ackedClient.outMsg.map (CldcMsg.without 231928234037) ∧ ackedClient.readsInside) := by
  have hlen : (ackedClient.waiting.map fun d => (d.length, footSeqid d, ackFragOfs d.length)) =
      [(68, 231928234037, 1120)] := by decide +kernel
  refine ⟨hlen, by decide +kernel, fun h => ?_⟩
  have hstays : (ackedClient.rxmsgAckFrag fun _ _ => 0).2.outMsg ≠
      ackedClient.outMsg.map (CldcMsg.without 231928234037) := by decide +kernel
  exact hstays h.1

end Hail.Cldc
