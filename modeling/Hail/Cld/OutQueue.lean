import Hail.Cld.Step
import Hail.Library.Run
import Hail.Library.Retained

/-!
# The output queue of a session

Three callbacks share the queue and its retry timer: `sess_sendmsg` queues packets, `msg_ack` takes
them from the queue, and `session_retry` sends what is left again. In whatever order they are called,
what waits are the packets that have not been acknowledged, and the timer is armed as long as there
are any. `evtimer_add` and `evtimer_del` are taken to succeed; the source logs it when they do not.
-/
namespace Hail.Cld

open Library

/-- A packet as it is queued. -/
def OutPkt.out (op : OutPkt) : Bytes × DoneCb := (op.pktData, op.doneCb)

def outSeqid (p : Bytes × DoneCb) : Nat := footSeqid p.1

def Server.outQ (srv : Server) (sid : Sid) : List OutPkt :=
  ((srv.sessions.get sid).map Session.outQ).getD []

def Server.setTime (srv : Server) (now : Nat) : Server := { srv with currentTime := now }

@[simp] theorem Server.setTime_sessions (srv : Server) (now : Nat) :
    (srv.setTime now).sessions = srv.sessions := rfl
@[simp] theorem Server.setTime_tx (srv : Server) (now : Nat) : (srv.setTime now).tx = srv.tx := rfl
@[simp] theorem Server.setTime_time (srv : Server) (now : Nat) :
    (srv.setTime now).currentTime = now := rfl

/-- What happens to the queue: a message is sent, an acknowledgement arrives, and the retry timer
fires, provided that it is armed; `ok` says which calls of `tcp_tx` succeed. -/
inductive OutEvent where
  | sendmsg (now : Nat) (msg : ServerMsg) (op : CldMsgOp) (doneCb : DoneCb)
  | ack (seqid : Nat)
  | retry (now : Nat) (ok : Nat → Bool)

/-- A server with the retry timer of a session. The rest is history: the packets queued, those whose
callback has been called, and the acknowledgements that were the first for a packet queued before. -/
structure OutQueue where
  srv : Server
  armed : Bool
  queued : List (Bytes × DoneCb)
  ran : List (Bytes × DoneCb)
  acked : List Nat

/-- `sess_sendmsg`, whose `session_outq` starts the timer if nothing waits. -/
def OutQueue.sendmsg (e : Env) (sid : Sid) (now : Nat) (msg : ServerMsg) (op : CldMsgOp)
    (doneCb : DoneCb) (q : OutQueue) : OutQueue :=
  let sent := sessSendmsg e (q.srv.setTime now) sid msg op doneCb
  { q with
    srv := sent.2
    armed := if sent.1 && (q.srv.outQ sid).isEmpty then true else q.armed
    queued := q.queued ++ (sent.2.tx.drop q.srv.tx.length).map fun p => (p.2, doneCb) }

/-- `msg_ack`. It returns at once if nothing waits, and stops the timer if nothing is left. -/
def OutQueue.ack (sid : Sid) (seqid : Nat) (q : OutQueue) : OutQueue :=
  let srv := msgAck sid seqid q.srv
  { q with
    srv
    armed := if (q.srv.outQ sid).isEmpty then q.armed else
      if (srv.outQ sid).isEmpty then false else q.armed
    ran := q.ran ++
      ((q.srv.outQ sid).filter fun op => footSeqid op.pktData = seqid).map OutPkt.out
    acked := if seqid ∈ q.queued.map outSeqid ∧ seqid ∉ q.acked then q.acked ++ [seqid] else q.acked }

/-- `session_retry`. A timer that has fired is armed again only if something waits. -/
def OutQueue.retry (sid : Sid) (now : Nat) (ok : Nat → Bool) (q : OutQueue) : OutQueue :=
  if q.armed then
    if (q.srv.outQ sid).isEmpty then { q with armed := false }
    else { q with srv := sessionRetry ok sid (q.srv.setTime now) }
  else q

def OutQueue.step (e : Env) (sid : Sid) (q : OutQueue) : OutEvent → OutQueue
  | .sendmsg now msg op doneCb => q.sendmsg e sid now msg op doneCb
  | .ack seqid => q.ack sid seqid
  | .retry now ok => q.retry sid now ok

/-- Nothing has been queued for the session, whose first packet will have number `first`. -/
structure OutQueue.Fresh (sid : Sid) (first : Nat) (q : OutQueue) : Prop where
  session : ∃ sess, q.srv.sessions.get sid = some sess ∧ sess.nextSeqidOut = first ∧ sess.outQ = []
  armed : q.armed = false
  queued : q.queued = []
  ran : q.ran = []
  acked : q.acked = []

/-- The packets queued are numbered one after another and without repetition, those that have not been
acknowledged wait in this order, each callback has been called at the acknowledgement of its packet,
and the timer is armed if and only if a packet waits. -/
structure OutQueue.Exact (sid : Sid) (first : Nat) (q : OutQueue) : Prop where
  numbers : q.queued.map outSeqid = numbersFrom (2 ^ 64) first q.queued.length
  distinct : (q.queued.map outSeqid).Nodup
  waits : (q.srv.outQ sid).map OutPkt.out = waiting outSeqid q.acked q.queued
  acked : q.acked.Nodup
  ran : q.ran.map outSeqid = q.acked
  called : ∀ p ∈ q.ran, p ∈ q.queued
  timer : q.armed = true ↔ q.srv.outQ sid ≠ []

/-- What every step keeps: also the number of the next packet. -/
structure OutQueue.Inv (sid : Sid) (first : Nat) (q : OutQueue) : Prop
    extends OutQueue.Exact sid first q where
  next : ∃ sess, q.srv.sessions.get sid = some sess ∧
    sess.nextSeqidOut % 2 ^ 64 = (first + q.queued.length) % 2 ^ 64

section

variable {e : Env} {sid : Sid} {first : Nat} {q : OutQueue}

theorem Server.outQ_of_get {srv : Server} {sess : Session} (h : srv.sessions.get sid = some sess) :
    srv.outQ sid = sess.outQ := by
  simp [Server.outQ, h]

theorem OutQueue.Fresh.inv (h : q.Fresh sid first) : q.Inv sid first := by
  obtain ⟨⟨sess, hg, hn, hq⟩, harmed, hqueued, hran, hacked⟩ := h
  have hout : q.srv.outQ sid = [] := (Server.outQ_of_get hg).trans hq
  exact {
    numbers := by simp [hqueued, numbersFrom]
    distinct := by simp [hqueued]
    waits := by simp [hout, hqueued, waiting]
    acked := by simp [hacked]
    ran := by simp [hran, hacked]
    called := by simp [hran]
    timer := by simp [harmed, hout]
    next := ⟨sess, hg, by simp [hn, hqueued]⟩ }

/-- Acknowledgements are of packets that have been queued. -/
theorem OutQueue.Exact.acked_subset (h : q.Exact sid first) : ∀ n ∈ q.acked,
    n ∈ q.queued.map outSeqid := by
  intro n hn
  rw [← h.ran] at hn
  obtain ⟨p, hp, rfl⟩ := List.mem_map.mp hn
  exact List.mem_map_of_mem (h.called p hp)

/-- The numbers in the queue increase, as long as none has wrapped. -/
theorem OutQueue.Exact.increases (h : q.Exact sid first) (hlen : first + q.queued.length ≤ 2 ^ 64) :
    ((q.srv.outQ sid).map fun op => footSeqid op.pktData).Pairwise (· < ·) := by
  have hall : (q.queued.map outSeqid).Pairwise (· < ·) := h.numbers ▸ numbersFrom_increases hlen
  have hout : (q.srv.outQ sid).map (fun op => footSeqid op.pktData) =
      (waiting outSeqid q.acked q.queued).map outSeqid := by
    rw [← h.waits, List.map_map]
    rfl
  rw [hout]
  exact hall.sublist (List.filter_sublist.map outSeqid)

/-! ## Sending -/

theorem Packets.numbers {sess : Session} {op : CldMsgOp} {pkts : List Bytes}
    (h : Packets sess op pkts) (doneCb : DoneCb) :
    (pkts.map fun p => (p, doneCb)).map outSeqid =
      numbersFrom (2 ^ 64) sess.nextSeqidOut pkts.length := by
  refine List.ext_getElem (by simp) fun i hi hi' => ?_
  have hlt : i < pkts.length := by simpa using hi
  obtain ⟨e, u, xid, first, last, chunk, seqid, hraw, -, hn⟩ :=
    h.2 i pkts[i] (List.getElem?_eq_getElem hlt) 0 doneCb
  have hfoot : footSeqid pkts[i] = (sess.nextSeqidOut + i) % 2 ^ 64 := by
    dsimp only at hraw
    rw [hraw, footSeqid_rawPkt, hn]
  simpa [numbersFrom, outSeqid] using hfoot

theorem OutQueue.Inv.sendmsg (h : q.Inv sid first) (now : Nat) (msg : ServerMsg) (op : CldMsgOp)
    (doneCb : DoneCb)
    (hlen : (q.sendmsg e sid now msg op doneCb).queued.length ≤ 2 ^ 64) :
    (q.sendmsg e sid now msg op doneCb).Inv sid first := by
  unfold OutQueue.sendmsg at hlen ⊢
  rcases sessSendmsg_cases e (q.srv.setTime now) sid msg op doneCb with
    ⟨sess, pkts, hg, hp, heq⟩ | heq
  · rw [heq] at hlen ⊢
    obtain ⟨sess', hg', hnext⟩ := h.next
    obtain rfl : sess' = sess := Option.some_inj.mp (hg'.symm.trans hg)
    have hout := Server.outQ_of_get hg'
    have hget := Server.queue_get (q.srv.setTime now) sess' ⟨sid, op, msg⟩ doneCb pkts
    rw [get_sid hg'] at hget
    have htx : (((q.srv.setTime now).queue sess' ⟨sid, op, msg⟩ doneCb pkts).tx.drop
        q.srv.tx.length).map (fun p => (p.2, doneCb)) = pkts.map fun p => (p, doneCb) := by
      simp [Server.queue]
    dsimp only at hlen ⊢
    rw [htx] at hlen ⊢
    have hnew : (q.queued ++ pkts.map fun p => (p, doneCb)).map outSeqid =
        numbersFrom (2 ^ 64) first (q.queued ++ pkts.map fun p => (p, doneCb)).length := by
      rw [List.map_append, h.numbers, hp.numbers, numbersFrom_congr hnext, List.length_append,
        List.length_map, numbersFrom_add]
    have hdistinct : ((q.queued ++ pkts.map fun p => (p, doneCb)).map outSeqid).Nodup := by
      rw [hnew]
      exact nodup_numbersFrom hlen
    have hfresh : ∀ p ∈ pkts.map (fun p => (p, doneCb)), outSeqid p ∉ q.acked := by
      intro p hmem hacked
      rw [List.map_append] at hdistinct
      exact (List.nodup_append.mp hdistinct).2.2 _ (h.acked_subset _ hacked) _
        (List.mem_map_of_mem hmem) rfl
    have hne : pkts ≠ [] := hp.1
    exact {
      numbers := hnew
      distinct := hdistinct
      waits := by
        rw [waiting_append hfresh, ← h.waits, hout, Server.outQ_of_get hget]
        simp [OutPkt.out]
      acked := h.acked
      ran := h.ran
      called := fun p hmem => List.mem_append_left _ (h.called p hmem)
      timer := by
        have htimer := h.timer
        rw [hout] at htimer
        rw [Server.outQ_of_get hget, hout]
        cases hq : sess'.outQ <;> simp_all
      next := ⟨_, hget, by
        rw [List.length_append, List.length_map, ← add_assoc, Nat.mod_mod]
        exact Nat.ModEq.add_right _ hnext⟩ }
  · rw [heq]
    have hsame : ((q.srv.setTime now).tx.drop q.srv.tx.length).map (fun p => (p.2, doneCb)) = [] := by
      simp
    dsimp only
    rw [hsame, List.append_nil]
    exact { h with timer := h.timer }

/-! ## Acknowledgements -/

theorem outQ_msgAck {sess : Session} (hg : q.srv.sessions.get sid = some sess) (seqid : Nat) :
    (msgAck sid seqid q.srv).sessions.get sid = some (sess.ack seqid) ∧
      (sess.ack seqid).outQ.map OutPkt.out =
        (sess.outQ.map OutPkt.out).filter fun p => decide (outSeqid p ≠ seqid) := by
  constructor
  · have hsid : (sess.ack seqid).sid = sid := by
      have hsame : (sess.ack seqid).sid = sess.sid := by rw [sess.ack_eq]
      exact hsame.trans (get_sid hg)
    simp only [msgAck, hg, Server.putSess, Table.get_put, hsid, if_true]
  · rw [sess.ack_eq, List.filter_map]
    rfl

theorem OutQueue.Inv.ack (h : q.Inv sid first) (seqid : Nat) :
    (q.ack sid seqid).Inv sid first := by
  obtain ⟨sess, hg, hnext⟩ := h.next
  obtain ⟨hget, hack⟩ := outQ_msgAck hg seqid
  have hout := Server.outQ_of_get hg
  have hout' := Server.outQ_of_get hget
  have hwaits := h.waits
  rw [hout] at hwaits
  have hran : (sess.outQ.filter fun op => footSeqid op.pktData = seqid).map OutPkt.out =
      (waiting outSeqid q.acked q.queued).filter fun p => decide (outSeqid p = seqid) := by
    rw [← hwaits, List.filter_map]
    rfl
  have hnext' : (sess.ack seqid).nextSeqidOut = sess.nextSeqidOut := by rw [sess.ack_eq]
  have htimer : (q.ack sid seqid).armed = true ↔ (msgAck sid seqid q.srv).outQ sid ≠ [] := by
    have hold := h.timer
    have hempty : sess.outQ = [] → (sess.ack seqid).outQ = [] := by
      intro hnil
      have hmap := hack
      rw [hnil] at hmap
      simpa using hmap
    simp only [OutQueue.ack, hout, hout'] at hold ⊢
    cases hq : sess.outQ <;> cases hq' : (sess.ack seqid).outQ <;> simp_all
  by_cases hknown : seqid ∈ q.queued.map outSeqid ∧ seqid ∉ q.acked
  · -- the first acknowledgement of a packet takes it, and no other, from the queue
    obtain ⟨p, hp, hseqid, hone⟩ := waiting_filter_known h.distinct hknown.1 hknown.2
    have hacked : (q.ack sid seqid).acked = q.acked ++ [seqid] := if_pos hknown
    have hranEq : (q.ack sid seqid).ran = q.ran ++ [p] := by
      simp only [OutQueue.ack, hout, hran, hone]
    exact {
      numbers := h.numbers
      distinct := h.distinct
      waits := by
        rw [hacked]
        show ((msgAck sid seqid q.srv).outQ sid).map OutPkt.out =
          waiting outSeqid (q.acked ++ [seqid]) q.queued
        rw [waiting_settle, hout', hack, hwaits]
      acked := by
        rw [hacked]
        exact List.nodup_append.mpr ⟨h.acked, List.nodup_singleton _, by
          rintro a ha b hb rfl
          exact hknown.2 (List.mem_singleton.mp hb ▸ ha)⟩
      ran := by rw [hacked, hranEq, List.map_append, h.ran, List.map_singleton, hseqid]
      called := by
        intro p' hp'
        rw [hranEq] at hp'
        rcases List.mem_append.mp hp' with hp' | hp'
        · exact h.called p' hp'
        · rw [List.mem_singleton.mp hp']
          exact hp
      timer := htimer
      next := ⟨_, hget, by rw [hnext']; exact hnext⟩ }
  · have hnone : seqid ∉ q.queued.map outSeqid ∨ seqid ∈ q.acked := by
      rcases not_and_or.mp hknown with hn | hn
      · exact .inl hn
      · exact .inr (not_not.mp hn)
    have hacked : (q.ack sid seqid).acked = q.acked := if_neg hknown
    have hranEq : (q.ack sid seqid).ran = q.ran := by
      simp only [OutQueue.ack, hout, hran, waiting_filter_unknown hnone, List.append_nil]
    exact {
      numbers := h.numbers
      distinct := h.distinct
      waits := by
        rw [hacked]
        show ((msgAck sid seqid q.srv).outQ sid).map OutPkt.out = waiting outSeqid q.acked q.queued
        rw [hout', hack, hwaits, waiting_filter_ne hnone]
      acked := by rw [hacked]; exact h.acked
      ran := by rw [hacked, hranEq, h.ran]
      called := by rw [hranEq]; exact h.called
      timer := htimer
      next := ⟨_, hget, by rw [hnext']; exact hnext⟩ }

/-! ## Sending again -/

theorem OutQueue.Inv.retry (h : q.Inv sid first) (now : Nat) (ok : Nat → Bool) :
    (q.retry sid now ok).Inv sid first := by
  unfold OutQueue.retry
  split
  · next harmed =>
    have hne : ¬ (q.srv.outQ sid).isEmpty = true := by simpa using h.timer.mp harmed
    rw [if_neg hne]
    obtain ⟨sess, hg, hnext⟩ := h.next
    have hget : (sessionRetry ok sid (q.srv.setTime now)).sessions.get sid =
        some { sess with outQ := (retryLoop now ok 0 sess.outQ).1 } := by
      simp only [sessionRetry, Server.setTime_sessions, Server.setTime_time, hg, Server.putSess,
        Table.get_put, get_sid hg, if_true]
    have hmap : ((retryLoop now ok 0 sess.outQ).1).map OutPkt.out = sess.outQ.map OutPkt.out :=
      (retryLoop_spec now ok 0 sess.outQ).1
    have hout := Server.outQ_of_get hg
    exact { h with
      waits := by
        rw [Server.outQ_of_get hget]
        exact hmap.trans (hout ▸ h.waits)
      timer := by
        have hempty : (retryLoop now ok 0 sess.outQ).1 = [] ↔ sess.outQ = [] := by
          rw [← List.map_eq_nil_iff (f := OutPkt.out), hmap, List.map_eq_nil_iff]
        have htimer := h.timer
        rw [hout] at htimer
        rw [Server.outQ_of_get hget]
        exact htimer.trans (not_congr hempty.symm)
      next := ⟨_, hget, hnext⟩ }
  · exact h

/-! ## Every order of calls -/

theorem OutQueue.step_queued (e : Env) (sid : Sid) (q : OutQueue) (ev : OutEvent) :
    q.queued.length ≤ (q.step e sid ev).queued.length := by
  cases ev with
  | sendmsg now msg op doneCb => simp [OutQueue.step, OutQueue.sendmsg]
  | ack seqid => exact le_refl _
  | retry now ok =>
    simp only [OutQueue.step, OutQueue.retry]
    split_ifs <;> exact le_refl _

/-- As long as no number comes twice, the queue is exact after any calls, and its numbers increase until
they wrap. -/
theorem run_outQ_exact {e : Env} {sid : Sid} {first : Nat} {q : OutQueue} (h : q.Fresh sid first)
    (evs : List OutEvent)
    (hlen : (run (OutQueue.step e sid) q evs).queued.length ≤ 2 ^ 64) :
    (run (OutQueue.step e sid) q evs).Exact sid first ∧
      (first + (run (OutQueue.step e sid) q evs).queued.length ≤ 2 ^ 64 →
        (((run (OutQueue.step e sid) q evs).srv.outQ sid).map fun op =>
          footSeqid op.pktData).Pairwise (· < ·)) := by
  have hinv : (run (OutQueue.step e sid) q evs).queued.length ≤ 2 ^ 64 →
      (run (OutQueue.step e sid) q evs).Inv sid first := by
    refine run_invariant (I := fun q : OutQueue => q.queued.length ≤ 2 ^ 64 → q.Inv sid first)
      (fun _ => h.inv) (fun q ev ih hle => ?_) evs
    have hq := ih ((q.step_queued e sid ev).trans hle)
    cases ev with
    | sendmsg now msg op doneCb => exact hq.sendmsg now msg op doneCb hle
    | ack seqid => exact hq.ack seqid
    | retry now ok => exact hq.retry now ok
  have hexact := (hinv hlen).toExact
  exact ⟨hexact, hexact.increases⟩

end

/-- Session 1 of the user `cli`, which has been sent nothing. -/
def quietSession (first : Nat) : OutQueue where
  srv := (Server.init 0).putSess
    { sid := 1, sockFd := 5, addr := [], user := .cli, lastContact := 0, nextFh := 2, nextSeqidIn := 1
      nextSeqidOut := first, outQ := [], pingOpen := false, dead := false, msgOp := .nop
      msgXid := 0, msgBuf := [] }
  armed := false
  queued := []
  ran := []
  acked := []

/-- Three pings are sent, the second is acknowledged, and what waits is sent again. -/
def pingEvents : List OutEvent :=
  [.sendmsg 10 .void .ping .sessionPingDone, .sendmsg 20 .void .ping .sessionPingDone,
    .sendmsg 30 .void .ping .sessionPingDone, .ack 8, .ack 4, .retry 40 fun _ => true]

theorem run_outQ_exact_pings :
    (run (OutQueue.step .plain 1) (quietSession 7) pingEvents).Exact 1 7 ∧
      (((run (OutQueue.step .plain 1) (quietSession 7) pingEvents).srv.outQ 1).map fun op =>
        footSeqid op.pktData).Pairwise (· < ·) := by
  have hfresh : (quietSession 7).Fresh 1 7 := ⟨⟨_, rfl, rfl, rfl⟩, rfl, rfl, rfl, rfl⟩
  obtain ⟨hexact, hincreases⟩ := run_outQ_exact (e := .plain) hfresh pingEvents (by decide +kernel)
  exact ⟨hexact, hincreases (by decide +kernel)⟩

end Hail.Cld
