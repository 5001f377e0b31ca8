import Hail.Cld.Numbers
import Hail.Cld.Restart
import Hail.Cldc.Window
import Hail.Library.Run

/-!
# Sequence numbers across a restart

The packets of one session, from the queue of the server to `accept_seqid` of its client. The number
of the next packet advances with each packet, but it is stored only when a session is made and when
a handle is opened, both times before the reply is sent. The server may stop between two packets.
-/
namespace Hail.Cldc

open Library Cld

/-! ## The client -/

/-- What `accept_seqid` works with: `msg_buf_op` and the window. -/
structure Listener where
  op : CldMsgOp
  window : SeqWindow
  deriving DecidableEq

/-- A session that has received nothing. -/
def Listener.init : Listener := ⟨.nop, 0, 0⟩

/-- By `rxPkt_listener` this is what a packet changes of it in a session. -/
def Listener.take (c : Listener) (mi : CldPktMsgInfo) (seqid : Nat) : Listener :=
  let op := (mi.infos.map Prod.snd).getD c.op
  ⟨op, (c.window.accept seqid op).getD c.window⟩

/-- A packet is received. -/
def Listener.hear (c : Listener) (raw : Bytes) : Listener :=
  match CldPktHdr.decode (raw.take (raw.length - cldPktFtrLen)) with
  | none => c
  | some (pkt, _) => c.take pkt.mi (footSeqid raw)

def Listener.hearAll (c : Listener) (raws : List Bytes) : Listener := raws.foldl Listener.hear c

/-- The packet has the number that is expected next, or begins a session, and the window moves past
it. -/
def Listener.isNew (c : Listener) (raw : Bytes) : Bool :=
  ((c.hear raw).op = .newSess || footSeqid raw = c.window.next) &&
    (c.hear raw).window.next = (footSeqid raw + 1) % 2 ^ 64

/-- Packets that are new one after the other. -/
def Listener.takesNew (c : Listener) : List Bytes → Bool
  | [] => true
  | raw :: raws => c.isNew raw && (c.hear raw).takesNew raws

def CldcSession.listener (sess : CldcSession) : Listener := ⟨sess.msgBufOp, sess.window⟩

theorem rxPkt_listener (e : Env) (now : Nat) (ok : Bool) (stray : Nat → Nat → Nat)
    (sess : CldcSession) (mi : CldPktMsgInfo) (chunk : Bytes) (seqid : Nat) :
    (sess.rxPkt e now ok stray mi chunk seqid).2.listener = sess.listener.take mi seqid := by
  have hlisten : ∀ x : CldcSession, x.listener = ⟨x.rxState.msgBufOp, x.rxState.window⟩ :=
    fun _ => rfl
  have htake : ∀ w, sess.window.accept seqid (sess.opOf mi) = w →
      sess.listener.take mi seqid = ⟨sess.opOf mi, w.getD sess.window⟩ := by
    rintro w rfl
    rfl
  have hcase := rxPkt_cases e now ok stray sess mi chunk seqid
  generalize sess.rxPkt e now ok stray mi chunk seqid = r at hcase ⊢
  cases hcase with
  | refused h =>
    rw [htake _ h, hlisten, begun_rxState]
    rfl
  | tooLong h hlen =>
    rw [htake _ h]
    exact congrArg (fun r : RxState => Listener.mk r.msgBufOp _) (begun_rxState sess now mi)
  | @taken w h hlen =>
    have hrx : (if mi.isLast then (sess.taken now mi chunk w).rxComplete e ok stray seqid
        else (sess.taken now mi chunk w).ackSeqid e ok seqid).2.rxState =
        (sess.taken now mi chunk w).rxState := by
      split
      · exact rxComplete_rxState ..
      · exact ackSeqid_rxState ..
    rw [htake _ h, hlisten, hrx, taken_rxState]
    rfl

/-! ## Packets of the server -/

/-- A packet to session `sid` whose number, `n`, the client minds. -/
def Carried (sid : Sid) (n : Nat) (raw : Bytes) : Prop :=
  ∃ op : CldMsgOp, op.Numbered ∧ ∀ retry cb, OutPkt.Carries sid op n ⟨raw, retry, cb⟩

theorem Listener.hear_rawPkt (c : Listener) (e : Env) {sid : Sid} {u : User} {mi : CldPktMsgInfo}
    (hw : (pktHdr sid u.name mi).Wire) (key chunk : Bytes) (seqid : Nat) :
    c.hear (rawPkt e key (hdrBytes sid u mi) chunk seqid) = c.take mi (seqid % 2 ^ 64) := by
  unfold Listener.hear
  rw [decode_rawPkt e hw, footSeqid_rawPkt]
  simp only [pktHdr]

theorem SeqWindow.accept_next {w : SeqWindow} {seqid : Nat} {op : CldMsgOp} (hop : op.Numbered)
    (h : op = .newSess ∨ seqid = w.next) :
    ∃ w', w.accept seqid op = some w' ∧ w'.next = (seqid + 1) % 2 ^ 64 := by
  unfold SeqWindow.accept
  split
  · exact ⟨_, rfl, rfl⟩
  · exact absurd rfl hop.2.1
  · exact absurd rfl hop.2.2
  · next hne _ _ =>
    rw [if_pos (h.resolve_left hne)]
    exact ⟨_, rfl, by rw [h.resolve_left hne]⟩

/-- The packet that is expected next is new. -/
theorem Listener.hear_carried {c : Listener} {sid : Sid} {n : Nat} {raw : Bytes}
    (hsid : sid < 2 ^ 64) (hop : c.op.Numbered) (hn : n % 2 ^ 64 = c.window.next)
    (h : Carried sid n raw) :
    c.isNew raw = true ∧ (c.hear raw).op.Numbered ∧ footSeqid raw = n % 2 ^ 64 ∧
      (c.hear raw).window.next = (n + 1) % 2 ^ 64 := by
  obtain ⟨op, hnum, hc⟩ := h
  obtain ⟨e, u, xid, first, last, chunk, seqid, hraw, hxid, hseqid⟩ := hc 0 .none
  dsimp only at hraw
  have hfoot : footSeqid raw = n % 2 ^ 64 := by rw [hraw, footSeqid_rawPkt, hseqid]
  have hhear : c.hear raw = c.take (pktMi xid op first last) (n % 2 ^ 64) := by
    rw [hraw, c.hear_rawPkt e (pktMi_wire u hsid hxid hnum.1 first last), hseqid]
  have htaken : ((pktMi xid op first last).infos.map Prod.snd).getD c.op = op ∨
      ((pktMi xid op first last).infos.map Prod.snd).getD c.op = c.op := by
    cases first <;> cases last <;> simp [pktMi, CldPktMsgInfo.infos]
  have hnum' : (((pktMi xid op first last).infos.map Prod.snd).getD c.op).Numbered := by
    rcases htaken with h | h <;> rw [h] <;> assumption
  obtain ⟨w, hw, hnext⟩ := SeqWindow.accept_next (w := c.window) hnum' (.inr hn)
  have hres : c.hear raw = ⟨((pktMi xid op first last).infos.map Prod.snd).getD c.op, w⟩ := by
    rw [hhear, Listener.take, hw]
    rfl
  rw [Nat.mod_add_mod] at hnext
  refine ⟨?_, by rwa [hres], hfoot, by rw [hres, hnext]⟩
  rw [Listener.isNew, hres, hnext, hfoot, ← hn]
  simp

/-- The reply to `CMO_NEW_SESS` is always new. -/
theorem Listener.hear_greets {c : Listener} {sid : Sid} {n : Nat} {p : OutPkt}
    (hsid : sid < 2 ^ 64) (h : p.Greets sid n) :
    c.isNew p.pktData = true ∧ (c.hear p.pktData).op.Numbered ∧
      footSeqid p.pktData = n % 2 ^ 64 ∧ (c.hear p.pktData).window.next = (n + 1) % 2 ^ 64 := by
  obtain ⟨e, u, xid, chunk, hraw, hxid⟩ := h
  have hwire : (pktHdr sid u.name (.firstLast xid .newSess)).Wire :=
    pktMi_wire u hsid hxid (by decide) true true
  have hfoot : footSeqid p.pktData = n % 2 ^ 64 := by rw [hraw, footSeqid_rawPkt]
  have hhear : c.hear p.pktData =
      ⟨.newSess, (n + 1) % 2 ^ 64, ((n + 1) % 2 ^ 64 + 2 ^ 64 - cldcMsgRemember) % 2 ^ 64⟩ := by
    rw [hraw, c.hear_rawPkt e hwire]
    simp [Listener.take, CldPktMsgInfo.infos, SeqWindow.accept]
  have hnum : CldMsgOp.newSess.Numbered := by decide
  refine ⟨?_, by rwa [hhear], hfoot, by rw [hhear]⟩
  simp [Listener.isNew, hhear, hfoot]

/-- What the client has when it has received packets that were new one after the other. -/
theorem Listener.hearAll_carried {c : Listener} {sid : Sid} {n : Nat} {raws : List Bytes}
    (hsid : sid < 2 ^ 64) (hop : c.op.Numbered) (hn : n % 2 ^ 64 = c.window.next)
    (h : ∀ i raw, raws[i]? = some raw → Carried sid (n + i) raw) :
    c.takesNew raws = true ∧ (c.hearAll raws).op.Numbered ∧
      (c.hearAll raws).window.next = (n + raws.length) % 2 ^ 64 ∧
      ∀ raw, raws.getLast? = some raw → (c.hearAll raws).window.next = (footSeqid raw + 1) % 2 ^ 64 := by
  induction raws generalizing c n with
  | nil => exact ⟨rfl, hop, hn.symm, by simp⟩
  | cons raw raws ih =>
    obtain ⟨hnew, hop', hfoot, hnext⟩ := c.hear_carried hsid hop hn (h 0 raw rfl)
    have htail : ∀ i r, raws[i]? = some r → Carried sid (n + 1 + i) r := by
      intro i r hi
      have hc := h (i + 1) r (by simpa using hi)
      rwa [Nat.add_assoc, Nat.add_comm 1 i]
    obtain ⟨htake, hops, hend, hlast⟩ := ih hop' hnext.symm htail
    refine ⟨by rw [Listener.takesNew, hnew, htake]; rfl, hops, ?_, fun r hr => ?_⟩
    · rw [List.length_cons, Nat.add_comm raws.length, ← Nat.add_assoc]
      exact hend
    · cases raws with
      | nil =>
        obtain rfl : raw = r := by simpa using hr
        rw [hfoot, Nat.mod_add_mod]
        exact hnext
      | cons r' raws => exact hlast r (by simpa using hr)

/-! ## The line between them -/

/-- The packets in the queue of a session. -/
def outPkts (sid : Sid) (s : Server) : List Bytes :=
  ((s.sessions.get sid).elim [] Session.outQ).map OutPkt.pktData

/-- The packets that a step sends on session `sid`. -/
def newPkts (sid : Sid) (s t : Server) : List Bytes := (outPkts sid t).drop (outPkts sid s).length

/-- The server with all packets it has sent on one session. -/
structure Line where
  srv : Server
  pkts : List Bytes

def Line.init (now : Nat) : Line := ⟨Server.init now, []⟩

/-- A step, or a step in which the server stops when it has sent `left` packets on the session, the
transaction being committed or not, and is started again. -/
inductive LineEvent where
  | op (op : Op)
  | crash (op : Op) (left : Nat) (committed : Bool) (now : Nat) (timerFails : Nat → Bool)

/-- The database that a server which stops in a step leaves behind. -/
def Line.left (e : Env) (l : Line) (op : Op) (committed : Bool) : Cldb :=
  if committed then (l.srv.step e op).db else l.srv.db

def Line.step (e : Env) (sid : Sid) (l : Line) : LineEvent → Line
  | .op op => ⟨l.srv.step e op, l.pkts ++ newPkts sid l.srv (l.srv.step e op)⟩
  | .crash op left committed now timerFails =>
    ⟨((l.srv.step e op).setDb (l.left e op committed)).restart now timerFails,
      l.pkts ++ (newPkts sid l.srv (l.srv.step e op)).take left⟩

/-- The client when it has received all that was sent. -/
def Line.client (l : Line) : Listener := Listener.init.hearAll l.pkts

/-- When the server stops, the number stored for the session is that after the last packet sent on
it. -/
def Line.Kept (e : Env) (sid : Sid) (l : Line) : LineEvent → Prop
  | .op _ => True
  | .crash op left committed _ _ =>
    ∀ raw, (l.left e op committed).sessions.get sid = some raw →
      ∃ p, (l.pkts ++ (newPkts sid l.srv (l.srv.step e op)).take left).getLast? = some p ∧
        raw.nextSeqidOut % 2 ^ 64 = (footSeqid p + 1) % 2 ^ 64

/-- Both sides of the line expect the same number. -/
structure Line.InStep (sid : Sid) (l : Line) : Prop where
  op : l.client.op.Numbered
  last : ∀ p, l.pkts.getLast? = some p → l.client.window.next = (footSeqid p + 1) % 2 ^ 64
  mem : ∀ sess, l.srv.sessions.get sid = some sess →
    sess.nextSeqidOut % 2 ^ 64 = l.client.window.next

/-- What packets leave behind when some of them have been received. -/
structure Heard (c : Listener) (raws : List Bytes) : Prop where
  op : (c.hearAll raws).op.Numbered
  last : ∀ p, raws.getLast? = some p → (c.hearAll raws).window.next = (footSeqid p + 1) % 2 ^ 64

theorem Line.InStep.heard_last {sid : Sid} {l : Line} (h : l.InStep sid) {raws : List Bytes}
    (hr : Heard l.client raws) {p : Bytes} (hp : (l.pkts ++ raws).getLast? = some p) :
    (l.client.hearAll raws).window.next = (footSeqid p + 1) % 2 ^ 64 := by
  rcases raws.eq_nil_or_concat with rfl | ⟨raws, q, rfl⟩
  · rw [List.append_nil] at hp
    exact h.last p hp
  · refine hr.last p ?_
    rw [List.concat_eq_append] at hp ⊢
    simpa using hp

theorem Line.InStep.heard {sid : Sid} {l : Line} (h : l.InStep sid) {raws : List Bytes}
    (hr : Heard l.client raws) (srv : Server)
    (hmem : ∀ sess, srv.sessions.get sid = some sess →
      sess.nextSeqidOut % 2 ^ 64 = (l.client.hearAll raws).window.next) :
    Line.InStep sid ⟨srv, l.pkts ++ raws⟩ := by
  have hclient : Line.client ⟨srv, l.pkts ++ raws⟩ = l.client.hearAll raws := by
    simp [Line.client, Listener.hearAll, List.foldl_append]
  constructor <;> rw [hclient]
  · exact hr.op
  · exact fun p hp => h.heard_last hr hp
  · exact hmem

/-- What a step sends on a session is new, and however much of it is sent, the client expects the
number that follows. -/
theorem Line.InStep.sends (e : Env) {sid : Sid} (hsid : sid < 2 ^ 64) {l : Line} (h : l.InStep sid)
    (op : Op) :
    l.client.takesNew (newPkts sid l.srv (l.srv.step e op)) = true ∧
      (∀ k, Heard l.client ((newPkts sid l.srv (l.srv.step e op)).take k)) ∧
      ∀ sess, (l.srv.step e op).sessions.get sid = some sess → sess.nextSeqidOut % 2 ^ 64 =
        (l.client.hearAll (newPkts sid l.srv (l.srv.step e op))).window.next := by
  have hquiet : Heard l.client [] := ⟨h.op, by simp⟩
  have hstep := step_outStep e l.srv op sid
  have hmem := h.mem
  simp only [newPkts, outPkts]
  generalize l.srv.sessions.get sid = a at hstep hmem ⊢
  generalize (l.srv.step e op).sessions.get sid = b at hstep ⊢
  cases hstep with
  | gone => exact ⟨by simp [Listener.takesNew], fun k => by simpa using hquiet, fun _ h => by cases h⟩
  | @queued a b has hq =>
    obtain ⟨pkts, hbq, hbn, hp⟩ := hq
    have hnew : (b.outQ.map OutPkt.pktData).drop (a.outQ.map OutPkt.pktData).length =
        pkts.map OutPkt.pktData := by
      rw [hbq, List.map_append, List.drop_left]
    have hcarried : ∀ i raw, (pkts.map OutPkt.pktData)[i]? = some raw →
        Carried sid (a.nextSeqidOut + i) raw := by
      intro i raw hi
      rw [List.getElem?_map, Option.map_eq_some_iff] at hi
      obtain ⟨x, hx, rfl⟩ := hi
      obtain ⟨m, hm, hc⟩ := hp i x hx
      exact ⟨m.op, hm, fun _ _ => has ▸ hc⟩
    simp only [Option.elim_some, hnew]
    have hall := Listener.hearAll_carried hsid h.op (hmem a rfl) hcarried
    refine ⟨hall.1, fun k => ?_, fun sess hs => ?_⟩
    · have hpart := @Listener.hearAll_carried _ _ _ ((pkts.map OutPkt.pktData).take k) hsid h.op
        (hmem a rfl) fun i raw hi => hcarried i raw ?_
      · exact ⟨hpart.2.1, hpart.2.2.2⟩
      · rw [List.getElem?_take] at hi
        split at hi
        · exact hi
        · cases hi
    · cases hs
      rw [hall.2.2.1, hbn, List.length_map]
  | @acked a b hq hn =>
    have hnew : (b.outQ.map OutPkt.pktData).drop (a.outQ.map OutPkt.pktData).length = [] := by
      simp only [List.length_map, List.drop_eq_nil_iff]
      exact hq
    simp only [Option.elim_some, hnew, List.take_nil]
    refine ⟨rfl, fun _ => hquiet, fun sess hs => ?_⟩
    cases hs
    rw [hn]
    exact hmem a rfl
  | @created b n p hp hq hn =>
    obtain ⟨hnew, hop, hfoot, hnext⟩ := l.client.hear_greets hsid hp
    have hout : (b.outQ.map OutPkt.pktData).drop ([] : List Bytes).length = [p.pktData] := by
      rw [hq]
      rfl
    simp only [Option.elim_some, Option.elim_none, List.map_nil, hout]
    refine ⟨by simp [Listener.takesNew, hnew], fun k => ?_, fun sess hs => ?_⟩
    · cases k with
      | zero => exact hquiet
      | succ k =>
        refine ⟨by simpa [Listener.hearAll] using hop, fun q hq => ?_⟩
        obtain rfl : p.pktData = q := by simpa using hq
        rw [hfoot, Nat.mod_add_mod]
        simpa [Listener.hearAll] using hnext
    · cases hs
      rw [hn, Nat.mod_mod]
      exact hnext.symm

theorem Line.InStep.step (e : Env) {sid : Sid} (hsid : sid < 2 ^ 64) {l : Line} (h : l.InStep sid)
    {ev : LineEvent} (hk : l.Kept e sid ev) : (l.step e sid ev).InStep sid := by
  cases ev with
  | op op =>
    obtain ⟨-, hheard, hmem⟩ := h.sends e hsid op
    have hall := hheard (newPkts sid l.srv (l.srv.step e op)).length
    rw [List.take_length] at hall
    exact h.heard hall _ hmem
  | crash op left committed now timerFails =>
    obtain ⟨-, hheard, -⟩ := h.sends e hsid op
    refine h.heard (hheard left) _ fun sess hs => ?_
    -- the session has been loaded from its record
    obtain ⟨raw, hraw, hdec⟩ := restart_get hs
    obtain ⟨p, hp, hnum⟩ := hk raw hraw
    rw [(sessionDecode_some hdec).2.2.1, hnum, h.heard_last (hheard left) hp]

/-- Runs in which the stored number is kept up to date: what is sent next on the session, by whatever
step, is new to the client. -/
theorem run_numbers_kept (e : Env) {sid : Sid} (hsid : sid < 2 ^ 64) (now : Nat)
    (evs : List LineEvent) (h : Meets (Line.step e sid) (Line.Kept e sid) (Line.init now) evs)
    (op : Op) :
    (run (Line.step e sid) (Line.init now) evs).client.takesNew
      (newPkts sid (run (Line.step e sid) (Line.init now) evs).srv
        ((run (Line.step e sid) (Line.init now) evs).srv.step e op)) = true := by
  have hin : (run (Line.step e sid) (Line.init now) evs).InStep sid := by
    refine h.invariant ⟨?_, by simp [Line.init], ?_⟩ fun l ev hl hk => hl.step e hsid hk
    · show CldMsgOp.nop.Numbered
      decide
    · simp [Line.init, Server.init, Table.empty, Table.get]
  exact (hin.sends e hsid op).1

/-- The server stops when an `OPEN` is committed and its reply is not yet sent. -/
def keptRun : List LineEvent :=
  [.op (.newSess 1), .crash (.open 1 comDirectory [slash]) 0 true 7 fun _ => false]

theorem run_numbers_kept_open :
    (1 : Sid) < 2 ^ 64 ∧ Meets (Line.step .plain 1) (Line.Kept .plain 1) (Line.init 0) keptRun ∧
      (newPkts 1 (run (Line.step .plain 1) (Line.init 0) keptRun).srv
        ((run (Line.step .plain 1) (Line.init 0) keptRun).srv.step .plain
          (.open 1 comDirectory [slash]))).length = 1 ∧
      (run (Line.step .plain 1) (Line.init 0) keptRun).client.takesNew
        (newPkts 1 (run (Line.step .plain 1) (Line.init 0) keptRun).srv
          ((run (Line.step .plain 1) (Line.init 0) keptRun).srv.step .plain
            (.open 1 comDirectory [slash]))) = true := by
  have hsid : (1 : Sid) < 2 ^ 64 := by decide
  have hmeets : Meets (Line.step .plain 1) (Line.Kept .plain 1) (Line.init 0) keptRun := by
    refine ⟨trivial, fun raw hraw => ?_, trivial⟩
    set l := (Line.init 0).step .plain 1 (.op (.newSess 1)) with hl
    have hsame : ((l.left .plain (.open 1 comDirectory [slash]) true).sessions.get 1).map
          (fun r => r.nextSeqidOut % 2 ^ 64) =
        l.pkts.getLast?.map fun p => (footSeqid p + 1) % 2 ^ 64 := by
      rw [hl]
      decide +kernel
    rw [hraw, Option.map_some] at hsame
    obtain ⟨p, hp, hn⟩ := Option.map_eq_some_iff.mp hsame.symm
    refine ⟨p, ?_, hn.symm⟩
    rw [List.take_zero, List.append_nil]
    exact hp
  exact ⟨hsid, hmeets, by decide +kernel,
    run_numbers_kept .plain hsid 0 keptRun hmeets (.open 1 comDirectory [slash])⟩

/-- A server that is restarted after it has made a session repeats the number of its reply. -/
theorem restart_repeats :
    ¬ ∀ (e : Env) (sid : Sid), sid < 2 ^ 64 → ∀ (now : Nat) (evs : List LineEvent) (op : Op),
      (run (Line.step e sid) (Line.init now) evs).client.takesNew
        (newPkts sid (run (Line.step e sid) (Line.init now) evs).srv
          ((run (Line.step e sid) (Line.init now) evs).srv.step e op)) = true := by
  intro h
  have hone := h .plain 1 (by decide) 0
    [.op (.newSess 1), .crash (.tick 7) 0 true 7 fun _ => false] (.open 1 comDirectory [slash])
  revert hone
  decide +kernel

end Hail.Cldc
