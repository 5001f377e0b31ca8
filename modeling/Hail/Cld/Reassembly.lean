import Hail.Cld.Read
import Hail.Library.Run

/-!
# Messages in several packets

A client sends the packets of a message in order, and acknowledgements whenever it receives
something. An acknowledgement is a message of its own, in one packet, and `tcp_rx` puts all messages
of a session together in one place: one that comes between two packets of a request makes the rest
of that request look like an acknowledgement.
-/
namespace Hail.Cld

open Library

/-! ## What the client sends -/

/-- The packets of a request of the client. -/
def requestPkts (e : Env) (u : User) (sid : Sid) (seqid xid : Nat) (op : CldMsgOp) (body : Bytes) :
    List Bytes :=
  ((sessSendPkts e sid u.name u.name seqid xid op body).getD []).map fun p => p.1.data

def ackBytes (e : Env) (u : User) (sid : Sid) (seqid : Nat) : Bytes :=
  (ackPkt e sid u.name u.name seqid).elim [] Buffer.data

/-- Packets with others after each of them. -/
def weave : List Bytes → List (List Bytes) → List Bytes
  | p :: ps, g :: gs => p :: (g ++ weave ps gs)
  | _, _ => []

/-- A request with acknowledgements before it and after each of its packets. -/
def requestStream (e : Env) (u : User) (sid : Sid) (seqid xid : Nat) (op : CldMsgOp) (body : Bytes)
    (before : List Nat) (gaps : List (List Nat)) : List Bytes :=
  before.map (ackBytes e u sid) ++
    weave (requestPkts e u sid seqid xid op body) (gaps.map fun g => g.map (ackBytes e u sid))

def Handled.request? : Handled → Option (Sid × CldMsgOp × Nat × Bytes)
  | .request sid _ op xid body => some (sid, op, xid, body)
  | .ack .. => none

def Handled.ack? : Handled → Option (Sid × Nat)
  | .request .. => none
  | .ack sid seqid => some (sid, seqid)

/-- One request has been handled between two states, and these acknowledgements. -/
def Delivered (s t : Server) (sid : Sid) (op : CldMsgOp) (xid : Nat) (body : Bytes)
    (acks : List Nat) : Prop :=
  ∃ told, t.handled = s.handled ++ told ∧
    told.filterMap Handled.request? = [(sid, op, xid, body)] ∧
    told.filterMap Handled.ack? = acks.map fun a => (sid, a % 2 ^ 64)

/-- No acknowledgement comes between two packets of the request, and none but the last ends the
session. -/
structure Undisturbed (sess : Session) (op : CldMsgOp) (before : List Nat)
    (gaps : List (List Nat)) : Prop where
  between : ∀ g ∈ gaps.dropLast, g = []
  before : ∀ a ∈ before, sess.kills (a % 2 ^ 64) = false
  after : ∀ a ∈ (gaps.getLastD []).dropLast, sess.kills (a % 2 ^ 64) = false ∧
    ¬ (op = .endSess ∧ a % 2 ^ 64 = sess.nextSeqidOut % 2 ^ 64)

theorem ackBytes_eq (e : Env) (u : User) (sid : Sid) (seqid : Nat) :
    ackBytes e u sid seqid = rawPkt e u.name (hdrBytes sid u (.firstLast 0 .ack)) [] seqid := by
  simp [ackBytes, ackPkt_eq e sid u u.ne_nil seqid]

theorem requestPkts_eq (e : Env) (u : User) (sid : Sid) (seqid xid : Nat) (op : CldMsgOp)
    (body : Bytes) :
    requestPkts e u sid seqid xid op body =
      (signedPkts e u.name u sid seqid (msgParts xid op body.length true body)).map
        fun p => p.1.data := by
  rw [requestPkts, sessSendPkts_eq e sid u u.ne_nil, cldcParts_eq]
  rfl

theorem weave_of_gaps {ps : List Bytes} {gs : List (List Bytes)} (hlen : gs.length = ps.length)
    (h : ∀ g ∈ gs.dropLast, g = []) : weave ps gs = ps ++ gs.getLastD [] := by
  induction ps generalizing gs with
  | nil =>
    obtain rfl : gs = [] := by simpa using hlen
    rfl
  | cons p ps ih =>
    cases gs with
    | nil => simp at hlen
    | cons g gs =>
      cases gs with
      | nil =>
        obtain rfl : ps = [] := by simpa using hlen.symm
        simp [weave]
      | cons g' gs =>
        obtain rfl : g = [] := h g (by simp)
        rw [weave, ih (by simpa using hlen) fun x hx => h x (by simp [hx])]
        simp

/-! ## Acknowledgements -/

section

variable (e : Env) (fd : Nat) {s : Server} {sid : Sid} {addr : Bytes} {u : User} {sess : Session}

theorem ackHdr_wire (u : User) (hsid : sid < 2 ^ 64) :
    (pktHdr sid u.name (.firstLast 0 .ack)).Wire := by
  refine ⟨pktMagic_lt, hsid, u.noNul, ?_⟩
  rintro xid op ⟨⟩
  exact ⟨by decide, by decide⟩

/-- One acknowledgement. -/
theorem read_ackBytes (hc : Reaches s sid addr u sess) (hsid : sid < 2 ^ 64) {seqid : Nat}
    {a : Arrival} (ha : a.raw = ackBytes e u sid seqid) :
    ∃ sess', After s (s.read e fd addr a) sid sess' [.ack sid (seqid % 2 ^ 64)] ∧
      sess'.addr = sess.addr ∧ sess'.user = sess.user ∧ sess'.msgOp = .ack ∧
      sess'.nextSeqidOut = sess.nextSeqidOut ∧ sess'.dead = sess.kills (seqid % 2 ^ 64) ∧
      ∀ n, sess'.kills n = (sess.kills n && decide (n ≠ seqid % 2 ^ 64)) := by
  rw [ackBytes_eq] at ha
  have h := read_ack e fd hc (ackHdr_wire u hsid) rfl rfl
    (by simp [Session.bufWith, CldPktMsgInfo.isFirst, CldPktMsgInfo.infos]) ha
  refine ⟨_, h, ?_⟩
  rw [Session.ack_eq]
  refine ⟨rfl, rfl, rfl, rfl, ?_, fun n => ?_⟩
  · have hd : (sess.taken a.now fd u (.firstLast 0 .ack) [] seqid).dead = false := hc.live
    rw [hd, Bool.false_or]
    rfl
  · simp only [Session.kills, List.any_filter, Session.taken, Session.contact]
    rw [Bool.eq_iff_iff]
    simp only [List.any_eq_true, Bool.and_eq_true, decide_eq_true_eq]
    grind

theorem kills_of_ack {sess sess' : Session} {m : Nat} (hm : sess.kills m = false)
    (h : ∀ n, sess'.kills n = (sess.kills n && decide (n ≠ m))) (n : Nat) :
    sess'.kills n = sess.kills n := by
  rw [h n]
  by_cases hn : n = m
  · simp [hn, hm]
  · simp [hn]

theorem map_raw_cons {a : Arrival} {as : List Arrival} {raw : Bytes} {raws : List Bytes}
    (h : (a :: as).map Arrival.raw = raw :: raws) : a.raw = raw ∧ as.map Arrival.raw = raws := by
  simpa using h

/-- Acknowledgements that do not end the session. -/
theorem acks_live (hc : Reaches s sid addr u sess) (hsid : sid < 2 ^ 64) {acks : List Nat}
    {as : List Arrival} (ha : as.map Arrival.raw = acks.map (ackBytes e u sid))
    (hk : ∀ a ∈ acks, sess.kills (a % 2 ^ 64) = false) :
    ∃ sess', After s (run (Server.read e fd addr) s as) sid sess'
        (acks.map fun a => .ack sid (a % 2 ^ 64)) ∧
      Reaches (run (Server.read e fd addr) s as) sid addr u sess' ∧
      sess'.nextSeqidOut = sess.nextSeqidOut ∧ ∀ n, sess'.kills n = sess.kills n := by
  induction acks generalizing s sess as with
  | nil =>
    obtain rfl : as = [] := by simpa using ha
    exact ⟨sess, ⟨hc.get, by simp [run], rfl, rfl⟩, hc, rfl, fun _ => rfl⟩
  | cons n acks ih =>
    cases as with
    | nil => simp at ha
    | cons a as =>
      obtain ⟨ha, has⟩ := map_raw_cons ha
      obtain ⟨sess1, h1, haddr, huser, -, hseq, hdead, hkills⟩ := read_ackBytes e fd hc hsid ha
      have hn := hk n (by simp)
      have hsame := kills_of_ack hn hkills
      obtain ⟨sess2, h2, hc2, hseq2, hkills2⟩ := ih (h1.reaches hc haddr huser (hdead.trans hn)) has
        fun k hm => (hsame _).trans (hk k (List.mem_cons_of_mem n hm))
      exact ⟨sess2, h1.trans h2, hc2, hseq2.trans hseq, fun k => (hkills2 k).trans (hsame k)⟩

/-- A packet of the session. -/
def OfSession (u : User) (sid : Sid) (raw : Bytes) : Prop :=
  ∃ mi chunk seqid, (pktHdr sid u.name mi).Wire ∧ raw = rawPkt e u.name (hdrBytes sid u mi) chunk seqid

theorem run_dead (addr : Bytes) (hg : s.sessions.get sid = some sess) (hd : sess.dead = true) {as : List Arrival}
    (ha : ∀ a ∈ as, OfSession e u sid a.raw) :
    After s (run (Server.read e fd addr) s as) sid sess [] := by
  induction as generalizing s with
  | nil => exact ⟨hg, by simp [run], rfl, rfl⟩
  | cons a as ih =>
    obtain ⟨mi, chunk, seqid, hw, hraw⟩ := ha a (by simp)
    have h1 := read_dead e fd addr hg hd hw hraw
    exact h1.trans (ih h1.get fun b hb => ha b (List.mem_cons_of_mem a hb))

/-- How many of the acknowledgements are handled: all, unless one before the last ends the
session. -/
theorem acks_told (hc : Reaches s sid addr u sess) (hsid : sid < 2 ^ 64) {acks : List Nat}
    {as : List Arrival} (ha : as.map Arrival.raw = acks.map (ackBytes e u sid)) :
    ∃ told, (run (Server.read e fd addr) s as).handled = s.handled ++ told ∧
      told.filterMap Handled.request? = [] ∧
      (told.filterMap Handled.ack? = (acks.map fun a => (sid, a % 2 ^ 64)) ↔
        ∀ a ∈ acks.dropLast, sess.kills (a % 2 ^ 64) = false) := by
  induction acks generalizing s sess as with
  | nil =>
    obtain rfl : as = [] := by simpa using ha
    exact ⟨[], by simp [run], rfl, by simp⟩
  | cons n acks ih =>
    cases as with
    | nil => simp at ha
    | cons a as =>
      obtain ⟨ha, has⟩ := map_raw_cons ha
      obtain ⟨sess1, h1, haddr, huser, -, -, hdead, hkills⟩ := read_ackBytes e fd hc hsid ha
      cases hn : sess.kills (n % 2 ^ 64) with
      | false =>
        obtain ⟨told, ht, hreq, hack⟩ := ih (h1.reaches hc haddr huser (hdead.trans hn)) has
        refine ⟨.ack sid (n % 2 ^ 64) :: told, ?_, by simpa [Handled.request?] using hreq, ?_⟩
        · rw [run, ht, h1.handled, List.append_assoc]
          rfl
        · have hsame := kills_of_ack hn hkills
          cases acks with
          | nil => simpa [Handled.ack?] using hack
          | cons m acks => simpa [-Nat.reducePow, Handled.ack?, hn, hsame] using hack
      | true =>
        have hof : ∀ b ∈ as, OfSession e u sid b.raw := by
          intro b hb
          have hraw : b.raw ∈ as.map Arrival.raw := List.mem_map_of_mem hb
          rw [has] at hraw
          obtain ⟨k, -, hk⟩ := List.mem_map.mp hraw
          exact ⟨_, _, k, ackHdr_wire u hsid, by rw [← hk, ackBytes_eq]⟩
        have hrest := run_dead e fd addr h1.get (hdead.trans hn) hof
        refine ⟨[.ack sid (n % 2 ^ 64)], ?_, rfl, ?_⟩
        · rw [run, hrest.handled, h1.handled, List.append_nil]
        · cases acks with
          | nil => simp [Handled.ack?]
          | cons m acks => simp [-Nat.reducePow, Handled.ack?, hn]

/-! ## A request that is cut in two -/

/-- A session for which the rest of a request is lost. -/
structure Deaf (s : Server) (sid : Sid) (addr : Bytes) (u : User) (sess : Session) : Prop where
  get : s.sessions.get sid = some sess
  addr : sess.addr = addr
  user : sess.user = u
  master : s.isMaster = true
  up : s.up = true
  deaf : sess.dead = true ∨ sess.msgOp = .ack

/-- An acknowledgement, or a packet that is not the first of its message. -/
def Stray (u : User) (sid : Sid) (raw : Bytes) : Prop :=
  (∃ seqid, raw = ackBytes e u sid seqid) ∨
    ∃ mi chunk seqid, (pktHdr sid u.name mi).Wire ∧ mi.infos = none ∧
      raw = rawPkt e u.name (hdrBytes sid u mi) chunk seqid

theorem Stray.ofSession {raw : Bytes} (h : Stray e u sid raw) (hsid : sid < 2 ^ 64) :
    OfSession e u sid raw := by
  rcases h with ⟨seqid, rfl⟩ | ⟨mi, chunk, seqid, hw, -, rfl⟩
  · exact ⟨_, _, seqid, ackHdr_wire u hsid, ackBytes_eq e u sid seqid⟩
  · exact ⟨mi, chunk, seqid, hw, rfl⟩

theorem After.deaf {t : Server} {sess' : Session} {told : List Handled}
    (h : After s t sid sess' told) (hd : Deaf s sid addr u sess) (ha : sess'.addr = sess.addr)
    (hu : sess'.user = sess.user) (hdeaf : sess'.dead = true ∨ sess'.msgOp = .ack) :
    Deaf t sid addr u sess' :=
  ⟨h.get, ha.trans hd.addr, hu.trans hd.user, h.master.trans hd.master, h.up.trans hd.up, hdeaf⟩

theorem read_stray (hd : Deaf s sid addr u sess) (hsid : sid < 2 ^ 64) {a : Arrival}
    (ha : Stray e u sid a.raw) :
    ∃ sess' told, After s (s.read e fd addr a) sid sess' told ∧
      told.filterMap Handled.request? = [] ∧ Deaf (s.read e fd addr a) sid addr u sess' := by
  cases hdead : sess.dead with
  | true =>
    obtain ⟨mi, chunk, seqid, hw, hraw⟩ := ha.ofSession e hsid
    have h := read_dead e fd addr hd.get hdead hw hraw
    exact ⟨sess, [], h, rfl, h.deaf hd rfl rfl (.inl hdead)⟩
  | false =>
    have hack : sess.msgOp = .ack := hd.deaf.resolve_left (by simp [hdead])
    have hc : Reaches s sid addr u sess := ⟨hd.get, hd.addr, hd.user, hdead, hd.master, hd.up⟩
    rcases ha with ⟨seqid, hraw⟩ | ⟨mi, chunk, seqid, hw, hi, hraw⟩
    · obtain ⟨sess', h, haddr, huser, hop, -⟩ := read_ackBytes e fd hc hsid hraw
      exact ⟨sess', _, h, rfl, h.deaf hd haddr huser (.inr hop)⟩
    · -- the packet is taken for a part of the acknowledgement
      have hop : (sess.pktInfo u mi seqid).op = .ack := by simp [Session.pktInfo, hi, hack]
      by_cases hfit : (sess.bufWith mi chunk).length ≤ cldMaxMsgSz
      · cases hl : mi.isLast with
        | false =>
          have h := read_part e fd hc hw (by simp [hop]) hl hfit hraw
          exact ⟨_, _, h, rfl, h.deaf hd rfl rfl (.inr hop)⟩
        | true =>
          have h := read_ack e fd hc hw hop hl hfit hraw
          refine ⟨_, _, h, rfl, h.deaf hd ?_ ?_ (.inr ?_)⟩ <;> rw [Session.ack_eq]
          · rfl
          · rfl
          · exact hop
      · have hf : mi.isFirst = false := by simp [CldPktMsgInfo.isFirst, hi]
        have h := read_overflow e fd hc hw (by simp [hop]) hf (not_le.mp hfit) hraw
        exact ⟨_, _, h, rfl, h.deaf hd rfl rfl (.inr hack)⟩

theorem run_stray (hd : Deaf s sid addr u sess) (hsid : sid < 2 ^ 64) {as : List Arrival}
    (ha : ∀ a ∈ as, Stray e u sid a.raw) :
    ∃ told, (run (Server.read e fd addr) s as).handled = s.handled ++ told ∧
      told.filterMap Handled.request? = [] := by
  induction as generalizing s sess with
  | nil => exact ⟨[], by simp [run], rfl⟩
  | cons a as ih =>
    obtain ⟨sess1, told1, h1, hreq1, hd1⟩ := read_stray e fd hd hsid (ha a (by simp))
    obtain ⟨told2, h2, hreq2⟩ := ih hd1 fun b hb => ha b (List.mem_cons_of_mem a hb)
    refine ⟨told1 ++ told2, ?_, by simp [hreq1, hreq2]⟩
    rw [run, h2, h1.handled, List.append_assoc]

/-! ## The packets of a request -/

theorem Encodes.wire {op : CldMsgOp} {body : Bytes} (h : Encodes op body) : op.Wire := by
  rcases h with ⟨rfl | rfl, -⟩ | ⟨dec, hdec, -⟩
  · exact ⟨by decide, by decide⟩
  · exact ⟨by decide, by decide⟩
  · cases op <;> first | cases hdec; done | exact ⟨by decide, by decide⟩

/-- The session has the bytes `done` of a message, none of it before its first packet. -/
def Begun (sess : Session) (first : Bool) (xid : Nat) (op : CldMsgOp) (done : Bytes) : Prop :=
  if first then done = [] else sess.msgOp = op ∧ sess.msgXid = xid ∧ sess.msgBuf = done

theorem Begun.part {first : Bool} {xid : Nat} {op : CldMsgOp} {done : Bytes}
    (h : Begun sess first xid op done) (last : Bool) (chunk : Bytes) (seqid : Nat) :
    (sess.pktInfo u (pktMi xid op first last) seqid).op = op ∧
      (sess.pktInfo u (pktMi xid op first last) seqid).xid = xid ∧
      sess.bufWith (pktMi xid op first last) chunk = done ++ chunk := by
  cases first with
  | true =>
    obtain rfl : done = [] := h
    cases last <;> exact ⟨rfl, rfl, rfl⟩
  | false =>
    obtain ⟨rfl, rfl, rfl⟩ := h
    cases last <;> exact ⟨rfl, rfl, rfl⟩

/-- A piece of a request with more to come. -/
theorem read_more (hc : Reaches s sid addr u sess) {first : Bool} {xid : Nat} {op : CldMsgOp}
    {done : Bytes} (hb : Begun sess first xid op done)
    (hw : (pktHdr sid u.name (pktMi xid op first false)).Wire) (hop : op ≠ .newSess) {chunk : Bytes}
    {seqid : Nat} (hfit : (done ++ chunk).length ≤ cldMaxMsgSz) {a : Arrival}
    (ha : a.raw = rawPkt e u.name (hdrBytes sid u (pktMi xid op first false)) chunk seqid) :
    ∃ sess', After s (s.read e fd addr a) sid sess' [] ∧ Reaches (s.read e fd addr a) sid addr u sess' ∧
      Begun sess' false xid op (done ++ chunk) ∧ sess'.nextSeqidOut = sess.nextSeqidOut ∧
      sess'.addr = sess.addr ∧ sess'.user = sess.user ∧ ∀ n, sess'.kills n = sess.kills n := by
  obtain ⟨hiop, hixid, hbuf⟩ := hb.part (u := u) false chunk seqid
  have h := read_part e fd hc hw (by rwa [hiop]) (by cases first <;> rfl) (by rwa [hbuf]) ha
  exact ⟨_, h, h.reaches hc rfl rfl hc.live, ⟨hiop, hixid, hbuf⟩, rfl, rfl, rfl, fun _ => rfl⟩

variable {xid : Nat} {op : CldMsgOp}

theorem Encodes.ne_newSess {body : Bytes} (h : Encodes op body) : op ≠ .newSess := by
  rintro rfl
  rcases h with ⟨h | h, -⟩ | ⟨dec, hdec, -⟩
  · cases h
  · cases h
  · cases hdec

/-- The last piece of a request. -/
theorem read_end (hc : Reaches s sid addr u sess) {first : Bool} {done chunk : Bytes} {seqid : Nat}
    (hb : Begun sess first xid op done) (hw : (pktHdr sid u.name (pktMi xid op first true)).Wire)
    (hlen : (done ++ chunk).length ≤ cldMaxMsgSz) (henc : Encodes op (done ++ chunk)) {a : Arrival}
    (ha : a.raw = rawPkt e u.name (hdrBytes sid u (pktMi xid op first true)) chunk seqid) :
    ∃ sess', After s (s.read e fd addr a) sid sess'
      [.request sid (seqid % 2 ^ 64) op xid (done ++ chunk)] ∧ Survives sess sess' op := by
  obtain ⟨hiop, hixid, hbuf⟩ := hb.part (u := u) true chunk seqid
  have h := read_last e fd hc hw (by cases first <;> rfl) (by rwa [hbuf]) (by rwa [hiop, hbuf]) ha
  rwa [hiop, hixid, hbuf] at h

/-- The packets of a request, one right after the other, are put together again. -/
theorem parts_read (hsid : sid < 2 ^ 64) (hxid : xid < 2 ^ 64) {fuel : Nat} {first : Bool}
    {msg done : Bytes} {seqid : Nat} (hc : Reaches s sid addr u sess)
    (hb : Begun sess first xid op done) (hlen : (done ++ msg).length ≤ cldMaxMsgSz)
    (henc : Encodes op (done ++ msg)) {as : List Arrival}
    (ha : as.map Arrival.raw = (signedPkts e u.name u sid seqid
      (msgParts xid op fuel first msg)).map fun p => p.1.data) :
    ∃ n sess', After s (run (Server.read e fd addr) s as) sid sess'
      [.request sid n op xid (done ++ msg)] ∧ Survives sess sess' op := by
  induction fuel using Nat.strong_induction_on generalizing first msg done seqid s sess as with
  | _ fuel ih =>
    have hwire := pktMi_wire u hsid hxid henc.wire first
    rcases msgParts_cases xid op fuel first msg with hp | ⟨n, rfl, hp⟩
    · rw [hp, signedPkts, signedPkts, List.map_singleton] at ha
      obtain ⟨a, rfl, hraw⟩ := List.map_eq_singleton_iff.mp ha
      obtain ⟨sess', h, hs⟩ := read_end e fd hc hb (hwire true) hlen henc hraw
      exact ⟨_, sess', h, hs⟩
    · rw [hp, signedPkts, List.map_cons] at ha
      obtain ⟨a, as, rfl, ha, has⟩ := List.map_eq_cons_iff.mp ha
      have hsplit : done ++ msg = (done ++ msg.take cldMaxPktMsgSz) ++ msg.drop cldMaxPktMsgSz := by
        rw [List.append_assoc, List.take_append_drop]
      have hfit : (done ++ msg.take cldMaxPktMsgSz).length ≤ cldMaxMsgSz := by
        rw [hsplit, List.length_append] at hlen
        omega
      obtain ⟨sess1, h1, hc1, hb1, hseq, haddr, huser, hkills⟩ :=
        read_more e fd hc hb (hwire false) henc.ne_newSess hfit ha
      rw [hsplit] at hlen henc ⊢
      obtain ⟨k, sess2, h2, hs2⟩ := ih n (Nat.lt_succ_self n) hc1 hb1 hlen henc has
      refine ⟨k, sess2, h1.trans h2, ?_⟩
      exact ⟨hs2.addr.trans haddr, hs2.user.trans huser, hs2.dead.trans (hc1.live.trans hc.live.symm),
        fun m => by rw [hs2.kills m, hkills m, hseq]⟩

theorem mem_signedPkts {key : Bytes} {seqid : Nat} {parts : List (CldPktMsgInfo × Bytes)}
    {p : Buffer × Nat} (h : p ∈ signedPkts e key u sid seqid parts) :
    ∃ q ∈ parts, ∃ n, p.1.data = rawPkt e key (hdrBytes sid u q.1) q.2 n := by
  induction parts generalizing seqid with
  | nil => simp [signedPkts] at h
  | cons q parts ih =>
    rcases List.mem_cons.mp h with rfl | h
    · exact ⟨q, by simp, seqid, rfl⟩
    · obtain ⟨q', hq', hp⟩ := ih h
      exact ⟨q', List.mem_cons_of_mem q hq', hp⟩

theorem parts_ofSession (hsid : sid < 2 ^ 64) (hxid : xid < 2 ^ 64) (hop : op.Wire) {fuel : Nat}
    {first : Bool} {msg : Bytes} {seqid : Nat} {p : Buffer × Nat}
    (h : p ∈ signedPkts e u.name u sid seqid (msgParts xid op fuel first msg)) :
    OfSession e u sid p.1.data := by
  obtain ⟨q, hq, n, hp⟩ := mem_signedPkts e h
  obtain ⟨f, l, hf, -⟩ := mem_msgParts hq
  refine ⟨q.1, q.2, n, ?_, hp⟩
  rw [hf]
  exact pktMi_wire u hsid hxid hop f l

/-- All packets but the first are strays when the first is not there. -/
theorem parts_stray (hsid : sid < 2 ^ 64) (hxid : xid < 2 ^ 64) (hop : op.Wire) {fuel : Nat}
    {msg : Bytes} {seqid : Nat} {p : Buffer × Nat}
    (h : p ∈ signedPkts e u.name u sid seqid (msgParts xid op fuel false msg)) :
    Stray e u sid p.1.data := by
  obtain ⟨q, hq, n, hp⟩ := mem_signedPkts e h
  obtain ⟨f, l, hql, hf⟩ := mem_msgParts hq
  refine .inr ⟨q.1, q.2, n, ?_, ?_, hp⟩
  · rw [hql]
    exact pktMi_wire u hsid hxid hop f l
  · rw [hql, hf rfl]
    cases l <;> rfl

theorem mem_weave {ps : List Bytes} {gs : List (List Bytes)} {x : Bytes} (h : x ∈ weave ps gs) :
    x ∈ ps ∨ ∃ g ∈ gs, x ∈ g := by
  induction ps generalizing gs with
  | nil => simp [weave] at h
  | cons p ps ih =>
    cases gs with
    | nil => simp [weave] at h
    | cons g gs =>
      rw [weave, List.mem_cons, List.mem_append] at h
      rcases h with rfl | h | h
      · exact .inl (by simp)
      · exact .inr ⟨g, by simp, h⟩
      · rcases ih h with h | ⟨g', hg', h⟩
        · exact .inl (List.mem_cons_of_mem p h)
        · exact .inr ⟨g', List.mem_cons_of_mem g hg', h⟩

/-- A request with an acknowledgement between its packets is not handled. -/
theorem parts_cut (hsid : sid < 2 ^ 64) (hxid : xid < 2 ^ 64) {fuel : Nat} {first : Bool}
    {msg done : Bytes} {seqid : Nat} (hc : Reaches s sid addr u sess)
    (hb : Begun sess first xid op done) (hlen : (done ++ msg).length ≤ cldMaxMsgSz)
    (henc : Encodes op (done ++ msg)) {gaps : List (List Nat)}
    (hg : gaps.length = (msgParts xid op fuel first msg).length)
    (hcut : ∃ g ∈ gaps.dropLast, g ≠ []) {as : List Arrival}
    (ha : as.map Arrival.raw = weave ((signedPkts e u.name u sid seqid
      (msgParts xid op fuel first msg)).map fun p => p.1.data)
        (gaps.map fun g => g.map (ackBytes e u sid))) :
    ∃ told, (run (Server.read e fd addr) s as).handled = s.handled ++ told ∧
      told.filterMap Handled.request? = [] := by
  induction fuel using Nat.strong_induction_on generalizing first msg done seqid s sess as gaps with
  | _ fuel ih =>
    have hwire := pktMi_wire u hsid hxid henc.wire first
    rcases msgParts_cases xid op fuel first msg with hp | ⟨n, rfl, hp⟩
    · rw [hp] at hg
      obtain ⟨g, rfl⟩ := List.length_eq_one_iff.mp hg
      simp at hcut
    · rw [hp] at hg ha
      obtain ⟨g, gs, rfl⟩ : ∃ g gs, gaps = g :: gs := by
        cases gaps with
        | nil => simp at hg
        | cons g gs => exact ⟨g, gs, rfl⟩
      rw [signedPkts, List.map_cons, List.map_cons, weave] at ha
      obtain ⟨a, as, rfl, ha, has⟩ := List.map_eq_cons_iff.mp ha
      have hsplit : done ++ msg = (done ++ msg.take cldMaxPktMsgSz) ++ msg.drop cldMaxPktMsgSz := by
        rw [List.append_assoc, List.take_append_drop]
      have hfit : (done ++ msg.take cldMaxPktMsgSz).length ≤ cldMaxMsgSz := by
        rw [hsplit, List.length_append] at hlen
        omega
      obtain ⟨sess1, h1, hc1, hb1, -⟩ := read_more e fd hc hb (hwire false) henc.ne_newSess hfit ha
      obtain ⟨told, ht, hreq⟩ : ∃ told, (run (Server.read e fd addr) (s.read e fd addr a) as).handled =
          (s.read e fd addr a).handled ++ told ∧ told.filterMap Handled.request? = [] := by
        cases g with
        | nil =>
          have hgs : gs.length = (msgParts xid op n false (msg.drop cldMaxPktMsgSz)).length := by
            simpa using hg
          have hne : gs ≠ [] := by
            rintro rfl
            simp at hcut
          rw [hsplit] at hlen henc
          refine ih n (Nat.lt_succ_self n) hc1 hb1 hlen henc hgs ?_ (by simpa using has)
          obtain ⟨g, hmem, hg⟩ := hcut
          rw [List.dropLast_cons_of_ne_nil hne] at hmem
          exact ⟨g, (List.mem_cons.mp hmem).resolve_left hg, hg⟩
        | cons m g =>
          rw [List.map_cons, List.cons_append] at has
          obtain ⟨b, bs, rfl, hb, hbs⟩ := List.map_eq_cons_iff.mp has
          obtain ⟨sess2, h2, haddr, huser, hack, -⟩ := read_ackBytes e fd hc1 hsid hb
          have hd : Deaf ((s.read e fd addr a).read e fd addr b) sid addr u sess2 :=
            ⟨h2.get, haddr.trans hc1.addr, huser.trans hc1.user, h2.master.trans hc1.master,
              h2.up.trans hc1.up, .inr hack⟩
          have hstray : ∀ x ∈ bs, Stray e u sid x.raw := by
            intro x hx
            have hraw : x.raw ∈ bs.map Arrival.raw := List.mem_map_of_mem hx
            rw [hbs, List.mem_append] at hraw
            rcases hraw with hraw | hraw
            · obtain ⟨k, -, hk⟩ := List.mem_map.mp hraw
              exact .inl ⟨k, hk.symm⟩
            · rcases mem_weave hraw with hraw | ⟨acks, hacks, hraw⟩
              · obtain ⟨p, hm, hpx⟩ := List.mem_map.mp hraw
                rw [← hpx]
                exact parts_stray e hsid hxid henc.wire hm
              · obtain ⟨ks, -, rfl⟩ := List.mem_map.mp hacks
                obtain ⟨k, -, hk⟩ := List.mem_map.mp hraw
                exact .inl ⟨k, hk.symm⟩
          obtain ⟨told, ht, hreq⟩ := run_stray e fd hd hsid hstray
          refine ⟨.ack sid (m % 2 ^ 64) :: told, ?_, by simpa [Handled.request?] using hreq⟩
          rw [run, ht, h2.handled, List.append_assoc]
          rfl
      refine ⟨told, ?_, hreq⟩
      rw [run, ht, h1.handled, List.append_nil]

/-! ## A request and its acknowledgements -/

theorem delivered_iff {t : Server} {told : List Handled} (h : t.handled = s.handled ++ told)
    {body : Bytes} {acks : List Nat} :
    Delivered s t sid op xid body acks ↔
      told.filterMap Handled.request? = [(sid, op, xid, body)] ∧
      told.filterMap Handled.ack? = acks.map fun a => (sid, a % 2 ^ 64) := by
  constructor
  · rintro ⟨told', h', hd⟩
    rwa [List.append_cancel_left (h.symm.trans h')]
  · exact fun hd => ⟨told, h, hd⟩

theorem not_delivered {t : Server} {body : Bytes} {acks : List Nat}
    (h : ∃ told, t.handled = s.handled ++ told ∧ told.filterMap Handled.request? = []) :
    ¬ Delivered s t sid op xid body acks := by
  obtain ⟨told, ht, hreq⟩ := h
  rw [delivered_iff ht, hreq]
  simp

/-- An acknowledgement that ends the session before the request comes. -/
theorem acks_kill (hc : Reaches s sid addr u sess) (hsid : sid < 2 ^ 64) {acks : List Nat}
    {raws : List Bytes} (hk : ∃ a ∈ acks, sess.kills (a % 2 ^ 64) = true) {as : List Arrival}
    (ha : as.map Arrival.raw = acks.map (ackBytes e u sid) ++ raws)
    (hraws : ∀ raw ∈ raws, OfSession e u sid raw) :
    ∃ told, (run (Server.read e fd addr) s as).handled = s.handled ++ told ∧
      told.filterMap Handled.request? = [] := by
  induction acks generalizing s sess as with
  | nil => simp at hk
  | cons n acks ih =>
    rw [List.map_cons, List.cons_append] at ha
    obtain ⟨a, as, rfl, hraw, has⟩ := List.map_eq_cons_iff.mp ha
    obtain ⟨sess1, h1, haddr, huser, -, -, hdead, hkills⟩ := read_ackBytes e fd hc hsid hraw
    obtain ⟨told, ht, hreq⟩ : ∃ told, (run (Server.read e fd addr) (s.read e fd addr a) as).handled =
        (s.read e fd addr a).handled ++ told ∧ told.filterMap Handled.request? = [] := by
      cases hn : sess.kills (n % 2 ^ 64) with
      | false =>
        refine ih (h1.reaches hc haddr huser (hdead.trans hn)) ?_ has
        obtain ⟨k, hm, hkk⟩ := hk
        rcases List.mem_cons.mp hm with rfl | hm
        · exact absurd (hn.symm.trans hkk) (by simp)
        · exact ⟨k, hm, (kills_of_ack hn hkills _).trans hkk⟩
      | true =>
        have hof : ∀ b ∈ as, OfSession e u sid b.raw := by
          intro b hb
          have hmem : b.raw ∈ as.map Arrival.raw := List.mem_map_of_mem hb
          rw [has, List.mem_append] at hmem
          rcases hmem with hmem | hmem
          · obtain ⟨k, -, hk⟩ := List.mem_map.mp hmem
            exact ⟨_, _, k, ackHdr_wire u hsid, by rw [← hk, ackBytes_eq]⟩
          · exact hraws b.raw hmem
        have hrest := run_dead e fd addr h1.get (hdead.trans hn) hof
        exact ⟨[], hrest.handled, rfl⟩
    refine ⟨.ack sid (n % 2 ^ 64) :: told, ?_, by simpa [Handled.request?] using hreq⟩
    rw [run, ht, h1.handled, List.append_assoc]
    rfl

theorem flatten_of_gaps {gaps : List (List Nat)} (h : ∀ g ∈ gaps.dropLast, g = []) :
    gaps.flatten = gaps.getLastD [] := by
  induction gaps with
  | nil => rfl
  | cons g gs ih =>
    cases gs with
    | nil => simp
    | cons g' gs =>
      obtain rfl : g = [] := h g (by simp)
      rw [List.flatten_cons, List.nil_append, ih fun x hx => h x (by simp [hx])]
      simp

theorem requestPkts_ofSession (hsid : sid < 2 ^ 64) (hxid : xid < 2 ^ 64) {body : Bytes} {seqid : Nat}
    (henc : Encodes op body) {gaps : List (List Nat)} :
    ∀ raw ∈ weave (requestPkts e u sid seqid xid op body)
      (gaps.map fun g => g.map (ackBytes e u sid)), OfSession e u sid raw := by
  intro raw hraw
  rcases mem_weave hraw with hraw | ⟨acks, hacks, hraw⟩
  · rw [requestPkts_eq] at hraw
    obtain ⟨p, hm, rfl⟩ := List.mem_map.mp hraw
    exact parts_ofSession e hsid hxid henc.wire hm
  · obtain ⟨ks, -, rfl⟩ := List.mem_map.mp hacks
    obtain ⟨k, -, rfl⟩ := List.mem_map.mp hraw
    exact ⟨_, _, k, ackHdr_wire u hsid, ackBytes_eq e u sid k⟩

/-- A request that the client has sent in one piece, with acknowledgements after it. -/
theorem request_delivered (hc : Reaches s sid addr u sess) (hsid : sid < 2 ^ 64)
    (hxid : xid < 2 ^ 64) {body : Bytes} {seqid : Nat} (henc : Encodes op body)
    (hlen : body.length ≤ cldMaxMsgSz) {last : List Nat} {as : List Arrival}
    (ha : as.map Arrival.raw = requestPkts e u sid seqid xid op body ++
      last.map (ackBytes e u sid)) :
    ∃ told, (run (Server.read e fd addr) s as).handled = s.handled ++ told ∧
      told.filterMap Handled.request? = [(sid, op, xid, body)] ∧
      (told.filterMap Handled.ack? = (last.map fun a => (sid, a % 2 ^ 64)) ↔
        ∀ a ∈ last.dropLast, sess.kills (a % 2 ^ 64) = false ∧
          ¬ (op = .endSess ∧ a % 2 ^ 64 = sess.nextSeqidOut % 2 ^ 64)) := by
  obtain ⟨as1, as2, rfl, ha1, ha2⟩ := List.map_eq_append_iff.mp ha
  rw [requestPkts_eq] at ha1
  have hbegun : Begun sess true xid op [] := rfl
  obtain ⟨n, sess1, h1, hs1⟩ := parts_read e fd hsid hxid hc hbegun hlen henc ha1
  have hc1 := h1.reaches hc hs1.addr hs1.user (hs1.dead.trans hc.live)
  obtain ⟨told, ht, hreq, hack⟩ := acks_told e fd hc1 hsid ha2
  refine ⟨.request sid n op xid body :: told, ?_, by simp [Handled.request?, hreq], ?_⟩
  · rw [run_append, ht, h1.handled, List.append_assoc]
    rfl
  · rw [List.filterMap_cons]
    simp only [Handled.ack?, hack, hs1.kills]
    simp only [Bool.or_eq_false_iff, Bool.and_eq_false_iff, decide_eq_false_iff_not, not_and_or]

/-- A request is handled, as it was sent, together with every acknowledgement around it, if and only
if no acknowledgement comes between its packets (and none but the last one ends the session). -/
theorem requestStream_delivered_iff (hc : Reaches s sid addr u sess) (hsid : sid < 2 ^ 64)
    (hxid : xid < 2 ^ 64) (seqid : Nat) {body : Bytes} (henc : Encodes op body)
    (hlen : body.length ≤ cldMaxMsgSz) (before : List Nat) (gaps : List (List Nat))
    (hg : gaps.length = (requestPkts e u sid seqid xid op body).length) (as : List Arrival)
    (ha : as.map Arrival.raw = requestStream e u sid seqid xid op body before gaps) :
    Delivered s (run (Server.read e fd addr) s as) sid op xid body (before ++ gaps.flatten) ↔
      Undisturbed sess op before gaps := by
  by_cases hb : ∀ a ∈ before, sess.kills (a % 2 ^ 64) = false
  · by_cases hgap : ∀ g ∈ gaps.dropLast, g = []
    · have hgap' : ∀ g ∈ (gaps.map fun g => g.map (ackBytes e u sid)).dropLast, g = [] := by
        intro g hm
        rw [← List.map_dropLast] at hm
        obtain ⟨k, hk, rfl⟩ := List.mem_map.mp hm
        rw [hgap k hk, List.map_nil]
      have hlast : (gaps.map fun g => g.map (ackBytes e u sid)).getLastD [] =
          (gaps.getLastD []).map (ackBytes e u sid) := by
        cases gaps.eq_nil_or_concat with
        | inl h => simp [h]
        | inr h =>
          obtain ⟨gs, g, rfl⟩ := h
          simp
      rw [requestStream, weave_of_gaps (by simpa using hg) hgap', hlast] at ha
      obtain ⟨as1, as2, rfl, ha1, ha2⟩ := List.map_eq_append_iff.mp ha
      obtain ⟨sess1, h1, hc1, hseq, hkills⟩ := acks_live e fd hc hsid ha1 hb
      obtain ⟨told, ht, hreq, hack⟩ := request_delivered e fd hc1 hsid hxid henc hlen ha2
      have htold : (run (Server.read e fd addr) s (as1 ++ as2)).handled =
          s.handled ++ ((before.map fun a => .ack sid (a % 2 ^ 64)) ++ told) := by
        rw [run_append, ht, h1.handled, List.append_assoc]
      have hreq0 : (before.map fun a => Handled.ack sid (a % 2 ^ 64)).filterMap Handled.request? =
          [] := by simp [Handled.request?]
      have hack0 : (before.map fun a => Handled.ack sid (a % 2 ^ 64)).filterMap Handled.ack? =
          before.map fun a => (sid, a % 2 ^ 64) := by simp [Function.comp_def, Handled.ack?]
      rw [delivered_iff htold, List.filterMap_append, List.filterMap_append, hreq0, hack0, hreq,
        flatten_of_gaps hgap, List.map_append, List.append_cancel_left_eq, hack]
      simp only [hkills, hseq]
      constructor
      · exact fun h => ⟨hgap, hb, h.2⟩
      · exact fun h => ⟨rfl, h.after⟩
    · obtain ⟨as1, as2, rfl, ha1, ha2⟩ := List.map_eq_append_iff.mp ha
      obtain ⟨sess1, h1, hc1, -⟩ := acks_live e fd hc hsid ha1 hb
      rw [requestPkts_eq] at ha2 hg
      have hlen' : ∀ parts : List (CldPktMsgInfo × Bytes), ∀ n,
          (signedPkts e u.name u sid n parts).length = parts.length := by
        intro parts
        induction parts with
        | nil => exact fun _ => rfl
        | cons p parts ih => exact fun n => congrArg (· + 1) (ih _)
      have hcut : ∃ g ∈ gaps.dropLast, g ≠ [] := by
        push Not at hgap
        exact hgap
      have hbegun : Begun sess1 true xid op [] := rfl
      obtain ⟨told, ht, hreq⟩ := parts_cut e fd hsid hxid hc1 hbegun hlen henc
        (by rw [hg, List.length_map, hlen']) hcut ha2
      refine iff_of_false (not_delivered ⟨(before.map fun a => .ack sid (a % 2 ^ 64)) ++ told, ?_, ?_⟩)
        fun h => hgap h.between
      · rw [run_append, ht, h1.handled, List.append_assoc]
      · simp [Handled.request?, hreq]
  · have hk : ∃ a ∈ before, sess.kills (a % 2 ^ 64) = true := by
      push Not at hb
      simpa [-Nat.reducePow] using hb
    have hno := acks_kill e fd hc hsid hk ha (requestPkts_ofSession e hsid hxid henc)
    exact iff_of_false (not_delivered hno) fun h => hb h.before

end

/-- A server with session 1 of the user `cli`. -/
def greeted : Server := run (Server.step .plain) (Server.init 0) [.newSess 1]

/-- The body of a `CMO_PUT` of 1100 bytes, which takes two packets. -/
def longPut : Bytes :=
  Xdr.putHyper 2 ++ (Xdr.putVar cldMaxPayloadSz (List.replicate 1100 0x2a)).getD []

/-- The packets as they arrive, without faults. -/
def arrivals (raws : List Bytes) : List Arrival := raws.map fun raw => ⟨1, .none, raw⟩

theorem requestStream_delivered_iff_put :
    ∃ sess, Reaches greeted 1 [] .cli sess ∧
      Delivered greeted (run (Server.read .plain 5 [])  greeted
        (arrivals (requestStream .plain .cli 1 0 9 .put longPut [3] [[], [4]]))) 1 .put 9 longPut
        [3, 4] := by
  obtain ⟨sess, hg⟩ : ∃ sess, greeted.sessions.get 1 = some sess :=
    Option.isSome_iff_exists.mp (by decide +kernel)
  have hsess : ((greeted.sessions.get 1).all fun sess => decide (sess.addr = [] ∧
      sess.user = .cli ∧ sess.dead = false) && sess.outQ.all fun op => op.doneCb = .none) = true := by
    decide +kernel
  rw [hg] at hsess
  simp only [Option.all_some, Bool.and_eq_true, decide_eq_true_eq] at hsess
  obtain ⟨⟨haddr, huser, hdead⟩, hout⟩ := hsess
  have hc : Reaches greeted 1 [] .cli sess :=
    ⟨hg, haddr, huser, hdead, by decide +kernel, by decide +kernel⟩
  have hkills : ∀ n, sess.kills n = false := by
    intro n
    simp only [Session.kills, List.any_eq_false]
    intro op hop
    have hcb := List.all_eq_true.mp hout op hop
    simp [of_decide_eq_true hcb]
  refine ⟨sess, hc, (requestStream_delivered_iff .plain 5 hc (by decide) (by decide) 0 ?_ ?_ [3]
    [[], [4]] ?_ _ ?_).mpr ⟨by simp, fun _ _ => hkills _, by simp⟩⟩
  · exact .inr ⟨_, rfl, by decide +kernel⟩
  · decide +kernel
  · decide +kernel
  · simp [arrivals, Function.comp_def]

/-- An acknowledgement after the first of the two packets: the put is not handled. -/
theorem longPut_cut :
    ¬ Delivered greeted (run (Server.read .plain 5 []) greeted
      (arrivals (requestStream .plain .cli 1 0 9 .put longPut [] [[4], []]))) 1 .put 9 longPut
      [4] := by
  refine not_delivered ⟨[.ack 1 4, .ack 1 1], ?_, ?_⟩
  · decide +kernel
  · rfl

end Hail.Cld
