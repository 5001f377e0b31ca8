import Hail.Cld.Conn

/-!
# The gate of the server

Before a packet may touch anything, `cli_rd_pkt` looks up its session, compares address and user
with it, and checks the signature. The operation of a packet is taken from its header or from its
session, and only the request for a new session needs none.
-/
namespace Hail.Cld

open Library

/-- What has been verified of a packet that gets to `tcp_rx`. -/
structure Authentic (e : Env) (srv : Server) (addr raw : Bytes) (info : PktInfo) : Prop where
  header : ∃ hdrLen, parsePktHeader raw = some (info.pkt, hdrLen)
  pktInfo : getPktInfo srv info.pkt (footSeqid raw) = some info
  signed : ∃ key, userKey info.pkt.user = some key ∧
    e.hmac key (raw.take (raw.length - shaDigestLength)) = footSha raw
  session : ∀ sess, srv.sessions.get info.pkt.sid = some sess →
    sess.addr = addr ∧ sess.user.name = info.pkt.user ∧ sess.dead = false ∧ info.op ≠ .newSess
  newSess : srv.sessions.get info.pkt.sid = none → info.op = .newSess

/-- The complete message that a packet makes `tcp_rx` hand to a handler, with the server as it is
then. -/
def Server.handing (e : Env) (srv : Server) (fd : Nat) (addr raw : Bytes) :
    Option (PktInfo × Server) := do
  let (info, chunk) ← admitted e srv addr raw
  let (fits, srv) := srv.arrive fd info chunk
  guard (fits && info.pkt.mi.isLast)
  return (info, srv)

section

variable {e : Env} {srv : Server} {addr raw : Bytes} {info : PktInfo} {chunk : Bytes}

theorem pktChkSig_ok {pkt : CldPktHdr} (h : pktChkSig e raw pkt = .ok) :
    ∃ key, userKey pkt.user = some key ∧
      e.hmac key (raw.take (raw.length - shaDigestLength)) = footSha raw := by
  unfold pktChkSig footCheck cldAuthcheck cldAuthsign at h
  cases hk : userKey pkt.user with
  | none => simp [hk] at h
  | some key =>
    refine ⟨key, rfl, ?_⟩
    by_contra hne
    simp [hk, hne] at h

theorem validatePktSession_ok (h : validatePktSession srv info addr = .ok) :
    (∀ sess, srv.sessions.get info.pkt.sid = some sess →
      sess.addr = addr ∧ sess.user.name = info.pkt.user ∧ sess.dead = false ∧
        info.op ≠ .newSess) ∧
      (srv.sessions.get info.pkt.sid = none → info.op = .newSess) := by
  unfold validatePktSession at h
  cases hg : srv.sessions.get info.pkt.sid with
  | none =>
    refine ⟨fun _ h => (by cases h), fun _ => ?_⟩
    by_contra hop
    simp [hg, hop] at h
  | some sess =>
    refine ⟨?_, fun h => by cases h⟩
    rintro _ ⟨⟩
    simp only [hg] at h
    split_ifs at h with hop haddr huser hdead
    exact ⟨not_not.mp haddr, (not_not.mp huser).symm, by simpa using hdead, hop⟩

theorem admitted_authentic (h : admitted e srv addr raw = some (info, chunk)) :
    Authentic e srv addr raw info := by
  obtain ⟨n, hparse, hinfo, hval, hsig, -, -⟩ := admitted_spec h
  obtain ⟨hsess, hnone⟩ := validatePktSession_ok hval
  exact ⟨⟨n, hparse⟩, hinfo, pktChkSig_ok hsig, hsess, hnone⟩

/-- `tcp_rx` calls a handler for a complete message and for nothing else. -/
theorem tcpRx_handing (e : Env) (ft : Faults) (fd : Nat) (addr : Bytes) (info : PktInfo)
    (chunk : Bytes) (srv : Server) :
    if ((srv.arrive fd info chunk).1 && info.pkt.mi.isLast) = true then
      tcpRx e ft fd addr info chunk srv = dispatch e ft fd addr info (srv.arrive fd info chunk).2
    else (tcpRx e ft fd addr info chunk srv).2.db = srv.db ∧
      (tcpRx e ft fd addr info chunk srv).2.handled = srv.handled := by
  have hdb := (arrive_idle srv fd info chunk).db
  have hhandled : (srv.arrive fd info chunk).2.handled = srv.handled := by
    unfold Server.arrive
    split <;> rfl
  unfold tcpRx
  generalize srv.arrive fd info chunk = r at hdb hhandled ⊢
  obtain ⟨fits, v⟩ := r
  cases hl : info.pkt.mi.isLast with
  | true => cases fits <;> simp_all
  | false =>
    have hsend := simpleSendmsg_idle e v fd info.pkt.sid info.pkt.user 0xdeadbeef
      (.ackFrag info.seqid) .ackFrag
    cases fits <;> simp_all [hsend.db, simpleSendmsg_handled]

theorem arrive_get_isNone (srv : Server) (fd : Nat) (info : PktInfo) (chunk : Bytes) (sid : Sid) :
    (srv.arrive fd info chunk).2.sessions.get sid = none ↔ srv.sessions.get sid = none := by
  have hfh := (arrive_idle srv fd info chunk).nextFh sid
  rw [Server.nextFh, Server.nextFh] at hfh
  rw [← Option.map_eq_none_iff (f := Session.nextFh), hfh, Option.map_eq_none_iff]

end

/-- Whatever the bytes of a packet, `cli_rd_pkt` changes the database or a session only if the packet
is authentic, and a message that it hands to a handler has a session unless it asks for one. -/
theorem cliRdPkt_authentic (e : Env) (ft : Faults) (fd : Nat) (addr raw : Bytes) (srv : Server) :
    ((cliRdPkt e ft fd addr raw srv).2.db ≠ srv.db ∨
        (cliRdPkt e ft fd addr raw srv).2.sessions ≠ srv.sessions →
      ∃ info, Authentic e srv addr raw info) ∧
    match srv.handing e fd addr raw with
    | none => (cliRdPkt e ft fd addr raw srv).2.db = srv.db ∧
        (cliRdPkt e ft fd addr raw srv).2.handled = srv.handled
    | some (info, v) => (v.sessions.get info.pkt.sid = none → info.op = .newSess) ∧
        cliRdPkt e ft fd addr raw srv =
          match dispatch e ft fd addr info v with
          | (.ok, t) => (true, t)
          | (code, t) => (false, simpleSendresp e fd info code t) := by
  cases hadm : admitted e srv addr raw with
  | none =>
    obtain ⟨garbage, rnd, tx, heq⟩ := cliRdPkt_refused e ft fd hadm
    rw [heq]
    simp [Server.handing, hadm]
  | some p =>
    obtain ⟨info, chunk⟩ := p
    have hauth := admitted_authentic hadm
    refine ⟨fun _ => ⟨info, hauth⟩, ?_⟩
    have hcall := tcpRx_handing e ft fd addr info chunk srv
    rw [cliRdPkt_admitted e ft fd hadm]
    simp only [Server.handing, hadm, Option.bind_eq_bind, Option.bind_some, guard]
    split at hcall
    · next hfit =>
      rw [if_pos hfit, hcall]
      exact ⟨fun hnone => hauth.newSess ((arrive_get_isNone ..).mp hnone), rfl⟩
    · next hfit =>
      rw [if_neg hfit]
      generalize tcpRx e ft fd addr info chunk srv = r at hcall ⊢
      obtain ⟨code, t⟩ := r
      cases code
      case ok => exact hcall
      all_goals
        exact ⟨(simpleSendmsg_idle ..).db.trans hcall.1, (simpleSendmsg_handled ..).trans hcall.2⟩

end Hail.Cld
