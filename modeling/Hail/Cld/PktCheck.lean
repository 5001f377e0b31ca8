import Hail.Cld.Pkt

/-!
# Packets as their receiver sees them

Of the four senders, three put the footer where the peer looks for it. `simple_sendmsg` puts it
eight bytes too far: it writes past the end of its buffer, and the peer takes what the stack held
for a sequence number and a part of the footer for the signature.
-/
namespace Hail.Cld

open Library

inductive Sender where
  | sessSendmsg | simpleSendmsg | sessSend | ackSeqid
  deriving DecidableEq, Repr

/-- The packets a sender makes of a message, each with the sequence number it is meant to carry. The
key of a client is the one its server has for the user. -/
def emitted (e : Env) (u : User) (sid seqid xid : Nat) (op : CldMsgOp) (msg : Bytes) :
    Sender → List (Buffer × Nat)
  | .sessSendmsg => (sessPkts e sid u.name seqid xid op msg).getD []
  | .simpleSendmsg => (simplePkt e sid u.name seqid xid op msg).toList.map (·, seqid)
  | .sessSend => (sessSendPkts e sid u.name u.name seqid xid op msg).getD []
  | .ackSeqid => (ackPkt e sid u.name u.name seqid).toList.map (·, seqid)

/-- The key with which the receiver of a packet checks it. -/
def peerKey (u : User) : Sender → Option Bytes
  | .sessSendmsg | .simpleSendmsg => cldcUserKey u.name u.name u.name
  | .sessSend | .ackSeqid => userKey u.name

/-- A packet that passes the check of its receiver and was written inside its buffer. -/
structure PeerAccepts (e : Env) (key : Option Bytes) (pkt : Buffer) (seqid : Nat) : Prop where
  inside : pkt.overrun = false
  footer : cldPktFtrLen ≤ pkt.data.length
  seqid : footSeqid pkt.data = seqid % 2 ^ 64
  sign : footCheck e key pkt.data = true

theorem peerKey_eq (u : User) (s : Sender) : peerKey u s = some u.name := by
  cases s <;> simp [peerKey, u.userKey, u.cldcUserKey]

theorem peerAccepts_rawPkt (e : Env) {key : Bytes} (hkey : key ≠ []) (hdr chunk : Bytes)
    (seqid : Nat) : PeerAccepts e (some key) ⟨rawPkt e key hdr chunk seqid, false⟩ seqid where
  inside := rfl
  footer := by simp
  seqid := footSeqid_rawPkt e key hdr chunk seqid
  sign := footCheck_rawPkt e hkey hdr chunk seqid

theorem peerAccepts_signedPkts (e : Env) {key : Bytes} (hkey : key ≠ []) (u : User) (sid : Nat)
    (parts : List (CldPktMsgInfo × Bytes)) (seqid : Nat) :
    ∀ p ∈ signedPkts e key u sid seqid parts, PeerAccepts e (some key) p.1 p.2 := by
  induction parts generalizing seqid with
  | nil => simp [signedPkts]
  | cons part parts ih =>
    intro p hp
    rcases List.mem_cons.mp hp with rfl | hp
    · exact peerAccepts_rawPkt e hkey _ _ seqid
    · exact ih _ p hp

/-- The footer of `simple_sendmsg` ends eight bytes behind the buffer. -/
theorem simplePkt_overrun (e : Env) (u : User) (sid seqid xid : Nat) (op : CldMsgOp) (msg : Bytes)
    (h : msg.length ≤ cldMaxMsgSz) :
    ∃ pkt, simplePkt e sid u.name seqid xid op msg = some pkt ∧ pkt.overrun = true := by
  simp only [simplePkt, h.not_gt, if_false, pktHdr_encode, u.userKey, signFooter, cldAuthsign,
    u.ne_nil, Option.map_some, Option.getD_some]
  refine ⟨_, rfl, ?_⟩
  set hdr := hdrBytes sid u (.firstLast xid op)
  set bufLen := msg.length + hdr.length + cldPktFtrLen with hb
  have hlen : cldPktFtrLen ≤ bufLen := by omega
  have h0 : ((List.range bufLen).map e.stack).length = bufLen := by simp
  simp only [Buffer.write, e.hmac_length, Bool.or_eq_true, decide_eq_true_eq, Buffer.splice_length]
  right
  rw [h0]
  simp only [shaDigestLength, cldPktFtrLen] at *
  omega

/-- Every packet of a message passes the check of the peer, unless it is one of `simple_sendmsg`. -/
theorem emitted_accepted_iff (e : Env) (u : User) (sid seqid xid : Nat) (op : CldMsgOp)
    (msg : Bytes) (s : Sender) :
    (∀ p ∈ emitted e u sid seqid xid op msg s, PeerAccepts e (peerKey u s) p.1 p.2) ↔
      s ≠ .simpleSendmsg ∨ cldMaxMsgSz < msg.length := by
  simp only [peerKey_eq]
  cases s with
  | sessSendmsg =>
    simp only [ne_eq, reduceCtorEq, not_false_eq_true, true_or, iff_true, emitted]
    by_cases h : msg.length ≤ cldMaxMsgSz
    · rw [sessPkts_eq e sid u seqid xid op h]
      exact peerAccepts_signedPkts e u.ne_nil u sid _ seqid
    · simp [sessPkts, not_le.mp h]
  | simpleSendmsg =>
    simp only [ne_eq, not_true_eq_false, false_or, emitted]
    constructor
    · intro hall
      by_contra hlen
      obtain ⟨pkt, hpkt, hover⟩ := simplePkt_overrun e u sid seqid xid op msg (not_lt.mp hlen)
      have hin := (hall (pkt, seqid) (by simp [hpkt])).inside
      simp [hover] at hin
    · intro hlen
      simp [simplePkt, hlen]
  | sessSend =>
    simp only [ne_eq, reduceCtorEq, not_false_eq_true, true_or, iff_true, emitted]
    rw [sessSendPkts_eq e sid u u.ne_nil seqid xid op msg]
    exact peerAccepts_signedPkts e u.ne_nil u sid _ seqid
  | ackSeqid =>
    simp only [ne_eq, reduceCtorEq, not_false_eq_true, true_or, iff_true, emitted]
    rw [ackPkt_eq e sid u u.ne_nil seqid]
    intro p hp
    obtain ⟨rfl⟩ : p = (_, seqid) := by simpa using hp
    exact peerAccepts_rawPkt e u.ne_nil _ _ seqid

/-- A `CMO_NOT_MASTER` reply, which has no body, is not accepted. -/
theorem notMaster_reply_rejected :
    ¬ ∀ p ∈ emitted Env.plain User.cli 1 0xdeadbeef 0 .notMaster [] .simpleSendmsg,
      PeerAccepts Env.plain (peerKey User.cli .simpleSendmsg) p.1 p.2 := by
  obtain ⟨pkt, hpkt, hover⟩ := simplePkt_overrun Env.plain User.cli 1 0xdeadbeef 0 .notMaster []
    (by decide)
  intro hall
  have hin := (hall (pkt, 0xdeadbeef) (by simp [emitted, hpkt])).inside
  simp [hover] at hin

end Hail.Cld
