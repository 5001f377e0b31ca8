import Hail.Cld.Rpc
import Hail.Library.Buffer
import Mathlib.Tactic

/-!
# Packets

A packet is an XDR header, a piece of a message and a footer of a little-endian sequence number and
an HMAC. Server and client each build packets in two ways, by writing into a buffer at offsets
worked out by hand; the peer reads the footer off the end of what it receives.
-/
namespace Hail.Cld

open Library

def shaDigestLength : Nat := 20

/-- `sizeof(struct cld_pkt_ftr)`, a packed 64-bit number and a digest. -/
def cldPktFtrLen : Nat := 28

/-- What the program takes from its surroundings: HMAC-SHA1, the values `rand` returns, and what an
automatic buffer holds before it is written. -/
structure Env where
  hmac : Bytes → Bytes → Bytes
  hmac_length : ∀ key buf, (hmac key buf).length = shaDigestLength
  rand : Nat → Nat
  stack : Nat → UInt8

/-! ## Signatures -/

def cldAuthsign (e : Env) (key : Option Bytes) (buf : Bytes) : Option Bytes :=
  match key with
  | none => none
  | some key => if key = [] then none else some (e.hmac key buf)

def cldAuthcheck (e : Env) (key : Option Bytes) (buf sha : Bytes) : Bool :=
  cldAuthsign e key buf = some sha

/-- The server's `user_key`: the user is the key. -/
def userKey (user : Bytes) : Option Bytes :=
  if user = [] ∨ 32 ≤ user.length then none else some user

/-- The client's `user_key`, for a session of user `sessUser`. -/
def cldcUserKey (sessUser secretKey user : Bytes) : Option Bytes :=
  if user = [] ∨ cldMaxUsername ≤ user.length then none
  else if sessUser ≠ user then none
  else some secretKey

/-- `cld_rand64` by two calls of `rand`, `n` having been made. -/
def cldRand64 (e : Env) (n : Nat) : Nat := e.rand n % 2 ^ 32 + 2 ^ 32 * (e.rand (n + 1) % 2 ^ 32)

theorem cldRand64_lt (e : Env) (n : Nat) : cldRand64 e n < 2 ^ 64 := by
  have h1 : e.rand n % 2 ^ 32 < 2 ^ 32 := Nat.mod_lt _ (by decide)
  have h2 : e.rand (n + 1) % 2 ^ 32 < 2 ^ 32 := Nat.mod_lt _ (by decide)
  unfold cldRand64
  omega

/-! ## Building packets -/

def pktHdr (sid : Nat) (user : Bytes) (mi : CldPktMsgInfo) : CldPktHdr :=
  ⟨ofLe cldPktMagic, sid, user, mi⟩

/-- The order of a packet in its message. -/
def pktMi (xid : Nat) (op : CldMsgOp) : (first last : Bool) → CldPktMsgInfo
  | true, true => .firstLast xid op
  | true, false => .first xid op
  | false, true => .last
  | false, false => .mid

/-- Write the sequence number of the footer at `foot`, sign the first `signLen` bytes and write the
signature behind the number. -/
def signFooter (e : Env) (key : Option Bytes) (buf : Buffer) (foot signLen seqid : Nat) :
    Option Buffer :=
  let buf := buf.write foot (leBytes 8 seqid)
  (cldAuthsign e key (buf.data.take signLen)).map (buf.write (foot + 8) ·)

/-- A zeroed packet buffer with header and message bytes filled in. -/
def fillPkt (hdr chunk : Bytes) : Buffer :=
  ((Buffer.mk (List.replicate (hdr.length + chunk.length + cldPktFtrLen) 0) false).write 0 hdr).write
    hdr.length chunk

def buildPkts : List (CldPktHdr × Bytes) → Option (List Buffer)
  | [] => some []
  | (pkt, chunk) :: rest => do
    let hdr ← pkt.encode
    let bufs ← buildPkts rest
    return fillPkt hdr chunk :: bufs

/-- Footers for a list of packets, from sequence number `seqid` on. -/
def signPkts (e : Env) (key : Option Bytes) : Nat → List Buffer → Option (List (Buffer × Nat))
  | _, [] => some []
  | seqid, buf :: bufs => do
    let signed ← signFooter e key buf (buf.data.length - cldPktFtrLen)
      (buf.data.length - shaDigestLength) seqid
    let rest ← signPkts e key ((seqid + 1) % 2 ^ 64) bufs
    return (signed, seqid) :: rest

/-- The loop of `sess_sendmsg` that breaks a message into packets. All but the last take
`CLD_MAX_PKT_MSG_SZ` bytes, so as many rounds as there are bytes are enough. -/
def sessPktLoop (sid : Nat) (user : Bytes) (xid : Nat) (op : CldMsgOp) :
    Nat → Bool → Bytes → List (CldPktHdr × Bytes)
  | 0, first, msg => [(pktHdr sid user (pktMi xid op first true), msg)]
  | fuel + 1, first, msg =>
    if msg.length ≤ cldMaxPktMsgSz then [(pktHdr sid user (pktMi xid op first true), msg)]
    else (pktHdr sid user (pktMi xid op first false), msg.take cldMaxPktMsgSz) ::
      sessPktLoop sid user xid op fuel false (msg.drop cldMaxPktMsgSz)

/-- The packets of the server's `sess_sendmsg` with their sequence numbers. -/
def sessPkts (e : Env) (sid : Nat) (user : Bytes) (seqid xid : Nat) (op : CldMsgOp) (msg : Bytes) :
    Option (List (Buffer × Nat)) :=
  if cldMaxMsgSz < msg.length then none
  else do
    let bufs ← buildPkts (sessPktLoop sid user xid op msg.length true msg)
    signPkts e (userKey user) seqid bufs

/-- The packet of the server's `simple_sendmsg`. The footer is put `SHA_DIGEST_LENGTH` bytes before
the end of the buffer. A signature that cannot be made is only logged. -/
def simplePkt (e : Env) (sid : Nat) (user : Bytes) (seqid xid : Nat) (op : CldMsgOp) (msg : Bytes) :
    Option Buffer :=
  if cldMaxMsgSz < msg.length then none
  else do
    let hdr ← (pktHdr sid user (.firstLast xid op)).encode
    let bufLen := msg.length + hdr.length + cldPktFtrLen
    let buf := ((Buffer.mk ((List.range bufLen).map e.stack) false).write 0 hdr).write hdr.length msg
    let foot := bufLen - shaDigestLength
    return (signFooter e (userKey user) buf foot (bufLen - shaDigestLength) seqid).getD
      (buf.write foot (leBytes 8 seqid))

/-- The packets `cldc_new_msg` lays out for a message body. -/
def cldcNewMsg (sid : Nat) (user : Bytes) (xid : Nat) (op : CldMsgOp) (body : Bytes) :
    List (CldPktHdr × Bytes) :=
  let nPkts := if body.length = 0 then 1 else (body.length + cldMaxPktMsgSz - 1) / cldMaxPktMsgSz
  (List.range nPkts).map fun i =>
    (pktHdr sid user (pktMi xid op (i == 0) (i == nPkts - 1)),
      (body.drop (i * cldMaxPktMsgSz)).take cldMaxPktMsgSz)

/-- The packets of a message as `sess_send` completes and sends them. -/
def sessSendPkts (e : Env) (sid : Nat) (user secretKey : Bytes) (seqid xid : Nat) (op : CldMsgOp)
    (body : Bytes) : Option (List (Buffer × Nat)) := do
  let bufs ← buildPkts (cldcNewMsg sid user xid op body)
  let zeroed := bufs.map fun buf =>
    buf.write (buf.data.length - cldPktFtrLen) (List.replicate cldPktFtrLen 0)
  signPkts e (cldcUserKey user secretKey user) seqid zeroed

/-- The packet of the client's `ack_seqid`, built in a buffer of `CLD_MAX_PKT_MSG_SZ` bytes. What is
sent is the part up to the end of the footer. -/
def ackPkt (e : Env) (sid : Nat) (user secretKey : Bytes) (seqid : Nat) : Option Buffer := do
  let hdr ← (pktHdr sid user (.firstLast 0 .ack)).encode
  if cldMaxPktMsgSz - cldPktFtrLen < hdr.length then failure
  let totalLen := hdr.length + cldPktFtrLen
  let buf := (Buffer.mk ((List.range cldMaxPktMsgSz).map e.stack) false).write 0 hdr
  let signed ← signFooter e (cldcUserKey user secretKey user) buf hdr.length
    (totalLen - shaDigestLength) seqid
  return { signed with data := signed.data.take totalLen }

/-! ## Reading packets -/

/-- The sequence number in the last `CLD_PKT_FTR_LEN` bytes. -/
def footSeqid (raw : Bytes) : Nat := ofLe ((raw.drop (raw.length - cldPktFtrLen)).take 8)

def footSha (raw : Bytes) : Bytes :=
  ((raw.drop (raw.length - cldPktFtrLen)).drop 8).take shaDigestLength

/-- The signature check both sides make of a packet. -/
def footCheck (e : Env) (key : Option Bytes) (raw : Bytes) : Bool :=
  cldAuthcheck e key (raw.take (raw.length - shaDigestLength)) (footSha raw)

/-! ## The layout of a packet -/

/-- Header, message bytes, sequence number, and the HMAC of these. -/
def rawPkt (e : Env) (key hdr chunk : Bytes) (seqid : Nat) : Bytes :=
  hdr ++ chunk ++ leBytes 8 seqid ++ e.hmac key (hdr ++ chunk ++ leBytes 8 seqid)

@[simp] theorem rawPkt_length (e : Env) (key hdr chunk : Bytes) (seqid : Nat) :
    (rawPkt e key hdr chunk seqid).length = hdr.length + chunk.length + cldPktFtrLen := by
  simp [rawPkt, e.hmac_length, cldPktFtrLen, shaDigestLength, Nat.add_assoc]

theorem fillPkt_eq (hdr chunk : Bytes) :
    fillPkt hdr chunk = ⟨hdr ++ chunk ++ List.replicate cldPktFtrLen 0, false⟩ := by
  have h1 : Buffer.splice (List.replicate (hdr.length + chunk.length + cldPktFtrLen) 0) 0 hdr =
      hdr ++ List.replicate (chunk.length + cldPktFtrLen) 0 := by
    have h := Buffer.splice_middle [] (List.replicate hdr.length 0)
      (List.replicate (chunk.length + cldPktFtrLen) 0) hdr (by simp)
    simpa [Nat.add_assoc, List.replicate_append_replicate] using h
  have h2 : Buffer.splice (hdr ++ List.replicate (chunk.length + cldPktFtrLen) 0) hdr.length chunk =
      hdr ++ chunk ++ List.replicate cldPktFtrLen 0 := by
    have h := Buffer.splice_middle hdr (List.replicate chunk.length 0)
      (List.replicate cldPktFtrLen 0) chunk (by simp)
    simpa [List.append_assoc, List.replicate_append_replicate] using h
  simp only [fillPkt, Buffer.write, h1, h2]
  simp [Nat.add_assoc]

/-- A footer written where it belongs: behind `body`, in a buffer that has room for it. -/
theorem signFooter_eq (e : Env) {key room : Bytes} (body rest : Bytes) (seqid : Nat) (hkey : key ≠ [])
    (hroom : room.length = cldPktFtrLen) :
    signFooter e (some key) ⟨body ++ room ++ rest, false⟩ body.length (body.length + 8) seqid =
      some ⟨body ++ leBytes 8 seqid ++ e.hmac key (body ++ leBytes 8 seqid) ++ rest, false⟩ := by
  obtain ⟨r1, r2, rfl, h1, h2⟩ : ∃ r1 r2, room = r1 ++ r2 ∧ r1.length = 8 ∧
      r2.length = shaDigestLength := by
    refine ⟨room.take 8, room.drop 8, by simp, ?_, ?_⟩ <;>
      simp [hroom, cldPktFtrLen, shaDigestLength]
  have hw1 : Buffer.splice (body ++ (r1 ++ r2) ++ rest) body.length (leBytes 8 seqid) =
      body ++ leBytes 8 seqid ++ (r2 ++ rest) := by
    have h := Buffer.splice_middle body r1 (r2 ++ rest) (leBytes 8 seqid) (by simp [h1])
    simpa [List.append_assoc] using h
  have hsign : (body ++ leBytes 8 seqid ++ (r2 ++ rest)).take (body.length + 8) =
      body ++ leBytes 8 seqid := List.take_left' (by simp)
  have hw2 : Buffer.splice (body ++ leBytes 8 seqid ++ (r2 ++ rest)) (body.length + 8)
      (e.hmac key (body ++ leBytes 8 seqid)) =
      body ++ leBytes 8 seqid ++ e.hmac key (body ++ leBytes 8 seqid) ++ rest := by
    have h := Buffer.splice_middle (body ++ leBytes 8 seqid) r2 rest
      (e.hmac key (body ++ leBytes 8 seqid)) (by simp [h2, e.hmac_length])
    simpa [List.append_assoc] using h
  simp only [signFooter, cldAuthsign, Buffer.write, hw1, hsign, hkey, if_false, Option.map_some,
    hw2, List.length_append, leBytes_length, e.hmac_length, Bool.false_or]
  simp
  omega

theorem footSeqid_rawPkt (e : Env) (key hdr chunk : Bytes) (seqid : Nat) :
    footSeqid (rawPkt e key hdr chunk seqid) = seqid % 2 ^ 64 := by
  have hd : (rawPkt e key hdr chunk seqid).drop (hdr ++ chunk).length =
      leBytes 8 seqid ++ e.hmac key (hdr ++ chunk ++ leBytes 8 seqid) := by
    rw [rawPkt, List.append_assoc (hdr ++ chunk)]
    exact List.drop_left
  rw [footSeqid, rawPkt_length, Nat.add_sub_cancel, ← List.length_append, hd,
    List.take_left' (leBytes_length 8 seqid), ofLe_leBytes]
  rfl

theorem footCheck_rawPkt (e : Env) {key : Bytes} (hkey : key ≠ []) (hdr chunk : Bytes)
    (seqid : Nat) : footCheck e (some key) (rawPkt e key hdr chunk seqid) = true := by
  have hsigned : (rawPkt e key hdr chunk seqid).take
      ((rawPkt e key hdr chunk seqid).length - shaDigestLength) =
      hdr ++ chunk ++ leBytes 8 seqid := by
    rw [rawPkt, List.length_append, e.hmac_length, Nat.add_sub_cancel, List.take_left]
  have hsha : footSha (rawPkt e key hdr chunk seqid) =
      e.hmac key (hdr ++ chunk ++ leBytes 8 seqid) := by
    have hd : (rawPkt e key hdr chunk seqid).drop ((hdr ++ chunk).length + 8) =
        e.hmac key (hdr ++ chunk ++ leBytes 8 seqid) := by
      rw [rawPkt]
      exact List.drop_left' (by simp; omega)
    rw [footSha, rawPkt_length, Nat.add_sub_cancel, List.drop_drop, ← List.length_append, hd]
    exact List.take_of_length_le (by rw [e.hmac_length])
  simp only [footCheck, hsigned, hsha, cldAuthcheck, cldAuthsign, hkey, if_false, decide_true]

/-! ## What each sender emits -/

/-- A user that can own a session: a nonempty C string short enough to be a key. -/
structure User where
  name : Bytes
  ne_nil : name ≠ []
  length_lt : name.length < cldMaxUsername
  noNul : ∀ b ∈ name, b ≠ 0
  deriving Repr

theorem User.name_inj {u v : User} : u.name = v.name ↔ u = v := by
  cases u
  cases v
  simp

instance : DecidableEq User := fun _ _ => decidable_of_iff _ User.name_inj

theorem User.userKey (u : User) : userKey u.name = some u.name := by
  have h := u.length_lt
  rw [Cld.userKey, if_neg]
  simp only [u.ne_nil, false_or, not_le]
  exact h

theorem User.cldcUserKey (u : User) (secretKey : Bytes) :
    cldcUserKey u.name secretKey u.name = some secretKey := by
  have h := u.length_lt
  rw [Cld.cldcUserKey, if_neg, if_neg (by simp)]
  simp only [u.ne_nil, false_or, not_le]
  exact h

/-- The encoding of a header of a session. -/
def hdrBytes (sid : Nat) (u : User) (mi : CldPktMsgInfo) : Bytes :=
  Xdr.putHyper (ofLe cldPktMagic) ++ Xdr.putHyper sid ++
    (Xdr.putInt u.name.length ++ u.name ++ List.replicate (Xdr.pad u.name.length) 0) ++ mi.encode

theorem pktHdr_encode (sid : Nat) (u : User) (mi : CldPktMsgInfo) :
    (pktHdr sid u.name mi).encode = some (hdrBytes sid u mi) := by
  have h := u.length_lt
  simp [CldPktHdr.encode, Xdr.putVar, pktHdr, hdrBytes, h.le]

theorem hdrBytes_length_le (sid : Nat) (u : User) (mi : CldPktMsgInfo) :
    (hdrBytes sid u mi).length ≤ 68 := by
  have hu := u.length_lt
  have hm : mi.encode.length ≤ 16 := by cases mi <;> simp [CldPktMsgInfo.encode, CldPktMsgInfo.infos]
  simp only [hdrBytes, List.length_append, Xdr.putHyper_length, Xdr.putInt_length,
    List.length_replicate, Xdr.pad, cldMaxUsername] at *
  omega

/-- The packets of a message with the sequence numbers from `seqid` on. -/
def signedPkts (e : Env) (key : Bytes) (u : User) (sid : Nat) :
    Nat → List (CldPktMsgInfo × Bytes) → List (Buffer × Nat)
  | _, [] => []
  | seqid, (mi, chunk) :: rest =>
    (⟨rawPkt e key (hdrBytes sid u mi) chunk seqid, false⟩, seqid) ::
      signedPkts e key u sid ((seqid + 1) % 2 ^ 64) rest

theorem buildPkts_eq (sid : Nat) (u : User) (parts : List (CldPktMsgInfo × Bytes)) :
    buildPkts (parts.map fun p => (pktHdr sid u.name p.1, p.2)) =
      some (parts.map fun p => fillPkt (hdrBytes sid u p.1) p.2) := by
  induction parts with
  | nil => rfl
  | cons p parts ih => simp [buildPkts, pktHdr_encode, ih]

theorem signPkts_eq (e : Env) (sid : Nat) (u : User) {key : Bytes} (hkey : key ≠ [])
    (parts : List (CldPktMsgInfo × Bytes)) (seqid : Nat) :
    signPkts e (some key) seqid (parts.map fun p => fillPkt (hdrBytes sid u p.1) p.2) =
      some (signedPkts e key u sid seqid parts) := by
  induction parts generalizing seqid with
  | nil => rfl
  | cons p parts ih =>
    obtain ⟨mi, chunk⟩ := p
    have hfoot : (fillPkt (hdrBytes sid u mi) chunk).data.length - cldPktFtrLen =
        (hdrBytes sid u mi ++ chunk).length := by
      simp [fillPkt_eq]
      omega
    have hsign : (fillPkt (hdrBytes sid u mi) chunk).data.length - shaDigestLength =
        (hdrBytes sid u mi ++ chunk).length + 8 := by
      simp [fillPkt_eq, shaDigestLength, cldPktFtrLen]
      omega
    have hpkt := signFooter_eq e (hdrBytes sid u mi ++ chunk) [] seqid hkey
      (List.length_replicate (n := cldPktFtrLen) (a := (0 : UInt8)))
    simp only [List.append_nil] at hpkt
    rw [List.map_cons, signPkts, ih, hfoot, hsign, fillPkt_eq, hpkt]
    rfl

/-- Zeroing the footer again, as `sess_send` does, changes nothing. -/
theorem fillPkt_zeroed (hdr chunk : Bytes) :
    (fillPkt hdr chunk).write ((fillPkt hdr chunk).data.length - cldPktFtrLen)
      (List.replicate cldPktFtrLen 0) = fillPkt hdr chunk := by
  have hofs : (hdr ++ chunk ++ List.replicate cldPktFtrLen 0).length - cldPktFtrLen =
      (hdr ++ chunk).length := by simp; omega
  have h := Buffer.splice_middle (hdr ++ chunk) (List.replicate cldPktFtrLen 0) []
    (List.replicate cldPktFtrLen (0 : UInt8)) rfl
  simp only [List.append_nil] at h
  rw [fillPkt_eq]
  simp only [Buffer.write, hofs, h]
  simp [Nat.add_assoc]

/-- The pieces of a message with the place of each in it. -/
def msgParts (xid : Nat) (op : CldMsgOp) : Nat → Bool → Bytes → List (CldPktMsgInfo × Bytes)
  | 0, first, msg => [(pktMi xid op first true, msg)]
  | fuel + 1, first, msg =>
    if msg.length ≤ cldMaxPktMsgSz then [(pktMi xid op first true, msg)]
    else (pktMi xid op first false, msg.take cldMaxPktMsgSz) ::
      msgParts xid op fuel false (msg.drop cldMaxPktMsgSz)

theorem msgParts_cases (xid : Nat) (op : CldMsgOp) (fuel : Nat) (first : Bool) (msg : Bytes) :
    msgParts xid op fuel first msg = [(pktMi xid op first true, msg)] ∨
      ∃ n, fuel = n + 1 ∧ msgParts xid op fuel first msg =
        (pktMi xid op first false, msg.take cldMaxPktMsgSz) ::
          msgParts xid op n false (msg.drop cldMaxPktMsgSz) := by
  cases fuel with
  | zero => exact .inl rfl
  | succ n =>
    rw [msgParts]
    split
    · exact .inl rfl
    · exact .inr ⟨n, rfl, rfl⟩

theorem mem_msgParts {xid : Nat} {op : CldMsgOp} {fuel : Nat} {first : Bool} {msg : Bytes} {q : CldPktMsgInfo × Bytes}
    (h : q ∈ msgParts xid op fuel first msg) :
    ∃ first' last, q.1 = pktMi xid op first' last ∧ (first = false → first' = false) := by
  induction fuel using Nat.strong_induction_on generalizing first msg with
  | _ fuel ih =>
    rcases msgParts_cases xid op fuel first msg with hp | ⟨n, rfl, hp⟩
    · rw [hp, List.mem_singleton] at h
      exact ⟨first, true, by rw [h], id⟩
    · rw [hp, List.mem_cons] at h
      rcases h with rfl | h
      · exact ⟨first, false, rfl, id⟩
      · obtain ⟨f, l, hq, hf⟩ := ih n (Nat.lt_succ_self n) h
        exact ⟨f, l, hq, fun _ => hf rfl⟩

theorem sessPktLoop_eq (sid : Nat) (user : Bytes) (xid : Nat) (op : CldMsgOp) (fuel : Nat)
    (first : Bool) (msg : Bytes) :
    sessPktLoop sid user xid op fuel first msg =
      (msgParts xid op fuel first msg).map fun p => (pktHdr sid user p.1, p.2) := by
  induction fuel generalizing first msg with
  | zero => rfl
  | succ fuel ih =>
    unfold sessPktLoop msgParts
    split
    · rfl
    · rw [ih]
      rfl

/-- What `sess_sendmsg` sends for a message it accepts. -/
theorem sessPkts_eq (e : Env) (sid : Nat) (u : User) (seqid xid : Nat) (op : CldMsgOp)
    {msg : Bytes} (h : msg.length ≤ cldMaxMsgSz) :
    sessPkts e sid u.name seqid xid op msg =
      some (signedPkts e u.name u sid seqid (msgParts xid op msg.length true msg)) := by
  simp only [sessPkts, h.not_gt, if_false, sessPktLoop_eq, buildPkts_eq, u.userKey]
  exact signPkts_eq e sid u u.ne_nil _ seqid

theorem signedPkts_get {e : Env} {key : Bytes} {u : User} {sid seqid i : Nat}
    {parts : List (CldPktMsgInfo × Bytes)} {p : Buffer × Nat}
    (h : (signedPkts e key u sid seqid parts)[i]? = some p) :
    ∃ q ∈ parts, ∃ n, n % 2 ^ 64 = (seqid + i) % 2 ^ 64 ∧
      p.1.data = rawPkt e key (hdrBytes sid u q.1) q.2 n := by
  induction parts generalizing seqid i with
  | nil => simp [signedPkts] at h
  | cons q parts ih =>
    cases i with
    | zero =>
      simp only [signedPkts, List.getElem?_cons_zero, Option.some.injEq] at h
      exact ⟨q, by simp, seqid, rfl, by rw [← h]⟩
    | succ i =>
      rw [signedPkts, List.getElem?_cons_succ] at h
      obtain ⟨q', hq, n, hn, hp⟩ := ih h
      exact ⟨q', List.mem_cons_of_mem q hq, n, by omega, hp⟩

def cldcParts (xid : Nat) (op : CldMsgOp) (body : Bytes) : List (CldPktMsgInfo × Bytes) :=
  let nPkts := if body.length = 0 then 1 else (body.length + cldMaxPktMsgSz - 1) / cldMaxPktMsgSz
  (List.range nPkts).map fun i =>
    (pktMi xid op (i == 0) (i == nPkts - 1),
      (body.drop (i * cldMaxPktMsgSz)).take cldMaxPktMsgSz)

/-- `cldc_new_msg` and `sess_sendmsg` cut a message into the same pieces. -/
theorem cldcParts_eq (xid : Nat) (op : CldMsgOp) (body : Bytes) :
    cldcParts xid op body = msgParts xid op body.length true body := by
  have key : ∀ fuel n first (msg : Bytes), msg.length ≤ fuel →
      msg.length ≤ (n + 1) * cldMaxPktMsgSz → n * cldMaxPktMsgSz < msg.length ∨ n = 0 →
      (List.range (n + 1)).map (fun i => (pktMi xid op (first && i == 0) (i == n),
        (msg.drop (i * cldMaxPktMsgSz)).take cldMaxPktMsgSz)) =
      msgParts xid op fuel first msg := by
    intro fuel
    induction fuel with
    | zero =>
      intro n first msg hf hle hlt
      obtain rfl : msg = [] := by simpa using hf
      obtain rfl : n = 0 := by simpa using hlt
      simp [msgParts]
    | succ fuel ih =>
      intro n first msg hf hle hlt
      cases n with
      | zero =>
        have hshort : msg.length ≤ cldMaxPktMsgSz := by simpa using hle
        simp [msgParts, hshort, List.take_of_length_le hshort]
      | succ n =>
        have hlong : ¬ msg.length ≤ cldMaxPktMsgSz := by
          simp only [cldMaxPktMsgSz] at *
          omega
        have hpos : 0 < cldMaxPktMsgSz := by decide
        have hle' : (msg.drop cldMaxPktMsgSz).length ≤ (n + 1) * cldMaxPktMsgSz := by
          rw [List.length_drop]
          grind
        have hlt' : n * cldMaxPktMsgSz < (msg.drop cldMaxPktMsgSz).length ∨ n = 0 := by
          rw [List.length_drop]
          grind
        have hrest := ih n false (msg.drop cldMaxPktMsgSz) (by rw [List.length_drop]; omega) hle' hlt'
        rw [List.range_succ_eq_map, List.map_cons, List.map_map, msgParts, if_neg hlong, ← hrest]
        simp [Function.comp_def, Nat.add_mul, Nat.add_comm]
  unfold cldcParts
  split
  · next h =>
    obtain rfl : body = [] := by simpa using h
    rfl
  · next h =>
    obtain ⟨n, hn⟩ : ∃ n, (body.length + cldMaxPktMsgSz - 1) / cldMaxPktMsgSz = n + 1 := by
      refine ⟨(body.length + cldMaxPktMsgSz - 1) / cldMaxPktMsgSz - 1, ?_⟩
      simp only [cldMaxPktMsgSz]
      omega
    have hbounds : body.length ≤ (n + 1) * cldMaxPktMsgSz ∧
        (n * cldMaxPktMsgSz < body.length ∨ n = 0) := by
      simp only [cldMaxPktMsgSz] at hn ⊢
      omega
    have hk := key body.length n true body le_rfl hbounds.1 hbounds.2
    rw [← hk, hn]
    simp

/-- What `sess_send` sends for a message laid out by `cldc_new_msg`. -/
theorem sessSendPkts_eq (e : Env) (sid : Nat) (u : User) {secretKey : Bytes}
    (hkey : secretKey ≠ []) (seqid xid : Nat) (op : CldMsgOp) (body : Bytes) :
    sessSendPkts e sid u.name secretKey seqid xid op body =
      some (signedPkts e secretKey u sid seqid (cldcParts xid op body)) := by
  have hparts : cldcNewMsg sid u.name xid op body =
      (cldcParts xid op body).map fun p => (pktHdr sid u.name p.1, p.2) := by
    simp [cldcNewMsg, cldcParts]
  have hz : ∀ parts : List (CldPktMsgInfo × Bytes),
      (parts.map fun p => fillPkt (hdrBytes sid u p.1) p.2).map (fun buf =>
        buf.write (buf.data.length - cldPktFtrLen) (List.replicate cldPktFtrLen 0)) =
      parts.map fun p => fillPkt (hdrBytes sid u p.1) p.2 := by
    intro parts
    rw [List.map_map]
    exact List.map_congr_left fun p _ => fillPkt_zeroed _ _
  simp only [sessSendPkts, hparts, buildPkts_eq, u.cldcUserKey, Option.bind_eq_bind,
    Option.bind_some, hz]
  exact signPkts_eq e sid u hkey _ seqid

theorem ackPkt_eq (e : Env) (sid : Nat) (u : User) {secretKey : Bytes} (hkey : secretKey ≠ [])
    (seqid : Nat) :
    ackPkt e sid u.name secretKey seqid =
      some ⟨rawPkt e secretKey (hdrBytes sid u (.firstLast 0 .ack)) [] seqid, false⟩ := by
  have hlen := hdrBytes_length_le sid u (.firstLast 0 .ack)
  set hdr := hdrBytes sid u (.firstLast 0 .ack) with hhdr
  obtain ⟨junk, hjunk⟩ : ∃ junk, (List.range cldMaxPktMsgSz).map e.stack = junk := ⟨_, rfl⟩
  have hj : junk.length = cldMaxPktMsgSz := by
    rw [← hjunk, List.length_map, List.length_range]
  have hroom : hdr.length + cldPktFtrLen ≤ junk.length := by
    rw [hj, cldMaxPktMsgSz, cldPktFtrLen]
    omega
  obtain ⟨pre, room, rest, rfl, hpre, hr⟩ : ∃ pre room rest, junk = pre ++ room ++ rest ∧
      pre.length = hdr.length ∧ room.length = cldPktFtrLen := by
    refine ⟨junk.take hdr.length, (junk.drop hdr.length).take cldPktFtrLen,
      (junk.drop hdr.length).drop cldPktFtrLen, by simp, ?_, ?_⟩
    · simp
      omega
    · simp
      omega
  have hw : Buffer.splice (pre ++ room ++ rest) 0 hdr = hdr ++ room ++ rest := by
    have h := Buffer.splice_middle [] pre (room ++ rest) hdr hpre
    simpa [List.append_assoc] using h
  have hfit : ¬ cldMaxPktMsgSz - cldPktFtrLen < hdr.length := by
    simp only [cldMaxPktMsgSz, cldPktFtrLen]
    omega
  have hbuf : (Buffer.mk (pre ++ room ++ rest) false).write 0 hdr =
      ⟨hdr ++ room ++ rest, false⟩ := by
    simp only [Buffer.write, hw]
    simp
    omega
  have hsign : hdr.length + cldPktFtrLen - shaDigestLength = hdr.length + 8 := by
    simp only [cldPktFtrLen, shaDigestLength]
    omega
  have hpkt := signFooter_eq e hdr rest seqid hkey hr
  have hcut : (hdr ++ leBytes 8 seqid ++ e.hmac secretKey (hdr ++ leBytes 8 seqid) ++ rest).take
      (hdr.length + cldPktFtrLen) =
      hdr ++ leBytes 8 seqid ++ e.hmac secretKey (hdr ++ leBytes 8 seqid) :=
    List.take_left' (by simp [e.hmac_length, shaDigestLength, cldPktFtrLen])
  simp only [ackPkt, pktHdr_encode, ← hhdr, hjunk, hfit, hbuf, hsign, u.cldcUserKey, hpkt,
    Option.bind_eq_bind, Option.bind_some, if_false, hcut, rawPkt, List.append_nil]
  rfl

/-- Surroundings in which digests and the stack are zero and `rand` counts from 51. -/
def Env.plain : Env where
  hmac _ _ := List.replicate shaDigestLength 0
  hmac_length _ _ := by simp
  rand n := n + 51
  stack _ := 0

/-- The user `cli`. -/
def User.cli : User where
  name := [0x63, 0x6c, 0x69]
  ne_nil := by decide
  length_lt := by decide
  noNul := by simp

end Hail.Cld
