import Hail.Library.Xdr

/-!
# The CLD protocol

Constants, enumerations and messages of `cld_msg_rpc.x`, with the encoding and decoding functions
generated from it. A string is held as the bytes before its terminating zero. An `int` or `hyper`
is the natural number with its bits, so a decoded one is below `2 ^ 32` or `2 ^ 64`.
-/
namespace Hail.Cld

open Library Library.Xdr

/-- `CLD_PKT_MAGIC`, the bytes of `CLDc1pkt`. -/
def cldPktMagic : Bytes := [0x43, 0x4c, 0x44, 0x63, 0x31, 0x70, 0x6b, 0x74]

def cldInodeNameMax : Nat := 256
def cldMaxUsername : Nat := 32
def cldMaxPktMsgSz : Nat := 1024
def cldMaxPayloadSz : Nat := 131072
def cldMaxMsgSz : Nat := 196608

/-- `enum cld_msg_op`. XDR does not check the range of an enumeration, so a packet may carry a
number that names no operation. -/
inductive CldMsgOp where
  | nop | newSess | open | getMeta | get | put | close | del | lock | unlock | trylock | ack
  | endSess | ping | notMaster | event | ackFrag
  | other (n : Nat)
  deriving DecidableEq, Repr

def CldMsgOp.toNat : CldMsgOp → Nat
  | .nop => 0 | .newSess => 1 | .open => 2 | .getMeta => 3 | .get => 4 | .put => 6 | .close => 7
  | .del => 8 | .lock => 9 | .unlock => 10 | .trylock => 11 | .ack => 12 | .endSess => 13
  | .ping => 14 | .notMaster => 15 | .event => 16 | .ackFrag => 17
  | .other n => n

def CldMsgOp.ofNat : Nat → CldMsgOp
  | 0 => .nop | 1 => .newSess | 2 => .open | 3 => .getMeta | 4 => .get | 6 => .put | 7 => .close
  | 8 => .del | 9 => .lock | 10 => .unlock | 11 => .trylock | 12 => .ack | 13 => .endSess
  | 14 => .ping | 15 => .notMaster | 16 => .event | 17 => .ackFrag
  | n => .other n

/-- An operation that a packet can carry: its number fits 32 bits and is the only one that
names it. -/
def CldMsgOp.Wire (op : CldMsgOp) : Prop := op.toNat < 2 ^ 32 ∧ CldMsgOp.ofNat op.toNat = op

instance (op : CldMsgOp) : Decidable op.Wire := inferInstanceAs (Decidable (_ ∧ _))

inductive CleErrCodes where
  | ok | sessExists | sessInval | dbErr | badPkt | inodeInval | nameInval | oom | fhInval
  | dataInval | lockInval | lockConflict | lockPending | modeInval | inodeExists | dirNotempty
  | internalErr | timeout | sigInval
  deriving DecidableEq, Repr

def CleErrCodes.toNat : CleErrCodes → Nat
  | .ok => 0 | .sessExists => 1 | .sessInval => 2 | .dbErr => 3 | .badPkt => 4 | .inodeInval => 5
  | .nameInval => 6 | .oom => 7 | .fhInval => 8 | .dataInval => 9 | .lockInval => 10
  | .lockConflict => 11 | .lockPending => 12 | .modeInval => 13 | .inodeExists => 14
  | .dirNotempty => 15 | .internalErr => 16 | .timeout => 17 | .sigInval => 18

/-! Open modes (`COM_`), events (`CE_`), inode flags (`CIFL_`) and lock request flags (`CLF_`). -/

def comRead : Nat := 0x01
def comWrite : Nat := 0x02
def comLock : Nat := 0x04
def comCreate : Nat := 0x10
def comExcl : Nat := 0x20
def comDirectory : Nat := 0x40
def ceUpdated : Nat := 0x01
def ceDeleted : Nat := 0x02
def ceLocked : Nat := 0x04
def ciflDir : Nat := 0x01
def clfShared : Nat := 0x01

/-- `union cld_pkt_msg_info`: the order of a packet in its message, with the `xid` and `op` that
only a first packet carries. -/
inductive CldPktMsgInfo where
  | mid
  | first (xid : Nat) (op : CldMsgOp)
  | last
  | firstLast (xid : Nat) (op : CldMsgOp)
  deriving DecidableEq, Repr

namespace CldPktMsgInfo

def order : CldPktMsgInfo → Nat
  | .mid => 0 | .first .. => 1 | .last => 2 | .firstLast .. => 3

/-- `order & CLD_PKT_IS_FIRST`, with what a first packet carries. -/
def infos : CldPktMsgInfo → Option (Nat × CldMsgOp)
  | .first xid op | .firstLast xid op => some (xid, op)
  | _ => none

def isFirst (mi : CldPktMsgInfo) : Bool := mi.infos.isSome

def isLast : CldPktMsgInfo → Bool
  | .last | .firstLast .. => true
  | _ => false

def encode (mi : CldPktMsgInfo) : Bytes :=
  putInt mi.order ++
    match mi.infos with
    | some (xid, op) => putHyper xid ++ putInt op.toNat
    | none => []

def getInfos : Decoder (Nat × CldMsgOp) := do
  let xid ← getHyper
  let op ← getInt
  return (xid, .ofNat op)

def decode : Decoder CldPktMsgInfo := do
  match ← getInt with
  | 0 => return .mid
  | 1 => let (xid, op) ← getInfos; return .first xid op
  | 2 => return .last
  | 3 => let (xid, op) ← getInfos; return .firstLast xid op
  | _ => failure

end CldPktMsgInfo

/-- `struct cld_pkt_hdr`. -/
structure CldPktHdr where
  magic : Nat
  sid : Nat
  user : Bytes
  mi : CldPktMsgInfo
  deriving DecidableEq, Repr

def getString (bound : Nat) : Decoder Bytes := cstr <$> getVar bound

def CldPktHdr.encode (pkt : CldPktHdr) : Option Bytes :=
  (putVar cldMaxUsername pkt.user).map fun user =>
    putHyper pkt.magic ++ putHyper pkt.sid ++ user ++ pkt.mi.encode

def CldPktHdr.decode : Decoder CldPktHdr := do
  let magic ← getHyper
  let sid ← getHyper
  let user ← getString cldMaxUsername
  let mi ← CldPktMsgInfo.decode
  return { magic, sid, user, mi }

/-- An inode name as XDR and `strlen` leave it. -/
structure InodeName where
  bytes : Bytes
  length_le : bytes.length ≤ cldInodeNameMax
  noNul : ∀ b ∈ bytes, b ≠ 0
  deriving DecidableEq, Repr

def getInodeName : Decoder InodeName := do
  let bs ← getVar cldInodeNameMax
  if h : (cstr bs).length ≤ cldInodeNameMax then
    return ⟨cstr bs, h, fun _ => cstr_ne_zero⟩
  else failure

structure CldMsgOpen where
  mode : Nat
  events : Nat
  inodeName : InodeName
  deriving DecidableEq, Repr

structure CldMsgPut where
  fh : Nat
  data : Bytes
  length_le : data.length ≤ cldMaxPayloadSz
  deriving DecidableEq, Repr

/-- The decoded request messages. -/
inductive Request where
  | get (fh : Nat)
  | open (open_ : CldMsgOpen)
  | put (put : CldMsgPut)
  | close (fh : Nat)
  | del (inodeName : InodeName)
  | unlock (fh : Nat)
  | lock (fh flags : Nat)
  deriving DecidableEq, Repr

/-- The decoding function `tcp_rx` uses for each operation that has a request message. -/
def Request.decode : CldMsgOp → Option (Decoder Request)
  | .get | .getMeta => some (.get <$> getHyper)
  | .open => some do
      let mode ← getInt
      let events ← getInt
      let inodeName ← getInodeName
      return .open ⟨mode, events, inodeName⟩
  | .put => some do
      let fh ← getHyper
      let data ← getVar cldMaxPayloadSz
      if h : data.length ≤ cldMaxPayloadSz then return .put ⟨fh, data, h⟩ else failure
  | .close => some (.close <$> getHyper)
  | .del => some (.del <$> getInodeName)
  | .unlock => some (.unlock <$> getHyper)
  | .trylock | .lock => some do
      let fh ← getHyper
      let flags ← getInt
      return .lock fh flags
  | _ => none

/-- `struct cld_msg_get_resp` after its generic part. -/
structure CldMsgGetResp where
  inum : Nat
  vers : Nat
  timeCreate : Nat
  timeModify : Nat
  flags : Nat
  inodeName : Bytes
  data : Bytes
  deriving DecidableEq, Repr

/-- The messages a server sends. -/
inductive ServerMsg where
  | void
  | genericResp (code : CleErrCodes) (xidIn : Nat)
  | openResp (code : CleErrCodes) (xidIn fh : Nat)
  | getResp (code : CleErrCodes) (xidIn : Nat) (resp : CldMsgGetResp)
  | event (fh events : Nat)
  | ackFrag (seqid : Nat)
  deriving DecidableEq, Repr

def putGeneric (code : CleErrCodes) (xidIn : Nat) : Bytes := putInt code.toNat ++ putHyper xidIn

def ServerMsg.encode : ServerMsg → Option Bytes
  | .void => some []
  | .genericResp code xidIn => some (putGeneric code xidIn)
  | .openResp code xidIn fh => some (putGeneric code xidIn ++ putHyper fh)
  | .getResp code xidIn r => do
      let name ← putVar cldInodeNameMax r.inodeName
      let data ← putVar cldMaxPayloadSz r.data
      return putGeneric code xidIn ++ putHyper r.inum ++ putHyper r.vers ++
        putHyper r.timeCreate ++ putHyper r.timeModify ++ putInt r.flags ++ name ++ data
  | .event fh events => some (putHyper fh ++ putInt events)
  | .ackFrag seqid => some (putHyper seqid)

/-! ## Decoding what was encoded -/

/-- A header whose fields are in the range of their wire form. -/
structure CldPktHdr.Wire (pkt : CldPktHdr) : Prop where
  magic : pkt.magic < 2 ^ 64
  sid : pkt.sid < 2 ^ 64
  user : ∀ b ∈ pkt.user, b ≠ 0
  infos : ∀ xid op, pkt.mi.infos = some (xid, op) → xid < 2 ^ 64 ∧ op.Wire

theorem getInfos_encode {xid : Nat} {op : CldMsgOp} (hx : xid < 2 ^ 64) (ho : op.Wire)
    (rest : Bytes) :
    CldPktMsgInfo.getInfos (putHyper xid ++ putInt op.toNat ++ rest) = some ((xid, op), rest) := by
  have h1 := getHyper_putHyper xid (putInt op.toNat ++ rest)
  have h2 := getInt_putInt op.toNat rest
  rw [Nat.mod_eq_of_lt hx] at h1
  rw [Nat.mod_eq_of_lt ho.1] at h2
  simp only [CldPktMsgInfo.getInfos, bind, StateT.bind, List.append_assoc, h1]
  simp [h2, Xdr.pure_apply, ho.2]

theorem CldPktMsgInfo.decode_encode {mi : CldPktMsgInfo}
    (h : ∀ xid op, mi.infos = some (xid, op) → xid < 2 ^ 64 ∧ op.Wire) (rest : Bytes) :
    CldPktMsgInfo.decode (mi.encode ++ rest) = some (mi, rest) := by
  have hi := fun more => getInt_putInt mi.order more
  cases mi with
  | mid | last =>
    simp only [order] at hi
    simp [decode, encode, infos, order, hi, bind, StateT.bind, Xdr.pure_apply]
  | first xid op | firstLast xid op =>
    obtain ⟨hx, ho⟩ := h xid op rfl
    have hd := getInfos_encode hx ho rest
    simp only [order, List.append_assoc] at hi hd
    simp [decode, encode, infos, order, hi, hd, bind, StateT.bind, Xdr.pure_apply]

theorem CldPktHdr.decode_encode {pkt : CldPktHdr} {out : Bytes} (hw : pkt.Wire)
    (h : pkt.encode = some out) (rest : Bytes) :
    CldPktHdr.decode (out ++ rest) = some (pkt, rest) := by
  obtain ⟨user, hu, rfl⟩ := Option.map_eq_some_iff.mp h
  have h1 := getHyper_putHyper pkt.magic (putHyper pkt.sid ++ (user ++ (pkt.mi.encode ++ rest)))
  have h2 := getHyper_putHyper pkt.sid (user ++ (pkt.mi.encode ++ rest))
  have h3 := getVar_putVar (by decide) hu (pkt.mi.encode ++ rest)
  have h4 := CldPktMsgInfo.decode_encode hw.infos rest
  rw [Nat.mod_eq_of_lt hw.magic] at h1
  rw [Nat.mod_eq_of_lt hw.sid] at h2
  simp only [decode, getString, bind, StateT.bind, List.append_assoc, h1, h2, h3, h4,
    Functor.map, StateT.map, Option.bind_some, Option.pure_def, Xdr.pure_apply, cstr_eq_self hw.user]

end Hail.Cld
