import Hail.Library.Bytes

/-!
# The chunkd protocol

Constants, enumerations and records of `chunk_msg.h`. A record is read from, and written as, the bytes
of its C structure; integers are little-endian.
-/
namespace Hail.Chunkd

open Library

/-- `CHUNKD_MAGIC`, the bytes of `CHUNKDv1`. -/
def chunkdMagic : Bytes := [0x43, 0x48, 0x55, 0x4e, 0x4b, 0x44, 0x76, 0x31]

def chdMagicSz : Nat := 8
def chdUserSz : Nat := 64
def chdKeySz : Nat := 1024
def chdCsumSz : Nat := 20
def chdSigSz : Nat := 64

def chunkBlkSz : Nat := 65536
def chunkMaxGetpart : Nat := 4

inductive ChunksrvOps where
  | nop | get | getMeta | put | del | list | login | tableOpen | checkStart | checkStatus | startTls
  | cp | getPart
  | other (n : Nat)
  deriving DecidableEq, Repr

def ChunksrvOps.toNat : ChunksrvOps → Nat
  | .nop => 0 | .get => 1 | .getMeta => 2 | .put => 3 | .del => 4 | .list => 5 | .login => 6
  | .tableOpen => 7 | .checkStart => 8 | .checkStatus => 9 | .startTls => 10 | .cp => 11
  | .getPart => 12
  | .other n => n

def ChunksrvOps.ofNat : Nat → ChunksrvOps
  | 0 => .nop | 1 => .get | 2 => .getMeta | 3 => .put | 4 => .del | 5 => .list | 6 => .login
  | 7 => .tableOpen | 8 => .checkStart | 9 => .checkStatus | 10 => .startTls | 11 => .cp
  | 12 => .getPart
  | n => .other n

inductive ChunkErrcode where
  | success | accessDenied | internalError | invalidArgument | invalidURI | noSuchKey
  | signatureDoesNotMatch | invalidKey | invalidTable | busy | keyExists | invalidSeek
  deriving DecidableEq, Repr

def ChunkErrcode.toNat : ChunkErrcode → Nat
  | .success => 0 | .accessDenied => 1 | .internalError => 2 | .invalidArgument => 3
  | .invalidURI => 4 | .noSuchKey => 5 | .signatureDoesNotMatch => 6 | .invalidKey => 7
  | .invalidTable => 8 | .busy => 9 | .keyExists => 10 | .invalidSeek => 11

def chfSync : Nat := 1
def chfTblCreat : Nat := 2
def chfTblExcl : Nat := 4
def chfGetPartLast : Nat := 8

/-- `struct chunksrv_req`. -/
structure ChunksrvReq where
  magic : Bytes
  op : ChunksrvOps
  flags : Nat
  keyLen : Nat
  nonce : Nat
  dataLen : Nat
  sig : Bytes
  deriving DecidableEq, Repr

/-- `sizeof(struct chunksrv_req)`. -/
def chunksrvReqSz : Nat := 88

/-- `sizeof(struct chunksrv_req_getpart)`. -/
def chunksrvReqGetpartSz : Nat := 8

def ChunksrvReq.encode (req : ChunksrvReq) : Bytes :=
  req.magic ++ leBytes 1 req.op.toNat ++ leBytes 1 req.flags ++ leBytes 2 req.keyLen ++
    leBytes 4 req.nonce ++ leBytes 8 req.dataLen ++ req.sig

/-- The fields of the record in a buffer. -/
def ChunksrvReq.ofBytes (buf : Bytes) : ChunksrvReq where
  magic := buf.take chdMagicSz
  op := .ofNat (ofLe ((buf.drop 8).take 1))
  flags := ofLe ((buf.drop 9).take 1)
  keyLen := ofLe ((buf.drop 10).take 2)
  nonce := ofLe ((buf.drop 12).take 4)
  dataLen := ofLe ((buf.drop 16).take 8)
  sig := (buf.drop 24).take chdSigSz

/-- `struct chunksrv_resp`. -/
structure ChunksrvResp where
  magic : Bytes
  respCode : Nat
  flags : Nat
  nonce : Nat
  dataLen : Nat
  hash : Bytes
  deriving DecidableEq, Repr

def ChunksrvResp.encode (resp : ChunksrvResp) : Bytes :=
  resp.magic ++ leBytes 1 resp.respCode ++ leBytes 1 resp.flags ++ [0, 0] ++ leBytes 4 resp.nonce ++
    leBytes 8 resp.dataLen ++ resp.hash ++ [0, 0, 0, 0]

/-- `struct chunksrv_resp_get`. -/
def ChunksrvResp.encodeGet (resp : ChunksrvResp) (mtime : Nat) : Bytes :=
  resp.encode ++ leBytes 8 mtime

def respInitReq (req : ChunksrvReq) : ChunksrvResp where
  magic := req.magic
  respCode := 0
  flags := 0
  nonce := req.nonce
  dataLen := req.dataLen
  hash := List.replicate chdCsumSz 0

end Hail.Chunkd
