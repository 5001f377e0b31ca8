import Hail.Chunkd.Fs

/-!
# The write queue of a client

The functions of `server.c` that queue buffers and files for a socket and write them, with the
callback `object_get_more` of `object.c`, which queues the next piece of an object when the last one
has been written.

A step of a write is decided by what the socket does, given by a `WrRes`.
-/
namespace Hail.Chunkd

open Library

def cliDataBufSz : Nat := chunkBlkSz
def cliMaxSendfileSz : Nat := 512 * 1024
def cliMaxWrIov : Nat := 32

inductive ClientState where
  | readFixed | readVar | execReq | dataIn | dispose | recycle | sslAccept
  deriving DecidableEq, Repr

/-- The callback of a `client_write`: none, `cli_cb_free` or `object_get_more`. -/
inductive CliWriteFunc where
  | none | cbFree | getMore
  deriving DecidableEq, Repr

/-- What a `client_write` writes: the bytes of a buffer, or so many bytes of the file of `in_obj`. -/
inductive WriteSrc where
  | buf (bs : Bytes)
  | sendfile (len : Nat)
  deriving DecidableEq, Repr

/-- `struct client_write`. For a file `buf` is null. -/
structure ClientWrite where
  src : WriteSrc
  cb : CliWriteFunc
  deriving DecidableEq, Repr

def WriteSrc.len : WriteSrc → Nat
  | .buf bs => bs.length
  | .sendfile len => len

/-- The source with `sz` bytes consumed. -/
def WriteSrc.advance : WriteSrc → Nat → WriteSrc
  | .buf bs, sz => .buf (bs.drop sz)
  | .sendfile len, sz => .sendfile (len - sz)

/-- A byte for the socket: one of memory, or the one at an offset of a file. -/
inductive Octet where
  | mem (b : UInt8)
  | file (ino ofs : Nat)
  deriving DecidableEq, Repr

/-- The fields of `struct client` that the write functions use. The last four are a history: the entries
that have been queued, what is on the socket, what each `writev` was handed and how much was on the
socket before it, and what each callback so far was told. -/
structure ClientTx where
  state : ClientState := .readFixed
  ssl : Bool := false
  writeQ : List ClientWrite := []
  writing : Bool := false
  /-- `EV_WRITE` of `ev_mask`. -/
  evWrite : Bool := false
  readWantWrite : Bool := false
  writeWantRead : Bool := false
  inLen : Nat := 0
  inObj : Option FsObj := none
  queued : List (List Octet) := []
  sent : List Octet := []
  handed : List (Nat × List WriteSrc) := []
  called : List Bool := []

/-- What the calls made by one `object_read_bytes` do: its `read`, and whether the allocation of a
`client_write` fails. -/
structure More where
  read : Option Nat
  fails : Bool
  deriving DecidableEq

/-- What a write to the socket does: move at most `n` bytes, or none because it would block, was
interrupted, waits for the peer (with SSL) or fails. What is written may call `object_get_more`, whose
own calls do as `more` says. -/
inductive WrRes where
  | wrote (n : Nat) (more : More)
  | again | intr | wantRead | fail
  deriving DecidableEq

/-! ## Queueing -/

/-- The bytes of a file that `fs_obj_sendfile` takes next. -/
def FsObj.range (obj : FsObj) (len : Nat) : List Octet :=
  let ofs := if obj.sendfileOfs = 0 then obj.valueOfs else obj.sendfileOfs
  match obj.inFd with
  | none => []
  | some (ino, _) => (List.range len).map fun i => .file ino (ofs + i)

/-- `cli_writeq`; the result is `true` for success. The allocation fails only when the free list is
empty as well. -/
def cliWriteq (fails : Bool) (bs : Bytes) (cb : CliWriteFunc) (tx : ClientTx) : ClientTx × Bool :=
  if bs = [] ∨ fails then (tx, false)
  else
    ({ tx with writeQ := tx.writeQ ++ [⟨.buf bs, cb⟩], queued := tx.queued ++ [bs.map .mem] }, true)

def cliWrSendfile (fails : Bool) (cb : CliWriteFunc) (tx : ClientTx) : ClientTx × Bool :=
  if fails then (tx, false)
  else
    let octets := match tx.inObj with
      | some obj => obj.range tx.inLen
      | none => []
    ({ tx with
        writeQ := tx.writeQ ++ [⟨.sendfile tx.inLen, cb⟩], queued := tx.queued ++ [octets] }, true)

def cliInEnd (tx : ClientTx) : ClientTx := { tx with inObj := none }

/-- `use_sendfile`, in a build that has `sendfile`. -/
def useSendfile (tx : ClientTx) : Bool := !tx.ssl

/-- `object_read_bytes`. There is an object whenever it is called. -/
def objectReadBytes (e : Env) (fs : Vol) (more : More) (tx : ClientTx) : ClientTx × Bool :=
  if useSendfile tx then cliWrSendfile more.fails .getMore tx
  else
    match tx.inObj with
    | none => (tx, false)
    | some obj =>
      match fsObjRead e fs more.read obj (min tx.inLen cliDataBufSz) with
      | (none, obj) => ({ tx with inObj := some obj }, false)
      | (some bs, obj) =>
        let tx := { tx with inObj := some obj }
        if bs = [] ∧ tx.inLen ≠ 0 then (tx, false)
        else
          let tx := { tx with inLen := tx.inLen - bs.length }
          let tx := if tx.inLen = 0 then cliInEnd tx else tx
          cliWriteq more.fails bs (if tx.inLen = 0 then .none else .getMore) tx

def objectGetMore (e : Env) (fs : Vol) (more : More) (done : Bool) (tx : ClientTx) :
    ClientTx × Bool :=
  if !done then (tx, false)
  else if tx.inLen = 0 then (cliInEnd tx, true)
  else
    match objectReadBytes e fs more tx with
    | (tx, true) => (tx, true)
    | (tx, false) => (cliInEnd tx, false)

/-! ## Writing -/

/-- `cli_write_free` of an entry taken off the queue. -/
def cliWriteFree (e : Env) (fs : Vol) (more : More) (tmp : ClientWrite) (done : Bool)
    (tx : ClientTx) : ClientTx × Bool :=
  let tx := { tx with called := tx.called ++ [done] }
  match tmp.cb with
  | .none | .cbFree => (tx, false)
  | .getMore => objectGetMore e fs more done tx

/-- `cli_write_free_all`. No callback does anything when it is told that its write is not done. -/
def cliWriteFreeAll (tx : ClientTx) : ClientTx :=
  { tx with writeQ := [], called := tx.called ++ tx.writeQ.map fun _ => false }

/-- `cli_wr_iov`: the entries from which an `iovec` is made. `total` is what those before take. -/
def cliWrIov : Nat → Nat → List ClientWrite → List ClientWrite
  | 0, _, _ => []
  | _, _, [] => []
  | maxIov + 1, total, tmp :: q =>
    if 2 ^ 63 ≤ tmp.src.len then []
    else if (total + tmp.src.len) % 2 ^ 64 < total then []
    else tmp :: cliWrIov maxIov ((total + tmp.src.len) % 2 ^ 64) q

/-- What `writev` can take of its buffers: it stops at the first that is null. -/
def memBytes : List ClientWrite → Bytes
  | ⟨.buf bs, _⟩ :: q => bs ++ memBytes q
  | _ => []

/-- `cli_wr_completed`, with a bound on its rounds, of which each takes off an entry or is the last. -/
def cliWrCompleted (e : Env) (fs : Vol) (more : More) :
    Nat → Nat → Bool → ClientTx → ClientTx × Bool
  | 0, _, moreWork, tx => (tx, moreWork)
  | fuel + 1, rc, moreWork, tx =>
    if rc = 0 then (tx, moreWork)
    else
      match tx.writeQ with
      | [] => (tx, moreWork)
      | tmp :: q =>
        let sz := min tmp.src.len rc
        if tmp.src.len = sz then
          let (tx, rcb) := cliWriteFree e fs more tmp true { tx with writeQ := q }
          cliWrCompleted e fs more fuel (rc - sz) (moreWork || rcb) tx
        else
          cliWrCompleted e fs more fuel (rc - sz) moreWork
            { tx with writeQ := { tmp with src := tmp.src.advance sz } :: q }

/-- The end of a round of `cli_writable`. Another follows if a callback has queued more. -/
def cliWrote (e : Env) (fs : Vol) (more : More) (rc : Nat) (tx : ClientTx) : ClientTx × Bool :=
  match cliWrCompleted e fs more (tx.writeQ.length + rc) rc false tx with
  | (tx, moreWork) =>
    if tx.writeQ = [] then ({ tx with writing := false, evWrite := false }, false)
    else (tx, moreWork)

/-- `err_out` of `cli_writable`. -/
def cliWriteErr (tx : ClientTx) : ClientTx := cliWriteFreeAll { tx with state := .dispose }

/-- `sendfile` of the file at the front of the queue. -/
def cliSendfile (e : Env) (fs : Vol) (r : WrRes) (tx : ClientTx) : ClientTx × Bool :=
  match r, tx.inObj with
  | .wrote n more, some obj =>
    match fsObjSendfile fs obj n (min tx.inLen cliMaxSendfileSz) with
    | none => (cliWriteErr tx, false)
    | some (ino, ofs, rc, obj) =>
      cliWrote e fs more rc
        { tx with
          inObj := some obj
          inLen := tx.inLen - rc
          sent := tx.sent ++ (List.range rc).map fun i => .file ino (ofs + i) }
  | _, _ => (cliWriteErr tx, false)

/-- `SSL_write` of the buffer at the front of the queue. -/
def cliSslWrite (e : Env) (fs : Vol) (r : WrRes) (bs : Bytes) (tx : ClientTx) : ClientTx × Bool :=
  match r with
  | .wrote n more =>
    let out := bs.take (max 1 n)
    cliWrote e fs more out.length { tx with sent := tx.sent ++ out.map .mem }
  | .wantRead => ({ tx with writeWantRead := true }, false)
  | .again => (tx, false)
  | _ => (cliWriteErr tx, false)

/-- `writev` of the entries at the front of the queue. -/
def cliWritev (e : Env) (fs : Vol) (r : WrRes) (tx : ClientTx) : ClientTx × Bool :=
  let iov := cliWrIov cliMaxWrIov 0 tx.writeQ
  let tx := { tx with handed := tx.handed ++ [(tx.sent.length, iov.map ClientWrite.src)] }
  match r with
  | .wrote n more =>
    let out := (memBytes iov).take n
    cliWrote e fs more out.length { tx with sent := tx.sent ++ out.map .mem }
  | .intr => (tx, true)
  | .again => (tx, false)
  | _ => (cliWriteErr tx, false)

/-- A round of `cli_writable`, and whether it goes on. -/
def cliWriteOnce (e : Env) (fs : Vol) (r : WrRes) (tx : ClientTx) : ClientTx × Bool :=
  match tx.writeQ with
  | [] => (tx, false)
  | ⟨.sendfile _, _⟩ :: _ => cliSendfile e fs r tx
  | ⟨.buf bs, _⟩ :: _ => if tx.ssl then cliSslWrite e fs r bs tx else cliWritev e fs r tx

/-- `cli_writable`, for what the socket does in turn. After that every write would block. -/
def cliWritable (e : Env) (fs : Vol) : List WrRes → ClientTx → ClientTx
  | [], tx => (cliWriteOnce e fs .again tx).1
  | r :: rs, tx =>
    match cliWriteOnce e fs r tx with
    | (tx, true) => cliWritable e fs rs tx
    | (tx, false) => tx

def cliWriteStart (e : Env) (fs : Vol) (wr : List WrRes) (tx : ClientTx) : ClientTx :=
  if tx.writeQ = [] ∨ tx.writing then tx
  else
    let tx := cliWritable e fs wr tx
    if tx.writeQ = [] then tx else { tx with evWrite := true, writing := true }

/-! ## What queueing and callbacks leave alone -/

/-- More may have been queued, and callbacks called; what is said of the socket is as before. -/
structure ClientTx.Extends (tx tx' : ClientTx) : Prop where
  state : tx'.state = tx.state
  ssl : tx'.ssl = tx.ssl
  readWantWrite : tx'.readWantWrite = tx.readWantWrite
  sent : tx'.sent = tx.sent
  handed : tx'.handed = tx.handed
  queued : tx.queued <+: tx'.queued

namespace ClientTx.Extends

variable {tx tx' tx'' : ClientTx}

theorem refl (tx : ClientTx) : tx.Extends tx := ⟨rfl, rfl, rfl, rfl, rfl, List.prefix_rfl⟩

theorem trans (h : tx.Extends tx') (h' : tx'.Extends tx'') : tx.Extends tx'' :=
  ⟨h'.state.trans h.state, h'.ssl.trans h.ssl, h'.readWantWrite.trans h.readWantWrite,
    h'.sent.trans h.sent, h'.handed.trans h.handed, h.queued.trans h'.queued⟩

theorem writeq (tx : ClientTx) (fails : Bool) (bs : Bytes) (cb : CliWriteFunc) :
    tx.Extends (cliWriteq fails bs cb tx).1 := by
  unfold cliWriteq
  split
  · exact refl tx
  · exact ⟨rfl, rfl, rfl, rfl, rfl, List.prefix_append _ _⟩

theorem wrSendfile (tx : ClientTx) (fails : Bool) (cb : CliWriteFunc) :
    tx.Extends (cliWrSendfile fails cb tx).1 := by
  unfold cliWrSendfile
  split
  · exact refl tx
  · exact ⟨rfl, rfl, rfl, rfl, rfl, List.prefix_append _ _⟩

theorem inEnd (tx : ClientTx) : tx.Extends (cliInEnd tx) := ⟨rfl, rfl, rfl, rfl, rfl, List.prefix_rfl⟩

theorem inObj (tx : ClientTx) (obj : Option FsObj) (len : Nat) :
    tx.Extends { tx with inObj := obj, inLen := len } := ⟨rfl, rfl, rfl, rfl, rfl, List.prefix_rfl⟩

theorem readBytes (e : Env) (fs : Vol) (more : More) (tx : ClientTx) :
    tx.Extends (objectReadBytes e fs more tx).1 := by
  unfold objectReadBytes
  split
  · exact wrSendfile tx _ _
  · split
    · exact refl tx
    · split
      · exact inObj tx _ tx.inLen
      · next bs obj hread =>
        dsimp only
        split
        · exact inObj tx _ tx.inLen
        · have hend : tx.Extends (if tx.inLen - bs.length = 0 then
              cliInEnd { tx with inObj := some obj, inLen := tx.inLen - bs.length }
            else { tx with inObj := some obj, inLen := tx.inLen - bs.length }) := ?_
          refine hend.trans (writeq _ _ _ _)
          split
          · exact (inObj tx _ _).trans (inEnd _)
          · exact inObj tx _ _

theorem getMore (e : Env) (fs : Vol) (more : More) (done : Bool) (tx : ClientTx) :
    tx.Extends (objectGetMore e fs more done tx).1 := by
  unfold objectGetMore
  split
  · exact refl tx
  · split
    · exact inEnd tx
    · have h := readBytes e fs more tx
      split
      · next hr => rwa [hr] at h
      · next hr =>
        rw [hr] at h
        exact h.trans (inEnd _)

theorem writeFree (e : Env) (fs : Vol) (more : More) (tmp : ClientWrite) (done : Bool)
    (tx : ClientTx) : tx.Extends (cliWriteFree e fs more tmp done tx).1 := by
  have h : tx.Extends { tx with called := tx.called ++ [done] } :=
    ⟨rfl, rfl, rfl, rfl, rfl, List.prefix_rfl⟩
  unfold cliWriteFree
  dsimp only
  split
  · exact h
  · exact h
  · exact h.trans (getMore e fs more done _)

theorem completed (e : Env) (fs : Vol) (more : More) (fuel rc : Nat) (moreWork : Bool)
    (tx : ClientTx) : tx.Extends (cliWrCompleted e fs more fuel rc moreWork tx).1 := by
  have hq : ∀ (tx : ClientTx) (q : List ClientWrite), tx.Extends { tx with writeQ := q } :=
    fun tx q => ⟨rfl, rfl, rfl, rfl, rfl, List.prefix_rfl⟩
  induction fuel generalizing rc moreWork tx with
  | zero => exact refl tx
  | succ fuel ih =>
    rw [cliWrCompleted]
    split
    · exact refl tx
    · split
      · exact refl tx
      · next tmp q _ =>
        dsimp only
        split
        · exact ((hq tx q).trans (writeFree e fs more tmp true _)).trans (ih _ _ _)
        · exact (hq tx _).trans (ih _ _ _)

theorem wrote (e : Env) (fs : Vol) (more : More) (rc : Nat) (tx : ClientTx) :
    tx.Extends (cliWrote e fs more rc tx).1 := by
  have h := completed e fs more (tx.writeQ.length + rc) rc false tx
  unfold cliWrote
  split
  next hc =>
    rw [hc] at h
    split
    · exact ⟨h.state, h.ssl, h.readWantWrite, h.sent, h.handed, h.queued⟩
    · exact h

end ClientTx.Extends

end Hail.Chunkd
