import Hail.Chunkd.Client
import Hail.Chunkd.SelfCheck

/-!
# Requests on objects

`struct client` and the functions of `object.c`, with `cli_err` of `server.c`. A copy runs in a thread
of its own, one call of the storage after another.

A function returns nothing when the process dies in it.
-/
namespace Hail.Chunkd

open Library

/-! ## The client -/

/-- What `req_ptr` points into. -/
inductive RxBuf where
  | creq | creqGetpart | key | key2
  deriving DecidableEq, Repr

/-- The fields of `struct client` that a request is read into. `req_ptr` is a buffer and an offset in
it. -/
structure ClientRx where
  creq : Buffer := ⟨List.replicate chunksrvReqSz 0, false⟩
  creqGetpart : Buffer := ⟨List.replicate chunksrvReqGetpartSz 0, false⟩
  key : Buffer := ⟨List.replicate chdKeySz 0, false⟩
  key2 : Buffer := ⟨List.replicate chdKeySz 0, false⟩
  reqUsed : Nat := 0
  reqPtr : RxBuf × Nat := (.creq, 0)
  keyLen : Nat := 0
  varLen : Nat := 0
  secondVar : Bool := false

/-- The fields of `struct client` for an object that is being written. -/
structure ClientOut where
  outUser : Option Bytes := none
  outHash : Bytes := []
  outLen : Nat := 0
  outBo : Option FsObj := none
  outCe : Option UInt32 := none

/-- Where `worker_cp_thr` is: before a call of the storage, or at its end. -/
inductive CpAt where
  | openSrc | cache | create | read
  | write (bs : Bytes)
  | commit | out | signal
  deriving DecidableEq, Repr

/-- `struct worker_info`, with `err` of the thread. -/
structure WorkerInfo where
  pc : CpAt
  err : ChunkErrcode
  deriving DecidableEq, Repr

/-- A request as it is executed: its header, its key and, for a copy or a part, its second record. -/
structure Request where
  creq : Bytes
  key : Bytes
  second : Bytes
  deriving DecidableEq, Repr

/-- `struct client`. The last two are a history: all that has been read from the socket, and the
requests executed. -/
structure Client extends ClientRx, ClientTx, ClientOut where
  user : Bytes := List.replicate (chdUserSz + 1) 0
  table : Bytes := List.replicate chdKeySz 0
  tableLen : Nat := 0
  tableId : Nat := 0
  firstReq : Bool := true
  worker : Option WorkerInfo := none
  taken : Bytes := []
  executed : List Request := []

/-- The request in the buffers. -/
def ClientRx.req (rx : ClientRx) : ChunksrvReq := .ofBytes rx.creq.data

/-- `key`, of `key_len` bytes. -/
def ClientRx.keyBytes (rx : ClientRx) : Bytes := rx.key.data.take rx.keyLen

/-- `key2`, of `var_len` bytes. What lies behind the buffer is of no account: a key so long is
invalid. -/
def ClientRx.key2Bytes (rx : ClientRx) : Bytes :=
  (rx.key2.data ++ List.replicate (rx.varLen - chdKeySz) 0).take rx.varLen

def ClientRx.request (rx : ClientRx) : Request where
  creq := rx.creq.data
  key := rx.keyBytes
  second :=
    match rx.req.op with
    | .cp => rx.key2Bytes
    | .getPart => rx.creqGetpart.data
    | _ => []

/-! ## The server -/

/-- `enum chk_state`. -/
inductive ChkState where
  | off | init | idle | running
  deriving DecidableEq, Repr

/-- `chunkd_srv` and the storage: the files, the master database, the object cache, the state of the
self-check and the commands in its pipe. -/
structure Srv where
  fs : Vol
  tbl : TblMaster
  actives : Objcache
  chkState : ChkState
  chkDone : Nat
  chkUsers : List Bytes
  rescans : Nat

/-- What a read of the socket gives: bytes, nothing yet, the end or an error. With SSL it may have to
wait until the socket can be written. -/
inductive RdRes where
  | data (b : UInt8) (bs : Bytes)
  | again | wantWrite | eof | fail
  deriving DecidableEq

/-- What the system does for one event: besides the calls of the storage a read and the writes of the
socket, and for a listing the walk and the `cli_writeq` of each string. -/
structure Io where
  sys : Sys
  rd : RdRes
  wr : List WrRes
  list : ListCalls
  listFails : Nat → Bool

/-! ## Answers -/

/-- `cli_writeq` of an answer, and `cli_write_start` if that succeeds. -/
def cliRespond (e : Env) (io : Io) (fs : Vol) (fails : Bool) (bs : Bytes) (tx : ClientTx) :
    ClientTx :=
  match cliWriteq fails bs .cbFree tx with
  | (tx, false) => tx
  | (tx, true) => cliWriteStart e fs io.wr tx

def cliErr (e : Env) (io : Io) (fs : Vol) (creq : ChunksrvReq) (code : ChunkErrcode)
    (recycleOk : Bool) (tx : ClientTx) : ClientTx :=
  if io.sys.fails .errResp then { tx with state := .dispose }
  else
    cliRespond e io fs (io.sys.fails .errWriteq)
      { respInitReq creq with respCode := code.toNat }.encode
      { tx with state := if recycleOk then .recycle else .dispose }

/-! ## Deleting and storing -/

def objectDel (e : Env) (io : Io) (srv : Srv) (cli : Client) : Srv × Client :=
  if io.sys.fails .resp then (srv, { cli with state := .dispose })
  else
    match fsObjDelete e io.sys srv.fs cli.tableId cli.user cli.keyBytes with
    | (some err, fs) =>
      ({ srv with fs }, { cli with toClientTx := cliErr e io fs cli.req err true cli.toClientTx })
    | (none, fs) =>
      ({ srv with fs },
        { cli with
          toClientTx :=
            cliRespond e io fs (io.sys.fails .writeq) (respInitReq cli.req).encode cli.toClientTx })

/-- `cli_out_end`. -/
def cliOutEnd (srv : Srv) (out : ClientOut) : Srv × ClientOut :=
  let fs := match out.outBo with
    | some bo => fsObjFree srv.fs bo
    | none => srv.fs
  let actives := match out.outCe with
    | some cep => objcachePut srv.actives cep
    | none => srv.actives
  ({ srv with fs, actives }, { out with outBo := none, outCe := none, outUser := none })

def objectPutEnd (e : Env) (io : Io) (srv : Srv) (cli : Client) : Option (Srv × Client) :=
  if io.sys.fails .resp then some (srv, { cli with state := .dispose })
  else
    match cli.outBo, cli.outUser with
    | some bo, some user =>
      let md := e.sha1 cli.outHash
      let (ok, fs, bo) :=
        fsObjWriteCommit e io.sys srv.fs bo user md (has cli.req.flags chfSync)
      let (srv, out) := cliOutEnd { srv with fs } { cli.toClientOut with outBo := some bo }
      let cli := { cli with toClientOut := out, state := .recycle }
      if ok then
        some (srv,
          { cli with
            toClientTx := cliRespond e io srv.fs (io.sys.fails .writeq)
              { respInitReq cli.req with hash := md }.encode cli.toClientTx })
      else
        some (srv,
          { cli with toClientTx := cliErr e io srv.fs cli.req .internalError true cli.toClientTx })
    -- a null pointer
    | _, _ => none

def objectPut (e : Env) (io : Io) (srv : Srv) (cli : Client) : Option (Srv × Client) :=
  let contentLen := cli.req.dataLen
  match objcacheGet (io.sys.fails .cacheEntry) srv.actives cli.keyBytes true with
  | none => none
  | some (cep, actives) =>
    let cli := { cli with outCe := some cep }
    match fsObjNew e io.sys srv.fs cli.tableId cli.keyBytes contentLen with
    | (.error err, fs) =>
      some ({ srv with fs, actives },
        { cli with
          outBo := none, toClientTx := cliErr e io fs cli.req err true cli.toClientTx })
    | (.ok bo, fs) =>
      let cli :=
        { cli with
          outBo := some bo
          outHash := []
          outLen := contentLen
          outUser := if io.sys.fails .userDup then none else some cli.user }
      let srv := { srv with fs, actives }
      if contentLen = 0 then objectPutEnd e io srv cli
      else some (srv, { cli with state := .dataIn })

/-- The rest of `cli_evt_data_in` when `bs` has been read. -/
def dataInWrite (e : Env) (io : Io) (srv : Srv) (cli : Client) (bs : Bytes) :
    Option (Srv × Client) :=
  match cli.outBo with
  | none => none
  | some bo =>
    match fsObjWrite e io.sys.now (io.sys.writes 0) srv.fs bo bs with
    | (.never, _, _) => none
    | (.failed, fs, bo) =>
      let (srv, out) := cliOutEnd { srv with fs } { cli.toClientOut with outBo := some bo }
      some (srv,
        { cli with
          toClientOut := out
          toClientTx := cliErr e io srv.fs cli.req .internalError false cli.toClientTx })
    | (.all, fs, bo) =>
      let cli :=
        { cli with
          outBo := some bo
          outHash := cli.outHash ++ bs
          outLen := cli.outLen - bs.length }
      if cli.outLen = 0 then objectPutEnd e io { srv with fs } cli
      else some ({ srv with fs }, cli)

def cliEvtDataIn (e : Env) (io : Io) (srv : Srv) (cli : Client) : Option (Srv × Client) :=
  if cli.outLen = 0 then objectPutEnd e io srv cli
  else
    let readSz := min cli.outLen cliDataBufSz
    match io.rd with
    | .data b bs =>
      let bs := (b :: bs).take readSz
      dataInWrite e io srv { cli with taken := cli.taken ++ bs } bs
    | .eof => some (srv, { cli with state := .dispose })
    | .again => some (srv, cli)
    | .wantWrite =>
      if cli.ssl then some (srv, { cli with readWantWrite := true, evWrite := true })
      else some (srv, cli)
    | .fail =>
      if cli.ssl then
        some (srv,
          { cli with toClientTx := cliErr e io srv.fs cli.req .internalError false cli.toClientTx })
      else
        let (srv, out) := cliOutEnd srv cli.toClientOut
        some (srv,
          { cli with
            toClientOut := out
            toClientTx := cliErr e io srv.fs cli.req .internalError false cli.toClientTx })

/-! ## Reading -/

def objectGet (e : Env) (io : Io) (fs : Vol) (cli : Client) (wantBody : Bool) : ClientTx :=
  let tx := cli.toClientTx
  if io.sys.fails .resp then { tx with state := .dispose }
  else
    match fsObjOpen e io.sys fs cli.tableId cli.user cli.keyBytes with
    | .error err => cliErr e io fs cli.req err true { tx with inObj := none }
    | .ok obj =>
      let tx := { tx with inObj := some obj, inLen := obj.size }
      let resp := { respInitReq cli.req with dataLen := obj.size, hash := obj.hash }
      match cliWriteq (io.sys.fails .writeq) (resp.encodeGet obj.mtime) .cbFree tx with
      | (tx, false) => tx
      | (tx, true) =>
        if !wantBody ∨ tx.inLen = 0 then cliWriteStart e fs io.wr (cliInEnd tx)
        else
          let site := if useSendfile tx then .bodyEntry else .bodyWriteq
          match objectReadBytes e fs ⟨io.sys.reads 0, io.sys.fails site⟩ tx with
          | (tx, true) => cliWriteStart e fs io.wr tx
          -- the code left by fs_obj_open is that of success
          | (tx, false) => cliErr e io fs cli.req .success false (cliInEnd tx)

/-- The range of a part of an object: its length, and the offset and the length of the blocks that are
read for it. -/
structure PartRange where
  length : Nat
  alignedOfs : Nat
  alignedLen : Nat
  deriving DecidableEq, Repr

/-- The part of an object of `size` bytes from an offset inside it on. -/
def partRange (size offset dataLen : Nat) : PartRange :=
  let alignedOfs := offset / chunkBlkSz * chunkBlkSz
  let remain := size - offset
  let alignedRem := size - alignedOfs
  let length := if dataLen = 0 ∨ remain < dataLen then remain else dataLen
  let length := min length (chunkMaxGetpart * chunkBlkSz)
  let alignedLen := length + (offset - alignedOfs)
  let alignedLen :=
    if alignedLen % chunkBlkSz ≠ 0 then alignedLen + (chunkBlkSz - alignedLen % chunkBlkSz)
    else alignedLen
  ⟨length, alignedOfs, min alignedLen alignedRem⟩

/-- The blocks of a part as `object_get_part` reads them: the code of a failure, or the bytes. -/
def partRead (e : Env) (io : Io) (fs : Vol) (obj : FsObj) (r : PartRange) :
    Except ChunkErrcode Bytes × FsObj :=
  if r.length = 0 then (.ok [], obj)
  else
    match fsObjSeek io.sys obj r.alignedOfs with
    | none => (.error .invalidSeek, obj)
    | some obj =>
      -- the code left by fs_obj_open is that of success
      if io.sys.fails .partBuf then (.error .success, obj)
      else
        match fsObjRead e fs (io.sys.reads 0) obj r.alignedLen with
        | (some bs, obj) =>
          if bs.length = r.alignedLen then (.ok bs, obj) else (.error .success, obj)
        | (none, obj) => (.error .success, obj)

def objectGetPart (e : Env) (io : Io) (fs : Vol) (cli : Client) : Option ClientTx :=
  let tx := cli.toClientTx
  if io.sys.fails .resp then some { tx with state := .dispose }
  else
    match fsObjOpen e io.sys fs cli.tableId cli.user cli.keyBytes with
    | .error err => some (cliErr e io fs cli.req err true { tx with inObj := none })
    | .ok obj =>
      let tx := { tx with inObj := some obj, inLen := obj.size }
      let offset := ofLe cli.creqGetpart.data
      if obj.size < offset then some (cliErr e io fs cli.req .invalidSeek true tx)
      else
        let r := partRange obj.size offset cli.req.dataLen
        match partRead e io fs obj r with
        | (.error err, obj) =>
          some (cliErr e io fs cli.req err true { tx with inObj := some obj })
        | (.ok mem, obj) =>
          -- SHA1 of a null pointer
          if r.length = 0 ∧ r.alignedLen ≠ 0 then none
          else
            let tx := { tx with inObj := some obj }
            let resp :=
              { respInitReq cli.req with
                flags := if r.length = obj.size - offset then chfGetPartLast else 0
                dataLen := r.length
                hash := e.sha1 mem }
            match cliWriteq (io.sys.fails .writeq) (resp.encodeGet obj.mtime) .cbFree tx with
            | (tx, false) => some tx
            | (tx, true) =>
              if r.length = 0 then some (cliWriteStart e fs io.wr (cliInEnd tx))
              else
                match cliWriteq (io.sys.fails .bodyWriteq)
                    ((mem.drop (offset - r.alignedOfs)).take r.length) .cbFree tx with
                | (tx, false) => some tx
                | (tx, true) => some (cliWriteStart e fs io.wr (cliInEnd tx))

/-! ## Copying -/

def objectCp (e : Env) (io : Io) (fs : Vol) (cli : Client) : Client :=
  if io.sys.fails .cpInfo then
    { cli with toClientTx := cliErr e io fs cli.req .internalError false cli.toClientTx }
  else { cli with worker := some ⟨.openSrc, .internalError⟩ }

/-- A step of `worker_cp_thr`, up to the end of its next call of the storage. -/
def workerCpThr (e : Env) (io : Io) (srv : Srv) (cli : Client) (wi : WorkerInfo) :
    Option (Srv × Client) :=
  match wi.pc with
  | .openSrc =>
    if io.sys.fails .cpBuf then some (srv, { cli with worker := some { wi with pc := .out } })
    else
      match fsObjOpen e io.sys srv.fs cli.tableId cli.user cli.key2Bytes with
      | .error err => some (srv, { cli with inObj := none, worker := some ⟨.out, err⟩ })
      | .ok obj =>
        some (srv,
          { cli with inObj := some obj, inLen := obj.size, worker := some ⟨.cache, .success⟩ })
  | .cache =>
    match objcacheGet (io.sys.fails .cacheEntry) srv.actives cli.keyBytes true with
    | none => none
    | some (cep, actives) =>
      some ({ srv with actives },
        { cli with outCe := some cep, worker := some { wi with pc := .create } })
  | .create =>
    match cli.inObj with
    | none => none
    | some obj =>
      match fsObjNew e io.sys srv.fs cli.tableId cli.keyBytes obj.size with
      | (.error err, fs) =>
        some ({ srv with fs }, { cli with outBo := none, worker := some ⟨.out, err⟩ })
      | (.ok bo, fs) =>
        some ({ srv with fs },
          { cli with outBo := some bo, outHash := [], worker := some ⟨.read, .success⟩ })
  | .read =>
    if cli.inLen = 0 then some (srv, { cli with worker := some { wi with pc := .commit } })
    else
      match cli.inObj with
      | none => none
      | some obj =>
        match fsObjRead e srv.fs (io.sys.reads 0) obj (min cli.inLen cliDataBufSz) with
        | (none, obj) =>
          some (srv, { cli with inObj := some obj, worker := some { wi with pc := .out } })
        | (some bs, obj) =>
          if bs = [] then
            some (srv, { cli with inObj := some obj, worker := some { wi with pc := .commit } })
          else
            some (srv,
              { cli with
                inObj := some obj
                inLen := cli.inLen - bs.length
                outHash := cli.outHash ++ bs
                worker := some { wi with pc := .write bs } })
  | .write bs =>
    match cli.outBo with
    | none => none
    | some bo =>
      match fsObjWrite e io.sys.now (io.sys.writes 0) srv.fs bo bs with
      | (.never, _, _) => none
      | (.failed, fs, bo) =>
        some ({ srv with fs },
          { cli with outBo := some bo, worker := some { wi with pc := .out } })
      | (.all, fs, bo) =>
        some ({ srv with fs },
          { cli with outBo := some bo, worker := some { wi with pc := .read } })
  | .commit =>
    match cli.outBo with
    | none => none
    | some bo =>
      match fsObjWriteCommit e io.sys srv.fs bo cli.user (e.sha1 cli.outHash) false with
      | (false, fs, bo) =>
        some ({ srv with fs },
          { cli with outBo := some bo, worker := some { wi with pc := .out } })
      | (true, fs, bo) =>
        some ({ srv with fs }, { cli with outBo := some bo, worker := some ⟨.out, .success⟩ })
  | .out =>
    let (srv, out) := cliOutEnd srv cli.toClientOut
    some (srv,
      { cli with toClientOut := out, inObj := none, worker := some { wi with pc := .signal } })
  | .signal => some (srv, cli)

/-- `worker_cp_pipe`. -/
def workerCpPipe (e : Env) (io : Io) (fs : Vol) (cli : Client) (wi : WorkerInfo) : Client :=
  { cli with
    worker := none
    toClientTx := cliErr e io fs cli.req wi.err (wi.err = .success) cli.toClientTx }

end Hail.Chunkd
