import Hail.Chunkd.Object

/-!
# Connections

The state functions of `server.c`: a request is read in pieces, checked against its signature and
executed, and the client goes back to reading when its answer is out.

The functions called for an event and the events themselves are steps of a connection. `tcp_cli_event`
calls state functions for as long as they ask for it; here the order of steps is left open, as far as
the events a client waits for allow.
-/
namespace Hail.Chunkd

open Library

/-! ## Signatures -/

/-- `req_len`: how much of a request is signed. -/
def reqLen (req : ChunksrvReq) : Nat :=
  chunksrvReqSz + req.keyLen +
    match req.op with
    | .getPart => chunksrvReqGetpartSz
    | _ => 0

/-- What `authcheck` gives to `chreq_sign`: the header without its signature, the key and the record
of a part. -/
def signedBytes (creq gpr key : Bytes) : Bytes :=
  (creq.take (chunksrvReqSz - chdSigSz) ++ List.replicate chdSigSz 0 ++ key ++ gpr).take
    (reqLen (.ofBytes creq))

def authcheck (e : Env) (creq gpr key secretKey : Bytes) : Bool :=
  cstr (ChunksrvReq.ofBytes creq).sig = cstr (e.b64hmac (cstr secretKey) (signedBytes creq gpr key))

/-- `authcheck` of the request of a client under a user. -/
def ClientRx.verifies (e : Env) (rx : ClientRx) (user : Bytes) : Bool :=
  authcheck e rx.creq.data rx.creqGetpart.data rx.keyBytes user

def validReqHdr (req : ChunksrvReq) : Bool :=
  req.magic = chunkdMagic && 1 ≤ (cstr req.sig).length && (cstr req.sig).length < chdSigSz

/-! ## Requests on tables and on the server -/

/-- `cli_write_list`, from the `i`-th string on. -/
def cliWriteList (io : Io) : Nat → List Bytes → ClientTx → ClientTx × Bool
  | _, [], tx => (tx, true)
  | i, s :: content, tx =>
    match cliWriteq (io.listFails i) s .cbFree tx with
    | (tx, false) => (tx, false)
    | (tx, true) => cliWriteList io (i + 1) content tx

def cliRespXml (e : Env) (io : Io) (fs : Vol) (creq : ChunksrvReq) (content : List Bytes)
    (tx : ClientTx) : ClientTx :=
  if io.sys.fails .resp then { tx with state := .dispose }
  else
    let resp := { respInitReq creq with dataLen := (content.map List.length).sum }
    match cliWriteq (io.sys.fails .writeq) resp.encode .cbFree { tx with state := .recycle } with
    | (tx, false) => { tx with state := .dispose }
    | (tx, true) =>
      match cliWriteList io 0 content tx with
      | (tx, false) => { tx with state := .dispose }
      | (tx, true) => cliWriteStart e fs io.wr tx

def cliRespBin (e : Env) (io : Io) (fs : Vol) (creq : ChunksrvReq) (data : Bytes) (tx : ClientTx) :
    ClientTx :=
  if io.sys.fails .resp ∨ io.sys.fails .respBin then { tx with state := .dispose }
  else
    let resp := { respInitReq creq with dataLen := data.length }
    match cliWriteq (io.sys.fails .writeq) resp.encode .cbFree { tx with state := .recycle } with
    | (tx, false) => { tx with state := .dispose }
    | (tx, true) =>
      match cliWriteq (io.sys.fails .bodyWriteq) data .cbFree tx with
      | (tx, false) => { tx with state := .dispose }
      | (tx, true) => cliWriteStart e fs io.wr tx

/-- The bytes of a text of ASCII characters. -/
def ascii (s : String) : Bytes := s.toList.map fun c => UInt8.ofNat c.toNat

/-- The string for an entry. -/
def entryXml (e : Env) (ve : VolumeEntry) : Bytes :=
  ascii "  <Contents>\r\n    <Name>" ++ cstr (e.escape ve.key) ++
    ascii "</Name>\r\n    <LastModified>" ++ cstr (e.time2str ve.mtime) ++
    ascii "</LastModified>\r\n    <ETag>" ++ ve.hash ++
    ascii "</ETag>\r\n    <Size>" ++ ascii (toString ve.size) ++
    ascii "</Size>\r\n    <Owner>" ++ ve.owner ++ ascii "</Owner>\r\n  </Contents>\r\n"

/-- The strings of a listing. -/
def volumeXml (e : Env) (res : List VolumeEntry) : List Bytes :=
  ascii ("<?xml version=\"1.0\" encoding=\"UTF-8\"?>\r\n" ++
      "<ListVolumeResult xmlns=\"http://indy.yyz.us/doc/2006-03-01/\">\r\n" ++
      "  <Name>volume</Name>\r\n") ::
    res.map (entryXml e) ++ [ascii "</ListVolumeResult>\r\n"]

def volumeList (e : Env) (io : Io) (fs : Vol) (cli : Client) : ClientTx :=
  cliRespXml e io fs cli.req (volumeXml e (fsListObjs io.list fs cli.tableId cli.user))
    cli.toClientTx

def volumeOpen (e : Env) (io : Io) (srv : Srv) (cli : Client) : Srv × Client :=
  let creat := has cli.req.flags chfTblCreat
  let excl := has cli.req.flags chfTblExcl
  match fsTableOpen io.sys srv.tbl cli.keyBytes creat excl cli.tableId with
  | (some err, tableId, tbl) =>
    ({ srv with tbl },
      { cli with tableId, toClientTx := cliErr e io srv.fs cli.req err true cli.toClientTx })
  | (none, tableId, tbl) =>
    ({ srv with tbl },
      { cli with
        tableId
        table := cli.keyBytes ++ List.replicate (chdKeySz - cli.keyLen) 0
        tableLen := cli.keyLen
        toClientTx := cliErr e io srv.fs cli.req .success true cli.toClientTx })

def loginUser (e : Env) (io : Io) (fs : Vol) (cli : Client) : Client :=
  if cli.keyLen < 1 ∨ chdUserSz < cli.keyLen then
    { cli with
      toClientTx :=
        cliErr e io fs cli.req .invalidArgument false { cli.toClientTx with state := .dispose } }
  else
    let user := cli.keyBytes ++ List.replicate (chdUserSz + 1 - cli.keyLen) 0
    if !cli.verifies e user then
      { cli with
        user
        toClientTx :=
          cliErr e io fs cli.req .signatureDoesNotMatch false
            { cli.toClientTx with state := .dispose } }
    else { cli with user, toClientTx := cliErr e io fs cli.req .success true cli.toClientTx }

def chkUserAuthorized (srv : Srv) (user : Bytes) : Bool :=
  srv.chkUsers.any fun s => cstr user = cstr s

def chkStart (e : Env) (io : Io) (srv : Srv) (cli : Client) : Srv × ClientTx :=
  let err := fun code => cliErr e io srv.fs cli.req code true cli.toClientTx
  if !chkUserAuthorized srv cli.user then (srv, err .accessDenied)
  else
    match srv.chkState with
    | .off =>
      if io.sys.fails .chkSpawn then ({ srv with chkState := .init }, err .internalError)
      else ({ srv with chkState := .init, rescans := srv.rescans + 1 }, err .success)
    | .init | .running => (srv, err .busy)
    | .idle => ({ srv with chkState := .running, rescans := srv.rescans + 1 }, err .success)

/-- `struct chunk_check_status` for a state of the self-check. -/
def chkStatusBuf (srv : Srv) : Bytes :=
  let state := match srv.chkState with
    | .off => 0
    | .idle => 1
    | .init | .running => 2
  leBytes 1 state ++ List.replicate 7 0 ++ leBytes 8 srv.chkDone

def chkStatus (e : Env) (io : Io) (srv : Srv) (cli : Client) : ClientTx :=
  cliRespBin e io srv.fs cli.req (chkStatusBuf srv) cli.toClientTx

/-! ## Executing a request -/

def startTls (io : Io) (cli : Client) : Client :=
  if !cli.firstReq then { cli with state := .dispose }
  else if io.sys.fails .sslNew then { cli with state := .dispose }
  else if io.sys.fails .sslSetFd then { cli with ssl := true, state := .dispose }
  else { cli with ssl := true, state := .sslAccept }

/-- The operations that need an open table. -/
def needsTable : ChunksrvOps → Bool
  | .get | .getMeta | .put | .del | .list => true
  | _ => false

/-- The switch over the operations in `cli_evt_exec_req`, for a user who may make the request. -/
def execOp (e : Env) (io : Io) (srv : Srv) (cli : Client) : Option (Srv × Client) :=
  let err := fun code =>
    { cli with toClientTx := cliErr e io srv.fs cli.req code true cli.toClientTx }
  match cli.req.op with
  | .login => some (srv, loginUser e io srv.fs cli)
  | .nop => some (srv, err .success)
  | .get => some (srv, { cli with toClientTx := objectGet e io srv.fs cli true })
  | .getMeta => some (srv, { cli with toClientTx := objectGet e io srv.fs cli false })
  | .getPart => (objectGetPart e io srv.fs cli).map fun tx => (srv, { cli with toClientTx := tx })
  | .put => objectPut e io srv cli
  | .del => some (objectDel e io srv cli)
  | .cp => some (srv, objectCp e io srv.fs cli)
  | .list => some (srv, { cli with toClientTx := volumeList e io srv.fs cli })
  | .tableOpen => some (volumeOpen e io srv cli)
  | .checkStart =>
    let (srv, tx) := chkStart e io srv cli
    some (srv, { cli with toClientTx := tx })
  | .checkStatus => some (srv, { cli with toClientTx := chkStatus e io srv cli })
  | .startTls => some (srv, startTls io cli)
  | .other _ => some (srv, err .invalidURI)

/-- `user[0]` says that somebody is logged in. -/
def Client.loggedIn (cli : Client) : Bool := cli.user.headD 0 ≠ 0

def cliEvtExecReq (e : Env) (io : Io) (srv : Srv) (cli : Client) : Option (Srv × Client) :=
  let cli := { cli with executed := cli.executed ++ [cli.request] }
  let errOut := fun (code : ChunkErrcode) (cli : Client) =>
    some (srv, { cli with toClientTx := cliErr e io srv.fs cli.req code false cli.toClientTx })
  if !validReqHdr cli.req then errOut .invalidArgument cli
  else if cli.loggedIn && !cli.verifies e cli.user then errOut .signatureDoesNotMatch cli
  else
    let cli := { cli with state := .recycle }
    if !cli.loggedIn ∧ cli.req.op ≠ .login ∧ cli.req.op ≠ .startTls then
      some (srv, { cli with state := .dispose })
    else if needsTable cli.req.op ∧ cli.tableLen = 0 then errOut .invalidTable cli
    else if cli.req.op = .login ∧ cli.loggedIn then errOut .invalidArgument cli
    else (execOp e io srv cli).map fun (srv, cli) => (srv, { cli with firstReq := false })

/-! ## Reading a request -/

/-- `cli_read_data` of so many bytes: what it puts in the buffer, unless it fails. -/
def cliReadData (io : Io) (buflen : Nat) (cli : Client) : Option Bytes × Client :=
  if buflen = 0 then (some [], cli)
  else
    match io.rd with
    | .data b bs =>
      let bs := (b :: bs).take buflen
      (some bs, { cli with taken := cli.taken ++ bs })
    | .again => (some [], cli)
    | .wantWrite =>
      if cli.ssl then (some [], { cli with readWantWrite := true, evWrite := true })
      else (some [], cli)
    | .eof | .fail => (none, cli)

/-- The bytes put where `req_ptr` points, and `req_ptr` and `req_used` moved on. -/
def ClientRx.store (rx : ClientRx) (bs : Bytes) : ClientRx :=
  let (dst, ofs) := rx.reqPtr
  let rx := { rx with reqPtr := (dst, ofs + bs.length), reqUsed := (rx.reqUsed + bs.length) % 2 ^ 32 }
  match dst with
  | .creq => { rx with creq := rx.creq.write ofs bs }
  | .creqGetpart => { rx with creqGetpart := rx.creqGetpart.write ofs bs }
  | .key => { rx with key := rx.key.write ofs bs }
  | .key2 => { rx with key2 := rx.key2.write ofs bs }

/-- `sizeof(cli->creq) - cli->req_used`, of type `size_t`. -/
def ClientRx.fixedWant (rx : ClientRx) : Nat := (chunksrvReqSz + 2 ^ 64 - rx.reqUsed) % 2 ^ 64

/-- `cli->var_len - cli->req_used`, of type `unsigned int`. -/
def ClientRx.varWant (rx : ClientRx) : Nat := (rx.varLen + 2 ^ 32 - rx.reqUsed) % 2 ^ 32

/-- `cli_evt_read_fixed` when the read has not failed. -/
def fixedRead (cli : Client) : Client :=
  if cli.reqUsed < chunksrvReqSz then cli
  else
    let cli := { cli with keyLen := cli.req.keyLen }
    if cli.keyLen = 0 then { cli with state := .execReq }
    else if chdKeySz < cli.keyLen then { cli with state := .dispose }
    else
      { cli with
        reqPtr := (.key, 0), varLen := cli.keyLen, reqUsed := 0, state := .readVar
        secondVar := false }

/-- What `cli_evt_read_fixed` and `cli_evt_read_var` do when `cli_read_data` has returned; they go on in
different ways when it has not failed. -/
def cliEvtRead (goOn : Client → Client) : Option Bytes × Client → Client
  | (none, cli) => { cli with state := .dispose }
  | (some bs, cli) => goOn { cli with toClientRx := cli.toClientRx.store bs }

def cliEvtReadFixed (io : Io) (cli : Client) : Client :=
  cliEvtRead fixedRead (cliReadData io cli.fixedWant cli)

/-- `cli_evt_read_var` when the read has not failed. -/
def varRead (cli : Client) : Client :=
  if cli.reqUsed < cli.varLen then cli
  else if cli.req.op = .cp ∧ !cli.secondVar then
    { cli with
      reqPtr := (.key2, 0), varLen := cli.req.dataLen % 2 ^ 32, reqUsed := 0, state := .readVar
      secondVar := true }
  else if cli.req.op = .getPart ∧ !cli.secondVar then
    { cli with
      reqPtr := (.creqGetpart, 0), varLen := chunksrvReqGetpartSz, reqUsed := 0, state := .readVar
      secondVar := true }
  else { cli with state := .execReq }

def cliEvtReadVar (io : Io) (cli : Client) : Client :=
  cliEvtRead varRead (cliReadData io cli.varWant cli)

/-! ## The other states -/

/-- `cli_free`: what it changes of the server. -/
def cliFree (srv : Srv) (cli : Client) : Srv := (cliOutEnd srv cli.toClientOut).1

def cliEvtRecycle (cli : Client) : Client :=
  if cli.writeQ ≠ [] then cli
  else { cli with reqPtr := (.creq, 0), reqUsed := 0, state := .readFixed }

/-- `cli_evt_ssl_accept`, where `SSL_accept` does as a read would. -/
def cliEvtSslAccept (io : Io) (cli : Client) : Client :=
  match io.rd with
  | .data _ _ => { cli with state := .recycle }
  | .again => cli
  | .wantWrite => { cli with readWantWrite := true, evWrite := true }
  | .eof | .fail => { cli with state := .dispose }

/-- `state_funcs`; a client that is freed is gone. -/
def stateFunc (e : Env) (io : Io) (srv : Srv) (cli : Client) : Option (Srv × Option Client) :=
  match cli.state with
  | .readFixed => some (srv, some (cliEvtReadFixed io cli))
  | .readVar => some (srv, some (cliEvtReadVar io cli))
  | .execReq => (cliEvtExecReq e io srv cli).map fun (srv, cli) => (srv, some cli)
  | .dataIn => (cliEvtDataIn e io srv cli).map fun (srv, cli) => (srv, some cli)
  | .dispose => some (if cli.writeQ = [] then (cliFree srv cli, none) else (srv, some cli))
  | .recycle => some (srv, some (cliEvtRecycle cli))
  | .sslAccept => some (srv, some (cliEvtSslAccept io cli))

/-- `tcp_cli_wr_event`. -/
def tcpCliWrEvent (e : Env) (io : Io) (fs : Vol) (cli : Client) : Client :=
  if cli.readWantWrite then { cli with readWantWrite := false, evWrite := false }
  else { cli with toClientTx := cliWritable e fs io.wr cli.toClientTx }

/-! ## Steps -/

/-- What happens on a connection: a state function is called, the socket can be written, a write
waited for a read, the thread of a copy goes on, its end is signalled. -/
inductive ConnEv where
  | func | writable | wantRead | worker | pipe
  deriving DecidableEq, Repr

/-- A step of a connection. While a copy runs its client waits for no read. -/
def connStep (e : Env) (io : Io) (srv : Srv) (cli : Client) (ev : ConnEv) :
    Option (Srv × Option Client) :=
  match ev, cli.worker with
  | .func, none => stateFunc e io srv cli
  | .func, some _ => some (srv, some cli)
  | .writable, _ => some (srv, some (if cli.evWrite then tcpCliWrEvent e io srv.fs cli else cli))
  | .wantRead, _ =>
    some (srv, some
      (if cli.writeWantRead then
        { cli with
          toClientTx :=
            cliWritable e srv.fs io.wr { cli.toClientTx with writeWantRead := false } }
      else cli))
  | .worker, some wi => (workerCpThr e io srv cli wi).map fun (srv, cli) => (srv, some cli)
  | .worker, none => some (srv, some cli)
  | .pipe, some wi =>
    some (srv, some (if wi.pc = .signal then workerCpPipe e io srv.fs cli wi else cli))
  | .pipe, none => some (srv, some cli)

/-- A step of a connection that may be gone, for any state of the server. -/
def connNext (e : Env) (c : Option Client) (i : Srv × Io × ConnEv) : Option Client :=
  match c with
  | none => none
  | some cli =>
    match connStep e i.2.1 i.1 cli i.2.2 with
    | none => none
    | some (_, c) => c

/-- The client of `cli_alloc`. -/
def cliAlloc : Client := {}

end Hail.Chunkd
