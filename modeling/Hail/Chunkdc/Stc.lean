import Hail.Chunkd.Framing
import Hail.Library.Socket

/-!
# The client library of the storage

`chunkdc.c`: each function sends one request over a socket that blocks, waits for the answer and reads
what the header of the answer announces. Without TLS; the numbers that `rand` gives are a parameter.
-/
namespace Hail.Chunkdc

open Library Chunkd

/-- The fields of `struct st_client` from which requests are made; both are C strings. -/
structure StClient where
  user : Bytes
  key : Bytes

/-- `key_valid`. -/
def keyValid (key : Bytes) : Bool := 1 ≤ key.length && key.length ≤ chdKeySz

/-- What `chreq_sign` puts in the field of the signature. -/
def sigField (sig : Bytes) : Bytes := sig ++ List.replicate (chdSigSz - sig.length) 0

/-- The header of a request without its signature, as `req_init` and `req_set_key` make it. -/
def reqInit (op : ChunksrvOps) (flags nonce dataLen : Nat) (key : Bytes) : ChunksrvReq :=
  ⟨chunkdMagic, op, flags, key.length % 2 ^ 16, nonce, dataLen, List.replicate chdSigSz 0⟩

/-- `chreq_sign` of the request in a buffer. -/
def chreqSign (e : Env) (secretKey : Bytes) (req : ChunksrvReq) (buf : Bytes) : Bytes :=
  e.b64hmac (cstr secretKey) (buf.take (reqLen req))

/-- A signed request, its key and what follows the key in the buffer. -/
def signedReq (e : Env) (stc : StClient) (req : ChunksrvReq) (key more : Bytes) : Bytes :=
  { req with sig := sigField (chreqSign e stc.key req (req.encode ++ key ++ more)) }.encode ++ key ++
    more

/-! ## Answers -/

/-- `sizeof(struct chunksrv_resp)`. -/
def chunksrvRespSz : Nat := 48

/-- The fields of the record in a buffer. -/
def respOfBytes (buf : Bytes) : ChunksrvResp where
  magic := buf.take chdMagicSz
  respCode := ofLe ((buf.drop 8).take 1)
  flags := ofLe ((buf.drop 9).take 1)
  nonce := ofLe ((buf.drop 12).take 4)
  dataLen := ofLe ((buf.drop 16).take 8)
  hash := (buf.drop 24).take chdCsumSz

def respValid (resp : ChunksrvResp) : Bool := resp.magic = chunkdMagic

def respRead (s : Socket) : Option ChunksrvResp × Socket :=
  match s.readExact chunksrvRespSz with
  | (none, s) => (none, s)
  | (some buf, s) => (if respValid (respOfBytes buf) then some (respOfBytes buf) else none, s)

/-- What all functions begin with: a request is written and the header of its answer read. The result is
the header, if its code is that of success. -/
def stcCall (bs : Bytes) (s : Socket) : Option ChunksrvResp × Socket :=
  match s.writeAll bs with
  | (false, s) => (none, s)
  | (true, s) =>
    match respRead s with
    | (none, s) => (none, s)
    | (some resp, s) => (if resp.respCode = 0 then some resp else none, s)

/-- The size of `netbuf`. -/
def netbufSz : Nat := 4096

/-- The loop that reads the data of an answer. Its rounds are as many as there are pieces of it. -/
def readContent : Nat → Nat → Socket → Option Bytes × Socket
  | 0, contentLen, s => (if contentLen = 0 then some [] else none, s)
  | fuel + 1, contentLen, s =>
    if contentLen = 0 then (some [], s)
    else
      match s.readExact (min contentLen netbufSz) with
      | (none, s) => (none, s)
      | (some bs, s) =>
        match readContent fuel (contentLen - bs.length) s with
        | (none, s) => (none, s)
        | (some rest, s) => (some (bs ++ rest), s)

/-- How it went. -/
def went (r : Option ChunksrvResp × Socket) : Bool × Socket := (r.1.isSome, r.2)

/-- The rest of the header of an answer that brings an object: `mtime`, of which nothing is made. The
result is the length of the data. -/
def readRest : Option ChunksrvResp × Socket → Option Nat × Socket
  | (none, s) => (none, s)
  | (some resp, s) =>
    match s.readExact 8 with
    | (none, s) => (none, s)
    | (some _, s) => (some resp.dataLen, s)

/-- The data announced, read to its end. -/
def readAll : Option Nat × Socket → Option Bytes × Socket
  | (none, s) => (none, s)
  | (some contentLen, s) => readContent contentLen contentLen s

/-- `sizeof(struct chunk_check_status)`. -/
def chunkCheckStatusSz : Nat := 16

/-- The data of an answer to CHECK_STATUS. -/
def readStatus : Option ChunksrvResp × Socket → Option Bytes × Socket
  | (none, s) => (none, s)
  | (some resp, s) =>
    -- what has been announced is left unread
    if resp.dataLen ≠ chunkCheckStatusSz then (none, s) else s.readExact resp.dataLen

/-! ## Requests -/

section

variable (e : Env) (stc : StClient) (nonce : Nat)

/-- The user's name goes with the zero that ends it. -/
def stcLogin (s : Socket) : Bool × Socket :=
  let key := stc.user ++ [0]
  let req := reqInit .login 0 nonce 0 key
  went (stcCall ((signedReq e stc req key []).take (reqLen req)) s)

/-- The functions that send a key and are told no more than how it went. -/
def stcSimple (op : ChunksrvOps) (flags : Nat) (key : Bytes) (s : Socket) : Bool × Socket :=
  let req := reqInit op flags nonce 0 key
  went (stcCall ((signedReq e stc req key []).take (reqLen req)) s)

def stcTableOpen (key : Bytes) (flags : Nat) (s : Socket) : Bool × Socket :=
  if !keyValid key then (false, s)
  else stcSimple e stc nonce .tableOpen (flags &&& (chfTblCreat ||| chfTblExcl)) key s

def stcDel (key : Bytes) (s : Socket) : Bool × Socket :=
  if !keyValid key then (false, s) else stcSimple e stc nonce .del 0 key s

def stcPing (s : Socket) : Bool × Socket := stcSimple e stc nonce .nop 0 [] s

def stcCheckStart (s : Socket) : Bool × Socket := stcSimple e stc nonce .checkStart 0 [] s

/-- The two requests for data of an object, up to its length. -/
def stcGetHdr (op : ChunksrvOps) (maxLen : Nat) (key more : Bytes) (s : Socket) :
    Option Nat × Socket :=
  if !keyValid key then (none, s)
  else
    let req := reqInit op 0 nonce maxLen key
    readRest (stcCall ((signedReq e stc req key more).take (reqLen req)) s)

def stcGetReq (key : Bytes) (s : Socket) : Option Nat × Socket :=
  stcGetHdr e stc nonce .get 0 key [] s

def stcGetPartReq (key : Bytes) (offset maxLen : Nat) (s : Socket) : Option Nat × Socket :=
  stcGetHdr e stc nonce .getPart maxLen key (leBytes 8 offset) s

/-- `stc_get`: what `write_cb` is given. -/
def stcGet (key : Bytes) (s : Socket) : Option Bytes × Socket :=
  readAll (stcGetReq e stc nonce key s)

/-- `stc_get_part`. -/
def stcGetPart (key : Bytes) (offset maxLen : Nat) (s : Socket) : Option Bytes × Socket :=
  readAll (stcGetPartReq e stc nonce key offset maxLen s)

/-- The loop of `stc_put`, which writes what `read_cb` gives in pieces. -/
def writeContent (readCb : Nat → Bytes) : Nat → Nat → Nat → Socket → Bool × Socket
  | 0, _, contentLen, s => (contentLen = 0, s)
  | fuel + 1, i, contentLen, s =>
    if contentLen = 0 then (true, s)
    else
      let bs := (readCb i).take (min contentLen netbufSz)
      if bs = [] then (false, s)
      else
        match s.writeAll bs with
        | (false, s) => (false, s)
        | (true, s) => writeContent readCb fuel (i + 1) (contentLen - bs.length) s

def stcPut (key : Bytes) (readCb : Nat → Bytes) (len flags : Nat) (s : Socket) : Bool × Socket :=
  if !keyValid key then (false, s)
  else
    let req := reqInit .put (flags &&& chfSync) nonce len key
    match s.writeAll ((signedReq e stc req key []).take (reqLen req)) with
    | (false, s) => (false, s)
    | (true, s) =>
      match writeContent readCb len 0 len s with
      | (false, s) => (false, s)
      | (true, s) =>
        let (resp, s) := respRead s
        (resp.any fun resp => resp.respCode = 0, s)

/-- `read_inline_cb`: the next piece of the data. -/
def readInlineCb (data : Bytes) (i : Nat) : Bytes := (data.drop (i * netbufSz)).take netbufSz

def stcPutInline (key data : Bytes) (flags : Nat) (s : Socket) : Bool × Socket :=
  stcPut e stc nonce key (readInlineCb data) data.length flags s

/-- `stc_keys`, up to the text of the listing. -/
def stcKeys (s : Socket) : Option Bytes × Socket :=
  let req := reqInit .list 0 nonce 0 []
  let (resp, s) := stcCall ((signedReq e stc req [] []).take (reqLen req)) s
  readAll (resp.map (·.dataLen), s)

def stcCheckStatus (s : Socket) : Option Bytes × Socket :=
  let req := reqInit .checkStatus 0 nonce 0 []
  readStatus (stcCall ((signedReq e stc req [] []).take (reqLen req)) s)

/-- No key is checked here, and all of the buffer is written. -/
def stcCp (destKey srcKey : Bytes) (s : Socket) : Bool × Socket :=
  let req := reqInit .cp 0 nonce srcKey.length destKey
  went (stcCall (signedReq e stc req destKey srcKey) s)

end

end Hail.Chunkdc
