import Hail.Cld.Cldb
import Hail.Cld.Pkt
import Hail.Cldc.Tcp

/-!
# Sessions of the client library

The session of `cldc.c`: requests are numbered, signed and sent at once, and kept on `out_msg` until
they are answered. The timer of the session sends what has not been acknowledged again, as it is,
until the session expires.
-/
namespace Hail.Cldc

open Library Cld

def enomem : Nat := 12
def einval : Nat := 22
def epipe : Nat := 32

def cldcMsgExpire : Nat := 5 * 60
def cldcMsgScan : Nat := 60
def cldcMsgRemember : Nat := 25
def cldcSessExpire : Nat := 2 * 60

/-- `CE_SESS_FAILED` -/
def ceSessFailed : Nat := 0x10

/-- `struct cldc_fh`; `id` stands for its address. -/
structure CldcFh where
  id : Nat
  fh : Nat
  valid : Bool
  deriving DecidableEq, Repr

/-- The callback of a message, with the handle in `cb_private`. -/
inductive MsgCb where
  | newSess | endSess | generic | get
  | open (id : Nat)
  | close (id : Nat)
  deriving DecidableEq, Repr

structure CldcPktInfo where
  data : Bytes
  retries : Nat
  deriving DecidableEq, Repr

/-- `struct cldc_msg`; `num` counts the messages of the session. `appCb` is what the callback in
`copts` returns, if the application has given one. A packet that was acknowledged is `none`. -/
structure CldcMsg where
  num : Nat
  xid : Nat
  op : CldMsgOp
  cb : MsgCb
  appCb : Option Int
  done : Bool
  expireTime : Nat
  pktInfo : List (Option CldcPktInfo)
  deriving DecidableEq, Repr

/-- A packet given to `pkt_send`, with the number of its message, unless it is an acknowledgement.
`again` marks what the timer sends. -/
structure Tx where
  num : Option Nat
  again : Bool
  data : Bytes
  deriving DecidableEq, Repr

/-- `struct cldc_session`; `msgBuf` holds the `msg_buf_len` bytes of the message so far. `msgs` counts
the messages made and `rnd` the calls of `rand`; `tx`, `calls` and `events` are the history of the
packets sent, of the callbacks made and of the events reported. -/
structure CldcSession where
  sid : Sid
  sid_lt : sid < 2 ^ 64
  user : User
  secretKey : Bytes
  key_ne_nil : secretKey ≠ []
  addr : Bytes
  cfh : List CldcFh
  outMsg : List CldcMsg
  msgScanTime : Nat
  expireTime : Nat
  expired : Bool
  nextSeqidIn : Nat
  nextSeqidInTr : Nat
  nextSeqidOut : Nat
  confirmed : Bool
  msgBufOp : CldMsgOp
  msgBuf : Bytes
  freed : Bool
  msgs : Nat
  rnd : Nat
  tx : List Tx
  calls : List (Nat × Nat)
  events : List (Option Nat × Nat)

/-! ## Sending -/

def CldcSession.sendPkts (sess : CldcSession) (pkts : List Tx) : CldcSession :=
  { sess with tx := sess.tx ++ pkts }

/-- `cldc_new_msg` and `sess_send`. The `i`-th write succeeds if `ok i`; the first that does not ends
the loop, and the message is not kept. With a user and a key no packet fails to be built. -/
def CldcSession.request (e : Env) (now : Nat) (ok : Nat → Bool) (op : CldMsgOp) (body : Bytes)
    (cb : MsgCb) (appCb : Option Int) (sess : CldcSession) : Int × CldcSession :=
  let xid := cldRand64 e sess.rnd
  match sessSendPkts e sess.sid sess.user.name sess.secretKey sess.nextSeqidOut xid op body with
  | none => (-enomem, { sess with rnd := sess.rnd + 2 })
  | some pkts =>
    let data := pkts.map fun p => p.1.data
    let sent := (List.range data.length).findIdx fun i => !ok i
    let msg : CldcMsg :=
      { num := sess.msgs, xid, op, cb, appCb, done := false, expireTime := now + cldcMsgExpire
        pktInfo := data.map fun d => some ⟨d, 0⟩ }
    let sess' := { sess with rnd := sess.rnd + 2, msgs := sess.msgs + 1 }.sendPkts
      ((data.take sent).map (⟨some msg.num, false, ·⟩))
    if sent < data.length then
      (-eio, { sess' with nextSeqidOut := (sess.nextSeqidOut + sent + 1) % 2 ^ 64 })
    else
      (0, { sess' with
        nextSeqidOut := (sess.nextSeqidOut + data.length) % 2 ^ 64
        outMsg := msg :: sess.outMsg })

/-- `cldc_new_sess`, `rnd` calls of `rand` having been made. -/
def cldcNewSess (e : Env) (now : Nat) (ok : Nat → Bool) (appCb : Option Int) (addr : Bytes)
    (user : User) (secretKey : Bytes) (hkey : secretKey ≠ []) (rnd : Nat) : Int × CldcSession :=
  CldcSession.request e now ok .newSess [] .newSess appCb
    { sid := cldRand64 e rnd, sid_lt := cldRand64_lt e rnd, user, secretKey, key_ne_nil := hkey, addr
      cfh := [], outMsg := [], msgScanTime := 0, expireTime := now + cldcSessExpire
      expired := false, nextSeqidIn := 0, nextSeqidInTr := 0, nextSeqidOut := cldRand64 e (rnd + 2)
      confirmed := false, msgBufOp := .nop, msgBuf := [], freed := false
      msgs := 0, rnd := rnd + 4, tx := [], calls := [], events := [] }

/-! ## Requests -/

/-- The calls of an application, on handles by their `id`. -/
inductive Call where
  | endSess | nop
  | del (pathname : Bytes)
  | open (pathname : Bytes) (mode events : Nat)
  | close (id : Nat)
  | lock (id flags : Nat) (wait : Bool)
  | unlock (id : Nat)
  | put (id : Nat) (data : Bytes)
  | get (id : Nat) (metadataOnly : Bool)
  deriving DecidableEq, Repr

def slash : UInt8 := 0x2f

/-- The checks of a pathname that `cldc_del` and `cldc_open` make, and its encoding. -/
def putPathname (pathname : Bytes) : Option Bytes :=
  if (cstr pathname).head? ≠ some slash then none
  else if cldInodeNameMax < (cstr pathname).length then none
  else Xdr.putVar cldInodeNameMax (cstr pathname)

/-- The handle, if it is valid. -/
def CldcSession.handle (sess : CldcSession) (id : Nat) : Option CldcFh :=
  sess.cfh.find? fun fh => fh.id = id && fh.valid

def CldcSession.setFh (sess : CldcSession) (id : Nat) (f : CldcFh → CldcFh) : CldcSession :=
  { sess with cfh := sess.cfh.map fun fh => if fh.id = id then f fh else fh }

section

variable (e : Env) (now : Nat) (ok : Nat → Bool) (appCb : Option Int)

/-- A request on a valid handle: `cldc_lock`, `cldc_unlock` and `cldc_get`. -/
def CldcSession.onHandle (sess : CldcSession) (id : Nat) (op : CldMsgOp) (body : Nat → Bytes)
    (cb : MsgCb) : Int × CldcSession :=
  match sess.handle id with
  | none => (-einval, sess)
  | some fh => sess.request e now ok op (body fh.fh) cb appCb

/-- `cldc_end_sess`, `cldc_nop` and so on. `cldc_put` does not look at what `sess_send` returns, and
`cldc_get` not at what it is asked for. -/
def CldcSession.call (sess : CldcSession) : Call → Int × CldcSession
  | .endSess =>
    if !sess.confirmed then (-einval, sess) else sess.request e now ok .endSess [] .endSess appCb
  | .nop =>
    if !sess.confirmed then (-einval, sess) else sess.request e now ok .nop [] .generic appCb
  | .del pathname =>
    if !sess.confirmed then (-einval, sess)
    else
      match putPathname pathname with
      | none => (-einval, sess)
      | some name => sess.request e now ok .del name .generic appCb
  | .open pathname mode events =>
    if !sess.confirmed then (-einval, sess)
    else
      match putPathname pathname with
      | none => (-einval, sess)
      | some name =>
        let fh : CldcFh := ⟨sess.msgs, 0, false⟩
        { sess with cfh := sess.cfh ++ [fh] }.request e now ok .open
          (Xdr.putInt mode ++ Xdr.putInt events ++ name) (.open sess.msgs) appCb
  | .close id =>
    match sess.handle id with
    | none => (-einval, sess)
    | some fh =>
      let closed := sess.setFh id fun fh => { fh with valid := false }
      if sess.expired then (-epipe, closed)
      else closed.request e now ok .close (Xdr.putHyper fh.fh) (.close id) appCb
  | .lock id flags wait =>
    sess.onHandle e now ok appCb id (if wait then .lock else .trylock)
      (fun fh => Xdr.putHyper fh ++ Xdr.putInt flags) .generic
  | .unlock id => sess.onHandle e now ok appCb id .unlock Xdr.putHyper .generic
  | .put id data =>
    if data = [] ∨ cldMaxPayloadSz < data.length then (-einval, sess)
    else
      match sess.handle id with
      | none => (-einval, sess)
      | some fh =>
        let body := Xdr.putHyper fh.fh ++ (Xdr.putVar cldMaxPayloadSz data).getD []
        (0, (sess.request e now ok .put body .generic appCb).2)
  | .get id _ => sess.onHandle e now ok appCb id .get Xdr.putHyper .get

end

/-! ## Callbacks -/

/-- `xdr_cld_msg_generic_resp` -/
def getGeneric : Xdr.Decoder (Nat × Nat) := do
  let code ← Xdr.getInt
  let xidIn ← Xdr.getHyper
  return (code, xidIn)

theorem getGeneric_putGeneric (code : CleErrCodes) (xid : Nat) (rest : Bytes) :
    getGeneric (putGeneric code xid ++ rest) = some ((code.toNat, xid % 2 ^ 64), rest) := by
  have hcode : code.toNat % 2 ^ 32 = code.toNat := by cases code <;> rfl
  have h1 := Xdr.getInt_putInt code.toNat (Xdr.putHyper xid ++ rest)
  have h2 := Xdr.getHyper_putHyper xid rest
  rw [hcode] at h1
  simp only [getGeneric, putGeneric, bind, StateT.bind, List.append_assoc, h1]
  simp [h2, Xdr.pure_apply]

/-- `xdr_cld_msg_open_resp` -/
def getOpenResp : Xdr.Decoder Nat := do
  let _ ← getGeneric
  Xdr.getHyper

/-- `xdr_cld_msg_get_resp` -/
def getGetResp : Xdr.Decoder CldMsgGetResp := do
  let _ ← getGeneric
  let inum ← Xdr.getHyper
  let vers ← Xdr.getHyper
  let timeCreate ← Xdr.getHyper
  let timeModify ← Xdr.getHyper
  let flags ← Xdr.getInt
  let inodeName ← getString cldInodeNameMax
  let data ← Xdr.getVar cldMaxPayloadSz
  return { inum, vers, timeCreate, timeModify, flags, inodeName, data }

/-- The callback of a message is made with a response and its code: `new_sess_cb`, `end_sess_cb` and
so on. Without a callback of the application, the end of a session frees it, and the end of a
handle takes it off the list. -/
def CldcSession.runCb (sess : CldcSession) (msg : CldcMsg) (resp : Bytes) (code : Nat) :
    Int × CldcSession :=
  let sess := { sess with calls := sess.calls ++ [(msg.num, code)] }
  match msg.cb with
  | .newSess => (msg.appCb.getD 0, if code = 0 then { sess with confirmed := true } else sess)
  | .endSess => (msg.appCb.getD 0, if msg.appCb = none then { sess with freed := true } else sess)
  | .generic => (msg.appCb.getD 0, sess)
  | .open id =>
    if code = 0 then
      match getOpenResp resp with
      | none => (-1009, sess)
      | some (fh, _) => (msg.appCb.getD 0, sess.setFh id fun _ => ⟨id, fh, true⟩)
    else (msg.appCb.getD 0, sess)
  | .close id =>
    (msg.appCb.getD 0,
      if msg.appCb = none then { sess with cfh := sess.cfh.filter (·.id ≠ id) } else sess)
  | .get =>
    if code = 0 ∧ getGetResp resp = none then (-1009, sess) else (msg.appCb.getD 0, sess)

/-! ## The timer -/

/-- `sess_msg_drop` for the messages `msgs`. A callback that frees the session frees the messages that
are left, too. -/
def CldcSession.drop (sess : CldcSession) : List CldcMsg → CldcSession
  | [] => { sess with outMsg := [] }
  | msg :: msgs =>
    let sess := if msg.done then sess else (sess.runCb msg [] CleErrCodes.timeout.toNat).2
    if sess.freed then { sess with outMsg := [] } else sess.drop msgs

/-- `sess_expire` -/
def CldcSession.expire (sess : CldcSession) : CldcSession :=
  let sess := { sess with expired := true }.drop sess.outMsg
  { sess with events := sess.events ++ [(none, ceSessFailed)] }

/-- The packets of a message that have not been acknowledged. -/
def CldcMsg.unacked (msg : CldcMsg) : List Bytes := msg.pktInfo.filterMap fun pi => pi.map (·.data)

/-- What the timer sends of a message. -/
def CldcMsg.resend (msg : CldcMsg) : List Tx :=
  if msg.done then [] else msg.unacked.map (⟨some msg.num, true, ·⟩)

def CldcMsg.retry (msg : CldcMsg) : CldcMsg :=
  if msg.done then msg
  else
    let again (p : CldcPktInfo) : CldcPktInfo := { p with retries := p.retries + 1 }
    { msg with pktInfo := msg.pktInfo.map (Option.map again) }

/-- `sess_timer` at `now`. The `i`-th write succeeds if `ok i`, which is not looked at. -/
def CldcSession.timer (now : Nat) (ok : Nat → Bool) (sess : CldcSession) : CldcSession :=
  if sess.expireTime < now then sess.expire
  else
    let pkts := (sess.outMsg.flatMap CldcMsg.resend).zipIdx.filter fun p => ok p.2
    { sess with outMsg := sess.outMsg.map CldcMsg.retry }.sendPkts (pkts.map Prod.fst)

end Hail.Cldc
