import Hail.Cld.Commits
import Hail.Cld.Reply
import Hail.Cldc.Session
import Hail.Library.Buffer

/-!
# Reading back what was written

`msg_get` answers with the record of an inode and its data, and `get_end_cb` decodes the answer into
two buffers of the session. Both have the size that the protocol allows, but a string takes one byte
more than it is long.
-/
namespace Hail.Cldc

open Library Cld

/-- What `get_end_cb` leaves of a response: its fields, and the buffers its name and its data are
stored in. -/
structure GetEnd where
  resp : CldMsgGetResp
  inodeNameTemp : Buffer
  payload : Buffer

/-- `xdr_string` into a buffer: the bytes are stored with a zero behind them. -/
def xdrString (bound : Nat) (buf : Buffer) : Xdr.Decoder (Bytes × Buffer) := do
  let bs ← Xdr.getVar bound
  return (cstr bs, buf.write 0 (bs ++ [0]))

/-- `xdr_bytes` into a buffer. -/
def xdrBytes (bound : Nat) (buf : Buffer) : Xdr.Decoder (Bytes × Buffer) := do
  let bs ← Xdr.getVar bound
  return (bs, buf.write 0 bs)

/-- `xdr_cld_msg_get_resp` as `get_end_cb` calls it, over the buffers `inode_name_temp` and `payload`
of the session. -/
def getEndCb (inodeNameTemp payload : Buffer) : Xdr.Decoder GetEnd := do
  let _ ← getGeneric
  let inum ← Xdr.getHyper
  let vers ← Xdr.getHyper
  let timeCreate ← Xdr.getHyper
  let timeModify ← Xdr.getHyper
  let flags ← Xdr.getInt
  let (inodeName, inodeNameTemp) ← xdrString cldInodeNameMax inodeNameTemp
  let (data, payload) ← xdrBytes cldMaxPayloadSz payload
  return { resp := { inum, vers, timeCreate, timeModify, flags, inodeName, data }, inodeNameTemp, payload }

/-- Every byte was stored in the buffers. -/
def GetEnd.Inside (got : GetEnd) : Prop :=
  got.inodeNameTemp.overrun = false ∧ got.payload.overrun = false

/-- What a client is to be told of an inode that holds `data`: the numbers as the 64 and 32 bits of
their fields hold them. -/
def storedResp (ino : RawInode) (data : Bytes) : CldMsgGetResp where
  inum := ino.inum % 2 ^ 64
  vers := ino.version % 2 ^ 64
  timeCreate := ino.timeCreate % 2 ^ 64
  timeModify := ino.timeModify % 2 ^ 64
  flags := ino.flags % 2 ^ 32
  inodeName := ino.name
  data := data

theorem xdrString_putVar {bound : Nat} {bs out : Bytes} (buf : Buffer) (hb : bound < 2 ^ 32)
    (hnul : ∀ b ∈ bs, b ≠ 0) (h : Xdr.putVar bound bs = some out) (rest : Bytes) :
    xdrString bound buf (out ++ rest) = some ((bs, buf.write 0 (bs ++ [0])), rest) := by
  have hget := Xdr.getVar_putVar hb h rest
  simp only [xdrString, bind, StateT.bind, hget, Option.bind_some, cstr_eq_self hnul]
  rfl

theorem xdrBytes_putVar {bound : Nat} {bs out : Bytes} (buf : Buffer) (hb : bound < 2 ^ 32)
    (h : Xdr.putVar bound bs = some out) (rest : Bytes) :
    xdrBytes bound buf (out ++ rest) = some ((bs, buf.write 0 bs), rest) := by
  have hget := Xdr.getVar_putVar hb h rest
  simp only [xdrBytes, bind, StateT.bind, hget, Option.bind_some]
  rfl

/-- The answer to `msg_get` as `get_end_cb` decodes it. -/
theorem getEndCb_encode {code : CleErrCodes} {xid : Nat} {ino : RawInode} {data body : Bytes}
    (hnul : ∀ b ∈ ino.name, b ≠ 0)
    (h : (ServerMsg.getResp code xid ⟨ino.inum, ino.version, ino.timeCreate, ino.timeModify, ino.flags,
      ino.name, data⟩).encode = some body) (inodeNameTemp payload : Buffer) :
    getEndCb inodeNameTemp payload body = some
      (⟨storedResp ino data, inodeNameTemp.write 0 (ino.name ++ [0]), payload.write 0 data⟩, []) := by
  simp only [ServerMsg.encode, Option.bind_eq_bind, Option.bind_eq_some_iff, Option.pure_def,
    Option.some.injEq] at h
  obtain ⟨name, hname, bytes, hbytes, rfl⟩ := h
  have h0 := getGeneric_putGeneric code xid
  have h1 := xdrString_putVar inodeNameTemp (by decide) hnul hname
  have h2 := xdrBytes_putVar payload (by decide) hbytes []
  rw [List.append_nil] at h2
  simp only [getEndCb, bind, StateT.bind, List.append_assoc, h0, Xdr.getHyper_putHyper,
    Xdr.getInt_putInt, Option.bind_some, h1, h2]
  rfl

/-! ## What is read after a write -/

/-- The buffers of a session. -/
structure GetBuffers where
  inodeNameTemp : Bytes
  payload : Bytes
  name_length : inodeNameTemp.length = cldInodeNameMax
  payload_length : payload.length = cldMaxPayloadSz

/-- `get_end_cb` for the message `m`, if it can be encoded and the client can decode it. -/
def GetBuffers.getEnd (bufs : GetBuffers) (m : ServerMsg) : Option GetEnd := do
  let body ← m.encode
  let (got, _) ← getEndCb ⟨bufs.inodeNameTemp, false⟩ ⟨bufs.payload, false⟩ body
  return got

/-- A `CMO_GET` on a handle of an inode with a valid name and data of at most the size of a payload:
it is answered with what is stored, and the answer is decoded to that. The name needs to be shorter
than the longest one for the buffers to hold what is decoded. -/
theorem msgGet_reads (e : Env) {s : Server} {sid : Sid} {fh : Nat} {sess : Session} {x : RawHandle}
    {ino : RawInode} {d : DataRec} (hg : s.sessions.get sid = some sess) (hop : sess.msgOp = .get)
    (hx : s.db.handles.get (sid, fh) = some x) (hmode : has x.mode comRead = true)
    (hino : s.db.inodes.get x.inum = some ino) (hdata : s.db.data.get x.inum = some d)
    (hsize : d.data.length = ino.size) (hname : ValidName ino.name)
    (hlen : d.data.length ≤ cldMaxPayloadSz) (bufs : GetBuffers) :
    ∃ m got, (msgGet e .none sid fh s).sent = s.sent ++ [⟨sid, .get, m⟩] ∧
      bufs.getEnd m = some got ∧ got.resp = storedResp ino d.data ∧
      (got.Inside ↔ ino.name.length < cldInodeNameMax) := by
  obtain ⟨n, hn, -⟩ := hname
  have hnul : ∀ b ∈ ino.name, b ≠ 0 := hn ▸ n.noNul
  have hshort : ino.name.length ≤ cldInodeNameMax := hn ▸ n.length_le
  set resp : CldMsgGetResp := ⟨ino.inum, ino.version, ino.timeCreate, ino.timeModify, ino.flags,
    ino.name, d.data⟩ with hresp
  have hget : (msgGetTxn .none sess fh s).1 = .ok resp := by
    refine msgGetTxn_ok.mpr ⟨x, ino, d.data, ?_, hmode, ?_, .present hop ?_ hsize, ?_⟩
    · simp [cldbHandleGet, get_sid hg, hx]
    · simp [cldbInodeGet, hino]
    · simp [cldbDataGet, hdata]
    · rw [hresp, cstr_eq_self hnul]
  have henc := getResp_encode .ok sess.msgXid resp
  rw [if_pos ⟨hshort, hlen⟩] at henc
  obtain ⟨body, hbody, hle⟩ := henc
  have hsent : (msgGet e .none sid fh s).sent =
      s.sent ++ [⟨sid, .get, .getResp .ok sess.msgXid resp⟩] := by
    simp only [msgGet, hg, hget, Faults.none_apply, Bool.false_eq_true, if_false]
    exact sessSendmsg_sent hg hbody hle
  have hdec := getEndCb_encode hnul hbody ⟨bufs.inodeNameTemp, false⟩ ⟨bufs.payload, false⟩
  refine ⟨_, ⟨storedResp ino d.data, .write ⟨bufs.inodeNameTemp, false⟩ 0 (ino.name ++ [0]),
    .write ⟨bufs.payload, false⟩ 0 d.data⟩, hsent, ?_, rfl, ?_⟩
  · simp [GetBuffers.getEnd, hbody, hdec]
  · simp [GetEnd.Inside, Buffer.write, bufs.name_length, bufs.payload_length, hlen]

/-- What a committed `CMO_PUT` leaves stored. -/
theorem step_put {e : Env} {s : Server} {op : Op} {sid : Sid} {m : CldMsgPut} {h : RawHandle}
    (hput : op.commits e s = some (sid, .put m)) (hh : s.db.handles.get (sid, m.fh) = some h) :
    ∃ ino, (s.step e op).db.inodes.get h.inum = some ino ∧ ino.size = m.data.length ∧
      (s.step e op).db.data.get h.inum = some ⟨h.inum, m.data⟩ := by
  rcases step_commits e s op with ⟨sid', req, fh, hc, heff⟩ | ⟨hc, -, -⟩
  · cases hc.symm.trans hput
    generalize (s.step e op).db = db' at heff ⊢
    cases heff with
    | @put m h' ino handle write file inode =>
      cases handle.symm.trans hh
      have hk : ino.inum = h.inum := (Table.mem_get.mp inode).2
      refine ⟨{ ino with size := m.data.length }.touch s.currentTime, ?_, rfl, Table.get_put_self⟩
      exact hk ▸ Table.get_put_self
  · cases hc.symm.trans hput

/-- Data that was committed and has not changed since is read back, by every session with a handle
for reading, together with the record of its inode. It stays in the buffers of the client if and
only if the name of the inode is shorter than the longest one. -/
theorem run_put_get (e : Env) (now : Nat) (before after : List Life) {s u v : Server} {op : Op}
    {sid : Sid} {m : CldMsgPut} {h : RawHandle}
    (hs : s = run (Server.live e) (Server.init now) before)
    (hput : op.commits e s = some (sid, .put m)) (hh : s.db.handles.get (sid, m.fh) = some h)
    (hu : u = run (Server.live e) (s.step e op) after)
    (hino : u.db.inodes.get h.inum = (s.step e op).db.inodes.get h.inum)
    (hdata : u.db.data.get h.inum = (s.step e op).db.data.get h.inum)
    (hv : v.db = u.db) {rsid : Sid} {fh : Nat} {sess : Session} {x : RawHandle}
    (hg : v.sessions.get rsid = some sess) (hop : sess.msgOp = .get)
    (hx : v.db.handles.get (rsid, fh) = some x) (hinum : x.inum = h.inum)
    (hmode : has x.mode comRead = true) (bufs : GetBuffers) :
    ∃ ino reply got, u.db.inodes.get h.inum = some ino ∧
      (msgGet e .none rsid fh v).sent = v.sent ++ [⟨rsid, .get, reply⟩] ∧
      bufs.getEnd reply = some got ∧ got.resp = storedResp ino m.data ∧
      (got.Inside ↔ ino.name.length < cldInodeNameMax) := by
  obtain ⟨ino, hstored, hsize, hput'⟩ := step_put hput hh
  have hnamed : Named u.db.inodes := by
    have hlive : u = run (Server.live e) (Server.init now) (before ++ .op op :: after) := by
      rw [run_append, ← hs, hu]
      rfl
    rw [hlive]
    exact run_named e now _
  rw [hstored] at hino
  rw [hput'] at hdata
  have hname : ValidName ino.name := hnamed.valid ino (Table.mem_get.mp hino).1
  obtain ⟨reply, got, hsent, hend, hresp, hin⟩ := msgGet_reads e hg hop hx hmode
    (by rw [hv, hinum]; exact hino) (by rw [hv, hinum]; exact hdata) hsize.symm hname m.length_le bufs
  exact ⟨ino, reply, got, hino, hsent, hend, hresp, hin⟩

/-- The buffers of a session that has read nothing. -/
def GetBuffers.zero : GetBuffers where
  inodeNameTemp := List.replicate cldInodeNameMax 0
  payload := List.replicate cldMaxPayloadSz 0
  name_length := List.length_replicate
  payload_length := List.length_replicate

/-- Session 1 makes an inode with this name. -/
def namedRun (name : Bytes) : List Life :=
  [.op (.newSess 1), .op (.open 1 (comCreate + comRead + comWrite) name)]

/-- The inode is written to, and read by the session that has made it. -/
def writeNote : Op := .put 1 2 [7, 8, 9]

def readNote : Op := .msg 1 .get (Xdr.putHyper 2)

def notedServer (name : Bytes) : Server :=
  (run (Server.live .plain) (Server.init 0) (namedRun name)).step .plain writeNote

theorem run_put_get_note :
    ∃ ino reply got, (notedServer [slash, 0x61]).db.inodes.get 55 = some ino ∧
      (msgGet .plain .none 1 2 (readNote.entry (notedServer [slash, 0x61]))).sent =
        (readNote.entry (notedServer [slash, 0x61])).sent ++ [⟨1, .get, reply⟩] ∧
      GetBuffers.zero.getEnd reply = some got ∧ got.resp = storedResp ino [7, 8, 9] ∧
      (got.Inside ↔ ino.name.length < cldInodeNameMax) := by
  obtain ⟨sess, hg, hop⟩ : ∃ sess,
      (readNote.entry (notedServer [slash, 0x61])).sessions.get 1 = some sess ∧ sess.msgOp = .get := by
    have h : ((readNote.entry (notedServer [slash, 0x61])).sessions.get 1).any
      (fun sess => sess.msgOp = .get) = true := by decide +kernel
    simpa [Option.any_eq_true] using h
  set s := run (Server.live .plain) (Server.init 0) (namedRun [slash, 0x61]) with hs
  have hput : writeNote.commits .plain s = some (1, .put ⟨2, [7, 8, 9], by decide⟩) := by
    decide +kernel
  have hh : s.db.handles.get (1, 2) = some ⟨1, 2, 55, 0x13, 0⟩ := by decide +kernel
  have hu : notedServer [slash, 0x61] = s.step .plain writeNote := by rw [hs, notedServer]
  have hx : (readNote.entry (notedServer [slash, 0x61])).db.handles.get (1, 2) =
      some ⟨1, 2, 55, 0x13, 0⟩ := by
    decide +kernel
  have hmode : has 0x13 comRead = true := by decide
  exact @run_put_get .plain 0 (namedRun [slash, 0x61]) [] s (notedServer [slash, 0x61])
    (readNote.entry (notedServer [slash, 0x61])) writeNote 1 ⟨2, [7, 8, 9], by decide⟩
    ⟨1, 2, 55, 0x13, 0⟩ hs hput hh (by rw [run, hu]) (by rw [hu]) (by rw [hu]) (entry_db _ readNote) 1 2
    sess ⟨1, 2, 55, 0x13, 0⟩ hg hop hx rfl hmode .zero

/-- The longest name. -/
def longestName : Bytes := slash :: List.replicate 255 0x61

/-- Its zero is stored behind the buffer for the name. -/
theorem longestName_overruns :
    ∃ reply got,
      writeNote.commits .plain (run (Server.live .plain) (Server.init 0) (namedRun longestName)) =
        some (1, .put ⟨2, [7, 8, 9], by decide⟩) ∧
      (msgGet .plain .none 1 2 (readNote.entry (notedServer longestName))).sent =
        (readNote.entry (notedServer longestName)).sent ++ [⟨1, .get, reply⟩] ∧
      GetBuffers.zero.getEnd reply = some got ∧ got.resp.inodeName = longestName ∧ ¬ got.Inside := by
  have hput : writeNote.commits .plain
      (run (Server.live .plain) (Server.init 0) (namedRun longestName)) =
        some (1, .put ⟨2, [7, 8, 9], by decide⟩) := by decide +kernel
  obtain ⟨sess, hg, hop⟩ : ∃ sess,
      (readNote.entry (notedServer longestName)).sessions.get 1 = some sess ∧ sess.msgOp = .get := by
    have h : ((readNote.entry (notedServer longestName)).sessions.get 1).any
      (fun sess => sess.msgOp = .get) = true := by decide +kernel
    simpa [Option.any_eq_true] using h
  obtain ⟨ino, hino, hsize, hname⟩ : ∃ ino, (notedServer longestName).db.inodes.get 55 = some ino ∧
      ino.size = 3 ∧ ino.name = longestName := by
    have h : ((notedServer longestName).db.inodes.get 55).any
      (fun ino => ino.size = 3 && ino.name = longestName) = true := by decide +kernel
    simpa [Option.any_eq_true] using h
  have hdata : (notedServer longestName).db.data.get 55 = some ⟨55, [7, 8, 9]⟩ := by decide +kernel
  have hx : (notedServer longestName).db.handles.get (1, 2) = some ⟨1, 2, 55, 0x13, 0⟩ := by
    decide +kernel
  have hvalid : ValidName ino.name := by
    rw [hname]
    exact ⟨⟨longestName, by decide +kernel, by decide +kernel⟩, rfl, by decide +kernel⟩
  rw [← entry_db _ readNote] at hx hino hdata
  obtain ⟨reply, got, hsent, hend, hresp, hin⟩ := msgGet_reads .plain hg hop hx (by decide) hino hdata
    hsize.symm hvalid (by decide) .zero
  refine ⟨reply, got, hput, hsent, hend, by rw [hresp]; exact hname, fun h => ?_⟩
  have hlt := hin.mp h
  rw [hname] at hlt
  exact absurd hlt (by decide +kernel)

end Hail.Cldc
