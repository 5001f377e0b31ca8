import Hail.Chunkd.Draining
import Hail.Chunkd.GetPart
import Hail.Chunkd.Parsing

/-!
# The answers of the server

An answer is a header, `mtime` where an object is asked for, and the data that the header announces. On a
connection without TLS each operation queues one answer of its form or closes the connection, as long as
the entries for it can be queued and the blocks of a part read.
-/
namespace Hail.Chunkd

open Library

/-! ## Answers -/

/-- The operations whose answers bring `mtime`. -/
def ChunksrvOps.timed : ChunksrvOps → Bool
  | .get | .getMeta | .getPart => true
  | _ => false

/-- The operations whose answers bring data. -/
def ChunksrvOps.carries : ChunksrvOps → Bool
  | .get | .getPart | .list | .checkStatus => true
  | _ => false

/-- The operations that are answered with a header whatever their outcome is. -/
def ChunksrvOps.Bare (op : ChunksrvOps) : Prop := op.timed = false ∧ op.carries = false

/-- The fields are of their sizes. -/
structure ChunksrvResp.Sized (resp : ChunksrvResp) : Prop where
  magic : resp.magic.length = chdMagicSz
  respCode : resp.respCode < 256
  flags : resp.flags < 256
  nonce : resp.nonce < 2 ^ 32
  dataLen : resp.dataLen < 2 ^ 64
  hash : resp.hash.length = chdCsumSz

structure Reply where
  resp : ChunksrvResp
  mtime : Option Nat
  body : List Octet

def Reply.head (reply : Reply) : Bytes := reply.resp.encode ++ reply.mtime.elim [] (leBytes 8)

def Reply.octets (reply : Reply) : List Octet := reply.head.map .mem ++ reply.body

/-- The form of an answer to a request: nothing but a success brings more than the header. -/
structure Reply.To (creq : ChunksrvReq) (reply : Reply) : Prop where
  sized : reply.resp.Sized
  magic : reply.resp.magic = creq.magic
  nonce : reply.resp.nonce = creq.nonce
  mtime : reply.mtime.isSome = true ↔ reply.resp.respCode = 0 ∧ creq.op.timed = true
  body : reply.body.length =
    if reply.resp.respCode = 0 ∧ creq.op.carries = true then reply.resp.dataLen else 0
  status : creq.op = .checkStatus → reply.resp.respCode = 0 → reply.resp.dataLen = 16

/-- Nothing follows the header. -/
theorem Reply.To.header_only {creq : ChunksrvReq} {reply : Reply} (h : Reply.To creq reply)
    (hno : reply.resp.respCode = 0 → creq.op.Bare) : reply.mtime = none ∧ reply.body = [] := by
  refine ⟨?_, ?_⟩
  · by_contra hsome
    obtain ⟨hzero, htimed⟩ := h.mtime.mp (Option.isSome_iff_ne_none.mpr hsome)
    exact absurd htimed (by simp [(hno hzero).1])
  · have hlen := h.body
    rw [if_neg fun hboth => absurd hboth.2 (by simp [(hno hboth.1).2])] at hlen
    exact List.length_eq_zero_iff.mp hlen

/-- The bytes of an answer, cut where a call cuts them. -/
theorem Reply.bytes_eq {val : Octet → UInt8} (hval : ∀ b, val (.mem b) = b) (reply : Reply) :
    reply.octets.map val =
      reply.resp.encode ++ (reply.mtime.elim [] (leBytes 8) ++ reply.body.map val) := by
  have hmem : ∀ bs : Bytes, (bs.map Octet.mem).map val = bs := by
    intro bs
    rw [List.map_map]
    exact (List.map_congr_left fun b _ => hval b).trans (List.map_id bs)
  rw [Reply.octets, List.map_append, hmem, Reply.head, List.append_assoc]

/-- What is queued for a request: one answer, or nothing, and the client is to be disposed of. -/
inductive ClientTx.Replied (creq : ChunksrvReq) (tx tx' : ClientTx) : Prop
  | told (reply : Reply) (hto : reply.To creq) (hkept : tx'.Kept)
      (hq : tx'.queued.flatten = tx.queued.flatten ++ reply.octets)
      (hs : tx'.state = .recycle ∨ tx'.state = .dispose)
  | closed (hkept : tx'.Kept) (hq : tx'.queued = tx.queued) (hs : tx'.state = .dispose)

/-- The state, the object and the flags are of no account. -/
theorem ClientTx.Replied.congr {creq : ChunksrvReq} {tx tx₀ tx' : ClientTx} (h : tx.Replied creq tx')
    (hq : tx₀.queued = tx.queued) : tx₀.Replied creq tx' := by
  cases h with
  | told reply hto hkept hq' hs => exact .told reply hto hkept (by rw [hq, hq']) hs
  | closed hkept hq' hs => exact .closed hkept (hq'.trans hq.symm) hs

theorem ClientTx.Replied.dispose {creq : ChunksrvReq} {tx : ClientTx} (h : tx.Sound) :
    tx.Replied creq { tx with state := .dispose } :=
  .closed (.inl (h.setState _)) rfl rfl

section

variable {e : Env} {io : Io} {creq : ChunksrvReq}

theorem respInitReq_sized (h : creq.Sized) : (respInitReq creq).Sized :=
  ⟨h.magic, Nat.zero_lt_succ _, Nat.zero_lt_succ _, h.nonce, h.dataLen, rfl⟩

/-- An answer without `mtime` and data. -/
theorem Reply.to_bare {resp : ChunksrvResp} (hresp : resp.Sized)
    (hmagic : resp.magic = creq.magic) (hnonce : resp.nonce = creq.nonce)
    (hbare : resp.respCode = 0 → creq.op.Bare) :
    Reply.To creq ⟨resp, none, []⟩ where
  sized := hresp
  magic := hmagic
  nonce := hnonce
  mtime := by
    constructor
    · intro hsome
      cases hsome
    · rintro ⟨hzero, htimed⟩
      exact absurd htimed (by simp [(hbare hzero).1])
  body := by
    rw [if_neg]
    · rfl
    · rintro ⟨hzero, hcarries⟩
      exact absurd hcarries (by simp [(hbare hzero).2])
  status := by
    intro hop hzero
    have hcarries := (hbare hzero).2
    rw [hop] at hcarries
    cases hcarries

/-- An answer with data. -/
theorem Reply.to_data {resp : ChunksrvResp} (hresp : resp.Sized) (hmagic : resp.magic = creq.magic)
    (hnonce : resp.nonce = creq.nonce) (hzero : resp.respCode = 0) {body : List Octet}
    (hlen : body.length = resp.dataLen) (htimed : creq.op.timed = false) (hcarries : creq.op.carries = true)
    (hstatus : creq.op = .checkStatus → resp.dataLen = 16) : Reply.To creq ⟨resp, none, body⟩ where
  sized := hresp
  magic := hmagic
  nonce := hnonce
  mtime := by
    constructor
    · intro hsome
      cases hsome
    · rintro ⟨-, ht⟩
      rw [htimed] at ht
      cases ht
  body := by
    rw [if_pos ⟨hzero, hcarries⟩]
    exact hlen
  status hop _ := hstatus hop

/-- An answer that brings an object. -/
theorem Reply.to_object {resp : ChunksrvResp} (hresp : resp.Sized) (hmagic : resp.magic = creq.magic)
    (hnonce : resp.nonce = creq.nonce) (hzero : resp.respCode = 0) {body : List Octet} (mtime : Nat)
    (hlen : body.length = if creq.op.carries = true then resp.dataLen else 0)
    (htimed : creq.op.timed = true) : Reply.To creq ⟨resp, some mtime, body⟩ where
  sized := hresp
  magic := hmagic
  nonce := hnonce
  mtime := iff_of_true rfl ⟨hzero, htimed⟩
  body := by
    rw [hlen]
    by_cases hc : creq.op.carries = true
    · rw [if_pos hc, if_pos ⟨hzero, hc⟩]
    · rw [if_neg hc, if_neg fun h => hc h.2]
  status hop _ := by
    rw [hop] at htimed
    cases htimed

/-- Buffers have been queued behind what was, and are to be written. -/
theorem cliWriteStart_told (wr : List WrRes) (fs : Vol) {tx tx' : ClientTx} (h : tx'.Sound) {reply : Reply}
    (hto : reply.To creq) (hq : tx'.queued.flatten = tx.queued.flatten ++ reply.octets)
    (hs : tx'.state = .recycle ∨ tx'.state = .dispose) :
    tx.Replied creq (cliWriteStart e fs wr tx') := by
  obtain ⟨hkept, hqueued⟩ := cliWriteStart_kept e fs wr h
  refine .told reply hto hkept (by rw [hqueued, hq]) ?_
  rcases (ClientTx.Goes.writeStart e fs wr tx').state with hstate | hstate
  · rw [hstate]
    exact hs
  · exact .inr hstate

theorem cliRespond_told (e : Env) (io : Io) (fs : Vol) {tx : ClientTx} (h : tx.Sound) {resp : ChunksrvResp}
    (hto : Reply.To creq ⟨resp, none, []⟩) (hs : tx.state = .recycle ∨ tx.state = .dispose) :
    tx.Replied creq (cliRespond e io fs false resp.encode tx) := by
  obtain ⟨tx', hpush, hsound, hqueued, hstate, -⟩ := cliWriteq_push (encode_ne_nil resp) h
  unfold cliRespond
  rw [hpush]
  refine cliWriteStart_told io.wr fs hsound hto ?_ (by rwa [hstate])
  simp [hqueued, Reply.octets, Reply.head]

theorem cliErr_told (e : Env) (hcreq : creq.Sized) (fs : Vol) (hmem : io.sys.fails .errWriteq = false)
    (code : ChunkErrcode) (recycleOk : Bool) {tx : ClientTx} (h : tx.Sound)
    (hbare : code = .success → creq.op.Bare) :
    tx.Replied creq (cliErr e io fs creq code recycleOk tx) := by
  unfold cliErr
  split
  · exact .dispose h
  · rw [hmem]
    have hsized := respInitReq_sized hcreq
    have hcode : code.toNat < 256 := by cases code <;> decide
    have hzero : code.toNat = 0 → code = .success := by cases code <;> simp [ChunkErrcode.toNat]
    have hto : Reply.To creq ⟨{ respInitReq creq with respCode := code.toNat }, none, []⟩ :=
      Reply.to_bare ⟨hsized.magic, hcode, hsized.flags, hsized.nonce, hsized.dataLen, hsized.hash⟩ rfl rfl
        fun hz => hbare (hzero hz)
    have htold := cliRespond_told e io fs
      (h.setState (if recycleOk then .recycle else .dispose)) hto (by cases recycleOk <;> simp)
    exact htold.congr rfl

/-- Entries for the answers can be queued. -/
structure Io.Queues (io : Io) : Prop where
  writeq : io.sys.fails .writeq = false
  errWriteq : io.sys.fails .errWriteq = false
  bodyWriteq : io.sys.fails .bodyWriteq = false
  bodyEntry : io.sys.fails .bodyEntry = false
  list : ∀ i, io.listFails i = false

theorem objectDel_told (hio : io.Queues) (srv : Srv) {cli : Client} (hreq : cli.req.Sized)
    (h : cli.toClientTx.Sound) (hs : cli.state = .recycle) (hop : cli.req.op = .del) :
    cli.toClientTx.Replied cli.req (objectDel e io srv cli).2.toClientTx := by
  have hbare : cli.req.op.timed = false ∧ cli.req.op.carries = false := by
    rw [hop]
    exact ⟨rfl, rfl⟩
  unfold objectDel
  split
  · exact .dispose h
  · split
    · exact cliErr_told e hreq _ hio.errWriteq _ _ h fun _ => hbare
    · rw [hio.writeq]
      exact cliRespond_told e io _ h (Reply.to_bare (respInitReq_sized hreq) rfl rfl fun _ => hbare) (.inl hs)

theorem cliWriteList_push (hio : io.Queues) {content : List Bytes} (hne : [] ∉ content) (i : Nat)
    {tx : ClientTx} (h : tx.Sound) :
    ∃ tx', cliWriteList io i content tx = (tx', true) ∧ tx'.Sound ∧
      tx'.queued.flatten = tx.queued.flatten ++ content.flatten.map .mem ∧ tx'.state = tx.state := by
  induction content generalizing i tx with
  | nil => exact ⟨tx, rfl, h, by simp, rfl⟩
  | cons s content ih =>
    obtain ⟨hs, hcontent⟩ := not_or.mp (List.mem_cons.not.mp hne)
    obtain ⟨tx₁, hpush, hsound, hqueued, hstate, -⟩ := cliWriteq_push (Ne.symm hs) h
    obtain ⟨tx₂, hlist, hsound', hqueued', hstate'⟩ := ih hcontent (i + 1) hsound
    refine ⟨tx₂, ?_, hsound', ?_, hstate'.trans hstate⟩
    · rw [cliWriteList, hio.list, hpush]
      exact hlist
    · rw [hqueued', hqueued]
      simp

theorem cliRespXml_told (hio : io.Queues) (hcreq : creq.Sized) (fs : Vol) {content : List Bytes}
    (hne : [] ∉ content) (hsmall : (content.map List.length).sum < 2 ^ 64) (hop : creq.op = .list)
    {tx : ClientTx} (h : tx.Sound) : tx.Replied creq (cliRespXml e io fs creq content tx) := by
  unfold cliRespXml
  dsimp only
  split
  · exact .dispose h
  · set resp := { respInitReq creq with dataLen := (content.map List.length).sum } with hresp
    obtain ⟨tx₁, hpush, hsound, hqueued, hstate, -⟩ :=
      cliWriteq_push (encode_ne_nil resp) (h.setState .recycle)
    obtain ⟨tx₂, hlist, hsound', hqueued', hstate'⟩ := cliWriteList_push hio hne 0 hsound
    rw [hio.writeq, hpush]
    dsimp only
    rw [hlist]
    dsimp only
    have hinit := respInitReq_sized hcreq
    have hsized : resp.Sized :=
      ⟨hinit.magic, hinit.respCode, hinit.flags, hinit.nonce, hsmall, hinit.hash⟩
    have hlen : (content.flatten.map Octet.mem).length = resp.dataLen := by
      rw [List.length_map, List.length_flatten]
    have hto : Reply.To creq ⟨resp, none, content.flatten.map .mem⟩ :=
      Reply.to_data hsized rfl rfl rfl hlen (by rw [hop]; rfl) (by rw [hop]; rfl)
        (by rw [hop]; intro hno; cases hno)
    refine cliWriteStart_told io.wr fs hsound' hto ?_ (.inl (hstate'.trans hstate))
    rw [hqueued', hqueued]
    simp [Reply.octets, Reply.head]

theorem cliRespBin_told (hio : io.Queues) (hcreq : creq.Sized) (fs : Vol) {data : Bytes}
    (hdata : data.length = 16) (hop : creq.op = .checkStatus) {tx : ClientTx} (h : tx.Sound) :
    tx.Replied creq (cliRespBin e io fs creq data tx) := by
  have hne : data ≠ [] := by
    rintro rfl
    cases hdata
  unfold cliRespBin
  dsimp only
  split
  · exact .dispose h
  · set resp := { respInitReq creq with dataLen := data.length } with hresp
    obtain ⟨tx₁, hpush, hsound, hqueued, hstate, -⟩ :=
      cliWriteq_push (encode_ne_nil resp) (h.setState .recycle)
    obtain ⟨tx₂, hbody, hsound', hqueued', hstate', -⟩ := cliWriteq_push hne hsound
    rw [hio.writeq, hpush]
    dsimp only
    rw [hio.bodyWriteq, hbody]
    dsimp only
    have hinit := respInitReq_sized hcreq
    have hsmall : data.length < 2 ^ 64 := by
      rw [hdata]
      decide
    have hsized : resp.Sized :=
      ⟨hinit.magic, hinit.respCode, hinit.flags, hinit.nonce, hsmall, hinit.hash⟩
    have hto : Reply.To creq ⟨resp, none, data.map .mem⟩ :=
      Reply.to_data hsized rfl rfl rfl (List.length_map _) (by rw [hop]; rfl) (by rw [hop]; rfl)
        fun _ => hdata
    refine cliWriteStart_told io.wr fs hsound' hto ?_ (.inl (hstate'.trans hstate))
    rw [hqueued', hqueued]
    simp [Reply.octets, Reply.head]

/-- What is known of an object that has been opened. -/
theorem fsObjOpen_fields {y : Sys} {fs : Vol} {tableId : Nat} {user key : Bytes} {obj : FsObj}
    (h : fsObjOpen e y fs tableId user key = .ok obj) :
    obj.size < 2 ^ 64 ∧ obj.hash.length = chdCsumSz ∧ obj.readable = true := by
  obtain ⟨fn, ino, hdr, csums, hkey, -, -, rfl, -, -, -, -, -, hrest, -, rfl⟩ := fsObjOpen_ok h
  set data := (fs.file ino).data with hdata
  have hlong : beFsObjHdrSz < data.length := by
    have hpos : key ≠ [] := by
      rintro rfl
      simp [keyValid] at hkey
    have hlen := congrArg List.length hrest
    rw [List.length_take, List.length_drop, List.length_append] at hlen
    have := List.length_pos_iff.mpr hpos
    omega
  have hhdr : (data.take beFsObjHdrSz).length = 180 := by
    rw [List.length_take, min_eq_left hlong.le]
    rfl
  have hfield : ofLe (((data.take beFsObjHdrSz).drop 8).take 8) < 256 ^ 8 :=
    (ofLe_lt _).trans_le (Nat.pow_le_pow_right (by decide) (List.length_take_le _ _))
  refine ⟨hfield, ?_, rfl⟩
  · change ((List.take beFsObjHdrSz data).drop 32 |>.take chdCsumSz).length = chdCsumSz
    rw [List.length_take, List.length_drop, hhdr]
    rfl

theorem fsObjOpenHdr_code {y : Sys} {hdr : BeFsObjHdr} {user key : Bytes} {ino : Nat} {file : File}
    {err : ChunkErrcode} (h : fsObjOpenHdr y hdr user key ino file = .error err) : err ≠ .success := by
  unfold fsObjOpenHdr at h
  dsimp only at h
  split_ifs at h <;> cases h <;> decide

/-- A failure to open an object is not reported as a success. -/
theorem fsObjOpen_code {y : Sys} {fs : Vol} {tableId : Nat} {user key : Bytes} {err : ChunkErrcode}
    (h : fsObjOpen e y fs tableId user key = .error err) : err ≠ .success := by
  unfold fsObjOpen at h
  split at h
  · cases h
    decide
  · split at h
    · cases h
      decide
    · split at h
      · cases h
        decide
      · split at h
        · cases h
          decide
        · split at h
          · cases h
            decide
          · split at h
            · cases h
              decide
            · split at h
              · cases h
                decide
              · exact fsObjOpenHdr_code h

theorem objectGet_told (hio : io.Queues) (fs : Vol) {cli : Client} (hreq : cli.req.Sized)
    (h : cli.toClientTx.Sound) (hq : cli.writeQ = []) (hs : cli.state = .recycle) {wantBody : Bool}
    (hop : cli.req.op = if wantBody then .get else .getMeta) :
    cli.toClientTx.Replied cli.req (objectGet e io fs cli wantBody) := by
  have hf : cli.toClientTx.filed = false := by simp [ClientTx.filed, hq]
  have hobj : ∀ obj len, ({ cli.toClientTx with inObj := obj, inLen := len } : ClientTx).Sound :=
    fun obj len => h.setObj hf obj len
  have htimed : cli.req.op.timed = true := by
    rw [hop]
    cases wantBody <;> rfl
  have hcarries : cli.req.op.carries = wantBody := by
    rw [hop]
    cases wantBody <;> rfl
  unfold objectGet
  dsimp only
  split
  · exact .dispose h
  · split
    · next err herr =>
      have hne : err ≠ .success := fsObjOpen_code herr
      have herr := cliErr_told e hreq fs hio.errWriteq err true (hobj none cli.inLen)
        fun hok => absurd hok hne
      exact herr.congr rfl
    · next obj hopen =>
      obtain ⟨hsize, hhash, hread⟩ := fsObjOpen_fields hopen
      set resp := { respInitReq cli.req with dataLen := obj.size, hash := obj.hash } with hresp
      have hinit := respInitReq_sized hreq
      have hsized : resp.Sized :=
        ⟨hinit.magic, hinit.respCode, hinit.flags, hinit.nonce, hsize, hhash⟩
      obtain ⟨tx₁, hpush, hsound, hqueued, hstate, hfiled, hin, hlen⟩ :=
        cliWriteq_push (encodeGet_ne_nil resp obj.mtime) (hobj (some obj) obj.size)
      rw [hio.writeq, hpush]
      dsimp only
      have hfiled₁ : tx₁.filed = false := hfiled.trans hf
      split
      · next hnone =>
        have hlen₀ : ([] : List Octet).length =
            if cli.req.op.carries = true then resp.dataLen else 0 := by
          rw [hcarries]
          rcases hnone with hno | hzero
          · rw [if_neg (by simpa using hno)]
            rfl
          · have hsize₀ : obj.size = 0 := hlen.symm.trans hzero
            simp [hresp, hsize₀]
        refine cliWriteStart_told io.wr fs (cliInEnd_sound hsound hfiled₁)
          (Reply.to_object hsized rfl rfl rfl obj.mtime hlen₀ htimed) ?_ (.inl (hstate.trans hs))
        change tx₁.queued.flatten = _
        simp [hqueued, Reply.octets, Reply.head, ChunksrvResp.encodeGet]
      · next hbody =>
        obtain ⟨hwant, hpos⟩ := not_or.mp hbody
        have hplain : useSendfile tx₁ = true := by simp [useSendfile, hsound.plain]
        obtain ⟨tx₂, hsend, hsound', hqueued', hstate'⟩ :=
          cliWrSendfile_push hsound hfiled₁ hpos hin hread
        have hlen₁ : (obj.range tx₁.inLen).length =
            if cli.req.op.carries = true then resp.dataLen else 0 := by
          rw [FsObj.range_length hread, hcarries, if_pos (by simpa using hwant), hlen]
        unfold objectReadBytes
        rw [if_pos hplain]
        dsimp only
        rw [if_pos hplain, hio.bodyEntry, hsend]
        refine cliWriteStart_told io.wr fs hsound'
          (Reply.to_object hsized rfl rfl rfl obj.mtime hlen₁ htimed) ?_
          (.inl (hstate'.trans (hstate.trans hs)))
        rw [hqueued', hqueued]
        simp [Reply.octets, Reply.head, ChunksrvResp.encodeGet]

/-- The blocks of a part cannot be read, or there is no memory for them. What is queued then is an answer
of success without `mtime` and data. -/
def PartUnread (e : Env) (srv : Srv) (io : Io) (cli : Client) : Prop :=
  cli.req.op = .getPart ∧ ∃ obj, fsObjOpen e io.sys srv.fs cli.tableId cli.user cli.keyBytes = .ok obj ∧
    (partRead e io srv.fs obj (partRange obj.size (ofLe cli.creqGetpart.data) cli.req.dataLen)).1 =
      .error .success

/-- The blocks that are read contain the part. -/
theorem partRead_body {fs : Vol} {obj obj' : FsObj} {offset dataLen : Nat} {mem : Bytes} {r : PartRange}
    (hr : partRange obj.size offset dataLen = r) (hpos : r.length ≠ 0)
    (h : partRead e io fs obj r = (.ok mem, obj')) :
    ((mem.drop (offset - r.alignedOfs)).take r.length).length = r.length := by
  have hlt : offset < obj.size := by
    have hne : ¬ obj.size ≤ offset := by
      rw [← @partLen_eq_zero obj.size offset dataLen, ← partRange_length, hr]
      exact hpos
    omega
  obtain ⟨-, hofs, -, hend, -⟩ := partRange_blocks hr hlt
  have hlen : mem.length = r.alignedLen := by
    unfold partRead at h
    rw [if_neg hpos] at h
    split at h
    · cases h
    · split at h
      · cases h
      · split at h
        · split at h
          · next hall =>
            cases h
            exact hall
          · cases h
        · cases h
  rw [List.length_take, List.length_drop, hlen]
  omega

theorem objectGetPart_told (hio : io.Queues) (srv : Srv) {cli : Client} (hreq : cli.req.Sized)
    (h : cli.toClientTx.Sound) (hq : cli.writeQ = []) (hs : cli.state = .recycle)
    (hop : cli.req.op = .getPart) (hread : ¬ PartUnread e srv io cli) {tx : ClientTx}
    (hpart : objectGetPart e io srv.fs cli = some tx) : cli.toClientTx.Replied cli.req tx := by
  have hf : cli.toClientTx.filed = false := by simp [ClientTx.filed, hq]
  have hobj : ∀ obj len, ({ cli.toClientTx with inObj := obj, inLen := len } : ClientTx).Sound :=
    fun obj len => h.setObj hf obj len
  have herr : ∀ (code : ChunkErrcode) (obj : Option FsObj) (len : Nat), code ≠ .success →
      cli.toClientTx.Replied cli.req
        (cliErr e io srv.fs cli.req code true { cli.toClientTx with inObj := obj, inLen := len }) := by
    intro code obj len hne
    have htold := cliErr_told e hreq srv.fs hio.errWriteq code true (hobj obj len)
      fun hok => absurd hok hne
    exact htold.congr rfl
  unfold objectGetPart at hpart
  dsimp only at hpart
  split at hpart
  · obtain rfl := Option.some.inj hpart
    exact .dispose h
  · split at hpart
    · next err hfail =>
      obtain rfl := Option.some.inj hpart
      exact herr err none cli.inLen (fsObjOpen_code hfail)
    · next obj hopen =>
      obtain ⟨hsize, -, -⟩ := fsObjOpen_fields hopen
      split at hpart
      · obtain rfl := Option.some.inj hpart
        exact herr .invalidSeek (some obj) obj.size (by decide)
      · set offset := ofLe cli.creqGetpart.data with hoffset
        generalize hr : partRange obj.size offset cli.req.dataLen = r at hpart
        split at hpart
        · next err obj' hfail =>
          obtain rfl := Option.some.inj hpart
          refine herr err (some obj') obj.size ?_
          rintro rfl
          exact hread ⟨hop, obj, hopen, by rw [← hoffset, hr, hfail]⟩
        · next mem obj' hmem =>
          split at hpart
          · cases hpart
          · set resp : ChunksrvResp :=
              { respInitReq cli.req with
                flags := if r.length = obj'.size - offset then chfGetPartLast else 0
                dataLen := r.length
                hash := e.sha1 mem } with hresp
            have hinit := respInitReq_sized hreq
            have hsmall : r.length < 2 ^ 64 := by
              have hle := partRange_length obj.size offset cli.req.dataLen
              rw [hr] at hle
              unfold partLen at hle
              omega
            have hflags : resp.flags < 256 := by
              change (if r.length = obj'.size - offset then chfGetPartLast else 0) < 256
              split <;> decide
            have hsized : resp.Sized :=
              ⟨hinit.magic, hinit.respCode, hflags, hinit.nonce, hsmall, e.sha1_length mem⟩
            have htimed : cli.req.op.timed = true := by
              rw [hop]
              rfl
            have hcarries : cli.req.op.carries = true := by
              rw [hop]
              rfl
            obtain ⟨tx₁, hpush, hsound, hqueued, hstate, hfiled, -⟩ :=
              cliWriteq_push (encodeGet_ne_nil resp obj'.mtime) (hobj (some obj') obj.size)
            have hfiled₁ : tx₁.filed = false := hfiled.trans hf
            rw [hio.writeq, hpush] at hpart
            dsimp only at hpart
            split at hpart
            · next hzero =>
              obtain rfl := Option.some.inj hpart
              have hlen₀ : ([] : List Octet).length =
                  if cli.req.op.carries = true then resp.dataLen else 0 := by
                rw [if_pos hcarries]
                exact hzero.symm
              refine cliWriteStart_told io.wr srv.fs (cliInEnd_sound hsound hfiled₁)
                (Reply.to_object hsized rfl rfl rfl obj'.mtime hlen₀ htimed) ?_ (.inl (hstate.trans hs))
              change tx₁.queued.flatten = _
              simp [hqueued, Reply.octets, Reply.head, ChunksrvResp.encodeGet]
            · next hpos =>
              have hlen := partRead_body hr hpos hmem
              set body := (mem.drop (offset - r.alignedOfs)).take r.length with hbody
              have hne : body ≠ [] := by
                rintro hnil
                rw [hnil] at hlen
                exact hpos hlen.symm
              obtain ⟨tx₂, hpush₂, hsound₂, hqueued₂, hstate₂, hfiled₂, -⟩ := cliWriteq_push hne hsound
              rw [hio.bodyWriteq, hpush₂] at hpart
              obtain rfl := Option.some.inj hpart
              have hlen₁ : (body.map Octet.mem).length =
                  if cli.req.op.carries = true then resp.dataLen else 0 := by
                rw [if_pos hcarries, List.length_map]
                exact hlen
              refine cliWriteStart_told io.wr srv.fs (cliInEnd_sound hsound₂ (hfiled₂.trans hfiled₁))
                (Reply.to_object hsized rfl rfl rfl obj'.mtime hlen₁ htimed) ?_
                (.inl (hstate₂.trans (hstate.trans hs)))
              change tx₂.queued.flatten = _
              rw [hqueued₂, hqueued]
              simp [Reply.octets, Reply.head, ChunksrvResp.encodeGet]

theorem cliErr_bare (hio : io.Queues) (fs : Vol) {cli : Client} (hreq : cli.req.Sized)
    (hop : cli.req.op.Bare) (code : ChunkErrcode) (recycleOk : Bool) {tx : ClientTx} (h : tx.Sound) :
    tx.Replied cli.req (cliErr e io fs cli.req code recycleOk tx) :=
  cliErr_told e hreq fs hio.errWriteq code recycleOk h fun _ => hop

theorem volumeOpen_told (hio : io.Queues) (srv : Srv) {cli : Client} (hreq : cli.req.Sized)
    (hop : cli.req.op.Bare) (h : cli.toClientTx.Sound) :
    cli.toClientTx.Replied cli.req (volumeOpen e io srv cli).2.toClientTx := by
  unfold volumeOpen
  dsimp only
  split <;> exact cliErr_bare hio srv.fs hreq hop _ _ h

theorem loginUser_told (hio : io.Queues) (fs : Vol) {cli : Client} (hreq : cli.req.Sized)
    (hop : cli.req.op.Bare) (h : cli.toClientTx.Sound) :
    cli.toClientTx.Replied cli.req (loginUser e io fs cli).toClientTx := by
  have hend : ∀ code, cli.toClientTx.Replied cli.req
      (cliErr e io fs cli.req code false { cli.toClientTx with state := .dispose }) := fun code =>
    (cliErr_bare hio fs hreq hop code false (h.setState .dispose)).congr rfl
  unfold loginUser
  dsimp only
  split
  · exact hend _
  · split
    · exact hend _
    · exact cliErr_bare hio fs hreq hop _ _ h

theorem chkStart_told (hio : io.Queues) (srv : Srv) {cli : Client} (hreq : cli.req.Sized)
    (hop : cli.req.op.Bare) (h : cli.toClientTx.Sound) :
    cli.toClientTx.Replied cli.req (chkStart e io srv cli).2 := by
  have herr : ∀ code, cli.toClientTx.Replied cli.req
      (cliErr e io srv.fs cli.req code true cli.toClientTx) := fun code =>
    cliErr_bare hio srv.fs hreq hop code true h
  unfold chkStart
  dsimp only
  split
  · exact herr _
  · split
    · split <;> exact herr _
    · exact herr _
    · exact herr _
    · exact herr _

/-- What is made of a request: it is answered, or its client waits for a body or for a copy. -/
inductive Client.Serving (cli cli' : Client) : Prop
  | told (h : cli.toClientTx.Replied cli.req cli'.toClientTx) (hw : cli'.worker = none)
  | busy (h : cli'.toClientTx.Sound) (hq : cli'.writeQ = []) (hqueued : cli'.queued = cli.queued)
      (hop : cli.req.op.Bare) (hs : cli'.state = .dataIn ∧ cli'.worker = none ∨
        cli'.state = .recycle ∧ cli'.worker.isSome = true)

theorem objectPutEnd_told (hio : io.Queues) {srv srv' : Srv} {cli cli' : Client} (hreq : cli.req.Sized)
    (hop : cli.req.op.Bare) (h : cli.toClientTx.Sound)
    (hend : objectPutEnd e io srv cli = some (srv', cli')) :
    cli.toClientTx.Replied cli.req cli'.toClientTx ∧ cli'.worker = cli.worker := by
  unfold objectPutEnd at hend
  split at hend
  · obtain ⟨-, rfl⟩ := Prod.mk.inj (Option.some.inj hend)
    exact ⟨.dispose h, rfl⟩
  · split at hend
    · next bo user _ _ =>
      obtain ⟨⟨ok, fs, bo'⟩, hc⟩ : ∃ r, fsObjWriteCommit e io.sys srv.fs bo user (e.sha1 cli.outHash)
        (has cli.req.flags chfSync) = r := ⟨_, rfl⟩
      simp only [hc] at hend
      split at hend
      · obtain ⟨-, rfl⟩ := Prod.mk.inj (Option.some.inj hend)
        have hinit := respInitReq_sized hreq
        have hsized : ({ respInitReq cli.req with hash := e.sha1 cli.outHash } : ChunksrvResp).Sized :=
          ⟨hinit.magic, hinit.respCode, hinit.flags, hinit.nonce, hinit.dataLen, e.sha1_length _⟩
        have hto : Reply.To cli.req ⟨{ respInitReq cli.req with hash := e.sha1 cli.outHash }, none, []⟩ :=
          Reply.to_bare hsized rfl rfl fun _ => hop
        have htold := cliRespond_told e io
          (cliOutEnd { srv with fs } { cli.toClientOut with outBo := some bo' }).1.fs
          (h.setState .recycle) hto (.inl rfl)
        refine ⟨?_, rfl⟩
        dsimp only
        rw [hio.writeq]
        exact htold.congr rfl
      · obtain ⟨-, rfl⟩ := Prod.mk.inj (Option.some.inj hend)
        exact ⟨(cliErr_bare hio _ hreq hop _ _ (h.setState .recycle)).congr rfl, rfl⟩
    · cases hend

theorem objectPut_serving (hio : io.Queues) {srv srv' : Srv} {cli cli' : Client} (hreq : cli.req.Sized)
    (hop : cli.req.op.Bare) (h : cli.toClientTx.Sound) (hq : cli.writeQ = []) (hw : cli.worker = none)
    (hput : objectPut e io srv cli = some (srv', cli')) : cli.Serving cli' := by
  unfold objectPut at hput
  dsimp only at hput
  split at hput
  · cases hput
  · split at hput
    · obtain ⟨-, rfl⟩ := Prod.mk.inj (Option.some.inj hput)
      exact .told (cliErr_bare hio _ hreq hop _ _ h) hw
    · split at hput
      · obtain ⟨htold, hworker⟩ := objectPutEnd_told hio (by exact hreq) (by exact hop) (by exact h) hput
        exact .told htold (hworker.trans hw)
      · obtain ⟨-, rfl⟩ := Prod.mk.inj (Option.some.inj hput)
        exact .busy (h.setState .dataIn) hq rfl hop (.inl ⟨rfl, hw⟩)

theorem nil_notMem_volumeXml (res : List VolumeEntry) : [] ∉ volumeXml e res := by
  have hentry : ∀ ve, entryXml e ve ≠ [] := by
    intro ve hnil
    unfold entryXml at hnil
    simp only [List.append_eq_nil_iff] at hnil
    exact absurd hnil.2 (by decide +kernel)
  unfold volumeXml
  simp only [List.cons_append, List.mem_cons, List.mem_append, List.mem_map, List.not_mem_nil, or_false]
  rintro (hnil | ⟨ve, -, hnil⟩ | hnil)
  · exact absurd hnil (by decide +kernel)
  · exact hentry ve hnil
  · exact absurd hnil (by decide +kernel)

/-- What a connection depends on for its answers: entries for them can be queued, there is no TLS, the
blocks of a part can be read, and a listing has a length. -/
structure Answerable (e : Env) (srv : Srv) (io : Io) (cli : Client) : Prop where
  plain : cli.req.op ≠ .startTls
  part : ¬ PartUnread e srv io cli
  list : cli.req.op = .list →
    ((volumeXml e (fsListObjs io.list srv.fs cli.tableId cli.user)).map List.length).sum < 2 ^ 64

theorem execOp_serving {srv srv' : Srv} {cli cli' : Client} (hok : Answerable e srv io cli)
    (hio : io.Queues) (hreq : cli.req.Sized) (h : cli.toClientTx.Sound) (hq : cli.writeQ = []) (hs : cli.state = .recycle)
    (hw : cli.worker = none) (hexec : execOp e io srv cli = some (srv', cli')) : cli.Serving cli' := by
  have hbare : ∀ {op : ChunksrvOps}, cli.req.op = op → op.Bare → cli.req.op.Bare := by
    rintro op rfl hop
    exact hop
  unfold execOp at hexec
  dsimp only at hexec
  split at hexec
  · next hop =>
    obtain ⟨-, rfl⟩ := Prod.mk.inj (Option.some.inj hexec)
    obtain ⟨user, tx, heq, -⟩ := @loginUser_tx e io srv.fs cli
    have htold := loginUser_told (e := e) hio srv.fs hreq (hbare hop ⟨rfl, rfl⟩) h
    refine .told htold ?_
    rw [heq]
    exact hw
  · next hop =>
    obtain ⟨-, rfl⟩ := Prod.mk.inj (Option.some.inj hexec)
    exact .told (cliErr_bare hio _ hreq (hbare hop ⟨rfl, rfl⟩) _ _ h) hw
  · next hop =>
    obtain ⟨-, rfl⟩ := Prod.mk.inj (Option.some.inj hexec)
    exact .told (objectGet_told hio srv.fs hreq h hq hs hop) hw
  · next hop =>
    obtain ⟨-, rfl⟩ := Prod.mk.inj (Option.some.inj hexec)
    exact .told (objectGet_told hio srv.fs hreq h hq hs hop) hw
  · next hop =>
    obtain ⟨tx, hpart, heq⟩ := Option.map_eq_some_iff.mp hexec
    obtain ⟨-, rfl⟩ := Prod.mk.inj heq
    exact .told (objectGetPart_told hio srv hreq h hq hs hop hok.part hpart) hw
  · next hop => exact objectPut_serving hio hreq (hbare hop ⟨rfl, rfl⟩) h hq hw hexec
  · next hop =>
    obtain ⟨-, rfl⟩ := Prod.ext_iff.mp (Option.some.inj hexec)
    obtain ⟨tx, heq, -⟩ := @objectDel_tx e io srv cli hs
    refine .told (objectDel_told hio srv hreq h hs hop) ?_
    rw [heq]
    exact hw
  · next hop =>
    obtain ⟨-, rfl⟩ := Prod.mk.inj (Option.some.inj hexec)
    have hcp : cli.req.op.Bare := hbare hop ⟨rfl, rfl⟩
    unfold objectCp
    split
    · exact .told (cliErr_bare hio _ hreq hcp _ _ h) hw
    · exact .busy h hq rfl hcp (.inr ⟨hs, rfl⟩)
  · next hop =>
    obtain ⟨-, rfl⟩ := Prod.mk.inj (Option.some.inj hexec)
    have htold : cli.toClientTx.Replied cli.req (volumeList e io srv.fs cli) := by
      unfold volumeList
      exact cliRespXml_told hio hreq srv.fs (nil_notMem_volumeXml _) (hok.list hop) hop h
    exact .told htold hw
  · next hop =>
    obtain ⟨-, rfl⟩ := Prod.ext_iff.mp (Option.some.inj hexec)
    obtain ⟨table, tableLen, tableId, tx, heq, -⟩ := @volumeOpen_tx e io srv cli
    refine .told (volumeOpen_told hio srv hreq (hbare hop ⟨rfl, rfl⟩) h) ?_
    rw [heq]
    exact hw
  · next hop =>
    obtain ⟨-, rfl⟩ := Prod.mk.inj (Option.some.inj hexec)
    exact .told (chkStart_told hio srv hreq (hbare hop ⟨rfl, rfl⟩) h) hw
  · next hop =>
    obtain ⟨-, rfl⟩ := Prod.mk.inj (Option.some.inj hexec)
    have hlen : (chkStatusBuf srv).length = 16 := by
      simp only [chkStatusBuf, List.length_append, leBytes_length, List.length_replicate]
    exact .told (cliRespBin_told hio hreq srv.fs hlen hop h) hw
  · next hop => exact absurd hop hok.plain
  · next n hop =>
    obtain ⟨-, rfl⟩ := Prod.mk.inj (Option.some.inj hexec)
    exact .told (cliErr_bare hio _ hreq (hbare hop ⟨rfl, rfl⟩) _ _ h) hw

theorem cliEvtExecReq_serving {srv srv' : Srv} {cli cli' : Client} (hok : Answerable e srv io cli)
    (hio : io.Queues) (hreq : cli.req.Sized) (h : cli.toClientTx.Sound) (hq : cli.writeQ = []) (hw : cli.worker = none)
    (hexec : cliEvtExecReq e io srv cli = some (srv', cli')) : cli.Serving cli' := by
  have hrefuse : ∀ (code : ChunkErrcode) (s : ClientState), code ≠ .success →
      cli.toClientTx.Replied cli.req
        (cliErr e io srv.fs cli.req code false { cli.toClientTx with state := s }) := by
    intro code s hne
    have htold := cliErr_told e hreq srv.fs hio.errWriteq code false (h.setState s)
      fun hok => absurd hok hne
    exact htold.congr rfl
  unfold cliEvtExecReq at hexec
  dsimp only at hexec
  split at hexec
  · obtain ⟨-, rfl⟩ := Prod.mk.inj (Option.some.inj hexec)
    exact .told (hrefuse _ cli.state (by decide)) hw
  · split at hexec
    · obtain ⟨-, rfl⟩ := Prod.mk.inj (Option.some.inj hexec)
      exact .told (hrefuse _ cli.state (by decide)) hw
    · split at hexec
      · obtain ⟨-, rfl⟩ := Prod.mk.inj (Option.some.inj hexec)
        exact .told (.dispose h) hw
      · split at hexec
        · obtain ⟨-, rfl⟩ := Prod.mk.inj (Option.some.inj hexec)
          exact .told (hrefuse _ .recycle (by decide)) hw
        · split at hexec
          · obtain ⟨-, rfl⟩ := Prod.mk.inj (Option.some.inj hexec)
            exact .told (hrefuse _ .recycle (by decide)) hw
          · obtain ⟨⟨srv₁, cli₁⟩, hop, heq⟩ := Option.map_eq_some_iff.mp hexec
            obtain ⟨-, rfl⟩ := Prod.mk.inj heq
            have hok' : Answerable e srv io
                { cli with executed := cli.executed ++ [cli.request], state := .recycle } :=
              ⟨hok.plain, hok.part, hok.list⟩
            have hserving := execOp_serving hok' hio hreq (h.setState .recycle) hq rfl hw hop
            cases hserving with
            | told htold hw => exact .told (htold.congr rfl) hw
            | busy h hq hqueued hop hs => exact .busy h hq hqueued hop hs

/-- A call for the body of an upload. -/
theorem cliEvtDataIn_serving {srv srv' : Srv} {cli cli' : Client} (hio : io.Queues)
    (hreq : cli.req.Sized) (hop : cli.req.op.Bare) (h : cli.toClientTx.Sound) (hq : cli.writeQ = [])
    (hs : cli.state = .dataIn) (hw : cli.worker = none)
    (hin : cliEvtDataIn e io srv cli = some (srv', cli')) : cli.Serving cli' := by
  have herr : ∀ (fs : Vol) (code : ChunkErrcode), cli.toClientTx.Replied cli.req
      (cliErr e io fs cli.req code false cli.toClientTx) := fun fs code =>
    cliErr_bare hio fs hreq hop code false h
  unfold cliEvtDataIn at hin
  dsimp only at hin
  split at hin
  · obtain ⟨htold, hworker⟩ := objectPutEnd_told hio hreq hop h hin
    exact .told htold (hworker.trans hw)
  · split at hin
    · unfold dataInWrite at hin
      dsimp only at hin
      split at hin
      · cases hin
      · split at hin
        · cases hin
        · obtain ⟨-, rfl⟩ := Prod.mk.inj (Option.some.inj hin)
          exact .told (herr _ _) hw
        · split at hin
          · obtain ⟨htold, hworker⟩ :=
              objectPutEnd_told hio (by exact hreq) (by exact hop) (by exact h) hin
            exact .told htold (hworker.trans hw)
          · obtain ⟨-, rfl⟩ := Prod.mk.inj (Option.some.inj hin)
            exact .busy h hq rfl hop (.inl ⟨hs, hw⟩)
    · obtain ⟨-, rfl⟩ := Prod.mk.inj (Option.some.inj hin)
      exact .told (.dispose h) hw
    · obtain ⟨-, rfl⟩ := Prod.mk.inj (Option.some.inj hin)
      exact .busy h hq rfl hop (.inl ⟨hs, hw⟩)
    · rw [h.plain, if_neg Bool.false_ne_true] at hin
      obtain ⟨-, rfl⟩ := Prod.mk.inj (Option.some.inj hin)
      exact .busy h hq rfl hop (.inl ⟨hs, hw⟩)
    · rw [h.plain, if_neg Bool.false_ne_true] at hin
      obtain ⟨-, rfl⟩ := Prod.mk.inj (Option.some.inj hin)
      exact .told (herr _ _) hw

end

end Hail.Chunkd
