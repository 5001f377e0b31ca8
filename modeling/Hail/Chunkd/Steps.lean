import Hail.Chunkd.Server

/-!
# What a step of a connection can do

Writing can only end a connection, and executing a request leaves alone what is being read. The state
a request leaves its client in is one of four.
-/
namespace Hail.Chunkd

open Library

/-! ## Writing -/

/-- The client goes on as it was, or is to be disposed of. -/
structure ClientTx.Goes (tx tx' : ClientTx) : Prop where
  state : tx'.state = tx.state ∨ tx'.state = .dispose
  ssl : tx'.ssl = tx.ssl
  readWantWrite : tx'.readWantWrite = tx.readWantWrite
  queued : tx.queued <+: tx'.queued

namespace ClientTx.Goes

variable {tx tx' tx'' : ClientTx}

theorem refl (tx : ClientTx) : tx.Goes tx := ⟨.inl rfl, rfl, rfl, List.prefix_rfl⟩

theorem trans (h : tx.Goes tx') (h' : tx'.Goes tx'') : tx.Goes tx'' where
  state := by
    rcases h'.state with hs | hs
    · rw [hs]
      exact h.state
    · exact .inr hs
  ssl := h'.ssl.trans h.ssl
  readWantWrite := h'.readWantWrite.trans h.readWantWrite
  queued := h.queued.trans h'.queued

theorem of_extends (h : tx.Extends tx') : tx.Goes tx' :=
  ⟨.inl h.state, h.ssl, h.readWantWrite, h.queued⟩

theorem writeErr (tx : ClientTx) : tx.Goes (cliWriteErr tx) := ⟨.inr rfl, rfl, rfl, List.prefix_rfl⟩

/-- Changes of fields that are not spoken of. -/
theorem sent (tx : ClientTx) (inObj : Option FsObj) (inLen : Nat) (out : List Octet)
    (handed : List (Nat × List WriteSrc)) (writeWantRead : Bool) :
    tx.Goes { tx with inObj, inLen, sent := out, handed, writeWantRead } :=
  ⟨.inl rfl, rfl, rfl, List.prefix_rfl⟩

theorem writeOnce (e : Env) (fs : Vol) (r : WrRes) (tx : ClientTx) :
    tx.Goes (cliWriteOnce e fs r tx).1 := by
  unfold cliWriteOnce
  split
  · exact refl tx
  · unfold cliSendfile
    split
    · split
      · exact writeErr tx
      · exact (sent tx _ _ _ tx.handed tx.writeWantRead).trans (.of_extends (.wrote e fs _ _ _))
    · exact writeErr tx
  · split
    · unfold cliSslWrite
      split
      · exact (sent tx tx.inObj tx.inLen _ tx.handed tx.writeWantRead).trans
          (.of_extends (.wrote e fs _ _ _))
      · exact sent tx tx.inObj tx.inLen tx.sent tx.handed true
      · exact refl tx
      · exact writeErr tx
    · have hh := sent tx tx.inObj tx.inLen tx.sent
        (tx.handed ++ [(tx.sent.length, (cliWrIov cliMaxWrIov 0 tx.writeQ).map ClientWrite.src)])
        tx.writeWantRead
      unfold cliWritev
      dsimp only
      split
      · refine hh.trans (trans (sent _ tx.inObj tx.inLen _ _ tx.writeWantRead) (.of_extends (.wrote e fs _ _ _)))
      · exact hh
      · exact hh
      · exact hh.trans (writeErr _)

theorem writable (e : Env) (fs : Vol) (wr : List WrRes) (tx : ClientTx) :
    tx.Goes (cliWritable e fs wr tx) := by
  induction wr generalizing tx with
  | nil => exact writeOnce e fs .again tx
  | cons r rs ih =>
    have h := writeOnce e fs r tx
    rw [cliWritable]
    generalize cliWriteOnce e fs r tx = p at h
    obtain ⟨tx', again⟩ := p
    cases again with
    | true => exact h.trans (ih tx')
    | false => exact h

theorem writeStart (e : Env) (fs : Vol) (wr : List WrRes) (tx : ClientTx) :
    tx.Goes (cliWriteStart e fs wr tx) := by
  have h := writable e fs wr tx
  unfold cliWriteStart
  split
  · exact refl tx
  · dsimp only
    split
    · exact h
    · exact ⟨h.state, h.ssl, h.readWantWrite, h.queued⟩

theorem respond (e : Env) (io : Io) (fs : Vol) (fails : Bool) (bs : Bytes) (tx : ClientTx) :
    tx.Goes (cliRespond e io fs fails bs tx) := by
  have h := ClientTx.Extends.writeq tx fails bs .cbFree
  unfold cliRespond
  generalize cliWriteq fails bs .cbFree tx = p at h
  obtain ⟨tx', ok⟩ := p
  cases ok with
  | true => exact (of_extends h).trans (writeStart e fs io.wr tx')
  | false => exact of_extends h

theorem inEnd (tx : ClientTx) : tx.Goes (cliInEnd tx) := of_extends (.inEnd tx)

end ClientTx.Goes

/-- The client is to go on with the next request, or to be disposed of. -/
structure ClientTx.Answered (tx tx' : ClientTx) : Prop where
  state : tx'.state = .recycle ∨ tx'.state = .dispose
  ssl : tx'.ssl = tx.ssl
  readWantWrite : tx'.readWantWrite = tx.readWantWrite
  queued : tx.queued <+: tx'.queued

namespace ClientTx.Answered

variable {tx tx' : ClientTx}

theorem of_goes {s : ClientState} (hs : s = .recycle ∨ s = .dispose)
    (h : { tx with state := s }.Goes tx') : tx.Answered tx' where
  state := by
    rcases h.state with h | h
    · rw [h]
      exact hs
    · exact .inr h
  ssl := h.ssl
  readWantWrite := h.readWantWrite
  queued := h.queued

theorem recycle (hs : tx.state = .recycle) (h : tx.Goes tx') : tx.Answered tx' := by
  refine of_goes (.inl hs) ?_
  exact h

theorem dispose (tx : ClientTx) : tx.Answered { tx with state := .dispose } :=
  ⟨.inr rfl, rfl, rfl, List.prefix_rfl⟩

theorem trans_goes {tx'' : ClientTx} (h : tx.Answered tx') (h' : tx'.Goes tx'') : tx.Answered tx'' where
  state := by
    rcases h'.state with hs | hs
    · rw [hs]
      exact h.state
    · exact .inr hs
  ssl := h'.ssl.trans h.ssl
  readWantWrite := h'.readWantWrite.trans h.readWantWrite
  queued := h.queued.trans h'.queued

theorem goes_trans {tx'' : ClientTx} (h : tx.Goes tx') (h' : tx'.Answered tx'') : tx.Answered tx'' :=
  ⟨h'.state, h'.ssl.trans h.ssl, h'.readWantWrite.trans h.readWantWrite, h.queued.trans h'.queued⟩

theorem err (e : Env) (io : Io) (fs : Vol) (creq : ChunksrvReq) (code : ChunkErrcode)
    (recycleOk : Bool) (tx : ClientTx) : tx.Answered (cliErr e io fs creq code recycleOk tx) := by
  unfold cliErr
  split
  · exact dispose tx
  · refine of_goes (s := if recycleOk then .recycle else .dispose) ?_ (.respond e io fs _ _ _)
    cases recycleOk <;> simp

/-- An error that does not let the client go on. -/
theorem err_dispose (e : Env) (io : Io) (fs : Vol) (creq : ChunksrvReq) (code : ChunkErrcode)
    (tx : ClientTx) : (cliErr e io fs creq code false tx).state = .dispose := by
  unfold cliErr
  split
  · rfl
  · have h := ClientTx.Goes.respond e io fs (io.sys.fails .errWriteq)
      { respInitReq creq with respCode := code.toNat }.encode { tx with state := .dispose }
    exact h.state.elim id id

end ClientTx.Answered

/-! ## Operations -/

theorem writeq_extends {fails : Bool} {bs : Bytes} {cb : CliWriteFunc} {tx : ClientTx}
    {p : ClientTx × Bool} (h : cliWriteq fails bs cb tx = p) : tx.Extends p.1 :=
  h ▸ .writeq tx fails bs cb

section

variable {e : Env} {io : Io}

theorem objectGet_answered (fs : Vol) {cli : Client} (hs : cli.state = .recycle) (wantBody : Bool) :
    cli.toClientTx.Answered (objectGet e io fs cli wantBody) := by
  have hobj : ∀ obj len, cli.toClientTx.Goes { cli.toClientTx with inObj := obj, inLen := len } :=
    fun obj len => .of_extends (.inObj _ obj len)
  unfold objectGet
  dsimp only
  split
  · exact .dispose _
  · split
    · exact .goes_trans (hobj none _) (.err e io fs _ _ _ _)
    · next obj _ =>
      have hq := ClientTx.Extends.writeq { cli.toClientTx with inObj := some obj, inLen := obj.size }
        (io.sys.fails .writeq)
        (ChunksrvResp.encodeGet
          { respInitReq cli.req with dataLen := obj.size, hash := obj.hash } obj.mtime) .cbFree
      generalize cliWriteq (io.sys.fails .writeq) _ .cbFree
        { cli.toClientTx with inObj := some obj, inLen := obj.size } = p at hq ⊢
      obtain ⟨tx, ok⟩ := p
      have htx : cli.toClientTx.Goes tx := (hobj (some obj) obj.size).trans (.of_extends hq)
      cases ok with
      | false => exact .recycle hs htx
      | true =>
        dsimp only
        split
        · exact .recycle hs ((htx.trans (.inEnd tx)).trans (.writeStart e fs io.wr _))
        · have hr := ClientTx.Extends.readBytes e fs
            ⟨io.sys.reads 0, io.sys.fails (if useSendfile tx then .bodyEntry else .bodyWriteq)⟩ tx
          generalize objectReadBytes e fs _ tx = q at hr ⊢
          obtain ⟨tx', ok⟩ := q
          have htx' : cli.toClientTx.Goes tx' := htx.trans (.of_extends hr)
          cases ok with
          | true => exact .recycle hs (htx'.trans (.writeStart e fs io.wr tx'))
          | false => exact .goes_trans (htx'.trans (.inEnd tx')) (.err e io fs _ _ _ _)

theorem objectGetPart_answered (fs : Vol) {cli : Client} {tx : ClientTx} (hs : cli.state = .recycle)
    (h : objectGetPart e io fs cli = some tx) : cli.toClientTx.Answered tx := by
  have hobj : ∀ obj len, cli.toClientTx.Goes { cli.toClientTx with inObj := obj, inLen := len } :=
    fun obj len => .of_extends (.inObj _ obj len)
  unfold objectGetPart at h
  dsimp only at h
  split at h
  · obtain rfl := Option.some.inj h
    exact .dispose _
  · split at h
    · obtain rfl := Option.some.inj h
      exact .goes_trans (hobj none _) (.err e io fs _ _ _ _)
    · next obj _ =>
      split at h
      · obtain rfl := Option.some.inj h
        exact .goes_trans (hobj _ _) (.err e io fs _ _ _ _)
      · split at h
        · obtain rfl := Option.some.inj h
          exact .goes_trans (hobj _ _) (.err e io fs _ _ _ _)
        · next mem obj' _ =>
          split at h
          · cases h
          · revert h
            generalize hp : cliWriteq (io.sys.fails .writeq) _ .cbFree
              { cli.toClientTx with inObj := some obj', inLen := obj.size } = p
            intro h
            have hq := writeq_extends hp
            obtain ⟨tx', ok⟩ := p
            have htx : cli.toClientTx.Goes tx' := (hobj _ _).trans (.of_extends hq)
            cases ok with
            | false =>
              obtain rfl := Option.some.inj h
              exact .recycle hs htx
            | true =>
              dsimp only at h
              split at h
              · obtain rfl := Option.some.inj h
                exact .recycle hs ((htx.trans (.inEnd tx')).trans (.writeStart e fs io.wr _))
              · revert h
                generalize hp' : cliWriteq (io.sys.fails .bodyWriteq) _ .cbFree tx' = p'
                intro h
                have hq' := writeq_extends hp'
                obtain ⟨tx'', ok⟩ := p'
                have htx' : cli.toClientTx.Goes tx'' := htx.trans (.of_extends hq')
                cases ok with
                | false =>
                  obtain rfl := Option.some.inj h
                  exact .recycle hs htx'
                | true =>
                  obtain rfl := Option.some.inj h
                  exact .recycle hs ((htx'.trans (.inEnd tx'')).trans (.writeStart e fs io.wr _))

theorem objectDel_tx (srv : Srv) {cli : Client} (hs : cli.state = .recycle) :
    ∃ tx, (objectDel e io srv cli).2 = { cli with toClientTx := tx } ∧ cli.toClientTx.Answered tx := by
  unfold objectDel
  split
  · exact ⟨{ cli.toClientTx with state := .dispose }, rfl, .dispose _⟩
  · split
    · exact ⟨_, rfl, .err e io _ _ _ _ _⟩
    · exact ⟨_, rfl, .recycle hs (.respond e io _ _ _ _)⟩

theorem cliWriteList_extends (io : Io) (i : Nat) (content : List Bytes) (tx : ClientTx) :
    tx.Extends (cliWriteList io i content tx).1 := by
  induction content generalizing i tx with
  | nil => exact .refl tx
  | cons s content ih =>
    have h := ClientTx.Extends.writeq tx (io.listFails i) s .cbFree
    rw [cliWriteList]
    generalize cliWriteq (io.listFails i) s .cbFree tx = p at h
    obtain ⟨tx', ok⟩ := p
    cases ok with
    | true => exact h.trans (ih (i + 1) tx')
    | false => exact h

theorem cliRespXml_answered (fs : Vol) (creq : ChunksrvReq) (content : List Bytes) (tx : ClientTx) :
    tx.Answered (cliRespXml e io fs creq content tx) := by
  unfold cliRespXml
  dsimp only
  split
  · exact .dispose tx
  · have hq := ClientTx.Extends.writeq { tx with state := .recycle } (io.sys.fails .writeq)
      (ChunksrvResp.encode { respInitReq creq with dataLen := (content.map List.length).sum }) .cbFree
    generalize cliWriteq (io.sys.fails .writeq) _ .cbFree { tx with state := .recycle } = p at hq ⊢
    obtain ⟨tx', ok⟩ := p
    have htx := ClientTx.Answered.of_goes (.inl rfl) (.of_extends hq)
    cases ok with
    | false => exact ⟨.inr rfl, htx.ssl, htx.readWantWrite, htx.queued⟩
    | true =>
      have hl := cliWriteList_extends io 0 content tx'
      dsimp only
      generalize cliWriteList io 0 content tx' = q at hl ⊢
      obtain ⟨tx'', ok⟩ := q
      have htx' := htx.trans_goes (.of_extends hl)
      cases ok with
      | false => exact ⟨.inr rfl, htx'.ssl, htx'.readWantWrite, htx'.queued⟩
      | true => exact htx'.trans_goes (.writeStart e fs io.wr tx'')

theorem cliRespBin_answered (fs : Vol) (creq : ChunksrvReq) (data : Bytes) (tx : ClientTx) :
    tx.Answered (cliRespBin e io fs creq data tx) := by
  unfold cliRespBin
  dsimp only
  split
  · exact .dispose tx
  · have hq := ClientTx.Extends.writeq { tx with state := .recycle } (io.sys.fails .writeq)
      (ChunksrvResp.encode { respInitReq creq with dataLen := data.length }) .cbFree
    generalize cliWriteq (io.sys.fails .writeq) _ .cbFree { tx with state := .recycle } = p at hq ⊢
    obtain ⟨tx', ok⟩ := p
    have htx := ClientTx.Answered.of_goes (.inl rfl) (.of_extends hq)
    cases ok with
    | false => exact ⟨.inr rfl, htx.ssl, htx.readWantWrite, htx.queued⟩
    | true =>
      have hb := ClientTx.Extends.writeq tx' (io.sys.fails .bodyWriteq) data .cbFree
      dsimp only
      generalize cliWriteq (io.sys.fails .bodyWriteq) data .cbFree tx' = q at hb ⊢
      obtain ⟨tx'', ok⟩ := q
      have htx' := htx.trans_goes (.of_extends hb)
      cases ok with
      | false => exact ⟨.inr rfl, htx'.ssl, htx'.readWantWrite, htx'.queued⟩
      | true => exact htx'.trans_goes (.writeStart e fs io.wr tx'')

theorem chkStart_answered (srv : Srv) (cli : Client) :
    cli.toClientTx.Answered (chkStart e io srv cli).2 := by
  unfold chkStart
  dsimp only
  split
  · exact .err e io _ _ _ _ _
  · split
    · split <;> exact .err e io _ _ _ _ _
    · exact .err e io _ _ _ _ _
    · exact .err e io _ _ _ _ _
    · exact .err e io _ _ _ _ _

/-- `volume_open` changes the table of the client and nothing else but what it writes. -/
theorem volumeOpen_tx (srv : Srv) (cli : Client) :
    ∃ table tableLen tableId tx, (volumeOpen e io srv cli).2 =
      { cli with table, tableLen, tableId, toClientTx := tx } ∧ cli.toClientTx.Answered tx := by
  unfold volumeOpen
  dsimp only
  split
  · exact ⟨cli.table, cli.tableLen, _, _, rfl, .err e io _ _ _ _ _⟩
  · exact ⟨_, _, _, _, rfl, .err e io _ _ _ _ _⟩

/-- A login changes the user and nothing else but what is written. If the client is not disposed of,
the user is the one named and the signature verifies under it. -/
theorem loginUser_tx (fs : Vol) (cli : Client) :
    ∃ user tx, loginUser e io fs cli = { cli with user, toClientTx := tx } ∧
      cli.toClientTx.Answered tx ∧ (tx.state = .dispose ∨
        user = cli.keyBytes ++ List.replicate (chdUserSz + 1 - cli.keyLen) 0 ∧
        cli.verifies e user = true ∧ 1 ≤ cli.keyLen ∧ cli.keyLen ≤ chdUserSz) := by
  have hend : cli.toClientTx.Goes { cli.toClientTx with state := .dispose } :=
    ⟨.inr rfl, rfl, rfl, List.prefix_rfl⟩
  unfold loginUser
  dsimp only
  split
  · exact ⟨cli.user, _, rfl, .goes_trans hend (.err e io fs _ _ _ _),
      .inl (ClientTx.Answered.err_dispose e io fs _ _ _)⟩
  · next hlen =>
    split
    · exact ⟨_, _, rfl, .goes_trans hend (.err e io fs _ _ _ _),
        .inl (ClientTx.Answered.err_dispose e io fs _ _ _)⟩
    · next hv =>
      refine ⟨_, _, rfl, .err e io fs _ _ _ _, .inr ⟨rfl, by simpa using hv, ?_, ?_⟩⟩ <;> omega

/-! ## Uploads -/

/-- How an upload ends: no memory for the answer, or the object is committed or given up. -/
inductive PutEnd (e : Env) (io : Io) (srv : Srv) (cli : Client) : Srv → Client → Prop
  | noMem : PutEnd e io srv cli srv { cli with state := .dispose }
  | ended {bo bo' : FsObj} {user : Bytes} {ok : Bool} {fs : Vol} {tx : ClientTx}
      (hbo : cli.outBo = some bo) (huser : cli.outUser = some user)
      (hcommit : fsObjWriteCommit e io.sys srv.fs bo user (e.sha1 cli.outHash)
        (has cli.req.flags chfSync) = (ok, fs, bo'))
      (htx : cli.toClientTx.Answered tx) :
      PutEnd e io srv cli
        (cliOutEnd { srv with fs } { cli.toClientOut with outBo := some bo' }).1
        { cli with
          toClientOut := (cliOutEnd { srv with fs } { cli.toClientOut with outBo := some bo' }).2
          toClientTx := tx }

theorem objectPutEnd_cases {srv srv' : Srv} {cli cli' : Client}
    (h : objectPutEnd e io srv cli = some (srv', cli')) : PutEnd e io srv cli srv' cli' := by
  unfold objectPutEnd at h
  split at h
  · obtain ⟨rfl, rfl⟩ := Prod.mk.inj (Option.some.inj h)
    exact .noMem
  · split at h
    · next bo user hbo huser =>
      obtain ⟨⟨ok, fs, bo'⟩, hc⟩ : ∃ r, fsObjWriteCommit e io.sys srv.fs bo user (e.sha1 cli.outHash)
        (has cli.req.flags chfSync) = r := ⟨_, rfl⟩
      simp only [hc] at h
      split at h
      · obtain ⟨rfl, rfl⟩ := Prod.mk.inj (Option.some.inj h)
        exact .ended hbo huser hc (.of_goes (.inl rfl) (.respond e io _ _ _ _))
      · obtain ⟨rfl, rfl⟩ := Prod.mk.inj (Option.some.inj h)
        have herr : ({ cli.toClientTx with state := .recycle } : ClientTx).Answered _ :=
          .err e io (cliOutEnd { srv with fs } { cli.toClientOut with outBo := some bo' }).1.fs cli.req
            .internalError true _
        exact .ended hbo huser hc ⟨herr.state, herr.ssl, herr.readWantWrite, herr.queued⟩
    · cases h

/-- How an upload begins: it is refused, its body is awaited, or there is none. -/
inductive PutBegin (e : Env) (io : Io) (srv : Srv) (cli : Client) : Srv → Client → Prop
  | refused {cep : UInt32} {actives : Objcache} {err : ChunkErrcode} {fs : Vol} {tx : ClientTx}
      (hget : objcacheGet (io.sys.fails .cacheEntry) srv.actives cli.keyBytes true =
        some (cep, actives))
      (hnew : fsObjNew e io.sys srv.fs cli.tableId cli.keyBytes cli.req.dataLen = (.error err, fs))
      (htx : cli.toClientTx.Answered tx) :
      PutBegin e io srv cli { srv with fs, actives }
        { cli with outCe := some cep, outBo := none, toClientTx := tx }
  | started {cep : UInt32} {actives : Objcache} {bo : FsObj} {fs : Vol} {outUser : Option Bytes}
      (hget : objcacheGet (io.sys.fails .cacheEntry) srv.actives cli.keyBytes true =
        some (cep, actives))
      (hnew : fsObjNew e io.sys srv.fs cli.tableId cli.keyBytes cli.req.dataLen = (.ok bo, fs))
      (huser : ∀ user, outUser = some user → user = cli.user) (hlen : cli.req.dataLen ≠ 0) :
      PutBegin e io srv cli { srv with fs, actives }
        { cli with
          outCe := some cep, outBo := some bo, outHash := [], outLen := cli.req.dataLen, outUser
          state := .dataIn }
  | empty {cep : UInt32} {actives : Objcache} {bo : FsObj} {fs : Vol} {outUser : Option Bytes}
      {srv' : Srv} {cli' : Client}
      (hget : objcacheGet (io.sys.fails .cacheEntry) srv.actives cli.keyBytes true =
        some (cep, actives))
      (hnew : fsObjNew e io.sys srv.fs cli.tableId cli.keyBytes cli.req.dataLen = (.ok bo, fs))
      (huser : ∀ user, outUser = some user → user = cli.user) (hlen : cli.req.dataLen = 0)
      (hend : PutEnd e io { srv with fs, actives }
        { cli with
          outCe := some cep, outBo := some bo, outHash := [], outLen := cli.req.dataLen, outUser }
        srv' cli') :
      PutBegin e io srv cli srv' cli'

theorem objectPut_cases {srv srv' : Srv} {cli cli' : Client}
    (h : objectPut e io srv cli = some (srv', cli')) : PutBegin e io srv cli srv' cli' := by
  unfold objectPut at h
  dsimp only at h
  split at h
  · cases h
  · next cep actives hget =>
    split at h
    · next err fs hnew =>
      obtain ⟨rfl, rfl⟩ := Prod.mk.inj (Option.some.inj h)
      exact .refused hget hnew (.err e io fs _ _ _ _)
    · next bo fs hnew =>
      have huser : ∀ user, (if io.sys.fails .userDup = true then none else some cli.user) = some user →
          user = cli.user := by
        intro user heq
        split at heq
        · cases heq
        · exact (Option.some.inj heq).symm
      split at h
      · next hlen => exact .empty hget hnew huser hlen (objectPutEnd_cases h)
      · next hlen =>
        obtain ⟨rfl, rfl⟩ := Prod.mk.inj (Option.some.inj h)
        exact .started hget hnew huser hlen

/-- What a call for the body of an upload does. -/
inductive DataIn (e : Env) (io : Io) (srv : Srv) (cli : Client) : Srv → Client → Prop
  /-- Nothing has come, or the client waits for a write. -/
  | idle {readWantWrite evWrite : Bool} :
      DataIn e io srv cli srv { cli with readWantWrite, evWrite }
  /-- The peer is gone. -/
  | eof : DataIn e io srv cli srv { cli with state := .dispose }
  /-- An error of a read with SSL; the upload is kept until the client is freed. -/
  | sslFailed {tx : ClientTx} (htx : cli.toClientTx.Answered tx) (hs : tx.state = .dispose) :
      DataIn e io srv cli srv { cli with toClientTx := tx }
  | readFailed {tx : ClientTx} (htx : cli.toClientTx.Answered tx) (hs : tx.state = .dispose) :
      DataIn e io srv cli (cliOutEnd srv cli.toClientOut).1
        { cli with toClientOut := (cliOutEnd srv cli.toClientOut).2, toClientTx := tx }
  | writeFailed {bs : Bytes} {bo bo' : FsObj} {fs : Vol} {tx : ClientTx} (hbo : cli.outBo = some bo)
      (hwrite : fsObjWrite e io.sys.now (io.sys.writes 0) srv.fs bo bs = (.failed, fs, bo'))
      (hlen : bs.length ≤ cli.outLen) (htx : cli.toClientTx.Answered tx) (hs : tx.state = .dispose) :
      DataIn e io srv cli
        (cliOutEnd { srv with fs } { cli.toClientOut with outBo := some bo' }).1
        { cli with
          taken := cli.taken ++ bs
          toClientOut := (cliOutEnd { srv with fs } { cli.toClientOut with outBo := some bo' }).2
          toClientTx := tx }
  | wrote {bs : Bytes} {bo bo' : FsObj} {fs : Vol} (hbo : cli.outBo = some bo)
      (hwrite : fsObjWrite e io.sys.now (io.sys.writes 0) srv.fs bo bs = (.all, fs, bo'))
      (hlen : bs.length < cli.outLen) :
      DataIn e io srv cli { srv with fs }
        { cli with
          taken := cli.taken ++ bs, outBo := some bo', outHash := cli.outHash ++ bs
          outLen := cli.outLen - bs.length }
  | wroteAll {bs : Bytes} {bo bo' : FsObj} {fs : Vol} {srv' : Srv} {cli' : Client}
      (hbo : cli.outBo = some bo)
      (hwrite : fsObjWrite e io.sys.now (io.sys.writes 0) srv.fs bo bs = (.all, fs, bo'))
      (hlen : bs.length = cli.outLen)
      (hend : PutEnd e io { srv with fs }
        { cli with
          taken := cli.taken ++ bs, outBo := some bo', outHash := cli.outHash ++ bs
          outLen := cli.outLen - bs.length } srv' cli') :
      DataIn e io srv cli srv' cli'
  /-- There is nothing to read. -/
  | ended {srv' : Srv} {cli' : Client} (hlen : cli.outLen = 0) (hend : PutEnd e io srv cli srv' cli') :
      DataIn e io srv cli srv' cli'

theorem cliEvtDataIn_cases {srv srv' : Srv} {cli cli' : Client}
    (h : cliEvtDataIn e io srv cli = some (srv', cli')) : DataIn e io srv cli srv' cli' := by
  unfold cliEvtDataIn at h
  dsimp only at h
  split at h
  · next hlen => exact .ended hlen (objectPutEnd_cases h)
  · next hlen0 =>
    split at h
    · next b bs _ =>
      unfold dataInWrite at h
      have hlen : ((b :: bs).take (min cli.outLen cliDataBufSz)).length ≤ cli.outLen := by
        rw [List.length_take]
        omega
      generalize (b :: bs).take (min cli.outLen cliDataBufSz) = bs at h hlen
      dsimp only at h
      split at h
      · cases h
      · next bo hbo =>
        split at h
        · cases h
        · next fs bo' hw =>
          obtain ⟨rfl, rfl⟩ := Prod.mk.inj (Option.some.inj h)
          exact .writeFailed hbo hw hlen (.err e io _ _ _ _ _) (ClientTx.Answered.err_dispose e io _ _ _ _)
        · next fs bo' hw =>
          split at h
          · next hend =>
            exact .wroteAll hbo hw (by omega) (objectPutEnd_cases h)
          · next hend =>
            obtain ⟨rfl, rfl⟩ := Prod.mk.inj (Option.some.inj h)
            exact .wrote hbo hw (by omega)
    · obtain ⟨rfl, rfl⟩ := Prod.mk.inj (Option.some.inj h)
      exact .eof
    · obtain ⟨rfl, rfl⟩ := Prod.mk.inj (Option.some.inj h)
      exact .idle
    · split at h <;> obtain ⟨rfl, rfl⟩ := Prod.mk.inj (Option.some.inj h) <;> exact .idle
    · split at h
      · obtain ⟨rfl, rfl⟩ := Prod.mk.inj (Option.some.inj h)
        exact .sslFailed (.err e io _ _ _ _ _) (ClientTx.Answered.err_dispose e io _ _ _ _)
      · obtain ⟨rfl, rfl⟩ := Prod.mk.inj (Option.some.inj h)
        exact .readFailed (.err e io _ _ _ _ _) (ClientTx.Answered.err_dispose e io _ _ _ _)

/-! ## Copies -/

/-- What the thread of a copy can change: not what is read, nor what is written. -/
structure Client.Copies (cli cli' : Client) : Prop where
  rx : cli'.toClientRx = cli.toClientRx
  state : cli'.state = cli.state
  queued : cli'.queued = cli.queued
  user : cli'.user = cli.user
  executed : cli'.executed = cli.executed
  taken : cli'.taken = cli.taken
  worker : cli'.worker.isSome = true

theorem workerCpThr_copies {srv srv' : Srv} {cli cli' : Client} {wi : WorkerInfo}
    (hw : cli.worker = some wi) (h : workerCpThr e io srv cli wi = some (srv', cli')) :
    cli.Copies cli' := by
  unfold workerCpThr at h
  dsimp only at h
  split at h
  · split at h
    · obtain ⟨rfl, rfl⟩ := Prod.mk.inj (Option.some.inj h)
      exact ⟨rfl, rfl, rfl, rfl, rfl, rfl, rfl⟩
    · split at h <;> obtain ⟨rfl, rfl⟩ := Prod.mk.inj (Option.some.inj h) <;>
        exact ⟨rfl, rfl, rfl, rfl, rfl, rfl, rfl⟩
  · split at h
    · cases h
    · obtain ⟨rfl, rfl⟩ := Prod.mk.inj (Option.some.inj h)
      exact ⟨rfl, rfl, rfl, rfl, rfl, rfl, rfl⟩
  · split at h
    · cases h
    · split at h <;> obtain ⟨rfl, rfl⟩ := Prod.mk.inj (Option.some.inj h) <;>
        exact ⟨rfl, rfl, rfl, rfl, rfl, rfl, rfl⟩
  · split at h
    · obtain ⟨rfl, rfl⟩ := Prod.mk.inj (Option.some.inj h)
      exact ⟨rfl, rfl, rfl, rfl, rfl, rfl, rfl⟩
    · split at h
      · cases h
      · split at h
        · obtain ⟨rfl, rfl⟩ := Prod.mk.inj (Option.some.inj h)
          exact ⟨rfl, rfl, rfl, rfl, rfl, rfl, rfl⟩
        · split at h <;> obtain ⟨rfl, rfl⟩ := Prod.mk.inj (Option.some.inj h) <;>
            exact ⟨rfl, rfl, rfl, rfl, rfl, rfl, rfl⟩
  · split at h
    · cases h
    · split at h
      · cases h
      · obtain ⟨rfl, rfl⟩ := Prod.mk.inj (Option.some.inj h)
        exact ⟨rfl, rfl, rfl, rfl, rfl, rfl, rfl⟩
      · obtain ⟨rfl, rfl⟩ := Prod.mk.inj (Option.some.inj h)
        exact ⟨rfl, rfl, rfl, rfl, rfl, rfl, rfl⟩
  · split at h
    · cases h
    · split at h <;> obtain ⟨rfl, rfl⟩ := Prod.mk.inj (Option.some.inj h) <;>
        exact ⟨rfl, rfl, rfl, rfl, rfl, rfl, rfl⟩
  · obtain ⟨rfl, rfl⟩ := Prod.mk.inj (Option.some.inj h)
    exact ⟨rfl, rfl, rfl, rfl, rfl, rfl, rfl⟩
  · obtain ⟨rfl, rfl⟩ := Prod.mk.inj (Option.some.inj h)
    exact ⟨rfl, rfl, rfl, rfl, rfl, rfl, by rw [hw]; rfl⟩

/-! ## Executing a request -/

/-- What the switch over the operations does. -/
inductive ExecOp (e : Env) (io : Io) (srv : Srv) (cli : Client) : Srv → Client → Prop
  /-- Requests that read the store at most. -/
  | answered {tx : ClientTx} (hop : cli.req.op ≠ .login) (hput : cli.req.op ≠ .put)
      (htx : cli.toClientTx.Answered tx) :
      ExecOp e io srv cli srv { cli with toClientTx := tx }
  | login (hop : cli.req.op = .login) : ExecOp e io srv cli srv (loginUser e io srv.fs cli)
  | put {srv' : Srv} {cli' : Client} (hop : cli.req.op = .put)
      (h : PutBegin e io srv cli srv' cli') : ExecOp e io srv cli srv' cli'
  | del (hop : cli.req.op = .del) :
      ExecOp e io srv cli (objectDel e io srv cli).1 (objectDel e io srv cli).2
  | copies (hop : cli.req.op = .cp) :
      ExecOp e io srv cli srv { cli with worker := some ⟨.openSrc, .internalError⟩ }
  | tableOpen (hop : cli.req.op = .tableOpen) :
      ExecOp e io srv cli (volumeOpen e io srv cli).1 (volumeOpen e io srv cli).2
  | checkStart (hop : cli.req.op = .checkStart) :
      ExecOp e io srv cli (chkStart e io srv cli).1
        { cli with toClientTx := (chkStart e io srv cli).2 }
  | startTls {ssl : Bool} {s : ClientState} (hop : cli.req.op = .startTls)
      (hs : s = .dispose ∨ s = .sslAccept) :
      ExecOp e io srv cli srv { cli with ssl, state := s }

theorem execOp_cases {srv srv' : Srv} {cli cli' : Client} (hs : cli.state = .recycle)
    (h : execOp e io srv cli = some (srv', cli')) : ExecOp e io srv cli srv' cli' := by
  unfold execOp at h
  dsimp only at h
  split at h
  · next hop =>
    obtain ⟨rfl, rfl⟩ := Prod.mk.inj (Option.some.inj h)
    exact .login hop
  · next hop =>
    obtain ⟨rfl, rfl⟩ := Prod.mk.inj (Option.some.inj h)
    exact .answered (by simp [hop]) (by simp [hop]) (.err e io _ _ _ _ _)
  · next hop =>
    obtain ⟨rfl, rfl⟩ := Prod.mk.inj (Option.some.inj h)
    exact .answered (by simp [hop]) (by simp [hop]) (objectGet_answered srv.fs hs true)
  · next hop =>
    obtain ⟨rfl, rfl⟩ := Prod.mk.inj (Option.some.inj h)
    exact .answered (by simp [hop]) (by simp [hop]) (objectGet_answered srv.fs hs false)
  · next hop =>
    obtain ⟨tx, hpart, heq⟩ := Option.map_eq_some_iff.mp h
    obtain ⟨rfl, rfl⟩ := Prod.mk.inj heq
    exact .answered (by simp [hop]) (by simp [hop]) (objectGetPart_answered srv.fs hs hpart)
  · next hop => exact .put hop (objectPut_cases h)
  · next hop =>
    obtain ⟨rfl, rfl⟩ := Prod.ext_iff.mp (Option.some.inj h)
    exact .del hop
  · next hop =>
    obtain ⟨rfl, rfl⟩ := Prod.mk.inj (Option.some.inj h)
    unfold objectCp
    split
    · exact .answered (by simp [hop]) (by simp [hop]) (.err e io _ _ _ _ _)
    · exact .copies hop
  · next hop =>
    obtain ⟨rfl, rfl⟩ := Prod.mk.inj (Option.some.inj h)
    exact .answered (by simp [hop]) (by simp [hop]) (cliRespXml_answered srv.fs _ _ _)
  · next hop =>
    obtain ⟨rfl, rfl⟩ := Prod.ext_iff.mp (Option.some.inj h)
    exact .tableOpen hop
  · next hop =>
    obtain ⟨rfl, rfl⟩ := Prod.mk.inj (Option.some.inj h)
    exact .checkStart hop
  · next hop =>
    obtain ⟨rfl, rfl⟩ := Prod.mk.inj (Option.some.inj h)
    exact .answered (by simp [hop]) (by simp [hop]) (cliRespBin_answered srv.fs _ _ _)
  · next hop =>
    obtain ⟨rfl, rfl⟩ := Prod.mk.inj (Option.some.inj h)
    unfold startTls
    split
    · exact .startTls hop (.inl rfl)
    · split
      · exact .startTls hop (.inl rfl)
      · split
        · exact .startTls hop (.inl rfl)
        · exact .startTls hop (.inr rfl)
  · next hop =>
    obtain ⟨rfl, rfl⟩ := Prod.mk.inj (Option.some.inj h)
    exact .answered (by simp [hop]) (by simp [hop]) (.err e io _ _ _ _ _)

/-- How a request is executed: it is refused and the client disposed of, or it passes every check. -/
inductive ExecReq (e : Env) (io : Io) (srv : Srv) (cli : Client) : Srv → Client → Prop
  | refused {tx : ClientTx} (htx : cli.toClientTx.Answered tx) (hs : tx.state = .dispose) :
      ExecReq e io srv cli srv
        { cli with executed := cli.executed ++ [cli.request], toClientTx := tx }
  | passed {srv' : Srv} {cli' : Client} (hhdr : validReqHdr cli.req = true)
      (hauth : cli.loggedIn = true → cli.verifies e cli.user = true)
      (hgate : cli.loggedIn = true ∨ cli.req.op = .login ∨ cli.req.op = .startTls)
      (hagain : cli.req.op = .login → cli.loggedIn = false)
      (htable : needsTable cli.req.op = true → cli.tableLen ≠ 0)
      (hop : ExecOp e io srv
        { cli with executed := cli.executed ++ [cli.request], state := .recycle } srv' cli') :
      ExecReq e io srv cli srv' { cli' with firstReq := false }

theorem cliEvtExecReq_cases {srv srv' : Srv} {cli cli' : Client}
    (h : cliEvtExecReq e io srv cli = some (srv', cli')) : ExecReq e io srv cli srv' cli' := by
  have hrefuse : ∀ (code : ChunkErrcode) (s : ClientState), ExecReq e io srv cli srv
      { cli with
        executed := cli.executed ++ [cli.request]
        toClientTx := cliErr e io srv.fs cli.req code false { cli.toClientTx with state := s } } := by
    intro code s
    have htx := ClientTx.Answered.err e io srv.fs cli.req code false { cli.toClientTx with state := s }
    exact .refused ⟨htx.state, htx.ssl, htx.readWantWrite, htx.queued⟩
      (ClientTx.Answered.err_dispose e io _ _ _ _)
  unfold cliEvtExecReq at h
  dsimp only at h
  split at h
  · obtain ⟨rfl, rfl⟩ := Prod.mk.inj (Option.some.inj h)
    exact hrefuse _ cli.state
  · next hhdr =>
    split at h
    · obtain ⟨rfl, rfl⟩ := Prod.mk.inj (Option.some.inj h)
      exact hrefuse _ cli.state
    · next hauth =>
      split at h
      · obtain ⟨rfl, rfl⟩ := Prod.mk.inj (Option.some.inj h)
        exact .refused (.dispose _) rfl
      · next hgate =>
        split at h
        · obtain ⟨rfl, rfl⟩ := Prod.mk.inj (Option.some.inj h)
          exact hrefuse _ .recycle
        · next htable =>
          split at h
          · obtain ⟨rfl, rfl⟩ := Prod.mk.inj (Option.some.inj h)
            exact hrefuse _ .recycle
          · next hagain =>
            obtain ⟨⟨srv', cli'⟩, hop, heq⟩ := Option.map_eq_some_iff.mp h
            obtain ⟨rfl, rfl⟩ := Prod.mk.inj heq
            refine .passed ?_ ?_ ?_ ?_ ?_ (execOp_cases rfl hop)
            · simpa using hhdr
            · intro hlogged
              have hv : ¬ (cli.loggedIn && !cli.verifies e cli.user) = true := hauth
              simpa [hlogged] using hv
            · by_contra hnot
              push Not at hnot
              have hout : cli.loggedIn = false := by simpa using hnot.1
              refine hgate ⟨?_, hnot.2⟩
              change (!cli.loggedIn) = true
              rw [hout]
              rfl
            · intro hlogin
              have hv : ¬ (cli.req.op = .login ∧ cli.loggedIn = true) := hagain
              simpa [hlogin] using hv
            · intro hneeds hzero
              exact htable ⟨hneeds, hzero⟩

/-! ## Steps -/

/-- What a step of a connection does. -/
inductive ConnStep (e : Env) (io : Io) (srv : Srv) (cli : Client) (ev : ConnEv) :
    Srv → Option Client → Prop
  | idle : ConnStep e io srv cli ev srv (some cli)
  | writes {tx : ClientTx} (htx : cli.toClientTx.Goes tx) :
      ConnStep e io srv cli ev srv (some { cli with toClientTx := tx })
  | waits {readWantWrite evWrite : Bool} :
      ConnStep e io srv cli ev srv (some { cli with readWantWrite, evWrite })
  | readFixed (hev : ev = .func) (hs : cli.state = .readFixed) (hw : cli.worker = none) :
      ConnStep e io srv cli ev srv (some (cliEvtReadFixed io cli))
  | readVar (hev : ev = .func) (hs : cli.state = .readVar) (hw : cli.worker = none) :
      ConnStep e io srv cli ev srv (some (cliEvtReadVar io cli))
  | exec {srv' : Srv} {cli' : Client} (hev : ev = .func) (hs : cli.state = .execReq)
      (hw : cli.worker = none) (h : ExecReq e io srv cli srv' cli') :
      ConnStep e io srv cli ev srv' (some cli')
  | dataIn {srv' : Srv} {cli' : Client} (hev : ev = .func) (hs : cli.state = .dataIn)
      (hw : cli.worker = none) (h : DataIn e io srv cli srv' cli') :
      ConnStep e io srv cli ev srv' (some cli')
  | freed (hs : cli.state = .dispose) (hw : cli.worker = none) :
      ConnStep e io srv cli ev (cliFree srv cli) none
  | recycled (hs : cli.state = .recycle) (hw : cli.worker = none) :
      ConnStep e io srv cli ev srv
        (some { cli with reqPtr := (.creq, 0), reqUsed := 0, state := .readFixed })
  | accepted {s : ClientState} (hs : cli.state = .sslAccept) (hw : cli.worker = none)
      (hend : s = .recycle ∨ s = .dispose) :
      ConnStep e io srv cli ev srv (some { cli with state := s })
  | copies {wi : WorkerInfo} {srv' : Srv} {cli' : Client} (hev : ev = .worker)
      (hw : cli.worker = some wi) (h : workerCpThr e io srv cli wi = some (srv', cli')) :
      ConnStep e io srv cli ev srv' (some cli')
  | copied {wi : WorkerInfo} (hw : cli.worker = some wi) (hpc : wi.pc = .signal) :
      ConnStep e io srv cli ev srv (some (workerCpPipe e io srv.fs cli wi))

/-- A request is served from the buffers as they are, and nothing is read into them. -/
structure Client.Serves (cli cli' : Client) : Prop where
  rx : cli'.toClientRx = cli.toClientRx
  state : cli'.state = .recycle ∨ cli'.state = .dispose ∨ cli'.state = .dataIn ∨
    cli'.state = .sslAccept

theorem ClientTx.Answered.serves {cli : Client} {tx : ClientTx} (h : cli.toClientTx.Answered tx) :
    tx.state = .recycle ∨ tx.state = .dispose ∨ tx.state = .dataIn ∨ tx.state = .sslAccept :=
  h.state.imp_right .inl

theorem PutEnd.serves {srv srv' : Srv} {cli cli' : Client} (h : PutEnd e io srv cli srv' cli') :
    cli.Serves cli' := by
  cases h with
  | noMem => exact ⟨rfl, .inr (.inl rfl)⟩
  | ended _ _ _ htx => exact ⟨rfl, htx.serves⟩

theorem PutBegin.serves {srv srv' : Srv} {cli cli' : Client}
    (h : PutBegin e io srv cli srv' cli') : cli.Serves cli' := by
  cases h with
  | refused _ _ htx => exact ⟨rfl, htx.serves⟩
  | started _ _ _ _ => exact ⟨rfl, .inr (.inr (.inl rfl))⟩
  | empty _ _ _ _ hend => exact ⟨hend.serves.rx, hend.serves.state⟩

theorem DataIn.serves {srv srv' : Srv} {cli cli' : Client} (hs : cli.state = .dataIn)
    (h : DataIn e io srv cli srv' cli') : cli.Serves cli' := by
  cases h with
  | idle | wrote => exact ⟨rfl, .inr (.inr (.inl hs))⟩
  | eof => exact ⟨rfl, .inr (.inl rfl)⟩
  | sslFailed htx _ | readFailed htx _ | writeFailed _ _ _ htx _ => exact ⟨rfl, htx.serves⟩
  | wroteAll _ _ _ hend => exact ⟨hend.serves.rx, hend.serves.state⟩
  | ended _ hend => exact hend.serves

theorem ExecOp.serves {srv srv' : Srv} {cli cli' : Client} (hs : cli.state = .recycle)
    (h : ExecOp e io srv cli srv' cli') : cli.Serves cli' := by
  cases h with
  | answered _ _ htx => exact ⟨rfl, htx.serves⟩
  | login _ =>
    obtain ⟨user, tx, heq, htx, -⟩ := @loginUser_tx e io srv.fs cli
    rw [heq]
    exact ⟨rfl, htx.serves⟩
  | put _ h => exact h.serves
  | del _ =>
    obtain ⟨tx, heq, htx⟩ := @objectDel_tx e io srv cli hs
    rw [heq]
    exact ⟨rfl, htx.serves⟩
  | copies _ => exact ⟨rfl, .inl hs⟩
  | tableOpen _ =>
    obtain ⟨table, tableLen, tableId, tx, heq, htx⟩ := @volumeOpen_tx e io srv cli
    rw [heq]
    exact ⟨rfl, htx.serves⟩
  | checkStart _ => exact ⟨rfl, (chkStart_answered srv cli).serves⟩
  | startTls _ hend =>
    rcases hend with rfl | rfl
    · exact ⟨rfl, .inr (.inl rfl)⟩
    · exact ⟨rfl, .inr (.inr (.inr rfl))⟩

theorem ExecReq.serves {srv srv' : Srv} {cli cli' : Client} (h : ExecReq e io srv cli srv' cli') :
    cli.Serves cli' := by
  cases h with
  | refused htx _ => exact ⟨rfl, htx.serves⟩
  | passed _ _ _ _ _ hop =>
    have h := hop.serves rfl
    exact ⟨h.rx, h.state⟩

theorem stateFunc_cases {srv srv' : Srv} {cli : Client} {c : Option Client}
    (hw : cli.worker = none) (h : stateFunc e io srv cli = some (srv', c)) :
    ConnStep e io srv cli .func srv' c := by
  unfold stateFunc at h
  split at h
  · next hs =>
    obtain ⟨rfl, rfl⟩ := Prod.mk.inj (Option.some.inj h)
    exact .readFixed rfl hs hw
  · next hs =>
    obtain ⟨rfl, rfl⟩ := Prod.mk.inj (Option.some.inj h)
    exact .readVar rfl hs hw
  · next hs =>
    obtain ⟨⟨srv', cli'⟩, hexec, heq⟩ := Option.map_eq_some_iff.mp h
    obtain ⟨rfl, rfl⟩ := Prod.mk.inj heq
    exact .exec rfl hs hw (cliEvtExecReq_cases hexec)
  · next hs =>
    obtain ⟨⟨srv', cli'⟩, hin, heq⟩ := Option.map_eq_some_iff.mp h
    obtain ⟨rfl, rfl⟩ := Prod.mk.inj heq
    exact .dataIn rfl hs hw (cliEvtDataIn_cases hin)
  · next hs =>
    split at h <;> obtain ⟨rfl, rfl⟩ := Prod.mk.inj (Option.some.inj h)
    · exact .freed hs hw
    · exact .idle
  · next hs =>
    obtain ⟨rfl, rfl⟩ := Prod.mk.inj (Option.some.inj h)
    unfold cliEvtRecycle
    split
    · exact .idle
    · exact .recycled hs hw
  · next hs =>
    obtain ⟨rfl, rfl⟩ := Prod.mk.inj (Option.some.inj h)
    unfold cliEvtSslAccept
    split
    · exact .accepted hs hw (.inl rfl)
    · exact .idle
    · exact .waits
    · exact .accepted hs hw (.inr rfl)
    · exact .accepted hs hw (.inr rfl)

theorem connStep_cases {srv srv' : Srv} {cli : Client} {c : Option Client} {ev : ConnEv}
    (h : connStep e io srv cli ev = some (srv', c)) : ConnStep e io srv cli ev srv' c := by
  unfold connStep at h
  split at h
  · next hw => exact stateFunc_cases hw h
  · obtain ⟨rfl, rfl⟩ := Prod.mk.inj (Option.some.inj h)
    exact .idle
  · obtain ⟨rfl, rfl⟩ := Prod.mk.inj (Option.some.inj h)
    unfold tcpCliWrEvent
    split
    · split
      · exact .waits
      · exact .writes (.writable e srv.fs io.wr _)
    · exact .idle
  · obtain ⟨rfl, rfl⟩ := Prod.mk.inj (Option.some.inj h)
    split
    · exact .writes ((ClientTx.Goes.sent _ _ _ _ _ _).trans (.writable e srv.fs io.wr _))
    · exact .idle
  · next wi hw =>
    obtain ⟨⟨srv', cli'⟩, hthr, heq⟩ := Option.map_eq_some_iff.mp h
    obtain ⟨rfl, rfl⟩ := Prod.mk.inj heq
    exact .copies rfl hw hthr
  · obtain ⟨rfl, rfl⟩ := Prod.mk.inj (Option.some.inj h)
    exact .idle
  · next wi hw =>
    obtain ⟨rfl, rfl⟩ := Prod.mk.inj (Option.some.inj h)
    split
    · next hpc => exact .copied hw hpc
    · exact .idle
  · obtain ⟨rfl, rfl⟩ := Prod.mk.inj (Option.some.inj h)
    exact .idle

end

/-- The step that a client of a run has come from. -/
theorem connNext_eq_some {e : Env} {c : Option Client} {i : Srv × Io × ConnEv} {cli' : Client}
    (h : cli' ∈ connNext e c i) :
    ∃ cli srv' c', c = some cli ∧ connStep e i.2.1 i.1 cli i.2.2 = some (srv', c') ∧ cli' ∈ c' := by
  cases c with
  | none => cases h
  | some cli =>
    rw [connNext] at h
    split at h
    · cases h
    · next srv' c' hstep => exact ⟨cli, srv', c', rfl, hstep, h⟩

end Hail.Chunkd
