import Hail.Chunkd.Store

/-!
# Uploads that do not commit

The file of an upload or of a copy is taken away when it ends without a commit. Nothing else is changed
with it, as long as nobody deletes a file that is still being written: every name has the file that it had
before, and where there was none an object can be stored.
-/
namespace Hail.Chunkd

open Library

/-! ## Files that are being written -/

/-- An object that is being written, with the file of its name. -/
structure FsObj.Owns (obj : FsObj) (fs : Vol) (fn : Path) : Prop where
  outFn : obj.outFn = some fn
  file : ∃ ino pos, fs.lookup fn = some ino ∧ obj.outFd = some (ino, pos)

section

variable {e : Env} {y : Sys} {fs fs' : Vol} {obj obj' : FsObj} {fn q : Path}

/-- Nobody else touches the file. -/
theorem FsObj.Owns.kept (h : obj.Owns fs fn) (ht : FileSys.Touches q fs fs') (hq : fn ≠ q) :
    obj.Owns fs' fn := by
  obtain ⟨ino, pos, hino, hfd⟩ := h.file
  exact ⟨h.outFn, ino, pos, (ht.lookup fn hq).trans hino, hfd⟩

theorem fsObjNew_owns {tableId dataLen : Nat} {key : Bytes}
    (h : fsObjNew e y fs tableId key dataLen = (.ok obj, fs')) :
    fs.lookup ⟨tableId, e.sha256 key⟩ = none ∧
      FileSys.Touches ⟨tableId, e.sha256 key⟩ fs fs' ∧ obj.Owns fs' ⟨tableId, e.sha256 key⟩ := by
  obtain ⟨fn, -, hfn, hnone, rfl, rfl⟩ := fsObjNew_ok h
  obtain rfl := pathname_eq hfn
  exact ⟨hnone, FileSys.touches_creat _, rfl, _, _, FileSys.lookup_creat .., rfl⟩

theorem fsObjWrite_owns {now : Nat} {write : Nat → Option Nat} {bs : Bytes} {r : WriteEnd}
    (h : obj.Owns fs fn) (hwrite : fsObjWrite e now write fs obj bs = (r, fs', obj')) :
    FileSys.Touches fn fs fs' ∧ obj'.Owns fs' fn := by
  have hany := @fsObjWriteLoop_any e (fun fs' obj' => FileSys.Touches fn fs fs' ∧ obj'.Owns fs' fn)
    now ?_ write bs.length 0 fs obj bs ⟨.refl fn fs, h⟩
  · rw [show fsObjWriteLoop e now write bs.length 0 fs obj bs = _ from hwrite] at hany
    exact hany
  · rintro fs₁ obj₁ ino pos bs₁ ⟨ht, ho⟩ hfd
    obtain ⟨ino', pos', hino, hfd'⟩ := ho.file
    obtain ⟨rfl, rfl⟩ := Prod.mk.inj (Option.some.inj (hfd.symm.trans hfd'))
    exact ⟨ht.trans (FileSys.touches_write hino pos bs₁ now),
      (layout_outFn (wrote_layout ..)).trans ho.outFn, ino, _, hino,
      (wrote_out e obj₁ ino pos bs₁).1⟩

/-- A commit that fails leaves the file to the upload, whatever it has written. -/
theorem fsObjWriteCommit_owns {user md : Bytes} {sync ok : Bool} (h : obj.Owns fs fn)
    (hcommit : fsObjWriteCommit e y fs obj user md sync = (ok, fs', obj')) :
    FileSys.Touches fn fs fs' ∧ (ok = true ∧ obj'.outFn = none ∨ ok = false ∧ obj'.Owns fs' fn) := by
  have hfn : (obj.closed e).outFn = some fn := (layout_outFn (closed_layout e obj)).trans h.outFn
  obtain ⟨ino, pos, hino, hfd⟩ := h.file
  have hfd' : (obj.closed e).outFd = some (ino, pos) := (closed_outFd e obj).trans hfd
  unfold fsObjWriteCommit at hcommit
  split at hcommit
  · obtain ⟨rfl, rfl, rfl⟩ := by simpa only [Prod.mk.injEq] using hcommit
    exact ⟨.refl _ _, .inr ⟨rfl, h⟩⟩
  · dsimp only at hcommit
    split at hcommit
    · obtain ⟨rfl, rfl, rfl⟩ := by simpa only [Prod.mk.injEq] using hcommit
      exact ⟨.refl _ _, .inr ⟨rfl, hfn, ino, pos, hino, hfd'⟩⟩
    · rw [hfd'] at hcommit
      dsimp only at hcommit
      split at hcommit
      · obtain ⟨rfl, rfl, rfl⟩ := by simpa only [Prod.mk.injEq] using hcommit
        exact ⟨.refl _ _, .inr ⟨rfl, hfn, ino, pos, hino, rfl⟩⟩
      · split at hcommit
        · obtain ⟨rfl, rfl, rfl⟩ := by simpa only [Prod.mk.injEq] using hcommit
          exact ⟨FileSys.touches_write hino _ _ _, .inr ⟨rfl, hfn, ino, pos, hino, rfl⟩⟩
        · split at hcommit
          · obtain ⟨rfl, rfl, rfl⟩ := by simpa only [Prod.mk.injEq] using hcommit
            exact ⟨FileSys.touches_write hino _ _ _, .inr ⟨rfl, hfn, ino, pos, hino, rfl⟩⟩
          · obtain ⟨rfl, rfl, rfl⟩ := by simpa only [Prod.mk.injEq] using hcommit
            exact ⟨FileSys.touches_write hino _ _ _, .inl ⟨rfl, rfl⟩⟩

theorem lookup_of_content_none (h : fs.content q = none) : fs.lookup q = none := by
  cases hl : fs.lookup q with
  | none => rfl
  | some ino =>
    rw [FileSys.content_of_lookup hl] at h
    cases h

end

/-! ## What a client does to files -/

/-- An upload or a copy at work has the file that it writes. -/
structure Client.Owner (fs : Vol) (cli : Client) : Prop where
  owned : ∀ bo, cli.outBo = some bo → ∀ fn, bo.outFn = some fn → bo.Owns fs fn
  quiet : cli.worker = none → cli.state ≠ .dataIn → cli.state ≠ .dispose → cli.outBo = none
  body : cli.worker = none → cli.state = .dataIn → ∃ bo fn, cli.outBo = some bo ∧ bo.Owns fs fn
  idle : ∀ wi, cli.worker = some wi →
    wi.pc = .openSrc ∨ wi.pc = .cache ∨ wi.pc = .create ∨ wi.pc = .signal → cli.outBo = none
  copy : ∀ wi, cli.worker = some wi → wi.pc.pending ≠ none →
    ∃ bo fn, cli.outBo = some bo ∧ bo.Owns fs fn

/-- `fs_obj_write_commit` succeeds in a step that leaves the volume `fs'`: in the thread of a copy, when all
of an upload has been written or its last bytes are, or for an object without data. -/
inductive Client.Commits (e : Env) (io : Io) (srv : Srv) (cli : Client) (ev : ConnEv) (fs' : Vol)
    (p : Path) : Prop
  | copied {wi : WorkerInfo} {bo bo' : FsObj} (hev : ev = .worker) (hw : cli.worker = some wi)
      (hpc : wi.pc = .commit) (hbo : cli.outBo = some bo) (hfn : bo.outFn = some p)
      (hcommit : fsObjWriteCommit e io.sys srv.fs bo cli.user (e.sha1 cli.outHash) false =
        (true, fs', bo'))
  | ended {bo bo' : FsObj} {user : Bytes} (hev : ev = .func) (hs : cli.state = .dataIn)
      (hlen : cli.outLen = 0) (hbo : cli.outBo = some bo) (hfn : bo.outFn = some p)
      (hcommit : fsObjWriteCommit e io.sys srv.fs bo user (e.sha1 cli.outHash)
        (has cli.req.flags chfSync) = (true, fs', bo'))
  | wrote {bo₀ bo bo' : FsObj} {fs : Vol} {bs user : Bytes} (hev : ev = .func)
      (hs : cli.state = .dataIn) (hlen : bs.length = cli.outLen) (hbo : cli.outBo = some bo₀)
      (hfn : bo₀.outFn = some p)
      (hwrite : fsObjWrite e io.sys.now (io.sys.writes 0) srv.fs bo₀ bs = (.all, fs, bo))
      (hcommit : fsObjWriteCommit e io.sys fs bo user (e.sha1 (cli.outHash ++ bs))
        (has cli.req.flags chfSync) = (true, fs', bo'))
  | empty {bo bo' : FsObj} {fs : Vol} {user : Bytes} (hev : ev = .func) (hs : cli.state = .execReq)
      (hop : cli.req.op = .put) (hpath : p = cli.path e)
      (hnew : fsObjNew e io.sys srv.fs cli.tableId cli.keyBytes 0 = (.ok bo, fs))
      (hcommit : fsObjWriteCommit e io.sys fs bo user (e.sha1 []) (has cli.req.flags chfSync) =
        (true, fs', bo'))

/-- A DEL passes the checks of requests, and `fs_obj_delete` succeeds. -/
structure Client.Deletes (e : Env) (io : Io) (srv : Srv) (cli : Client) (ev : ConnEv) : Prop where
  func : ev = .func
  state : cli.state = .execReq
  op : cli.req.op = .del
  loggedIn : cli.loggedIn = true
  verifies : cli.verifies e cli.user = true
  table : cli.tableLen ≠ 0
  deleted : (fsObjDelete e io.sys srv.fs cli.tableId cli.user cli.keyBytes).1 = none

/-- A change of the file that the client is writing, or of one that it makes. -/
structure Client.Writes (e : Env) (fs fs' : Vol) (cli : Client) (p : Path) : Prop where
  touches : FileSys.Touches p fs fs'
  mine : cli.upload = some p ∨ cli.upload = none ∧ p = cli.path e ∧ fs.lookup p = none

/-- What a step of a client does to the files: nothing, or it writes its own, which it keeps unless it
gives it up or commits it, or it deletes an object. -/
inductive Client.Leaves (e : Env) (io : Io) (srv : Srv) (cli : Client) (ev : ConnEv) (fs' : Vol)
    (up' : Option Path) : Prop
  | same (hfs : fs' = srv.fs) (hup : up' = cli.upload)
  | writes {p : Path} (h : cli.Writes e srv.fs fs' p)
      (hend : up' = some p ∨ up' = none ∧ fs'.lookup p = none)
  | commits {p : Path} (h : cli.Writes e srv.fs fs' p) (hup' : up' = none)
      (hcommit : cli.Commits e io srv ev fs' p)
  | deletes (hdel : cli.Deletes e io srv ev) (hup : cli.upload = none) (hup' : up' = none)
      (hfs : fs' = srv.fs.unlink (cli.path e))

section

variable {e : Env} {io : Io} {srv srv' : Srv} {cli cli' : Client} {fs fs' : Vol} {ev : ConnEv}

/-- Somebody else has changed another name. -/
theorem Client.Owner.kept {q : Path} (h : cli.Owner fs) (ht : FileSys.Touches q fs fs')
    (hq : cli.upload ≠ some q) : cli.Owner fs' where
  owned bo hbo fn hfn := by
    refine (h.owned bo hbo fn hfn).kept ht ?_
    rintro rfl
    exact hq (upload_eq_some hbo hfn)
  quiet := h.quiet
  body hw hs := by
    obtain ⟨bo, fn, hbo, ho⟩ := h.body hw hs
    refine ⟨bo, fn, hbo, ho.kept ht ?_⟩
    rintro rfl
    exact hq (upload_eq_some hbo ho.outFn)
  idle := h.idle
  copy wi hwi hpend := by
    obtain ⟨bo, fn, hbo, ho⟩ := h.copy wi hwi hpend
    refine ⟨bo, fn, hbo, ho.kept ht ?_⟩
    rintro rfl
    exact hq (upload_eq_some hbo ho.outFn)

/-- A client that writes nothing. -/
theorem Client.Owner.of_none (hbo : cli.outBo = none) (hs : cli.worker = none → cli.state ≠ .dataIn)
    (hw : ∀ wi, cli.worker = some wi → wi.pc.pending = none) : cli.Owner fs where
  owned bo h := by
    rw [hbo] at h
    cases h
  quiet _ _ _ := hbo
  body hnone h := absurd h (hs hnone)
  idle _ _ _ := hbo
  copy wi hwi hpend := absurd (hw wi hwi) hpend

/-- What is written stays as it was. -/
theorem Client.Owner.same (h : cli.Owner fs) (hout : cli'.outBo = cli.outBo)
    (hw : cli'.worker = cli.worker) (hs : cli'.state = cli.state ∨ cli'.state = .dispose) :
    cli'.Owner fs := by
  refine ⟨?_, ?_, ?_, ?_, ?_⟩
  · rw [hout]
    exact h.owned
  · rw [hout, hw]
    intro hnone hdata hdisp
    rcases hs with hs | hs
    · rw [hs] at hdata hdisp
      exact h.quiet hnone hdata hdisp
    · exact absurd hs hdisp
  · rw [hout, hw]
    intro hnone hdata
    rcases hs with hs | hs
    · rw [hs] at hdata
      exact h.body hnone hdata
    · rw [hs] at hdata
      cases hdata
  · rw [hout, hw]
    exact h.idle
  · rw [hout, hw]
    exact h.copy

/-- A client that writes the body of an upload, or is only to be disposed of. -/
theorem Client.Owner.of_owns {bo : FsObj} {fn : Path} (hbo : cli.outBo = some bo) (ho : bo.Owns fs fn)
    (hw : cli.worker = none) (hs : cli.state = .dataIn ∨ cli.state = .dispose) : cli.Owner fs where
  owned bo' hbo' fn' hfn' := by
    obtain rfl := Option.some.inj (hbo.symm.trans hbo')
    obtain rfl := Option.some.inj (ho.outFn.symm.trans hfn')
    exact ho
  quiet _ hdata hdisp := (hs.elim hdata hdisp).elim
  body _ _ := ⟨bo, fn, hbo, ho⟩
  idle wi hwi := by
    rw [hw] at hwi
    cases hwi
  copy wi hwi := by
    rw [hw] at hwi
    cases hwi

/-- What a step leaves, and what the client goes on with. -/
def Client.Left (e : Env) (io : Io) (srv : Srv) (cli : Client) (ev : ConnEv) (srv' : Srv)
    (cli' : Client) : Prop :=
  cli.Leaves e io srv ev srv'.fs cli'.upload ∧ cli'.Owner srv'.fs

/-- The file is given up. -/
theorem Client.Leaves.given_up {srv₁ : Srv} {out : ClientOut} {p : Path} {up' : Option Path}
    (hmine : cli.upload = some p ∨ cli.upload = none ∧ p = cli.path e ∧ srv.fs.lookup p = none)
    (hout : out.upload = some p) (ht : FileSys.Touches p srv.fs srv₁.fs) (hup' : up' = none) :
    cli.Leaves e io srv ev (cliOutEnd srv₁ out).1.fs up' := by
  rw [cliOutEnd_some srv₁ hout]
  refine .writes ⟨ht.trans (FileSys.touches_unlink _ _), hmine⟩ (.inr ⟨hup', ?_⟩)
  rw [FileSys.lookup_unlink, if_pos rfl]

theorem Client.Leaves.outEnd {up' : Option Path} (hup' : up' = none) :
    cli.Leaves e io srv ev (cliOutEnd srv cli.toClientOut).1.fs up' := by
  cases hup : cli.upload with
  | none => exact .same (cliOutEnd_none srv hup) (hup'.trans hup.symm)
  | some fn => exact .given_up (.inl hup) hup (.refl _ _) hup'

/-- A file of no upload comes and goes. -/
theorem Client.Leaves.error {up' : Option Path} (hup : cli.upload = none) (hup' : up' = none)
    (h : fs' = srv.fs ∨ srv.fs.lookup (cli.path e) = none ∧
      FileSys.Touches (cli.path e) srv.fs fs' ∧ fs'.content (cli.path e) = none) :
    cli.Leaves e io srv ev fs' up' := by
  rcases h with rfl | ⟨hnone, ht, hgone⟩
  · exact .same rfl (hup'.trans hup.symm)
  · exact .writes ⟨ht, .inr ⟨hup, rfl, hnone⟩⟩ (.inr ⟨hup', lookup_of_content_none hgone⟩)

/-- The end of an upload whose file has been written so far. -/
theorem PutEnd.left {cli₁ : Client} {srv₁ : Srv} {bo : FsObj} {p : Path}
    (h : PutEnd e io srv₁ cli₁ srv' cli') (hw : cli₁.worker = none) (hbo : cli₁.outBo = some bo)
    (ho : bo.Owns srv₁.fs p) (ht : FileSys.Touches p srv.fs srv₁.fs)
    (hmine : cli.upload = some p ∨ cli.upload = none ∧ p = cli.path e ∧ srv.fs.lookup p = none)
    (hcommits : ∀ user fs' bo', fsObjWriteCommit e io.sys srv₁.fs bo user (e.sha1 cli₁.outHash)
      (has cli₁.req.flags chfSync) = (true, fs', bo') → cli.Commits e io srv ev fs' p) :
    cli.Left e io srv ev srv' cli' := by
  cases h with
  | noMem =>
    exact ⟨.writes ⟨ht, hmine⟩ (.inl (upload_eq_some hbo ho.outFn)), .of_owns hbo ho hw (.inr rfl)⟩
  | @ended bo₁ bo' user ok fs tx hbo₁ huser hcommit htx =>
    obtain rfl := Option.some.inj (hbo.symm.trans hbo₁)
    obtain ⟨ht', hend⟩ := fsObjWriteCommit_owns ho hcommit
    refine ⟨?_, .of_none rfl (fun _ hs => ?_) fun wi hwi => ?_⟩
    · rcases hend with ⟨rfl, hfn⟩ | ⟨rfl, ho'⟩
      · have hfs : (cliOutEnd { srv₁ with fs } { cli₁.toClientOut with outBo := some bo' }).1.fs = fs :=
          cliOutEnd_none _ hfn
        rw [hfs]
        exact .commits ⟨ht.trans ht', hmine⟩ rfl (hcommits _ _ _ hcommit)
      · exact .given_up hmine ho'.outFn (ht.trans ht') rfl
    · have hstate : tx.state = .dataIn := hs
      rcases htx.state with h | h <;> cases h.symm.trans hstate
    · have hwi' : cli₁.worker = some wi := hwi
      rw [hw] at hwi'
      cases hwi'

/-- The client as a request is executed. -/
def Client.executing (cli : Client) : Client :=
  { cli with executed := cli.executed ++ [cli.request], state := .recycle }

theorem PutBegin.left (h : PutBegin e io srv cli.executing srv' cli') (hev : ev = .func)
    (hs : cli.state = .execReq) (hop : cli.req.op = .put) (hbo : cli.outBo = none)
    (hw : cli.worker = none) : cli.Left e io srv ev srv' cli' := by
  have hup : cli.upload = none := upload_eq_none hbo
  cases h with
  | @refused cep actives err fs tx hget hnew htx =>
    refine ⟨.error hup rfl (fsObjNew_error hnew), .of_none rfl (fun _ hdata => ?_) fun wi hwi => ?_⟩
    · have hstate : tx.state = .dataIn := hdata
      rcases htx.state with h | h <;> cases h.symm.trans hstate
    · have hwi' : cli.worker = some wi := hwi
      rw [hw] at hwi'
      cases hwi'
  | @started cep actives bo fs outUser hget hnew huser hlen =>
    obtain ⟨hnone, ht, ho⟩ := fsObjNew_owns hnew
    exact ⟨.writes ⟨ht, .inr ⟨hup, rfl, hnone⟩⟩ (.inl (upload_eq_some rfl ho.outFn)),
      .of_owns rfl ho hw (.inl rfl)⟩
  | @empty cep actives bo fs outUser srv' cli' hget hnew huser hlen hend =>
    obtain ⟨hnone, ht, ho⟩ := fsObjNew_owns hnew
    have hlen' : cli.req.dataLen = 0 := hlen
    refine hend.left hw rfl ho ht (.inr ⟨hup, rfl, hnone⟩) fun user fs' bo' hcommit => ?_
    refine .empty hev hs hop rfl ?_ hcommit
    rw [← hlen']
    exact hnew

theorem DataIn.left (h : DataIn e io srv cli srv' cli') (how : cli.Owner srv.fs) (hev : ev = .func)
    (hw : cli.worker = none) (hs : cli.state = .dataIn) : cli.Left e io srv ev srv' cli' := by
  have hidle : ∀ {wi : WorkerInfo} {p : Prop}, cli.worker = some wi → p := by
    intro wi p hwi
    rw [hw] at hwi
    cases hwi
  obtain ⟨bo, fn, hbo, ho⟩ := how.body hw hs
  have hup : cli.upload = some fn := upload_eq_some hbo ho.outFn
  cases h with
  | idle => exact ⟨.same rfl rfl, how.same rfl rfl (.inl rfl)⟩
  | eof => exact ⟨.same rfl rfl, how.same rfl rfl (.inr rfl)⟩
  | sslFailed htx hdisp => exact ⟨.same rfl rfl, how.same rfl rfl (.inr hdisp)⟩
  | @readFailed tx htx hdisp =>
    refine ⟨.outEnd rfl, .of_none rfl (fun _ hdata => ?_) fun _ => hidle⟩
    cases hdisp.symm.trans hdata
  | @writeFailed bs bo₁ bo' fs tx hbo₁ hwrite _ _ hdisp =>
    obtain rfl := Option.some.inj (hbo.symm.trans hbo₁)
    obtain ⟨ht, ho'⟩ := fsObjWrite_owns ho hwrite
    refine ⟨.given_up (.inl hup) ho'.outFn ht rfl, .of_none rfl (fun _ hdata => ?_) fun _ => hidle⟩
    cases hdisp.symm.trans hdata
  | @wrote bs bo₁ bo' fs hbo₁ hwrite _ =>
    obtain rfl := Option.some.inj (hbo.symm.trans hbo₁)
    obtain ⟨ht, ho'⟩ := fsObjWrite_owns ho hwrite
    exact ⟨.writes ⟨ht, .inl hup⟩ (.inl (upload_eq_some rfl ho'.outFn)), .of_owns rfl ho' hw (.inl hs)⟩
  | @wroteAll bs bo₁ bo' fs srv' cli' hbo₁ hwrite hlen hend =>
    obtain rfl := Option.some.inj (hbo.symm.trans hbo₁)
    obtain ⟨ht, ho'⟩ := fsObjWrite_owns ho hwrite
    exact hend.left hw rfl ho' ht (.inl hup) fun _ _ _ hcommit =>
      .wrote hev hs hlen hbo ho.outFn hwrite hcommit
  | ended hlen hend =>
    exact hend.left hw hbo ho (.refl _ _) (.inl hup) fun _ _ _ hcommit =>
      .ended hev hs hlen hbo ho.outFn hcommit

/-- What `fs_obj_delete` does. -/
theorem fsObjDelete_ends {y : Sys} {tableId : Nat} {user key : Bytes} {r : Option ChunkErrcode}
    (h : fsObjDelete e y fs tableId user key = (r, fs')) :
    r ≠ none ∧ fs' = fs ∨ r = none ∧ fs' = fs.unlink ⟨tableId, e.sha256 key⟩ := by
  have hfailed : ∀ {err : ChunkErrcode}, (some err, fs) = (r, fs') → r ≠ none ∧ fs' = fs := by
    rintro err ⟨⟩
    exact ⟨by simp, rfl⟩
  unfold fsObjDelete at h
  split at h
  · exact .inl (hfailed h)
  · split at h
    · exact .inl (hfailed h)
    · next fn hfn =>
      obtain rfl := pathname_eq (fsObjPathname_some hfn)
      dsimp only at h
      repeat' split at h
      all_goals first | exact .inl (hfailed h) | skip
      exact .inr ⟨(Prod.mk.inj h).1.symm, (Prod.mk.inj h).2.symm⟩

theorem objectDel_leaves {up' : Option Path} (hup : cli.upload = none) (hup' : up' = none)
    (hdel : (fsObjDelete e io.sys srv.fs cli.tableId cli.user cli.keyBytes).1 = none →
      cli.Deletes e io srv ev) :
    cli.Leaves e io srv ev (objectDel e io srv cli.executing).1.fs up' := by
  subst hup'
  obtain ⟨⟨r, fs'⟩, hr⟩ : ∃ r, fsObjDelete e io.sys srv.fs cli.tableId cli.user cli.keyBytes = r :=
    ⟨_, rfl⟩
  have hr' : fsObjDelete e io.sys srv.fs cli.executing.tableId cli.executing.user
      cli.executing.keyBytes = (r, fs') := hr
  unfold objectDel
  rw [hr']
  split
  · exact .same rfl hup.symm
  · rcases fsObjDelete_ends hr with ⟨hne, rfl⟩ | ⟨rfl, rfl⟩
    · obtain ⟨err, rfl⟩ := Option.ne_none_iff_exists'.mp hne
      exact .same rfl hup.symm
    · exact .deletes (hdel (congrArg Prod.fst hr)) hup rfl rfl

theorem ExecOp.left (h : ExecOp e io srv cli.executing srv' cli') (hev : ev = .func)
    (hs : cli.state = .execReq) (hbo : cli.outBo = none) (hw : cli.worker = none)
    (hauth : cli.loggedIn = true → cli.verifies e cli.user = true)
    (hgate : cli.loggedIn = true ∨ cli.req.op = .login ∨ cli.req.op = .startTls)
    (htable : needsTable cli.req.op = true → cli.tableLen ≠ 0) : cli.Left e io srv ev srv' cli' := by
  have hidle : ∀ {wi : WorkerInfo} {p : Prop}, cli.worker = some wi → p := by
    intro wi p hwi
    rw [hw] at hwi
    cases hwi
  have hup : cli.upload = none := upload_eq_none hbo
  have hanswered : ∀ {tx : ClientTx}, cli.executing.toClientTx.Answered tx → tx.state ≠ .dataIn := by
    intro tx htx hdata
    rcases htx.state with h | h <;> cases h.symm.trans hdata
  cases h with
  | answered _ _ htx =>
    exact ⟨.same rfl rfl, .of_none hbo (fun _ => hanswered htx) fun _ => hidle⟩
  | login _ =>
    obtain ⟨user, tx, heq, htx, -⟩ := @loginUser_tx e io srv.fs cli.executing
    rw [heq]
    exact ⟨.same rfl rfl, .of_none hbo (fun _ => hanswered htx) fun _ => hidle⟩
  | put hput h => exact h.left hev hs hput hbo hw
  | del hdel =>
    have hop : cli.req.op = .del := hdel
    have hlogged : cli.loggedIn = true := by
      rcases hgate with h | h | h
      · exact h
      · cases hop.symm.trans h
      · cases hop.symm.trans h
    obtain ⟨tx, heq, htx⟩ := @objectDel_tx e io srv cli.executing rfl
    refine ⟨?_, ?_⟩
    · rw [heq]
      exact objectDel_leaves hup hup fun hgone =>
        ⟨hev, hs, hop, hlogged, hauth hlogged, htable (by rw [hop]; rfl), hgone⟩
    · rw [heq]
      exact .of_none hbo (fun _ => hanswered htx) fun _ => hidle
  | copies _ =>
    refine ⟨.same rfl rfl, .of_none hbo (fun hnone => ?_) ?_⟩
    · cases hnone
    · rintro wi ⟨⟩
      rfl
  | tableOpen _ =>
    obtain ⟨table, tableLen, tableId, tx, heq, htx⟩ := @volumeOpen_tx e io srv cli.executing
    have hfs : (volumeOpen e io srv cli.executing).1.fs = srv.fs := by
      unfold volumeOpen
      dsimp only
      split <;> rfl
    rw [heq]
    exact ⟨.same hfs rfl, .of_none hbo (fun _ => hanswered htx) fun _ => hidle⟩
  | checkStart _ =>
    have hfs : (chkStart e io srv cli.executing).1.fs = srv.fs := by
      unfold chkStart
      dsimp only
      split
      · rfl
      · split <;> first | rfl | (split <;> rfl)
    exact ⟨.same hfs rfl,
      .of_none hbo (fun _ => hanswered (chkStart_answered srv cli.executing)) fun _ => hidle⟩
  | @startTls ssl s _ hend =>
    refine ⟨.same rfl rfl, .of_none hbo (fun _ hdata => ?_) fun _ => hidle⟩
    have hstate : s = .dataIn := hdata
    rcases hend with h | h <;> cases h.symm.trans hstate

theorem ExecReq.left (h : ExecReq e io srv cli srv' cli') (how : cli.Owner srv.fs) (hev : ev = .func)
    (hs : cli.state = .execReq) (hw : cli.worker = none) : cli.Left e io srv ev srv' cli' := by
  cases h with
  | refused _ hdisp => exact ⟨.same rfl rfl, how.same rfl rfl (.inr hdisp)⟩
  | passed _ hauth hgate _ htable hop =>
    have hbo : cli.outBo = none := how.quiet hw (by simp [hs]) (by simp [hs])
    obtain ⟨hleaves, hown⟩ := ExecOp.left hop hev hs hbo hw hauth hgate htable
    exact ⟨hleaves, hown.same rfl rfl (.inl rfl)⟩

theorem CopyStep.left {wi : WorkerInfo} (h : CopyStep e io srv cli wi srv' cli')
    (how : cli.Owner srv.fs) (hev : ev = .worker) (hw : cli.worker = some wi) :
    cli.Left e io srv ev srv' cli' := by
  -- a client whose thread is at work, with an object that has its own file or is committed
  have hcopy : ∀ {fs' : Vol} {cli' : Client} {wi' : WorkerInfo} {bo' : FsObj},
      cli'.worker = some wi' → cli'.outBo = some bo' →
      (wi'.pc = .out ∧ bo'.outFn = none ∨
        (wi'.pc = .out ∨ wi'.pc.pending ≠ none) ∧ ∃ fn, bo'.Owns fs' fn) → cli'.Owner fs' := by
    intro fs' cli' wi' bo' hw' hbo' hpc
    refine ⟨fun bo hbo fn hfn => ?_, fun hnone => ?_, fun hnone => ?_, fun wi hwi hidle => ?_,
      fun wi hwi hpend => ?_⟩
    · obtain rfl := Option.some.inj (hbo'.symm.trans hbo)
      rcases hpc with ⟨-, hnone⟩ | ⟨-, fn', ho⟩
      · cases hnone.symm.trans hfn
      · obtain rfl := Option.some.inj (ho.outFn.symm.trans hfn)
        exact ho
    · cases hw'.symm.trans hnone
    · cases hw'.symm.trans hnone
    · obtain rfl := Option.some.inj (hw'.symm.trans hwi)
      have hpc' : wi'.pc = .out ∨ wi'.pc.pending ≠ none := hpc.elim (fun h => .inl h.1) (·.1)
      rcases hpc' with hout | hpend
      · rcases hidle with h | h | h | h <;> cases hout.symm.trans h
      · rcases hidle with h | h | h | h <;> · rw [h] at hpend; exact absurd rfl hpend
    · obtain rfl := Option.some.inj (hw'.symm.trans hwi)
      rcases hpc with ⟨hout, -⟩ | ⟨-, fn, ho⟩
      · rw [hout] at hpend
        exact absurd rfl hpend
      · exact ⟨bo', fn, hbo', ho⟩
  have hbusy : ∀ {cli' : Client} {wi' : WorkerInfo}, cli'.worker = some wi' →
      cli'.worker = none → cli'.state ≠ .dataIn := by
    intro cli' wi' hw' hnone
    cases hw'.symm.trans hnone
  have hnone : wi.pc = .openSrc ∨ wi.pc = .cache ∨ wi.pc = .create ∨ wi.pc = .signal →
      cli.outBo = none := how.idle wi hw
  have howns : ∀ {bo : FsObj}, cli.outBo = some bo → wi.pc.pending ≠ none →
      ∃ fn, bo.Owns srv.fs fn ∧ cli.upload = some fn := by
    intro bo hbo hpend
    obtain ⟨bo', fn, hbo', ho⟩ := how.copy wi hw hpend
    obtain rfl := Option.some.inj (hbo'.symm.trans hbo)
    exact ⟨fn, ho, upload_eq_some hbo ho.outFn⟩
  cases h with
  | opened hpc hnext =>
    refine ⟨.same rfl rfl, .of_none (hnone (.inl hpc)) (hbusy rfl) ?_⟩
    rintro wi ⟨⟩
    rcases hnext with h | h <;> rw [h] <;> rfl
  | held hpc _ =>
    refine ⟨.same rfl rfl, .of_none (hnone (.inr (.inl hpc))) (hbusy rfl) ?_⟩
    rintro wi ⟨⟩
    rfl
  | refused hpc _ hnew =>
    have hup := upload_eq_none (hnone (.inr (.inr (.inl hpc))))
    refine ⟨.error hup rfl (fsObjNew_error hnew), .of_none rfl (hbusy rfl) ?_⟩
    rintro wi ⟨⟩
    rfl
  | created hpc _ hnew =>
    have hup := upload_eq_none (hnone (.inr (.inr (.inl hpc))))
    obtain ⟨hgone, ht, ho⟩ := fsObjNew_owns hnew
    exact ⟨.writes ⟨ht, .inr ⟨hup, rfl, hgone⟩⟩ (.inl (upload_eq_some rfl ho.outFn)),
      hcopy rfl rfl (.inr ⟨.inr (by simp [CpAt.pending]), _, ho⟩)⟩
  | @read inObj inLen bs pc hpc hnext =>
    obtain ⟨bo, fn, hbo, ho⟩ := how.copy wi hw (by rw [hpc]; simp [CpAt.pending])
    refine ⟨.same rfl rfl, hcopy rfl hbo (.inr ⟨?_, fn, ho⟩)⟩
    rcases hnext with ⟨rfl | rfl, -⟩ | rfl
    · exact .inl rfl
    · exact .inr (by simp [CpAt.pending])
    · exact .inr (by simp [CpAt.pending])
  | @wrote bs bo bo' fs hpc hbo hwrite =>
    obtain ⟨fn, ho, hup⟩ := howns hbo (by rw [hpc]; simp [CpAt.pending])
    obtain ⟨ht, ho'⟩ := fsObjWrite_owns ho hwrite
    exact ⟨.writes ⟨ht, .inl hup⟩ (.inl (upload_eq_some rfl ho'.outFn)),
      hcopy rfl rfl (.inr ⟨.inr (by simp [CpAt.pending]), fn, ho'⟩)⟩
  | @writeFailed bs bo bo' fs hpc hbo hwrite =>
    obtain ⟨fn, ho, hup⟩ := howns hbo (by rw [hpc]; simp [CpAt.pending])
    obtain ⟨ht, ho'⟩ := fsObjWrite_owns ho hwrite
    exact ⟨.writes ⟨ht, .inl hup⟩ (.inl (upload_eq_some rfl ho'.outFn)),
      hcopy rfl rfl (.inr ⟨.inl rfl, fn, ho'⟩)⟩
  | @committed bo bo' ok fs err hpc hbo hcommit =>
    obtain ⟨fn, ho, hup⟩ := howns hbo (by rw [hpc]; simp [CpAt.pending])
    obtain ⟨ht, hend⟩ := fsObjWriteCommit_owns ho hcommit
    rcases hend with ⟨rfl, hfn⟩ | ⟨rfl, ho'⟩
    · have hup' : (some bo').bind FsObj.outFn = none := hfn
      exact ⟨.commits ⟨ht, .inl hup⟩ hup' (.copied hev hw hpc hbo ho.outFn hcommit),
        hcopy rfl rfl (.inl ⟨rfl, hfn⟩)⟩
    · exact ⟨.writes ⟨ht, .inl hup⟩ (.inl (upload_eq_some rfl ho'.outFn)),
        hcopy rfl rfl (.inr ⟨.inl rfl, fn, ho'⟩)⟩
  | ended _ =>
    refine ⟨.outEnd rfl, .of_none rfl (hbusy rfl) ?_⟩
    rintro wi ⟨⟩
    rfl
  | waits _ => exact ⟨.same rfl rfl, how⟩

/-- What a step of a connection leaves. -/
theorem connStep_left {c : Option Client} (h : connStep e io srv cli ev = some (srv', c))
    (how : cli.Owner srv.fs) :
    cli.Leaves e io srv ev srv'.fs (c.bind fun cli => cli.upload) ∧
      ∀ cli', c = some cli' → cli'.Owner srv'.fs := by
  have hsome : ∀ {srv' : Srv} {cli' : Client}, cli.Left e io srv ev srv' cli' →
      cli.Leaves e io srv ev srv'.fs ((some cli').bind fun cli => cli.upload) ∧
        ∀ cli'', some cli' = some cli'' → cli''.Owner srv'.fs := by
    rintro srv' cli' ⟨hleaves, hown⟩
    refine ⟨hleaves, ?_⟩
    rintro cli'' ⟨⟩
    exact hown
  -- reading, with nothing stored
  have hread : ∀ cli' : Client, cli.Waits cli' → cli.worker = none → cli.outBo = none →
      cli'.state ≠ .dataIn → cli.Left e io srv ev srv cli' := by
    intro cli' hwaits hw hbo hs
    have hbo' : cli'.outBo = none := (congrArg ClientOut.outBo hwaits.out).trans hbo
    refine ⟨.same rfl ((upload_eq_none hbo').trans (upload_eq_none hbo).symm),
      .of_none hbo' (fun _ => hs) fun wi hwi => ?_⟩
    rw [hwaits.worker, hw] at hwi
    cases hwi
  cases connStep_cases h with
  | idle => exact hsome ⟨.same rfl rfl, how⟩
  | writes htx => exact hsome ⟨.same rfl rfl, how.same rfl rfl htx.state⟩
  | waits => exact hsome ⟨.same rfl rfl, how.same rfl rfl (.inl rfl)⟩
  | readFixed _ hs hw =>
    have hwaits := cliEvtRead_waits fixedRead_waits io cli.fixedWant cli
    refine hsome (hread _ hwaits hw (how.quiet hw (by simp [hs]) (by simp [hs])) fun hdata => ?_)
    cases hs.symm.trans (hwaits.state hdata)
  | readVar _ hs hw =>
    have hwaits := cliEvtRead_waits varRead_waits io cli.varWant cli
    refine hsome (hread _ hwaits hw (how.quiet hw (by simp [hs]) (by simp [hs])) fun hdata => ?_)
    cases hs.symm.trans (hwaits.state hdata)
  | exec hev hs hw hexec => exact hsome (hexec.left how hev hs hw)
  | dataIn hev hs hw hin => exact hsome (hin.left how hev hw hs)
  | freed _ _ => exact ⟨.outEnd rfl, by rintro cli' ⟨⟩⟩
  | recycled hs hw =>
    exact hsome (hread _ ⟨rfl, rfl, rfl, rfl, fun h => (by cases h)⟩ hw
      (how.quiet hw (by simp [hs]) (by simp [hs])) (by simp))
  | accepted hs hw hend =>
    refine hsome (hread _ ⟨rfl, rfl, rfl, rfl, fun h => ?_⟩ hw
      (how.quiet hw (by simp [hs]) (by simp [hs])) ?_)
    · rcases hend with rfl | rfl <;> cases h
    · rcases hend with rfl | rfl <;> simp
  | copies hev hw hthr => exact hsome ((workerCpThr_cases hthr).left how hev hw)
  | @copied wi hw hpc =>
    have hbo := how.idle wi hw (.inr (.inr (.inr hpc)))
    have htx := ClientTx.Answered.err e io srv.fs cli.req wi.err (wi.err = .success) cli.toClientTx
    refine hsome ⟨.same rfl rfl, .of_none hbo (fun _ hdata => ?_) fun wi hwi => (by cases hwi)⟩
    rcases htx.state with h | h <;> cases h.symm.trans hdata

end

/-! ## The server -/

/-- A client that is not between two requests writes the file of a name. -/
def Client.Writing (fs : Vol) (cli : Client) (p : Path) : Prop :=
  (cli.worker ≠ none ∨ cli.state = .dataIn ∨ cli.state = .dispose) ∧
    ∃ bo ∈ cli.outBo, bo.outFn = some p ∧ ∃ fd ∈ bo.outFd, fs.lookup p = some fd.1

def Daemon.Writing (d : Daemon) (p : Path) : Prop :=
  ∃ c ∈ d.clients, ∃ cli ∈ c, cli.Writing d.srv.fs p

/-- A step commits an object under a name. -/
def Daemon.Commits (e : Env) (d : Daemon) (ev : DaemonEv) (d' : Daemon) (p : Path) : Prop :=
  ∃ i io cev, ev = .client i io cev ∧ ∃ cli ∈ d.client i, cli.Commits e io d.srv cev d'.srv.fs p

/-- A step deletes the object of a name. -/
def Daemon.Deletes (e : Env) (d : Daemon) (ev : DaemonEv) (p : Path) : Prop :=
  ∃ i io cev, ev = .client i io cev ∧ ∃ cli ∈ d.client i, cli.Deletes e io d.srv cev ∧ cli.path e = p

/-- No file that is being written is deleted, and there is no self-check. -/
def KeepsUploads (e : Env) (d : Option Daemon) : DaemonEv → Prop
  | .accept => True
  | .client i io cev => ∀ d₁ ∈ d, ∀ cli ∈ d₁.client i,
      cli.Deletes e io d₁.srv cev → d₁.uploads (cli.path e) = false
  | .check _ => False

/-- The object of a name is neither committed nor deleted. -/
def Spares (e : Env) (p : Path) (d : Option Daemon) (ev : DaemonEv) : Prop :=
  ∀ d₁ ∈ d, ¬ d₁.Deletes e ev p ∧ ∀ d₂, d₁.step e ev = some d₂ → ¬ d₁.Commits e ev d₂ p

/-- All clients have the files that they write to themselves. -/
structure Daemon.Owned (d : Daemon) : Prop where
  clients : ∀ i cli, d.client i = some cli → cli.Owner d.srv.fs
  distinct : ∀ i j p, d.upload i = some p → d.upload j = some p → i = j

/-- What a step does to the file of a name that it neither commits nor deletes: nothing, or it is the
file of an upload, before or after the step, and there is none without an upload. -/
def Daemon.Keeps (d d' : Daemon) (p : Path) : Prop :=
  d'.srv.fs.content p = d.srv.fs.content p ∧ d'.uploads p = d.uploads p ∨
    (d.uploads p = true ∨ d.srv.fs.content p = none) ∧
      (d'.uploads p = true ∨ d'.srv.fs.content p = none)

section

variable {e : Env} {d d' : Daemon} {p q : Path}

theorem Daemon.init_owned (srv : Srv) : (Daemon.init srv).Owned where
  clients i cli h := by simp [Daemon.init, Daemon.client] at h
  distinct i j p h := by simp [Daemon.init, Daemon.upload, Daemon.client] at h

/-- The file of an upload is there. -/
theorem Daemon.Owned.written (h : d.Owned) {i : Nat} (hup : d.upload i = some p) :
    ∃ ino, d.srv.fs.lookup p = some ino := by
  obtain ⟨cli, hi, hup⟩ := Option.bind_eq_some_iff.mp hup
  obtain ⟨bo, hbo, hfn⟩ := Option.bind_eq_some_iff.mp hup
  obtain ⟨ino, -, hino, -⟩ := ((h.clients i cli hi).owned bo hbo p hfn).file
  exact ⟨ino, hino⟩

theorem Daemon.Owned.writing (h : d.Owned) (hup : d.uploads p = true) : d.Writing p := by
  obtain ⟨i, hi⟩ := Daemon.uploads_iff.mp hup
  obtain ⟨cli, hcli, hup⟩ := Option.bind_eq_some_iff.mp hi
  obtain ⟨bo, hbo, hfn⟩ := Option.bind_eq_some_iff.mp hup
  have how := h.clients i cli hcli
  obtain ⟨ino, pos, hino, hfd⟩ := (how.owned bo hbo p hfn).file
  refine ⟨some cli, List.mem_of_getElem? (Daemon.client_eq_some.mp hcli), cli, rfl, ?_, bo, hbo, hfn,
    (ino, pos), hfd, hino⟩
  by_contra hquiet
  push Not at hquiet
  rw [how.quiet hquiet.1 hquiet.2.1 hquiet.2.2] at hbo
  cases hbo

/-- The server after a step of a connection. -/
def Daemon.after (d : Daemon) (i : Nat) (srv' : Srv) (c : Option Client) : Daemon :=
  { d with srv := srv', clients := d.clients.set i c }

section

variable {i : Nat} {io : Io} {cev : ConnEv} {cli : Client} {srv' : Srv} {c : Option Client}

theorem Daemon.upload_after (hi : d.client i = some cli) (j : Nat) :
    (d.after i srv' c).upload j = if j = i then c.bind fun cli => cli.upload else d.upload j := by
  unfold Daemon.upload Daemon.after
  rw [Daemon.client_set hi]
  split <;> rfl

/-- A step that changes a file that no other client writes. -/
theorem Daemon.Owned.touched (h : d.Owned) (hi : d.client i = some cli)
    (ht : FileSys.Touches q d.srv.fs srv'.fs) (hfree : ∀ j, j ≠ i → d.upload j ≠ some q)
    (hbefore : cli.upload = none ∨ cli.upload = some q)
    (hafter : (c.bind fun cli => cli.upload) = none ∨ (c.bind fun cli => cli.upload) = some q)
    (hown : ∀ cli', c = some cli' → cli'.Owner srv'.fs) :
    (d.after i srv' c).Owned ∧ ∀ p, p ≠ q →
      srv'.fs.content p = d.srv.fs.content p ∧ (d.after i srv' c).uploads p = d.uploads p := by
  have hupload := @Daemon.upload_after d i cli srv' c hi
  have hmine : d.upload i = cli.upload := by rw [Daemon.upload, hi, Option.bind_some]
  have hother : ∀ {p : Path}, p ≠ q → cli.upload ≠ some p ∧ (c.bind fun cli => cli.upload) ≠ some p := by
    intro p hp
    constructor
    · intro hup
      rcases hbefore with h | h <;> rw [h] at hup
      · cases hup
      · exact hp (Option.some.inj hup).symm
    · intro hup
      rcases hafter with h | h <;> rw [h] at hup
      · cases hup
      · exact hp (Option.some.inj hup).symm
  refine ⟨⟨fun j cli' hj => ?_, fun j k p hj hk => ?_⟩, fun p hp => ⟨ht.content hp, ?_⟩⟩
  · unfold Daemon.after at hj
    rw [Daemon.client_set hi] at hj
    split at hj
    · exact hown cli' hj
    · next hne =>
      refine (h.clients j cli' hj).kept ht fun hup => hfree j hne ?_
      rw [Daemon.upload, hj, Option.bind_some, hup]
  · rw [hupload] at hj hk
    split at hj <;> split at hk
    · next hji hki => rw [hji, hki]
    · next _ hki =>
      by_cases hp : p = q
      · exact absurd (hp ▸ hk) (hfree k hki)
      · exact absurd hj (hother hp).2
    · next hji _ =>
      by_cases hp : p = q
      · exact absurd (hp ▸ hj) (hfree j hji)
      · exact absurd hk (hother hp).2
    · exact h.distinct j k p hj hk
  · refine Daemon.uploads_congr fun j => ?_
    rw [hupload]
    split
    · next hji =>
      subst hji
      rw [hmine]
      exact iff_of_false (hother hp).2 (hother hp).1
    · exact Iff.rfl

/-- A client writes to files that are its own. -/
theorem Daemon.Owned.free {fs' : Vol} (h : d.Owned) (hi : d.client i = some cli)
    (hw : cli.Writes e d.srv.fs fs' q) :
    (∀ j, j ≠ i → d.upload j ≠ some q) ∧ (cli.upload = none ∨ cli.upload = some q) ∧
      (d.uploads q = true ∨ d.srv.fs.content q = none) := by
  have hmine : d.upload i = cli.upload := by rw [Daemon.upload, hi, Option.bind_some]
  rcases hw.mine with hup | ⟨hup, -, hnone⟩
  · exact ⟨fun j hj hup' => hj (h.distinct j i q hup' (hmine.trans hup)), .inr hup,
      .inl (Daemon.uploads_iff.mpr ⟨i, hmine.trans hup⟩)⟩
  · refine ⟨fun j _ hup' => ?_, .inl hup, .inr (FileSys.content_eq_none hnone)⟩
    obtain ⟨ino, hino⟩ := h.written hup'
    cases hnone.symm.trans hino

/-- A step of a connection. -/
theorem Daemon.Owned.client (h : d.Owned) (hi : d.client i = some cli)
    (hleaves : cli.Leaves e io d.srv cev srv'.fs (c.bind fun cli => cli.upload))
    (hown : ∀ cli', c = some cli' → cli'.Owner srv'.fs)
    (hok : cli.Deletes e io d.srv cev → d.uploads (cli.path e) = false) :
    (d.after i srv' c).Owned ∧ ∀ p, ¬ d.Deletes e (.client i io cev) p →
      ¬ d.Commits e (.client i io cev) (d.after i srv' c) p → d.Keeps (d.after i srv' c) p := by
  have hupload := @Daemon.upload_after d i cli srv' c hi
  cases hleaves with
  | same hfs hup =>
    have huploads : ∀ j, (d.after i srv' c).upload j = d.upload j := by
      intro j
      rw [hupload]
      split
      · next hji => rw [hji, hup, Daemon.upload, hi, Option.bind_some]
      · rfl
    refine ⟨⟨fun j cli' hj => ?_, fun j k p hj hk => ?_⟩, fun p _ _ => .inl ⟨?_, ?_⟩⟩
    · unfold Daemon.after at hj
      rw [Daemon.client_set hi] at hj
      split at hj
      · exact hown cli' hj
      · change cli'.Owner srv'.fs
        rw [hfs]
        exact h.clients j cli' hj
    · rw [huploads] at hj hk
      exact h.distinct j k p hj hk
    · exact congrArg (fun fs : Vol => fs.content p) hfs
    · exact Daemon.uploads_congr fun j => by rw [huploads]
  | @writes q hw hend =>
    obtain ⟨hfree, hbefore, hq⟩ := h.free hi hw
    obtain ⟨howned, hothers⟩ := h.touched hi hw.touches hfree hbefore
      (hend.elim .inr fun h => .inl h.1) hown
    refine ⟨howned, fun p _ _ => ?_⟩
    by_cases hp : p = q
    · subst hp
      refine .inr ⟨hq, ?_⟩
      rcases hend with hup | ⟨-, hgone⟩
      · refine .inl (Daemon.uploads_iff.mpr ⟨i, ?_⟩)
        rw [hupload, if_pos rfl]
        exact hup
      · exact .inr (FileSys.content_eq_none hgone)
    · exact .inl (hothers p hp)
  | @commits q hw hup hcommit =>
    obtain ⟨hfree, hbefore, -⟩ := h.free hi hw
    obtain ⟨howned, hothers⟩ := h.touched hi hw.touches hfree hbefore (.inl hup) hown
    refine ⟨howned, fun p _ hnot => .inl (hothers p ?_)⟩
    rintro rfl
    exact hnot ⟨i, io, cev, rfl, cli, hi, hcommit⟩
  | deletes hdel hup hup' hfs =>
    have hdeletes : d.Deletes e (.client i io cev) (cli.path e) := ⟨i, io, cev, rfl, cli, hi, hdel, rfl⟩
    have hfree : ∀ j, j ≠ i → d.upload j ≠ some (cli.path e) := by
      intro j _ hj
      have huploads := Daemon.uploads_iff.mpr ⟨j, hj⟩
      rw [hok hdel] at huploads
      cases huploads
    have ht : FileSys.Touches (cli.path e) d.srv.fs srv'.fs := by
      rw [hfs]
      exact FileSys.touches_unlink _ _
    obtain ⟨howned, hothers⟩ := h.touched hi ht hfree (.inl hup) (.inl hup') hown
    refine ⟨howned, fun p hnot _ => .inl (hothers p ?_)⟩
    rintro rfl
    exact hnot hdeletes

end

theorem Daemon.Owned.step {ev : DaemonEv} (h : d.Owned) (hok : KeepsUploads e (some d) ev)
    (hstep : d.step e ev = some d') :
    d'.Owned ∧ ∀ p, ¬ d.Deletes e ev p → ¬ d.Commits e ev d' p → d.Keeps d' p := by
  cases ev with
  | accept =>
    obtain rfl := Option.some.inj hstep
    have hup : ∀ j, Daemon.upload { d with clients := d.clients ++ [some cliAlloc] } j = d.upload j := by
      intro j
      unfold Daemon.upload
      rcases d.client_accept j with heq | ⟨heq, hnone⟩
      · rw [heq]
      · rw [heq, hnone]
        rfl
    refine ⟨⟨fun i cli hi => ?_, fun i j p hi hj => ?_⟩, fun p _ _ => .inl ⟨rfl, ?_⟩⟩
    · rcases d.client_accept i with heq | ⟨heq, -⟩
      · exact h.clients i cli (heq.symm.trans hi)
      · obtain rfl := Option.some.inj (heq.symm.trans hi)
        exact .of_none rfl (fun _ hs => (by cases hs)) (by rintro wi ⟨⟩)
    · rw [hup] at hi hj
      exact h.distinct i j p hi hj
    · exact Daemon.uploads_congr fun j => by rw [hup]
  | client i io cev =>
    simp only [Daemon.step] at hstep
    split at hstep
    · obtain rfl := Option.some.inj hstep
      exact ⟨h, fun p _ _ => .inl ⟨rfl, rfl⟩⟩
    · next cli hi =>
      obtain ⟨⟨srv', c⟩, hconn, rfl⟩ := Option.map_eq_some_iff.mp hstep
      obtain ⟨hleaves, hown⟩ := connStep_left hconn (h.clients i cli hi)
      exact h.client hi hleaves hown (hok d rfl cli hi)
  | check c => exact hok.elim

end

/-! ## Runs -/

/-- What is under a name when nobody writes it. -/
def Daemon.Settled (d : Daemon) (p : Path) (v : Option Bytes) : Prop :=
  (d.uploads p = true → v = none) ∧ (d.uploads p = false → d.srv.fs.content p = v)

theorem Daemon.Keeps.settled {d d' : Daemon} {p : Path} {v : Option Bytes} (h : d.Keeps d' p)
    (hd : d.Settled p v) : d'.Settled p v := by
  rcases h with ⟨hcontent, huploads⟩ | ⟨hbefore, hafter⟩
  · unfold Daemon.Settled
    rw [hcontent, huploads]
    exact hd
  · have hv : v = none := by
      cases hup : d.uploads p with
      | true => exact hd.1 hup
      | false =>
        rw [hup] at hbefore
        rw [← hd.2 hup]
        exact hbefore.resolve_left (by simp)
    refine ⟨fun _ => hv, fun hup => ?_⟩
    rw [hup] at hafter
    rw [hv]
    exact hafter.resolve_left (by simp)

theorem run_owned (e : Env) (srv : Srv) {evs : List DaemonEv} {d : Daemon}
    (hmeets : Meets (daemonNext e) (KeepsUploads e) (some (Daemon.init srv)) evs)
    (hrun : run (daemonNext e) (some (Daemon.init srv)) evs = some d) : d.Owned := by
  have hall : ∀ d, run (daemonNext e) (some (Daemon.init srv)) evs = some d → d.Owned := by
    refine hmeets.invariant (I := fun d : Option Daemon => ∀ d', d = some d' → d'.Owned) ?_ ?_
    · rintro d ⟨⟩
      exact Daemon.init_owned srv
    · intro d ev h hok d' hd'
      obtain ⟨d, rfl, hstep⟩ := Option.bind_eq_some_iff.mp hd'
      exact ((h d rfl).step hok hstep).1
  exact hall d hrun

/-- A later PUT under the name is stored, whoever sends it and in whatever pieces it comes. -/
def Daemon.Storable (e : Env) (d : Daemon) (p : Path) : Prop :=
  ∀ (tableId : Nat) (key data user : Bytes) (feed : Feed) (sync : Bool) (y : Sys),
    p = ⟨tableId, e.sha256 key⟩ → tableId ≠ 0 → keyValid key = true → SmallData data.length →
    (∀ s, y.fails s = false) → (feed.map Prod.fst).flatten = data →
    (∀ piece ∈ feed, ∀ i, (piece.2.2 i).isSome = true) →
      ∃ obj fs₁ fs₂ obj₂, fsObjNew e y d.srv.fs tableId key data.length = (.ok obj, fs₁) ∧
        fsObjWriteAll e fs₁ obj feed = (.all, fs₂, obj₂) ∧
        (fsObjWriteCommit e y fs₂ obj₂ user (e.sha1 data) sync).1 = true

theorem Daemon.storable {e : Env} {d : Daemon} {p : Path} (h : d.srv.fs.content p = none) :
    d.Storable e p := by
  rintro tableId key data user feed sync y rfl htable hkey hsmall hcalm hfeed hshort
  have hnone := lookup_of_content_none h
  have hnew : fsObjNew e y d.srv.fs tableId key data.length =
      (.ok (.created y d.srv.fs.next ⟨tableId, e.sha256 key⟩ key data.length),
        d.srv.fs.creat ⟨tableId, e.sha256 key⟩ y.now) := by
    have hne : key ≠ [] := by
      rintro rfl
      cases hkey
    simp [fsObjNew, hkey, hcalm, fsObjPathname, htable, hne, hnone]
  obtain ⟨-, -, -, fs₂, obj₂, hwrites, -, hcommits⟩ := fsObjNew_uploads hsmall hfeed hshort hnew
  exact ⟨_, _, fs₂, obj₂, hnew, hwrites, hcommits y user (e.sha1 data) sync hcalm⟩

/-- As long as no file that is being written is deleted, the object of a name changes only when one is
committed or deleted. Uploads and copies that do not commit leave it as it was for whoever looks when
none of them is at work, and a name that had no object can be stored to. -/
theorem run_noTrace (e : Env) (srv : Srv) {before rest : List DaemonEv} {d d' : Daemon}
    (hmeets : Meets (daemonNext e) (KeepsUploads e) (some (Daemon.init srv)) (before ++ rest))
    (hrun : run (daemonNext e) (some (Daemon.init srv)) before = some d)
    (hrun' : run (daemonNext e) (some d) rest = some d') {p : Path}
    (hspared : Meets (daemonNext e) (Spares e p) (some d) rest)
    (hfree : ¬ d.Writing p) (hfree' : ¬ d'.Writing p) :
    d'.srv.fs.content p = d.srv.fs.content p ∧
      (d.srv.fs.content p = none → d'.Storable e p) := by
  obtain ⟨hfirst, hlast⟩ := Meets.append.mp hmeets
  have how := run_owned e srv hfirst hrun
  rw [hrun] at hlast
  have hquiet : d.uploads p = false := by
    by_contra hup
    exact hfree (how.writing (by simpa using hup))
  have hsettled : d.Settled p (d.srv.fs.content p) := by
    refine ⟨fun hup => ?_, fun _ => rfl⟩
    rw [hquiet] at hup
    cases hup
  obtain ⟨how', hend⟩ : d'.Owned ∧ d'.Settled p (d.srv.fs.content p) := by
    have hall := (hlast.and hspared).invariant
      (I := fun x : Option Daemon => ∀ x' ∈ x, x'.Owned ∧ x'.Settled p (d.srv.fs.content p)) ?_ ?_
    · exact hall d' hrun'
    · rintro x ⟨⟩
      exact ⟨how, hsettled⟩
    · rintro x ev ih ⟨hok, hspares⟩ x' hx'
      obtain ⟨x, rfl, hstep⟩ := Option.bind_eq_some_iff.mp hx'
      obtain ⟨howx, hx⟩ := ih x rfl
      obtain ⟨howx', hkeeps⟩ := howx.step hok hstep
      obtain ⟨hdel, hcommit⟩ := hspares x rfl
      exact ⟨howx', (hkeeps p hdel (hcommit x' hstep)).settled hx⟩
  have hquiet' : d'.uploads p = false := by
    by_contra hup
    exact hfree' (how'.writing (by simpa using hup))
  have hsame := hend.2 hquiet'
  exact ⟨hsame, fun hnone => Daemon.storable (hsame.trans hnone)⟩

/-! ## Uploads that fail -/

/-- Where `fs_obj_write_commit` can be called. -/
theorem Client.Commits.place {e : Env} {io : Io} {srv : Srv} {cli : Client} {ev : ConnEv} {fs' : Vol}
    {p : Path} (h : cli.Commits e io srv ev fs' p) :
    ev = .worker ∧ (∃ wi ∈ cli.worker, wi.pc = .commit) ∨
      ev = .func ∧ (cli.state = .dataIn ∨ cli.state = .execReq ∧ cli.req.op = .put) := by
  cases h with
  | copied hev hw hpc _ _ _ => exact .inl ⟨hev, _, hw, hpc⟩
  | ended hev hs _ _ _ _ => exact .inr ⟨hev, .inl hs⟩
  | wrote hev hs _ _ _ _ _ => exact .inr ⟨hev, .inl hs⟩
  | empty hev hs hop _ _ _ => exact .inr ⟨hev, .inr ⟨hs, hop⟩⟩

/-- A step in which no object can be committed or deleted. -/
def Harmless (d : Option Daemon) : DaemonEv → Prop
  | .client i _ cev => ∀ d₁ ∈ d, ∀ cli ∈ d₁.client i,
      ¬ (cev = .worker ∧ (∃ wi ∈ cli.worker, wi.pc = .commit)) ∧
        ¬ (cev = .func ∧ (cli.state = .dataIn ∨
          cli.state = .execReq ∧ (cli.req.op = .put ∨ cli.req.op = .del)))
  | _ => True

theorem Harmless.spares {d : Option Daemon} {ev : DaemonEv} (h : Harmless d ev) (e : Env) (p : Path) :
    Spares e p d ev := by
  refine fun d₁ hd₁ => ⟨?_, fun d₂ _ => ?_⟩
  · rintro ⟨i, io, cev, rfl, cli, hcli, hdel, -⟩
    exact (h d₁ hd₁ cli hcli).2 ⟨hdel.func, .inr ⟨hdel.state, .inr hdel.op⟩⟩
  · rintro ⟨i, io, cev, rfl, cli, hcli, hcommit⟩
    obtain ⟨hworker, hfunc⟩ := h d₁ hd₁ cli hcli
    rcases hcommit.place with hw | ⟨hev, hs | ⟨hs, hop⟩⟩
    · exact hworker hw
    · exact hfunc ⟨hev, .inl hs⟩
    · exact hfunc ⟨hev, .inr ⟨hs, .inl hop⟩⟩

instance (fs : Vol) (cli : Client) (p : Path) : Decidable (cli.Writing fs p) :=
  inferInstanceAs (Decidable (_ ∧ _))

instance (d : Daemon) (p : Path) : Decidable (d.Writing p) :=
  inferInstanceAs (Decidable (∃ c ∈ d.clients, ∃ cli ∈ c, cli.Writing d.srv.fs p))

instance (e : Env) (io : Io) (srv : Srv) (cli : Client) (ev : ConnEv) :
    Decidable (cli.Deletes e io srv ev) :=
  decidable_of_iff
    (ev = .func ∧ cli.state = .execReq ∧ cli.req.op = .del ∧ cli.loggedIn = true ∧
      cli.verifies e cli.user = true ∧ cli.tableLen ≠ 0 ∧
      (fsObjDelete e io.sys srv.fs cli.tableId cli.user cli.keyBytes).1 = none)
    ⟨fun ⟨h₁, h₂, h₃, h₄, h₅, h₆, h₇⟩ => ⟨h₁, h₂, h₃, h₄, h₅, h₆, h₇⟩,
      fun h => ⟨h.func, h.state, h.op, h.loggedIn, h.verifies, h.table, h.deleted⟩⟩

instance KeepsUploads.decidable (e : Env) (d : Option Daemon) :
    (ev : DaemonEv) → Decidable (KeepsUploads e d ev)
  | .accept => .isTrue trivial
  | .client i io cev => inferInstanceAs (Decidable (∀ d₁ ∈ d, ∀ cli ∈ d₁.client i,
      cli.Deletes e io d₁.srv cev → d₁.uploads (cli.path e) = false))
  | .check _ => .isFalse id

instance Harmless.decidable (d : Option Daemon) : (ev : DaemonEv) → Decidable (Harmless d ev)
  | .accept | .check _ => .isTrue trivial
  | .client i _ cev => inferInstanceAs (Decidable (∀ d₁ ∈ d, ∀ cli ∈ d₁.client i,
      ¬ (cev = .worker ∧ (∃ wi ∈ cli.worker, wi.pc = .commit)) ∧
        ¬ (cev = .func ∧ (cli.state = .dataIn ∨
          cli.state = .execReq ∧ (cli.req.op = .put ∨ cli.req.op = .del)))))

/-- With the signatures of a copy from `k` to `z`, and of a DEL and a PUT of `z`. -/
def Env.copying : Env :=
  { Env.storing with
    b64hmac := fun key bs =>
      match key, (bs.drop 12).head? with
      | [0x75], some 14 => ascii "csXMGvT1GUJuzLQ8//knQBHw4+8="
      | [0x75], some 15 => ascii "HmOoJp9HjpnCg2nGZyr8ARydpoU="
      | [0x75], some 16 => ascii "wCbIodNOlws5ElK/KeeNh+GOQ+M="
      | _, _ => Env.storing.b64hmac key bs }

/-- The client asks to copy `k` to `z`. -/
def cpReads : List (Io × ConnEv) :=
  [reads (signedHdr .cp 0 14 1 1 "csXMGvT1GUJuzLQ8//knQBHw4+8="), reads [0x7a], reads [0x6b], reads []]

/-- A step of the thread of a copy, on such a system. -/
def works (y : Sys) : Io × ConnEv := ({ (reads []).1 with sys := y }, .worker)

/-- The copy ends, and its client is told. -/
def cpEnds : List (Io × ConnEv) := [works .calm, ((reads []).1, .pipe), writes, reads []]

def ofClient (i : Nat) (is : List (Io × ConnEv)) : List DaemonEv := is.map fun x => .client i x.1 x.2

/-- The path of `z`. -/
def zPath : Path := ⟨1, Env.sample.sha256 [0x7a]⟩

/-- A copy whose `write` fails. -/
def failsWriting : List (Io × ConnEv) :=
  cpReads ++ List.replicate 4 (works .calm) ++ [works { Sys.calm with writes := fun _ _ => none }] ++ cpEnds

theorem run_noTrace_copy : ∃ d d',
    run (daemonNext .copying) (some (Daemon.init bareSrv)) (firstClient (putReads ++ bodyReads)) = some d ∧
      run (daemonNext .copying) (some d) (ofClient 0 failsWriting) = some d' ∧
      (∃ cli ∈ d'.client 0, cli.executed.length = 4 ∧ cli.state = .readFixed ∧ cli.worker = none) ∧
      d'.srv.fs.content zPath = none ∧ d'.Storable .copying zPath := by
  have hends : ∃ d ∈ run (daemonNext .copying) (some (Daemon.init bareSrv))
      (firstClient (putReads ++ bodyReads)),
      ∃ d' ∈ run (daemonNext .copying) (some d) (ofClient 0 failsWriting),
        (∃ cli ∈ d'.client 0, cli.executed.length = 4 ∧ cli.state = .readFixed ∧ cli.worker = none) ∧
          d.srv.fs.content zPath = none ∧ ¬ d.Writing zPath ∧ ¬ d'.Writing zPath ∧
          Meets (daemonNext .copying) Harmless (some d) (ofClient 0 failsWriting) := by
    decide +kernel
  obtain ⟨d, hd, d', hd', hcli, hnone, hfree, hfree', hharmless⟩ := hends
  have hspared : Meets (daemonNext .copying) (Spares .copying zPath) (some d) (ofClient 0 failsWriting) :=
    hharmless.imp fun _ _ _ h => h.spares _ _
  obtain ⟨hsame, hstorable⟩ := run_noTrace .copying bareSrv (by decide +kernel) hd hd' hspared hfree hfree'
  exact ⟨d, d', hd, hd', hcli, hsame.trans hnone, hstorable hnone⟩

/-- A copy of which the `writev` of the header has written no more than the header. -/
def halfCopied : List (Io × ConnEv) :=
  cpReads ++ List.replicate 6 (works .calm) ++
    [works { Sys.calm with fails := fun s => s = .commitWritev, short := beFsObjHdrSz }]

/-- A second client of the user deletes `z` and stores it. -/
def restores : List (Io × ConnEv) :=
  [reads loginMsg.req.creq, reads [0x75]] ++ serves ++ [reads openMsg.req.creq, reads [0x74]] ++ serves ++
    [reads (signedHdr .del 0 15 1 0 "HmOoJp9HjpnCg2nGZyr8ARydpoU="), reads [0x7a]] ++ serves ++
    [reads (signedHdr .put 0 16 1 3 "wCbIodNOlws5ElK/KeeNh+GOQ+M="), reads [0x7a], reads []] ++ bodyReads

/-- The end of the copy takes away what the second client has stored. -/
theorem halfCopied_trace : ∃ d d',
    run (daemonNext .copying) (some (Daemon.init bareSrv))
        (firstClient (putReads ++ bodyReads ++ halfCopied) ++ .accept :: ofClient 1 restores) = some d ∧
      run (daemonNext .copying) (some d) (ofClient 0 cpEnds) = some d' ∧
      Meets (daemonNext .copying) (Spares .copying zPath) (some d) (ofClient 0 cpEnds) ∧
      ¬ d.Writing zPath ∧ ¬ d'.Writing zPath ∧
      d.srv.fs.content zPath = some (storedFile .copying [0x7a] [0x75] abc) ∧
      d'.srv.fs.content zPath = none := by
  have hends : ∃ d ∈ run (daemonNext .copying) (some (Daemon.init bareSrv))
      (firstClient (putReads ++ bodyReads ++ halfCopied) ++ .accept :: ofClient 1 restores),
      ∃ d' ∈ run (daemonNext .copying) (some d) (ofClient 0 cpEnds),
        Meets (daemonNext .copying) Harmless (some d) (ofClient 0 cpEnds) ∧
        ¬ d.Writing zPath ∧ ¬ d'.Writing zPath ∧
        d.srv.fs.content zPath = some (storedFile .copying [0x7a] [0x75] abc) ∧
        d'.srv.fs.content zPath = none := by
    decide +kernel
  obtain ⟨d, hd, d', hd', hharmless, h⟩ := hends
  exact ⟨d, d', hd, hd', hharmless.imp fun _ _ _ h => h.spares _ _, h⟩

end Hail.Chunkd
