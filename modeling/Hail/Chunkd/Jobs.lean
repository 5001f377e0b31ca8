import Hail.Chunkd.Actives
import Hail.Chunkd.Uploads

/-!
# Uploads, copies and deletions call by call

The server's thread stores and deletes objects, and threads of their own copy them. Here each call that
changes a file or the object cache is a step of its own, and the functions of the server are runs of such
steps.
-/
namespace Hail.Chunkd

open Library

/-! ## The calls -/

/-- `fs_obj_new` up to its `open`, which makes the file. -/
def fsObjNewOpen (e : Env) (y : Sys) (fs : Vol) (tableId : Nat) (key : Bytes) :
    Except ChunkErrcode Path :=
  if !keyValid key then .error .invalidKey
  else if y.fails .newAlloc then .error .internalError
  else if y.fails .newCsumTbl then .error .internalError
  else
    match fsObjPathname e (y.fails .newPathname) tableId key with
    | none => .error .internalError
    | some fn =>
      if y.fails .newFile then .error .internalError
      else if (fs.lookup fn).isSome then .error .keyExists
      else .ok fn

/-- `fs_obj_delete` up to its `unlink`: the code of a failure, or the file. -/
def fsObjDeleteHdr (e : Env) (y : Sys) (fs : Vol) (tableId : Nat) (user key : Bytes) :
    Except ChunkErrcode Path :=
  if !keyValid key then .error .invalidKey
  else
    match fsObjPathname e (y.fails .delPathname) tableId key with
    | none => .error .internalError
    | some fn =>
      if y.fails .delFile then .error .internalError
      else
        match fs.lookup fn with
        | none => .error .noSuchKey
        | some ino =>
          let data := (fs.file ino).data
          let hdr := BeFsObjHdr.ofBytes (data.take beFsObjHdrSz)
          if y.fails .delHdr ∨ data.length < beFsObjHdrSz then .error .internalError
          else if y.fails .delClose then .error .internalError
          else if hdr.magic ≠ beFsObjMagic then .error .internalError
          else if cstr user ≠ cstr hdr.owner then .error .accessDenied
          else .ok fn

/-- Where a PUT, CP or DEL is: at no work, with the entry of its key, with its file, before `fs_obj_free`,
before `objcache_put`, or before the `unlink` of `fs_obj_delete`. -/
inductive JobAt where
  | idle | held | body | ending | freed
  | deleting (fn : Path)
  deriving DecidableEq, Repr

/-- What a connection or the thread of a copy works on. -/
structure Job where
  pc : JobAt := .idle
  tableId : Nat := 0
  key : Bytes := []
  outBo : Option FsObj := none
  outCe : Option UInt32 := none

/-- The next call: `objcache_get_dirty`, `fs_obj_new`, a `write` of some bytes in `fs_obj_write`,
`fs_obj_write_commit`, `fs_obj_free`, `objcache_put`, and of `fs_obj_delete` what comes before the `unlink`,
and that. An upload may be given up, and a PUT that is refused leaves without `objcache_put`. -/
inductive JobEv where
  | get (tableId : Nat) (key : Bytes) (fails : Bool)
  | new (y : Sys) (dataLen : Nat)
  | write (bs : Bytes) (now : Nat)
  | commit (y : Sys) (user md : Bytes) (sync : Bool)
  | giveUp | free | put | leave
  | delOpen (y : Sys) (tableId : Nat) (user key : Bytes)
  | delUnlink (fails : Bool)

/-- The file that is open for writing. -/
def Job.fd (j : Job) : Option Nat := j.outBo.bind fun bo => bo.outFd.map Prod.fst

/-- A call made where it is not due does nothing. The result is `none` if the process dies. -/
def jobStep (e : Env) (srv : Srv) (j : Job) : JobEv → Option (Srv × Job)
  | .get tableId key fails =>
    if j.pc ≠ .idle then some (srv, j)
    else
      match objcacheGet fails srv.actives key true with
      | none => none
      | some (cep, actives) =>
        some ({ srv with actives }, { pc := .held, tableId, key, outBo := none, outCe := some cep })
  | .new y dataLen =>
    if j.pc ≠ .held then some (srv, j)
    else
      match fsObjNewOpen e y srv.fs j.tableId j.key with
      | .error _ => some (srv, { j with pc := .freed })
      | .ok fn =>
        some ({ srv with fs := srv.fs.creat fn y.now },
          { j with pc := .body, outBo := some (.created y srv.fs.next fn j.key dataLen) })
  | .write bs now =>
    match j.pc, j.outBo with
    | .body, some bo =>
      match bo.outFd with
      | none => some (srv, j)
      | some (ino, pos) =>
        some ({ srv with fs := srv.fs.write ino pos bs now },
          { j with outBo := some (bo.wrote e ino pos bs) })
    | _, _ => some (srv, j)
  | .commit y user md sync =>
    match j.pc, j.outBo with
    | .body, some bo =>
      match fsObjWriteCommit e y srv.fs bo user md sync with
      | (_, fs, bo) => some ({ srv with fs }, { j with pc := .ending, outBo := some bo })
    | _, _ => some (srv, j)
  | .giveUp => some (srv, if j.pc = .body then { j with pc := .ending } else j)
  | .free =>
    match j.pc, j.outBo with
    | .ending, some bo =>
      some ({ srv with fs := fsObjFree srv.fs bo }, { j with pc := .freed, outBo := none })
    | _, _ => some (srv, j)
  | .put =>
    match j.pc, j.outCe with
    | .freed, some cep =>
      some ({ srv with actives := objcachePut srv.actives cep }, { j with pc := .idle, outCe := none })
    | _, _ => some (srv, j)
  | .leave => some (srv, if j.pc = .freed then { j with pc := .idle } else j)
  | .delOpen y tableId user key =>
    if j.pc ≠ .idle then some (srv, j)
    else
      match fsObjDeleteHdr e y srv.fs tableId user key with
      | .error _ => some (srv, j)
      | .ok fn => some (srv, { j with pc := .deleting fn })
  | .delUnlink fails =>
    match j.pc with
    | .deleting fn =>
      some (if fails then srv else { srv with fs := srv.fs.unlink fn }, { j with pc := .idle })
    | _ => some (srv, j)

/-! ## What a step of a job changes -/

/-- The descriptor of a job is closed, or is the same. -/
def Job.Keeps (j j' : Job) : Prop := (j'.fd = j.fd ∨ j'.fd = none) ∧ (j'.pc = .held → j' = j)

inductive Job.Change (e : Env) (srv : Srv) (j : Job) (ev : JobEv) (srv' : Srv) (j' : Job) : Prop
  | same (hsrv : srv' = srv) (hce : j'.outCe = j.outCe) (hkeeps : j.Keeps j')
  | got {cep : UInt32} {actives : Objcache} {fails : Bool}
      (hget : objcacheGet fails srv.actives j'.key true = some (cep, actives))
      (hsrv : srv' = { srv with actives }) (hce : j'.outCe = some cep) (hfd : j'.fd = none)
  | made {y : Sys} {n : Nat} {fn : Path} (hev : ev = .new y n) (hpc : j.pc = .held)
      (hfn : fsObjNewOpen e y srv.fs j.tableId j.key = .ok fn)
      (hsrv : srv' = { srv with fs := srv.fs.creat fn y.now }) (hce : j'.outCe = j.outCe)
      (hfd : j'.fd = some srv.fs.next) (hpc' : j'.pc ≠ .held)
  | wrote {ino pos now : Nat} {bs : Bytes} (hfd : j.fd = some ino)
      (hsrv : srv' = { srv with fs := srv.fs.write ino pos bs now }) (hce : j'.outCe = j.outCe)
      (hkeeps : j.Keeps j')
  | unlinked {fn : Path} (hsrv : srv' = { srv with fs := srv.fs.unlink fn }) (hce : j'.outCe = j.outCe)
      (hkeeps : j.Keeps j')
  | put {cep : UInt32} (hce : j.outCe = some cep)
      (hsrv : srv' = { srv with actives := objcachePut srv.actives cep }) (hce' : j'.outCe = none)
      (hkeeps : j.Keeps j')

section

variable {e : Env} {srv srv' : Srv} {j j' : Job} {ev : JobEv}

theorem fsObjNewOpen_eq {y : Sys} {fs : Vol} {tableId : Nat} {key : Bytes} {fn : Path}
    (h : fsObjNewOpen e y fs tableId key = .ok fn) : fn = ⟨tableId, e.sha256 key⟩ := by
  unfold fsObjNewOpen at h
  grind [fsObjPathname_some, pathname_eq]

/-- A commit writes to the file of the object at most, and closes it at most. -/
theorem fsObjWriteCommit_change {y : Sys} {fs fs' : Vol} {bo bo' : FsObj} {user md : Bytes}
    {sync ok : Bool} (h : fsObjWriteCommit e y fs bo user md sync = (ok, fs', bo')) :
    (bo'.outFd = bo.outFd ∨ bo'.outFd = none) ∧
      (fs' = fs ∨ ∃ ino pos bs now, bo.outFd = some (ino, pos) ∧ fs' = fs.write ino 0 bs now) := by
  have hclosed := closed_outFd e bo
  unfold fsObjWriteCommit at h
  grind

theorem Job.Keeps.of_fd (hfd : j'.fd = j.fd ∨ j'.fd = none) (hpc : j'.pc ≠ .held) : j.Keeps j' :=
  ⟨hfd, fun h => absurd h hpc⟩

theorem fd_wrote {bo : FsObj} {ino pos : Nat} (h : bo.outFd = some (ino, pos)) (bs : Bytes) :
    ((bo.wrote e ino pos bs).outFd.map Prod.fst) = bo.outFd.map Prod.fst := by
  rw [(wrote_out e bo ino pos bs).1, h]
  rfl

theorem Job.Change.refl (e : Env) (srv : Srv) (j : Job) (ev : JobEv) : j.Change e srv ev srv j :=
  .same rfl rfl ⟨.inl rfl, fun _ => rfl⟩

theorem jobStep_commit {y : Sys} {user md : Bytes} {sync : Bool}
    (h : jobStep e srv j (.commit y user md sync) = some (srv', j')) :
    j.Change e srv (.commit y user md sync) srv' j' := by
  simp only [jobStep] at h
  split at h
  · next bo hpc hbo =>
    rcases hcommit : fsObjWriteCommit e y srv.fs bo user md sync with ⟨ok, fs, bo'⟩
    rw [hcommit] at h
    cases h
    obtain ⟨hfd, hfs⟩ := fsObjWriteCommit_change hcommit
    have hkeeps : j.Keeps { j with pc := .ending, outBo := some bo' } := by
      apply Job.Keeps.of_fd ?_ (by simp)
      rcases hfd with hfd | hfd <;> simp [Job.fd, hbo, hfd]
    rcases hfs with rfl | ⟨ino, pos, bs, now, hino, rfl⟩
    · exact .same rfl rfl hkeeps
    · exact .wrote (by simp [Job.fd, hbo, hino]) rfl rfl hkeeps
  · cases h
    exact .refl e srv j _

theorem jobStep_change (h : jobStep e srv j ev = some (srv', j')) : j.Change e srv ev srv' j' := by
  have hrefl := Job.Change.refl e srv j ev
  cases ev with
  | get tableId key fails =>
    simp only [jobStep] at h
    split at h
    · cases h
      exact hrefl
    · split at h
      · cases h
      · next hget =>
        cases h
        exact .got hget rfl rfl rfl
  | new y n =>
    simp only [jobStep] at h
    split at h
    · cases h
      exact hrefl
    · next hpc =>
      split at h <;> cases h
      · exact .same rfl rfl (.of_fd (.inl rfl) (by simp))
      · next hfn => exact .made rfl (not_not.mp hpc) hfn rfl rfl rfl (by simp)
  | write bs now =>
    simp only [jobStep] at h
    split at h
    · next bo hpc hbo =>
      split at h <;> cases h
      · exact hrefl
      · next ino pos hfd =>
        have hino : j.fd = some ino := by simp [Job.fd, hbo, hfd]
        refine .wrote hino rfl rfl (.of_fd (.inl ?_) (by simp [hpc]))
        simp [Job.fd, hbo, fd_wrote hfd]
    · cases h
      exact hrefl
  | commit y user md sync => exact jobStep_commit h
  | giveUp =>
    cases h
    split
    · exact .same rfl rfl (.of_fd (.inl rfl) (by simp))
    · exact hrefl
  | free =>
    simp only [jobStep] at h
    split at h
    · next bo hpc hbo =>
      cases h
      have hkeeps : j.Keeps { j with pc := .freed, outBo := none } := .of_fd (.inr rfl) (by simp)
      unfold fsObjFree
      split
      · exact .unlinked rfl rfl hkeeps
      · exact .same rfl rfl hkeeps
    · cases h
      exact hrefl
  | put =>
    simp only [jobStep] at h
    split at h
    · next cep hpc hce =>
      cases h
      exact .put hce rfl rfl (.of_fd (.inl rfl) (by simp))
    · cases h
      exact hrefl
  | leave =>
    cases h
    split
    · exact .same rfl rfl (.of_fd (.inl rfl) (by simp))
    · exact hrefl
  | delOpen y tableId user key =>
    simp only [jobStep] at h
    split at h
    · cases h
      exact hrefl
    · split at h <;> cases h
      · exact hrefl
      · exact .same rfl rfl (.of_fd (.inl rfl) (by simp))
  | delUnlink fails =>
    simp only [jobStep] at h
    split at h
    · cases h
      split
      · exact .same rfl rfl (.of_fd (.inl rfl) (by simp))
      · exact .unlinked rfl rfl (.of_fd (.inl rfl) (by simp))
    · cases h
      exact hrefl

end

/-! ## The functions of the server -/

def jobNext (e : Env) (s : Option (Srv × Job)) (ev : JobEv) : Option (Srv × Job) :=
  s.bind fun r => jobStep e r.1 r.2 ev

/-- Some calls of a job lead from one state to another. -/
def Job.Does (e : Env) (srv : Srv) (j : Job) (srv' : Srv) (j' : Job) : Prop :=
  ∃ evs, run (jobNext e) (some (srv, j)) evs = some (srv', j')

/-- What a client works on. -/
def Client.job (cli : Client) : Job where
  pc :=
    match cli.worker with
    | none => if cli.outBo.isSome then .body else .idle
    | some wi =>
      match wi.pc with
      | .openSrc | .cache | .signal => .idle
      | .create => .held
      | .read | .write _ | .commit => .body
      | .out => if cli.outBo.isSome then .ending else if cli.outCe.isSome then .freed else .idle
  tableId := cli.tableId
  key := cli.keyBytes
  outBo := cli.outBo
  outCe := cli.outCe

section

variable {e : Env} {io : Io} {srv srv' srv'' : Srv} {j j' j'' : Job} {cli cli' : Client}

theorem Job.Does.refl (e : Env) (srv : Srv) (j : Job) : Job.Does e srv j srv j := ⟨[], rfl⟩

theorem Job.Does.trans (h : Job.Does e srv j srv' j') (h' : Job.Does e srv' j' srv'' j'') :
    Job.Does e srv j srv'' j'' := by
  obtain ⟨evs, hevs⟩ := h
  obtain ⟨evs', hevs'⟩ := h'
  exact ⟨evs ++ evs', by rw [run_append, hevs, hevs']⟩

theorem Job.Does.step (ev : JobEv) (h : jobStep e srv j ev = some (srv', j')) :
    Job.Does e srv j srv' j' := ⟨[ev], h⟩

/-- `fs_obj_new` removes the file that it cannot use. -/
theorem fsObjNew_eq (e : Env) (y : Sys) (fs : Vol) (tableId : Nat) (key : Bytes) (n : Nat) :
    fsObjNew e y fs tableId key n =
      match fsObjNewOpen e y fs tableId key with
      | .error err => (.error err, fs)
      | .ok fn =>
        if y.fails .newSeek ∨ y.fails .newKey then
          (.error .internalError, fsObjFree (fs.creat fn y.now) (.created y fs.next fn key n))
        else (.ok (.created y fs.next fn key n), fs.creat fn y.now) := by
  unfold fsObjNew fsObjNewOpen
  grind

theorem fsObjDelete_eq (e : Env) (y : Sys) (fs : Vol) (tableId : Nat) (user key : Bytes) :
    fsObjDelete e y fs tableId user key =
      match fsObjDeleteHdr e y fs tableId user key with
      | .error err => (some err, fs)
      | .ok fn => if y.fails .delUnlink then (some .internalError, fs) else (none, fs.unlink fn) := by
  unfold fsObjDelete fsObjDeleteHdr
  cases fsObjPathname e (y.fails .delPathname) tableId key with
  | none =>
    dsimp only
    split_ifs <;> rfl
  | some fn =>
    dsimp only
    cases fs.lookup fn with
    | none =>
      dsimp only
      split_ifs <;> rfl
    | some ino =>
      dsimp only
      split_ifs <;> rfl

/-- An object that cannot be made. -/
theorem does_newFails {y : Sys} {n : Nat} {err : ChunkErrcode} {fs : Vol} (hpc : j.pc = .held)
    (hbo : j.outBo = none) (h : fsObjNew e y srv.fs j.tableId j.key n = (.error err, fs)) :
    Job.Does e srv j { srv with fs } { j with pc := .freed } := by
  rw [fsObjNew_eq] at h
  cases hopen : fsObjNewOpen e y srv.fs j.tableId j.key with
  | error err' =>
    simp only [hopen] at h
    cases h
    exact .step (.new y n) (by simp [jobStep, hpc, hopen])
  | ok fn =>
    simp only [hopen] at h
    split at h
    · cases h
      exact ⟨[.new y n, .giveUp, .free], by simp [run, jobNext, jobStep, hpc, hopen, hbo]⟩
    · cases h

theorem does_new {y : Sys} {n : Nat} {bo : FsObj} {fs : Vol} (hpc : j.pc = .held)
    (h : fsObjNew e y srv.fs j.tableId j.key n = (.ok bo, fs)) :
    Job.Does e srv j { srv with fs } { j with pc := .body, outBo := some bo } := by
  rw [fsObjNew_eq] at h
  cases hopen : fsObjNewOpen e y srv.fs j.tableId j.key with
  | error err' =>
    simp only [hopen] at h
    cases h
  | ok fn =>
    simp only [hopen] at h
    split at h
    · cases h
    · cases h
      exact .step (.new y n) (by simp [jobStep, hpc, hopen])

theorem does_write {now : Nat} {write : Nat → Option Nat} {bo bo' : FsObj} {bs : Bytes} {r : WriteEnd}
    {fs : Vol} (hpc : j.pc = .body) (hbo : j.outBo = some bo)
    (h : fsObjWrite e now write srv.fs bo bs = (r, fs, bo')) :
    Job.Does e srv j { srv with fs } { j with outBo := some bo' } := by
  have hany := @fsObjWriteLoop_any e
    (fun fs bo' => Job.Does e srv j { srv with fs } { j with outBo := some bo' }) now ?_ write bs.length 0
    srv.fs bo bs ?_
  · rw [show fsObjWriteLoop e now write bs.length 0 srv.fs bo bs = _ from h] at hany
    exact hany
  · intro fs bo' ino pos bs' hdoes hfd
    apply hdoes.trans
    exact .step (.write bs' now) (by simp [jobStep, hpc, hfd])
  · have hj : ({ j with outBo := some bo } : Job) = j := by rw [← hbo]
    rw [hj]
    exact .refl e srv j

theorem does_commit {y : Sys} {user md : Bytes} {sync ok : Bool} {bo bo' : FsObj} {fs : Vol}
    (hpc : j.pc = .body) (hbo : j.outBo = some bo)
    (h : fsObjWriteCommit e y srv.fs bo user md sync = (ok, fs, bo')) :
    Job.Does e srv j { srv with fs } { j with pc := .ending, outBo := some bo' } :=
  .step (.commit y user md sync) (by simp [jobStep, hpc, hbo, h])

/-- `cli_out_end` of an upload or a copy that has a file. -/
theorem does_outEnd (out : ClientOut) {bo : FsObj} (hpc : j.pc = .body ∨ j.pc = .ending)
    (hbo : j.outBo = some bo) (hbo' : out.outBo = some bo) (hce : j.outCe = out.outCe) :
    Job.Does e srv j (cliOutEnd srv out).1 { j with pc := .idle, outBo := none, outCe := none } := by
  have hends : Job.Does e srv j srv { j with pc := .ending } := by
    rcases hpc with hpc | hpc
    · exact .step .giveUp (by simp [jobStep, hpc])
    · have hj : ({ j with pc := .ending } : Job) = j := by rw [← hpc]
      rw [hj]
      exact .refl e srv j
  apply hends.trans
  cases hout : out.outCe with
  | none =>
    refine ⟨[.free, .leave], ?_⟩
    simp [run, jobNext, jobStep, cliOutEnd, hbo, hbo', hce, hout]
  | some cep =>
    refine ⟨[.free, .put], ?_⟩
    simp [run, jobNext, jobStep, cliOutEnd, hbo, hbo', hce, hout]

/-- `cli_out_end` of a copy that has no file. -/
theorem does_outPut (out : ClientOut) {cep : UInt32} (hpc : j.pc = .freed) (hbo : out.outBo = none)
    (hce : j.outCe = some cep) (hce' : out.outCe = some cep) :
    Job.Does e srv j (cliOutEnd srv out).1 { j with pc := .idle, outCe := none } :=
  .step .put (by simp [jobStep, cliOutEnd, hpc, hbo, hce, hce'])

theorem does_delete {y : Sys} {user : Bytes} {r : Option ChunkErrcode} {fs : Vol} (hpc : j.pc = .idle)
    (h : fsObjDelete e y srv.fs j.tableId user j.key = (r, fs)) :
    Job.Does e srv j { srv with fs } j := by
  have hj : ({ j with pc := .idle } : Job) = j := by rw [← hpc]
  rw [fsObjDelete_eq] at h
  cases hhdr : fsObjDeleteHdr e y srv.fs j.tableId user j.key with
  | error err =>
    simp only [hhdr] at h
    cases h
    exact .refl e srv j
  | ok fn =>
    simp only [hhdr] at h
    refine ⟨[.delOpen y j.tableId user j.key, .delUnlink (y.fails .delUnlink)], ?_⟩
    split at h
    all_goals
      next hfails =>
      cases h
      simp [run, jobNext, jobStep, hpc, hhdr, hj, hfails]

/-! A PUT, a DEL and a copy are such calls. -/

theorem Client.job_idle (hw : cli.worker = none) (hbo : cli.outBo = none) :
    cli.job = ⟨.idle, cli.tableId, cli.keyBytes, none, cli.outCe⟩ := by
  simp [Client.job, hw, hbo]

theorem Client.job_body {bo : FsObj} (hw : cli.worker = none) (hbo : cli.outBo = some bo) :
    cli.job = ⟨.body, cli.tableId, cli.keyBytes, some bo, cli.outCe⟩ := by
  simp [Client.job, hw, hbo]

theorem objectDel_does (hbo : cli.outBo = none) (hw : cli.worker = none)
    (h : objectDel e io srv cli = (srv', cli')) : Job.Does e srv cli.job srv' cli'.job := by
  have hpc : cli.job.pc = .idle := by rw [Client.job_idle hw hbo]
  unfold objectDel at h
  split at h
  · cases h
    exact .refl e srv _
  · split at h
    all_goals
      next hdel =>
      cases h
      exact does_delete hpc hdel

/-- A client that goes away in an upload. -/
theorem cliFree_does {bo : FsObj} (hw : cli.worker = none) (hbo : cli.outBo = some bo) :
    Job.Does e srv cli.job (cliFree srv cli) ⟨.idle, cli.tableId, cli.keyBytes, none, none⟩ := by
  rw [Client.job_body hw hbo]
  exact does_outEnd cli.toClientOut (.inl rfl) rfl hbo rfl

theorem objectPutEnd_does (hw : cli.worker = none)
    (h : objectPutEnd e io srv cli = some (srv', cli')) : Job.Does e srv cli.job srv' cli'.job := by
  unfold objectPutEnd at h
  split at h
  · cases h
    exact .refl e srv _
  · split at h
    · next bo user hbo huser =>
      rcases hcommit : fsObjWriteCommit e io.sys srv.fs bo user (e.sha1 cli.outHash)
        (has cli.req.flags chfSync) with ⟨ok, fs, bo'⟩
      rw [Client.job_body hw hbo]
      apply Job.Does.trans (does_commit rfl rfl hcommit)
      simp only [hcommit] at h
      split at h
      all_goals
        cases h
        rw [Client.job_idle (by exact hw) rfl]
        exact does_outEnd { cli.toClientOut with outBo := some bo' } (.inr rfl) rfl rfl rfl
    · cases h

theorem objectPut_does (hbo : cli.outBo = none) (hw : cli.worker = none)
    (h : objectPut e io srv cli = some (srv', cli')) : Job.Does e srv cli.job srv' cli'.job := by
  rw [Client.job_idle hw hbo]
  unfold objectPut at h
  dsimp only at h
  split at h
  · cases h
  · next cep actives hget =>
    have hheld : Job.Does e srv ⟨.idle, cli.tableId, cli.keyBytes, none, cli.outCe⟩ { srv with actives }
        ⟨.held, cli.tableId, cli.keyBytes, none, some cep⟩ :=
      .step (.get cli.tableId cli.keyBytes (io.sys.fails .cacheEntry)) (by simp [jobStep, hget])
    apply hheld.trans
    split at h
    · next err fs hnew =>
      cases h
      rw [Client.job_idle (by exact hw) rfl]
      have hfails := @does_newFails e { srv with actives }
        ⟨.held, cli.tableId, cli.keyBytes, none, some cep⟩ _ _ _ _ rfl rfl hnew
      exact hfails.trans (.step .leave rfl)
    · next bo fs hnew =>
      have hmade := @does_new e { srv with actives }
        ⟨.held, cli.tableId, cli.keyBytes, none, some cep⟩ _ _ _ _ rfl hnew
      apply hmade.trans
      split at h
      · have hend := objectPutEnd_does (by exact hw) h
        rw [Client.job_body (by exact hw) rfl] at hend
        exact hend
      · cases h
        rw [Client.job_body (by exact hw) rfl]
        exact .refl e _ _

theorem dataInWrite_does {bs : Bytes} (hw : cli.worker = none)
    (h : dataInWrite e io srv cli bs = some (srv', cli')) : Job.Does e srv cli.job srv' cli'.job := by
  unfold dataInWrite at h
  split at h
  · cases h
  · next bo hbo =>
    rw [Client.job_body hw hbo]
    split at h
    · cases h
    · next fs bo' hwrite =>
      cases h
      rw [Client.job_idle (by exact hw) rfl]
      apply Job.Does.trans (does_write rfl rfl hwrite)
      exact does_outEnd { cli.toClientOut with outBo := some bo' } (.inl rfl) rfl rfl rfl
    · next fs bo' hwrite =>
      apply Job.Does.trans (does_write rfl rfl hwrite)
      dsimp only at h
      split at h
      · have hend := objectPutEnd_does (by exact hw) h
        rw [Client.job_body (by exact hw) rfl] at hend
        exact hend
      · cases h
        rw [Client.job_body (by exact hw) rfl]
        exact .refl e _ _

theorem cliEvtDataIn_does (hw : cli.worker = none) (hbo : cli.outBo.isSome = true)
    (h : cliEvtDataIn e io srv cli = some (srv', cli')) : Job.Does e srv cli.job srv' cli'.job := by
  obtain ⟨bo, hbo⟩ := Option.isSome_iff_exists.mp hbo
  unfold cliEvtDataIn at h
  split at h
  · exact objectPutEnd_does hw h
  · dsimp only at h
    split at h
    · have hwrites := dataInWrite_does (by exact hw) h
      exact hwrites
    · cases h
      exact .refl e srv _
    · cases h
      exact .refl e srv _
    · split at h <;> cases h <;> exact .refl e srv _
    · split at h
      · cases h
        exact .refl e srv _
      · cases h
        rw [Client.job_body hw hbo, Client.job_idle (by exact hw) rfl]
        exact does_outEnd cli.toClientOut (.inl rfl) rfl hbo rfl

/-- What the thread of a copy has when it comes to a call. -/
def Client.Equipped (cli : Client) (wi : WorkerInfo) : Prop :=
  match wi.pc with
  | .openSrc => cli.outBo = none ∧ cli.outCe = none
  | .cache => cli.outBo = none
  | .create => cli.outBo = none ∧ cli.outCe.isSome = true
  | .read | .write _ | .commit => cli.outBo.isSome = true
  | .out | .signal => True

theorem Client.job_copy {wi : WorkerInfo} (hw : cli.worker = some wi) (hc : cli.Equipped wi)
    (hpc : wi.pc = .read ∨ (∃ bs, wi.pc = .write bs) ∨ wi.pc = .commit) :
    ∃ bo, cli.outBo = some bo ∧ cli.job = ⟨.body, cli.tableId, cli.keyBytes, some bo, cli.outCe⟩ := by
  rcases hpc with hpc | ⟨bs, hpc⟩ | hpc
  all_goals
    simp only [Client.Equipped, hpc] at hc
    obtain ⟨bo, hbo⟩ := Option.isSome_iff_exists.mp hc
    exact ⟨bo, hbo, by simp [Client.job, hw, hpc, hbo]⟩

/-- A step of the thread of a copy. -/
theorem workerCpThr_does {wi : WorkerInfo} (hw : cli.worker = some wi) (hc : cli.Equipped wi)
    (h : workerCpThr e io srv cli wi = some (srv', cli')) :
    Job.Does e srv cli.job srv' cli'.job ∧ ∀ wi', cli'.worker = some wi' → cli'.Equipped wi' := by
  unfold workerCpThr at h
  cases hpc : wi.pc with
  | openSrc =>
    simp only [Client.Equipped, hpc] at hc
    have hjob : cli.job = ⟨.idle, cli.tableId, cli.keyBytes, none, none⟩ := by
      simp [Client.job, hw, hpc, hc]
    simp only [hpc] at h
    rw [hjob]
    split at h
    · cases h
      simp [Client.job, Client.Equipped, hc, Job.Does.refl]
    · split at h <;> cases h <;> simp [Client.job, Client.Equipped, hc, Job.Does.refl]
  | cache =>
    simp only [Client.Equipped, hpc] at hc
    simp only [hpc] at h
    split at h
    · cases h
    · next cep actives hget =>
      cases h
      refine ⟨?_, by simp [Client.Equipped, hc]⟩
      apply Job.Does.step (.get cli.tableId cli.keyBytes (io.sys.fails .cacheEntry))
      simp [jobStep, Client.job, hw, hpc, hc, hget]
  | create =>
    simp only [Client.Equipped, hpc] at hc
    obtain ⟨hbo, hce⟩ := hc
    have hjob : cli.job = ⟨.held, cli.tableId, cli.keyBytes, none, cli.outCe⟩ := by
      simp [Client.job, hw, hpc, hbo]
    simp only [hpc] at h
    rw [hjob]
    split at h
    · cases h
    · next obj hobj =>
      split at h
      · next err fs hnew =>
        cases h
        refine ⟨?_, by simp [Client.Equipped]⟩
        have hfails := does_newFails (e := e) (j := ⟨.held, cli.tableId, cli.keyBytes, none, cli.outCe⟩)
          rfl rfl hnew
        simpa [Client.job, hce] using hfails
      · next bo fs hnew =>
        cases h
        refine ⟨?_, by simp [Client.Equipped]⟩
        exact does_new (e := e) (j := ⟨.held, cli.tableId, cli.keyBytes, none, cli.outCe⟩) rfl hnew
  | read =>
    obtain ⟨bo, hbo, hjob⟩ := Client.job_copy hw hc (.inl hpc)
    simp only [hpc] at h
    rw [hjob]
    have hgive : Job.Does e srv ⟨.body, cli.tableId, cli.keyBytes, some bo, cli.outCe⟩ srv
        ⟨.ending, cli.tableId, cli.keyBytes, some bo, cli.outCe⟩ := .step .giveUp rfl
    split at h
    · cases h
      simp [Client.job, Client.Equipped, hbo, Job.Does.refl]
    · split at h
      · cases h
      · split at h
        · cases h
          simpa [Client.job, Client.Equipped, hbo] using hgive
        · split at h <;> cases h <;> simp [Client.job, Client.Equipped, hbo, Job.Does.refl]
  | write bs =>
    obtain ⟨bo, hbo, hjob⟩ := Client.job_copy hw hc (.inr (.inl ⟨bs, hpc⟩))
    simp only [hpc, hbo] at h
    rw [hjob]
    split at h
    · cases h
    · next fs bo' hwrite =>
      cases h
      refine ⟨Job.Does.trans (does_write rfl rfl hwrite) (.step .giveUp ?_), ?_⟩
      · simp [jobStep, Client.job]
      · simp [Client.Equipped]
    · next fs bo' hwrite =>
      cases h
      exact ⟨does_write rfl rfl hwrite, by simp [Client.Equipped]⟩
  | commit =>
    obtain ⟨bo, hbo, hjob⟩ := Client.job_copy hw hc (.inr (.inr hpc))
    simp only [hpc, hbo] at h
    rw [hjob]
    split at h
    all_goals
      next fs bo' hcommit =>
      cases h
      exact ⟨does_commit rfl rfl hcommit, by simp [Client.Equipped]⟩
  | out =>
    simp only [hpc] at h
    cases h
    refine ⟨?_, by simp [Client.Equipped]⟩
    cases hbo : cli.outBo with
    | some bo =>
      have hending : cli.job.pc = .ending := by simp [Client.job, hw, hpc, hbo]
      have hends : Job.Does e srv cli.job (cliOutEnd srv cli.toClientOut).1
          { cli.job with pc := .idle, outBo := none, outCe := none } :=
        does_outEnd cli.toClientOut (.inr hending) hbo hbo rfl
      exact hends
    | none =>
      cases hce : cli.outCe with
      | some cep =>
        have hjob : cli.job = ⟨.freed, cli.tableId, cli.keyBytes, none, some cep⟩ := by
          simp [Client.job, hw, hpc, hbo, hce]
        rw [hjob]
        exact does_outPut cli.toClientOut rfl hbo rfl hce
      | none =>
        have hjob : cli.job = ⟨.idle, cli.tableId, cli.keyBytes, none, none⟩ := by
          simp [Client.job, hw, hpc, hbo, hce]
        rw [hjob]
        have hsrv : (cliOutEnd srv cli.toClientOut).1 = srv := by simp [cliOutEnd, hbo, hce]
        rw [hsrv]
        exact .refl e srv _
  | signal =>
    simp only [hpc] at h
    cases h
    refine ⟨.refl e srv _, fun wi' hwi' => ?_⟩
    obtain rfl := Option.some.inj (hw.symm.trans hwi')
    exact hc

end

end Hail.Chunkd
