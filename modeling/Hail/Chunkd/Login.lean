import Hail.Chunkd.Framing

/-!
# Who may make a request

`user` is written by a LOGIN before its signature is checked, and its first byte says that somebody is
logged in. A LOGIN that does not verify leaves a client that is only disposed of, so the requests executed
on a connection are LOGINs and START_TLSs up to a LOGIN that verifies, and from then on requests that
verify under the same user; the last one may have been refused.
-/
namespace Hail.Chunkd

open Library

def Request.hdr (r : Request) : ChunksrvReq := .ofBytes r.creq

/-- `authcheck` of a request under a user. -/
def Request.verifies (e : Env) (r : Request) (user : Bytes) : Bool :=
  authcheck e r.creq (if r.hdr.op = .getPart then r.second else []) r.key user

/-- The requests that are executed for nobody. -/
def Request.IsOpen (r : Request) : Prop := r.hdr.op = .login ∨ r.hdr.op = .startTls

/-- `user` as a LOGIN writes it. -/
def Request.userName (r : Request) : Bytes :=
  r.key ++ List.replicate (chdUserSz + 1 - r.key.length) 0

/-- A LOGIN of this user has verified. Before it nothing but LOGINs and START_TLSs has been executed,
and what has been since verifies under the user. -/
inductive LoggedIn (e : Env) (user : Bytes) : List Request → Prop
  | mk {before after : List Request} {r : Request} (hbefore : ∀ r ∈ before, r.IsOpen)
      (hop : r.hdr.op = .login) (huser : user = r.userName) (hname : user.headD 0 ≠ 0)
      (hlogin : r.verifies e user = true) (hafter : ∀ r ∈ after, r.verifies e user = true) :
      LoggedIn e user (before ++ r :: after)

/-- No object is being stored or copied. -/
structure Client.Idle (cli : Client) : Prop where
  outBo : cli.outBo = none
  outCe : cli.outCe = none
  worker : cli.worker = none
  state : cli.state ≠ .dataIn

/-- Nobody is logged in, somebody is, or the client is only to be disposed of, and the last request may
have been refused. -/
inductive Client.Gate (e : Env) (cli : Client) : Prop
  | nobody (hidle : cli.Idle) (hname : cli.loggedIn = false) (hopen : ∀ r ∈ cli.executed, r.IsOpen)
  | user (h : LoggedIn e cli.user cli.executed)
  | closedOut (hs : cli.state = .dispose) (hidle : cli.Idle)
      (hopen : ∀ r ∈ cli.executed.dropLast, r.IsOpen)
  | closedIn (hs : cli.state = .dispose) (hw : cli.worker = none)
      (h : LoggedIn e cli.user cli.executed.dropLast)

theorem LoggedIn.push {e : Env} {user : Bytes} {rs : List Request} (h : LoggedIn e user rs)
    {r : Request} (hr : r.verifies e user = true) : LoggedIn e user (rs ++ [r]) := by
  cases h with
  | @mk before after r' hbefore hop huser hname hlogin hafter =>
    rw [List.append_assoc, List.cons_append]
    refine .mk hbefore hop huser hname hlogin fun r hmem => ?_
    rcases List.mem_append.mp hmem with hmem | hmem
    · exact hafter r hmem
    · rw [List.mem_singleton.mp hmem]
      exact hr

theorem LoggedIn.name {e : Env} {user : Bytes} {rs : List Request} (h : LoggedIn e user rs) :
    user.headD 0 ≠ 0 := by
  cases h with
  | mk _ _ _ hname _ _ => exact hname

/-- A LOGIN that verifies under the name that it gives, which is not empty. -/
def Request.LogsIn (e : Env) (r : Request) : Prop :=
  r.hdr.op = .login ∧ r.userName.headD 0 ≠ 0 ∧ r.verifies e r.userName = true

theorem LoggedIn.exists_logsIn {e : Env} {user : Bytes} {rs : List Request} (h : LoggedIn e user rs) :
    ∃ r ∈ rs, r.LogsIn e ∧ user = r.userName := by
  cases h with
  | @mk before after r _ hop huser hname hlogin _ =>
    subst huser
    exact ⟨r, by simp, ⟨hop, hname, hlogin⟩, rfl⟩

/-! ## Signatures -/

/-- The record of a part is signed of a request for a part only. -/
theorem signedBytes_part {creq key : Bytes} (hcreq : creq.length = chunksrvReqSz)
    (hkey : key.length = (ChunksrvReq.ofBytes creq).keyLen)
    (hop : (ChunksrvReq.ofBytes creq).op ≠ .getPart) (gpr : Bytes) :
    signedBytes creq gpr key = signedBytes creq [] key := by
  have hlen : (creq.take (chunksrvReqSz - chdSigSz) ++ List.replicate chdSigSz (0 : UInt8) ++
      key).length = reqLen (.ofBytes creq) := by
    rw [List.length_append, List.length_append, List.length_take, hcreq, List.length_replicate, hkey]
    unfold reqLen
    split
    · next h => exact absurd h hop
    · rfl
  unfold signedBytes
  rw [← hlen, List.take_left, List.append_nil, List.take_length]

/-- The request in the buffers verifies as it is remembered. -/
theorem Client.Heard.verifies {e : Env} {cli : Client} (h : cli.Heard) (hs : cli.state = .execReq)
    (user : Bytes) : cli.request.verifies e user = cli.verifies e user := by
  have hcreq : cli.creq.data.length = chunksrvReqSz := h.sized .creq
  have hkey := h.keyBytes_length hs
  have hhdr : cli.request.hdr = cli.req := rfl
  unfold Request.verifies ClientRx.verifies authcheck
  rw [hhdr]
  by_cases hop : cli.req.op = .getPart
  · have hsecond : cli.request.second = cli.creqGetpart.data := by
      unfold ClientRx.request
      rw [hop]
    rw [if_pos hop, hsecond]
    rfl
  · rw [if_neg hop, signedBytes_part hcreq hkey hop cli.creqGetpart.data]
    rfl

/-! ## Steps -/

/-- A client whose user, upload and history are as they were. -/
structure Client.Waits (cli cli' : Client) : Prop where
  user : cli'.user = cli.user
  out : cli'.toClientOut = cli.toClientOut
  executed : cli'.executed = cli.executed
  worker : cli'.worker = cli.worker
  state : cli'.state = .dataIn → cli.state = .dataIn

theorem fixedRead_waits (cli : Client) : cli.Waits (fixedRead cli) := by
  unfold fixedRead
  split
  · exact ⟨rfl, rfl, rfl, rfl, id⟩
  · dsimp only
    split
    · exact ⟨rfl, rfl, rfl, rfl, fun h => (by cases h)⟩
    · split <;> exact ⟨rfl, rfl, rfl, rfl, fun h => (by cases h)⟩

theorem varRead_waits (cli : Client) : cli.Waits (varRead cli) := by
  unfold varRead
  split
  · exact ⟨rfl, rfl, rfl, rfl, id⟩
  · split
    · exact ⟨rfl, rfl, rfl, rfl, fun h => (by cases h)⟩
    · split <;> exact ⟨rfl, rfl, rfl, rfl, fun h => (by cases h)⟩

theorem cliEvtRead_waits {goOn : Client → Client} (h : ∀ cli : Client, cli.Waits (goOn cli)) (io : Io)
    (buflen : Nat) (cli : Client) : cli.Waits (cliEvtRead goOn (cliReadData io buflen cli)) := by
  have hread := cliReadData_cases io buflen cli
  generalize cliReadData io buflen cli = p at hread ⊢
  obtain ⟨bs, cli'⟩ := p
  cases hread with
  | @got bs taken rww evw _ _ =>
    have hgo := h { cli with
      toClientRx := cli.toClientRx.store bs, taken, readWantWrite := rww, evWrite := evw }
    exact ⟨hgo.user, hgo.out, hgo.executed, hgo.worker, hgo.state⟩
  | failed _ => exact ⟨rfl, rfl, rfl, rfl, fun h => (by cases h)⟩

/-- The queue is as it was. -/
structure ClientTx.Same (tx tx' : ClientTx) : Prop where
  ssl : tx'.ssl = tx.ssl
  writeQ : tx'.writeQ = tx.writeQ
  queued : tx'.queued = tx.queued
  sent : tx'.sent = tx.sent
  called : tx'.called = tx.called
  inObj : tx'.inObj = tx.inObj
  inLen : tx'.inLen = tx.inLen

theorem ClientTx.Same.refl (tx : ClientTx) : tx.Same tx := ⟨rfl, rfl, rfl, rfl, rfl, rfl, rfl⟩

/-- What reading does not change of what is written, and the state it leaves. -/
structure Client.Listens (cli cli' : Client) : Prop where
  tx : cli.toClientTx.Same cli'.toClientTx
  state : cli.state.reads = true → cli'.state = .dispose ∨ cli'.state.reads = true

theorem fixedRead_listens (cli : Client) : cli.Listens (fixedRead cli) := by
  unfold fixedRead
  split
  · exact ⟨.refl _, .inr⟩
  · dsimp only
    split
    · exact ⟨⟨rfl, rfl, rfl, rfl, rfl, rfl, rfl⟩, fun _ => .inr rfl⟩
    · split
      · exact ⟨⟨rfl, rfl, rfl, rfl, rfl, rfl, rfl⟩, fun _ => .inl rfl⟩
      · exact ⟨⟨rfl, rfl, rfl, rfl, rfl, rfl, rfl⟩, fun _ => .inr rfl⟩

theorem varRead_listens (cli : Client) : cli.Listens (varRead cli) := by
  unfold varRead
  split
  · exact ⟨.refl _, .inr⟩
  · split
    · exact ⟨⟨rfl, rfl, rfl, rfl, rfl, rfl, rfl⟩, fun _ => .inr rfl⟩
    · split <;> exact ⟨⟨rfl, rfl, rfl, rfl, rfl, rfl, rfl⟩, fun _ => .inr rfl⟩

theorem cliEvtRead_listens {goOn : Client → Client} (h : ∀ cli : Client, cli.Listens (goOn cli))
    (io : Io) (buflen : Nat) (cli : Client) : cli.Listens (cliEvtRead goOn (cliReadData io buflen cli)) := by
  have hread := cliReadData_cases io buflen cli
  generalize cliReadData io buflen cli = p at hread ⊢
  obtain ⟨bs, cli'⟩ := p
  cases hread with
  | @got bs taken rww evw _ _ =>
    have hgo := h { cli with
      toClientRx := cli.toClientRx.store bs, taken, readWantWrite := rww, evWrite := evw }
    have htx := hgo.tx
    exact ⟨⟨htx.ssl, htx.writeQ, htx.queued, htx.sent, htx.called, htx.inObj, htx.inLen⟩, hgo.state⟩
  | failed _ => exact ⟨⟨rfl, rfl, rfl, rfl, rfl, rfl, rfl⟩, fun _ => .inl rfl⟩

section

variable {e : Env} {io : Io} {srv srv' : Srv} {cli cli' : Client}

theorem Client.Idle.waits (h : cli.Idle) (hw : cli.Waits cli') : cli'.Idle :=
  ⟨hw.out ▸ h.outBo, hw.out ▸ h.outCe, hw.worker.trans h.worker, fun hs => h.state (hw.state hs)⟩

/-- The gate is as it was, if a client that is disposed of stays so. -/
theorem Client.Gate.waits (h : cli.Gate e) (hw : cli.Waits cli')
    (hs : cli.state = .dispose → cli'.state = .dispose) : cli'.Gate e := by
  cases h with
  | nobody hidle hname hopen =>
    refine .nobody (hidle.waits hw) ?_ (hw.executed ▸ hopen)
    unfold Client.loggedIn at hname ⊢
    rw [hw.user]
    exact hname
  | user h =>
    refine .user ?_
    rw [hw.user, hw.executed]
    exact h
  | closedOut hst hidle hopen => exact .closedOut (hs hst) (hidle.waits hw) (hw.executed ▸ hopen)
  | closedIn hst hnone h =>
    refine .closedIn (hs hst) (hw.worker.trans hnone) ?_
    rw [hw.user, hw.executed]
    exact h

/-- No operation but a LOGIN changes the user. -/
theorem ExecOp.user (h : ExecOp e io srv cli srv' cli') (hop : cli.req.op ≠ .login) :
    cli'.user = cli.user := by
  cases h with
  | login hlogin => exact absurd hlogin hop
  | put _ h =>
    cases h with
    | refused _ _ _ | started _ _ _ _ => rfl
    | empty _ _ _ _ hend => cases hend <;> rfl
  | del _ =>
    unfold objectDel
    split
    · rfl
    · split <;> rfl
  | tableOpen _ =>
    obtain ⟨table, tableLen, tableId, tx, heq, -⟩ := @volumeOpen_tx e io srv cli
    rw [heq]
  | answered _ _ _ | copies _ | checkStart _ | startTls _ _ => rfl

theorem DataIn.user (h : DataIn e io srv cli srv' cli') : cli'.user = cli.user := by
  cases h with
  | wroteAll _ _ _ hend => cases hend <;> rfl
  | ended _ hend => cases hend <;> rfl
  | idle | eof | sslFailed _ _ | readFailed _ _ | writeFailed _ _ _ _ _ | wrote _ _ _ => rfl

/-- A request executed for nobody is a LOGIN or a START_TLS. It leaves the server as it is. -/
theorem ExecReq.nobody (h : ExecReq e io srv cli srv' cli') (hheard : cli.Heard)
    (hs : cli.state = .execReq) (hidle : cli.Idle) (hname : cli.loggedIn = false)
    (hopen : ∀ r ∈ cli.executed, r.IsOpen) : srv' = srv ∧ cli'.Gate e := by
  have hlast : (cli.executed ++ [cli.request]).dropLast = cli.executed := List.dropLast_concat
  cases h with
  | refused _ hdisp =>
    refine ⟨rfl, .closedOut hdisp ⟨hidle.outBo, hidle.outCe, hidle.worker, ?_⟩ ?_⟩
    · rw [hdisp]
      simp
    · rw [hlast]
      exact hopen
  | passed _ _ hgate _ _ hop =>
    have hthis : cli.request.IsOpen := by
      rcases hgate with hin | hop
      · rw [hname] at hin
        cases hin
      · exact hop
    have hall : ∀ r ∈ cli.executed ++ [cli.request], r.IsOpen := by
      intro r hmem
      rcases List.mem_append.mp hmem with hmem | hmem
      · exact hopen r hmem
      · rw [List.mem_singleton.mp hmem]
        exact hthis
    have hne : ∀ {op : ChunksrvOps}, cli.req.op = op → op = .login ∨ op = .startTls := by
      intro op hop
      rw [← hop]
      exact hthis
    cases hop with
    | put hput _ => simpa using hne hput
    | del hput | copies hput | tableOpen hput | checkStart hput => simpa using hne hput
    | answered _ _ htx =>
      refine ⟨rfl, .nobody ⟨hidle.outBo, hidle.outCe, hidle.worker, ?_⟩ hname hall⟩
      rcases htx.state with h | h <;> simp [h]
    | startTls _ hend =>
      refine ⟨rfl, .nobody ⟨hidle.outBo, hidle.outCe, hidle.worker, ?_⟩ hname hall⟩
      rcases hend with rfl | rfl <;> simp
    | login hlogin =>
      obtain ⟨user, tx, heq, htx, hend⟩ := @loginUser_tx e io srv.fs
        { cli with executed := cli.executed ++ [cli.request], state := .recycle }
      rw [heq]
      have hidle' : tx.state ≠ .dataIn := by
        rcases htx.state with h | h <;> simp [h]
      refine ⟨rfl, ?_⟩
      rcases hend with hdisp | ⟨huser, hv, -⟩
      · refine .closedOut hdisp ⟨hidle.outBo, hidle.outCe, hidle.worker, hidle'⟩ ?_
        exact (congrArg (fun rs => ∀ r ∈ rs, r.IsOpen) hlast).mpr hopen
      · by_cases hzero : user.headD 0 = 0
        · have hout : decide (user.headD 0 ≠ 0) = false := decide_eq_false (not_not.mpr hzero)
          exact .nobody ⟨hidle.outBo, hidle.outCe, hidle.worker, hidle'⟩ hout hall
        · refine .user ?_
          refine .mk hopen hlogin ?_ hzero ?_ (by simp)
          · rw [huser]
            unfold Request.userName
            have hkey : cli.request.key = cli.keyBytes := rfl
            rw [hkey, hheard.keyBytes_length hs, ← (hheard.keyed (.inr hs)).1]
          · exact (hheard.verifies hs user).trans hv

/-- A request executed for a user verifies under the user, or is refused. -/
theorem ExecReq.user (h : ExecReq e io srv cli srv' cli') (hheard : cli.Heard)
    (hs : cli.state = .execReq) (hw : cli.worker = none) (hin : LoggedIn e cli.user cli.executed) :
    cli'.Gate e := by
  have hname : cli.loggedIn = true := by
    simpa [Client.loggedIn] using hin.name
  cases h with
  | refused _ hdisp =>
    refine .closedIn hdisp hw ?_
    exact List.dropLast_concat.symm ▸ hin
  | passed _ hauth _ hagain _ hop =>
    have hlogin : cli.req.op ≠ .login := by
      intro hop
      have hout := hagain hop
      rw [hname] at hout
      cases hout
    have hex := (hop.served rfl hw).1
    have huser : _ = cli.user := hop.user hlogin
    refine .user ?_
    dsimp only
    rw [huser, hex]
    refine hin.push ?_
    rw [hheard.verifies hs]
    exact hauth hname

theorem Client.Gate.exec (h : cli.Gate e) (hexec : ExecReq e io srv cli srv' cli')
    (hheard : cli.Heard) (hs : cli.state = .execReq) (hw : cli.worker = none) : cli'.Gate e := by
  cases h with
  | nobody hidle hname hopen => exact (hexec.nobody hheard hs hidle hname hopen).2
  | user h => exact hexec.user hheard hs hw h
  | closedOut hst _ _ | closedIn hst _ _ => simp [hs] at hst

/-- An upload goes on, or a copy does. -/
theorem Client.Gate.busy (h : cli.Gate e) (hbusy : cli.state = .dataIn ∨ cli.worker ≠ none)
    (huser : cli'.user = cli.user) (hex : cli'.executed = cli.executed) : cli'.Gate e := by
  cases h with
  | nobody hidle _ _ | closedOut _ hidle _ =>
    rcases hbusy with hst | hw
    · exact absurd hst hidle.state
    · exact absurd hidle.worker hw
  | user h =>
    refine .user ?_
    rw [huser, hex]
    exact h
  | closedIn hst hnone _ =>
    rcases hbusy with hin | hw
    · simp [hst] at hin
    · exact absurd hnone hw

theorem Client.Gate.step {ev : ConnEv} {c : Option Client} (h : cli.Gate e) (hheard : cli.Heard)
    (hstep : ConnStep e io srv cli ev srv' c) : ∀ cli' ∈ c, cli'.Gate e := by
  rintro cli' rfl
  cases hstep with
  | idle => exact h
  | @writes tx htx =>
    refine h.waits ⟨rfl, rfl, rfl, rfl, fun hs => ?_⟩ fun hs => ?_
    · rcases htx.state with heq | heq
      · exact heq.symm.trans hs
      · exact absurd (heq.symm.trans hs) (by simp)
    · exact htx.state.elim (fun heq => heq.trans hs) id
  | waits => exact h.waits ⟨rfl, rfl, rfl, rfl, id⟩ id
  | readFixed _ hs _ =>
    exact h.waits (cliEvtRead_waits fixedRead_waits io _ cli) fun hst => by simp [hs] at hst
  | readVar _ hs _ =>
    exact h.waits (cliEvtRead_waits varRead_waits io _ cli) fun hst => by simp [hs] at hst
  | exec _ hs hw hexec => exact h.exec hexec hheard hs hw
  | dataIn _ hs hw hin => exact h.busy (.inl hs) hin.user (hin.served hs hw).1
  | recycled hs _ =>
    exact h.waits ⟨rfl, rfl, rfl, rfl, fun hv => (by cases hv)⟩ fun hst => by simp [hs] at hst
  | accepted hs _ hend =>
    refine h.waits ⟨rfl, rfl, rfl, rfl, fun hv => ?_⟩ fun hst => by simp [hs] at hst
    rcases hend with rfl | rfl <;> cases hv
  | copies _ hw hthr =>
    have hcopy := workerCpThr_copies hw hthr
    exact h.busy (.inr (by simp [hw])) hcopy.user hcopy.executed
  | copied hw _ => exact h.busy (.inr (by simp [hw])) rfl rfl

/-- Only a client that somebody has logged in on changes the server. -/
theorem ConnStep.changes {ev : ConnEv} {c : Option Client} (h : cli.Gate e) (hheard : cli.Heard)
    (hstep : ConnStep e io srv cli ev srv' c) (hne : srv' ≠ srv) :
    LoggedIn e cli.user cli.executed ∨
      cli.state = .dispose ∧ LoggedIn e cli.user cli.executed.dropLast := by
  have hfree : cli.Idle → cliFree srv cli = srv := by
    intro hidle
    unfold cliFree cliOutEnd
    rw [hidle.outBo, hidle.outCe]
  cases h with
  | user h => exact .inl h
  | closedIn hst _ h => exact .inr ⟨hst, h⟩
  | nobody hidle hname hopen =>
    cases hstep with
    | exec _ hs _ hexec => exact absurd (hexec.nobody hheard hs hidle hname hopen).1 hne
    | dataIn _ hs _ _ => exact absurd hs hidle.state
    | copies _ hw _ =>
      rw [hidle.worker] at hw
      cases hw
    | freed _ _ => exact absurd (hfree hidle) hne
    | idle | writes _ | waits | readFixed _ _ _ | readVar _ _ _ | recycled _ _ | accepted _ _ _
    | copied _ _ => exact absurd rfl hne
  | closedOut hst hidle _ =>
    cases hstep with
    | exec _ hs _ _ => simp [hst] at hs
    | dataIn _ hs _ _ => exact absurd hs hidle.state
    | copies _ hw _ =>
      rw [hidle.worker] at hw
      cases hw
    | freed _ _ => exact absurd (hfree hidle) hne
    | idle | writes _ | waits | readFixed _ _ _ | readVar _ _ _ | recycled _ _ | accepted _ _ _
    | copied _ _ => exact absurd rfl hne

end

/-! ## A run -/

theorem run_gated (e : Env) (is : List (Srv × Io × ConnEv)) :
    ∀ cli ∈ run (connNext e) (some cliAlloc) is, cli.Heard ∧ cli.Gate e := by
  refine run_invariant (I := fun c : Option Client => ∀ cli ∈ c, cli.Heard ∧ cli.Gate e) ?_ ?_ is
  · rintro cli ⟨⟩
    exact ⟨.init, .nobody ⟨rfl, rfl, rfl, by simp [cliAlloc]⟩ (by decide) (by simp [cliAlloc])⟩
  · intro c i ih cli' hcli'
    obtain ⟨cli, srv', c', rfl, hnext, hcli'⟩ := connNext_eq_some hcli'
    obtain ⟨hheard, hgate⟩ := ih cli rfl
    have hcases := connStep_cases hnext
    exact ⟨hheard.step hcases cli' hcli', hgate.step hheard hcases cli' hcli'⟩

/-- In every state of a connection nothing but LOGINs and START_TLSs has been executed, or a LOGIN has
verified, and every request executed since verifies under the same user; the last request may have been
refused, in which case the client is only to be disposed of. -/
theorem run_gate (e : Env) (is : List (Srv × Io × ConnEv)) :
    ∀ cli ∈ run (connNext e) (some cliAlloc) is, cli.Gate e :=
  fun cli hcli => (run_gated e is cli hcli).2

/-- A step of a connection that changes the store, the tables or the self-check is one of a client on
which a LOGIN has verified. -/
theorem run_changes (e : Env) {is : List (Srv × Io × ConnEv)} {cli : Client} {c : Option Client}
    {srv srv' : Srv} {io : Io} {ev : ConnEv} (hrun : run (connNext e) (some cliAlloc) is = some cli)
    (hstep : connStep e io srv cli ev = some (srv', c)) (hne : srv' ≠ srv) :
    ∃ r ∈ cli.executed, r.hdr.op = .login ∧ cli.user = r.userName ∧ r.verifies e cli.user = true := by
  obtain ⟨hheard, hgate⟩ := run_gated e is cli hrun
  have hin := (connStep_cases hstep).changes hgate hheard hne
  have hlogin : ∃ r ∈ cli.executed, r.LogsIn e ∧ cli.user = r.userName := by
    rcases hin with h | ⟨-, h⟩
    · exact h.exists_logsIn
    · obtain ⟨r, hr, hlogs⟩ := h.exists_logsIn
      exact ⟨r, List.dropLast_subset _ hr, hlogs⟩
  obtain ⟨r, hr, hlogs, huser⟩ := hlogin
  refine ⟨r, hr, hlogs.1, huser, ?_⟩
  rw [huser]
  exact hlogs.2.2

/-- With the signatures of two requests under the key `u`, of which one has a key of its own. -/
def Env.signing : Env :=
  { Env.sample with
    b64hmac := fun _ bs =>
      if bs.length = 89 then ascii "7Fdt3gIuj97cWhQEaySM4fGgJBI=" else ascii "xf1QYOMs3LdPJprnNMk43Auc16o=" }

def signedReq (op : ChunksrvOps) (keyLen nonce : Nat) (sig : Bytes) : Bytes :=
  ChunksrvReq.encode
    ⟨chunkdMagic, op, 0, keyLen, nonce, 0, sig ++ List.replicate (chdSigSz - sig.length) 0⟩

/-- A login of `u` is executed and its answer written, and a CHECK_START read. -/
def checkReads : List (Srv × Io × ConnEv) :=
  [gives 0x43 (signedReq .login 1 7 (ascii "7Fdt3gIuj97cWhQEaySM4fGgJBI=")).tail, gives 0x75 [],
    gives 0 [], (bareSrv, { (gives 0 []).2.1 with wr := [.wrote 100 ⟨none, false⟩] }, .writable),
    gives 0 [], gives 0x43 (signedReq .checkStart 0 8 (ascii "xf1QYOMs3LdPJprnNMk43Auc16o=")).tail]

def checkCli : Client := (run (connNext .signing) (some cliAlloc) checkReads).getD cliAlloc

theorem checkCli_run : run (connNext .signing) (some cliAlloc) checkReads = some checkCli := by
  obtain ⟨cli, hcli⟩ := Option.isSome_iff_exists.mp (show
    (run (connNext .signing) (some cliAlloc) checkReads).isSome = true by decide +kernel)
  unfold checkCli
  rw [hcli]
  rfl

theorem run_gate_check : checkCli.Gate .signing := run_gate .signing checkReads checkCli checkCli_run

theorem run_changes_check : ∃ r ∈ checkCli.executed, r.hdr.op = .login ∧ checkCli.user = r.userName ∧
    r.verifies .signing checkCli.user = true := by
  have hstarted : (connStep .signing (gives 0 []).2.1 { bareSrv with chkUsers := [[0x75]] } checkCli
      .func).map (fun p => p.1.chkState) = some .init := by decide +kernel
  obtain ⟨⟨srv', c⟩, hstep, hst⟩ := Option.map_eq_some_iff.mp hstarted
  refine run_changes .signing checkCli_run hstep ?_
  rintro rfl
  cases hst

end Hail.Chunkd
