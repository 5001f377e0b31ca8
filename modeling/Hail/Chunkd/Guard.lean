import Hail.Chunkd.Login

/-!
# What nobody may do

Before a LOGIN that verifies a connection sends nothing but headers, and changes nothing. The user does not
change after it, and a LOGIN that fails is the last request of its connection.
-/
namespace Hail.Chunkd

open Library

/-! ## What is told to nobody -/

/-- An answer that is a header. -/
def IsHeader (q : List Octet) : Prop :=
  ∃ (creq : ChunksrvReq) (code : ChunkErrcode),
    q = ({ respInitReq creq with respCode := code.toNat } : ChunksrvResp).encode.map .mem

/-- Nothing but headers has been queued, and no callback queues more. -/
structure ClientTx.Mute (tx : ClientTx) : Prop where
  queued : ∀ q ∈ tx.queued, IsHeader q
  cb : ∀ w ∈ tx.writeQ, w.cb ≠ .getMore

namespace ClientTx.Mute

variable {e : Env} {io : Io} {fs : Vol} {tx tx' : ClientTx}

theorem congr (h : tx.Mute) (hqueued : tx'.queued = tx.queued) (hq : tx'.writeQ = tx.writeQ) :
    tx'.Mute :=
  ⟨hqueued ▸ h.queued, hq ▸ h.cb⟩

theorem completed (h : tx.Mute) (more : More) (fuel rc : Nat) (moreWork : Bool) :
    (cliWrCompleted e fs more fuel rc moreWork tx).1.Mute := by
  induction fuel generalizing rc moreWork tx with
  | zero => exact h
  | succ fuel ih =>
    rw [cliWrCompleted]
    split
    · exact h
    · split
      · exact h
      · next tmp q hq =>
        have hrest : ∀ w ∈ q, w.cb ≠ .getMore := fun w hw => h.cb w (by simp [hq, hw])
        have htmp : tmp.cb ≠ .getMore := h.cb tmp (by simp [hq])
        dsimp only
        split
        · refine ih ?_ _ _
          unfold cliWriteFree
          split
          · exact ⟨h.queued, hrest⟩
          · exact ⟨h.queued, hrest⟩
          · next hcb => exact absurd hcb htmp
        · have hcut : ClientTx.Mute { tx with
              writeQ := { tmp with src := tmp.src.advance (min tmp.src.len rc) } :: q } := by
            refine ⟨h.queued, fun w hw => ?_⟩
            rcases List.mem_cons.mp hw with rfl | hw
            · exact htmp
            · exact hrest w hw
          exact ih hcut _ _

theorem wrote (h : tx.Mute) (more : More) (rc : Nat) : (cliWrote e fs more rc tx).1.Mute := by
  have hall : (cliWrCompleted e fs more (tx.writeQ.length + rc) rc false tx).1.Mute :=
    h.completed more _ rc false
  unfold cliWrote
  split
  next hc =>
    rw [hc] at hall
    split
    · exact hall.congr rfl rfl
    · exact hall

theorem err_out (h : tx.Mute) : (cliWriteErr tx).Mute := ⟨h.queued, by simp [cliWriteErr, cliWriteFreeAll]⟩

theorem once (h : tx.Mute) (r : WrRes) : (cliWriteOnce e fs r tx).1.Mute := by
  unfold cliWriteOnce
  split
  · exact h
  · unfold cliSendfile
    split
    · split
      · exact h.err_out
      · refine wrote ?_ _ _
        exact h.congr rfl rfl
    · exact h.err_out
  · split
    · unfold cliSslWrite
      split
      · dsimp only
        refine wrote ?_ _ _
        exact h.congr rfl rfl
      · exact h.congr rfl rfl
      · exact h
      · exact h.err_out
    · unfold cliWritev
      dsimp only
      split
      · refine wrote ?_ _ _
        exact h.congr rfl rfl
      · exact h.congr rfl rfl
      · exact h.congr rfl rfl
      · refine err_out ?_
        exact h.congr rfl rfl

theorem writable (h : tx.Mute) (wr : List WrRes) : (cliWritable e fs wr tx).Mute := by
  induction wr generalizing tx with
  | nil => exact h.once .again
  | cons r rs ih =>
    have hround : (cliWriteOnce e fs r tx).1.Mute := h.once r
    rw [cliWritable]
    split
    · next hr =>
      rw [hr] at hround
      exact ih hround
    · next hr =>
      rw [hr] at hround
      exact hround

theorem start (h : tx.Mute) (wr : List WrRes) : (cliWriteStart e fs wr tx).Mute := by
  have hall : (cliWritable e fs wr tx).Mute := h.writable wr
  unfold cliWriteStart
  split
  · exact h
  · dsimp only
    split
    · exact hall
    · exact hall.congr rfl rfl

theorem writeq (h : tx.Mute) (fails : Bool) {bs : Bytes} (hbs : IsHeader (bs.map .mem)) :
    (cliWriteq fails bs .cbFree tx).1.Mute := by
  unfold cliWriteq
  split
  · exact h
  · constructor
    · intro q hq
      rcases List.mem_append.mp hq with hq | hq
      · exact h.queued q hq
      · rw [List.mem_singleton.mp hq]
        exact hbs
    · intro w hw
      rcases List.mem_append.mp hw with hw | hw
      · exact h.cb w hw
      · rw [List.mem_singleton.mp hw]
        simp

/-- An error is told by a header. -/
theorem err (h : tx.Mute) (creq : ChunksrvReq) (code : ChunkErrcode) (recycleOk : Bool) :
    (cliErr e io fs creq code recycleOk tx).Mute := by
  unfold cliErr
  split
  · exact h.congr rfl rfl
  · have hmute : ∀ s : ClientState, (cliWriteq (io.sys.fails .errWriteq)
        { respInitReq creq with respCode := code.toNat }.encode .cbFree { tx with state := s }).1.Mute := by
      intro s
      have hs : ClientTx.Mute { tx with state := s } := h.congr rfl rfl
      exact hs.writeq _ ⟨creq, code, rfl⟩
    have hqueue := hmute (if recycleOk then .recycle else .dispose)
    unfold cliRespond
    split
    · next hq => rwa [hq] at hqueue
    · next hq =>
      rw [hq] at hqueue
      exact hqueue.start _

end ClientTx.Mute

/-! ## Steps -/

/-- A LOGIN that passes its checks. -/
def Request.Passes (e : Env) (r : Request) : Prop :=
  1 ≤ r.key.length ∧ r.key.length ≤ chdUserSz ∧ r.verifies e r.userName = true

section

variable {e : Env} {io : Io} {srv srv' : Srv} {cli cli' : Client}

theorem loginUser_mute (h : cli.toClientTx.Mute) : (loginUser e io srv.fs cli).toClientTx.Mute := by
  have hdisp : ∀ code, (cliErr e io srv.fs cli.req code false
      { cli.toClientTx with state := .dispose }).Mute := by
    intro code
    refine ClientTx.Mute.err ?_ _ _ _
    exact h.congr rfl rfl
  unfold loginUser
  split
  · exact hdisp _
  · dsimp only
    split
    · exact hdisp _
    · exact h.err _ _ _

theorem execOp_mute (h : cli.toClientTx.Mute) (hopen : cli.req.op = .login ∨ cli.req.op = .startTls)
    (hop : execOp e io srv cli = some (srv', cli')) : cli'.toClientTx.Mute := by
  rcases hopen with hlogin | htls
  · simp only [execOp, hlogin] at hop
    obtain ⟨rfl, rfl⟩ := Prod.mk.inj (Option.some.inj hop)
    exact loginUser_mute h
  · simp only [execOp, htls] at hop
    obtain ⟨rfl, rfl⟩ := Prod.mk.inj (Option.some.inj hop)
    unfold startTls
    split
    · exact h.congr rfl rfl
    · split
      · exact h.congr rfl rfl
      · split <;> exact h.congr rfl rfl

/-- What nobody asks for is answered with a header, or not at all. -/
theorem cliEvtExecReq_mute (h : cli.toClientTx.Mute) (hname : cli.loggedIn = false)
    (hexec : cliEvtExecReq e io srv cli = some (srv', cli')) : cli'.toClientTx.Mute := by
  have herr : ∀ (code : ChunkErrcode) (s : ClientState),
      (cliErr e io srv.fs cli.req code false { cli.toClientTx with state := s }).Mute := by
    intro code s
    refine ClientTx.Mute.err ?_ _ _ _
    exact h.congr rfl rfl
  have hout : decide (cli.user.headD 0 ≠ 0) = false := hname
  unfold cliEvtExecReq at hexec
  dsimp only at hexec
  split at hexec
  · obtain ⟨rfl, rfl⟩ := Prod.mk.inj (Option.some.inj hexec)
    exact herr _ cli.state
  · split at hexec
    · obtain ⟨rfl, rfl⟩ := Prod.mk.inj (Option.some.inj hexec)
      exact herr _ cli.state
    · split at hexec
      · obtain ⟨rfl, rfl⟩ := Prod.mk.inj (Option.some.inj hexec)
        exact h.congr rfl rfl
      · next hgate =>
        split at hexec
        · obtain ⟨rfl, rfl⟩ := Prod.mk.inj (Option.some.inj hexec)
          exact herr _ .recycle
        · split at hexec
          · obtain ⟨rfl, rfl⟩ := Prod.mk.inj (Option.some.inj hexec)
            exact herr _ .recycle
          · obtain ⟨⟨srv₁, cli₁⟩, hop, heq⟩ := Option.map_eq_some_iff.mp hexec
            obtain ⟨rfl, rfl⟩ := Prod.mk.inj heq
            have hopen : cli.req.op = .login ∨ cli.req.op = .startTls := by
              by_contra hnot
              obtain ⟨hlogin, htls⟩ := not_or.mp hnot
              exact hgate ⟨congrArg not hout, hlogin, htls⟩
            have hmute : Client.toClientTx { cli with
                executed := cli.executed ++ [cli.request], state := .recycle } |>.Mute :=
              h.congr rfl rfl
            have hend := execOp_mute hmute hopen hop
            exact hend

/-- A step of a client that nobody is logged in on and that stores nothing. -/
theorem connStep_mute {ev : ConnEv} {c : Option Client} (h : cli.toClientTx.Mute) (hidle : cli.Idle)
    (hname : cli.state = .execReq → cli.loggedIn = false)
    (hstep : connStep e io srv cli ev = some (srv', c)) : ∀ cli' ∈ c, cli'.toClientTx.Mute := by
  unfold connStep at hstep
  split at hstep
  · rw [stateFunc] at hstep
    split at hstep
    · obtain ⟨rfl, rfl⟩ := Prod.mk.inj (Option.some.inj hstep)
      rintro cli' ⟨⟩
      have htx := (cliEvtRead_listens fixedRead_listens io cli.fixedWant cli).tx
      exact h.congr htx.queued htx.writeQ
    · obtain ⟨rfl, rfl⟩ := Prod.mk.inj (Option.some.inj hstep)
      rintro cli' ⟨⟩
      have htx := (cliEvtRead_listens varRead_listens io cli.varWant cli).tx
      exact h.congr htx.queued htx.writeQ
    · next hs =>
      obtain ⟨⟨srv₁, cli₁⟩, hexec, heq⟩ := Option.map_eq_some_iff.mp hstep
      obtain ⟨rfl, rfl⟩ := Prod.mk.inj heq
      rintro cli' ⟨⟩
      exact cliEvtExecReq_mute h (hname hs) hexec
    · next hs => exact absurd hs hidle.state
    · split at hstep <;> obtain ⟨rfl, rfl⟩ := Prod.mk.inj (Option.some.inj hstep)
      · rintro cli' ⟨⟩
      · rintro cli' ⟨⟩
        exact h
    · obtain ⟨rfl, rfl⟩ := Prod.mk.inj (Option.some.inj hstep)
      rintro cli' ⟨⟩
      unfold cliEvtRecycle
      split
      · exact h
      · exact h.congr rfl rfl
    · obtain ⟨rfl, rfl⟩ := Prod.mk.inj (Option.some.inj hstep)
      rintro cli' ⟨⟩
      unfold cliEvtSslAccept
      split <;> exact h.congr rfl rfl
  · obtain ⟨rfl, rfl⟩ := Prod.mk.inj (Option.some.inj hstep)
    rintro cli' ⟨⟩
    exact h
  · obtain ⟨rfl, rfl⟩ := Prod.mk.inj (Option.some.inj hstep)
    rintro cli' ⟨⟩
    split
    · unfold tcpCliWrEvent
      split
      · exact h.congr rfl rfl
      · exact h.writable io.wr
    · exact h
  · obtain ⟨rfl, rfl⟩ := Prod.mk.inj (Option.some.inj hstep)
    rintro cli' ⟨⟩
    split
    · refine ClientTx.Mute.writable ?_ io.wr
      exact h.congr rfl rfl
    · exact h
  · next wi hw =>
    rw [hidle.worker] at hw
    cases hw
  · obtain ⟨rfl, rfl⟩ := Prod.mk.inj (Option.some.inj hstep)
    rintro cli' ⟨⟩
    exact h
  · next wi hw =>
    rw [hidle.worker] at hw
    cases hw
  · obtain ⟨rfl, rfl⟩ := Prod.mk.inj (Option.some.inj hstep)
    rintro cli' ⟨⟩
    exact h

/-- A LOGIN changes the user only when nobody is logged in. -/
theorem ConnStep.user {ev : ConnEv} {c : Option Client} (h : ConnStep e io srv cli ev srv' c)
    (hname : cli.loggedIn = true) : ∀ cli' ∈ c, cli'.user = cli.user := by
  rintro cli' hcli'
  cases h with
  | readFixed _ _ _ =>
    cases hcli'
    exact (cliEvtRead_waits fixedRead_waits io _ cli).user
  | readVar _ _ _ =>
    cases hcli'
    exact (cliEvtRead_waits varRead_waits io _ cli).user
  | exec _ _ _ hexec =>
    cases hcli'
    cases hexec with
    | refused _ _ => rfl
    | passed _ _ _ hagain _ hop =>
      refine hop.user fun hlogin => ?_
      have hout := hagain hlogin
      rw [hname] at hout
      cases hout
  | dataIn _ _ _ hin =>
    cases hcli'
    exact hin.user
  | freed _ _ => cases hcli'
  | copies _ hw hthr =>
    cases hcli'
    exact (workerCpThr_copies hw hthr).user
  | idle | writes _ | waits | recycled _ _ | accepted _ _ _ | copied _ _ =>
    cases hcli'
    rfl

theorem ConnStep.executed_grows {ev : ConnEv} (h : ConnStep e io srv cli ev srv' (some cli')) :
    cli.executed <+: cli'.executed := by
  cases h with
  | readFixed _ _ _ =>
    have hwaits := cliEvtRead_waits fixedRead_waits io cli.fixedWant cli
    exact hwaits.executed.symm ▸ List.prefix_rfl
  | readVar _ _ _ =>
    have hwaits := cliEvtRead_waits varRead_waits io cli.varWant cli
    exact hwaits.executed.symm ▸ List.prefix_rfl
  | exec _ hs hw hexec =>
    rw [(hexec.served hs hw).1]
    exact List.prefix_append _ _
  | dataIn _ hs hw hin => rw [(hin.served hs hw).1]
  | copies _ hw hthr => rw [(workerCpThr_copies hw hthr).executed]
  | idle | writes _ | waits | recycled _ _ | accepted _ _ _ | copied _ _ => exact List.prefix_rfl

/-- Every LOGIN executed has passed its checks, or has been the last request. -/
structure Client.Checked (e : Env) (cli : Client) : Prop where
  before : ∀ r ∈ cli.executed.dropLast, r.hdr.op = .login → r.Passes e
  last : (∀ r ∈ cli.executed, r.hdr.op = .login → r.Passes e) ∨ cli.state = .dispose ∧ cli.worker = none

theorem Client.Checked.kept (h : cli.Checked e) (hex : cli'.executed = cli.executed)
    (hs : cli.state = .dispose → cli.worker = none → cli'.state = .dispose ∧ cli'.worker = none) :
    cli'.Checked e where
  before := hex ▸ h.before
  last := h.last.imp (fun hall => hex ▸ hall) fun hend => hs hend.1 hend.2

/-- A LOGIN that is executed passes its checks, or leaves a client that is only disposed of. -/
theorem ExecReq.checked (h : ExecReq e io srv cli srv' cli') (hheard : cli.Heard)
    (hs : cli.state = .execReq) (hw : cli.worker = none)
    (hall : ∀ r ∈ cli.executed, r.hdr.op = .login → r.Passes e) : cli'.Checked e := by
  have hex := (h.served hs hw).1
  have hpush : (cli.request.hdr.op = .login → cli.request.Passes e) →
      ∀ r ∈ cli.executed ++ [cli.request], r.hdr.op = .login → r.Passes e := by
    intro hthis r hr
    rcases List.mem_append.mp hr with hr | hr
    · exact hall r hr
    · rw [List.mem_singleton.mp hr]
      exact hthis
  refine ⟨?_, ?_⟩
  · rw [hex, List.dropLast_concat]
    exact hall
  · rw [hex]
    cases h with
    | refused _ hdisp => exact .inr ⟨hdisp, hw⟩
    | passed _ _ _ _ _ hop =>
      by_cases hlogin : cli.req.op = .login
      · cases hop with
        | login _ =>
          obtain ⟨user, tx, heq, -, hend⟩ := @loginUser_tx e io srv.fs
            { cli with executed := cli.executed ++ [cli.request], state := .recycle }
          rw [heq]
          rcases hend with hdisp | ⟨huser, hv, hpos, hle⟩
          · exact .inr ⟨hdisp, hw⟩
          · refine .inl (hpush fun _ => ?_)
            have hkey : cli.request.key = cli.keyBytes := rfl
            have hlen : cli.keyBytes.length = cli.keyLen :=
              (hheard.keyBytes_length hs).trans (hheard.keyed (.inr hs)).1.symm
            have hname : cli.request.userName = user := by
              rw [huser, Request.userName, hkey, hlen]
            refine ⟨?_, ?_, ?_⟩
            · rw [hkey, hlen]
              exact hpos
            · rw [hkey, hlen]
              exact hle
            · rw [hname]
              exact (hheard.verifies hs user).trans hv
        | answered hno _ _ => exact absurd hlogin hno
        | put hput _ | del hput | copies hput | tableOpen hput | checkStart hput | startTls hput _ =>
          have hother := hput.symm.trans hlogin
          simp at hother
      · exact .inl (hpush fun h => absurd h hlogin)

theorem Client.Checked.step {ev : ConnEv} {c : Option Client} (h : cli.Checked e) (hheard : cli.Heard)
    (hstep : ConnStep e io srv cli ev srv' c) : ∀ cli' ∈ c, cli'.Checked e := by
  rintro cli' hcli'
  cases hstep with
  | idle =>
    cases hcli'
    exact h
  | writes htx =>
    cases hcli'
    exact h.kept rfl fun hs hw => ⟨htx.state.elim (fun heq => heq.trans hs) id, hw⟩
  | waits =>
    cases hcli'
    exact h.kept rfl fun hs hw => ⟨hs, hw⟩
  | readFixed _ hs _ =>
    cases hcli'
    refine h.kept (cliEvtRead_waits fixedRead_waits io _ cli).executed fun hdisp => ?_
    simp [hs] at hdisp
  | readVar _ hs _ =>
    cases hcli'
    refine h.kept (cliEvtRead_waits varRead_waits io _ cli).executed fun hdisp => ?_
    simp [hs] at hdisp
  | exec _ hs hw hexec =>
    cases hcli'
    refine hexec.checked hheard hs hw (h.last.resolve_right ?_)
    rintro ⟨hdisp, -⟩
    simp [hs] at hdisp
  | dataIn _ hs hw hin =>
    cases hcli'
    refine h.kept (hin.served hs hw).1 fun hdisp => ?_
    simp [hs] at hdisp
  | freed _ _ => cases hcli'
  | recycled hs _ | accepted hs _ _ =>
    cases hcli'
    refine h.kept rfl fun hdisp => ?_
    simp [hs] at hdisp
  | copies _ hw hthr =>
    cases hcli'
    refine h.kept (workerCpThr_copies hw hthr).executed fun _ hnone => ?_
    rw [hw] at hnone
    cases hnone
  | copied hw _ =>
    cases hcli'
    refine h.kept rfl fun _ hnone => ?_
    rw [hw] at hnone
    cases hnone

/-- Who has not logged in is told nothing but headers, as long as that lasts. -/
theorem Client.Gate.mute {ev : ConnEv} {c : Option Client} (h : cli.Gate e)
    (hmute : (∀ r ∈ cli.executed, ¬ r.LogsIn e) → cli.toClientTx.Mute)
    (hstep : connStep e io srv cli ev = some (srv', c)) :
    ∀ cli' ∈ c, (∀ r ∈ cli'.executed, ¬ r.LogsIn e) → cli'.toClientTx.Mute := by
  intro cli' hcli' hnone
  have hgrows : cli.executed <+: cli'.executed := (hcli' ▸ connStep_cases hstep).executed_grows
  have hnobody : ∀ r ∈ cli.executed, ¬ r.LogsIn e := fun r hr => hnone r (hgrows.subset hr)
  have hout : ∀ {rs : List Request}, rs ⊆ cli.executed → ¬ LoggedIn e cli.user rs := by
    intro rs hrs hin
    obtain ⟨r, hr, hlogs, -⟩ := hin.exists_logsIn
    exact hnobody r (hrs hr) hlogs
  cases h with
  | nobody hidle hname _ =>
    exact connStep_mute (hmute hnobody) hidle (fun _ => hname) hstep cli' hcli'
  | closedOut hs hidle _ =>
    exact connStep_mute (hmute hnobody) hidle (fun hexec => by simp [hs] at hexec) hstep cli' hcli'
  | user h => exact absurd h (hout (List.Subset.refl _))
  | closedIn _ _ h => exact absurd h (hout (List.dropLast_subset _))

/-- A request that is executed and changes the server verifies. -/
theorem ConnStep.verified {c : Option Client} (h : ConnStep e io srv cli .func srv' c)
    (hs : cli.state = .execReq) (hname : cli.loggedIn = true) (hne : srv' ≠ srv) :
    cli.verifies e cli.user = true := by
  cases h with
  | exec _ _ _ hexec =>
    cases hexec with
    | refused _ _ => exact absurd rfl hne
    | passed _ hauth _ _ _ _ => exact hauth hname
  | dataIn _ hin _ _ => simp [hs] at hin
  | freed hdisp _ => simp [hs] at hdisp
  | copies hev _ _ => cases hev
  | idle | writes _ | waits | readFixed _ _ _ | readVar _ _ _ | recycled _ _ | accepted _ _ _
  | copied _ _ => exact absurd rfl hne

end

/-! ## A run -/

/-- How far a client has come: `Gate` says whose requests are executed on it. Before a LOGIN of somebody
verifies nothing is told but headers, and a LOGIN that fails is the last request. -/
structure Client.Guarded (e : Env) (cli : Client) : Prop where
  gate : cli.Gate e
  mute : (∀ r ∈ cli.executed, ¬ r.LogsIn e) → ∀ q ∈ cli.queued, IsHeader q
  checked : ∀ r ∈ cli.executed.dropLast, r.hdr.op = .login → r.Passes e

theorem run_user (e : Env) {is : List (Srv × Io × ConnEv)} {cli cli' : Client}
    (hname : cli.loggedIn = true) (hrun : run (connNext e) (some cli) is = some cli') :
    cli'.user = cli.user := by
  have hall : ∀ cli' ∈ run (connNext e) (some cli) is, cli'.user = cli.user := by
    refine run_invariant (I := fun c : Option Client => ∀ cli' ∈ c, cli'.user = cli.user) ?_ ?_ is
    · rintro cli' ⟨⟩
      rfl
    · intro c i ih cli' hcli'
      obtain ⟨cli₁, srv', c', rfl, hnext, hcli'⟩ := connNext_eq_some hcli'
      have hkept := ih cli₁ rfl
      have hin : cli₁.loggedIn = true := by
        unfold Client.loggedIn at hname ⊢
        rw [hkept]
        exact hname
      exact ((connStep_cases hnext).user hin cli' hcli').trans hkept
  exact hall cli' hrun

/-- The gate in any run: what has been executed and told, that the user stays, and that only a LOGIN of
this user that has verified lets the server be changed, by requests that verify. -/
theorem run_guarded (e : Env) {is : List (Srv × Io × ConnEv)} {cli : Client}
    (hrun : run (connNext e) (some cliAlloc) is = some cli) :
    cli.Guarded e ∧
      (∀ js cli', cli.loggedIn = true → run (connNext e) (some cli) js = some cli' →
        cli'.user = cli.user) ∧
      ∀ srv io ev srv' c, connStep e io srv cli ev = some (srv', c) → srv' ≠ srv →
        (∃ r ∈ cli.executed, r.LogsIn e ∧ cli.user = r.userName) ∧
          (cli.state = .execReq → ev = .func → cli.verifies e cli.user = true) := by
  have hall : ∀ cli ∈ run (connNext e) (some cliAlloc) is, cli.Heard ∧ cli.Gate e ∧ cli.Checked e ∧
      ((∀ r ∈ cli.executed, ¬ r.LogsIn e) → cli.toClientTx.Mute) := by
    refine run_invariant (I := fun c : Option Client => ∀ cli ∈ c, cli.Heard ∧ cli.Gate e ∧
      cli.Checked e ∧ ((∀ r ∈ cli.executed, ¬ r.LogsIn e) → cli.toClientTx.Mute)) ?_ ?_ is
    · rintro cli ⟨⟩
      refine ⟨.init, .nobody ⟨rfl, rfl, rfl, by simp [cliAlloc]⟩ (by decide) (by simp [cliAlloc]),
        ⟨by simp [cliAlloc], .inl (by simp [cliAlloc])⟩, fun _ => ⟨?_, ?_⟩⟩ <;> simp [cliAlloc]
    · intro c i ih cli' hcli'
      obtain ⟨cli, srv', c', rfl, hnext, hcli'⟩ := connNext_eq_some hcli'
      obtain ⟨hheard, hgate, hchecked, hmute⟩ := ih cli rfl
      have hcases := connStep_cases hnext
      exact ⟨hheard.step hcases cli' hcli', hgate.step hheard hcases cli' hcli',
        hchecked.step hheard hcases cli' hcli', hgate.mute hmute hnext cli' hcli'⟩
  obtain ⟨hheard, hgate, hchecked, hmute⟩ := hall cli hrun
  refine ⟨⟨hgate, fun hnone => (hmute hnone).queued, hchecked.before⟩,
    fun js cli' hname hrun' => run_user e hname hrun', ?_⟩
  intro srv io ev srv' c hstep hne
  have hlogin : ∃ r ∈ cli.executed, r.LogsIn e ∧ cli.user = r.userName := by
    rcases (connStep_cases hstep).changes hgate hheard hne with h | ⟨-, h⟩
    · exact h.exists_logsIn
    · obtain ⟨r, hr, hlogs⟩ := h.exists_logsIn
      exact ⟨r, List.dropLast_subset _ hr, hlogs⟩
  refine ⟨hlogin, fun hs hev => ?_⟩
  obtain ⟨r, -, hlogs, huser⟩ := hlogin
  have hname : cli.loggedIn = true := by
    unfold Client.loggedIn
    rw [huser]
    exact decide_eq_true hlogs.2.1
  subst hev
  exact (connStep_cases hstep).verified hs hname hne

/-- A CHECK_START of a user who is logged in. -/
theorem run_guarded_check : checkCli.Guarded .signing ∧
    (∃ r ∈ checkCli.executed, r.LogsIn .signing ∧ checkCli.user = r.userName) ∧
    checkCli.verifies .signing checkCli.user = true := by
  have hstarted : (connStep .signing (gives 0 []).2.1 { bareSrv with chkUsers := [[0x75]] } checkCli
      .func).map (fun p => p.1.chkState) = some .init := by decide +kernel
  obtain ⟨⟨srv', c⟩, hstep, hst⟩ := Option.map_eq_some_iff.mp hstarted
  obtain ⟨hguarded, -, hchanges⟩ := run_guarded .signing checkCli_run
  obtain ⟨hlogin, hverifies⟩ := hchanges _ _ _ _ _ hstep (by rintro rfl; cases hst)
  exact ⟨hguarded, hlogin, hverifies (by decide +kernel) rfl⟩

/-- A login of a name that begins with a NUL. -/
def nulMsg : Message := signedMsg .login 0 13 [0] [] "QCFsCoLd4+g3MKZPArkBnJLsQK0="

/-- It verifies and is told so, and then another user logs in. -/
theorem nulLogin_changes :
    ∃ cli ∈ storing ([reads nulMsg.req.creq, reads [0]] ++ serves),
      ∃ cli' ∈ storing ([reads nulMsg.req.creq, reads [0]] ++ serves ++
        [reads loginMsg.req.creq, reads [0x75]] ++ serves),
        cli.executed = [nulMsg.req] ∧ nulMsg.req.verifies .storing cli.user = true ∧
          cli.queued = [(respInitReq nulMsg.hdr).encode.map .mem] ∧
          cli'.executed = [nulMsg.req, loginMsg.req] ∧
          loginMsg.req.verifies .storing cli.user = false ∧ cli'.user ≠ cli.user := by
  decide +kernel

/-! ## What a signature covers -/

/-- The source key of a copy. -/
def ClientRx.source (rx : ClientRx) : Bytes := if rx.req.op = .cp then rx.key2Bytes else []

/-- Two requests that verify under one user, with one table open. -/
structure Client.Alike (e : Env) (cli cli' : Client) : Prop where
  user : cli'.user = cli.user
  table : cli'.tableId = cli.tableId
  verifies : cli.verifies e cli.user = true
  verifies' : cli'.verifies e cli'.user = true

/-- Two such requests with the same bytes signed ask for the same, unless they are copies, alike in their
headers and keys, from different sources. -/
theorem run_covers_iff (e : Env) {is is' : List (Srv × Io × ConnEv)} {cli cli' : Client}
    (hrun : run (connNext e) (some cliAlloc) is = some cli)
    (hrun' : run (connNext e) (some cliAlloc) is' = some cli')
    (hs : cli.state = .execReq) (hs' : cli'.state = .execReq) :
    (cli.Alike e cli' → cli.signed = cli'.signed →
        cli.operation = cli'.operation ∧ cli.source = cli'.source) ↔
      ¬ (cli.Alike e cli' ∧ cli.operation = cli'.operation ∧ cli.req.op = .cp ∧
        cli.key2Bytes ≠ cli'.key2Bytes) := by
  have hsigned := (run_heard e is cli hrun).signed_iff (run_heard e is' cli' hrun') hs hs'
  constructor
  · rintro h ⟨halike, hoperation, hop, hne⟩
    have hop' : cli'.req.op = .cp := (congrArg Operation.op hoperation).symm.trans hop
    obtain ⟨-, hsource⟩ := h halike (hsigned.mpr hoperation)
    rw [ClientRx.source, ClientRx.source, if_pos hop, if_pos hop'] at hsource
    exact hne hsource
  · intro h halike heq
    have hoperation := hsigned.mp heq
    refine ⟨hoperation, ?_⟩
    have hop' : cli.req.op = cli'.req.op := congrArg Operation.op hoperation
    unfold ClientRx.source
    rw [← hop']
    split
    · next hop =>
      by_contra hne
      exact h ⟨halike, hoperation, hop, hne⟩
    · rfl

/-- A client logs in, opens a table and asks for a copy of an object to `k`. -/
def copyReads (src : UInt8) : List (Io × ConnEv) :=
  [reads loginMsg.req.creq, reads [0x75]] ++ serves ++ [reads openMsg.req.creq, reads [0x74]] ++ serves ++
    [reads (signedHdr .cp 0 11 1 1 "npZ2aAHQZexwBvEKY10e/VtdEuA="), reads [0x6b], reads [src]]

theorem copyReads_alike :
    ∃ cli ∈ storing (copyReads 0x73), ∃ cli' ∈ storing (copyReads 0x74),
      (cli.state = .execReq ∧ cli'.state = .execReq ∧ cli.req.op = .cp) ∧ cli.Alike .storing cli' ∧
        cli.signed = cli'.signed ∧ cli.operation = cli'.operation ∧ cli.key2Bytes ≠ cli'.key2Bytes := by
  have hends : ∃ cli ∈ storing (copyReads 0x73), ∃ cli' ∈ storing (copyReads 0x74),
      (cli.state = .execReq ∧ cli'.state = .execReq ∧ cli.req.op = .cp) ∧
        (cli'.user = cli.user ∧ cli'.tableId = cli.tableId ∧ cli.verifies .storing cli.user = true ∧
          cli'.verifies .storing cli'.user = true) ∧
        cli.signed = cli'.signed ∧ cli.operation = cli'.operation ∧ cli.key2Bytes ≠ cli'.key2Bytes := by
    decide +kernel
  obtain ⟨cli, hcli, cli', hcli', hs, ⟨huser, htable, hv, hv'⟩, hends⟩ := hends
  exact ⟨cli, hcli, cli', hcli', hs, ⟨huser, htable, hv, hv'⟩, hends⟩

/-- Copies from two sources. -/
theorem run_covers_iff_copies :
    ∃ cli ∈ storing (copyReads 0x73), ∃ cli' ∈ storing (copyReads 0x74),
      ¬ (cli.Alike .storing cli' → cli.signed = cli'.signed →
        cli.operation = cli'.operation ∧ cli.source = cli'.source) := by
  obtain ⟨cli, hcli, cli', hcli', ⟨hs, hs', hop⟩, halike, -, hoperation, hne⟩ := copyReads_alike
  refine ⟨cli, hcli, cli', hcli', fun h => ?_⟩
  exact (run_covers_iff .storing hcli hcli' hs hs').mp h ⟨halike, hoperation, hop, hne⟩

theorem copies_uncovered :
    ∃ cli ∈ storing (copyReads 0x73), ∃ cli' ∈ storing (copyReads 0x74),
      cli.state = .execReq ∧ cli'.state = .execReq ∧ cli.Alike .storing cli' ∧
        cli.signed = cli'.signed ∧ cli.source ≠ cli'.source := by
  obtain ⟨cli, hcli, cli', hcli', ⟨hs, hs', hop⟩, halike, hsigned, hoperation, hne⟩ := copyReads_alike
  have hop' : cli'.req.op = .cp := (congrArg Operation.op hoperation).symm.trans hop
  refine ⟨cli, hcli, cli', hcli', hs, hs', halike, hsigned, ?_⟩
  rw [ClientRx.source, ClientRx.source, if_pos hop, if_pos hop']
  exact hne

end Hail.Chunkd
