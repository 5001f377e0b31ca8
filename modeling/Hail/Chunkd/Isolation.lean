import Hail.Chunkd.Hiding
import Hail.Chunkd.Traces

/-!
# Users apart

Requests of other users leave the objects of a user as they are, and are answered the same whatever is in
them. Two runs of the server with the same events are compared, over stores that differ in these objects:
every step does the same in both, and sends nothing of a file that is not the same.
-/
namespace Hail.Chunkd

open Library

/-! ## Requests -/

def Srv.exchange (srv : Srv) (S : Finset ℕ) (g : ℕ → File) : Srv := { srv with fs := srv.fs.exchange S g }

@[simp] theorem Srv.exchange_fs (srv : Srv) (S : Finset ℕ) (g : ℕ → File) :
    (srv.exchange S g).fs = srv.fs.exchange S g := rfl

@[simp] theorem Srv.exchange_actives (srv : Srv) (S : Finset ℕ) (g : ℕ → File) :
    (srv.exchange S g).actives = srv.actives := rfl

@[simp] theorem Srv.exchange_chkState (srv : Srv) (S : Finset ℕ) (g : ℕ → File) :
    (srv.exchange S g).chkState = srv.chkState := rfl

@[simp] theorem Srv.exchange_tbl (srv : Srv) (S : Finset ℕ) (g : ℕ → File) :
    (srv.exchange S g).tbl = srv.tbl := rfl

/-- A client that neither reads nor writes the files in `S`, nor copies for their user. -/
structure Client.Aside (user : Bytes) (S : Finset ℕ) (fs₀ : Vol) (cli : Client) : Prop where
  tx : cli.toClientTx.Aside S
  out : ∀ bo ∈ cli.outBo, bo.WritesAside S fs₀
  worker : cli.worker ≠ none → cstr cli.user ≠ cstr user

/-- What is done over other files in `S` is the same, and leaves those files as they are. -/
def SameOver {β : Type*} (user : Bytes) (S : Finset ℕ) (g : ℕ → File) (fs₀ : Vol) (P : β → Prop)
    (r' r : Option (Srv × β)) : Prop :=
  r' = r.map (fun x => (x.1.exchange S g, x.2)) ∧ ∀ x ∈ r, Hides user S g fs₀ x.1.fs ∧ P x.2

section

variable {β γ : Type*} {u : Bytes} {S : Finset ℕ} {g : ℕ → File} {fs₀ : Vol} {P : β → Prop}
  {Q : γ → Prop}

theorem SameOver.died : SameOver u S g fs₀ P none none := ⟨rfl, by simp⟩

theorem SameOver.of {srv : Srv} {b : β} (h : Hides u S g fs₀ srv.fs) (hb : P b) :
    SameOver u S g fs₀ P (some (srv.exchange S g, b)) (some (srv, b)) := by
  refine ⟨rfl, ?_⟩
  rintro x ⟨⟩
  exact ⟨h, hb⟩

theorem SameOver.map {r' r : Option (Srv × β)} (h : SameOver u S g fs₀ P r' r) {f : β → γ}
    (hf : ∀ b, P b → Q (f b)) :
    SameOver u S g fs₀ Q (r'.map fun x => (x.1, f x.2)) (r.map fun x => (x.1, f x.2)) := by
  obtain ⟨rfl, hr⟩ := h
  refine ⟨by simp [Function.comp_def], fun x hx => ?_⟩
  obtain ⟨y, hy, rfl⟩ := Option.map_eq_some_iff.mp hx
  exact ⟨(hr y hy).1, hf _ (hr y hy).2⟩

end

section

variable {e : Env} {io : Io} {u : Bytes} {S : Finset ℕ} {g : ℕ → File} {fs₀ : Vol} {srv : Srv}
  {cli : Client}

theorem SameOver.tx {tx' tx : ClientTx} (h : Hides u S g fs₀ srv.fs) (hc : cli.Aside u S fs₀)
    (htx : tx' = tx ∧ tx.Aside S) :
    SameOver u S g fs₀ (Client.Aside u S fs₀) (some (srv.exchange S g, { cli with toClientTx := tx' }))
      (some (srv, { cli with toClientTx := tx })) := by
  obtain ⟨rfl, htx⟩ := htx
  exact .of h ⟨htx, hc.out, hc.worker⟩

/-- The upload is over. -/
theorem Client.Aside.outEnd (hc : cli.Aside u S fs₀) (srv : Srv) (out : ClientOut) :
    Client.Aside u S fs₀ { cli with toClientOut := (cliOutEnd srv out).2 } :=
  ⟨hc.tx, by rintro bo ⟨⟩, hc.worker⟩

theorem cliOutEnd_exchange (srv : Srv) (out : ClientOut) :
    cliOutEnd (srv.exchange S g) out = ((cliOutEnd srv out).1.exchange S g, (cliOutEnd srv out).2) := by
  unfold cliOutEnd
  cases out.outBo with
  | none => rfl
  | some bo =>
    simp only [Srv.exchange_fs, fsObjFree_exchange]
    rfl

theorem cliOutEnd_hides (h : Hides u S g fs₀ srv.fs) {out : ClientOut}
    (hout : ∀ bo ∈ out.outBo, bo.WritesAside S fs₀) : Hides u S g fs₀ (cliOutEnd srv out).1.fs := by
  unfold cliOutEnd
  cases hbo : out.outBo with
  | none => exact h
  | some bo => exact fsObjFree_hides h (hout bo hbo)

theorem objectDel_same (h : Hides u S g fs₀ srv.fs) (hc : cli.Aside u S fs₀)
    (huser : cstr cli.user ≠ cstr u) :
    SameOver u S g fs₀ (Client.Aside u S fs₀) (some (objectDel e io (srv.exchange S g) cli))
      (some (objectDel e io srv cli)) := by
  obtain ⟨⟨r, fs'⟩, hr⟩ : ∃ p, fsObjDelete e io.sys srv.fs cli.tableId cli.user cli.keyBytes = p :=
    ⟨_, rfl⟩
  have h' : Hides u S g fs₀ ({ srv with fs := fs' } : Srv).fs := fsObjDelete_hides h huser hr
  unfold objectDel
  rw [Srv.exchange_fs, fsObjDelete_exchange h huser hr, hr]
  split
  · exact .of h ⟨hc.tx.same rfl rfl, hc.out, hc.worker⟩
  · cases r with
    | none => exact .tx h' hc (cliRespond_same hc.tx io _ _)
    | some err => exact .tx h' hc (cliErr_same hc.tx io _ _ _)

theorem objectPutEnd_same (h : Hides u S g fs₀ srv.fs) (hc : cli.Aside u S fs₀) :
    SameOver u S g fs₀ (Client.Aside u S fs₀) (objectPutEnd e io (srv.exchange S g) cli)
      (objectPutEnd e io srv cli) := by
  unfold objectPutEnd
  split
  · exact .of h ⟨hc.tx.same rfl rfl, hc.out, hc.worker⟩
  · split
    · next bo user hbo huser =>
      obtain ⟨⟨ok, fs', bo'⟩, hr⟩ : ∃ p, fsObjWriteCommit e io.sys srv.fs bo user (e.sha1 cli.outHash)
        (has cli.req.flags chfSync) = p := ⟨_, rfl⟩
      obtain ⟨h', hbo'⟩ := fsObjWriteCommit_hides h (hc.out bo hbo) hr
      have hout : ∀ bo ∈ ({ cli.toClientOut with outBo := some bo' } : ClientOut).outBo,
          bo.WritesAside S fs₀ := by
        rintro bo ⟨⟩
        exact hbo'
      have hend : Hides u S g fs₀
          (cliOutEnd { srv with fs := fs' } { cli.toClientOut with outBo := some bo' }).1.fs :=
        cliOutEnd_hides h' hout
      have hexch : cliOutEnd { srv.exchange S g with fs := fs'.exchange S g }
            { cli.toClientOut with outBo := some bo' } =
          ((cliOutEnd { srv with fs := fs' } { cli.toClientOut with outBo := some bo' }).1.exchange S g,
            (cliOutEnd { srv with fs := fs' } { cli.toClientOut with outBo := some bo' }).2) :=
        cliOutEnd_exchange { srv with fs := fs' } _
      have hc' : Client.Aside u S fs₀
          { cli with
            toClientOut :=
              (cliOutEnd { srv with fs := fs' } { cli.toClientOut with outBo := some bo' }).2
            state := .recycle } := ⟨hc.tx.same rfl rfl, by rintro bo ⟨⟩, hc.worker⟩
      simp only [Srv.exchange_fs, fsObjWriteCommit_exchange (hc.out bo hbo) hr, hr, hexch]
      split
      · exact .tx hend hc' (cliRespond_same hc'.tx io _ _)
      · exact .tx hend hc' (cliErr_same hc'.tx io _ _ _)
    · exact .died

theorem objectPut_same (h : Hides u S g fs₀ srv.fs) (hc : cli.Aside u S fs₀) :
    SameOver u S g fs₀ (Client.Aside u S fs₀) (objectPut e io (srv.exchange S g) cli)
      (objectPut e io srv cli) := by
  unfold objectPut
  dsimp only
  rw [Srv.exchange_actives]
  split
  · exact .died
  · next cep actives _ =>
    obtain ⟨⟨r, fs'⟩, hr⟩ : ∃ p, fsObjNew e io.sys srv.fs cli.tableId cli.keyBytes cli.req.dataLen = p :=
      ⟨_, rfl⟩
    obtain ⟨h', hbo⟩ := fsObjNew_hides h hr
    rw [Srv.exchange_fs, fsObjNew_exchange h hr, hr]
    cases r with
    | error err =>
      have hc' : Client.Aside u S fs₀ { cli with outCe := some cep, outBo := none } :=
        ⟨hc.tx, by rintro bo ⟨⟩, hc.worker⟩
      have hsrv : Hides u S g fs₀ ({ srv with fs := fs', actives } : Srv).fs := h'
      exact .tx hsrv hc' (cliErr_same hc.tx io _ _ _)
    | ok bo =>
      have haside : ∀ (outHash : Bytes) (outLen : Nat) (outUser : Option Bytes), Client.Aside u S fs₀
          { cli with outCe := some cep, outBo := some bo, outHash, outLen, outUser } := by
        refine fun _ _ _ => ⟨hc.tx, ?_, hc.worker⟩
        rintro bo ⟨⟩
        exact hbo _ rfl
      have hsrv : Hides u S g fs₀ ({ srv with fs := fs', actives } : Srv).fs := h'
      dsimp only
      split
      · exact objectPutEnd_same hsrv (haside _ _ _)
      · exact .of hsrv ⟨hc.tx.same rfl rfl, (haside [] 0 none).out, hc.worker⟩

theorem dataInWrite_same (h : Hides u S g fs₀ srv.fs) (hc : cli.Aside u S fs₀) (bs : Bytes) :
    SameOver u S g fs₀ (Client.Aside u S fs₀) (dataInWrite e io (srv.exchange S g) cli bs)
      (dataInWrite e io srv cli bs) := by
  unfold dataInWrite
  split
  · exact .died
  · next bo hbo =>
    obtain ⟨⟨r, fs', bo'⟩, hr⟩ : ∃ p, fsObjWrite e io.sys.now (io.sys.writes 0) srv.fs bo bs = p :=
      ⟨_, rfl⟩
    obtain ⟨h', hbo'⟩ := fsObjWrite_hides h (hc.out bo hbo) hr
    have hsrv : Hides u S g fs₀ ({ srv with fs := fs' } : Srv).fs := h'
    rw [Srv.exchange_fs, fsObjWrite_exchange (hc.out bo hbo) hr, hr]
    cases r with
    | never => exact .died
    | failed =>
      have hout : ∀ bo ∈ ({ cli.toClientOut with outBo := some bo' } : ClientOut).outBo,
          bo.WritesAside S fs₀ := by
        rintro bo ⟨⟩
        exact hbo'
      have hexch : cliOutEnd { srv.exchange S g with fs := fs'.exchange S g }
            { cli.toClientOut with outBo := some bo' } =
          ((cliOutEnd { srv with fs := fs' } { cli.toClientOut with outBo := some bo' }).1.exchange S g,
            (cliOutEnd { srv with fs := fs' } { cli.toClientOut with outBo := some bo' }).2) :=
        cliOutEnd_exchange { srv with fs := fs' } _
      have hc' := hc.outEnd { srv with fs := fs' } { cli.toClientOut with outBo := some bo' }
      simp only [hexch]
      exact .tx (cliOutEnd_hides hsrv hout) hc' (cliErr_same hc.tx io _ _ _)
    | all =>
      have haside : ∀ (outHash : Bytes) (outLen : Nat), Client.Aside u S fs₀
          { cli with outBo := some bo', outHash, outLen } := by
        refine fun _ _ => ⟨hc.tx, ?_, hc.worker⟩
        rintro bo ⟨⟩
        exact hbo'
      dsimp only
      split
      · exact objectPutEnd_same hsrv (haside _ _)
      · exact .of hsrv (haside _ _)

theorem cliEvtDataIn_same (h : Hides u S g fs₀ srv.fs) (hc : cli.Aside u S fs₀) :
    SameOver u S g fs₀ (Client.Aside u S fs₀) (cliEvtDataIn e io (srv.exchange S g) cli)
      (cliEvtDataIn e io srv cli) := by
  unfold cliEvtDataIn
  split
  · exact objectPutEnd_same h hc
  · dsimp only
    split
    · refine dataInWrite_same h ?_ _
      exact ⟨hc.tx, hc.out, hc.worker⟩
    · exact .of h ⟨hc.tx.same rfl rfl, hc.out, hc.worker⟩
    · exact .of h hc
    · split
      · exact .of h ⟨hc.tx.same rfl rfl, hc.out, hc.worker⟩
      · exact .of h hc
    · split
      · exact .tx h hc (cliErr_same hc.tx io _ _ _)
      · simp only [cliOutEnd_exchange]
        exact .tx (cliOutEnd_hides h hc.out) (hc.outEnd srv cli.toClientOut) (cliErr_same hc.tx io _ _ _)

/-! ## Reading -/

theorem objectGet_same {fs : Vol} (h : Hides u S g fs₀ fs) (hc : cli.Aside u S fs₀)
    (huser : cstr cli.user ≠ cstr u) (wantBody : Bool) :
    objectGet e io (fs.exchange S g) cli wantBody = objectGet e io fs cli wantBody ∧
      (objectGet e io fs cli wantBody).Aside S := by
  unfold objectGet
  rw [fsObjOpen_exchange h huser]
  dsimp only
  split
  · exact ⟨rfl, hc.tx.same rfl rfl⟩
  · split
    · refine cliErr_same ?_ io _ _ _
      exact ⟨by rintro obj ⟨⟩, hc.tx.sent⟩
    · next obj hopen =>
      have hobj := hc.tx.opened (fsObjOpen_aside h huser hopen) obj.size
      split
      · next hq => exact ⟨rfl, hobj.writeq hq⟩
      · next tx hq =>
        have htx := hobj.writeq hq
        split
        · exact cliWriteStart_same htx.inEnd io.wr
        · obtain ⟨heq, haside⟩ := @objectReadBytes_same e fs S g tx
            ⟨io.sys.reads 0, io.sys.fails (if useSendfile tx then .bodyEntry else .bodyWriteq)⟩ htx
          rw [heq]
          split
          · next hread =>
            rw [hread] at haside
            exact cliWriteStart_same haside io.wr
          · next hread =>
            rw [hread] at haside
            exact cliErr_same haside.inEnd io _ _ _

theorem partRead_same {fs : Vol} {obj : FsObj} (h : obj.ReadsAside S) (r : PartRange) :
    partRead e io (fs.exchange S g) obj r = partRead e io fs obj r ∧
      (partRead e io fs obj r).2.ReadsAside S := by
  unfold partRead
  split
  · exact ⟨rfl, h⟩
  · split
    · exact ⟨rfl, h⟩
    · next obj' hseek =>
      have hobj := fsObjSeek_aside h hseek
      rw [fsObjRead_exchange hobj]
      refine ⟨rfl, ?_⟩
      split
      · exact hobj
      · split
        · next hread =>
          split <;> exact fsObjRead_aside hobj hread
        · next hread => exact fsObjRead_aside hobj hread

theorem objectGetPart_same {fs : Vol} (h : Hides u S g fs₀ fs) (hc : cli.Aside u S fs₀)
    (huser : cstr cli.user ≠ cstr u) :
    objectGetPart e io (fs.exchange S g) cli = objectGetPart e io fs cli ∧
      ∀ tx ∈ objectGetPart e io fs cli, tx.Aside S := by
  have hsome : ∀ {tx' tx : ClientTx}, tx' = tx ∧ tx.Aside S →
      some tx' = some tx ∧ ∀ t ∈ some tx, t.Aside S := by
    rintro tx' tx ⟨rfl, htx⟩
    refine ⟨rfl, ?_⟩
    rintro t ⟨⟩
    exact htx
  unfold objectGetPart
  rw [fsObjOpen_exchange h huser]
  dsimp only
  split
  · exact hsome ⟨rfl, hc.tx.same rfl rfl⟩
  · split
    · refine hsome (cliErr_same ?_ io _ _ _)
      exact ⟨by rintro obj ⟨⟩, hc.tx.sent⟩
    · next obj hopen =>
      have hobj := fsObjOpen_aside h huser hopen
      split
      · exact hsome (cliErr_same (hc.tx.opened hobj _) io _ _ _)
      · obtain ⟨heq, hread⟩ := @partRead_same e io S g fs obj hobj
          (partRange obj.size (ofLe cli.creqGetpart.data) cli.req.dataLen)
        rw [heq]
        split
        · next hr =>
          rw [hr] at hread
          exact hsome (cliErr_same (hc.tx.opened hread _) io _ _ _)
        · next mem obj' hr =>
          rw [hr] at hread
          split
          · exact ⟨rfl, by simp⟩
          · split
            · next hq => exact hsome ⟨rfl, (hc.tx.opened hread _).writeq hq⟩
            · next hq =>
              have htx := (hc.tx.opened hread _).writeq hq
              split
              · exact hsome (cliWriteStart_same htx.inEnd io.wr)
              · split
                · next hq' => exact hsome ⟨rfl, htx.writeq hq'⟩
                · next hq' => exact hsome (cliWriteStart_same (htx.writeq hq').inEnd io.wr)

theorem cliWriteList_aside {tx tx' : ClientTx} (h : tx.Aside S) (i : Nat) {content : List Bytes}
    {ok : Bool} (hq : cliWriteList io i content tx = (tx', ok)) : tx'.Aside S := by
  induction content generalizing i tx with
  | nil =>
    obtain ⟨rfl, -⟩ := Prod.mk.inj hq
    exact h
  | cons s content ih =>
    rw [cliWriteList] at hq
    split at hq
    · next hs =>
      obtain ⟨rfl, -⟩ := Prod.mk.inj hq
      exact h.writeq hs
    · next hs => exact ih (h.writeq hs) (i + 1) hq

theorem cliRespXml_same {fs : Vol} {tx : ClientTx} (h : tx.Aside S) (creq : ChunksrvReq)
    (content : List Bytes) :
    cliRespXml e io (fs.exchange S g) creq content tx = cliRespXml e io fs creq content tx ∧
      (cliRespXml e io fs creq content tx).Aside S := by
  have hrecycle : ClientTx.Aside S { tx with state := .recycle } := h.same rfl rfl
  unfold cliRespXml
  dsimp only
  split
  · exact ⟨rfl, h.same rfl rfl⟩
  · split
    · next hq => exact ⟨rfl, (hrecycle.writeq hq).same rfl rfl⟩
    · next hq =>
      have htx := hrecycle.writeq hq
      split
      · next hl => exact ⟨rfl, (cliWriteList_aside htx 0 hl).same rfl rfl⟩
      · next hl => exact cliWriteStart_same (cliWriteList_aside htx 0 hl) io.wr

theorem cliRespBin_same {fs : Vol} {tx : ClientTx} (h : tx.Aside S) (creq : ChunksrvReq) (data : Bytes) :
    cliRespBin e io (fs.exchange S g) creq data tx = cliRespBin e io fs creq data tx ∧
      (cliRespBin e io fs creq data tx).Aside S := by
  have hrecycle : ClientTx.Aside S { tx with state := .recycle } := h.same rfl rfl
  unfold cliRespBin
  dsimp only
  split
  · exact ⟨rfl, h.same rfl rfl⟩
  · split
    · next hq => exact ⟨rfl, (hrecycle.writeq hq).same rfl rfl⟩
    · next hq =>
      have htx := hrecycle.writeq hq
      split
      · next hb => exact ⟨rfl, (htx.writeq hb).same rfl rfl⟩
      · next hb => exact cliWriteStart_same (htx.writeq hb) io.wr

/-! ## Copies and other requests -/

theorem workerCpThr_same (h : Hides u S g fs₀ srv.fs) (hc : cli.Aside u S fs₀) {wi : WorkerInfo}
    (hw : cli.worker = some wi) :
    SameOver u S g fs₀ (Client.Aside u S fs₀) (workerCpThr e io (srv.exchange S g) cli wi)
      (workerCpThr e io srv cli wi) := by
  have huser : cstr cli.user ≠ cstr u := hc.worker (by simp [hw])
  have hgoes : ∀ (inLen : Nat) (outHash : Bytes) (outCe : Option UInt32) (worker : Option WorkerInfo),
      Client.Aside u S fs₀ { cli with inLen, outHash, outCe, worker } :=
    fun _ _ _ _ => ⟨hc.tx.same rfl rfl, hc.out, fun _ => huser⟩
  have hread : ∀ {obj : FsObj}, obj.ReadsAside S → ∀ (inLen : Nat) (outHash : Bytes)
      (worker : Option WorkerInfo),
      Client.Aside u S fs₀ { cli with inObj := some obj, inLen, outHash, worker } :=
    fun hobj _ _ _ => ⟨(hc.tx.opened hobj _).same rfl rfl, hc.out, fun _ => huser⟩
  have hwrite : ∀ {bo : FsObj}, bo.WritesAside S fs₀ → ∀ (outHash : Bytes) (worker : Option WorkerInfo),
      Client.Aside u S fs₀ { cli with outBo := some bo, outHash, worker } := by
    refine fun hbo _ _ => ⟨hc.tx, ?_, fun _ => huser⟩
    rintro bo ⟨⟩
    exact hbo
  unfold workerCpThr
  split
  · rw [Srv.exchange_fs, fsObjOpen_exchange h huser]
    split
    · exact .of h (hgoes _ _ _ _)
    · split
      · refine .of h ⟨⟨?_, hc.tx.sent⟩, hc.out, fun _ => huser⟩
        rintro obj ⟨⟩
      · next hopen => exact .of h (hread (fsObjOpen_aside h huser hopen) _ _ _)
  · rw [Srv.exchange_actives]
    split
    · exact .died
    · next cep actives _ =>
      have hsrv : Hides u S g fs₀ ({ srv with actives } : Srv).fs := h
      exact .of hsrv (hgoes _ _ _ _)
  · split
    · exact .died
    · next obj _ =>
      obtain ⟨⟨r, fs'⟩, hr⟩ : ∃ p, fsObjNew e io.sys srv.fs cli.tableId cli.keyBytes obj.size = p :=
        ⟨_, rfl⟩
      obtain ⟨h', hbo⟩ := fsObjNew_hides h hr
      have hsrv : Hides u S g fs₀ ({ srv with fs := fs' } : Srv).fs := h'
      rw [Srv.exchange_fs, fsObjNew_exchange h hr, hr]
      cases r with
      | error err =>
        refine .of hsrv ⟨hc.tx, ?_, fun _ => huser⟩
        rintro bo ⟨⟩
      | ok bo => exact .of hsrv (hwrite (hbo bo rfl) _ _)
  · split
    · exact .of h (hgoes _ _ _ _)
    · split
      · exact .died
      · next obj hobj =>
        have haside := hc.tx.inObj obj hobj
        rw [Srv.exchange_fs, fsObjRead_exchange haside]
        split
        · next hr => exact .of h (hread (fsObjRead_aside haside hr) _ _ _)
        · next hr =>
          split
          · exact .of h (hread (fsObjRead_aside haside hr) _ _ _)
          · exact .of h (hread (fsObjRead_aside haside hr) _ _ _)
  · next bs _ =>
    split
    · exact .died
    · next bo hbo =>
      obtain ⟨⟨r, fs', bo'⟩, hr⟩ : ∃ p, fsObjWrite e io.sys.now (io.sys.writes 0) srv.fs bo bs = p :=
        ⟨_, rfl⟩
      obtain ⟨h', hbo'⟩ := fsObjWrite_hides h (hc.out bo hbo) hr
      have hsrv : Hides u S g fs₀ ({ srv with fs := fs' } : Srv).fs := h'
      rw [Srv.exchange_fs, fsObjWrite_exchange (hc.out bo hbo) hr, hr]
      cases r with
      | never => exact .died
      | failed => exact .of hsrv (hwrite hbo' _ _)
      | all => exact .of hsrv (hwrite hbo' _ _)
  · split
    · exact .died
    · next bo hbo =>
      obtain ⟨⟨ok, fs', bo'⟩, hr⟩ : ∃ p, fsObjWriteCommit e io.sys srv.fs bo cli.user
        (e.sha1 cli.outHash) false = p := ⟨_, rfl⟩
      obtain ⟨h', hbo'⟩ := fsObjWriteCommit_hides h (hc.out bo hbo) hr
      have hsrv : Hides u S g fs₀ ({ srv with fs := fs' } : Srv).fs := h'
      rw [Srv.exchange_fs, fsObjWriteCommit_exchange (hc.out bo hbo) hr, hr]
      cases ok with
      | false => exact .of hsrv (hwrite hbo' _ _)
      | true => exact .of hsrv (hwrite hbo' _ _)
  · simp only [cliOutEnd_exchange]
    exact .of (cliOutEnd_hides h hc.out)
      ⟨⟨by rintro obj ⟨⟩, hc.tx.sent⟩, by rintro bo ⟨⟩, fun _ => huser⟩
  · exact .of h hc

theorem volumeOpen_same (h : Hides u S g fs₀ srv.fs) (hc : cli.Aside u S fs₀) :
    SameOver u S g fs₀ (Client.Aside u S fs₀) (some (volumeOpen e io (srv.exchange S g) cli))
      (some (volumeOpen e io srv cli)) := by
  unfold volumeOpen
  dsimp only
  rw [Srv.exchange_tbl]
  split
  · next err tableId tbl _ =>
    have hsrv : Hides u S g fs₀ ({ srv with tbl } : Srv).fs := h
    have hc' : Client.Aside u S fs₀ { cli with tableId } := ⟨hc.tx, hc.out, hc.worker⟩
    exact .tx hsrv hc' (cliErr_same hc.tx io _ _ _)
  · next tableId tbl _ =>
    have hsrv : Hides u S g fs₀ ({ srv with tbl } : Srv).fs := h
    have hc' : Client.Aside u S fs₀
        { cli with
          tableId
          table := cli.keyBytes ++ List.replicate (chdKeySz - cli.keyLen) 0
          tableLen := cli.keyLen } := ⟨hc.tx, hc.out, hc.worker⟩
    exact .tx hsrv hc' (cliErr_same hc.tx io _ _ _)

theorem loginUser_same {fs : Vol} (hc : cli.Aside u S fs₀) (hw : cli.worker = none) :
    loginUser e io (fs.exchange S g) cli = loginUser e io fs cli ∧
      (loginUser e io fs cli).Aside u S fs₀ := by
  have haside : ∀ (user : Bytes) {tx' tx : ClientTx}, tx' = tx ∧ tx.Aside S →
      ({ cli with user, toClientTx := tx' } : Client) = { cli with user, toClientTx := tx } ∧
        Client.Aside u S fs₀ { cli with user, toClientTx := tx } := by
    rintro user tx' tx ⟨rfl, htx⟩
    exact ⟨rfl, htx, hc.out, fun hbusy => absurd hw hbusy⟩
  have hdispose : ClientTx.Aside S { cli.toClientTx with state := .dispose } := hc.tx.same rfl rfl
  unfold loginUser
  dsimp only
  split
  · exact haside cli.user (cliErr_same hdispose io _ _ _)
  · split
    · exact haside _ (cliErr_same hdispose io _ _ _)
    · exact haside _ (cliErr_same hc.tx io _ _ _)

theorem chkStart_same (h : Hides u S g fs₀ srv.fs) (hc : cli.Aside u S fs₀) :
    SameOver u S g fs₀ (ClientTx.Aside S) (some (chkStart e io (srv.exchange S g) cli))
      (some (chkStart e io srv cli)) := by
  have herr : ∀ (srv' : Srv), srv'.fs = srv.fs → ∀ code,
      SameOver u S g fs₀ (ClientTx.Aside S)
        (some (srv'.exchange S g,
          cliErr e io (srv.fs.exchange S g) cli.req code true cli.toClientTx))
        (some (srv', cliErr e io srv.fs cli.req code true cli.toClientTx)) := by
    intro srv' hfs code
    obtain ⟨heq, haside⟩ := @cliErr_same e srv.fs S g cli.toClientTx hc.tx io cli.req code true
    rw [heq]
    exact .of (hfs ▸ h) haside
  have hauth : chkUserAuthorized (srv.exchange S g) = chkUserAuthorized srv := rfl
  unfold chkStart
  rw [hauth, Srv.exchange_chkState]
  dsimp only
  split
  · exact herr srv rfl _
  · split
    · split
      · exact herr { srv with chkState := .init } rfl _
      · exact herr { srv with chkState := .init, rescans := srv.rescans + 1 } rfl _
    · exact herr srv rfl _
    · exact herr srv rfl _
    · exact herr { srv with chkState := .running, rescans := srv.rescans + 1 } rfl _

/-! ## Steps -/

theorem execOp_same (h : Hides u S g fs₀ srv.fs) (hc : cli.Aside u S fs₀) (hw : cli.worker = none)
    (huser : cli.req.op ≠ .login → cli.req.op ≠ .startTls → cstr cli.user ≠ cstr u) :
    SameOver u S g fs₀ (Client.Aside u S fs₀) (execOp e io (srv.exchange S g) cli) (execOp e io srv cli) := by
  unfold execOp
  dsimp only
  split
  · obtain ⟨heq, haside⟩ := @loginUser_same e io u S g fs₀ cli srv.fs hc hw
    rw [Srv.exchange_fs, heq]
    exact .of h haside
  · exact .tx h hc (cliErr_same hc.tx io _ _ _)
  · next hop => exact .tx h hc (objectGet_same h hc (huser (by simp [hop]) (by simp [hop])) true)
  · next hop => exact .tx h hc (objectGet_same h hc (huser (by simp [hop]) (by simp [hop])) false)
  · next hop =>
    obtain ⟨heq, haside⟩ := @objectGetPart_same e io u S g fs₀ cli srv.fs h hc
      (huser (by simp [hop]) (by simp [hop]))
    rw [Srv.exchange_fs, heq]
    cases hpart : objectGetPart e io srv.fs cli with
    | none => exact .died
    | some tx => exact .tx h hc ⟨rfl, haside tx hpart⟩
  · exact objectPut_same h hc
  · next hop => exact objectDel_same h hc (huser (by simp [hop]) (by simp [hop]))
  · next hop =>
    unfold objectCp
    split
    · exact .tx h hc (cliErr_same hc.tx io _ _ _)
    · exact .of h ⟨hc.tx, hc.out, fun _ => huser (by simp [hop]) (by simp [hop])⟩
  · next hop =>
    unfold volumeList
    rw [Srv.exchange_fs, fsListObjs_exchange h (huser (by simp [hop]) (by simp [hop]))]
    exact .tx h hc (cliRespXml_same hc.tx _ _)
  · exact volumeOpen_same h hc
  · have hchk := @chkStart_same e io u S g fs₀ srv cli h hc
    refine hchk.map (f := fun tx => { cli with toClientTx := tx }) fun tx htx => ?_
    exact ⟨htx, hc.out, hc.worker⟩
  · exact .tx h hc (cliRespBin_same hc.tx _ _)
  · unfold startTls
    refine .of h ?_
    split
    · exact ⟨hc.tx.same rfl rfl, hc.out, hc.worker⟩
    · split
      · exact ⟨hc.tx.same rfl rfl, hc.out, hc.worker⟩
      · split
        · exact ⟨hc.tx.same rfl rfl, hc.out, hc.worker⟩
        · exact ⟨hc.tx.same rfl rfl, hc.out, hc.worker⟩
  · exact .tx h hc (cliErr_same hc.tx io _ _ _)

theorem cliEvtExecReq_same (h : Hides u S g fs₀ srv.fs) (hc : cli.Aside u S fs₀) (hw : cli.worker = none)
    (huser : cli.loggedIn = true → cstr cli.user ≠ cstr u) :
    SameOver u S g fs₀ (Client.Aside u S fs₀) (cliEvtExecReq e io (srv.exchange S g) cli)
      (cliEvtExecReq e io srv cli) := by
  have hexec : ∀ s, Client.Aside u S fs₀
      { cli with executed := cli.executed ++ [cli.request], state := s } :=
    fun s => ⟨hc.tx.same rfl rfl, hc.out, hc.worker⟩
  have hfirst : ∀ cli' : Client, cli'.Aside u S fs₀ →
      Client.Aside u S fs₀ { cli' with firstReq := false } :=
    fun cli' hc' => ⟨hc'.tx, hc'.out, hc'.worker⟩
  unfold cliEvtExecReq
  dsimp only
  split
  · exact .tx h (hexec cli.state) (cliErr_same hc.tx io _ _ _)
  · split
    · exact .tx h (hexec cli.state) (cliErr_same hc.tx io _ _ _)
    · split
      · exact .of h (hexec _)
      · next hgate =>
        split
        · exact .tx h (hexec .recycle) (cliErr_same (hexec .recycle).tx io _ _ _)
        · split
          · exact .tx h (hexec .recycle) (cliErr_same (hexec .recycle).tx io _ _ _)
          · have hop := @execOp_same e io u S g fs₀ srv _ h (hexec .recycle) hw fun hlogin htls => huser ?_
            · exact hop.map hfirst
            · by_contra hout
              have hout' : cli.loggedIn = false := by simpa using hout
              refine hgate ⟨?_, hlogin, htls⟩
              change (!cli.loggedIn) = true
              rw [hout']
              rfl

theorem Client.Aside.reads {cli' : Client} (hc : cli.Aside u S fs₀) (hw : cli.Waits cli')
    (hl : cli.Listens cli') : cli'.Aside u S fs₀ := by
  refine ⟨hc.tx.same hl.tx.inObj hl.tx.sent, ?_, ?_⟩
  · rw [hw.out]
    exact hc.out
  · rw [hw.worker, hw.user]
    exact hc.worker

/-- A state function, or what else happens on a connection. -/
theorem connStep_same (h : Hides u S g fs₀ srv.fs) (hc : cli.Aside u S fs₀) (ev : ConnEv)
    (huser : ev = .func ∧ cli.worker = none ∧ cli.state = .execReq ∧ cli.loggedIn = true →
      cstr cli.user ≠ cstr u) :
    SameOver u S g fs₀ (fun c : Option Client => ∀ cli ∈ c, cli.Aside u S fs₀)
      (connStep e io (srv.exchange S g) cli ev) (connStep e io srv cli ev) := by
  have hsome : ∀ cli : Client, cli.Aside u S fs₀ → ∀ cli' ∈ some cli, cli'.Aside u S fs₀ := by
    rintro cli hc cli' ⟨⟩
    exact hc
  have hof : ∀ {cli' : Client}, cli'.Aside u S fs₀ →
      SameOver u S g fs₀ (fun c : Option Client => ∀ cli ∈ c, cli.Aside u S fs₀)
        (some (srv.exchange S g, some cli')) (some (srv, some cli')) := fun hc' => .of h (hsome _ hc')
  have hwritable : ∀ {cli₀ : Client} {tx : ClientTx}, cli₀.Aside u S fs₀ → tx.Aside S →
      SameOver u S g fs₀ (fun c : Option Client => ∀ cli ∈ c, cli.Aside u S fs₀)
        (some (srv.exchange S g,
          some { cli₀ with toClientTx := cliWritable e (srv.fs.exchange S g) io.wr tx }))
        (some (srv, some { cli₀ with toClientTx := cliWritable e srv.fs io.wr tx })) := by
    intro cli₀ tx hc₀ htx
    obtain ⟨heq, haside⟩ := @cliWritable_same e srv.fs S g tx htx io.wr
    rw [heq]
    exact .of h (hsome _ ⟨haside, hc₀.out, hc₀.worker⟩)
  unfold connStep
  split
  · next hw =>
    unfold stateFunc
    split
    · exact hof (hc.reads (cliEvtRead_waits fixedRead_waits io cli.fixedWant cli)
        (cliEvtRead_listens fixedRead_listens io cli.fixedWant cli))
    · exact hof (hc.reads (cliEvtRead_waits varRead_waits io cli.varWant cli)
        (cliEvtRead_listens varRead_listens io cli.varWant cli))
    · next hs => exact (cliEvtExecReq_same h hc hw fun hin => huser ⟨rfl, hw, hs, hin⟩).map hsome
    · exact (cliEvtDataIn_same h hc).map hsome
    · split
      · unfold cliFree
        rw [cliOutEnd_exchange]
        exact .of (cliOutEnd_hides h hc.out) (by simp)
      · exact hof hc
    · refine hof ?_
      unfold cliEvtRecycle
      split
      · exact hc
      · exact ⟨hc.tx.same rfl rfl, hc.out, hc.worker⟩
    · refine hof ?_
      unfold cliEvtSslAccept
      split
      · exact ⟨hc.tx.same rfl rfl, hc.out, hc.worker⟩
      · exact hc
      · exact ⟨hc.tx.same rfl rfl, hc.out, hc.worker⟩
      · exact ⟨hc.tx.same rfl rfl, hc.out, hc.worker⟩
      · exact ⟨hc.tx.same rfl rfl, hc.out, hc.worker⟩
  · exact hof hc
  · split
    · unfold tcpCliWrEvent
      split
      · exact hof ⟨hc.tx.same rfl rfl, hc.out, hc.worker⟩
      · exact hwritable hc hc.tx
    · exact hof hc
  · split
    · refine hwritable hc ?_
      exact hc.tx.same rfl rfl
    · exact hof hc
  · next hw => exact (workerCpThr_same h hc hw).map hsome
  · exact hof hc
  · next wi hw =>
    split
    · obtain ⟨heq, haside⟩ := @cliErr_same e srv.fs S g cli.toClientTx hc.tx io cli.req wi.err
        (wi.err = .success)
      unfold workerCpPipe
      rw [Srv.exchange_fs, heq]
      exact hof ⟨haside, hc.out, by simp⟩
    · exact hof hc
  · exact hof hc

end

/-! ## The server -/

def Daemon.exchange (d : Daemon) (S : Finset ℕ) (g : ℕ → File) : Daemon :=
  { d with srv := d.srv.exchange S g }

/-- Nobody reads or writes the files in `S`, nor copies for their user. -/
structure Daemon.Aside (u : Bytes) (S : Finset ℕ) (g : ℕ → File) (fs₀ : Vol) (d : Daemon) : Prop where
  hides : Hides u S g fs₀ d.srv.fs
  clients : ∀ i cli, d.client i = some cli → cli.Aside u S fs₀

/-- A request of a client that is logged in is one of another user, and there is no self-check. -/
def AskedByOthers (u : Bytes) (d : Option Daemon) : DaemonEv → Prop
  | .accept => True
  | .client i _ cev => ∀ d₁ ∈ d, ∀ cli ∈ d₁.client i,
      cev = .func ∧ cli.worker = none ∧ cli.state = .execReq ∧ cli.loggedIn = true →
        cstr cli.user ≠ cstr u
  | .check _ => False

section

variable {e : Env} {u : Bytes} {S : Finset ℕ} {g : ℕ → File} {fs₀ : Vol}

theorem cliAlloc_aside : cliAlloc.Aside u S fs₀ where
  tx := ⟨by rintro obj ⟨⟩, fun ino ofs h => (by cases h)⟩
  out := by rintro bo ⟨⟩
  worker h := absurd rfl h

theorem Daemon.Aside.step {d : Daemon} {ev : DaemonEv} (h : d.Aside u S g fs₀)
    (hok : AskedByOthers u (some d) ev) :
    (d.exchange S g).step e ev = (d.step e ev).map (·.exchange S g) ∧
      ∀ d' ∈ d.step e ev, d'.Aside u S g fs₀ := by
  cases ev with
  | accept =>
    refine ⟨rfl, ?_⟩
    rintro d' ⟨⟩
    refine ⟨h.hides, fun i cli hi => ?_⟩
    rcases d.client_accept i with heq | ⟨heq, -⟩
    · exact h.clients i cli (heq.symm.trans hi)
    · obtain rfl := Option.some.inj (heq.symm.trans hi)
      exact cliAlloc_aside
  | client i io cev =>
    have hclient : (d.exchange S g).client i = d.client i := rfl
    simp only [Daemon.step, hclient]
    cases hi : d.client i with
    | none =>
      refine ⟨rfl, ?_⟩
      rintro d' ⟨⟩
      exact h
    | some cli =>
      obtain ⟨heq, haside⟩ := @connStep_same e io u S g fs₀ d.srv cli h.hides (h.clients i cli hi) cev
        (hok d rfl cli hi)
      dsimp only
      have hsrv : (d.exchange S g).srv = d.srv.exchange S g := rfl
      rw [hsrv, heq]
      refine ⟨by simp [Function.comp_def]; rfl, fun d' hd' => ?_⟩
      obtain ⟨⟨srv', c⟩, hstep, rfl⟩ := Option.map_eq_some_iff.mp hd'
      obtain ⟨hsrv, hc⟩ := haside _ hstep
      refine ⟨hsrv, fun j cli' hj => ?_⟩
      rw [Daemon.client_set hi] at hj
      split at hj
      · exact hc cli' hj
      · exact h.clients j cli' hj
  | check c => exact hok.elim

theorem Daemon.Aside.run {x : Option Daemon} {evs : List DaemonEv} (h : ∀ d ∈ x, d.Aside u S g fs₀)
    (hmeets : Meets (daemonNext e) (AskedByOthers u) x evs) :
    Library.run (daemonNext e) (x.map (·.exchange S g)) evs =
        (Library.run (daemonNext e) x evs).map (·.exchange S g) ∧
      ∀ d ∈ Library.run (daemonNext e) x evs, d.Aside u S g fs₀ := by
  induction evs generalizing x with
  | nil => exact ⟨rfl, h⟩
  | cons ev evs ih =>
    have hstep : daemonNext e (x.map (·.exchange S g)) ev = (daemonNext e x ev).map (·.exchange S g) ∧
        ∀ d ∈ daemonNext e x ev, d.Aside u S g fs₀ := by
      cases x with
      | none => exact ⟨rfl, by rintro d ⟨⟩⟩
      | some d => exact (h d rfl).step hmeets.1
    simp only [Library.run]
    rw [hstep.1]
    exact ih hstep.2 hmeets.2

end

/-! ## Runs -/

/-- The byte that goes out for an octet, with the files as they are. -/
def Octet.byte (fs : Vol) : Octet → Option UInt8
  | .mem b => some b
  | .file ino ofs => (fs.file ino).data[ofs]?

/-- What is on the socket of each client. -/
def Daemon.answers (d : Daemon) : List (Option (List (Option UInt8))) :=
  d.clients.map fun c => c.map fun cli => cli.sent.map (Octet.byte d.srv.fs)

/-- Stores that differ in the data and the checksums of a user's objects alone. -/
structure Srv.DiffersIn (user : Bytes) (srv srv' : Srv) : Prop where
  rest : srv' = { srv with fs := srv'.fs }
  dir : srv'.fs.dir = srv.fs.dir
  next : srv'.fs.next = srv.fs.next
  file : ∀ ino, srv'.fs.file ino = srv.fs.file ino ∨
    (∃ p, srv.fs.lookup p = some ino) ∧ ObjectOf user (srv.fs.file ino) ∧
      Alike (srv.fs.file ino) (srv'.fs.file ino)

section

variable {e : Env} {u : Bytes} {S : Finset ℕ} {g : ℕ → File} {fs₀ : Vol}

theorem Daemon.Aside.answers {d : Daemon} (h : d.Aside u S g fs₀) :
    (d.exchange S g).answers = d.answers := by
  unfold Daemon.answers
  refine List.map_congr_left fun c hc => ?_
  cases c with
  | none => rfl
  | some cli =>
    obtain ⟨i, hi⟩ := List.mem_iff_getElem?.mp hc
    have haside := h.clients i cli (Daemon.client_eq_some.mpr hi)
    refine congrArg some (List.map_congr_left fun o ho => ?_)
    cases o with
    | mem b => rfl
    | file ino ofs =>
      have hino := haside.tx.sent ino ofs ho
      change ((d.srv.fs.exchange S g).file ino).data[ofs]? = _
      rw [FileSys.file_exchange hino]
      rfl

theorem Daemon.init_aside {srv : Srv} (h : Hides u S g fs₀ srv.fs) : (Daemon.init srv).Aside u S g fs₀ where
  hides := h
  clients i cli hi := by simp [Daemon.init, Daemon.client] at hi

/-- The store that differs is one with other files. -/
theorem Srv.DiffersIn.exchange {srv srv' : Srv} (h : srv.DiffersIn u srv') :
    ∃ S g, srv' = srv.exchange S g ∧ Hides u S g srv.fs srv.fs := by
  have hfile : ∀ ino, srv'.fs.file ino ≠ srv.fs.file ino →
      ino < srv.fs.next ∧ ObjectOf u (srv.fs.file ino) ∧
        Alike (srv.fs.file ino) (srv'.fs.file ino) := by
    intro ino hne
    obtain ⟨⟨p, hp⟩, ho, ha⟩ := (h.file ino).resolve_left hne
    exact ⟨FileSys.lookup_lt_next hp, ho, ha⟩
  refine ⟨(Finset.range srv.fs.next).filter fun ino => srv'.fs.file ino ≠ srv.fs.file ino, srv'.fs.file,
    ?_, fun ino hino => ?_, fun ino hino => ?_, .refl fun ino hino => ?_⟩
  · refine h.rest.trans (congrArg (fun fs => ({ srv with fs } : Srv)) ?_)
    refine FileSys.eq_exchange h.dir h.next fun ino hino => ?_
    by_contra hne
    exact hino (Finset.mem_filter.mpr ⟨Finset.mem_range.mpr (hfile ino hne).1, hne⟩)
  · exact (hfile ino (Finset.mem_filter.mp hino).2).2.1
  · exact (hfile ino (Finset.mem_filter.mp hino).2).2.2
  · exact (hfile ino (Finset.mem_filter.mp hino).2).1

end

/-- When all requests come from clients logged in as others, the objects of a user stay as they are, each
under its name, and neither an answer nor whether there is one depends on their data. -/
theorem run_isolated (e : Env) (u : Bytes) (srv : Srv) {evs : List DaemonEv}
    (hmeets : Meets (daemonNext e) (AskedByOthers u) (some (Daemon.init srv)) evs) :
    (∀ d ∈ run (daemonNext e) (some (Daemon.init srv)) evs, ∀ p ino, srv.fs.lookup p = some ino →
      ObjectOf u (srv.fs.file ino) →
        d.srv.fs.lookup p = some ino ∧ d.srv.fs.file ino = srv.fs.file ino) ∧
    ∀ srv', srv.DiffersIn u srv' →
      (run (daemonNext e) (some (Daemon.init srv')) evs).map Daemon.answers =
        (run (daemonNext e) (some (Daemon.init srv)) evs).map Daemon.answers := by
  have hinit : ∀ {S : Finset ℕ} {g : ℕ → File}, Hides u S g srv.fs srv.fs →
      ∀ d ∈ some (Daemon.init srv), d.Aside u S g srv.fs := by
    rintro S g h d ⟨⟩
    exact Daemon.init_aside h
  refine ⟨fun d hd p ino hp ho => ?_, fun srv' hsrv => ?_⟩
  · have hides : Hides u {ino} srv.fs.file srv.fs srv.fs := by
      refine ⟨?_, fun j _ => .refl _, .refl ?_⟩
      · simpa using ho
      · simpa using FileSys.lookup_lt_next hp
    have hkept := ((Daemon.Aside.run (hinit hides) hmeets).2 d hd).hides.kept
    exact ⟨(hkept.lookup ino (by simp) p).mpr hp, hkept.file ino (by simp)⟩
  · obtain ⟨S, g, rfl, hides⟩ := hsrv.exchange
    obtain ⟨hrun, haside⟩ := Daemon.Aside.run (hinit hides) hmeets
    have hstart : some (Daemon.init (srv.exchange S g)) =
        (some (Daemon.init srv)).map (·.exchange S g) := rfl
    rw [hstart, hrun, Option.map_map]
    refine Option.map_congr fun d hd => ?_
    exact (haside d hd).answers

instance AskedByOthers.decidable (u : Bytes) (d : Option Daemon) :
    (ev : DaemonEv) → Decidable (AskedByOthers u d ev)
  | .accept => .isTrue trivial
  | .client i _ cev => inferInstanceAs (Decidable (∀ d₁ ∈ d, ∀ cli ∈ d₁.client i,
      cev = .func ∧ cli.worker = none ∧ cli.state = .execReq ∧ cli.loggedIn = true →
        cstr cli.user ≠ cstr u))
  | .check _ => .isFalse id

/-- With the signature of a GET of `z`. -/
def Env.asking : Env :=
  { Env.copying with
    b64hmac := fun key bs =>
      match key, (bs.drop 12).head? with
      | [0x75], some 17 => ascii "FSD8HlFaeCjnOMdRskrGe6SelYU="
      | _, _ => Env.copying.b64hmac key bs }

/-- A store in which `z` is an object of the user `w`. -/
def othersSrv (data : Bytes) : Srv :=
  { bareSrv with
    fs := (emptyVol.creat zPath 0).write 0 0 (storedFile .asking [0x7a] [0x77] data) 0 }

/-- The client stores an object of its own, and asks to delete and to read `z`. -/
def askReads : List (Io × ConnEv) :=
  putReads ++ bodyReads ++ [reads (signedHdr .del 0 15 1 0 "HmOoJp9HjpnCg2nGZyr8ARydpoU="), reads [0x7a]] ++
    serves ++ [reads (signedHdr .get 0 17 1 0 "FSD8HlFaeCjnOMdRskrGe6SelYU="), reads [0x7a]] ++ serves

theorem othersSrv_objectOf : ObjectOf [0x77] ((othersSrv abc).fs.file 0) :=
  ⟨by decide +kernel, by decide +kernel, by decide +kernel⟩

theorem othersSrv_differsIn : (othersSrv abc).DiffersIn [0x77] (othersSrv [0x78, 0x79, 0x7a]) where
  rest := rfl
  dir := rfl
  next := rfl
  file ino := by
    by_cases h : ino = 0
    · subst h
      refine .inr ⟨⟨zPath, by decide +kernel⟩, othersSrv_objectOf, ?_⟩
      exact ⟨rfl, by decide +kernel, by decide +kernel, by decide +kernel⟩
    · refine .inl ?_
      simp [othersSrv, FileSys.write, h]

theorem run_isolated_asking : ∃ d d',
    run (daemonNext .asking) (some (Daemon.init (othersSrv abc))) (firstClient askReads) = some d ∧
      run (daemonNext .asking) (some (Daemon.init (othersSrv [0x78, 0x79, 0x7a]))) (firstClient askReads) =
        some d' ∧
      (∃ cli ∈ d.client 0, cli.executed.length = 5 ∧ cli.state = .readFixed) ∧
      d.srv.fs.lookup zPath = some 0 ∧ d.srv.fs.file 0 = (othersSrv abc).fs.file 0 ∧
      d'.answers = d.answers := by
  have hends : ∃ d ∈ run (daemonNext .asking) (some (Daemon.init (othersSrv abc))) (firstClient askReads),
      ∃ cli ∈ d.client 0, cli.executed.length = 5 ∧ cli.state = .readFixed := by
    decide +kernel
  obtain ⟨d, hd, hcli⟩ := hends
  obtain ⟨hkept, hsame⟩ := run_isolated .asking [0x77] (othersSrv abc)
    (show Meets _ _ _ (firstClient askReads) by decide +kernel)
  obtain ⟨hlookup, hfile⟩ := hkept d hd zPath 0 (by decide +kernel) othersSrv_objectOf
  have hanswers := hsame (othersSrv [0x78, 0x79, 0x7a]) othersSrv_differsIn
  rw [hd] at hanswers
  obtain ⟨d', hd', heq⟩ := Option.map_eq_some_iff.mp hanswers
  exact ⟨d, d', hd, hd', hcli, hlookup, hfile, heq⟩

end Hail.Chunkd
