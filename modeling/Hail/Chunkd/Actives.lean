import Hail.Chunkd.Daemon
import Hail.Chunkd.Login
import Hail.Library.Run
import Hail.Library.References

/-!
# References to the object cache

Uploads, copies and the self-check each hold an entry of the cache while they work on an object. A PUT
that the storage refuses keeps the entry it has taken, and the next one on the connection forgets it.
-/
namespace Hail.Chunkd

open Library

/-- The count of references of an entry, if there is one. -/
def Objcache.refs (cache : Objcache) (hash : UInt32) : Nat := (cache hash).elim 0 ObjcacheEntry.ref

theorem objcacheGet_refs {fails dirty : Bool} {cache cache' : Objcache} {key : Bytes} {cep : UInt32}
    (h : objcacheGet fails cache key dirty = some (cep, cache')) :
    cep = objcacheHash key ∧ Balanced cache.refs none cache'.refs (some cep) := by
  unfold objcacheGet at h
  dsimp only at h
  split at h
  · next old hold =>
    obtain ⟨rfl, rfl⟩ := Prod.mk.inj (Option.some.inj h)
    refine ⟨rfl, fun k => ?_⟩
    by_cases hk : k = objcacheHash key
    · simp [Objcache.refs, hk, hold]
    · simp [Objcache.refs, Function.update_of_ne hk, Ne.symm hk]
  · next hnone =>
    split at h
    · cases h
    · obtain ⟨rfl, rfl⟩ := Prod.mk.inj (Option.some.inj h)
      refine ⟨rfl, fun k => ?_⟩
      by_cases hk : k = objcacheHash key
      · simp [Objcache.refs, hk, hnone]
      · simp [Objcache.refs, Function.update_of_ne hk, Ne.symm hk]

theorem objcachePut_refs {cache : Objcache} {cep : UInt32} (h : 1 ≤ cache.refs cep) :
    Balanced cache.refs (some cep) (objcachePut cache cep).refs none := by
  unfold Objcache.refs at h
  intro k
  unfold objcachePut
  cases hc : cache cep with
  | none => simp [hc] at h
  | some entry =>
    dsimp only
    have hpos := entry.ref_pos
    by_cases hk : k = cep
    · split <;> simp [Objcache.refs, hk, hc] <;> omega
    · split <;> simp [Objcache.refs, Function.update_of_ne hk, Ne.symm hk]

/-! ## A connection -/

/-- Whoever stores an object holds the entry of its key, and nobody holds another. -/
structure Client.Booked (cli : Client) : Prop where
  entry : ∀ cep, cli.outCe = some cep →
    cep = objcacheHash cli.keyBytes ∧ (cli.outBo.isSome = true ∨ cli.worker.isSome = true)
  object : cli.outBo.isSome = true → cli.outCe.isSome = true
  copy : ∀ wi, cli.worker = some wi → wi.pc = .openSrc ∨ wi.pc = .cache ∨ wi.pc = .signal →
    cli.outCe = none
  create : ∀ wi, cli.worker = some wi → wi.pc = .create → cli.outCe.isSome = true

/-- A client that neither stores nor copies holds no entry. -/
structure Client.Tidy (cli : Client) : Prop extends cli.Booked where
  quiet : cli.worker = none → cli.state ≠ .dataIn → cli.state ≠ .dispose → cli.outCe = none

/-- The cache and the reference of a client after a step. -/
def Books (srv : Srv) (cli : Client) (srv' : Srv) (cli' : Client) : Prop :=
  Balanced srv.actives.refs cli.outCe srv'.actives.refs cli'.outCe ∧ cli'.Tidy

section

variable {e : Env} {io : Io} {srv srv' : Srv} {cli cli' : Client}

theorem Client.Booked.outBo (h : cli.Booked) (hce : cli.outCe = none) : cli.outBo = none := by
  by_contra hne
  have hsome := h.object (Option.isSome_iff_ne_none.mpr hne)
  rw [hce] at hsome
  cases hsome

/-- A client that holds nothing, whatever it does. -/
theorem Client.Tidy.of_none (hce : cli.outCe = none) (hbo : cli.outBo = none)
    (hw : ∀ wi, cli.worker = some wi → wi.pc ≠ .create) : cli.Tidy where
  entry cep h := by
    rw [hce] at h
    cases h
  object h := by
    rw [hbo] at h
    cases h
  copy _ _ _ := hce
  create wi hwi hpc := absurd hpc (hw wi hwi)
  quiet _ _ _ := hce

/-- Nothing that the books are about changes. -/
theorem Client.Tidy.same (h : cli.Tidy) (hrx : cli'.toClientRx = cli.toClientRx)
    (hce : cli'.outCe = cli.outCe) (hbo : cli'.outBo = cli.outBo) (hw : cli'.worker = cli.worker)
    (hs : cli'.state = cli.state ∨ cli'.state = .dispose) : cli'.Tidy := by
  have hkey : cli'.keyBytes = cli.keyBytes := by
    show cli'.toClientRx.keyBytes = cli.toClientRx.keyBytes
    rw [hrx]
  refine ⟨⟨?_, ?_, ?_, ?_⟩, ?_⟩
  · rw [hce, hbo, hw, hkey]
    exact h.entry
  · rw [hce, hbo]
    exact h.object
  · rw [hce, hw]
    exact h.copy
  · rw [hce, hw]
    exact h.create
  · rw [hce, hw]
    intro hnone hdata hdisp
    rcases hs with hs | hs
    · rw [hs] at hdata hdisp
      exact h.quiet hnone hdata hdisp
    · exact absurd hs hdisp

/-- What is held is given back at the end of an upload or a copy. -/
theorem cliOutEnd_balanced (srv : Srv) (out : ClientOut)
    (hheld : ∀ cep, out.outCe = some cep → 1 ≤ srv.actives.refs cep) :
    Balanced srv.actives.refs out.outCe (cliOutEnd srv out).1.actives.refs none := by
  unfold cliOutEnd
  cases hce : out.outCe with
  | none => exact .refl _ _
  | some cep => exact objcachePut_refs (hheld cep hce)

/-- A copy at work, which holds the entry of its key. -/
theorem Client.Tidy.of_copy {wi : WorkerInfo} (hw : cli.worker = some wi)
    (hpc : wi.pc ≠ .openSrc ∧ wi.pc ≠ .cache ∧ wi.pc ≠ .signal)
    (hkey : ∀ cep, cli.outCe = some cep → cep = objcacheHash cli.keyBytes)
    (hobj : cli.outBo.isSome = true ∨ wi.pc = .create → cli.outCe.isSome = true) : cli.Tidy where
  entry cep hce := ⟨hkey cep hce, .inr (by rw [hw]; rfl)⟩
  object hbo := hobj (.inl hbo)
  copy wi' hwi' h := by
    obtain rfl := Option.some.inj (hw.symm.trans hwi')
    rcases h with h | h | h
    · exact absurd h hpc.1
    · exact absurd h hpc.2.1
    · exact absurd h hpc.2.2
  create wi' hwi' h := by
    obtain rfl := Option.some.inj (hw.symm.trans hwi')
    exact hobj (.inr h)
  quiet hnone := by
    rw [hw] at hnone
    cases hnone

theorem PutEnd.books (h : PutEnd e io srv cli srv' cli') (hbooked : cli.Booked) (hw : cli.worker = none)
    (hheld : ∀ cep, cli.outCe = some cep → 1 ≤ srv.actives.refs cep) : Books srv cli srv' cli' := by
  have hcreate : ∀ {wi : WorkerInfo} {p : Prop}, cli.worker = some wi → p := by
    intro wi p hwi
    rw [hw] at hwi
    cases hwi
  cases h with
  | noMem =>
    exact ⟨.refl _ _, ⟨hbooked.entry, hbooked.object, hbooked.copy, hbooked.create⟩,
      fun _ _ hs => absurd rfl hs⟩
  | @ended bo bo' user ok fs tx _ _ _ _ =>
    exact ⟨cliOutEnd_balanced { srv with fs } { cli.toClientOut with outBo := some bo' } hheld,
      .of_none rfl rfl fun _ => hcreate⟩

theorem PutBegin.books (h : PutBegin e io srv cli srv' cli') (hnone : cli.outCe = none)
    (hw : cli.worker = none)
    (hok : ¬ ((objcacheGet (io.sys.fails .cacheEntry) srv.actives cli.keyBytes true).isSome = true ∧
      ∃ err fs, fsObjNew e io.sys srv.fs cli.tableId cli.keyBytes cli.req.dataLen = (.error err, fs))) :
    Books srv cli srv' cli' := by
  have hidle : ∀ {wi : WorkerInfo} {p : Prop}, cli.worker = some wi → p := by
    intro wi p hwi
    rw [hw] at hwi
    cases hwi
  cases h with
  | refused hget hnew _ => exact absurd ⟨by rw [hget]; rfl, _, _, hnew⟩ hok
  | @started cep actives bo fs outUser hget _ _ _ =>
    obtain ⟨rfl, hbal⟩ := objcacheGet_refs hget
    rw [Books, hnone]
    refine ⟨hbal, ⟨?_, fun _ => rfl, fun _ => hidle, fun _ => hidle⟩, fun _ hs => absurd rfl hs⟩
    rintro cep ⟨⟩
    exact ⟨rfl, .inl rfl⟩
  | @empty cep actives bo fs outUser srv' cli' hget hnew _ hlen hend =>
    obtain ⟨rfl, hbal⟩ := objcacheGet_refs hget
    have hheld : ∀ k, some (objcacheHash cli.keyBytes) = some k → 1 ≤ actives.refs k := by
      rintro k ⟨⟩
      have hk := hbal (objcacheHash cli.keyBytes)
      simp only [reduceCtorEq, if_false, if_true] at hk
      omega
    have hend' := hend.books
      ⟨by rintro cep ⟨⟩; exact ⟨rfl, .inl rfl⟩, fun _ => rfl, fun _ => hidle, fun _ => hidle⟩ hw hheld
    rw [Books, hnone]
    exact ⟨hbal.trans hend'.1, hend'.2⟩

theorem DataIn.books (h : DataIn e io srv cli srv' cli') (htidy : cli.Tidy) (hw : cli.worker = none)
    (hheld : ∀ cep, cli.outCe = some cep → 1 ≤ srv.actives.refs cep) : Books srv cli srv' cli' := by
  have hidle : ∀ {wi : WorkerInfo} {p : Prop}, cli.worker = some wi → p := by
    intro wi p hwi
    rw [hw] at hwi
    cases hwi
  have hwritten : ∀ {bo : FsObj}, cli.outBo = some bo → ∀ bo' outHash outLen taken, Client.Booked
      { cli with taken, outBo := some bo', outHash, outLen } := by
    intro bo hbo bo' outHash outLen taken
    have hsome : cli.outBo.isSome = true := by rw [hbo]; rfl
    exact ⟨fun cep hce => ⟨(htidy.entry cep hce).1, .inl rfl⟩, fun _ => htidy.object hsome,
      fun _ => hidle, fun _ => hidle⟩
  cases h with
  | idle => exact ⟨.refl _ _, htidy.same rfl rfl rfl rfl (.inl rfl)⟩
  | eof => exact ⟨.refl _ _, htidy.same rfl rfl rfl rfl (.inr rfl)⟩
  | sslFailed _ hs => exact ⟨.refl _ _, htidy.same rfl rfl rfl rfl (.inr hs)⟩
  | readFailed _ _ =>
    exact ⟨cliOutEnd_balanced srv cli.toClientOut hheld, .of_none rfl rfl fun _ => hidle⟩
  | @writeFailed bs bo bo' fs tx hbo _ _ _ _ =>
    exact ⟨cliOutEnd_balanced { srv with fs } { cli.toClientOut with outBo := some bo' } hheld,
      .of_none rfl rfl fun _ => hidle⟩
  | wrote hbo _ _ => exact ⟨.refl _ _, hwritten hbo _ _ _ _, htidy.quiet⟩
  | wroteAll hbo _ _ hend => exact hend.books (hwritten hbo _ _ _ _) hw hheld
  | ended _ hend => exact hend.books htidy.toBooked hw hheld

theorem ExecOp.books (h : ExecOp e io srv cli srv' cli') (hs : cli.state = .recycle)
    (hnone : cli.outCe = none) (hbo : cli.outBo = none) (hw : cli.worker = none)
    (hok : cli.req.op = .put →
      ¬ ((objcacheGet (io.sys.fails .cacheEntry) srv.actives cli.keyBytes true).isSome = true ∧
        ∃ err fs, fsObjNew e io.sys srv.fs cli.tableId cli.keyBytes cli.req.dataLen = (.error err, fs))) :
    Books srv cli srv' cli' := by
  have hidle : ∀ wi, cli.worker = some wi → wi.pc ≠ .create := by
    intro wi hwi
    rw [hw] at hwi
    cases hwi
  cases h with
  | answered _ _ _ | startTls _ _ => exact ⟨.refl _ _, .of_none hnone hbo hidle⟩
  | copies _ => exact ⟨.refl _ _, .of_none hnone hbo (by rintro wi ⟨⟩; simp)⟩
  | put hput h => exact h.books hnone hw (hok hput)
  | login _ =>
    obtain ⟨user, tx, heq, -, -⟩ := @loginUser_tx e io srv.fs cli
    rw [heq]
    exact ⟨.refl _ _, .of_none hnone hbo hidle⟩
  | del _ =>
    obtain ⟨tx, heq, -⟩ := @objectDel_tx e io srv cli hs
    have hact : (objectDel e io srv cli).1.actives = srv.actives := by
      unfold objectDel
      split
      · rfl
      · split <;> rfl
    rw [Books, heq, hact]
    exact ⟨.refl _ _, .of_none hnone hbo hidle⟩
  | tableOpen _ =>
    obtain ⟨table, tableLen, tableId, tx, heq, -⟩ := @volumeOpen_tx e io srv cli
    have hact : (volumeOpen e io srv cli).1.actives = srv.actives := by
      unfold volumeOpen
      dsimp only
      split <;> rfl
    rw [Books, heq, hact]
    exact ⟨.refl _ _, .of_none hnone hbo hidle⟩
  | checkStart _ =>
    have hact : (chkStart e io srv cli).1.actives = srv.actives := by
      unfold chkStart
      dsimp only
      split
      · rfl
      · split <;> first | rfl | (split <;> rfl)
    rw [Books, hact]
    exact ⟨.refl _ _, .of_none hnone hbo hidle⟩

theorem CopyStep.books {wi : WorkerInfo} (h : CopyStep e io srv cli wi srv' cli') (htidy : cli.Tidy)
    (hw : cli.worker = some wi) (hheld : ∀ cep, cli.outCe = some cep → 1 ≤ srv.actives.refs cep) :
    Books srv cli srv' cli' := by
  have hnone : wi.pc = .openSrc ∨ wi.pc = .cache → cli.outCe = none := by
    intro hpc
    exact htidy.copy wi hw (hpc.imp_right .inl)
  have hkey : ∀ cep, cli.outCe = some cep → cep = objcacheHash cli.keyBytes :=
    fun cep hce => (htidy.entry cep hce).1
  have hobj : ∀ {bo : FsObj}, cli.outBo = some bo → cli.outCe.isSome = true := by
    intro bo hbo
    exact htidy.object (by rw [hbo]; rfl)
  cases h with
  | opened hpc hnext =>
    have hce := hnone (.inl hpc)
    refine ⟨.refl _ _, .of_none hce (htidy.outBo hce) ?_⟩
    rintro wi ⟨⟩
    rcases hnext with h | h <;> simp [h]
  | @held cep actives hpc hget =>
    obtain ⟨rfl, hbal⟩ := objcacheGet_refs hget
    rw [Books, hnone (.inr hpc)]
    exact ⟨hbal, .of_copy rfl (by simp) (by rintro cep ⟨⟩; rfl) fun _ => rfl⟩
  | refused _ _ _ =>
    exact ⟨.refl _ _, .of_copy rfl (by simp) hkey (by simp)⟩
  | created hpc _ _ =>
    exact ⟨.refl _ _, .of_copy rfl (by simp) hkey fun _ => htidy.create wi hw hpc⟩
  | @read inObj inLen bs pc hpc hnext =>
    refine ⟨.refl _ _, .of_copy rfl ?_ hkey fun h => ?_⟩
    · rcases hnext with ⟨h | h, -⟩ | h <;> simp [h]
    · refine htidy.object (h.resolve_right ?_)
      rcases hnext with ⟨h | h, -⟩ | h <;> simp [h]
  | wrote _ hbo _ | writeFailed _ hbo _ | committed _ hbo _ =>
    exact ⟨.refl _ _, .of_copy rfl (by simp) hkey fun _ => hobj hbo⟩
  | ended _ =>
    exact ⟨cliOutEnd_balanced srv cli.toClientOut hheld, .of_none rfl rfl (by rintro wi ⟨⟩; simp)⟩
  | waits _ => exact ⟨.refl _ _, htidy⟩

theorem ExecReq.books (h : ExecReq e io srv cli srv' cli') (htidy : cli.Tidy)
    (hs : cli.state = .execReq) (hw : cli.worker = none) (hok : ¬ cli.PutRefused e io srv) :
    Books srv cli srv' cli' := by
  cases h with
  | refused _ hdisp => exact ⟨.refl _ _, htidy.same rfl rfl rfl rfl (.inr hdisp)⟩
  | passed hhdr hauth hgate _ htable hop =>
    have hce : cli.outCe = none := htidy.quiet hw (by simp [hs]) (by simp [hs])
    have hbooks := hop.books rfl hce (htidy.outBo hce) hw fun hput hrefused => by
      have hlogged : cli.loggedIn = true := by
        refine hgate.resolve_right fun hopen => ?_
        rcases hopen with h | h <;> exact absurd (h.symm.trans hput) (by simp)
      refine hok ⟨⟨hw, hs, hput⟩, ⟨hhdr, hlogged, hauth hlogged, htable ?_⟩, hrefused⟩
      rw [show cli.req.op = .put from hput]
      rfl
    exact ⟨hbooks.1, hbooks.2.same rfl rfl rfl rfl (.inl rfl)⟩

/-- A step of a connection, on which no PUT is refused, keeps the books. -/
theorem ConnStep.books {ev : ConnEv} {c : Option Client} (h : ConnStep e io srv cli ev srv' c)
    (htidy : cli.Tidy) (hheld : ∀ cep, cli.outCe = some cep → 1 ≤ srv.actives.refs cep)
    (hok : ev = .func → ¬ cli.PutRefused e io srv) :
    Balanced srv.actives.refs cli.outCe srv'.actives.refs (c.bind fun cli => cli.outCe) ∧
      ∀ cli' ∈ c, cli'.Tidy := by
  have hread : ∀ cli' : Client, cli.Waits cli' → cli.worker = none → cli.outCe = none → cli'.Tidy := by
    intro cli' hwaits hw hce
    refine .of_none ((congrArg ClientOut.outCe hwaits.out).trans hce)
      ((congrArg ClientOut.outBo hwaits.out).trans (htidy.outBo hce)) fun wi hwi => ?_
    rw [hwaits.worker, hw] at hwi
    cases hwi
  have hquiet : cli.worker = none → cli.state ≠ .dataIn → cli.state ≠ .dispose → cli.outCe = none :=
    htidy.quiet
  cases h with
  | idle =>
    refine ⟨.refl _ _, ?_⟩
    rintro cli' ⟨⟩
    exact htidy
  | writes htx =>
    refine ⟨.refl _ _, ?_⟩
    rintro cli' ⟨⟩
    exact htidy.same rfl rfl rfl rfl htx.state
  | waits =>
    refine ⟨.refl _ _, ?_⟩
    rintro cli' ⟨⟩
    exact htidy.same rfl rfl rfl rfl (.inl rfl)
  | readFixed _ hs hw =>
    have hwaits := cliEvtRead_waits fixedRead_waits io cli.fixedWant cli
    have hce := hquiet hw (by simp [hs]) (by simp [hs])
    refine ⟨?_, ?_⟩
    · rw [Option.bind_some, show (cliEvtReadFixed io cli).outCe = cli.outCe from
        congrArg ClientOut.outCe hwaits.out]
      exact .refl _ _
    · rintro cli' ⟨⟩
      exact hread _ hwaits hw hce
  | readVar _ hs hw =>
    have hwaits := cliEvtRead_waits varRead_waits io cli.varWant cli
    have hce := hquiet hw (by simp [hs]) (by simp [hs])
    refine ⟨?_, ?_⟩
    · rw [Option.bind_some, show (cliEvtReadVar io cli).outCe = cli.outCe from
        congrArg ClientOut.outCe hwaits.out]
      exact .refl _ _
    · rintro cli' ⟨⟩
      exact hread _ hwaits hw hce
  | exec hev hs hw h =>
    have hbooks := h.books htidy hs hw (hok hev)
    refine ⟨hbooks.1, ?_⟩
    rintro cli' ⟨⟩
    exact hbooks.2
  | dataIn _ _ hw h =>
    have hbooks := h.books htidy hw hheld
    refine ⟨hbooks.1, ?_⟩
    rintro cli' ⟨⟩
    exact hbooks.2
  | freed _ _ => exact ⟨cliOutEnd_balanced srv cli.toClientOut hheld, by rintro cli' ⟨⟩⟩
  | recycled hs hw =>
    have hce := hquiet hw (by simp [hs]) (by simp [hs])
    refine ⟨.refl _ _, ?_⟩
    rintro cli' ⟨⟩
    exact hread _ ⟨rfl, rfl, rfl, rfl, fun h => (by cases h)⟩ hw hce
  | accepted hs hw hend =>
    have hce := hquiet hw (by simp [hs]) (by simp [hs])
    refine ⟨.refl _ _, ?_⟩
    rintro cli' ⟨⟩
    refine hread _ ⟨rfl, rfl, rfl, rfl, fun h => ?_⟩ hw hce
    rcases hend with rfl | rfl <;> cases h
  | copies _ hw h =>
    have hbooks := (workerCpThr_cases h).books htidy hw hheld
    refine ⟨hbooks.1, ?_⟩
    rintro cli' ⟨⟩
    exact hbooks.2
  | copied hw hpc =>
    have hce := htidy.copy _ hw (.inr (.inr hpc))
    refine ⟨.refl _ _, ?_⟩
    rintro cli' ⟨⟩
    exact .of_none hce (htidy.outBo hce) fun wi hwi => (by cases hwi)

/-- A PUT that is refused leaves a client that holds an entry and does nothing with it. -/
theorem Client.PutRefused.leaks (h : cli.PutRefused e io srv) :
    ∃ srv' cli', connStep e io srv cli .func = some (srv', some cli') ∧ cli'.outCe.isSome = true ∧
      cli'.outBo = none ∧ cli'.worker = none := by
  obtain ⟨⟨hw, hs, hput⟩, ⟨hhdr, hlogged, hauth, htable⟩, hget, err, fs, hnew⟩ := h
  obtain ⟨⟨cep, actives⟩, hget⟩ := Option.isSome_iff_exists.mp hget
  set cli₁ : Client := { cli with executed := cli.executed ++ [cli.request], state := .recycle } with hcli
  have hput₁ : objectPut e io srv cli₁ = some ({ srv with fs, actives },
      { cli₁ with
        outCe := some cep, outBo := none
        toClientTx := cliErr e io fs cli.req err true cli₁.toClientTx }) := by
    have hget₁ : objcacheGet (io.sys.fails .cacheEntry) srv.actives cli₁.keyBytes true =
        some (cep, actives) := hget
    have hnew₁ : fsObjNew e io.sys srv.fs cli₁.tableId cli₁.keyBytes cli₁.req.dataLen =
        (.error err, fs) := hnew
    simp only [objectPut, hget₁, hnew₁]
    rfl
  have hop : execOp e io srv cli₁ = objectPut e io srv cli₁ := by
    have hreq : cli₁.req.op = .put := hput
    simp only [execOp, hreq]
  have hexec : cliEvtExecReq e io srv cli =
      (execOp e io srv cli₁).map fun r => (r.1, { r.2 with firstReq := false }) := by
    have hin : decide (cli.user.headD 0 ≠ 0) = true := hlogged
    simp only [cliEvtExecReq, Client.loggedIn, hhdr, hin, hauth, hput, htable, Bool.not_true,
      Bool.and_false, Bool.false_eq_true, if_false, false_and, and_false, reduceCtorEq]
    rfl
  rw [hop, hput₁, Option.map_some] at hexec
  refine ⟨{ srv with fs, actives }, { cli₁ with
      outCe := some cep, outBo := none, firstReq := false
      toClientTx := cliErr e io fs cli.req err true cli₁.toClientTx }, ?_, rfl, rfl, hw⟩
  simp only [connStep, hw, stateFunc, hs, hexec, Option.map_some]

end

/-! ## The server -/

/-- What the thread of the self-check and the connections hold. -/
def Daemon.holds (d : Daemon) : List (Option UInt32) :=
  d.chk.cep :: d.clients.map fun c => c.bind fun cli => cli.outCe

/-- The references of every entry are those that the self-check and the connections hold, and a
connection holds one only for the object it works on. -/
structure Daemon.Accounted (d : Daemon) : Prop where
  refs : Counted d.srv.actives.refs d.holds
  clients : ∀ i cli, d.client i = some cli → cli.Tidy

/-- The condition on a step: the storage refuses no PUT. -/
def NoRefusal (e : Env) (d : Option Daemon) (ev : DaemonEv) : Prop :=
  ∀ d' ∈ d, ∀ i io, ev = .client i io .func → ∀ cli, d'.client i = some cli →
    ¬ cli.PutRefused e io d'.srv

theorem Daemon.init_accounted (srv : Srv) : (Daemon.init srv).Accounted where
  refs _ := rfl
  clients i cli h := by simp [Daemon.init, Daemon.client] at h

theorem chkStep_balanced {e : Env} {c : ChkCall} {srv srv' : Srv} {chk chk' : ChkAt}
    (h : chkStep e c srv chk = some (srv', chk'))
    (hheld : ∀ cep, chk.cep = some cep → 1 ≤ srv.actives.refs cep) :
    Balanced srv.actives.refs chk.cep srv'.actives.refs chk'.cep := by
  unfold chkStep at h
  split at h
  · split at h <;> obtain ⟨rfl, rfl⟩ := Prod.mk.inj (Option.some.inj h) <;> exact .refl _ _
  · split at h
    · cases h
    · next hget =>
      obtain ⟨rfl, rfl⟩ := Prod.mk.inj (Option.some.inj h)
      exact (objcacheGet_refs hget).2
  · split at h <;> obtain ⟨rfl, rfl⟩ := Prod.mk.inj (Option.some.inj h) <;> exact .refl _ _
  · split at h
    · obtain ⟨rfl, rfl⟩ := Prod.mk.inj (Option.some.inj h)
      exact .refl _ _
    · split at h <;> obtain ⟨rfl, rfl⟩ := Prod.mk.inj (Option.some.inj h) <;> exact .refl _ _
  · obtain ⟨rfl, rfl⟩ := Prod.mk.inj (Option.some.inj h)
    exact .refl _ _
  · obtain ⟨rfl, rfl⟩ := Prod.mk.inj (Option.some.inj h)
    exact objcachePut_refs (hheld _ rfl)

theorem Daemon.Accounted.held {d : Daemon} (h : d.Accounted) {i : Nat} {cli : Client}
    (hi : d.client i = some cli) (cep : UInt32) (hce : cli.outCe = some cep) :
    1 ≤ d.srv.actives.refs cep := by
  refine h.refs.pos (List.mem_cons_of_mem _ (List.mem_map.mpr ⟨some cli, ?_, hce⟩))
  exact List.mem_of_getElem? (Daemon.client_eq_some.mp hi)

theorem Daemon.Accounted.step {e : Env} {d d' : Daemon} {ev : DaemonEv} (h : d.Accounted)
    (hok : NoRefusal e (some d) ev) (hstep : d.step e ev = some d') : d'.Accounted := by
  cases ev with
  | accept =>
    obtain rfl := Option.some.inj hstep
    refine ⟨?_, fun i cli hi => ?_⟩
    · have hjoin := h.refs.join
      simpa [Daemon.holds, cliAlloc] using hjoin
    · rcases d.client_accept i with heq | ⟨heq, -⟩
      · exact h.clients i cli (heq.symm.trans hi)
      · obtain rfl := Option.some.inj (heq.symm.trans hi)
        exact .of_none rfl rfl (by rintro wi ⟨⟩)
  | client i io ev =>
    simp only [Daemon.step] at hstep
    split at hstep
    · obtain rfl := Option.some.inj hstep
      exact h
    · next cli hi =>
      obtain ⟨⟨srv', c⟩, hconn, rfl⟩ := Option.map_eq_some_iff.mp hstep
      obtain ⟨hbal, htidy⟩ := (connStep_cases hconn).books (h.clients i cli hi) (h.held hi)
        fun hev => hok d rfl i io (by rw [hev]) cli hi
      refine ⟨?_, fun j cli' hj => ?_⟩
      · have hget : d.holds[i + 1]? = some cli.outCe := by
          simp [Daemon.holds, Daemon.client_eq_some.mp hi]
        have hset := h.refs.set hget hbal
        have hholds : d.holds.set (i + 1) (c.bind fun cli => cli.outCe) =
            Daemon.holds { d with srv := srv', clients := d.clients.set i c } := by
          simp [Daemon.holds, List.map_set]
        rwa [hholds] at hset
      · rw [Daemon.client_set hi] at hj
        split at hj
        · exact htidy cli' hj
        · exact h.clients j cli' hj
  | check c =>
    obtain ⟨⟨srv', chk'⟩, hchk, rfl⟩ := Option.map_eq_some_iff.mp hstep
    have hheld : ∀ cep, d.chk.cep = some cep → 1 ≤ d.srv.actives.refs cep := by
      intro cep hce
      exact h.refs.pos (by simp [Daemon.holds, hce])
    refine ⟨?_, h.clients⟩
    have hget : d.holds[0]? = some d.chk.cep := rfl
    exact h.refs.set hget (chkStep_balanced hchk hheld)

/-- In all states of a run the cache counts what is held, by connections at work and by the self-check,
if and only if the storage refuses no PUT of the run. -/
theorem run_accounted_iff (e : Env) (srv : Srv) (evs : List DaemonEv) :
    (∀ evs', evs' <+: evs → ∀ d ∈ run (daemonNext e) (some (Daemon.init srv)) evs', d.Accounted) ↔
      Meets (daemonNext e) (NoRefusal e) (some (Daemon.init srv)) evs := by
  refine Meets.iff_forall (I := fun d : Option Daemon => ∀ d' ∈ d, d'.Accounted)
    (P := fun d : Option Daemon => ∀ d' ∈ d, d'.Accounted) ?_ ?_ ?_ ?_
  · rintro d ⟨⟩
    exact Daemon.init_accounted srv
  · exact fun d h => h
  · intro d ev h hok d' hd'
    obtain ⟨d, rfl, hstep⟩ := Option.bind_eq_some_iff.mp hd'
    exact (h d rfl).step hok hstep
  · rintro d ev - hnext d rfl i io rfl cli hi hrefused
    obtain ⟨srv', cli', hconn, hce, hbo, hw⟩ := hrefused.leaks
    have hstep : daemonNext e (some d) (.client i io .func) =
        some { d with srv := srv', clients := d.clients.set i (some cli') } := by
      simp [daemonNext, Daemon.step, hi, hconn]
    have hclient : Daemon.client { d with srv := srv', clients := d.clients.set i (some cli') } i =
        some cli' := by
      rw [Daemon.client_set hi, if_pos rfl]
    have htidy := (hnext _ hstep).clients i cli' hclient
    obtain ⟨cep, hcep⟩ := Option.isSome_iff_exists.mp hce
    rcases (htidy.entry cep hcep).2 with h | h
    · simp [hbo] at h
    · simp [hw] at h

/-- A client that stores an object twice waits for its next request with an entry in its hands. -/
theorem putNop_holds :
    ∃ d ∈ run (daemonNext .storing) (some (Daemon.init bareSrv)) (firstClient (putReads ++ bodyReads ++
        [reads putNopMsg.req.creq, reads [0x6b]] ++ serves)),
      (∃ cli ∈ d.client 0, cli.state = .readFixed ∧ cli.worker = none ∧ cli.outCe.isSome = true) ∧
        ¬ d.Accounted := by
  have hends : ∃ d ∈ run (daemonNext .storing) (some (Daemon.init bareSrv)) (firstClient (putReads ++
        bodyReads ++ [reads putNopMsg.req.creq, reads [0x6b]] ++ serves)),
      ∃ cli ∈ d.client 0, cli.state = .readFixed ∧ cli.worker = none ∧ cli.outCe.isSome = true := by
    decide +kernel
  obtain ⟨d, hd, cli, hcli, hs, hw, hce⟩ := hends
  refine ⟨d, hd, ⟨cli, hcli, hs, hw, hce⟩, fun h => ?_⟩
  have hnone := (h.clients 0 cli hcli).quiet hw (by simp [hs]) (by simp [hs])
  rw [hnone] at hce
  cases hce

end Hail.Chunkd
