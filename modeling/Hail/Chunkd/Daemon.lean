import Hail.Chunkd.Steps

/-!
# The whole server

Any number of connections and the thread of the self-check over one store. The thread of the server runs
a state function or a callback of a connection in one step, with all its calls of the storage: a PUT that
cannot be committed, say, and the removal of its file. The threads of copies and of the self-check stop
after each of their calls of the storage or of the object cache. The steps of all can follow one another
in any order.
-/
namespace Hail.Chunkd

open Library

/-! ## The self-check -/

/-- Where the loop of `chk_list_objs` is: before a file, or between two of the calls made for it. -/
inductive ChkAt where
  | next
  | got (tableId : Nat) (fn : FileName) (info : HdrInfo)
  | held (tableId : Nat) (fn : FileName) (info : HdrInfo) (cep : UInt32)
  | summed (tableId : Nat) (fn : FileName) (info : HdrInfo) (cep : UInt32) (mdAct : Bytes)
  | bad (tableId : Nat) (fn : FileName) (cep : UInt32)
  | done (cep : UInt32)
  deriving DecidableEq

/-- The entry the thread has taken a reference of. -/
def ChkAt.cep : ChkAt → Option UInt32
  | .next | .got .. => none
  | .held _ _ _ cep | .summed _ _ _ cep _ | .bad _ _ cep | .done cep => some cep

/-- What the next call of the thread does. Before a file it is the file that the walk has come to. -/
structure ChkCall where
  tableId : Nat
  fn : FileName
  hdrFails : Bool
  calls : ChkCalls

/-- A step of `chk_list_objs`, up to the end of its next call. -/
def chkStep (e : Env) (c : ChkCall) (srv : Srv) : ChkAt → Option (Srv × ChkAt)
  | .next =>
    match fsObjHdrRead srv.fs c.hdrFails c.tableId c.fn with
    | none => some (srv, .next)
    | some info => some (srv, .got c.tableId c.fn info)
  | .got tableId fn info =>
    match objcacheGet c.calls.cacheFails srv.actives info.key false with
    | none => none
    | some (cep, actives) => some ({ srv with actives }, .held tableId fn info cep)
  | .held tableId fn info cep =>
    match fsObjDoSumNamed e c.calls.sys srv.fs tableId fn info with
    | none => some (srv, .done cep)
    | some mdAct => some (srv, .summed tableId fn info cep mdAct)
  | .summed tableId fn info cep mdAct =>
    if objcacheTestDirty srv.actives cep then some (srv, .done cep)
    else if info.hash ≠ mdAct then some (srv, .bad tableId fn cep)
    else some (srv, .done cep)
  | .bad tableId fn cep =>
    some ({ srv with fs := fsObjDisable srv.fs c.calls.disableFails tableId fn }, .done cep)
  | .done cep => some ({ srv with actives := objcachePut srv.actives cep }, .next)

/-- The steps for one file, up to the next. -/
def chkFile (e : Env) (c : ChkCall) : Nat → Srv × ChkAt → Option (Srv × ChkAt)
  | 0, s => some s
  | fuel + 1, s =>
    match chkStep e c s.1 s.2 with
    | none => none
    | some (srv, .next) => some (srv, .next)
    | some s => chkFile e c fuel s

/-- When nothing else runs, the steps for a file do what the body of the loop does. -/
theorem chkFile_eq (e : Env) {l : ListCalls} {k : FileName → ChkCalls} {fn : FileName}
    (hname : l.nameFails fn = false) (tableId : Nat) (srv : Srv) :
    let r := (chkBody e l k tableId fn (srv.fs, srv.actives, {})).1
    chkFile e ⟨tableId, fn, l.hdrFails fn, k fn⟩ 6 (srv, .next) =
      if r.2.2.dead then none else some ({ srv with fs := r.1, actives := r.2.1 }, .next) := by
  cases hhdr : fsObjHdrRead srv.fs (l.hdrFails fn) tableId fn with
  | none => simp [chkFile, chkStep, chkBody, hname, hhdr]
  | some info =>
    cases hget : objcacheGet (k fn).cacheFails srv.actives info.key false with
    | none => simp [chkFile, chkStep, chkBody, hname, hhdr, hget]
    | some r =>
      obtain ⟨cep, actives⟩ := r
      cases hsum : fsObjDoSumNamed e (k fn).sys srv.fs tableId fn info with
      | none => simp [chkFile, chkStep, chkBody, hname, hhdr, hget, hsum]
      | some mdAct =>
        by_cases hdirty : objcacheTestDirty actives cep
        · simp [chkFile, chkStep, chkBody, hname, hhdr, hget, hsum, hdirty]
        · by_cases hmd : info.hash = mdAct <;>
            simp [chkFile, chkStep, chkBody, hname, hhdr, hget, hsum, hdirty, hmd]

/-! ## The server -/

/-- `chunkd`: its store, its connections, of which some are gone, and the thread of the self-check. -/
structure Daemon where
  srv : Srv
  clients : List (Option Client)
  chk : ChkAt

/-- What happens next: a connection is accepted, something happens on one, or the self-check goes on. -/
inductive DaemonEv where
  | accept
  | client (i : Nat) (io : Io) (ev : ConnEv)
  | check (c : ChkCall)

def Daemon.client (d : Daemon) (i : Nat) : Option Client := d.clients[i]?.join

/-- A step; the result is `none` if the process dies in it. -/
def Daemon.step (e : Env) (d : Daemon) : DaemonEv → Option Daemon
  | .accept => some { d with clients := d.clients ++ [some cliAlloc] }
  | .client i io ev =>
    match d.client i with
    | none => some d
    | some cli =>
      (connStep e io d.srv cli ev).map fun r => { d with srv := r.1, clients := d.clients.set i r.2 }
  | .check c => (chkStep e c d.srv d.chk).map fun r => { d with srv := r.1, chk := r.2 }

/-- A step of a server that may have died. -/
def daemonNext (e : Env) (d : Option Daemon) (ev : DaemonEv) : Option Daemon := d.bind (·.step e ev)

/-- The server as it starts over a store, with an empty cache. -/
def Daemon.init (srv : Srv) : Daemon := ⟨{ srv with actives := fun _ => none }, [], .next⟩

/-- A first connection is accepted, and this happens on it. -/
def firstClient (is : List (Io × ConnEv)) : List DaemonEv := .accept :: is.map fun i => .client 0 i.1 i.2

theorem Daemon.client_eq_some {d : Daemon} {i : Nat} {cli : Client} :
    d.client i = some cli ↔ d.clients[i]? = some (some cli) := by
  simp [Daemon.client, Option.join_eq_some_iff]

theorem Daemon.client_set {d : Daemon} {i : Nat} {cli : Client} (h : d.client i = some cli)
    (srv : Srv) (c : Option Client) (j : Nat) :
    Daemon.client { d with srv, clients := d.clients.set i c } j = if j = i then c else d.client j := by
  have hi : i < d.clients.length := (List.getElem?_eq_some_iff.mp (Daemon.client_eq_some.mp h)).1
  unfold Daemon.client
  dsimp only
  split
  · next hj => simp [hj, hi]
  · next hj => rw [List.getElem?_set_ne (Ne.symm hj)]

theorem Daemon.client_accept (d : Daemon) (j : Nat) :
    Daemon.client { d with clients := d.clients ++ [some cliAlloc] } j = d.client j ∨
      Daemon.client { d with clients := d.clients ++ [some cliAlloc] } j = some cliAlloc ∧
        d.client j = none := by
  unfold Daemon.client
  rcases lt_trichotomy j d.clients.length with h | h | h
  · exact .inl (by rw [List.getElem?_append_left h])
  · exact .inr ⟨by simp [h], by simp [h]⟩
  · refine .inl ?_
    rw [List.getElem?_eq_none (by simp; omega), List.getElem?_eq_none (by omega)]

/-! ## Copies -/

/-- What a step of the thread of a copy does. -/
inductive CopyStep (e : Env) (io : Io) (srv : Srv) (cli : Client) (wi : WorkerInfo) : Srv → Client → Prop
  | opened {inObj : Option FsObj} {inLen : Nat} {wi' : WorkerInfo} (hpc : wi.pc = .openSrc)
      (hnext : wi'.pc = .out ∨ wi'.pc = .cache) :
      CopyStep e io srv cli wi srv { cli with inObj, inLen, worker := some wi' }
  | held {cep : UInt32} {actives : Objcache} (hpc : wi.pc = .cache)
      (hget : objcacheGet (io.sys.fails .cacheEntry) srv.actives cli.keyBytes true =
        some (cep, actives)) :
      CopyStep e io srv cli wi { srv with actives }
        { cli with outCe := some cep, worker := some { wi with pc := .create } }
  | refused {obj : FsObj} {err : ChunkErrcode} {fs : Vol} (hpc : wi.pc = .create)
      (hobj : cli.inObj = some obj)
      (hnew : fsObjNew e io.sys srv.fs cli.tableId cli.keyBytes obj.size = (.error err, fs)) :
      CopyStep e io srv cli wi { srv with fs } { cli with outBo := none, worker := some ⟨.out, err⟩ }
  | created {obj bo : FsObj} {fs : Vol} (hpc : wi.pc = .create) (hobj : cli.inObj = some obj)
      (hnew : fsObjNew e io.sys srv.fs cli.tableId cli.keyBytes obj.size = (.ok bo, fs)) :
      CopyStep e io srv cli wi { srv with fs }
        { cli with outBo := some bo, outHash := [], worker := some ⟨.read, .success⟩ }
  /-- The source has been read, or its end found, or a read has failed. -/
  | read {inObj : Option FsObj} {inLen : Nat} {bs : Bytes} {pc : CpAt} (hpc : wi.pc = .read)
      (hnext : (pc = .out ∨ pc = .commit) ∧ bs = [] ∨ pc = .write bs) :
      CopyStep e io srv cli wi srv
        { cli with inObj, inLen, outHash := cli.outHash ++ bs, worker := some { wi with pc } }
  | wrote {bs : Bytes} {bo bo' : FsObj} {fs : Vol} (hpc : wi.pc = .write bs)
      (hbo : cli.outBo = some bo)
      (hwrite : fsObjWrite e io.sys.now (io.sys.writes 0) srv.fs bo bs = (.all, fs, bo')) :
      CopyStep e io srv cli wi { srv with fs }
        { cli with outBo := some bo', worker := some { wi with pc := .read } }
  | writeFailed {bs : Bytes} {bo bo' : FsObj} {fs : Vol} (hpc : wi.pc = .write bs)
      (hbo : cli.outBo = some bo)
      (hwrite : fsObjWrite e io.sys.now (io.sys.writes 0) srv.fs bo bs = (.failed, fs, bo')) :
      CopyStep e io srv cli wi { srv with fs }
        { cli with outBo := some bo', worker := some { wi with pc := .out } }
  | committed {bo bo' : FsObj} {ok : Bool} {fs : Vol} {err : ChunkErrcode} (hpc : wi.pc = .commit)
      (hbo : cli.outBo = some bo)
      (hcommit : fsObjWriteCommit e io.sys srv.fs bo cli.user (e.sha1 cli.outHash) false =
        (ok, fs, bo')) :
      CopyStep e io srv cli wi { srv with fs }
        { cli with outBo := some bo', worker := some ⟨.out, err⟩ }
  | ended (hpc : wi.pc = .out) :
      CopyStep e io srv cli wi (cliOutEnd srv cli.toClientOut).1
        { cli with
          toClientOut := (cliOutEnd srv cli.toClientOut).2, inObj := none
          worker := some { wi with pc := .signal } }
  | waits (hpc : wi.pc = .signal) : CopyStep e io srv cli wi srv cli

theorem workerCpThr_cases {e : Env} {io : Io} {srv srv' : Srv} {cli cli' : Client} {wi : WorkerInfo}
    (h : workerCpThr e io srv cli wi = some (srv', cli')) : CopyStep e io srv cli wi srv' cli' := by
  unfold workerCpThr at h
  dsimp only at h
  split at h
  · next hpc =>
    split at h
    · obtain ⟨rfl, rfl⟩ := Prod.mk.inj (Option.some.inj h)
      exact .opened hpc (.inl rfl)
    · split at h <;> obtain ⟨rfl, rfl⟩ := Prod.mk.inj (Option.some.inj h)
      · exact .opened hpc (.inl rfl)
      · exact .opened hpc (.inr rfl)
  · next hpc =>
    split at h
    · cases h
    · next cep actives hget =>
      obtain ⟨rfl, rfl⟩ := Prod.mk.inj (Option.some.inj h)
      exact .held hpc hget
  · next hpc =>
    split at h
    · cases h
    · next obj hobj =>
      split at h
      · next err fs hnew =>
        obtain ⟨rfl, rfl⟩ := Prod.mk.inj (Option.some.inj h)
        exact .refused hpc hobj hnew
      · next bo fs hnew =>
        obtain ⟨rfl, rfl⟩ := Prod.mk.inj (Option.some.inj h)
        exact .created hpc hobj hnew
  · next hpc =>
    have hnil : cli.outHash ++ [] = cli.outHash := List.append_nil _
    have hread : ∀ (inObj : Option FsObj) (inLen : Nat) (pc : CpAt), pc = .out ∨ pc = .commit →
        CopyStep e io srv cli wi srv
          { cli with inObj, inLen, worker := some { wi with pc } } := by
      intro inObj inLen pc hnext
      have h : CopyStep e io srv cli wi srv
          { cli with inObj, inLen, outHash := cli.outHash ++ [], worker := some { wi with pc } } :=
        .read hpc (.inl ⟨hnext, rfl⟩)
      rwa [hnil] at h
    split at h
    · obtain ⟨rfl, rfl⟩ := Prod.mk.inj (Option.some.inj h)
      exact hread _ _ _ (.inr rfl)
    · split at h
      · cases h
      · split at h
        · obtain ⟨rfl, rfl⟩ := Prod.mk.inj (Option.some.inj h)
          exact hread _ _ _ (.inl rfl)
        · split at h <;> obtain ⟨rfl, rfl⟩ := Prod.mk.inj (Option.some.inj h)
          · exact hread _ _ _ (.inr rfl)
          · exact .read hpc (.inr rfl)
  · next bs hpc =>
    split at h
    · cases h
    · next bo hbo =>
      split at h
      · cases h
      · next fs bo' hwrite =>
        obtain ⟨rfl, rfl⟩ := Prod.mk.inj (Option.some.inj h)
        exact .writeFailed hpc hbo hwrite
      · next fs bo' hwrite =>
        obtain ⟨rfl, rfl⟩ := Prod.mk.inj (Option.some.inj h)
        exact .wrote hpc hbo hwrite
  · next hpc =>
    split at h
    · cases h
    · next bo hbo =>
      split at h <;> next fs bo' hcommit =>
        obtain ⟨rfl, rfl⟩ := Prod.mk.inj (Option.some.inj h)
        exact .committed hpc hbo hcommit
  · next hpc =>
    obtain ⟨rfl, rfl⟩ := Prod.mk.inj (Option.some.inj h)
    exact .ended hpc
  · next hpc =>
    obtain ⟨rfl, rfl⟩ := Prod.mk.inj (Option.some.inj h)
    exact .waits hpc

end Hail.Chunkd
