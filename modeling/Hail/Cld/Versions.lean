import Hail.Cld.Commits
import Hail.Cld.Reply

/-!
# Versions

`inode_touch` counts the updates of an inode in its version: a write to it, and a name entered in it
or taken out of it. The version has 64 bits, but it is converted as one of 32. So it counts exactly
as long as it stays below `2 ^ 32`.
-/
namespace Hail.Cld

open Library

/-- The version of an inode, if it is stored. -/
def Server.version (srv : Server) (inum : Inum) : Option Nat :=
  (srv.db.inodes.get inum).map RawInode.version

/-- How often a request, when it is committed, updates an inode: `CMO_PUT` its own, and the making and
the deletion of an inode its directory. -/
def Request.updates (db : Cldb) (sid : Sid) (inum : Inum) : Request → Nat
  | .put m => if (db.handles.get (sid, m.fh)).any (·.inum = inum) then 1 else 0
  | .open m =>
    let name := m.inodeName.bytes
    if (db.byname name).isNone ∧ (db.byname (pathnameParse name).dir).any (·.inum = inum) then 1 else 0
  | .del name =>
    if (db.byname (pathnameParse name.bytes).dir).any (·.inum = inum) then 1 else 0
  | _ => 0

/-- How often a step updates an inode. -/
def Life.updates (e : Env) (srv : Server) (inum : Inum) : Life → Nat
  | .op step =>
    match step.commits e srv with
    | some (sid, req) => req.updates srv.db sid inum
    | none => 0
  | .restart .. => 0

/-- How often a run updates an inode. -/
def updatesIn (e : Env) (inum : Inum) : Server → List Life → Nat
  | _, [] => 0
  | srv, l :: ls => l.updates e srv inum + updatesIn e inum (srv.live e l) ls

/-- The version has room for one more. -/
def Life.fits (e : Env) (srv : Server) (inum : Inum) (l : Life) : Prop :=
  l.updates e srv inum = 0 ∨ ∀ v, srv.version inum = some v → v < 2 ^ 32 - 1

/-- The version `inode_touch` makes of one. -/
def touched (v n : Nat) : Nat := if n = 0 then v else (v + 1) % 2 ^ 32

section

variable {inodes : Table RawInode.inum} {inum : Inum} {v : Nat}

/-- Touching one inode, with or without the one in question. -/
theorem version_touch (h : (inodes.get inum).map RawInode.version = some v) {ino : RawInode} (x : RawInode)
    (now : Nat) (hi : ino ∈ inodes.rows) (hk : x.inum = ino.inum) (hv : x.version = ino.version) :
    ((inodes.put unordered (x.touch now)).get inum).map RawInode.version =
      some (touched v (if ino.inum = inum then 1 else 0)) := by
  by_cases hin : ino.inum = inum
  · have hget : inodes.get inum = some ino := Table.mem_get.mpr ⟨hi, hin⟩
    rw [hget, Option.map_some, Option.some.injEq] at h
    rw [Table.get_put, if_pos (by exact (hk.trans hin).symm)]
    simp [touched, hin, RawInode.touch, hv, h]
  · have hne : inum ≠ x.inum := fun hx => hin (hk.symm.trans hx.symm)
    rw [Table.get_put_of_ne (by exact hne), h]
    simp [touched, hin]

end

theorem DbEffect.version {sid : Sid} {fh now : Nat} {db db' : Cldb} {req : Request} {inum : Inum}
    {v : Nat} (heff : DbEffect sid fh now db req db')
    (h : (db.inodes.get inum).map RawInode.version = some v) (hkept : db'.inodes.Has inum) :
    (db'.inodes.get inum).map RawInode.version = some (touched v (req.updates db sid inum)) := by
  have hhas : db.inodes.Has inum := by
    obtain ⟨ino, hino, -⟩ := Option.map_eq_some_iff.mp h
    exact Table.has_iff.mpr ⟨ino, hino⟩
  cases heff with
  | @put m h' ino handle write file inode =>
    obtain ⟨hmem, hk⟩ := Table.mem_get.mp inode
    have ht := version_touch h { ino with size := m.data.length } now hmem rfl rfl
    simpa [Request.updates, handle, hk] using ht
  | «open» valid inode => simpa [Request.updates, inode, touched, Cldb.addHandle] using h
  | @create m i parent sess size flags valid long absent unused above dir hparent =>
    have ht := version_touch h { parent with size } now (byname_eq_some hparent).1
      rfl rfl
    -- the new inode has a number that was not used
    have hne : inum ≠ i := by
      rintro rfl
      exact Table.get_none_iff.mp unused hhas
    simp only [Cldb.addHandle, Cldb.link]
    rw [Table.get_put_of_ne (by exact hne), ht]
    simp [Request.updates, absent, hparent]
  | close | unlock => simpa [Request.updates, touched, Cldb.setLocks] using h
  | @del name ino parent old data size valid long hparent hold inode =>
    have hp := Table.mem_del.mpr ⟨(byname_eq_some hparent).1, byname_dir_ne valid long inode hparent⟩
    -- an inode that is still stored is not the one deleted
    have hne : inum ≠ ino.inum := by
      rintro rfl
      rcases Table.has_put.mp hkept with hk | hk
      · exact byname_dir_ne valid long inode hparent hk.symm
      · exact (Table.has_del.mp hk).2 rfl
    have hdel : ((db.inodes.del ino.inum).get inum).map RawInode.version = some v := by
      rw [Table.get_del, if_neg hne, h]
    have ht := version_touch hdel { parent with size } now hp rfl rfl
    simpa [Request.updates, Cldb.unlink, hparent] using ht
  | lock handle mode add =>
    obtain ⟨lock, ls, -, -, -, -, -, -, rfl, -⟩ := cldbLockAdd_ok add
    simpa [Request.updates, touched, Cldb.setLocks] using h

theorem live_version (e : Env) {s : Server} (hn : Named s.db.inodes) (l : Life) {inum : Inum}
    {v : Nat} (h : s.version inum = some v) (hkept : (s.live e l).db.inodes.Has inum) :
    (s.live e l).version inum = some (touched v (l.updates e s inum)) := by
  cases l with
  | op op =>
    rcases step_commits e s op with ⟨sid, req, fh, hc, heff⟩ | ⟨hc, hi, -⟩
    · simp only [Life.updates, hc]
      exact heff.version h hkept
    · simpa [Life.updates, hc, touched, Server.version, Server.live, hi] using h
  | restart now timerFails =>
    have hdb : (s.restart now timerFails).db = s.db := ensureRoot_of_named hn
    simpa [Life.updates, touched, Server.version, Server.live, hdb] using h

/-- What a `CMO_GET` tells of the version is what is stored. -/
theorem msgGetTxn_version {ft : Faults} {sess : Session} {fh : Nat} {s : Server} {resp : CldMsgGetResp}
    (h : (msgGetTxn ft sess fh s).1 = .ok resp) : s.version resp.inum = some resp.vers := by
  obtain ⟨x, ino, data, -, -, hino, -, rfl⟩ := msgGetTxn_ok.mp h
  have hget := found_ok.mp (Faults.guard_ok.mp hino).2
  have hk : ino.inum = x.inum := (Table.mem_get.mp hget).2
  simp [Server.version, hk, hget]

theorem touched_eq_iff {v n : Nat} (hn : n ≤ 1) :
    touched v n = v + n ↔ n = 0 ∨ v < 2 ^ 32 - 1 := by
  unfold touched
  split
  · next h => simp [h]
  · next h =>
    have hone : n = 1 := by omega
    subst hone
    omega

theorem Life.updates_le (e : Env) (s : Server) (inum : Inum) (l : Life) : l.updates e s inum ≤ 1 := by
  cases l with
  | op step =>
    simp only [Life.updates]
    split
    · next sid req hc => cases req <;> simp only [Request.updates] <;> first | omega | (split <;> omega)
    · omega
  | restart => simp [Life.updates]

/-- Over every run that does not delete an inode, its version counts the updates of the inode, and
`CMO_GET` tells it, if and only if each update finds a version below `2 ^ 32 - 1`. -/
theorem run_version_iff (e : Env) {s : Server} (hn : Named s.db.inodes) {inum : Inum} {v : Nat}
    (h : s.version inum = some v) (ls : List Life)
    (hkept : Meets (Server.live e) (fun s l => (s.live e l).db.inodes.Has inum) s ls) :
    (∀ js, js <+: ls →
      (run (Server.live e) s js).version inum = some (v + updatesIn e inum s js) ∧
      ∀ ft sess fh resp, (msgGetTxn ft sess fh (run (Server.live e) s js)).1 = .ok resp →
        resp.inum = inum → resp.vers = v + updatesIn e inum s js) ↔
    Meets (Server.live e) (fun s l => l.fits e s inum) s ls := by
  have hget : ∀ js, (run (Server.live e) s js).version inum = some (v + updatesIn e inum s js) →
      ∀ ft sess fh resp, (msgGetTxn ft sess fh (run (Server.live e) s js)).1 = .ok resp →
        resp.inum = inum → resp.vers = v + updatesIn e inum s js := by
    rintro js hjs ft sess fh resp hresp rfl
    rw [msgGetTxn_version hresp] at hjs
    exact Option.some.inj hjs
  have hiff : (∀ js, js <+: ls →
      (run (Server.live e) s js).version inum = some (v + updatesIn e inum s js)) ↔
      Meets (Server.live e) (fun s l => l.fits e s inum) s ls := by
    clear hget
    induction ls generalizing s v with
    | nil =>
      refine iff_of_true ?_ trivial
      intro js hjs
      rw [List.prefix_nil.mp hjs]
      simpa [run, updatesIn] using h
    | cons l ls ih =>
      have hstep := live_version e hn l h hkept.1
      have hfits : touched v (l.updates e s inum) = v + l.updates e s inum ↔ l.fits e s inum := by
        rw [touched_eq_iff (l.updates_le e s inum), Life.fits, h]
        simp
      constructor
      · intro hall
        have hone := (hall [l] (by simp)).symm
        simp only [run, updatesIn, hstep, Nat.add_zero, Option.some.injEq] at hone
        refine ⟨hfits.mp hone.symm, (ih (hn.live e l) (hstep.trans (by rw [← hone])) hkept.2).mp ?_⟩
        intro js hjs
        have hjs' := hall (l :: js) (List.cons_prefix_cons.mpr ⟨rfl, hjs⟩)
        simpa [run, updatesIn, Nat.add_assoc] using hjs'
      · rintro ⟨hl, hls⟩ js hjs
        cases js with
        | nil => simpa [run, updatesIn] using h
        | cons j js =>
          obtain ⟨rfl, htail⟩ := List.cons_prefix_cons.mp hjs
          rw [hfits.mpr hl] at hstep
          have hjs' := (ih (hn.live e j) hstep hkept.2).mpr hls js htail
          simpa [run, updatesIn, Nat.add_assoc] using hjs'
  rw [← hiff]
  exact ⟨fun hall js hjs => (hall js hjs).1, fun hall js hjs => ⟨hall js hjs, hget js (hall js hjs)⟩⟩

/-- Session 1 makes `/a`, writes to it and deletes it. -/
def rootedRun : List Life :=
  [.op (.newSess 1), .op (.open 1 (comCreate + comWrite) [slash, 0x61]), .op (.put 1 2 [7, 8, 9]),
    .op (.del 1 [slash, 0x61])]

theorem run_version_iff_root :
    updatesIn .plain cldInoRoot (Server.init 0) rootedRun = 2 ∧
      (run (Server.live .plain) (Server.init 0) rootedRun).version cldInoRoot = some (1 + 2) := by
  have hkept : Meets (Server.live .plain) (fun s l => (s.live .plain l).db.inodes.Has cldInoRoot)
      (Server.init 0) rootedRun := by
    have hsome : Meets (Server.live .plain)
        (fun s l => ((s.live .plain l).db.inodes.get cldInoRoot).isSome = true)
        (Server.init 0) rootedRun := by decide +kernel
    exact hsome.imp fun s l _ h => Table.has_iff.mpr (Option.isSome_iff_exists.mp h)
  have hfits : Meets (Server.live .plain) (fun s l => l.fits .plain s cldInoRoot)
      (Server.init 0) rootedRun := by
    have hall : Meets (Server.live .plain)
        (fun s _ => (s.version cldInoRoot).all (· < 2 ^ 32 - 1) = true)
        (Server.init 0) rootedRun := by decide +kernel
    refine hall.imp fun s l _ h => .inr fun v hv => ?_
    simpa [hv] using h
  have htwo : updatesIn .plain cldInoRoot (Server.init 0) rootedRun = 2 := by decide +kernel
  have hrun := ((run_version_iff .plain (Named.init 0) (by rfl) rootedRun hkept).mpr hfits rootedRun
    (List.prefix_refl _)).1
  rw [htwo] at hrun
  exact ⟨htwo, hrun⟩

/-! ## The version wraps -/

/-- Session 1 writes to `/a`. -/
def emptyPut : CldMsgPut := ⟨2, [], by decide⟩

def Op.putEmpty : Op := .put 1 2 []

/-- Session 1 can write to inode `inum`, which has version `v`. -/
structure Writes (s : Server) (inum : Inum) (v : Nat) : Prop where
  sess : ∃ sess, s.sessions.get 1 = some sess ∧ sess.user = User.cli ∧ sess.addr = [] ∧
    sess.dead = false
  handle : ∃ x, s.db.handles.get (1, 2) = some x ∧ x.inum = inum ∧ has x.mode comWrite = true ∧
    has x.mode comDirectory = false
  version : s.version inum = some v

theorem inodeTouch_none (e : Env) (nth : Nat) (ino : RawInode) (s : Server) :
    ∃ t, inodeTouch e .none nth ino s = (.ok ⟨⟩, t) := by
  simp only [inodeTouch, inodeNotify, Txn.bind_ok, Txn.read_ok, dbPut_ok, cldbInodePut,
    Faults.guard_ok, Txn.failIf_ok, Faults.none_apply]
  exact ⟨_, _, _, ⟨rfl, rfl⟩, ⟨⟩, _, ⟨_, ⟨trivial, rfl⟩, rfl⟩, ⟨⟩, _, ⟨trivial, rfl⟩, rfl⟩

theorem Writes.txn {s : Server} {inum : Inum} {v : Nat} (h : Writes s inum v) :
    ∃ t, msgPutTxn .plain .none 1 emptyPut s = (.ok ⟨⟩, t) := by
  obtain ⟨x, hx, rfl, hw, hd⟩ := h.handle
  obtain ⟨ino, hino, -⟩ := Option.map_eq_some_iff.mp h.version
  set ino' : RawInode := { ino with size := emptyPut.data.length } with hino'
  obtain ⟨t, ht⟩ := inodeTouch_none .plain 0 ino'
    (s.setDb { s.db with data := s.db.data.put unordered ⟨x.inum, emptyPut.data⟩ })
  simp only [msgPutTxn, Txn.bind_ok, Txn.onErr_ok, Txn.failIf_ok, dbGet_ok, dbPut_ok, cldbHandleGet,
    cldbInodeGet, cldbDataPut, Faults.guard_ok, found_ok]
  exact ⟨t, x, s, ⟨⟨rfl, hx⟩, rfl⟩, ⟨⟩, s, ⟨by simp [hw, hd], rfl⟩, ino, s, ⟨⟨rfl, hino⟩, rfl⟩, ⟨⟩, _,
    ⟨_, ⟨rfl, rfl⟩, rfl⟩, ht⟩

theorem Writes.step {s : Server} {inum : Inum} {v : Nat} (h : Writes s inum v) :
    Writes (s.step .plain .putEmpty) inum ((v + 1) % 2 ^ 32) := by
  obtain ⟨sess, hs, hu, ha, hd⟩ := h.sess
  have hlen : (Xdr.putHyper 2 ++ (Xdr.putVar cldMaxPayloadSz []).getD []).length ≤ cldMaxMsgSz := by
    decide
  have hstep : s.step .plain .putEmpty = (Request.put emptyPut).handle .plain .none 1 _ :=
    step_msg .plain hs hu ha hd hlen rfl rfl
  rw [hstep]
  set sess' : Session := sess.takes _ _ _ with hsess'
  set w : Server := Server.note _ _ with hw
  have hws : w.sessions.get 1 = some sess' := by
    have hsid : 1 = sess'.sid := (get_sid hs).symm
    rw [hw, Server.note, Server.putSess, Table.get_put, if_pos hsid]
  have hwr : Writes w inum v := ⟨⟨sess', hws, hu, ha, hd⟩, h.handle, h.version⟩
  obtain ⟨t, ht⟩ := hwr.txn
  have hin : inTxn .none CleErrCodes.dbErr (msgPutTxn .plain .none 1 emptyPut) w = (.ok ⟨⟩, t) :=
    inTxn_ok.mpr ⟨rfl, rfl, ht⟩
  have hdb : ((Request.put emptyPut).handle .plain .none 1 w).db = t.db := by
    simp only [Request.handle, msgPut, hin, respond]
    exact (sessSendrespGeneric_frame ..).db
  have heff := msgPutTxn_ok (sess'.nextFh) ht
  rw [← hdb] at heff
  obtain ⟨sess'', hg, hcore⟩ := (handle_sessFrame .plain .none (.put emptyPut) hws).get' hws
  have huser : sess''.core.user = sess'.core.user := by rw [hcore]
  have haddr : sess''.core.addr = sess'.core.addr := by rw [hcore]
  have hdead : sess''.core.dead = sess'.core.dead := by rw [hcore]
  obtain ⟨x, hx, hinum, hmode, hdir⟩ := hwr.handle
  have hput : (Request.put emptyPut).updates w.db 1 inum = 1 := by
    simp only [Request.updates]
    rw [if_pos]
    simp [show w.db.handles.get (1, emptyPut.fh) = some x from hx, hinum]
  have hsame : ((Request.put emptyPut).handle .plain .none 1 w).db.handles = w.db.handles ∧
      ((Request.put emptyPut).handle .plain .none 1 w).db.inodes.Has inum := by
    generalize ((Request.put emptyPut).handle .plain .none 1 w).db = db' at heff ⊢
    cases heff with
    | put handle write file inode =>
      cases handle.symm.trans hx
      refine ⟨rfl, Table.has_put.mpr (.inl ?_)⟩
      exact hinum.symm.trans (Table.mem_get.mp inode).2.symm
  have hver := heff.version hwr.version hsame.2
  rw [hput] at hver
  refine ⟨⟨sess'', hg, huser.trans hu, haddr.trans ha, hdead.trans hd⟩, ⟨x, ?_, hinum, hmode, hdir⟩, hver⟩
  rw [hsame.1]
  exact hx

theorem Writes.run {s : Server} {inum : Inum} {v : Nat} (h : Writes s inum v) (hv : v < 2 ^ 32)
    (k : Nat) :
    Writes (run (Server.live .plain) s (List.replicate k (.op .putEmpty))) inum ((v + k) % 2 ^ 32) := by
  induction k generalizing s v with
  | zero => rwa [Nat.add_zero, Nat.mod_eq_of_lt hv]
  | succ k ih =>
    have hrest := ih h.step (Nat.mod_lt _ (by norm_num))
    rwa [Nat.mod_add_mod, Nat.add_assoc, Nat.add_comm 1] at hrest

/-- Session 1 makes `/a` and writes to it `k` times. -/
def countingRun (k : Nat) : List Life :=
  [.op (.newSess 1), .op (.open 1 (comCreate + comWrite) [slash, 0x61])] ++
    List.replicate k (.op .putEmpty)

theorem countingRun_writes (k : Nat) :
    Writes (run (Server.live .plain) (Server.init 0) (countingRun k)) 55 ((1 + k) % 2 ^ 32) := by
  have h0 : Writes (run (Server.live .plain) (Server.init 0)
      [.op (.newSess 1), .op (.open 1 (comCreate + comWrite) [slash, 0x61])]) 55 1 := by
    refine ⟨?_, ⟨⟨1, 2, 55, 0x12, 0⟩, by decide +kernel, rfl, by decide, by decide⟩, by decide +kernel⟩
    have hsess : ((run (Server.live .plain) (Server.init 0)
        [.op (.newSess 1), .op (.open 1 (comCreate + comWrite) [slash, 0x61])]).sessions.get 1).map
          (fun x => (x.user, x.addr, x.dead)) = some (User.cli, [], false) := by
      decide +kernel
    obtain ⟨sess, hg, hf⟩ := Option.map_eq_some_iff.mp hsess
    simp only [Prod.mk.injEq] at hf
    exact ⟨sess, hg, hf⟩
  rw [countingRun, run_append]
  exact h0.run (by norm_num) k

/-- The write that finds version `2 ^ 32 - 1` leaves version 0. -/
theorem wrapping_version :
    ¬ ∀ (e : Env) (now : Nat) (ls : List Life) (l : Life) (inum : Inum) (v : Nat),
      (run (Server.live e) (Server.init now) ls).version inum = some v →
      (run (Server.live e) (Server.init now) (ls ++ [l])).db.inodes.Has inum →
        (run (Server.live e) (Server.init now) (ls ++ [l])).version inum =
          some (v + l.updates e (run (Server.live e) (Server.init now) ls) inum) := by
  intro hall
  -- the number stays opaque: the run is not to be unfolded
  obtain ⟨k, hk⟩ : ∃ k, k = 2 ^ 32 - 2 := ⟨_, rfl⟩
  have hbefore := (countingRun_writes k).version
  have hafter := (countingRun_writes (k + 1)).version
  have hrun : countingRun (k + 1) = countingRun k ++ [.op .putEmpty] := by
    rw [countingRun, List.replicate_succ', ← List.append_assoc, countingRun]
  rw [hrun] at hafter
  have hhas : (run (Server.live .plain) (Server.init 0)
      (countingRun k ++ [.op .putEmpty])).db.inodes.Has 55 := by
    obtain ⟨ino, hino, -⟩ := Option.map_eq_some_iff.mp hafter
    exact Table.has_iff.mpr ⟨ino, hino⟩
  have hclaim := hall .plain 0 (countingRun k) (.op .putEmpty) 55 _ hbefore hhas
  rw [hafter, Option.some.injEq] at hclaim
  omega

end Hail.Cld
