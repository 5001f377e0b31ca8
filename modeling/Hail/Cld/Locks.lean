import Hail.Cld.Step
import Hail.Library.Run

/-!
# Holders and waiters

The records without `CLFL_PENDING` of an inode never conflict with each other, whatever happens.
A pending record is to conflict with one of them; that is lost when the last holder of an inode
goes and a waiter stays, because `msg_unlock` does not look for waiters and the rescan after a
close or the end of a session stores the records as they were.
-/
namespace Hail.Cld

open Library

theorem RawLock.conflicts_comm (a b : RawLock) : a.conflicts b = b.conflicts a := by
  simp [RawLock.conflicts, Bool.and_comm]

/-- The records of the locks that are held. -/
def held (ls : List RawLock) : List RawLock := ls.filter fun l => !l.pending

theorem mem_held {ls : List RawLock} {l : RawLock} : l ∈ held ls ↔ l ∈ ls ∧ l.pending = false := by
  simp [held]

/-- No two locks that are held conflict. -/
def Compat (ls : List RawLock) : Prop := (held ls).Pairwise fun a b => a.conflicts b = false

/-- Every waiter has somebody to wait for. -/
def Waits (ls : List RawLock) : Prop :=
  ∀ p ∈ ls, p.pending = true → ∃ a ∈ ls, a.pending = false ∧ p.conflicts a = true

/-- If there is a waiter, some lock is held. -/
def holderLeft (ls : List RawLock) : Bool := !ls.any RawLock.pending || ls.any fun l => !l.pending

theorem Compat.sublist {ls ls' : List RawLock} (h : Compat ls) (hs : ls'.Sublist ls) : Compat ls' :=
  List.Pairwise.sublist (hs.filter _) h

theorem Compat.perm {ls ls' : List RawLock} (h : Compat ls) (hp : ls'.Perm ls) : Compat ls' := by
  refine (hp.filter _).symm.pairwise h ?_
  intro a b hab
  rw [RawLock.conflicts_comm, hab]

/-- Two different held locks are both shared. -/
theorem Compat.shared {ls : List RawLock} (h : Compat ls) {a b : RawLock} (ha : a ∈ ls)
    (hb : b ∈ ls) (hpa : a.pending = false) (hpb : b.pending = false) (hne : a ≠ b) :
    a.shared = true ∧ b.shared = true := by
  have : Std.Symm fun a b : RawLock => a.conflicts b = false :=
    ⟨fun a b hab => by rw [RawLock.conflicts_comm, hab]⟩
  have hab := h.forall (mem_held.mpr ⟨ha, hpa⟩) (mem_held.mpr ⟨hb, hpb⟩) hne
  simpa [RawLock.conflicts] using hab

/-- When locks are released and somebody still holds one, every waiter that is left still waits for
somebody: if the lock it conflicted with is gone, those left and that one were all shared. -/
theorem Waits.sublist {ls ls' : List RawLock} (hc : Compat ls) (h : Waits ls) (hs : ls'.Sublist ls)
    (hl : holderLeft ls' = true) : Waits ls' := by
  intro p hp hpend
  obtain ⟨a, ha, hacq, hconf⟩ := h p (hs.mem hp) hpend
  obtain ⟨b, hb, hbacq⟩ : ∃ b ∈ ls', b.pending = false := by
    have hany : ls'.any RawLock.pending = true := List.any_eq_true.mpr ⟨p, hp, hpend⟩
    simpa [holderLeft, hany] using hl
  by_cases hab : a = b
  · exact ⟨b, hb, hbacq, hab ▸ hconf⟩
  · obtain ⟨has, hbs⟩ := hc.shared ha (hs.mem hb) hacq hbacq hab
    refine ⟨b, hb, hbacq, ?_⟩
    simpa [RawLock.conflicts, has, hbs] using hconf

/-! ## What a step does to the locks of an inode -/

/-- The records of an inode when a lock is added to them. -/
structure LockAdded (lock : RawLock) (ls ls' : List RawLock) : Prop where
  perm : ls'.Perm (lock :: ls)
  held : lock.pending = false → ∀ l ∈ ls, l.pending = false → lock.conflicts l = false
  waits : lock.pending = true → ∃ l ∈ ls, l.pending = false ∧ lock.conflicts l = true

theorem LockAdded.compat {lock : RawLock} {ls ls' : List RawLock} (h : LockAdded lock ls ls')
    (hc : Compat ls) : Compat ls' := by
  refine Compat.perm ?_ h.perm
  cases hp : lock.pending with
  | true =>
    have hheld : Cld.held (lock :: ls) = Cld.held ls := by simp [Cld.held, hp]
    rwa [Compat, hheld]
  | false =>
    have hheld : Cld.held (lock :: ls) = lock :: Cld.held ls := by simp [Cld.held, hp]
    rw [Compat, hheld]
    refine List.pairwise_cons.mpr ⟨fun l hl => ?_, hc⟩
    obtain ⟨hl, hacq⟩ := mem_held.mp hl
    exact h.held hp l hl hacq

theorem LockAdded.waits' {lock : RawLock} {ls ls' : List RawLock} (h : LockAdded lock ls ls')
    (hw : Waits ls) : Waits ls' := by
  have hmem : ∀ l ∈ ls, l ∈ ls' := fun l hl => h.perm.mem_iff.mpr (List.mem_cons_of_mem lock hl)
  intro p hp hpend
  rcases List.mem_cons.mp (h.perm.mem_iff.mp hp) with rfl | hp
  · obtain ⟨a, ha, hacq, hconf⟩ := h.waits hpend
    exact ⟨a, hmem a ha, hacq, hconf⟩
  · obtain ⟨a, ha, hacq, hconf⟩ := hw p hp hpend
    exact ⟨a, hmem a ha, hacq, hconf⟩

/-- What a step can do to the lock records of inode `i`. -/
inductive LocksStep (s : Server) (op : Op) (i : Inum) (ls' : List RawLock) : Prop where
  | same (h : ls' = s.db.locks i)
  | unlocked {sid : Sid} {n : Nat} {h : RawHandle} (hr : op.request s = some (sid, .unlock n))
      (hh : s.db.handles.get (sid, n) = some h) (hmode : has h.mode comLock = true)
      (hi : i = h.inum) (hls : lockDelScan sid n (s.db.locks i) = some ls')
  | closed {sid : Sid} {n : Nat} {h : RawHandle} (hr : op.request s = some (sid, .close n))
      (hh : s.db.handles.get (sid, n) = some h) (hi : i = h.lockInum)
      (hls : ls' = keptLocks sid n (s.db.locks i))
  | ended {sid : Sid} (hd : op.disposes s = some sid) (hi : i ∈ s.db.lockInums sid)
      (hls : ls' = keptLocks sid 0 (s.db.locks i))
  | locked {sid : Sid} {n flags : Nat} {lock : RawLock} {h : RawHandle}
      (hr : op.request s = some (sid, .lock n flags))
      (hh : s.db.handles.get (sid, n) = some h) (hi : i = h.inum)
      (hlock : lock.inum = i ∧ lock.sid = sid ∧ lock.fh = n ∧ lock.shared = has flags clfShared)
      (hadd : LockAdded lock (s.db.locks i) ls')

theorem cldbLockAdd_added {ft : Faults} {now : Nat} {db db' : Cldb} {sid : Sid} {fh : Nat}
    {inum : Inum} {shared wait acquired : Bool}
    (h : cldbLockAdd ft now db sid fh inum shared wait = .ok (db', acquired)) :
    ∃ lock ls, (lock.inum = inum ∧ lock.sid = sid ∧ lock.fh = fh ∧ lock.shared = shared) ∧
      lock.pending = !acquired ∧ LockAdded lock (db.locks inum) ls ∧ db' = db.setLocks inum ls := by
  obtain ⟨lock, ls, hinum, hsid, hfh, hsh, hp, hperm, hdb, hconf⟩ := cldbLockAdd_ok h
  refine ⟨lock, ls, ⟨hinum, hsid, hfh, hsh⟩, hp, ⟨hperm, fun hn => ?_, fun hn => ?_⟩, hdb⟩
  · rwa [if_pos (by simpa [hn] using hp)] at hconf
  · rwa [if_neg (by simpa [hn] using hp)] at hconf

theorem setLocks_cases (db : Cldb) (inum i : Inum) (ls : List RawLock) :
    (db.setLocks inum ls).locks i = db.locks i ∨ i = inum ∧ (db.setLocks inum ls).locks i = ls := by
  by_cases h : i = inum
  · exact .inr ⟨h, by rw [h, setLocks_self]⟩
  · exact .inl (setLocks_of_ne db ls h)

theorem step_locks (e : Env) (s : Server) (op : Op) (i : Inum) :
    LocksStep s op i ((s.step e op).db.locks i) := by
  cases step_db e s op with
  | same hdb hfh => exact .same (by rw [hdb])
  | created h =>
    obtain ⟨raw, -, -, -, hdb⟩ := h.db
    exact .same (by rw [hdb])
  | @effect sid req fh hr hn h hopen hfh =>
    generalize (s.step e op).db = db' at h
    cases h with
    | put | «open» | create | del => exact .same rfl
    | @close n h handle =>
      rcases setLocks_cases { s.db with handles := s.db.handles.del (sid, n) } h.lockInum i
        (keptLocks sid n (s.db.locks h.lockInum)) with hl | ⟨rfl, hl⟩
      · exact .same hl
      · exact .closed hr handle rfl hl
    | @unlock n h ls handle mode scan =>
      rcases setLocks_cases s.db h.inum i ls with hl | ⟨rfl, hl⟩
      · exact .same hl
      · exact .unlocked hr handle mode rfl (by rw [hl, scan])
    | @lock n flags h wait acquired ft db' handle mode add =>
      obtain ⟨lock, ls, hlock, -, hadd, rfl⟩ := cldbLockAdd_added add
      rcases setLocks_cases s.db h.inum i ls with hl | ⟨rfl, hl⟩
      · exact .same hl
      · exact .locked hr handle rfl hlock (by rwa [hl])
  | pruned hd h hfh =>
    rcases h.locks i with hl | ⟨hi, hl⟩
    · exact .same hl
    · exact .ended hd hi hl

theorem lockDelScan_sublist {sid : Sid} {fh : Nat} {ls out : List RawLock}
    (h : lockDelScan sid fh ls = some out) : out.Sublist ls := by
  obtain ⟨pre, l, post, rfl, rfl, -⟩ := lockDelScan_split h
  exact (List.sublist_cons_self l post).append_left pre

/-- Locks that are held do not conflict, in any run. -/
theorem step_compat (e : Env) {s : Server} (hs : ∀ i, Compat (s.db.locks i)) (op : Op) (i : Inum) :
    Compat ((s.step e op).db.locks i) := by
  cases step_locks e s op i with
  | same h => rw [h]; exact hs i
  | unlocked hr hh hmode hi hls => exact (hs i).sublist (lockDelScan_sublist hls)
  | closed hr hh hi hls => rw [hls]; exact (hs i).sublist List.filter_sublist
  | ended hd hi hls => rw [hls]; exact (hs i).sublist List.filter_sublist
  | locked hr hh hi hlock hadd => exact hadd.compat (hs i)

/-! ## No lost wakeup -/

/-- The oldest waiter of an inode conflicts with a lock that is held on it. -/
def NoLostWakeup (db : Cldb) : Prop :=
  ∀ i p, (db.locks i).find? RawLock.pending = some p →
    ∃ a ∈ db.locks i, a.pending = false ∧ p.conflicts a = true

/-- The step does not release the last lock held on an inode for which there is another waiter, whether or
not its calls succeed. -/
def Op.leavesHolder (s : Server) (op : Op) : Bool :=
  match op.request s with
  | some (sid, .unlock n) => (s.db.handles.get (sid, n)).all fun h =>
      (lockDelScan sid n (s.db.locks h.inum)).all holderLeft
  | some (sid, .close n) => (s.db.handles.get (sid, n)).all fun h =>
      holderLeft (keptLocks sid n (s.db.locks h.lockInum))
  | _ => (op.disposes s).all fun sid => (s.db.lockInums sid).all fun i =>
      holderLeft (keptLocks sid 0 (s.db.locks i))

theorem disposes_request {s : Server} {op : Op} {sid : Sid} (h : op.disposes s = some sid) :
    op.request s = none := by
  cases op with
  | timeout => rfl
  | tick | rx => simp [Op.disposes] at h

theorem step_waits (e : Env) {s : Server} {op : Op} (hc : ∀ i, Compat (s.db.locks i))
    (hw : ∀ i, Waits (s.db.locks i)) (hok : op.leavesHolder s = true) (i : Inum) :
    Waits ((s.step e op).db.locks i) := by
  cases step_locks e s op i with
  | same h => rw [h]; exact hw i
  | @unlocked sid n h hr hh hmode hi hls =>
    have hleft := hok
    simp only [Op.leavesHolder, hr, hh, Option.all_some, ← hi, hls] at hleft
    exact (hw i).sublist (hc i) (lockDelScan_sublist hls) hleft
  | @closed sid n h hr hh hi hls =>
    have hleft := hok
    simp only [Op.leavesHolder, hr, hh, Option.all_some, ← hi] at hleft
    rw [hls]
    exact (hw i).sublist (hc i) List.filter_sublist hleft
  | @ended sid hd hi hls =>
    have hleft := hok
    simp only [Op.leavesHolder, disposes_request hd, hd, Option.all_some, List.all_eq_true] at hleft
    rw [hls]
    exact (hw i).sublist (hc i) List.filter_sublist (hleft i hi)
  | locked hr hh hi hlock hadd => exact hadd.waits' (hw i)

/-- In a run whose steps all leave a holder behind, no wakeup is lost. A beginning of such a run is
one too, so this holds at every point of it. -/
theorem run_noLostWakeup (e : Env) (now : Nat) (ops : List Op)
    (h : Meets (Server.step e) (fun s op => op.leavesHolder s = true) (Server.init now) ops) :
    NoLostWakeup (run (Server.step e) (Server.init now) ops).db := by
  have hinv := h.invariant
    (I := fun s : Server => (∀ i, Compat (s.db.locks i)) ∧ ∀ i, Waits (s.db.locks i))
    ⟨fun i => List.Pairwise.nil, fun i p hp => by simp [Server.init] at hp⟩
    fun s op hs hok => ⟨step_compat e hs.1 op, step_waits e hs.1 hs.2 hok⟩
  intro i p hp
  exact hinv.2 i p (List.mem_of_find?_eq_some hp) (List.find?_some hp)

/-- Sessions 1 and 2 share `/a`; session 3 waits for it; session 1 unlocks it. -/
def sharedRun : List Op :=
  [.newSess 1, .newSess 2, .newSess 3, .open 1 (comCreate + comLock) [slash, 0x61],
    .open 2 comLock [slash, 0x61], .open 3 comLock [slash, 0x61], .lockShared 1 2, .lockShared 2 2,
    .lock 3 2, .unlock 1 2]

theorem run_noLostWakeup_shared :
    Meets (Server.step .plain) (fun s op => op.leavesHolder s = true) (Server.init 0) sharedRun ∧
      NoLostWakeup (run (Server.step .plain) (Server.init 0) sharedRun).db := by
  have hmeets : Meets (Server.step .plain) (fun s op => op.leavesHolder s = true) (Server.init 0)
      sharedRun := by decide +kernel
  exact ⟨hmeets, run_noLostWakeup .plain 0 sharedRun hmeets⟩

/-- Session 1 holds `/a`, session 2 waits for it, and session 1 unlocks it. -/
def forgottenRun : List Op :=
  [.newSess 1, .newSess 2, .open 1 (comCreate + comLock) [slash, 0x61],
    .open 2 comLock [slash, 0x61], .lock 1 2, .lock 2 2, .unlock 1 2]

/-- Session 2 waits on, for nobody. -/
theorem forgottenRun_lost_wakeup :
    ¬ NoLostWakeup (run (Server.step .plain) (Server.init 0) forgottenRun).db := by
  intro h
  have hlocks : (run (Server.step .plain) (Server.init 0) forgottenRun).db.locks 59 =
      [⟨59, 2, 2, 0, clflPending⟩] := by decide +kernel
  obtain ⟨a, ha, hacq, -⟩ := h 59 ⟨59, 2, 2, 0, clflPending⟩ (by rw [hlocks]; decide)
  rw [hlocks, List.mem_singleton] at ha
  subst ha
  cases hacq

end Hail.Cld
