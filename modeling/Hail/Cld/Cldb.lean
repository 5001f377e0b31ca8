import Hail.Cld.Path
import Hail.Library.Table

/-!
# The CLD database

The records and tables of `cldb.h` and the operations of `cldb.c`. A database call can fail for
reasons of its own; which calls of a request do is given by a `Faults` argument. A transaction is
a pure function from one database value to the next, so that aborting it is to keep the old value.
-/
namespace Hail.Cld

open Library

abbrev Sid := Nat
abbrev Inum := Nat

structure RawSession where
  sid : Sid
  addr : Bytes
  user : Bytes
  lastContact : Nat
  nextFh : Nat
  nextSeqidIn : Nat
  nextSeqidOut : Nat
  deriving DecidableEq, Repr

structure RawHandle where
  sid : Sid
  fh : Nat
  inum : Inum
  mode : Nat
  events : Nat
  deriving DecidableEq, Repr

/-- `struct raw_handle_key`. -/
def RawHandle.key (h : RawHandle) : Sid × Nat := (h.sid, h.fh)

/-- `struct raw_inode` with the name that follows it; `ino_len` is the length of the name. -/
structure RawInode where
  inum : Inum
  size : Nat
  version : Nat
  timeCreate : Nat
  timeModify : Nat
  flags : Nat
  name : Bytes
  deriving DecidableEq, Repr

structure DataRec where
  inum : Inum
  data : Bytes
  deriving DecidableEq, Repr

structure RawLock where
  inum : Inum
  sid : Sid
  fh : Nat
  ctime : Nat
  flags : Nat
  deriving DecidableEq, Repr

def clflShared : Nat := 1
def clflPending : Nat := 2

def RawLock.shared (l : RawLock) : Bool := has l.flags clflShared
def RawLock.pending (l : RawLock) : Bool := has l.flags clflPending

def cldInoRoot : Inum := 10
def cldInoReservedLast : Inum := 50

/-- The databases of `struct cldb`. The secondary indices are computed from their primaries; `locks`
gives the duplicates stored for an inode number in their order. -/
structure Cldb where
  sessions : Table RawSession.sid
  inodes : Table RawInode.inum
  data : Table DataRec.inum
  handles : Table RawHandle.key
  locks : Inum → List RawLock

/-- The nonzero return values of a database call. -/
inductive Rc where
  | notfound | keyexist | err
  deriving DecidableEq, Repr

/-- The fallible calls made on behalf of one request; `nth` tells apart the calls of one kind. -/
inductive Call where
  | txnBegin | commit
  | inodeGet | inodeGetByname (nth : Nat) | inodeNew | inodePut (nth : Nat) | inodeDel
  | dataGet | dataAppend | dataRmdir | dataPut | dataDel
  | handleGet | handleNew | handlePut | handleDel | handleIdxDel | handleCur (nth : Nat)
  | notifyCur (nth : Nat) | notifyGet (nth k : Nat)
  | lockDel | lockFind | lockPut
  | removeCur (inum : Inum) | rescanCur (inum : Inum) | rescanGet (inum : Inum) (nth : Nat)
  | rescanPut (inum : Inum) (nth : Nat)
  | sessionNew | sessionPut | sessionDel
  | allocLocks (size : Nat) | allocWaiters (size : Nat)
  deriving DecidableEq, Repr

abbrev Faults := Call → Bool

/-- Every call succeeds. -/
def Faults.none : Faults := fun _ => false

@[simp] theorem Faults.none_apply (c : Call) : Faults.none c = false := rfl

/-- A call that fails when the environment says so. -/
def Faults.guard {α : Type} (ft : Faults) (c : Call) (x : Except Rc α) : Except Rc α :=
  if ft c then .error .err else x

@[simp] theorem Faults.guard_ok {α : Type} {ft : Faults} {c : Call} {x : Except Rc α} {a : α} :
    ft.guard c x = .ok a ↔ ft c = false ∧ x = .ok a := by
  unfold Faults.guard
  cases ft c <;> simp

@[simp] theorem Faults.guard_notfound {α : Type} {ft : Faults} {c : Call} {x : Except Rc α} :
    ft.guard c x = .error .notfound ↔ ft c = false ∧ x = .error .notfound := by
  unfold Faults.guard
  cases ft c <;> simp

def found {α : Type} : Option α → Except Rc α
  | some a => .ok a
  | none => .error .notfound

@[simp] theorem found_ok {α : Type} {x : Option α} {a : α} : found x = .ok a ↔ x = some a := by
  cases x <;> simp [found]

@[simp] theorem found_notfound {α : Type} {x : Option α} :
    found x = .error .notfound ↔ x = none := by
  cases x <;> simp [found]

/-! ## Sessions -/

/-- A hash database keeps no order of its own. -/
def unordered {α : Type} (_ _ : α) : Bool := false

def cldbSessionPut (ft : Faults) (db : Cldb) (sess : RawSession) : Except Rc Cldb :=
  ft.guard .sessionPut (.ok { db with sessions := db.sessions.put unordered sess })

def cldbSessionDel (ft : Faults) (db : Cldb) (sid : Sid) : Except Rc Cldb :=
  ft.guard .sessionDel <|
    match db.sessions.get sid with
    | none => .error .notfound
    | some _ => .ok { db with sessions := db.sessions.del sid }

/-! ## Inodes and their data -/

def cldbInodeGet (ft : Faults) (db : Cldb) (inum : Inum) : Except Rc RawInode :=
  ft.guard .inodeGet (found (db.inodes.get inum))

/-- A lookup in the secondary index of inodes by name. -/
def Cldb.byname (db : Cldb) (name : Bytes) : Option RawInode :=
  db.inodes.rows.find? (fun i => i.name = name)

theorem byname_eq_some {db : Cldb} {name : Bytes} {ino : RawInode} (h : db.byname name = some ino) :
    ino ∈ db.inodes.rows ∧ ino.name = name :=
  ⟨List.mem_of_find?_eq_some h, by simpa using List.find?_some h⟩

def cldbInodeGetByname (ft : Faults) (nth : Nat) (db : Cldb) (name : Bytes) :
    Except Rc RawInode :=
  ft.guard (.inodeGetByname nth) (found (db.byname name))

def cldbInodePut (ft : Faults) (nth : Nat) (db : Cldb) (inode : RawInode) : Except Rc Cldb :=
  ft.guard (.inodePut nth) (.ok { db with inodes := db.inodes.put unordered inode })

def cldbInodeMem (now : Nat) (name : Bytes) (flags : Nat) (inum : Inum) : RawInode where
  inum := inum
  size := 0
  version := 0
  timeCreate := now
  timeModify := now
  flags := flags
  name := name

/-- The search of `cldb_inode_new` among the values of `rand`, `n` of which have been used. -/
def inumSearch (rand : Nat → Nat) (db : Cldb) : Nat → Nat → Option Inum × Nat
  | 0, n => (none, n)
  | limit + 1, n =>
    let newInum := rand n
    if newInum ≤ cldInoReservedLast then inumSearch rand db limit (n + 1)
    else if (db.inodes.get newInum).isSome then inumSearch rand db limit (n + 1)
    else (some newInum, n + 1)

def cldbInodeNew (rand : Nat → Nat) (now : Nat) (db : Cldb) (name : Bytes) (n : Nat) :
    Option RawInode × Nat :=
  let (newInum, n) := inumSearch rand db 100000 n
  (newInum.map (cldbInodeMem now name 0), n)

def cldbDataGet (ft : Faults) (db : Cldb) (inum : Inum) : Except Rc Bytes :=
  ft.guard .dataGet (found ((db.data.get inum).map DataRec.data))

def cldbDataPut (ft : Faults) (db : Cldb) (inum : Inum) (data : Bytes) : Except Rc Cldb :=
  ft.guard .dataPut (.ok { db with data := db.data.put unordered ⟨inum, data⟩ })

/-! ## Handles -/

/-- The order of the keys of the handles, a B-tree compared byte by byte. -/
def RawHandle.before (a b : RawHandle) : Bool :=
  memcmp (leBytes 8 a.sid ++ leBytes 8 a.fh) (leBytes 8 b.sid ++ leBytes 8 b.fh) < 0

def cldbHandleGet (ft : Faults) (db : Cldb) (sid : Sid) (fh : Nat) : Except Rc RawHandle :=
  ft.guard .handleGet (found (db.handles.get (sid, fh)))

def cldbHandlePut (ft : Faults) (db : Cldb) (h : RawHandle) : Except Rc Cldb :=
  ft.guard .handlePut (.ok { db with handles := db.handles.put RawHandle.before h })

def cldbHandleDel (ft : Faults) (db : Cldb) (sid : Sid) (fh : Nat) : Except Rc Cldb :=
  ft.guard .handleDel <|
    match db.handles.get (sid, fh) with
    | none => .error .notfound
    | some _ => .ok { db with handles := db.handles.del (sid, fh) }

/-! ## Locks -/

/-- The differences are taken in 64 bits and returned in an `int`. -/
def lockCompare (a b : RawLock) : Int :=
  let inums := ((a.inum : Int) - b.inum).bmod (2 ^ 64)
  let ctimes := ((a.ctime : Int) - b.ctime).bmod (2 ^ 64)
  let sids := memcmp (leBytes 8 a.sid) (leBytes 8 b.sid)
  if inums ≠ 0 then inums.bmod (2 ^ 32)
  else if ctimes ≠ 0 then ctimes.bmod (2 ^ 32)
  else if sids ≠ 0 then sids
  else ((a.fh : Int) - b.fh).bmod (2 ^ 32)

/-- Insertion among sorted duplicates. An item that compares equal to a stored one is refused. -/
def dupPut (lock : RawLock) : List RawLock → Except Rc (List RawLock)
  | [] => .ok [lock]
  | l :: ls =>
    if lockCompare lock l = 0 then .error .keyexist
    else if lockCompare lock l < 0 then .ok (lock :: l :: ls)
    else (dupPut lock ls).map (l :: ·)

def Cldb.setLocks (db : Cldb) (inum : Inum) (ls : List RawLock) : Cldb :=
  { db with locks := Function.update db.locks inum ls }

/-- The scan of `cldb_lock_del`: the first record of the handle is deleted. -/
def lockDelScan (sid : Sid) (fh : Nat) : List RawLock → Option (List RawLock)
  | [] => none
  | l :: ls =>
    if l.sid = sid ∧ fh = l.fh then some ls else (lockDelScan sid fh ls).map (l :: ·)

def cldbLockDel (ft : Faults) (db : Cldb) (sid : Sid) (fh : Nat) (inum : Inum) :
    Except Rc Cldb :=
  ft.guard .lockDel ((found (lockDelScan sid fh (db.locks inum))).map (db.setLocks inum))

/-- The scan of `cldb_lock_find` for a conflicting acquired lock. -/
def lockFindScan (wantShared : Bool) : List RawLock → Except Rc RawLock
  | [] => .error .notfound
  | l :: ls =>
    if l.pending then lockFindScan wantShared ls
    else if !wantShared || (wantShared && !l.shared) then .ok l
    else lockFindScan wantShared ls

def cldbLockFind (ft : Faults) (db : Cldb) (inum : Inum) (wantShared : Bool) :
    Except Rc RawLock :=
  ft.guard .lockFind (lockFindScan wantShared (db.locks inum))

/-- The flags of a new lock record. -/
def lockFlags (shared pending : Bool) : Nat :=
  (if shared then clflShared else 0) ||| (if pending then clflPending else 0)

/-- The new database and whether the lock was acquired. -/
def cldbLockAdd (ft : Faults) (now : Nat) (db : Cldb) (sid : Sid) (fh : Nat) (inum : Inum)
    (shared wait : Bool) : Except Rc (Cldb × Bool) :=
  let add (haveConflict : Bool) : Except Rc (Cldb × Bool) :=
    if !wait && haveConflict then .error .keyexist
    else
      let lock : RawLock :=
        { inum, sid, fh, ctime := now, flags := lockFlags shared (wait && haveConflict) }
      (ft.guard .lockPut (dupPut lock (db.locks inum))).map fun ls =>
        (db.setLocks inum ls, !haveConflict)
  match cldbLockFind ft db inum shared with
  | .ok _ => add true
  | .error .notfound => add false
  | .error rc => .error rc

@[simp] theorem lockFlags_shared (shared pending : Bool) :
    has (lockFlags shared pending) clflShared = shared := by
  cases shared <;> cases pending <;> rfl

@[simp] theorem lockFlags_pending (shared pending : Bool) :
    has (lockFlags shared pending) clflPending = pending := by
  cases shared <;> cases pending <;> rfl

/-- Two lock records of one inode cannot both be held. -/
def RawLock.conflicts (a b : RawLock) : Bool := !(a.shared && b.shared)

theorem dupPut_perm {lock : RawLock} {ls out : List RawLock} (h : dupPut lock ls = .ok out) :
    out.Perm (lock :: ls) := by
  induction ls generalizing out with
  | nil => cases h; exact .refl _
  | cons l ls ih =>
    unfold dupPut at h
    split at h
    · cases h
    · split at h
      · cases h; exact .refl _
      · cases hd : dupPut lock ls with
        | error rc => simp [hd, Except.map] at h
        | ok out' =>
          simp only [hd, Except.map, Except.ok.injEq] at h
          subst h
          exact ((ih hd).cons l).trans (.swap lock l ls)

theorem lockDelScan_split {sid : Sid} {fh : Nat} {ls out : List RawLock}
    (h : lockDelScan sid fh ls = some out) :
    ∃ pre l post, ls = pre ++ l :: post ∧ out = pre ++ post ∧ l.sid = sid ∧ l.fh = fh ∧
      ∀ x ∈ pre, ¬ (x.sid = sid ∧ x.fh = fh) := by
  induction ls generalizing out with
  | nil => cases h
  | cons l ls ih =>
    unfold lockDelScan at h
    split at h
    · next hm =>
      cases h
      exact ⟨[], l, ls, rfl, rfl, hm.1, hm.2.symm, by simp⟩
    · next hm =>
      obtain ⟨out', hs, rfl⟩ := Option.map_eq_some_iff.mp h
      obtain ⟨pre, x, post, rfl, rfl, hsid, hfh, hpre⟩ := ih hs
      refine ⟨l :: pre, x, post, rfl, rfl, hsid, hfh, ?_⟩
      intro y hy
      rcases List.mem_cons.mp hy with rfl | hy
      · exact fun hl => hm ⟨hl.1, hl.2.symm⟩
      · exact hpre y hy

theorem lockFindScan_ok {wantShared : Bool} {ls : List RawLock} {l : RawLock}
    (h : lockFindScan wantShared ls = .ok l) :
    l ∈ ls ∧ l.pending = false ∧ (wantShared && l.shared) = false := by
  induction ls with
  | nil => cases h
  | cons x ls ih =>
    unfold lockFindScan at h
    split at h
    · exact (ih h).imp (List.mem_cons_of_mem x) id
    · next hp =>
      split at h
      · next hc =>
        cases h
        refine ⟨by simp, by simpa using hp, ?_⟩
        cases wantShared <;> simp_all
      · exact (ih h).imp (List.mem_cons_of_mem x) id

theorem lockFindScan_error {wantShared : Bool} {ls : List RawLock} {rc : Rc}
    (h : lockFindScan wantShared ls = .error rc) :
    rc = .notfound ∧ ∀ l ∈ ls, l.pending = false → (wantShared && l.shared) = true := by
  induction ls with
  | nil => cases h; simp
  | cons x ls ih =>
    unfold lockFindScan at h
    split at h
    · next hp =>
      refine ⟨(ih h).1, ?_⟩
      intro l hl hn
      rcases List.mem_cons.mp hl with rfl | hl
      · simp [hp] at hn
      · exact (ih h).2 l hl hn
    · next hp =>
      split at h
      · cases h
      · next hc =>
        refine ⟨(ih h).1, ?_⟩
        intro l hl hn
        rcases List.mem_cons.mp hl with rfl | hl
        · cases wantShared <;> simp_all
        · exact (ih h).2 l hl hn

/-- What adding a lock does: the new record goes among those of its inode, pending exactly when it
meets a conflicting acquired one. -/
theorem cldbLockAdd_ok {ft : Faults} {now : Nat} {db db' : Cldb} {sid : Sid} {fh : Nat}
    {inum : Inum} {shared wait acquired : Bool}
    (h : cldbLockAdd ft now db sid fh inum shared wait = .ok (db', acquired)) :
    ∃ lock ls, lock.inum = inum ∧ lock.sid = sid ∧ lock.fh = fh ∧ lock.shared = shared ∧
      lock.pending = !acquired ∧ ls.Perm (lock :: db.locks inum) ∧ db' = db.setLocks inum ls ∧
      if acquired then ∀ l ∈ db.locks inum, l.pending = false → lock.conflicts l = false
      else ∃ l ∈ db.locks inum, l.pending = false ∧ lock.conflicts l = true := by
  have key : ∀ haveConflict,
      (if (!wait && haveConflict) = true then (.error .keyexist : Except Rc (Cldb × Bool))
        else (ft.guard .lockPut (dupPut ⟨inum, sid, fh, now,
          lockFlags shared (wait && haveConflict)⟩ (db.locks inum))).map fun ls =>
            (db.setLocks inum ls, !haveConflict)) = .ok (db', acquired) →
      acquired = !haveConflict ∧ ∃ lock ls, lock.inum = inum ∧ lock.sid = sid ∧ lock.fh = fh ∧
        lock.shared = shared ∧ lock.pending = !acquired ∧
        ls.Perm (lock :: db.locks inum) ∧ db' = db.setLocks inum ls := by
    intro haveConflict hk
    split at hk
    · cases hk
    · next hw =>
      cases hp : ft.guard .lockPut (dupPut ⟨inum, sid, fh, now,
          lockFlags shared (wait && haveConflict)⟩ (db.locks inum)) with
      | error rc => simp [hp, Except.map] at hk
      | ok ls =>
        simp only [hp, Except.map, Except.ok.injEq, Prod.mk.injEq] at hk
        obtain ⟨rfl, rfl⟩ := hk
        refine ⟨rfl, ⟨inum, sid, fh, now, lockFlags shared (wait && haveConflict)⟩, ls, rfl, rfl,
          rfl, lockFlags_shared .., ?_, dupPut_perm (Faults.guard_ok.mp hp).2, rfl⟩
        rw [RawLock.pending, lockFlags_pending]
        cases wait <;> cases haveConflict <;> simp_all
  unfold cldbLockAdd at h
  split at h
  · next l hf =>
    obtain ⟨ha, lock, ls, hi, hs, hh, hsh, hp, hperm, hdb⟩ := key true h
    obtain ⟨hmem, hacq, hc⟩ := lockFindScan_ok (Faults.guard_ok.mp hf).2
    refine ⟨lock, ls, hi, hs, hh, hsh, hp, hperm, hdb, ?_⟩
    rw [if_neg (by simp [ha])]
    exact ⟨l, hmem, hacq, by simp [RawLock.conflicts, hsh, hc]⟩
  · next hf =>
    obtain ⟨ha, lock, ls, hi, hs, hh, hsh, hp, hperm, hdb⟩ := key false h
    refine ⟨lock, ls, hi, hs, hh, hsh, hp, hperm, hdb, ?_⟩
    rw [if_pos (by simp [ha])]
    intro l hl hn
    have hscan : lockFindScan shared (db.locks inum) = .error .notfound := by
      unfold cldbLockFind Faults.guard at hf
      split at hf
      · cases hf
      · exact hf
    simp [RawLock.conflicts, hsh, (lockFindScan_error hscan).2 l hl hn]
  · cases h

end Hail.Cld
