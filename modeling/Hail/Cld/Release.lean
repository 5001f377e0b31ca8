import Hail.Cld.Session

/-!
# What the release of locks does

Removing the locks of a handle or of a session filters the records of the inodes concerned; the
rescan that follows never changes the database, and does nothing at all unless the first record
left is a pending one (`promotes`).
-/
namespace Hail.Cld

open Library

/-- The records of an inode that stay when those of a handle (or session) are removed. -/
def keptLocks (sid : Sid) (fh : Nat) (ls : List RawLock) : List RawLock :=
  ls.filter fun l => !lmatch l sid fh

theorem removeLocksScan_eq (sid : Sid) (fh : Nat) (ls : List RawLock) :
    removeLocksScan sid fh ls = (keptLocks sid fh ls, (keptLocks sid fh ls).any RawLock.pending) := by
  induction ls with
  | nil => rfl
  | cons l ls ih =>
    simp only [removeLocksScan, ih, keptLocks, List.filter_cons]
    split <;> rfl

theorem sessionRemoveLocks_ok {ft : Faults} {sid : Sid} {fh : Nat} {inum : Inum} {db db' : Cldb}
    {waiter : Bool} (h : sessionRemoveLocks ft sid fh inum db = .ok (waiter, db')) :
    db' = db.setLocks inum (keptLocks sid fh (db.locks inum)) ∧
      waiter = (keptLocks sid fh (db.locks inum)).any RawLock.pending := by
  simp only [sessionRemoveLocks, removeLocksScan_eq, Faults.guard_ok, Except.ok.injEq,
    Prod.mk.injEq] at h
  exact ⟨h.2.2.symm, h.2.1.symm⟩

theorem lmatch_zero (l : RawLock) (sid : Sid) : lmatch l sid 0 = true ↔ l.sid = sid := by
  simp [lmatch]

theorem lmatch_iff {fh : Nat} (hfh : fh ≠ 0) (l : RawLock) (sid : Sid) :
    lmatch l sid fh = true ↔ l.sid = sid ∧ l.fh = fh := by
  simp only [lmatch, hfh, ne_eq, not_false_eq_true, true_and]
  split <;> simp_all

theorem mem_keptLocks {sid : Sid} {fh : Nat} {ls : List RawLock} {l : RawLock} :
    l ∈ keptLocks sid fh ls ↔ l ∈ ls ∧ lmatch l sid fh = false := by
  simp [keptLocks]

/-! ## The rescan -/

/-- A rescan of these records acquires a lock. -/
def promotes (ls : List RawLock) : Bool := ls.head?.any RawLock.pending

/-- The messages of a rescan. -/
def IsLocked (m : Sent) : Prop := ∃ sid fh, m = ⟨sid, .event, .event fh ceLocked⟩

theorem rescanLoop_keeps (e : Env) (ft : Faults) (inum : Inum) (nth acq : Nat)
    (ls : List RawLock) : Txn.Keeps (SendFrame IsLocked) (rescanLoop e ft inum nth acq ls) := by
  have hfail : ∀ c, Txn.Keeps (SendFrame IsLocked) (Txn.failIf c Rc.err) := by
    intro c s
    rw [Txn.failIf_end]
    exact .refl _ s
  have hpure : Txn.Keeps (SendFrame IsLocked) (pure ⟨⟩ : Txn Server Rc PUnit) := fun s => .refl _ s
  induction ls generalizing nth acq with
  | nil => exact hfail _
  | cons lock ls ih =>
    unfold rescanLoop
    refine .bind .trans (hfail _) fun _ => ?_
    split
    · exact hpure
    · split
      · exact hpure
      · refine .bind .trans (hfail _) fun _ => .bind .trans (fun s => .refl _ s) fun sess => ?_
        split
        · exact hpure
        · split
          · exact ih _ _
          · refine .bind .trans (fun s => ?_) fun sent => ?_
            · exact (sessSendmsg_frame ..).mono fun m hm => ⟨_, _, hm⟩
            · split
              · exact ih _ _
              · exact hpure

theorem inodeLockRescan_keeps (e : Env) (ft : Faults) (inum : Inum) :
    Txn.Keeps (SendFrame IsLocked) (inodeLockRescan e ft inum) := by
  refine .bind .trans (fun s => ?_) fun _ => .bind .trans (fun s => .refl _ s) fun locks =>
    rescanLoop_keeps e ft inum 0 0 locks
  rw [Txn.failIf_end]
  exact .refl _ s

/-- Without a pending record in front the rescan does nothing. -/
theorem rescanLoop_idle (e : Env) (ft : Faults) (inum : Inum) (nth acq : Nat) {ls : List RawLock}
    (h : promotes ls = false) (s : Server) : (rescanLoop e ft inum nth acq ls s).2 = s := by
  cases ls with
  | nil => exact Txn.failIf_end _ _ s
  | cons l ls =>
    have hp : l.pending = false := by simpa [promotes] using h
    unfold rescanLoop
    apply Txn.bind_end (C := (· = s))
    · intro code u hu
      exact Txn.eq_of_end (Txn.failIf_end _ _ s) hu
    · intro a u hu
      simp [hp, (Txn.failIf_ok.mp hu).2]
      rfl

theorem inodeLockRescan_idle (e : Env) (ft : Faults) {inum : Inum} {s : Server}
    (h : promotes (s.db.locks inum) = false) : (inodeLockRescan e ft inum s).2 = s := by
  unfold inodeLockRescan
  apply Txn.bind_end (C := (· = s))
  · intro code u hu
    exact Txn.eq_of_end (Txn.failIf_end _ _ s) hu
  · intro a u hu
    obtain rfl := (Txn.failIf_ok.mp hu).2
    exact rescanLoop_idle e ft inum 0 0 h s

theorem rescanAll_keeps (e : Env) (ft : Faults) (inums : List Inum) :
    Txn.Keeps (SendFrame IsLocked) (rescanAll e ft inums) := by
  induction inums with
  | nil => exact fun s => .refl _ s
  | cons inum inums ih => exact .bind .trans (inodeLockRescan_keeps e ft inum) fun _ => ih

theorem rescanAll_idle (e : Env) (ft : Faults) {inums : List Inum} {s : Server}
    (h : ∀ i ∈ inums, promotes (s.db.locks i) = false) : (rescanAll e ft inums s).2 = s := by
  induction inums with
  | nil => rfl
  | cons inum inums ih =>
    have hidle := inodeLockRescan_idle e ft (h inum (by simp))
    unfold rescanAll
    apply Txn.bind_end (C := (· = s))
    · intro code u hu
      exact Txn.eq_of_end hidle hu
    · intro a u hu
      obtain rfl := Txn.eq_of_end hidle hu
      exact ih fun i hi => h i (List.mem_cons_of_mem inum hi)

/-! ## The end of a session -/

/-- The inodes whose locks a session may hold: those it has handles on that were opened for
locking. -/
def Cldb.lockInums (db : Cldb) (sid : Sid) : List Inum :=
  ((db.handlesOf sid).filter fun h => has h.mode comLock).map RawHandle.inum

/-- What the first loop of `session_remove` comes to: all of `hs` deleted and the inodes of those
opened for locking collected behind `locks`, or an array that could not be enlarged. -/
structure HandlesRemoved (ft : Faults) (locks : List Inum) (hs : List RawHandle)
    (r : Option (List Inum)) (db db' : Cldb) : Prop where
  rest : db' = { db with handles := db'.handles }
  sub : ∀ x ∈ db'.handles.rows, x ∈ db.handles.rows
  keep : ∀ x ∈ db.handles.rows, x.key ∉ hs.map RawHandle.key → x ∈ db'.handles.rows
  short : r = none → ∃ n, 128 < n ∧ ft (.allocLocks n) = true
  inums : ∀ out, r = some out →
    out = locks ++ (hs.filter fun h => has h.mode comLock).map RawHandle.inum
  gone : ∀ out, r = some out → ∀ x ∈ db'.handles.rows, x.key ∉ hs.map RawHandle.key

/-- One round: the first handle goes, and its inode is collected if it was opened for locking. -/
theorem HandlesRemoved.cons {ft : Faults} {locks : List Inum} {h : RawHandle}
    {hs : List RawHandle} {r : Option (List Inum)} {db db' : Cldb}
    (hr : HandlesRemoved ft (locks ++ if has h.mode comLock then [h.inum] else []) hs r
      { db with handles := db.handles.del h.key } db') :
    HandlesRemoved ft locks (h :: hs) r db db' where
  rest := hr.rest
  sub x hx := (Table.mem_del.mp (hr.sub x hx)).1
  keep x hx hk := by
    simp only [List.map_cons, List.mem_cons, not_or] at hk
    exact hr.keep x (Table.mem_del.mpr ⟨hx, hk.1⟩) hk.2
  short := hr.short
  inums out ho := by
    rw [hr.inums out ho, List.filter_cons]
    split <;> simp
  gone out ho x hx := by
    simp only [List.map_cons, List.mem_cons, not_or]
    exact ⟨(Table.mem_del.mp (hr.sub x hx)).2, hr.gone out ho x hx⟩

theorem removeHandles_ok {ft : Faults} {nth alloc : Nat} {locks : List Inum}
    {hs : List RawHandle} {db db' : Cldb} {r : Option (List Inum)} (ha : 128 ≤ alloc)
    (h : removeHandles ft nth alloc locks hs db = .ok (r, db')) :
    HandlesRemoved ft locks hs r db db' := by
  induction hs generalizing nth alloc locks db with
  | nil =>
    simp only [removeHandles, Faults.guard_ok, Except.ok.injEq, Prod.mk.injEq] at h
    obtain ⟨-, rfl, rfl⟩ := h
    exact ⟨rfl, fun _ hx => hx, fun _ hx _ => hx, by simp, by simp, by simp⟩
  | cons x xs ih =>
    unfold removeHandles at h
    dsimp only at h
    split at h
    · cases h
    · split at h
      · next hm =>
        split at h
        · split at h
          · next hft =>
            cases h
            exact ⟨rfl, fun _ hx => hx, fun _ hx _ => hx, fun _ => ⟨alloc * 2, by omega, hft⟩,
              by simp, by simp⟩
          · exact .cons (by rw [if_pos hm]; exact ih (by omega) h)
        · exact .cons (by rw [if_pos hm]; exact ih ha h)
      · next hm => exact .cons (by rw [if_neg hm, List.append_nil]; exact ih ha h)

theorem keptLocks_idem (sid : Sid) (fh : Nat) (ls : List RawLock) :
    keptLocks sid fh (keptLocks sid fh ls) = keptLocks sid fh ls := by
  simp [keptLocks]

/-- What the second loop comes to: the records of the session are gone from all of `inums`, or from
those seen before an array could not be enlarged. -/
structure LocksRemoved (ft : Faults) (sid : Sid) (waiters inums : List Inum)
    (r : Option (List Inum)) (db db' : Cldb) : Prop where
  rest : db' = { db with locks := db'.locks }
  locks : ∀ i, db'.locks i = db.locks i ∨ i ∈ inums ∧ db'.locks i = keptLocks sid 0 (db.locks i)
  short : r = none → ∃ n, 64 < n ∧ ft (.allocWaiters n) = true
  all : ∀ out, r = some out → ∀ i ∈ inums, db'.locks i = keptLocks sid 0 (db.locks i)
  waiters : ∀ out, r = some out → ∀ i ∈ out, i ∈ waiters ∨ i ∈ inums

theorem setLocks_self (db : Cldb) (inum : Inum) (ls : List RawLock) :
    (db.setLocks inum ls).locks inum = ls := by simp [Cldb.setLocks]

theorem setLocks_of_ne (db : Cldb) {inum i : Inum} (ls : List RawLock) (h : i ≠ inum) :
    (db.setLocks inum ls).locks i = db.locks i := by simp [Cldb.setLocks, h]

theorem LocksRemoved.cons {ft : Faults} {sid : Sid} {inum : Inum} {waiters waiters' inums : List Inum}
    {r : Option (List Inum)} {db db' : Cldb} (hw : ∀ i ∈ waiters', i ∈ waiters ∨ i = inum)
    (hr : LocksRemoved ft sid waiters' inums r
      (db.setLocks inum (keptLocks sid 0 (db.locks inum))) db') :
    LocksRemoved ft sid waiters (inum :: inums) r db db' := by
  have hinum : db'.locks inum = keptLocks sid 0 (db.locks inum) := by
    rcases hr.locks inum with hl | ⟨-, hl⟩
    · rw [hl, setLocks_self]
    · rw [hl, setLocks_self, keptLocks_idem]
  refine ⟨hr.rest, fun i => ?_, hr.short, fun out ho i hi => ?_, fun out ho i hi => ?_⟩
  · by_cases hi : i = inum
    · exact .inr ⟨by simp [hi], hi ▸ hinum⟩
    · have h := hr.locks i
      rw [setLocks_of_ne db _ hi] at h
      exact h.imp id fun hl => ⟨List.mem_cons_of_mem inum hl.1, hl.2⟩
  · by_cases hn : i = inum
    · exact hn ▸ hinum
    · have h := hr.all out ho i ((List.mem_cons.mp hi).resolve_left hn)
      rwa [setLocks_of_ne db _ hn] at h
  · rcases hr.waiters out ho i hi with hi | hi
    · exact (hw i hi).imp id fun he => by simp [he]
    · exact .inr (List.mem_cons_of_mem inum hi)

theorem removeLocks_ok {ft : Faults} {sid : Sid} {alloc : Nat} {waiters inums : List Inum}
    {db db' : Cldb} {r : Option (List Inum)} (ha : 64 ≤ alloc)
    (h : removeLocks ft sid alloc waiters inums db = .ok (r, db')) :
    LocksRemoved ft sid waiters inums r db db' := by
  induction inums generalizing alloc waiters db with
  | nil =>
    simp only [removeLocks, Except.ok.injEq, Prod.mk.injEq] at h
    obtain ⟨rfl, rfl⟩ := h
    exact ⟨rfl, fun i => .inl rfl, by simp, by simp, by simp⟩
  | cons inum inums ih =>
    have hw : ∀ i ∈ waiters ++ [inum], i ∈ waiters ∨ i = inum := by simp
    unfold removeLocks at h
    split at h
    · cases h
    · next hrem =>
      obtain ⟨rfl, -⟩ := sessionRemoveLocks_ok hrem
      exact .cons (fun i hi => .inl hi) (ih ha h)
    · next hrem =>
      obtain ⟨rfl, -⟩ := sessionRemoveLocks_ok hrem
      dsimp only at h
      split at h
      · split at h
        · next hft =>
          cases h
          refine ⟨rfl, fun i => ?_, fun _ => ⟨alloc * 2, by omega, hft⟩, by simp, by simp⟩
          by_cases hi : i = inum
          · exact .inr ⟨by simp [hi], by rw [hi, setLocks_self]⟩
          · exact .inl (setLocks_of_ne db _ hi)
        · exact .cons hw (ih (by omega) h)
      · exact .cons hw (ih ha h)

theorem mem_handlesOf {db : Cldb} {sid : Sid} {h : RawHandle} :
    h ∈ db.handlesOf sid ↔ h ∈ db.handles.rows ∧ h.sid = sid := by
  simp [Cldb.handlesOf]

theorem key_mem_handlesOf {db : Cldb} {sid : Sid} {h : RawHandle} (hm : h ∈ db.handles.rows) :
    h.key ∈ (db.handlesOf sid).map RawHandle.key ↔ h.sid = sid := by
  rw [List.mem_map]
  constructor
  · rintro ⟨x, hx, hk⟩
    have hs := congrArg Prod.fst hk
    exact hs.symm.trans (mem_handlesOf.mp hx).2
  · exact fun hs => ⟨h, mem_handlesOf.mpr ⟨hm, hs⟩, rfl⟩

theorem mem_lockInums {db : Cldb} {sid : Sid} {i : Inum} :
    i ∈ db.lockInums sid ↔
      ∃ h ∈ db.handles.rows, h.sid = sid ∧ has h.mode comLock = true ∧ h.inum = i := by
  simp [Cldb.lockInums, mem_handlesOf, and_assoc]

/-- The arrays of `session_remove` can be enlarged. -/
def Faults.CanGrow (ft : Faults) : Prop :=
  (∀ n, 128 < n → ft (.allocLocks n) = false) ∧ ∀ n, 64 < n → ft (.allocWaiters n) = false

/-- What is left of `a` when a session has been removed, to the end if the arrays can grow. -/
structure Pruned (ft : Faults) (sid : Sid) (a b : Cldb) : Prop where
  inodes : b.inodes = a.inodes
  data : b.data = a.data
  sub : ∀ h ∈ b.handles.rows, h ∈ a.handles.rows
  keep : ∀ h ∈ a.handles.rows, h.sid ≠ sid → h ∈ b.handles.rows
  locks : ∀ i, b.locks i = a.locks i ∨
    i ∈ a.lockInums sid ∧ b.locks i = keptLocks sid 0 (a.locks i)
  sessions : b.sessions = a.sessions ∨
    b.sessions = a.sessions.del sid ∧ ∀ h ∈ b.handles.rows, h.sid ≠ sid
  gone : ft.CanGrow → ∀ h ∈ b.handles.rows, h.sid ≠ sid
  unlocked : ft.CanGrow → ∀ i ∈ a.lockInums sid, b.locks i = keptLocks sid 0 (a.locks i)
  deleted : ft.CanGrow → b.sessions = a.sessions.del sid

theorem Pruned.of_loops {ft : Faults} {sid : Sid} {a b c d : Cldb} {r w : Option (List Inum)}
    {inums : List Inum} (hh : HandlesRemoved ft [] (a.handlesOf sid) r a b)
    (hl : LocksRemoved ft sid [] inums w b c) (hi : ∀ i ∈ inums, i ∈ a.lockInums sid)
    (hd : d = { c with sessions := d.sessions })
    (hs : d.sessions = c.sessions ∨ d.sessions = c.sessions.del sid ∧ r = some inums)
    (hfull : ft.CanGrow → r = some inums ∧ (∃ out, w = some out) ∧
      d.sessions = c.sessions.del sid) : Pruned ft sid a d := by
  have hsess : c.sessions = a.sessions := by rw [hl.rest, hh.rest]
  have hhandles : d.handles = b.handles := by rw [hd, hl.rest]
  have hlocks : d.locks = c.locks := by rw [hd]
  have hb : ∀ i, b.locks i = a.locks i := by rw [hh.rest]; exact fun i => rfl
  have hgone : r = some inums → ∀ x ∈ d.handles.rows, x.sid ≠ sid := by
    intro hr x hx hsid
    rw [hhandles] at hx
    exact hh.gone inums hr x hx ((key_mem_handlesOf (hh.sub x hx)).mpr hsid)
  rw [hsess] at hs hfull
  constructor
  case inodes => rw [hd, hl.rest, hh.rest]
  case data => rw [hd, hl.rest, hh.rest]
  case sub => rw [hhandles]; exact hh.sub
  case keep =>
    intro x hx hne
    rw [hhandles]
    exact hh.keep x hx fun hk => hne ((key_mem_handlesOf hx).mp hk)
  case locks =>
    intro i
    rw [hlocks, ← hb i]
    exact (hl.locks i).imp id fun h => ⟨hi i h.1, h.2⟩
  case sessions => exact hs.imp id fun h => ⟨h.1, hgone h.2⟩
  case gone => exact fun hg => hgone (hfull hg).1
  case unlocked =>
    intro hg i hi
    obtain ⟨hr, ⟨out, hw⟩, -⟩ := hfull hg
    have hin : i ∈ inums := by
      rw [hh.inums inums hr]
      exact hi
    rw [hlocks, ← hb i]
    exact hl.all out hw i hin
  case deleted => exact fun hg => (hfull hg).2.2

/-- The last steps of `session_remove`. -/
theorem rescanDel_ok {e : Env} {ft : Faults} {sid : Sid} {waiters : List Inum} {s t : Server}
    {u : PUnit} {db : Cldb} (hv : rescanAll e ft waiters s = (.ok u, t))
    (hd : cldbSessionDel ft t.db sid = .ok db) :
    db = { s.db with sessions := s.db.sessions.del sid } := by
  have hdb : t.db = s.db := by
    have hk := (rescanAll_keeps e ft waiters s).db
    rwa [hv] at hk
  simp only [cldbSessionDel, hdb, Faults.guard_ok] at hd
  obtain ⟨-, hd⟩ := hd
  split at hd
  · cases hd
  · cases hd
    rfl

theorem sessionRemove_ok {e : Env} {ft : Faults} {sid : Sid} {s t : Server} {u : PUnit}
    (h : sessionRemove e ft sid s = (.ok u, t)) : Pruned ft sid s.db t.db := by
  simp only [sessionRemove, Txn.bind_ok, Txn.failIf_ok, dbRun_ok] at h
  obtain ⟨-, _, ⟨-, rfl⟩, -, _, ⟨-, rfl⟩, r, _, ⟨b, hb, rfl⟩, h⟩ := h
  have hh := removeHandles_ok le_rfl hb
  cases r with
  | none =>
    obtain ⟨-, rfl⟩ := Txn.pure_ok.mp h
    obtain ⟨n, hn, hft⟩ := hh.short rfl
    have hl : LocksRemoved ft sid [] [] (some []) b b :=
      ⟨rfl, fun i => .inl rfl, by simp, by simp, by simp⟩
    exact .of_loops hh hl (by simp) rfl (.inl rfl) fun hg => by simp [hg.1 n hn] at hft
  | some inums =>
    simp only [Txn.bind_ok, dbRun_ok] at h
    obtain ⟨w, _, ⟨c, hc, rfl⟩, h⟩ := h
    have hl := removeLocks_ok le_rfl hc
    have hi : ∀ i ∈ inums, i ∈ s.db.lockInums sid := by
      rw [hh.inums inums rfl]
      exact fun i hi => hi
    cases w with
    | none =>
      obtain ⟨-, rfl⟩ := Txn.pure_ok.mp h
      obtain ⟨n, hn, hft⟩ := hl.short rfl
      exact .of_loops hh hl hi rfl (.inl rfl) fun hg => by simp [hg.2 n hn] at hft
    | some waiters =>
      simp only [Txn.bind_ok, dbPut_ok] at h
      obtain ⟨_, v, hv, d, hd, rfl⟩ := h
      obtain rfl := rescanDel_ok hv hd
      exact .of_loops hh hl hi rfl (.inr ⟨rfl, rfl⟩) fun _ => ⟨rfl, ⟨waiters, rfl⟩, rfl⟩

theorem failIf_keeps {ε : Type} (P : Sent → Prop) (c : Bool) (code : ε) :
    Txn.Keeps (Frame P) (Txn.failIf c code) := by
  intro s
  rw [Txn.failIf_end]
  exact .refl P s

theorem sessionRemove_keeps (e : Env) (ft : Faults) (sid : Sid) :
    Txn.Keeps (Frame IsLocked) (sessionRemove e ft sid) := by
  refine .bind .trans (failIf_keeps _ _ _) fun _ => .bind .trans (failIf_keeps _ _ _) fun _ =>
    .bind .trans (dbRun_keeps _ _) fun r => ?_
  cases r with
  | none => exact fun s => .refl _ s
  | some inums =>
    refine .bind .trans (dbRun_keeps _ _) fun w => ?_
    cases w with
    | none => exact fun s => .refl _ s
    | some waiters =>
      exact .bind .trans (fun s => (rescanAll_keeps e ft waiters s).toFrame) fun _ => dbPut_keeps _ _

/-- A frame in which nothing is sent. -/
abbrev Silent : Server → Server → Prop := Frame fun _ => False

/-- A session whose end lets no waiter through ends without a message. -/
theorem sessionRemove_silent (e : Env) (ft : Faults) {sid : Sid} {s : Server}
    (hw : ∀ i ∈ s.db.lockInums sid, promotes (keptLocks sid 0 (s.db.locks i)) = false) :
    Silent s (sessionRemove e ft sid s).2 := by
  have hfail : ∀ (c : Bool) code u, Txn.failIf c Rc.err s = (.error code, u) → Silent s u := by
    intro c code u hu
    rw [Txn.eq_of_end (Txn.failIf_end c Rc.err s) hu]
    exact .refl _ s
  refine Txn.bind_end (hfail _) fun _ _ h1 => ?_
  obtain ⟨-, rfl⟩ := Txn.failIf_ok.mp h1
  refine Txn.bind_end (hfail _) fun _ _ h2 => ?_
  obtain ⟨-, rfl⟩ := Txn.failIf_ok.mp h2
  refine Txn.bind_end (fun _ u hu => ?_) fun r _ h3 => ?_
  · have h := dbRun_keeps (fun _ => False)
      (fun db => removeHandles ft 0 128 [] (db.handlesOf sid) db) s
    rwa [hu] at h
  obtain ⟨b, hb, rfl⟩ := dbRun_ok.mp h3
  have hh := removeHandles_ok le_rfl hb
  have hsb : Silent s (s.setDb b) := (Frame.refl _ s).setDb b
  cases r with
  | none => exact hsb
  | some inums =>
    refine Txn.bind_end (fun _ u hu => ?_) fun w _ h4 => ?_
    · have h := dbRun_keeps (fun _ => False) (removeLocks ft sid 64 [] inums) (s.setDb b)
      rw [hu] at h
      exact hsb.trans h
    obtain ⟨c, hc, rfl⟩ := dbRun_ok.mp h4
    have hl := removeLocks_ok le_rfl hc
    have hsc : Silent s (s.setDb c) := (Frame.refl _ s).setDb c
    cases w with
    | none => exact hsc
    | some waiters =>
      have hidle : (rescanAll e ft waiters (s.setDb c)).2 = (s.setDb c) := by
        apply rescanAll_idle
        intro i hi
        have hin : i ∈ inums := by simpa using hl.waiters waiters rfl i hi
        have hbl : b.locks i = s.db.locks i := by rw [hh.rest]
        have hlock : i ∈ s.db.lockInums sid := by
          rw [hh.inums inums rfl] at hin
          exact hin
        change promotes (c.locks i) = false
        rw [hl.all waiters rfl i hin, Server.setDb_db, hbl]
        exact hw i hlock
      refine Txn.bind_end (fun _ u hu => ?_) fun _ u hu => ?_
      · rwa [Txn.eq_of_end hidle hu]
      · rw [Txn.eq_of_end hidle hu]
        exact hsc.trans (dbPut_keeps _ _ _)

end Hail.Cld
