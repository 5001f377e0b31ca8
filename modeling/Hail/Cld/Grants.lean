import Hail.Cld.Told
import Hail.Cld.Locks
import Hail.Cld.RefInt

/-!
# Locks as their owners know them

A `World` is a server together with the locks its clients have been told about. A grant begins with
a `CLE_OK` reply or a `CE_LOCKED` event and ends when its owner unlocks or closes the handle or
when the session ends. Grants agree with the records of the server until a waiter is woken: the
rescan announces the lock and leaves its record pending.
-/
namespace Hail.Cld

open Library

structure Grant where
  sid : Sid
  fh : Nat
  inum : Inum
  shared : Bool
  deriving DecidableEq, Repr

structure View where
  granted : List Grant
  waiting : List Grant
  deriving DecidableEq, Repr

def View.drop (v : View) (p : Grant → Bool) : View :=
  ⟨v.granted.filter fun g => !p g, v.waiting.filter fun g => !p g⟩

/-- The owner of the handle is told that it has the lock it waits for. -/
def View.promote (v : View) (sid : Sid) (fh : Nat) : View :=
  let mine (g : Grant) : Bool := g.sid = sid && g.fh = fh
  ⟨v.granted ++ v.waiting.filter mine, v.waiting.filter fun g => !mine g⟩

/-- The owner is told the outcome of its request. The handle it named is one of `db`, the database
as the request found it. -/
def View.answer (v : View) (db : Cldb) (sid : Sid) (req : Request) (code : CleErrCodes) : View :=
  match req, code with
  | .lock n flags, .ok =>
    { v with granted := v.granted ++
      ((db.handles.get (sid, n)).map (⟨sid, n, ·.inum, has flags clfShared⟩)).toList }
  | .lock n flags, .lockPending =>
    { v with waiting := v.waiting ++
      ((db.handles.get (sid, n)).map (⟨sid, n, ·.inum, has flags clfShared⟩)).toList }
  | .unlock n, .ok | .close n, .ok => v.drop fun g => g.sid = sid && g.fh = n
  | _, _ => v

/-- What the owners of locks learn from a message sent while `req` is handled. -/
def View.tell (db : Cldb) (req : Option (Sid × Request)) (v : View) (m : Sent) : View :=
  match m.msg, req with
  | .event fh events, _ => if m.op = .event ∧ events = ceLocked then v.promote m.sid fh else v
  | .genericResp code _, some (sid, req) => if m.sid = sid then v.answer db sid req code else v
  | _, _ => v

structure World where
  srv : Server
  view : View

/-- The session that a step ends. -/
def Op.ends (e : Env) (s : Server) (op : Op) : Option Sid :=
  (op.disposes s).filter fun sid =>
    (inTxn op.faults .err (sessionDispose e op.faults sid) s).1.isOk

def World.step (e : Env) (w : World) (op : Op) : World :=
  let srv := w.srv.step e op
  let view := (srv.sent.drop w.srv.sent.length).foldl (View.tell w.srv.db (op.request w.srv)) w.view
  ⟨srv, (op.ends e w.srv).elim view fun sid => view.drop fun g => g.sid = sid⟩

def World.init (now : Nat) : World := ⟨.init now, ⟨[], []⟩⟩

/-! ## What a step tells -/

/-- The step closes a handle or ends a session and, doing so, finds a waiter to wake, whether or not its
calls of the database succeed. -/
def Op.wakes (s : Server) (op : Op) : Bool :=
  match op.request s with
  | some (sid, .close n) => (s.db.handles.get (sid, n)).any fun h =>
      promotes (keptLocks sid n (s.db.locks h.lockInum))
  | _ => (op.disposes s).any fun sid => (s.db.lockInums sid).any fun i =>
      promotes (keptLocks sid 0 (s.db.locks i))

theorem tell_eq_self {db : Cldb} {req : Option (Sid × Request)} {v : View} {m : Sent}
    (hr : ∀ sid r, req = some (sid, r) → r.aboutLocks = false) (hm : NotLocked m) :
    v.tell db req m = v := by
  obtain ⟨sid, op, msg⟩ := m
  unfold View.tell
  split
  · next fh events heq =>
    split
    · next h =>
      obtain ⟨rfl, rfl⟩ := h
      cases heq
      exact absurd ⟨sid, fh, rfl⟩ hm
    · rfl
  · next code xid k r heq =>
    have h := hr k r rfl
    split
    · cases r <;> first | rfl | simp [Request.aboutLocks] at h
    · rfl
  · rfl

theorem foldl_tell_eq_self {db : Cldb} {req : Option (Sid × Request)} (v : View) {told : List Sent}
    (hr : ∀ sid r, req = some (sid, r) → r.aboutLocks = false) (hm : ∀ m ∈ told, NotLocked m) :
    told.foldl (View.tell db req) v = v := by
  induction told with
  | nil => rfl
  | cons m told ih =>
    rw [List.foldl_cons, tell_eq_self hr (hm m (by simp))]
    exact ih fun m' h => hm m' (List.mem_cons_of_mem m h)

/-- What the messages of a step make of a view. -/
def Op.told (s t : Server) (op : Op) (v : View) : View :=
  (t.sent.drop s.sent.length).foldl (View.tell s.db (op.request s)) v

theorem told_of_tells {s t : Server} {op : Op} (v : View)
    (hr : ∀ sid r, op.request s = some (sid, r) → r.aboutLocks = false)
    (h : Tells NotLocked s t) : op.told s t v = v := by
  obtain ⟨told, ht, hm⟩ := h
  rw [Op.told, ht, List.drop_left]
  exact foldl_tell_eq_self v hr hm

theorem told_of_reply {s t : Server} {op : Op} (v : View) {sid : Sid} {req : Request}
    {sess : Session} {code : CleErrCodes} (hr : op.request s = some (sid, req))
    (hs : sess.sid = sid) (ht : t.sent = s.sent ++ [sess.reply code]) :
    op.told s t v = v.answer s.db sid req code := by
  simp [Op.told, ht, View.tell, Session.reply, hr, hs]

theorem answer_of_fault {v : View} {db : Cldb} {sid : Sid} {req : Request} {code : CleErrCodes}
    (h : code.Fault) : v.answer db sid req code = v := by
  obtain ⟨hok, hpend⟩ := h
  cases req <;> cases code <;> first | rfl | exact absurd rfl hok | exact absurd rfl hpend

/-! ## Steps that wake nobody -/

/-- The records of a handle that is unlocked or closed: `kept` stay of those of inode `i`. -/
inductive Released (sid : Sid) (n : Nat) (db : Cldb) : Request → Inum → List RawLock → Prop where
  | unlock {h : RawHandle} {kept : List RawLock} (handle : db.handles.get (sid, n) = some h)
      (scan : lockDelScan sid n (db.locks h.inum) = some kept) :
      Released sid n db (.unlock n) h.inum kept
  | close {h : RawHandle} (handle : db.handles.get (sid, n) = some h) :
      Released sid n db (.close n) h.lockInum (keptLocks sid n (db.locks h.lockInum))

/-- What a step that wakes nobody does to the records, and what its messages say of that. -/
inductive WorldStep (w : World) (op : Op) (w' : World) : Prop where
  | same (hl : w'.srv.db.locks = w.srv.db.locks) (hv : w'.view = w.view)
  | locked {sid : Sid} {n flags : Nat} {h : RawHandle} {lock : RawLock} {ls : List RawLock}
      (hh : w.srv.db.handles.get (sid, n) = some h)
      (hlock : lock.sid = sid ∧ lock.fh = n ∧ lock.shared = has flags clfShared)
      (hadd : LockAdded lock (w.srv.db.locks h.inum) ls)
      (hl : w'.srv.db.locks = Function.update w.srv.db.locks h.inum ls)
      (hv : w'.view = w.view.answer w.srv.db sid (.lock n flags)
        (if lock.pending then .lockPending else .ok))
  | released {sid : Sid} {n : Nat} {req : Request} {i : Inum} {kept : List RawLock}
      (hr : op.request w.srv = some (sid, req)) (h : Released sid n w.srv.db req i kept)
      (hl : w'.srv.db.locks = Function.update w.srv.db.locks i kept)
      (hv : w'.view = w.view.drop fun g => g.sid = sid && g.fh = n)
  | ended {sid : Sid} (hd : op.disposes w.srv = some sid)
      (hp : Pruned op.faults sid w.srv.db w'.srv.db)
      (hv : w'.view = w.view.drop fun g => g.sid = sid)

theorem World.step_view {e : Env} {w : World} {op : Op} (h : op.ends e w.srv = none) :
    (w.step e op).view = op.told w.srv (w.srv.step e op) w.view := by
  simp [World.step, h, Op.told]

theorem ends_of_disposes {e : Env} {s : Server} {op : Op} (h : op.disposes s = none) :
    op.ends e s = none := by simp [Op.ends, h]

theorem wakes_close {s : Server} {op : Op} (hw : op.wakes s = false) {sid : Sid} {n : Nat}
    (hr : op.request s = some (sid, .close n)) (h : RawHandle)
    (hh : s.db.handles.get (sid, n) = some h) :
    promotes (keptLocks sid n (s.db.locks h.lockInum)) = false := by
  simpa [Op.wakes, hr, hh] using hw

theorem wakes_disposes {s : Server} {op : Op} (hw : op.wakes s = false) {sid : Sid}
    (hd : op.disposes s = some sid) (i : Inum) (hi : i ∈ s.db.lockInums sid) :
    promotes (keptLocks sid 0 (s.db.locks i)) = false := by
  simp only [Op.wakes, disposes_request hd, hd, Option.any_some, List.any_eq_false,
    Bool.not_eq_true] at hw
  exact hw i hi

theorem step_other (e : Env) {w : World} {op : Op}
    (hr : ∀ sid r, op.request w.srv = some (sid, r) → r.aboutLocks = false)
    (hd : op.disposes w.srv = none) (ht : Tells NotLocked w.srv (w.srv.step e op)) :
    WorldStep w op (w.step e op) := by
  refine .same (funext fun i => ?_)
    ((World.step_view (ends_of_disposes hd)).trans (told_of_tells w.view hr ht))
  cases step_locks e w.srv op i with
  | same h => exact h
  | unlocked hreq | closed hreq | locked hreq => cases hr _ _ hreq
  | ended hdis => simp [hd] at hdis

theorem step_request (e : Env) {w : World} {op : Op} (hw : op.wakes w.srv = false) {sid : Sid}
    {req : Request} {v : Server} {sess : Session} (hr : op.request w.srv = some (sid, req))
    (hd : op.disposes w.srv = none) (hv : Idle w.srv v) (hsent : v.sent = w.srv.sent)
    (hsess : v.sessions.get sid = some sess)
    (ht : w.srv.step e op = req.handle e op.faults sid v) : WorldStep w op (w.step e op) := by
  have hview := World.step_view (e := e) (ends_of_disposes hd)
  have hdb : (w.step e op).srv.db = (req.handle e op.faults sid v).db := by rw [← ht]; rfl
  have hreply : ∀ code, (req.handle e op.faults sid v).sent = v.sent ++ [sess.reply code] →
      (w.step e op).view = w.view.answer w.srv.db sid req code := by
    intro code hc
    rw [hview, told_of_reply w.view hr (get_sid hsess)]
    rw [ht, hc, hsent]
  cases req with
  | lock n flags =>
    obtain ⟨code, hc, ⟨hfault, hsame⟩ | ⟨acquired, h, wait, rfl, hh, hadd⟩⟩ :=
      msgLock_told e op.faults n flags hsess
    · refine .same ?_ ((hreply code hc).trans (answer_of_fault hfault))
      rw [hdb, ← hv.db]
      exact congrArg Cldb.locks hsame
    · obtain ⟨lock, ls, ⟨-, hsid, hfh, hsh⟩, hp, hla, hset⟩ := cldbLockAdd_added hadd
      rw [hv.db] at hh hla hset
      refine .locked hh ⟨hsid, hfh, hsh⟩ hla ?_ ((hreply _ hc).trans ?_)
      · rw [hdb]
        exact congrArg Cldb.locks hset
      · cases acquired <;> simp [hp]
  | unlock n =>
    have hsil := msgUnlockTxn_keeps op.faults sid n v
    obtain ⟨code, hc, ⟨hfault, hsame⟩ | ⟨rfl, u, t, hbody, htdb⟩⟩ :=
      respond_told e op.faults hsess hsil (msgUnlockTxn_fails op.faults sid n)
    · refine .same ?_ ((hreply code hc).trans (answer_of_fault hfault))
      rw [hdb, ← hv.db]
      exact congrArg Cldb.locks hsame
    · have heff := msgUnlockTxn_ok 0 0 hbody
      rw [← htdb, hv.db] at heff
      change DbEffect sid 0 0 w.srv.db (.unlock n)
        ((Request.unlock n).handle e op.faults sid v).db at heff
      rw [← hdb] at heff
      generalize hq : (w.step e op).srv.db = q at heff
      cases heff with
      | unlock handle mode scan =>
        exact .released hr (.unlock handle scan) (congrArg Cldb.locks hq) (hreply .ok hc)
  | close n =>
    have hsil : Silent v (msgCloseTxn e op.faults sid n v).2 :=
      msgCloseTxn_silent e op.faults (by rw [hv.db]; exact wakes_close hw hr)
    obtain ⟨code, hc, ⟨hfault, hsame⟩ | ⟨rfl, u, t, hbody, htdb⟩⟩ :=
      respond_told e op.faults hsess hsil (msgCloseTxn_fails e op.faults sid n)
    · refine .same ?_ ((hreply code hc).trans (answer_of_fault hfault))
      rw [hdb, ← hv.db]
      exact congrArg Cldb.locks hsame
    · have heff := msgCloseTxn_ok 0 0 hbody
      rw [← htdb, hv.db] at heff
      change DbEffect sid 0 0 w.srv.db (.close n)
        ((Request.close n).handle e op.faults sid v).db at heff
      rw [← hdb] at heff
      generalize hq : (w.step e op).srv.db = q at heff
      cases heff with
      | close handle =>
        exact .released hr (.close handle) (congrArg Cldb.locks hq) (hreply .ok hc)
  | get | «open» | put | del =>
    refine step_other e (fun k r hk => ?_) hd ?_
    · rw [hr] at hk
      cases hk
      rfl
    · rw [ht, Tells, ← hsent]
      exact handle_tells e op.faults sid rfl v

theorem step_dispose (e : Env) {w : World} {op : Op} (hw : op.wakes w.srv = false) {sid : Sid}
    (hr : op.request w.srv = none) (hd : op.disposes w.srv = some sid)
    (ht : w.srv.step e op = (inTxn op.faults .err (sessionDispose e op.faults sid) w.srv).2) :
    WorldStep w op (w.step e op) := by
  have hsil := sessionRemove_silent e op.faults (wakes_disposes hw hd)
  have hsent : (w.srv.step e op).sent = w.srv.sent := by
    rw [ht]
    rcases inTxn_end op.faults .err (sessionDispose e op.faults sid) w.srv with h | ⟨db, h⟩
    · rw [h]
    · rw [h]
      exact hsil.sent_eq
  have htold : op.told w.srv (w.srv.step e op) w.view = w.view :=
    told_of_tells w.view (by simp [hr]) ⟨[], by simp [hsent], by simp⟩
  rcases hres : inTxn op.faults .err (sessionDispose e op.faults sid) w.srv with ⟨code | u, t⟩
  · have hends : op.ends e w.srv = none := by simp [Op.ends, hd, hres, Except.isOk, Except.toBool]
    refine .same ?_ ((World.step_view hends).trans htold)
    change (w.srv.step e op).db.locks = _
    rw [ht, hres, inTxn_error' hres]
  · have hends : op.ends e w.srv = some sid := by
      simp [Op.ends, hd, hres, Except.isOk, Except.toBool]
    have hbody := (inTxn_ok.mp hres).2.2
    rcases hrem : sessionRemove e op.faults sid w.srv with ⟨rc, v⟩
    simp only [sessionDispose, hrem] at hbody
    cases hbody
    have hp : Pruned op.faults sid w.srv.db v.db := sessionRemove_ok hrem
    refine .ended hd ?_ ?_
    · change Pruned op.faults sid w.srv.db (w.srv.step e op).db
      rw [ht, hres]
      exact hp
    · simp only [World.step, hends, Option.elim_some]
      rw [← Op.told, htold]

theorem step_world (e : Env) {w : World} {op : Op} (hw : op.wakes w.srv = false) :
    WorldStep w op (w.step e op) := by
  cases step_cases e w.srv op with
  | idle hr hd h => exact step_other e (by simp [hr]) hd (Tells.mono h.sent fun _ hm => hm.1)
  | created hr hd h => exact step_other e (by simp [hr]) hd (Tells.mono h.sent fun _ hm => hm.1)
  | request hr hd hv hsent htime hsess ht => exact step_request e hw hr hd hv hsent hsess ht
  | dispose hr hd ht => exact step_dispose e hw hr hd ht

theorem Released.sub {sid : Sid} {n : Nat} {db : Cldb} {req : Request} {i : Inum}
    {kept : List RawLock} (h : Released sid n db req i kept) : ∀ l ∈ kept, l ∈ db.locks i := by
  cases h with
  | unlock handle scan => exact fun l hl => (lockDelScan_sublist scan).mem hl
  | close handle => exact fun l hl => (mem_keptLocks.mp hl).1

/-- The records of other handles stay. -/
theorem Released.keep {sid : Sid} {n : Nat} {db : Cldb} {req : Request} {i : Inum}
    {kept : List RawLock} (h : Released sid n db req i kept)
    (hfh : ∀ x ∈ db.handles.rows, x.fh ≠ 0) {l : RawLock} (hl : l ∈ db.locks i)
    (hne : ¬ (l.sid = sid ∧ l.fh = n)) : l ∈ kept := by
  cases h with
  | unlock handle scan =>
    obtain ⟨pre, x, post, hls, rfl, hsid, hn, -⟩ := lockDelScan_split scan
    rw [hls, List.mem_append, List.mem_cons] at hl
    rcases hl with hl | rfl | hl
    · exact List.mem_append_left post hl
    · exact absurd ⟨hsid, hn⟩ hne
    · exact List.mem_append_right pre hl
  | @close h handle =>
    obtain ⟨hm, hk⟩ := Table.mem_get.mp handle
    have hn : h.fh = n := congrArg Prod.snd hk
    have hn : n ≠ 0 := hn ▸ hfh h hm
    refine mem_keptLocks.mpr ⟨hl, ?_⟩
    rwa [← Bool.not_eq_true, lmatch_iff hn]

/-! ## Mutual exclusion -/

/-- An exclusive grant is the only one on its inode. -/
def View.Exclusion (v : View) : Prop :=
  v.granted.Pairwise fun g g' => g.inum = g'.inum → g.shared = true ∧ g'.shared = true

/-- The step opens a handle although the numbers of its session are used up, whether or not its calls
succeed. -/
def Op.wraps (s : Server) (op : Op) : Bool :=
  match op.request s with
  | some (sid, .open _) => s.nextFh sid == some 0
  | _ => false

def Grant.Recorded (db : Cldb) (g : Grant) : Prop :=
  ∃ l ∈ db.locks g.inum, l.sid = g.sid ∧ l.fh = g.fh ∧ l.shared = g.shared ∧ l.pending = false

/-- The invariant of runs that wake nobody. -/
structure Backed (w : World) : Prop where
  record : ∀ g ∈ w.view.granted, g.Recorded w.srv.db
  exclusion : w.view.Exclusion
  fh : ∀ h ∈ w.srv.db.handles.rows, h.fh ≠ 0

theorem step_fh (e : Env) {s : Server} {op : Op} (hw : op.wraps s = false)
    (hs : ∀ h ∈ s.db.handles.rows, h.fh ≠ 0) : ∀ h ∈ (s.step e op).db.handles.rows, h.fh ≠ 0 := by
  intro x hx
  cases step_db e s op with
  | same hdb hfh => exact hs x (by rwa [hdb] at hx)
  | created h =>
    obtain ⟨raw, -, -, -, hdb⟩ := h.db
    exact hs x (by rwa [hdb] at hx)
  | @effect sid req fh hr hn h hopen hfh =>
    rcases h.handles_sub x hx with hx | ⟨⟨m, rfl⟩, hkey⟩
    · exact hs x hx
    · have hxfh : x.fh = fh := congrArg Prod.snd hkey
      rintro h0
      simp [Op.wraps, hr, hn, ← hxfh, h0] at hw
  | pruned hd h hfh => exact hs x (h.sub x hx)

theorem View.Exclusion.drop {v : View} (h : v.Exclusion) (p : Grant → Bool) :
    (v.drop p).Exclusion := List.Pairwise.filter _ h

/-- A new grant is exclusive of those whose records its own does not conflict with. -/
theorem View.Exclusion.add {v : View} (h : v.Exclusion) {g : Grant}
    (hg : ∀ g' ∈ v.granted, g'.inum = g.inum → g'.shared = true ∧ g.shared = true) :
    View.Exclusion { v with granted := v.granted ++ [g] } := by
  refine List.pairwise_append.mpr ⟨h, List.pairwise_singleton _ g, ?_⟩
  intro g' hg' x hx
  rw [List.mem_singleton.mp hx]
  exact hg g' hg'

theorem mem_update_of_added {db : Cldb} {lock : RawLock} {i j : Inum} {ls : List RawLock}
    (h : LockAdded lock (db.locks i) ls) {l : RawLock} :
    l ∈ Function.update db.locks i ls j ↔ l ∈ db.locks j ∨ j = i ∧ l = lock := by
  by_cases hj : j = i
  · subst hj
    rw [Function.update_self, h.perm.mem_iff, List.mem_cons]
    tauto
  · simp [hj]

theorem Backed.step (e : Env) {w : World} {op : Op} (hw : Backed w) (hwake : op.wakes w.srv = false)
    (hwrap : op.wraps w.srv = false) : Backed (w.step e op) := by
  have hfh := step_fh e hwrap hw.fh
  cases step_world e hwake with
  | same hl hv =>
    refine ⟨?_, hv ▸ hw.exclusion, hfh⟩
    rw [hv]
    intro g hg
    rw [Grant.Recorded, hl]
    exact hw.record g hg
  | @locked sid n flags h lock ls hh hlock hadd hl hv =>
    have hold : ∀ g ∈ w.view.granted, g.Recorded (w.step e op).srv.db := by
      intro g hg
      obtain ⟨l, hm, hg⟩ := hw.record g hg
      refine ⟨l, ?_, hg⟩
      rw [hl, mem_update_of_added hadd]
      exact .inl hm
    cases hp : lock.pending with
    | true =>
      have hgr : (w.step e op).view.granted = w.view.granted := by rw [hv, hp]; rfl
      exact ⟨hgr ▸ hold, by rw [View.Exclusion, hgr]; exact hw.exclusion, hfh⟩
    | false =>
      have hgr : (w.step e op).view.granted =
          w.view.granted ++ [⟨sid, n, h.inum, has flags clfShared⟩] := by
        rw [hv, hp]
        simp [View.answer, hh]
      constructor
      · intro g hg
        rw [hgr, List.mem_append, List.mem_singleton] at hg
        rcases hg with hg | rfl
        · exact hold g hg
        · refine ⟨lock, ?_, hlock.1, hlock.2.1, hlock.2.2, hp⟩
          rw [hl, mem_update_of_added hadd]
          exact .inr ⟨rfl, rfl⟩
      · rw [View.Exclusion, hgr]
        refine View.Exclusion.add hw.exclusion fun g' hg' hi => ?_
        obtain ⟨l, hm, -, -, hsh, hacq⟩ := hw.record g' hg'
        rw [show g'.inum = h.inum from hi] at hm
        have hconf := hadd.held hp l hm hacq
        rw [RawLock.conflicts, hsh, hlock.2.2] at hconf
        simpa [and_comm] using hconf
      · exact hfh
  | @released sid n req i kept hr h hl hv =>
    refine ⟨?_, hv ▸ hw.exclusion.drop _, hfh⟩
    rw [hv]
    intro g hg
    obtain ⟨hg, hne⟩ := List.mem_filter.mp hg
    obtain ⟨l, hm, hsid, hlfh, hrest⟩ := hw.record g hg
    refine ⟨l, ?_, hsid, hlfh, hrest⟩
    rw [hl]
    by_cases hi : g.inum = i
    · rw [hi, Function.update_self]
      refine h.keep hw.fh (hi ▸ hm) ?_
      simpa only [hsid, hlfh, Bool.not_eq_true', Bool.and_eq_false_imp, decide_eq_true_eq,
        decide_eq_false_iff_not, not_and] using hne
    · rwa [Function.update_of_ne hi]
  | @ended sid hd hp hv =>
    refine ⟨?_, hv ▸ hw.exclusion.drop _, hfh⟩
    rw [hv]
    intro g hg
    obtain ⟨hg, hne⟩ := List.mem_filter.mp hg
    obtain ⟨l, hm, hsid, hrest⟩ := hw.record g hg
    refine ⟨l, ?_, hsid, hrest⟩
    rcases hp.locks g.inum with he | ⟨-, he⟩
    · rwa [he]
    · rw [he, mem_keptLocks, ← Bool.not_eq_true, lmatch_zero, hsid]
      exact ⟨hm, by simpa using hne⟩

/-- In a run that wakes no waiter and in which no session uses up its handle numbers, exclusive
grants are exclusive. A beginning of such a run is one too, so this holds at every point of it. -/
theorem run_exclusion (e : Env) (now : Nat) (ops : List Op)
    (h : Meets (World.step e) (fun w op => op.wakes w.srv = false ∧ op.wraps w.srv = false)
      (World.init now) ops) : (run (World.step e) (World.init now) ops).view.Exclusion := by
  have hinv : Backed (run (World.step e) (World.init now) ops) :=
    h.invariant ⟨by simp [World.init], List.Pairwise.nil, by simp [World.init, Server.init, Table.empty]⟩
      fun w op hw hok => hw.step e hok.1 hok.2
  exact hinv.exclusion

/-- Session 1 takes `/a`, session 2 is refused it, session 1 closes it, session 2 takes it. -/
def turnsRun : List Op :=
  [.newSess 1, .newSess 2, .open 1 (comCreate + comLock) [slash, 0x61],
    .open 2 comLock [slash, 0x61], .lock 1 2, .trylock 2 2, .close 1 2, .lock 2 2]

theorem run_exclusion_turns :
    Meets (World.step .plain) (fun w op => op.wakes w.srv = false ∧ op.wraps w.srv = false)
        (World.init 0) turnsRun ∧
      (run (World.step .plain) (World.init 0) turnsRun).view.Exclusion := by
  have hmeets : Meets (World.step .plain)
      (fun w op => op.wakes w.srv = false ∧ op.wraps w.srv = false) (World.init 0) turnsRun := by
    decide +kernel
  exact ⟨hmeets, run_exclusion .plain 0 turnsRun hmeets⟩

/-- Session 1 holds `/a` and session 2 waits; session 1 closes it and session 3 asks for it. -/
def wokenRun : List Op :=
  [.newSess 1, .newSess 2, .newSess 3, .open 1 (comCreate + comLock) [slash, 0x61],
    .open 2 comLock [slash, 0x61], .open 3 comLock [slash, 0x61], .lock 1 2, .lock 2 2, .close 1 2,
    .trylock 3 2]

/-- Sessions 2 and 3 both have an exclusive lock. -/
theorem wokenRun_not_exclusion :
    ¬ (run (World.step .plain) (World.init 0) wokenRun).view.Exclusion := by
  have hgranted : (run (World.step .plain) (World.init 0) wokenRun).view.granted =
      [⟨2, 2, 63, false⟩, ⟨3, 2, 63, false⟩] := by decide +kernel
  rw [View.Exclusion, hgranted]
  decide

/-! ## Records and what was told -/

/-- The handles whose owners have been told that they hold, or wait for, a lock on an inode. -/
def View.handles (v : View) (pending : Bool) (i : Inum) : List (Sid × Nat) :=
  ((if pending then v.waiting else v.granted).filter fun g => g.inum = i).map fun g => (g.sid, g.fh)

/-- The handles with a record for an inode, acquired or pending. -/
def Cldb.lockHandles (db : Cldb) (pending : Bool) (i : Inum) : List (Sid × Nat) :=
  ((db.locks i).filter fun l => l.pending = pending).map fun l => (l.sid, l.fh)

/-- The records say what their owners were told. -/
def Agrees (w : World) : Prop :=
  ∀ pending i k, k ∈ w.view.handles pending i ↔ k ∈ w.srv.db.lockHandles pending i

theorem mem_lockHandles {db : Cldb} {pending : Bool} {i : Inum} {k : Sid × Nat} :
    k ∈ db.lockHandles pending i ↔ ∃ l ∈ db.locks i, l.pending = pending ∧ (l.sid, l.fh) = k := by
  simp [Cldb.lockHandles, and_assoc]

theorem mem_handles_drop {v : View} {p : Grant → Bool} {P : Sid × Nat → Prop}
    (hp : ∀ g, p g = true ↔ P (g.sid, g.fh)) {pending : Bool} {i : Inum} {k : Sid × Nat} :
    k ∈ (v.drop p).handles pending i ↔ k ∈ v.handles pending i ∧ ¬ P k := by
  have hp' : ∀ g, p g = false ↔ ¬ P (g.sid, g.fh) := fun g => by
    rw [← hp, Bool.not_eq_true]
  cases pending <;>
  · simp only [View.handles, View.drop, Bool.false_eq_true, if_false, if_true, List.mem_map,
      List.mem_filter, decide_eq_true_eq, Bool.not_eq_true']
    constructor
    · rintro ⟨g, ⟨⟨hg, hn⟩, hi⟩, rfl⟩
      exact ⟨⟨g, ⟨hg, hi⟩, rfl⟩, (hp' g).mp hn⟩
    · rintro ⟨⟨g, ⟨hg, hi⟩, rfl⟩, hn⟩
      exact ⟨g, ⟨⟨hg, (hp' g).mpr hn⟩, hi⟩, rfl⟩

theorem mem_handles_answer_lock {v : View} {db : Cldb} {sid : Sid} {n flags : Nat} {h : RawHandle}
    (hh : db.handles.get (sid, n) = some h) {b pending : Bool} {i : Inum} {k : Sid × Nat} :
    k ∈ (v.answer db sid (.lock n flags) (if b then .lockPending else .ok)).handles pending i ↔
      k ∈ v.handles pending i ∨ i = h.inum ∧ b = pending ∧ k = (sid, n) := by
  by_cases hi : i = h.inum
  · subst hi
    cases b <;> cases pending <;>
      simp [View.answer, View.handles, hh, List.filter_append, eq_comm]
  · cases b <;> cases pending <;>
      simp [View.answer, View.handles, hh, List.filter_append, hi, Ne.symm hi]

/-- A handle that the step unlocks has no other record on its inode, whether or not its calls succeed. -/
def Op.unlocksAll (s : Server) (op : Op) : Bool :=
  match op.request s with
  | some (sid, .unlock n) => (s.db.handles.get (sid, n)).all fun h =>
      (lockDelScan sid n (s.db.locks h.inum)).all fun kept =>
        kept.all fun l => decide ((l.sid, l.fh) ≠ (sid, n))
  | _ => true

/-- The records of a handle that is unlocked or closed are all gone, those of others are not. -/
theorem Released.mem_kept {s : Server} {op : Op} {sid : Sid} {n : Nat} {req : Request} {i j : Inum}
    {kept : List RawLock} (h : Released sid n s.db req i kept)
    (hr : op.request s = some (sid, req)) (hs : RefInt s.db) (hok : op.unlocksAll s = true)
    (hfh : ∀ x ∈ s.db.handles.rows, x.fh ≠ 0) (l : RawLock) :
    l ∈ Function.update s.db.locks i kept j ↔ l ∈ s.db.locks j ∧ (l.sid, l.fh) ≠ (sid, n) := by
  have hgone : ∀ l ∈ kept, (l.sid, l.fh) ≠ (sid, n) := by
    cases h with
    | unlock handle scan =>
      simpa only [Op.unlocksAll, hr, handle, scan, Option.all_some, List.all_eq_true,
        decide_eq_true_eq] using hok
    | close handle =>
      rintro l hl heq
      simp only [Prod.mk.injEq] at heq
      have hm := (mem_keptLocks.mp hl).2
      simp [lmatch, heq.1, heq.2] at hm
  -- the records of a handle are on its own inode
  have honly : ∀ l ∈ s.db.locks j, (l.sid, l.fh) = (sid, n) → j = i := by
    intro l hl heq
    obtain ⟨-, x, hx, hk, hi, hmode⟩ := hs.lock j l hl
    cases h with
    | unlock handle scan =>
      obtain ⟨hm, hkey⟩ := Table.mem_get.mp handle
      rw [← hi, Table.eq_of_key hx hm (hk.trans (heq.trans hkey.symm))]
    | close handle =>
      obtain ⟨hm, hkey⟩ := Table.mem_get.mp handle
      rw [← Table.eq_of_key hx hm (hk.trans (heq.trans hkey.symm)), RawHandle.lockInum,
        if_pos hmode, hi]
  by_cases hj : j = i
  · subst hj
    rw [Function.update_self]
    refine ⟨fun hl => ⟨h.sub l hl, hgone l hl⟩, fun hl => h.keep hfh hl.1 ?_⟩
    simpa using hl.2
  · rw [Function.update_of_ne hj]
    exact ⟨fun hl => ⟨hl, fun heq => hj (honly l hl heq)⟩, fun hl => hl.1⟩

theorem Agrees.step (e : Env) {w : World} {op : Op} (hw : Agrees w) (hs : RefInt w.srv.db)
    (hfh : ∀ x ∈ w.srv.db.handles.rows, x.fh ≠ 0) (hwake : op.wakes w.srv = false)
    (hgrow : (op.disposes w.srv).isSome = true → op.faults.CanGrow)
    (hall : op.unlocksAll w.srv = true) : Agrees (w.step e op) := by
  intro pending i k
  cases step_world e hwake with
  | same hl hv =>
    rw [hv, Cldb.lockHandles, hl]
    exact hw pending i k
  | @locked sid n flags h lock ls hh hlock hadd hl hv =>
    have hkey : (lock.sid, lock.fh) = (sid, n) := by rw [hlock.1, hlock.2.1]
    rw [hv, mem_handles_answer_lock hh, hw pending i k, mem_lockHandles, mem_lockHandles]
    simp only [hl, mem_update_of_added hadd, or_and_right, exists_or]
    refine or_congr_right ⟨?_, ?_⟩
    · rintro ⟨rfl, hp, rfl⟩
      exact ⟨lock, ⟨rfl, rfl⟩, hp, hkey⟩
    · rintro ⟨l, ⟨rfl, rfl⟩, hp, rfl⟩
      exact ⟨rfl, hp, hkey⟩
  | @released sid n req j kept hr h hl hv =>
    rw [hv, mem_handles_drop (P := (· = (sid, n))) (by simp), hw pending i k, mem_lockHandles,
      mem_lockHandles]
    simp only [hl, h.mem_kept hr hs hall hfh]
    constructor
    · rintro ⟨⟨l, hm, hp, rfl⟩, hne⟩
      exact ⟨l, ⟨hm, hne⟩, hp, rfl⟩
    · rintro ⟨l, ⟨hm, hne⟩, hp, rfl⟩
      exact ⟨⟨l, hm, hp, rfl⟩, hne⟩
  | @ended sid hd hp hv =>
    rw [hv, mem_handles_drop (P := (·.1 = sid)) (by simp), hw pending i k, mem_lockHandles,
      mem_lockHandles]
    simp only [hs.mem_pruned hp (hgrow (by simp [hd]))]
    constructor
    · rintro ⟨⟨l, hm, hp, rfl⟩, hne⟩
      exact ⟨l, ⟨hm, hne⟩, hp, rfl⟩
    · rintro ⟨l, ⟨hm, hne⟩, hp, rfl⟩
      exact ⟨⟨l, hm, hp, rfl⟩, hne⟩

/-- The steps after which the records still say what their owners were told. -/
structure Keeping (w : World) (op : Op) : Prop where
  wakes : op.wakes w.srv = false
  unlocks : op.unlocksAll w.srv = true
  intact : Intact w.srv op

theorem Intact.wraps {s : Server} {op : Op} (h : Intact s op) : op.wraps s = false := by
  unfold Op.wraps
  split
  · next hr => simpa using h.nextFh hr
  · rfl

/-- In a run that wakes no waiter, unlocks no handle with several records on its inode and keeps the
references of the database, the records say what their owners were told. A beginning of such a run
is one too, so this holds at every point of it. -/
theorem run_agrees (e : Env) (now : Nat) (ops : List Op)
    (h : Meets (World.step e) Keeping (World.init now) ops) :
    Agrees (run (World.step e) (World.init now) ops) := by
  have hinv := h.invariant
    (I := fun w => Agrees w ∧ Linked w.srv ∧ ∀ x ∈ w.srv.db.handles.rows, x.fh ≠ 0)
    ⟨?_, .init now, by simp [World.init, Server.init, Table.empty]⟩
    fun w op hw hok => ⟨hw.1.step e hw.2.1.ref hw.2.2 hok.wakes hok.intact.2 hok.unlocks,
      hw.2.1.step e op hok.intact, step_fh e hok.intact.wraps hw.2.2⟩
  · exact hinv.1
  · intro pending i k
    cases pending <;> simp [View.handles, Cldb.lockHandles, World.init, Server.init]

/-- Sessions 1 and 2 share `/a` and session 3 waits for it; session 1 unlocks and session 3 ends. -/
def calmRun : List Op :=
  [.newSess 1, .newSess 2, .newSess 3, .open 1 (comCreate + comLock) [slash, 0x61],
    .open 2 comLock [slash, 0x61], .open 3 comLock [slash, 0x61], .lockShared 1 2, .lockShared 2 2,
    .lock 3 2, .unlock 1 2, .timeout 3 100 .none]

theorem run_agrees_calm :
    Meets (World.step .plain) Keeping (World.init 0) calmRun ∧
      Agrees (run (World.step .plain) (World.init 0) calmRun) := by
  have hmeets : Meets (World.step .plain) Keeping (World.init 0) calmRun := by
    have hb : Meets (World.step .plain) (fun w op => op.wakes w.srv = false ∧
        op.unlocksAll w.srv = true ∧ op.intact w.srv = true) (World.init 0) calmRun := by
      decide +kernel
    refine hb.imp fun w op hop hok => ⟨hok.1, hok.2.1, .of_none ?_ hok.2.2⟩
    simp only [calmRun, List.mem_cons, List.not_mem_nil, or_false] at hop
    rcases hop with rfl | rfl | rfl | rfl | rfl | rfl | rfl | rfl | rfl | rfl | rfl <;> rfl
  exact ⟨hmeets, run_agrees .plain 0 calmRun hmeets⟩

/-- Session 2 has been told that it has the lock, and its record is pending. -/
theorem wokenRun_not_agrees : ¬ Agrees (run (World.step .plain) (World.init 0) wokenRun) := by
  intro h
  have hview : (2, 2) ∈ (run (World.step .plain) (World.init 0) wokenRun).view.handles false 63 := by
    decide +kernel
  have hdb : (run (World.step .plain) (World.init 0) wokenRun).srv.db.lockHandles false 63 =
      [(3, 2)] := by decide +kernel
  have hmem := (h false 63 (2, 2)).mp hview
  rw [hdb] at hmem
  simp at hmem

end Hail.Cld
