import Hail.Cld.Step

/-!
# Restarting the server

A server that is started over an existing database loads its sessions from there. `sessLoadDb_get`
says which sessions it has then. In every state that steps and restarts reach, the sessions in
memory and those of the handles are stored (`Stored`).
-/
namespace Hail.Cld

open Library

def sessionDecode (raw : RawSession) : Option Session := do
  let user ← User.ofBytes raw.user
  return {
    sid := raw.sid, sockFd := 0, addr := raw.addr, user, lastContact := raw.lastContact
    nextFh := raw.nextFh, nextSeqidIn := raw.nextSeqidIn, nextSeqidOut := raw.nextSeqidOut
    outQ := [], pingOpen := false, dead := false, msgOp := .nop, msgXid := 0, msgBuf := [] }

/-- The loop of `sess_load_db`; the session whose timer cannot be started is the last one loaded. -/
def sessLoadLoop (timerFails : Nat → Bool) :
    Nat → List RawSession → Table Session.sid → Table Session.sid
  | _, [], ss => ss
  | nth, raw :: raws, ss =>
    match sessionDecode raw with
    | none => sessLoadLoop timerFails (nth + 1) raws ss
    | some sess =>
      let ss := ss.put unordered sess
      if timerFails nth then ss else sessLoadLoop timerFails (nth + 1) raws ss

def sessLoadDb (timerFails : Nat → Bool) (db : Cldb) : Table Session.sid :=
  sessLoadLoop timerFails 0 db.sessions.rows .empty

def ensureRoot (now : Nat) (db : Cldb) : Cldb :=
  match db.byname [slash] with
  | some _ => db
  | none => { db with inodes := db.inodes.put unordered (rootInode now) }

/-- The server is stopped and started again. The histories go on. -/
def Server.restart (now : Nat) (timerFails : Nat → Bool) (srv : Server) : Server :=
  let db := ensureRoot now srv.db
  { srv with db, sessions := sessLoadDb timerFails db, currentTime := now, garbage := 0 }

/-- A step of the server, or a restart. -/
inductive Life where
  | op (op : Op)
  | restart (now : Nat) (timerFails : Nat → Bool)

def Server.live (e : Env) (srv : Server) : Life → Server
  | .op op => srv.step e op
  | .restart now timerFails => srv.restart now timerFails

/-! ## What is loaded -/

theorem sessionDecode_some {raw : RawSession} {sess : Session} (h : sessionDecode raw = some sess) :
    sess.sid = raw.sid ∧ sess.nextFh = raw.nextFh ∧ sess.nextSeqidOut = raw.nextSeqidOut ∧
      sess.outQ = [] := by
  simp only [sessionDecode, Option.bind_eq_bind, Option.bind_eq_some_iff] at h
  obtain ⟨user, -, hsess⟩ := h
  cases hsess
  exact ⟨rfl, rfl, rfl, rfl⟩

theorem sessionDecode_encode (sess : Session) :
    ∃ sess', sessionDecode (sessionEncode sess) = some sess' := by
  have huser : User.ofBytes sess.user.name = some sess.user := by
    rw [User.ofBytes, dif_pos ⟨sess.user.ne_nil, sess.user.length_lt, sess.user.noNul⟩]
  simp only [sessionDecode, sessionEncode, huser, Option.bind_eq_bind, Option.bind_some]
  exact ⟨_, rfl⟩

/-- A session that is found after loading was there before or has been decoded from a record. -/
theorem sessLoadLoop_get {timerFails : Nat → Bool} {nth : Nat} {raws : List RawSession}
    {ss : Table Session.sid} {sid : Sid} {sess : Session}
    (h : (sessLoadLoop timerFails nth raws ss).get sid = some sess) :
    ss.get sid = some sess ∨ ∃ raw ∈ raws, raw.sid = sid ∧ sessionDecode raw = some sess := by
  induction raws generalizing nth ss with
  | nil => exact .inl h
  | cons raw raws ih =>
    have htail : ∀ {ss' : Table Session.sid}, (sessLoadLoop timerFails (nth + 1) raws ss').get sid =
        some sess → ss'.get sid = some sess ∨
          ∃ r ∈ raw :: raws, r.sid = sid ∧ sessionDecode r = some sess := by
      intro ss' h'
      refine (ih h').imp id ?_
      rintro ⟨r, hr, hsid⟩
      exact ⟨r, List.mem_cons_of_mem raw hr, hsid⟩
    unfold sessLoadLoop at h
    split at h
    · exact htail h
    · next loaded hdec =>
      have hput : (ss.put unordered loaded).get sid = some sess ∨
          ∃ r ∈ raw :: raws, r.sid = sid ∧ sessionDecode r = some sess := by
        dsimp only at h
        split at h
        · exact .inl h
        · exact htail h
      rcases hput with hput | hraw
      · rw [Table.get_put] at hput
        split at hput
        · next hsid =>
          cases hput
          exact .inr ⟨raw, by simp, (sessionDecode_some hdec).1.symm.trans hsid.symm, hdec⟩
        · exact .inl hput
      · exact .inr hraw

/-- When the timer of no session but the last one fails, all sessions are loaded. -/
theorem sessLoadLoop_has {timerFails : Nat → Bool} {nth : Nat} {raws : List RawSession}
    (ss : Table Session.sid) (hw : ∀ raw ∈ raws, raw.Written)
    (ht : ∀ n, n + 1 < nth + raws.length → timerFails n = false) (sid : Sid) :
    (sessLoadLoop timerFails nth raws ss).Has sid ↔ ss.Has sid ∨ ∃ raw ∈ raws, raw.sid = sid := by
  induction raws generalizing nth ss with
  | nil => simp [sessLoadLoop]
  | cons raw raws ih =>
    obtain ⟨x, rfl⟩ := hw raw (by simp)
    obtain ⟨sess, hdec⟩ := sessionDecode_encode x
    have hsid : sess.sid = (sessionEncode x).sid := (sessionDecode_some hdec).1
    simp only [List.length_cons] at ht
    have hput : (ss.put unordered sess).Has sid ↔ ss.Has sid ∨ (sessionEncode x).sid = sid := by
      rw [Table.has_put, or_comm, hsid, eq_comm]
    simp only [sessLoadLoop, hdec]
    split
    · next hfail =>
      have hlast : raws = [] := by
        by_contra hne
        have hpos := List.length_pos_iff.mpr hne
        rw [ht nth (by omega)] at hfail
        cases hfail
      simpa [hlast] using hput
    · rw [ih _ (fun r hr => hw r (List.mem_cons_of_mem _ hr)) fun n hn => ht n (by omega), hput]
      simp [or_assoc]

theorem sessLoadDb_get {timerFails : Nat → Bool} {db : Cldb} {sid : Sid} {sess : Session}
    (h : (sessLoadDb timerFails db).get sid = some sess) :
    ∃ raw, db.sessions.get sid = some raw ∧ sessionDecode raw = some sess := by
  rcases sessLoadLoop_get h with h | ⟨raw, hraw, hsid, hdec⟩
  · simp [Table.empty, Table.get] at h
  · exact ⟨raw, Table.mem_get.mpr ⟨hraw, hsid⟩, hdec⟩

@[simp] theorem ensureRoot_sessions (now : Nat) (db : Cldb) :
    (ensureRoot now db).sessions = db.sessions := by
  unfold ensureRoot
  split <;> rfl

@[simp] theorem ensureRoot_handles (now : Nat) (db : Cldb) :
    (ensureRoot now db).handles = db.handles := by
  unfold ensureRoot
  split <;> rfl

theorem restart_get {now : Nat} {timerFails : Nat → Bool} {s : Server} {sid : Sid} {sess : Session}
    (h : (s.restart now timerFails).sessions.get sid = some sess) :
    ∃ raw, s.db.sessions.get sid = some raw ∧ sessionDecode raw = some sess := by
  obtain ⟨raw, hraw, hdec⟩ := sessLoadDb_get h
  exact ⟨raw, by rwa [ensureRoot_sessions] at hraw, hdec⟩

/-! ## What is stored -/

theorem has_iff_nextFh {s : Server} {sid : Sid} :
    s.sessions.Has sid ↔ ∃ fh, s.nextFh sid = some fh := by
  rw [Table.has_iff]
  simp [Server.nextFh]

/-- The sessions in memory and those of the handles are stored, in records that can be loaded. -/
structure Stored (s : Server) : Prop where
  mem : ∀ sid, s.sessions.Has sid → s.db.sessions.Has sid
  handle : ∀ h ∈ s.db.handles.rows, s.db.sessions.Has h.sid
  written : ∀ raw ∈ s.db.sessions.rows, raw.Written

theorem Stored.init (now : Nat) : Stored (Server.init now) where
  mem := by simp [Server.init, Table.empty, Table.Has]
  handle := by simp [Server.init, Table.empty]
  written := by simp [Server.init, Table.empty]

theorem FhStep.has {s t : Server} {op : Op} (h : FhStep s op t) {sid : Sid}
    (ht : t.sessions.Has sid) : s.sessions.Has sid := by
  obtain ⟨fh, hfh⟩ := has_iff_nextFh.mp ht
  rcases h sid fh hfh with hs | ⟨n, m, -, hs, -⟩
  · exact has_iff_nextFh.mpr ⟨_, hs⟩
  · exact has_iff_nextFh.mpr ⟨_, hs⟩

/-- Requests delete no session; opening writes that of the handle. -/
theorem DbEffect.stored {sid : Sid} {fh now : Nat} {db db' : Cldb} {req : Request}
    (h : DbEffect sid fh now db req db')
    (handle : ∀ h ∈ db.handles.rows, db.sessions.Has h.sid)
    (written : ∀ raw ∈ db.sessions.rows, raw.Written) :
    (∀ k, db.sessions.Has k → db'.sessions.Has k) ∧
      (∀ h ∈ db'.handles.rows, db'.sessions.Has h.sid) ∧
      ∀ raw ∈ db'.sessions.rows, raw.Written := by
  have hadd : ∀ (d : Cldb) (m : CldMsgOpen) (inum : Inum) (raw : RawSession), raw.sid = sid →
      raw.Written → d.sessions = db.sessions → d.handles = db.handles →
      (∀ k, db.sessions.Has k → (d.addHandle (m.handle sid fh inum) raw).sessions.Has k) ∧
        (∀ h ∈ (d.addHandle (m.handle sid fh inum) raw).handles.rows,
          (d.addHandle (m.handle sid fh inum) raw).sessions.Has h.sid) ∧
        ∀ r ∈ (d.addHandle (m.handle sid fh inum) raw).sessions.rows, r.Written := by
    intro d m inum raw hraw hw hs hh
    simp only [Cldb.addHandle, hs, hh]
    refine ⟨fun k hk => Table.has_put.mpr (.inr hk), fun x hx => ?_, fun r hr => ?_⟩
    · rw [Table.has_put]
      rcases Table.mem_put.mp hx with rfl | ⟨hx, -⟩
      · exact .inl hraw.symm
      · exact .inr (handle x hx)
    · rcases Table.mem_put.mp hr with rfl | ⟨hr, -⟩
      · exact hw
      · exact written r hr
  cases h with
  | put | unlock => exact ⟨fun _ => id, handle, written⟩
  | «open» valid inode dir hsess next hw => exact hadd db _ _ _ hsess hw rfl rfl
  | create valid long absent unused above dir hparent hsess creates next hsize hw =>
    exact hadd _ _ _ _ hsess hw rfl rfl
  | close => exact ⟨fun _ => id, fun x hx => handle x (Table.mem_del.mp hx).1, written⟩
  | del => exact ⟨fun _ => id, fun x hx => handle x (Table.mem_filter.mp hx).1, written⟩
  | lock handle' mode add =>
    obtain ⟨lock, ls, -, -, -, -, -, -, rfl, -⟩ := cldbLockAdd_ok add
    exact ⟨fun _ => id, handle, written⟩

theorem Stored.step (e : Env) {s : Server} (hs : Stored s) (op : Op) : Stored (s.step e op) := by
  cases step_db e s op with
  | same hdb hfh =>
    constructor <;> rw [hdb]
    · exact fun sid ht => hs.mem sid (hfh.has ht)
    · exact hs.handle
    · exact hs.written
  | @created sid hc =>
    obtain ⟨raw, rfl, -, hw, hdb⟩ := hc.db
    constructor <;> rw [hdb]
    · intro k hk
      rw [Table.has_put]
      by_cases hk' : k = raw.sid
      · exact .inl hk'
      · obtain ⟨fh, hfh⟩ := has_iff_nextFh.mp hk
        rw [hc.nextFh, if_neg hk'] at hfh
        exact .inr (hs.mem k (has_iff_nextFh.mpr ⟨fh, hfh⟩))
    · exact fun x hx => Table.has_put.mpr (.inr (hs.handle x hx))
    · intro r hr
      rcases Table.mem_put.mp hr with rfl | ⟨hr, -⟩
      · exact hw
      · exact hs.written r hr
  | effect hr hn h hopen hfh =>
    obtain ⟨hmem, handle, written⟩ := h.stored hs.handle hs.written
    exact ⟨fun sid ht => hmem sid (hs.mem sid (hfh.has ht)), handle, written⟩
  | @pruned sid hd h hfh hfree =>
    rcases h.sessions with hsame | ⟨hdel, hgone⟩
    · constructor <;> rw [hsame]
      · exact fun k ht => hs.mem k (hfh.has ht)
      · exact fun x hx => hs.handle x (h.sub x hx)
      · exact hs.written
    · constructor <;> rw [hdel]
      · intro k ht
        refine Table.has_del.mpr ⟨hs.mem k (hfh.has ht), ?_⟩
        rintro rfl
        exact Table.get_none_iff.mp hfree ht
      · exact fun x hx => Table.has_del.mpr ⟨hs.handle x (h.sub x hx), hgone x hx⟩
      · exact fun r hr => hs.written r (Table.mem_del.mp hr).1

theorem Stored.live (e : Env) {s : Server} (hs : Stored s) (l : Life) : Stored (s.live e l) := by
  cases l with
  | op op => exact hs.step e op
  | restart now timerFails =>
    refine ⟨fun sid hsid => ?_, ?_, ?_⟩
    · obtain ⟨sess, hg⟩ := Table.has_iff.mp hsid
      obtain ⟨raw, hraw, -⟩ := restart_get hg
      simp only [Server.live, Server.restart, ensureRoot_sessions]
      exact Table.has_iff.mpr ⟨raw, hraw⟩
    · simpa [Server.live, Server.restart] using hs.handle
    · simpa [Server.live, Server.restart] using hs.written

end Hail.Cld
