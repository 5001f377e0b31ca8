import Hail.Cld.Handles

/-!
# The sessions in memory and in the database

A session is stored before it is kept in memory, and freed whether or not it could be removed from the
database. `Faults.Removes` lists the calls on which the removal of a session depends: when they all
succeed, memory and database lose it together.
-/
namespace Hail.Cld

open Library

/-! ## The calls of `session_remove` -/

theorem removeHandles_short {ft : Faults} {nth alloc : Nat} {locks : List Inum}
    {hs : List RawHandle} {db db' : Cldb} (ha : 128 ≤ alloc)
    (h : removeHandles ft nth alloc locks hs db = .ok (none, db')) :
    ∃ n, 128 < n ∧ n ≤ 2 * (locks.length + (hs.filter fun x => has x.mode comLock).length) ∧
      ft (.allocLocks n) = true := by
  induction hs generalizing nth alloc locks db with
  | nil => simp [removeHandles] at h
  | cons x xs ih =>
    unfold removeHandles at h
    dsimp only at h
    split at h
    · cases h
    · split at h
      · next hm =>
        rw [List.filter_cons, if_pos hm, List.length_cons]
        have hlen : (locks ++ [x.inum]).length = locks.length + 1 := by simp
        split at h
        · next hfull =>
          split at h
          · next hft => exact ⟨alloc * 2, by omega, by omega, hft⟩
          · obtain ⟨n, hn, hle, hft⟩ := ih (by omega) h
            exact ⟨n, hn, by omega, hft⟩
        · obtain ⟨n, hn, hle, hft⟩ := ih ha h
          exact ⟨n, hn, by omega, hft⟩
      · next hm =>
        rw [List.filter_cons, if_neg hm]
        exact ih ha h

theorem removeHandles_runs {ft : Faults} (nth alloc : Nat) (locks : List Inum)
    (hs : List RawHandle) (db : Cldb)
    (h : ∀ n, n ≤ nth + hs.length → ft (.handleCur n) = false) :
    ∃ r, removeHandles ft nth alloc locks hs db = .ok r := by
  induction hs generalizing nth alloc locks db with
  | nil => exact ⟨(some locks, db), by simp [removeHandles, h nth (by simp), Faults.guard]⟩
  | cons x xs ih =>
    have htail : ∀ n, n ≤ nth + 1 + xs.length → ft (.handleCur n) = false := fun n hn =>
      h n (by simp only [List.length_cons]; omega)
    unfold removeHandles
    dsimp only
    rw [h nth (by simp), if_neg (by simp)]
    split
    · split
      · split
        · exact ⟨_, rfl⟩
        · exact ih _ _ _ _ htail
      · exact ih _ _ _ _ htail
    · exact ih _ _ _ _ htail

theorem removeLocks_short {ft : Faults} {sid : Sid} {alloc : Nat} {waiters inums : List Inum}
    {db db' : Cldb} (ha : 64 ≤ alloc)
    (h : removeLocks ft sid alloc waiters inums db = .ok (none, db')) :
    ∃ n, 64 < n ∧ n ≤ 2 * (waiters.length + inums.length) ∧ ft (.allocWaiters n) = true := by
  induction inums generalizing alloc waiters db with
  | nil => simp [removeLocks] at h
  | cons inum inums ih =>
    rw [List.length_cons]
    have hlen : (waiters ++ [inum]).length = waiters.length + 1 := by simp
    unfold removeLocks at h
    split at h
    · cases h
    · obtain ⟨n, hn, hle, hft⟩ := ih ha h
      exact ⟨n, hn, by omega, hft⟩
    · dsimp only at h
      split at h
      · next hfull =>
        split at h
        · next hft => exact ⟨alloc * 2, by omega, by omega, hft⟩
        · obtain ⟨n, hn, hle, hft⟩ := ih (by omega) h
          exact ⟨n, hn, by omega, hft⟩
      · obtain ⟨n, hn, hle, hft⟩ := ih ha h
        exact ⟨n, hn, by omega, hft⟩

theorem removeLocks_runs {ft : Faults} (sid : Sid) (alloc : Nat) (waiters inums : List Inum)
    (db : Cldb) (h : ∀ i ∈ inums, ft (.removeCur i) = false) :
    ∃ r, removeLocks ft sid alloc waiters inums db = .ok r := by
  induction inums generalizing alloc waiters db with
  | nil => exact ⟨_, rfl⟩
  | cons inum inums ih =>
    have htail : ∀ i ∈ inums, ft (.removeCur i) = false := fun i hi =>
      h i (List.mem_cons_of_mem inum hi)
    unfold removeLocks
    split
    · next hrem => simp [sessionRemoveLocks, Faults.guard, h inum (by simp)] at hrem
    · exact ih _ _ _ htail
    · dsimp only
      split
      · split
        · exact ⟨_, rfl⟩
        · exact ih _ _ _ htail
      · exact ih _ _ _ htail

theorem rescanLoop_runs (e : Env) {ft : Faults} {inum : Inum} (nth acq : Nat)
    (ls : List RawLock) (s : Server) (h : ∀ n, n ≤ nth + ls.length →
      ft (.rescanGet inum n) = false ∧ ft (.rescanPut inum n) = false) :
    ∃ t, rescanLoop e ft inum nth acq ls s = (.ok ⟨⟩, t) := by
  induction ls generalizing nth acq s with
  | nil => exact ⟨s, Txn.failIf_ok.mpr ⟨(h nth (by simp)).1, rfl⟩⟩
  | cons l ls ih =>
    have htail : ∀ n, n ≤ nth + 1 + ls.length →
        ft (.rescanGet inum n) = false ∧ ft (.rescanPut inum n) = false := fun n hn =>
      h n (by simp only [List.length_cons]; omega)
    have hget : Txn.failIf (ft (.rescanGet inum nth)) Rc.err s = (.ok ⟨⟩, s) :=
      Txn.failIf_ok.mpr ⟨(h nth (by simp)).1, rfl⟩
    have hput : Txn.failIf (ft (.rescanPut inum nth)) Rc.err s = (.ok ⟨⟩, s) :=
      Txn.failIf_ok.mpr ⟨(h nth (by simp)).2, rfl⟩
    rw [rescanLoop, Txn.bind_run hget]
    split
    · exact ⟨s, rfl⟩
    · split
      · exact ⟨s, rfl⟩
      · rw [Txn.bind_run hput, Txn.bind_run (Txn.read_ok.mpr ⟨rfl, rfl⟩)]
        cases hg : s.sessions.get l.sid with
        | none => exact ⟨s, rfl⟩
        | some sess =>
          dsimp only
          split
          · exact ih _ _ s htail
          · rcases hsend : sessSendmsg e s l.sid (.event l.fh ceLocked) .event .none with ⟨sent, v⟩
            have hrest : ∃ t, (if sent = true then rescanLoop e ft inum (nth + 1) (acq + 1) ls
                else pure ⟨⟩) v = (.ok ⟨⟩, t) := by
              cases sent with
              | true => exact ih _ _ v htail
              | false => exact ⟨v, rfl⟩
            obtain ⟨t, ht⟩ := hrest
            refine ⟨t, Txn.bind_ok.mpr ⟨sent, v, ?_, ht⟩⟩
            simp only [hsend]

theorem rescanAll_runs (e : Env) {ft : Faults} (inums : List Inum) (s : Server)
    (h : ∀ i ∈ inums, ft (.rescanCur i) = false ∧ ∀ n, n ≤ (s.db.locks i).length →
      ft (.rescanGet i n) = false ∧ ft (.rescanPut i n) = false) :
    ∃ t, rescanAll e ft inums s = (.ok ⟨⟩, t) := by
  induction inums generalizing s with
  | nil => exact ⟨s, rfl⟩
  | cons inum inums ih =>
    obtain ⟨hcur, hscan⟩ := h inum (by simp)
    obtain ⟨v, hv⟩ := rescanLoop_runs e 0 0 (s.db.locks inum) s fun n hn => hscan n (by omega)
    have hres : inodeLockRescan e ft inum s = (.ok ⟨⟩, v) := by
      have hopen : Txn.failIf (ft (.rescanCur inum)) Rc.err s = (.ok ⟨⟩, s) :=
        Txn.failIf_ok.mpr ⟨hcur, rfl⟩
      rw [inodeLockRescan, Txn.bind_run hopen, Txn.bind_run (Txn.read_ok.mpr ⟨rfl, rfl⟩)]
      exact hv
    have hdb : v.db = s.db := by
      have hk := (inodeLockRescan_keeps e ft inum s).db
      rwa [hres] at hk
    rw [rescanAll, Txn.bind_run hres]
    refine ih v fun i hi => ?_
    rw [hdb]
    exact h i (List.mem_cons_of_mem inum hi)

/-- The larger arrays that removing session `sid` from `db` may ask for can be had. -/
def Faults.Grows (ft : Faults) (db : Cldb) (sid : Sid) : Prop :=
  ∀ n, n ≤ 2 * (db.lockInums sid).length →
    (128 < n → ft (.allocLocks n) = false) ∧ (64 < n → ft (.allocWaiters n) = false)

/-- No call fails when session `sid` is removed from `db`, nor the commit. -/
structure Faults.Removes (ft : Faults) (db : Cldb) (sid : Sid) : Prop where
  arrays : ft (.allocLocks 128) = false ∧ ft (.allocWaiters 64) = false
  grows : ft.Grows db sid
  handles : ∀ n, n ≤ (db.handlesOf sid).length → ft (.handleCur n) = false
  locks : ∀ i ∈ db.lockInums sid, ft (.removeCur i) = false
  rescan : ∀ i ∈ db.lockInums sid, ft (.rescanCur i) = false ∧ ∀ n, n ≤ (db.locks i).length →
    ft (.rescanGet i n) = false ∧ ft (.rescanPut i n) = false
  session : ft .sessionDel = false
  commit : ft .commit = false

/-- All that `session_remove` is to delete of a session is gone. -/
structure Removed (sid : Sid) (a b : Cldb) : Prop where
  handles : ∀ x ∈ b.handles.rows, x.sid ≠ sid
  locks : ∀ i ∈ a.lockInums sid, ∀ l ∈ b.locks i, l.sid ≠ sid
  sessions : b.sessions = a.sessions.del sid

theorem sessionRemove_removed {e : Env} {ft : Faults} {sid : Sid} {s t : Server} {u : PUnit}
    (hgrows : ft.Grows s.db sid) (h : sessionRemove e ft sid s = (.ok u, t)) :
    Removed sid s.db t.db := by
  have hall : Pruned .none sid s.db t.db := by
    simp only [sessionRemove, Txn.bind_ok, Txn.failIf_ok, dbRun_ok] at h
    obtain ⟨-, _, ⟨-, rfl⟩, -, _, ⟨-, rfl⟩, r, _, ⟨b, hb, rfl⟩, h⟩ := h
    have hh := removeHandles_ok le_rfl hb
    cases r with
    | none =>
      obtain ⟨n, hn, hle, hft⟩ := removeHandles_short le_rfl hb
      rw [(hgrows n (by simpa [Cldb.lockInums] using hle)).1 hn] at hft
      cases hft
    | some inums =>
      simp only [Txn.bind_ok, dbRun_ok] at h
      obtain ⟨w, _, ⟨c, hc, rfl⟩, h⟩ := h
      have hl := removeLocks_ok le_rfl hc
      have hinums : inums = s.db.lockInums sid := hh.inums inums rfl
      cases w with
      | none =>
        obtain ⟨n, hn, hle, hft⟩ := removeLocks_short le_rfl hc
        rw [(hgrows n (by simpa [hinums] using hle)).2 hn] at hft
        cases hft
      | some waiters =>
        simp only [Txn.bind_ok, dbPut_ok] at h
        obtain ⟨_, v, hv, d, hd, rfl⟩ := h
        obtain rfl := rescanDel_ok hv hd
        have hh' : HandlesRemoved .none [] (s.db.handlesOf sid) (some inums) s.db b :=
          { hh with short := fun h => by cases h }
        have hl' : LocksRemoved .none sid [] inums (some waiters) b c :=
          { hl with short := fun h => by cases h }
        exact .of_loops hh' hl' (by simp [hinums]) rfl (.inr ⟨rfl, rfl⟩) fun _ =>
          ⟨rfl, ⟨waiters, rfl⟩, rfl⟩
  have hgrow : Faults.none.CanGrow := ⟨fun _ _ => rfl, fun _ _ => rfl⟩
  refine ⟨hall.gone hgrow, fun i hi l hl hsid => ?_, hall.deleted hgrow⟩
  rw [hall.unlocked hgrow i hi, mem_keptLocks] at hl
  simp [(lmatch_zero l sid).mpr hsid] at hl

theorem sessionRemove_runs (e : Env) {ft : Faults} {sid : Sid} {s : Server}
    (h : ft.Removes s.db sid) (hs : s.db.sessions.Has sid) :
    ∃ t, sessionRemove e ft sid s = (.ok ⟨⟩, t) := by
  obtain ⟨⟨r, b⟩, hb⟩ := removeHandles_runs 0 128 [] (s.db.handlesOf sid) s.db
    fun n hn => h.handles n (by omega)
  have hh := removeHandles_ok le_rfl hb
  have hsb : b.sessions = s.db.sessions := by rw [hh.rest]
  have hlb : b.locks = s.db.locks := by rw [hh.rest]
  -- the session is deleted last, so it is found then
  simp only [sessionRemove, Txn.bind_ok, Txn.failIf_ok, dbRun_ok]
  cases r with
  | none =>
    exact ⟨s.setDb b, ⟨⟩, s, ⟨h.arrays.1, rfl⟩, ⟨⟩, s, ⟨h.arrays.2, rfl⟩, none, _, ⟨b, hb, rfl⟩, rfl⟩
  | some inums =>
    have hinums : inums = s.db.lockInums sid := hh.inums inums rfl
    obtain ⟨⟨w, c⟩, hc⟩ := removeLocks_runs sid 64 [] inums b fun i hi => h.locks i (hinums ▸ hi)
    have hl := removeLocks_ok le_rfl hc
    cases w with
    | none =>
      exact ⟨s.setDb c, ⟨⟩, s, ⟨h.arrays.1, rfl⟩, ⟨⟩, s, ⟨h.arrays.2, rfl⟩, some inums, _,
        ⟨b, hb, rfl⟩, Txn.bind_ok.mpr ⟨none, _, dbRun_ok.mpr ⟨c, hc, rfl⟩, rfl⟩⟩
    | some waiters =>
      have hlen : ∀ i, (c.locks i).length ≤ (s.db.locks i).length := by
        intro i
        rw [← hlb]
        rcases hl.locks i with h' | ⟨-, h'⟩ <;> rw [h']
        exact List.length_filter_le _ _
      obtain ⟨v, hv⟩ := rescanAll_runs e waiters ((s.setDb b).setDb c) fun i hi => by
        have hin : i ∈ s.db.lockInums sid := hinums ▸ by simpa using hl.waiters waiters rfl i hi
        exact ⟨(h.rescan i hin).1, fun n hn => (h.rescan i hin).2 n (hn.trans (hlen i))⟩
      have hdb : v.db = c := by
        have hk := (rescanAll_keeps e ft waiters ((s.setDb b).setDb c)).db
        rwa [hv] at hk
      have hcs : c.sessions = s.db.sessions := by rw [hl.rest, hsb]
      obtain ⟨raw, hraw⟩ := Table.has_iff.mp hs
      have hdel : cldbSessionDel ft v.db sid = .ok { c with sessions := c.sessions.del sid } := by
        simp [cldbSessionDel, Faults.guard, h.session, hdb, hcs, hraw]
      exact ⟨v.setDb _, ⟨⟩, s, ⟨h.arrays.1, rfl⟩, ⟨⟩, s, ⟨h.arrays.2, rfl⟩, some inums, _,
        ⟨b, hb, rfl⟩, Txn.bind_ok.mpr ⟨some waiters, _, dbRun_ok.mpr ⟨c, hc, rfl⟩,
          Txn.bind_ok.mpr ⟨⟨⟩, v, hv, dbPut_ok.mpr ⟨_, hdel, rfl⟩⟩⟩⟩

/-! ## Memory and database -/

/-- The sessions in memory are those in the database. -/
def SessionsAgree (s : Server) : Prop := ∀ sid, s.sessions.Has sid ↔ s.db.sessions.Has sid

theorem has_congr {s t : Server} {sid : Sid} (h : t.nextFh sid = s.nextFh sid) :
    t.sessions.Has sid ↔ s.sessions.Has sid := by
  rw [has_iff_nextFh, has_iff_nextFh, h]

theorem handle_has (e : Env) (ft : Faults) (sid : Sid) (req : Request) (s : Server) (k : Sid) :
    (req.handle e ft sid s).sessions.Has k ↔ s.sessions.Has k := by
  rcases handle_nextFh e ft sid req s with h | ⟨-, fh, hfh, h⟩
  · exact has_congr (h k)
  · rw [has_iff_nextFh, has_iff_nextFh, h k]
    split
    · next hk => simp [hk, hfh]
    · rfl

theorem DbEffect.has_sessions {sid : Sid} {fh now : Nat} {db db' : Cldb} {req : Request}
    (h : DbEffect sid fh now db req db') (hsid : db.sessions.Has sid) (k : Sid) :
    db'.sessions.Has k ↔ db.sessions.Has k := by
  by_cases hopen : ∃ m, req = .open m
  · obtain ⟨m, rfl⟩ := hopen
    obtain ⟨raw, inum, hraw, -, hsessions, -⟩ := h.opened
    rw [hsessions, Table.has_put, or_iff_right_iff_imp]
    rintro rfl
    rwa [hraw]
  · rw [(h.not_opened fun m hm => hopen ⟨m, hm⟩).1]

/-- Session `sid` is taken from both. -/
theorem sessionDispose_agree (e : Env) {ft : Faults} {sid : Sid} {s : Server} (hs : SessionsAgree s)
    (hsid : s.sessions.Has sid) (hft : ft .txnBegin = true ∨ ft.Removes s.db sid) :
    SessionsAgree (inTxn ft .err (sessionDispose e ft sid) s).2 := by
  cases hb : ft .txnBegin with
  | true =>
    simp only [inTxn, hb, if_true]
    exact hs
  | false =>
    have hrem := hft.resolve_left (by simp [hb])
    obtain ⟨v, hv⟩ := sessionRemove_runs e hrem ((hs sid).mp hsid)
    have hgone := sessionRemove_removed hrem.grows hv
    have hmem : ∀ k, v.sessions.Has k ↔ s.sessions.Has k := by
      intro k
      have hk := (sessionRemove_keeps e ft sid s).nextFh k
      rw [hv] at hk
      exact has_congr hk
    have hin : inTxn ft Rc.err (sessionDispose e ft sid) s = (.ok ⟨⟩, sessionFree sid v) := by
      refine inTxn_ok.mpr ⟨hb, hrem.commit, ?_⟩
      simp only [sessionDispose, hv]
    rw [hin]
    intro k
    simp only [sessionFree]
    rw [hgone.sessions, Table.has_del, Table.has_del, hmem, hs k]

/-- A step keeps the agreement when no call fails by which it disposes of a session. -/
theorem SessionsAgree.step (e : Env) {s : Server} (hs : SessionsAgree s) {op : Op}
    (hop : ∀ sid ∈ op.disposes s, op.faults .txnBegin = true ∨ op.faults.Removes s.db sid) :
    SessionsAgree (s.step e op) := by
  intro k
  cases step_cases e s op with
  | idle hr hd h => rw [has_congr (h.nextFh k), h.db, hs k]
  | @created sid hr hd h =>
    obtain ⟨raw, rfl, -, -, hdb⟩ := h.db
    rw [hdb, Table.has_put, ← hs k, has_iff_nextFh, has_iff_nextFh, h.nextFh]
    split
    · next hk => simp [hk]
    · next hk => simp [hk]
  | @request sid req v sess hr hd hv hsent htime hsess ht =>
    have hvn : v.nextFh sid = some sess.nextFh := by simp [Server.nextFh, hsess]
    have hsid : v.db.sessions.Has sid := by
      rw [hv.db, ← hs sid, ← has_congr (hv.nextFh sid)]
      exact Table.has_iff.mpr ⟨sess, hsess⟩
    rw [ht, handle_has, has_congr (hv.nextFh k), hs k, ← hv.db]
    rcases handle_db e op.faults req hvn with hdb | ⟨heff, -⟩
    · rw [hdb]
    · exact (heff.has_sessions hsid k).symm
  | @dispose sid hr hd ht =>
    have hsid : s.sessions.Has sid := by
      cases op with
      | timeout sid' now ft =>
        simp only [Op.disposes, Option.bind_eq_bind, Option.bind_eq_some_iff] at hd
        obtain ⟨sess, hg, -, -, hres⟩ := hd
        cases hres
        exact Table.has_iff.mpr ⟨sess, hg⟩
      | _ => cases hd
    rw [ht]
    exact sessionDispose_agree e hs hsid (hop sid hd) k

end Hail.Cld
