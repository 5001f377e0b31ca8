import Hail.Cld.Restart
import Hail.Library.Run

/-!
# Handle numbers

A session numbers its handles from 2 on. The next number is kept in memory, where a failed request
may have moved it, and stored with each handle. `Counted` follows both through steps and restarts
as numbers that do not wrap.
-/
namespace Hail.Cld

open Library

/-- The handle numbers that messages return to session `sid`. -/
def openedBy (sid : Sid) (told : List Sent) : List Nat :=
  told.filterMap fun m => if m.sid = sid then m.opened else none

theorem openedBy_append (sid : Sid) (l k : List Sent) :
    openedBy sid (l ++ k) = openedBy sid l ++ openedBy sid k := by simp [openedBy]

theorem openedBy_none {told : List Sent} (h : ∀ m ∈ told, m.opened = none) (sid : Sid) :
    openedBy sid told = [] := by
  simp only [openedBy, List.filterMap_eq_nil_iff]
  intro m hm
  split
  · exact h m hm
  · rfl

theorem IsEvent.opened {m : Sent} (h : IsEvent m) : m.opened = none := by
  obtain ⟨sid, fh, ev, rfl⟩ := h
  rfl

/-- Opening that is committed takes the next handle number of the session, and returns it or none. -/
theorem msgOpen_opened (e : Env) (ft : Faults) {sid : Sid} {fh : Nat} (m : CldMsgOpen) {s : Server}
    (hfh : s.nextFh sid = some fh) :
    ∃ told, (msgOpen e ft sid m s).sent = s.sent ++ told ∧
      ((msgOpen e ft sid m s).db = s.db ∧ (∀ k, openedBy k told = []) ∨
        DbEffect sid fh s.currentTime s.db (.open m) (msgOpen e ft sid m s).db ∧
          (msgOpen e ft sid m s).nextFh sid = some ((fh + 1) % 2 ^ 64) ∧
          (openedBy sid told = [] ∨ openedBy sid told = [fh]) ∧
          ∀ k, k ≠ sid → openedBy k told = []) := by
  obtain ⟨told, hsent, hev⟩ := (msgOpenTxn_frame e ft sid m s).sent
  have hquiet : ∀ k, openedBy k told = [] := openedBy_none fun x hx => (hev x hx).isEvent.opened
  unfold msgOpen
  split
  · next code t ht =>
    rw [ht] at hsent
    have hframe := sessSendrespGeneric_frame e t sid code
    obtain ⟨told', hsent', hreply⟩ := hframe.sent
    refine ⟨told ++ told', by rw [hsent', hsent, List.append_assoc], .inl ⟨?_, fun k => ?_⟩⟩
    · rw [hframe.db, inTxn_error' ht]
    · rw [openedBy_append, hquiet, openedBy_none fun x hx => (hreply x hx).isPlain.2]
      rfl
  · next n t ht =>
    obtain ⟨rfl, hnext, heff⟩ := msgOpenTxn_ok hfh (inTxn_ok.mp ht).2.2
    rw [ht] at hsent
    split
    · exact ⟨told, hsent, .inr ⟨heff, hnext, .inl (hquiet sid), fun k _ => hquiet k⟩⟩
    · next sess hg =>
      have hframe := sessSendmsg_frame e t sid (.openResp .ok sess.msgXid n) .open
      rw [← hframe.db] at heff
      rw [← hframe.nextFh] at hnext
      rcases sessSendmsg_cases e t sid (.openResp .ok sess.msgXid n) .open .none with
        ⟨sess', pkts, -, -, hsend⟩ | hsend
      · refine ⟨told ++ [⟨sid, .open, .openResp .ok sess.msgXid n⟩], ?_,
          .inr ⟨heff, hnext, .inr ?_, fun k hk => ?_⟩⟩
        · rw [hsend, ← List.append_assoc, ← hsent]
          rfl
        · rw [openedBy_append, hquiet]
          simp [openedBy, Sent.opened]
        · rw [openedBy_append, hquiet]
          simp [openedBy, Ne.symm hk]
      · refine ⟨told, by rw [hsend, hsent], ?_⟩
        exact .inr ⟨heff, hnext, .inl (hquiet sid), fun k _ => hquiet k⟩

/-- The session that a step lets open an inode. -/
def Op.opens (srv : Server) (op : Op) (sid : Sid) : Bool :=
  match op.request srv with
  | some (k, .open _) => k = sid
  | _ => false

/-- What a step does to the handle numbers of a session that is stored afterwards, in record `raw`. -/
inductive FhCase (s : Server) (op : Op) (t : Server) (told : List Sent) (sid : Sid)
    (raw : RawSession) : Prop where
  | quiet (hraw : s.db.sessions.get sid = some raw)
      (hmem : ∀ n, t.nextFh sid = some n → s.nextFh sid = some n ∨
        op.opens s sid = true ∧ ∃ k, s.nextFh sid = some k ∧ n = (k + 1) % 2 ^ 64)
      (hh : ∀ h ∈ t.db.handles.rows, h.sid = sid → h ∈ s.db.handles.rows)
      (htold : openedBy sid told = [])
  | opened {fh : Nat} (hop : op.opens s sid = true) (hfh : s.nextFh sid = some fh)
      (hraw : raw.nextFh = (fh + 1) % 2 ^ 64) (hmem : t.nextFh sid = some ((fh + 1) % 2 ^ 64))
      (hold : s.db.sessions.Has sid)
      (hh : ∀ h ∈ t.db.handles.rows, h.sid = sid → h ∈ s.db.handles.rows ∨ h.fh = fh)
      (htold : openedBy sid told = [] ∨ openedBy sid told = [fh])
  | created (hnew : s.db.sessions.get sid = none) (hraw : raw.nextFh = 2)
      (hmem : t.nextFh sid = some 2) (hh : t.db.handles = s.db.handles)
      (htold : openedBy sid told = [])

theorem DbEffect.not_opened {sid : Sid} {fh now : Nat} {db db' : Cldb} {req : Request}
    (h : DbEffect sid fh now db req db') (hreq : ∀ m, req ≠ .open m) :
    db'.sessions = db.sessions ∧ ∀ x ∈ db'.handles.rows, x ∈ db.handles.rows := by
  cases h with
  | «open» | create => exact absurd rfl (hreq _)
  | put | unlock => exact ⟨rfl, fun _ => id⟩
  | close => exact ⟨rfl, fun x hx => (Table.mem_del.mp hx).1⟩
  | del => exact ⟨rfl, fun x hx => (Table.mem_filter.mp hx).1⟩
  | lock handle mode add =>
    obtain ⟨lock, ls, -, -, -, -, -, -, rfl, -⟩ := cldbLockAdd_ok add
    exact ⟨rfl, fun _ => id⟩

theorem DbEffect.opened {sid : Sid} {fh now : Nat} {db db' : Cldb} {m : CldMsgOpen}
    (h : DbEffect sid fh now db (.open m) db') :
    ∃ raw inum, raw.sid = sid ∧ raw.nextFh = (fh + 1) % 2 ^ 64 ∧
      db'.sessions = db.sessions.put unordered raw ∧
      db'.handles = db.handles.put RawHandle.before (m.handle sid fh inum) := by
  cases h with
  | «open» valid inode dir hsess next => exact ⟨_, _, hsess, next, rfl, rfl⟩
  | create valid long absent unused above dir hparent hsess creates next =>
    exact ⟨_, _, hsess, next, rfl, rfl⟩

/-- Nothing but what requests other than `OPEN` do to the handle numbers of session `sid`. -/
theorem FhCase.of_same {s t : Server} {op : Op} {told : List Sent} {sid : Sid} {raw : RawSession}
    (ht : t.db.sessions.get sid = some raw) (hdb : t.db.sessions.get sid = s.db.sessions.get sid)
    (hh : ∀ h ∈ t.db.handles.rows, h ∈ s.db.handles.rows)
    (hfh : ∀ n, t.nextFh sid = some n → s.nextFh sid = some n) (htold : openedBy sid told = []) :
    FhCase s op t told sid raw :=
  .quiet (hdb.symm.trans ht) (fun n hn => .inl (hfh n hn)) (fun h hm _ => hh h hm) htold

/-- A request other than `OPEN`. -/
theorem handle_fhCase {e : Env} {s v : Server} {op : Op} {sid : Sid} {req : Request} {sess : Session}
    (hreq : ∀ m, req ≠ .open m) (hv : Idle s v) (hsent : v.sent = s.sent)
    (hsess : v.sessions.get sid = some sess) :
    ∃ told, (req.handle e op.faults sid v).sent = s.sent ++ told ∧
      ∀ k raw, (req.handle e op.faults sid v).db.sessions.get k = some raw →
        FhCase s op (req.handle e op.faults sid v) told k raw := by
  obtain ⟨told, htold, hsends⟩ := (handle_sessFrame e op.faults req hsess).sent
  have hquiet : ∀ k, openedBy k told = [] := by
    apply openedBy_none
    intro m hm
    cases hsends m hm with
    | event h => exact h.opened
    | generic | get => rfl
    | «open» m => exact absurd rfl (hreq m)
  have hvn : v.nextFh sid = some sess.nextFh := by simp [Server.nextFh, hsess]
  have hfh : ∀ k, (req.handle e op.faults sid v).nextFh k = s.nextFh k := by
    intro k
    rcases handle_nextFh e op.faults sid req v with h | ⟨⟨m, rfl⟩, -⟩
    · exact (h k).trans (hv.nextFh k)
    · exact absurd rfl (hreq m)
  have hdb : (req.handle e op.faults sid v).db.sessions = s.db.sessions ∧
      ∀ x ∈ (req.handle e op.faults sid v).db.handles.rows, x ∈ s.db.handles.rows := by
    rcases handle_db e op.faults req hvn with h | ⟨h, -⟩
    · rw [h, hv.db]
      exact ⟨rfl, fun _ => id⟩
    · rw [← hv.db]
      exact h.not_opened hreq
  refine ⟨told, by rw [htold, hsent], fun k raw hk => ?_⟩
  exact .of_same hk (by rw [hdb.1]) hdb.2 (fun n hn => (hfh k).symm.trans hn) (hquiet k)

/-- An `OPEN`. -/
theorem open_fhCase {e : Env} {s v : Server} {op : Op} {sid : Sid} {m : CldMsgOpen} {sess : Session}
    (hs : Stored s) (hr : op.request s = some (sid, .open m)) (hv : Idle s v)
    (hsent : v.sent = s.sent) (hsess : v.sessions.get sid = some sess) :
    ∃ told, (msgOpen e op.faults sid m v).sent = s.sent ++ told ∧
      ∀ k raw, (msgOpen e op.faults sid m v).db.sessions.get k = some raw →
        FhCase s op (msgOpen e op.faults sid m v) told k raw := by
  have hvn : v.nextFh sid = some sess.nextFh := by simp [Server.nextFh, hsess]
  have hsn : s.nextFh sid = some sess.nextFh := (hv.nextFh sid).symm.trans hvn
  have hopens : op.opens s sid = true := by simp [Op.opens, hr]
  have hstored : s.db.sessions.Has sid := hs.mem sid (has_iff_nextFh.mpr ⟨_, hsn⟩)
  obtain ⟨told, htold, hcase⟩ := msgOpen_opened e op.faults m hvn
  refine ⟨told, by rw [htold, hsent], fun k raw hk => ?_⟩
  have hnext := msgOpen_nextFh e op.faults sid m v
  rcases hcase with ⟨hdb, hquiet⟩ | ⟨heff, hmem, hself, hother⟩
  · rw [hdb, hv.db] at hk
    refine .quiet hk (fun n hn => ?_) (fun x hx _ => by rwa [hdb, hv.db] at hx) (hquiet k)
    rcases hnext with h | ⟨fh, hfh, h⟩
    · exact .inl (by rw [← hv.nextFh, ← h k, hn])
    · rw [h k] at hn
      split at hn
      · next heq =>
        subst heq
        exact .inr ⟨hopens, fh, (hv.nextFh k).symm.trans hfh, (Option.some.inj hn).symm⟩
      · exact .inl ((hv.nextFh k).symm.trans hn)
  · obtain ⟨raw', inum, hsid, hfh, hsessions, hhandles⟩ := heff.opened
    have hin : ∀ x ∈ (msgOpen e op.faults sid m v).db.handles.rows,
        x ∈ s.db.handles.rows ∨ x = m.handle sid sess.nextFh inum := by
      rw [hhandles, hv.db]
      exact fun x hx => (Table.mem_put.mp hx).symm.imp And.left id
    rw [hsessions, Table.get_put] at hk
    split at hk
    · next heq =>
      cases hk
      obtain rfl : k = sid := heq.trans hsid
      refine .opened hopens hsn hfh hmem hstored (fun x hx _ => ?_) hself
      exact (hin x hx).imp id fun h => by rw [h]; rfl
    · next hne =>
      have hne : k ≠ sid := fun h => hne (h.trans hsid.symm)
      rw [hv.db] at hk
      refine .quiet hk (fun n hn => .inl ?_) (fun x hx hxs => ?_) (hother k hne)
      · rcases hnext with h | ⟨fh, -, h⟩
        · rw [← hv.nextFh, ← h k, hn]
        · rw [h k, if_neg hne] at hn
          rw [← hv.nextFh, hn]
      · refine (hin x hx).resolve_right fun h => hne ?_
        rw [← hxs, h]
        rfl

/-- What a step sends, and what it does to the handle numbers of each session. -/
theorem step_fhCase (e : Env) {s : Server} (hs : Stored s) (op : Op) :
    ∃ told, (s.step e op).sent = s.sent ++ told ∧
      ∀ k raw, (s.step e op).db.sessions.get k = some raw →
        FhCase s op (s.step e op) told k raw := by
  cases step_cases e s op with
  | idle hr hd h =>
    obtain ⟨told, hsent, hplain⟩ := h.sent
    refine ⟨told, hsent, fun k raw hk => ?_⟩
    exact .of_same hk (by rw [h.db]) (by rw [h.db]; exact fun _ => id)
      (fun n hn => (h.nextFh k).symm.trans hn) (openedBy_none (fun m hm => (hplain m hm).2) k)
  | @created sid hr hd h =>
    obtain ⟨told, hsent, hplain⟩ := h.sent
    have hquiet := openedBy_none fun m hm => (hplain m hm).2
    obtain ⟨new, rfl, hfh, -, hdb⟩ := h.db
    refine ⟨told, hsent, fun k raw hk => ?_⟩
    rw [hdb, Table.get_put] at hk
    split at hk
    · next heq =>
      cases hk
      subst heq
      exact .created h.unused hfh (by simp [h.nextFh]) (by rw [hdb]) (hquiet _)
    · next hne =>
      refine .quiet hk (fun n hn => .inl ?_) (fun x hx _ => by rwa [hdb] at hx) (hquiet k)
      rwa [h.nextFh, if_neg hne] at hn
  | @request sid req v sess hr hd hv hsent htime hsess ht =>
    rw [ht]
    by_cases hopen : ∃ m, req = .open m
    · obtain ⟨m, rfl⟩ := hopen
      exact open_fhCase hs hr hv hsent hsess
    · exact handle_fhCase (fun m hm => hopen ⟨m, hm⟩) hv hsent hsess
  | @dispose sid hr hd ht =>
    have hsent : ∃ told, (s.step e op).sent = s.sent ++ told ∧ ∀ m ∈ told, IsLocked m := by
      rw [ht]
      rcases inTxn_end op.faults .err (sessionDispose e op.faults sid) s with h | ⟨db, h⟩
      · exact ⟨[], by simp [h], by simp⟩
      · rw [h]
        exact (sessionRemove_keeps e op.faults sid s).sent
    obtain ⟨told, hsent, hlocked⟩ := hsent
    have hquiet := openedBy_none fun m hm => (hlocked m hm).isEvent.opened
    have hfh : ∀ k n, (s.step e op).nextFh k = some n → s.nextFh k = some n := by
      rw [ht]
      exact fun k n hn => sessionDispose_nextFh hn
    refine ⟨told, hsent, fun k raw hk => ?_⟩
    rcases sessionDispose_db e op.faults sid s with hdb | ⟨hp, -⟩
    · rw [← ht] at hdb
      exact .of_same hk (by rw [hdb]) (by rw [hdb]; exact fun _ => id) (hfh k) (hquiet k)
    · rw [← ht] at hp
      refine .of_same hk ?_ hp.sub (hfh k) (hquiet k)
      rcases hp.sessions with h | ⟨h, -⟩
      · rw [h]
      · rw [h, Table.get_del, if_neg]
        rintro rfl
        rw [h, Table.get_del, if_pos rfl] at hk
        cases hk

/-! ## Runs -/

/-- The server with, for each session, the number of `OPEN`s it has made and the handle numbers they
returned. Both are forgotten with the session's record. -/
structure Opens where
  srv : Server
  opens : Sid → Nat
  fhs : Sid → List Nat

def Opens.init (now : Nat) : Opens := ⟨Server.init now, fun _ => 0, fun _ => []⟩

def Life.opens (srv : Server) (sid : Sid) : Life → Bool
  | .op o => o.opens srv sid
  | .restart .. => false

def Opens.live (e : Env) (w : Opens) (l : Life) : Opens :=
  let srv := w.srv.live e l
  let told := srv.sent.drop w.srv.sent.length
  { srv
    opens := fun sid =>
      if (srv.db.sessions.get sid).isNone then 0 else w.opens sid + (l.opens w.srv sid).toNat
    fhs := fun sid =>
      if (srv.db.sessions.get sid).isNone then [] else w.fhs sid ++ openedBy sid told }

/-- The handle numbers of a session with record `raw` after `opens` `OPEN`s that returned `fhs`:
numbers below `stored` have been stored, and numbers below `mem` taken. -/
def Counted (srv : Server) (sid : Sid) (raw : RawSession) (opens : Nat) (fhs : List Nat) : Prop :=
  ∃ (stored mem : Nat) (given : List Nat), 2 ≤ stored ∧ stored ≤ mem ∧ mem ≤ opens + 2 ∧
    raw.nextFh = stored % 2 ^ 64 ∧
    (∀ n, srv.nextFh sid = some n → n = mem % 2 ^ 64) ∧
    (∀ h ∈ srv.db.handles.rows, h.sid = sid → ∃ i, 2 ≤ i ∧ i < stored ∧ h.fh = i % 2 ^ 64) ∧
    fhs = given.map (· % 2 ^ 64) ∧ given.Nodup ∧ ∀ i ∈ given, 2 ≤ i ∧ i < stored

theorem Counted.step {s t : Server} {op : Op} {told : List Sent} {sid : Sid} {raw : RawSession}
    {opens : Nat} {fhs : List Nat} (hs : Stored s)
    (h : ∀ raw, s.db.sessions.get sid = some raw → Counted s sid raw opens fhs)
    (hnew : s.db.sessions.get sid = none → opens = 0 ∧ fhs = [])
    (hc : FhCase s op t told sid raw) :
    Counted t sid raw (opens + (op.opens s sid).toNat) (fhs ++ openedBy sid told) := by
  cases hc with
  | quiet hraw hmem hh htold =>
    obtain ⟨stored, mem, given, h2, hsm, hmo, hst, hm, hhs, hfhs, hnd, hg⟩ := h raw hraw
    rw [htold, List.append_nil]
    have hrows : ∀ x ∈ t.db.handles.rows, x.sid = sid →
        ∃ i, 2 ≤ i ∧ i < stored ∧ x.fh = i % 2 ^ 64 := fun x hx hxs => hhs x (hh x hx hxs) hxs
    by_cases htaken : op.opens s sid = true ∧ ∃ k, s.nextFh sid = some k ∧
        t.nextFh sid = some ((k + 1) % 2 ^ 64)
    · obtain ⟨hop, k, hk, ht⟩ := htaken
      refine ⟨stored, mem + 1, given, h2, by omega, by rw [hop, Bool.toNat_true]; omega, hst,
        fun n hn => ?_, hrows, hfhs, hnd, hg⟩
      have hkm := hm k hk
      rw [ht, Option.some.injEq] at hn
      omega
    · refine ⟨stored, mem, given, h2, hsm, by omega, hst, fun n hn => ?_, hrows, hfhs, hnd, hg⟩
      rcases hmem n hn with hsame | ⟨hop, k, hk, rfl⟩
      · exact hm n hsame
      · exact absurd ⟨hop, k, hk, hn⟩ htaken
  | @opened fh hop hfh hraw hmem hold hh htold =>
    obtain ⟨old, hget⟩ := Table.has_iff.mp hold
    obtain ⟨stored, mem, given, h2, hsm, hmo, hst, hm, hhs, hfhs, hnd, hg⟩ := h old hget
    have hfm := hm fh hfh
    rw [hop, Bool.toNat_true]
    -- the number just given is above all earlier ones
    have hfresh : mem ∉ given := fun hin => by
      have := hg mem hin
      omega
    have hlow : ∀ i ∈ given, 2 ≤ i ∧ i < mem + 1 := fun i hi => by
      have := hg i hi
      omega
    have hrows : ∀ x ∈ t.db.handles.rows, x.sid = sid →
        ∃ i, 2 ≤ i ∧ i < mem + 1 ∧ x.fh = i % 2 ^ 64 := by
      intro x hx hxs
      rcases hh x hx hxs with hin | heq
      · obtain ⟨i, hi, his, hif⟩ := hhs x hin hxs
        exact ⟨i, hi, by omega, hif⟩
      · exact ⟨mem, by omega, by omega, by rw [heq, hfm]⟩
    have hnext : ∀ n, t.nextFh sid = some n → n = (mem + 1) % 2 ^ 64 := by
      intro n hn
      rw [hmem, Option.some.injEq] at hn
      omega
    rcases htold with htold | htold
    · refine ⟨mem + 1, mem + 1, given, by omega, le_rfl, by omega, by omega, hnext, hrows, ?_, hnd,
        hlow⟩
      rw [htold, List.append_nil, hfhs]
    · refine ⟨mem + 1, mem + 1, given ++ [mem], by omega, le_rfl, by omega, by omega, hnext, hrows,
        ?_, ?_, ?_⟩
      · rw [htold, hfhs, hfm, List.map_append, List.map_cons, List.map_nil]
      · rw [List.nodup_append_comm]
        exact List.nodup_cons.mpr ⟨hfresh, hnd⟩
      · intro i hi
        rcases List.mem_append.mp hi with hi | hi
        · exact hlow i hi
        · rw [List.mem_singleton.mp hi]
          omega
  | created hget hraw hmem hh htold =>
    obtain ⟨rfl, rfl⟩ := hnew hget
    refine ⟨2, 2, [], le_rfl, le_rfl, by omega, by omega, fun n hn => ?_, fun x hx hxs => ?_,
      by simp [htold], List.nodup_nil, by simp⟩
    · rw [hmem, Option.some.injEq] at hn
      omega
    · -- no handle is stored without its session
      rw [hh] at hx
      exact absurd (hxs ▸ hs.handle x hx) (Table.get_none_iff.mp hget)

/-- What holds in every state of a run. -/
structure Opens.Ok (w : Opens) : Prop where
  stored : Stored w.srv
  counted : ∀ sid raw, w.srv.db.sessions.get sid = some raw →
    Counted w.srv sid raw (w.opens sid) (w.fhs sid)
  new : ∀ sid, w.srv.db.sessions.get sid = none → w.opens sid = 0 ∧ w.fhs sid = []

theorem Opens.Ok.live (e : Env) {w : Opens} (h : w.Ok) (l : Life) : (w.live e l).Ok := by
  refine ⟨h.stored.live e l, fun sid raw hraw => ?_, fun sid hnone => ?_⟩
  · have hstored : ((w.srv.live e l).db.sessions.get sid).isNone = false := by
      change (w.srv.live e l).db.sessions.get sid = some raw at hraw
      simp [hraw]
    simp only [Opens.live, hstored, Bool.false_eq_true, if_false]
    cases l with
    | op op =>
      obtain ⟨told, hsent, hcase⟩ := step_fhCase e h.stored op
      have htold : (w.srv.step e op).sent.drop w.srv.sent.length = told := by
        rw [hsent, List.drop_left]
      simp only [Server.live, htold, Life.opens]
      exact .step h.stored (h.counted sid) (h.new sid) (hcase sid raw hraw)
    | restart now timerFails =>
      have hdb : (w.srv.restart now timerFails).db.sessions = w.srv.db.sessions := by
        simp [Server.restart]
      have hget : w.srv.db.sessions.get sid = some raw := hdb ▸ hraw
      obtain ⟨stored, mem, given, h2, hsm, hmo, hst, hm, hhs, hfhs, hnd, hg⟩ :=
        h.counted sid raw hget
      have htold : (w.srv.restart now timerFails).sent.drop w.srv.sent.length = [] := by
        simp [Server.restart]
      simp only [Server.live, htold, Life.opens, Bool.toNat_false, Nat.add_zero]
      refine ⟨stored, stored, given, h2, le_rfl, by omega, hst, fun n hn => ?_, ?_, ?_, hnd, hg⟩
      · simp only [Server.nextFh, Option.map_eq_some_iff] at hn
        obtain ⟨sess, hsess, rfl⟩ := hn
        obtain ⟨raw', hraw', hdec⟩ := restart_get hsess
        obtain rfl : raw = raw' := Option.some.inj (hget.symm.trans hraw')
        rw [(sessionDecode_some hdec).2.1, hst]
      · simpa [Server.restart] using hhs
      · simpa [openedBy] using hfhs
  · change (w.srv.live e l).db.sessions.get sid = none at hnone
    simp [Opens.live, hnone]

theorem Opens.Ok.init (now : Nat) : (Opens.init now).Ok := by
  refine ⟨.init now, fun sid raw h => ?_, fun _ _ => ⟨rfl, rfl⟩⟩
  simp [Opens.init, Server.init, Table.empty, Table.get] at h

/-- Numbers that differ by less than `2 ^ 64` stay different when they are cut. -/
theorem nodup_map_mod {given : List Nat} {n m : Nat} (h : given.Nodup)
    (hg : ∀ i ∈ given, n ≤ i ∧ i < m) (hm : m ≤ n + 2 ^ 64) : (given.map (· % 2 ^ 64)).Nodup := by
  refine List.Nodup.map_on (fun i hi j hj hij => ?_) h
  have h1 := hg i hi
  have h2 := hg j hj
  have h3 : i % 2 ^ 64 = j % 2 ^ 64 := hij
  omega

/-- The handle numbers that a session is given are all different, and those stored are below the
number that is stored for the next one, until the numbers wrap. -/
theorem run_fhs_distinct (e : Env) (now : Nat) (ls : List Life) (sid : Sid) :
    ((run (Opens.live e) (Opens.init now) ls).opens sid < 2 ^ 64 →
        ((run (Opens.live e) (Opens.init now) ls).fhs sid).Nodup) ∧
      ((run (Opens.live e) (Opens.init now) ls).opens sid < 2 ^ 64 - 2 →
        ∀ raw, (run (Opens.live e) (Opens.init now) ls).srv.db.sessions.get sid = some raw →
          ∀ h ∈ (run (Opens.live e) (Opens.init now) ls).srv.db.handles.rows,
            h.sid = sid → h.fh < raw.nextFh) := by
  have hok : (run (Opens.live e) (Opens.init now) ls).Ok :=
    run_invariant (.init now) (fun w l hw => hw.live e l) ls
  generalize run (Opens.live e) (Opens.init now) ls = w at hok ⊢
  constructor
  · intro hopens
    cases hraw : w.srv.db.sessions.get sid with
    | none => simp [(hok.new sid hraw).2]
    | some raw =>
      obtain ⟨stored, mem, given, h2, hsm, hmo, -, -, -, hfhs, hnd, hg⟩ := hok.counted sid raw hraw
      rw [hfhs]
      exact nodup_map_mod hnd hg (by omega)
  · intro hopens raw hraw x hx hxs
    obtain ⟨stored, mem, given, h2, hsm, hmo, hst, -, hhs, -⟩ := hok.counted sid raw hraw
    obtain ⟨i, hi, his, hif⟩ := hhs x hx hxs
    omega

/-- A short run: two handles and a restart in between. -/
def restartedRun : List Life :=
  [.op (.newSess 1), .op (.open 1 comDirectory [slash]), .restart 7 fun _ => false,
    .op (.open 1 comDirectory [slash])]

theorem run_fhs_distinct_restarted :
    (run (Opens.live .plain) (Opens.init 0) restartedRun).fhs 1 = [2, 3] ∧
      [2, 3].Nodup ∧
      ∀ raw, (run (Opens.live .plain) (Opens.init 0) restartedRun).srv.db.sessions.get 1 = some raw →
        ∀ h ∈ (run (Opens.live .plain) (Opens.init 0) restartedRun).srv.db.handles.rows,
          h.sid = 1 → h.fh < raw.nextFh := by
  have hfhs : (run (Opens.live .plain) (Opens.init 0) restartedRun).fhs 1 = [2, 3] := by
    decide +kernel
  have hopens : (run (Opens.live .plain) (Opens.init 0) restartedRun).opens 1 = 2 := by
    decide +kernel
  have h := run_fhs_distinct .plain 0 restartedRun 1
  rw [hfhs, hopens] at h
  exact ⟨hfhs, h.1 (by decide), h.2 (by decide)⟩

/-! ## The numbers wrap -/

theorem slash_length_le : [slash].length ≤ cldInodeNameMax := by decide

theorem slash_noNul : ∀ b ∈ [slash], b ≠ 0 := by decide

/-- Session 1 opens the root directory. -/
def rootOpen : CldMsgOpen := ⟨comDirectory, 0, [slash], slash_length_le, slash_noNul⟩

def Op.openRoot : Op := .open 1 comDirectory [slash]

/-- Session 1 can open the root directory, and gets number `n`. -/
structure OpensRoot (s : Server) (n : Nat) : Prop where
  sess : ∃ sess, s.sessions.get 1 = some sess ∧ sess.user = User.cli ∧ sess.addr = [] ∧
    sess.dead = false ∧ sess.nextFh = n
  root : ∃ ino, s.db.byname [slash] = some ino ∧ has ino.flags ciflDir = true

theorem OpensRoot.txn {s : Server} {n : Nat} (h : OpensRoot s n) :
    ∃ t, msgOpenTxn .plain .none 1 rootOpen s = (.ok n, t) := by
  obtain ⟨⟨sess, hs, -, -, -, rfl⟩, ino, hroot, hdir⟩ := h
  have hsid : sess.sid = 1 := get_sid hs
  have hfind : msgOpenFind .none rootOpen s = (.ok (some ino), s) := by
    simp only [msgOpenFind, Txn.bind_ok, Txn.onErr_ok, Txn.failIf_ok, Txn.pure_ok, dbGet_ok]
    have hv : validInodeName rootOpen.inodeName.bytes = true := by decide
    have hby : cldbInodeGetByname .none 0 s.db rootOpen.inodeName.bytes = .ok ino := by
      simp only [cldbInodeGetByname, Faults.guard_ok, found_ok]
      exact ⟨rfl, hroot⟩
    refine ⟨⟨⟩, s, ⟨by rw [hv]; rfl, rfl⟩, some ino, s, ⟨by rw [hby], rfl⟩, ⟨⟩, s, ⟨rfl, rfl⟩, ⟨⟩, s,
      ⟨rfl, rfl⟩, ⟨⟩, s, ⟨?_, rfl⟩, rfl, rfl⟩
    have hd : has rootOpen.mode comDirectory = true := by decide
    simp [hdir, hd]
  set sess' : Session := { sess with nextFh := (sess.nextFh + 1) % 2 ^ 64 } with hsess'
  have hnew : cldbHandleNew .none 1 ino.inum rootOpen.mode rootOpen.events s =
      (.ok ⟨1, sess.nextFh, ino.inum, rootOpen.mode, rootOpen.events⟩, s.putSess sess') := by
    simp [cldbHandleNew, hs, hsess']
  have hget : (s.putSess sess').sessions.get 1 = some sess' := by
    rw [Server.putSess, Table.get_put, if_pos hsid.symm]
  have hstore : ∃ t, msgOpenStore .plain .none 1 rootOpen false ino s = (.ok sess.nextFh, t) := by
    simp only [msgOpenStore, Txn.bind_ok, Txn.onErr_ok, Txn.failIf_ok, Txn.read_ok, Txn.pure_ok,
      dbPut_ok, cldbHandlePut, Faults.guard_ok]
    exact ⟨_, _, _, hnew, ⟨⟩, _, ⟨_, ⟨rfl, rfl⟩, rfl⟩, ⟨⟩, _, Txn.pure_ok.mpr ⟨rfl, rfl⟩, _, _,
      ⟨hget, rfl⟩, ⟨⟩, _, ⟨rfl, rfl⟩, ⟨⟩, _, ⟨_, rfl, rfl⟩, rfl, rfl⟩
  obtain ⟨t, ht⟩ := hstore
  exact ⟨t, Txn.bind_ok.mpr ⟨some ino, s, hfind, Txn.bind_ok.mpr ⟨ino, s, rfl, ht⟩⟩⟩

theorem OpensRoot.step {s : Server} {n : Nat} (h : OpensRoot s n) :
    OpensRoot (s.step .plain .openRoot) ((n + 1) % 2 ^ 64) ∧
      (∃ raw, (s.step .plain .openRoot).db.sessions.get 1 = some raw ∧
        raw.nextFh = (n + 1) % 2 ^ 64) ∧
      ∃ x ∈ (s.step .plain .openRoot).db.handles.rows, x.sid = 1 ∧ x.fh = n := by
  obtain ⟨sess, hs, hu, ha, hd, hfh⟩ := h.sess
  have hlen : (Xdr.putInt comDirectory ++ Xdr.putInt 0 ++
      (Xdr.putVar cldInodeNameMax [slash]).getD []).length ≤ cldMaxMsgSz := by decide
  have hstep : s.step .plain .openRoot = (Request.open rootOpen).handle .plain .none 1 _ :=
    step_msg .plain hs hu ha hd hlen rfl rfl
  rw [hstep]
  set sess' : Session := sess.takes _ _ _ with hsess'
  set v : Server := Server.note _ _ with hv
  have hvs : v.sessions.get 1 = some sess' := by
    have hsid : 1 = sess'.sid := (get_sid hs).symm
    rw [hv, Server.note, Server.putSess, Table.get_put, if_pos hsid]
  have hvr : OpensRoot v n := ⟨⟨sess', hvs, hu, ha, hd, hfh⟩, h.root⟩
  obtain ⟨t, ht⟩ := hvr.txn
  have hvn : v.nextFh 1 = some n := by
    rw [Server.nextFh, hvs, Option.map_some]
    exact congrArg some hfh
  obtain ⟨-, hnext, heff⟩ := msgOpenTxn_ok hvn ht
  have hin : inTxn .none CleErrCodes.dbErr (msgOpenTxn .plain .none 1 rootOpen) v = (.ok n, t) :=
    inTxn_ok.mpr ⟨rfl, rfl, ht⟩
  have hend : SendFrame (fun _ => True) t ((Request.open rootOpen).handle .plain .none 1 v) := by
    simp only [Request.handle, msgOpen, hin]
    split
    · exact .refl _ t
    · exact (sessSendmsg_frame ..).mono fun _ _ => trivial
  obtain ⟨sess'', hg, hcore⟩ := (handle_sessFrame .plain .none (.open rootOpen) hvs).get' hvs
  have huser : sess''.core.user = sess'.core.user := by rw [hcore]
  have haddr : sess''.core.addr = sess'.core.addr := by rw [hcore]
  have hdead : sess''.core.dead = sess'.core.dead := by rw [hcore]
  rw [← hend.nextFh 1, Server.nextFh, hg] at hnext
  have hsame : t.db.byname [slash] = v.db.byname [slash] := by
    obtain ⟨ino, hino, -⟩ := hvr.root
    generalize t.db = db at heff ⊢
    cases heff with
    | «open» => rfl
    | create valid long absent =>
      rw [show v.db.byname [slash] = none from absent] at hino
      cases hino
  obtain ⟨raw, inum, hraw, hrfh, hsessions, hhandles⟩ := heff.opened
  rw [← hend.db] at hsessions hhandles hsame
  refine ⟨⟨⟨sess'', hg, huser.trans hu, haddr.trans ha, hdead.trans hd, Option.some.inj hnext⟩, ?_⟩,
    ⟨raw, ?_, hrfh⟩, rootOpen.handle 1 n inum, ?_, rfl, rfl⟩
  · rw [hsame]
    exact hvr.root
  · rw [hsessions, Table.get_put, if_pos hraw.symm]
  · rw [hhandles, Table.mem_put]
    exact .inl rfl

theorem OpensRoot.run {s : Server} {n : Nat} (h : OpensRoot s n) (hn : n < 2 ^ 64) (k : Nat) :
    OpensRoot (run (Server.live .plain) s (List.replicate k (.op .openRoot))) ((n + k) % 2 ^ 64) := by
  induction k generalizing s n with
  | zero => rwa [Nat.add_zero, Nat.mod_eq_of_lt hn]
  | succ k ih =>
    have hrest := ih h.step.1 (Nat.mod_lt _ (by norm_num))
    rwa [Nat.mod_add_mod, Nat.add_assoc, Nat.add_comm 1] at hrest

theorem run_srv (e : Env) (w : Opens) (ls : List Life) :
    (run (Opens.live e) w ls).srv = run (Server.live e) w.srv ls := by
  induction ls generalizing w with
  | nil => rfl
  | cons l ls ih => exact ih (w.live e l)

theorem run_opens_le (e : Env) (w : Opens) (ls : List Life) (sid : Sid) :
    (run (Opens.live e) w ls).opens sid ≤ w.opens sid + ls.length := by
  induction ls generalizing w with
  | nil => exact le_rfl
  | cons l ls ih =>
    have hstep : (w.live e l).opens sid ≤ w.opens sid + 1 := by
      have hone := Bool.toNat_le (l.opens w.srv sid)
      simp only [Opens.live]
      split <;> omega
    have hrest := ih (w.live e l)
    rw [List.length_cons]
    change (Library.run (Opens.live e) (w.live e l) ls).opens sid ≤ _
    omega

/-- Session 1 opens the root directory `k + 1` times. -/
def rootRun (k : Nat) : List Life :=
  .op (.newSess 1) :: (List.replicate k (.op .openRoot) ++ [.op .openRoot])

theorem rootRun_stored (k : Nat) :
    (run (Opens.live .plain) (Opens.init 0) (rootRun k)).opens 1 ≤ k + 2 ∧
      ∃ raw, (run (Opens.live .plain) (Opens.init 0) (rootRun k)).srv.db.sessions.get 1 = some raw ∧
        raw.nextFh = (k + 3) % 2 ^ 64 ∧
        ∃ x ∈ (run (Opens.live .plain) (Opens.init 0) (rootRun k)).srv.db.handles.rows,
          x.sid = 1 ∧ x.fh = (k + 2) % 2 ^ 64 := by
  constructor
  · have hle := run_opens_le .plain (Opens.init 0) (rootRun k) 1
    have h0 : (Opens.init 0).opens 1 = 0 := rfl
    simp only [rootRun, List.length_cons, List.length_append, List.length_replicate,
      List.length_nil] at hle ⊢
    omega
  · have h0 : OpensRoot ((Server.init 0).step .plain (.newSess 1)) 2 := by
      refine ⟨?_, rootInode 0, by decide +kernel, by decide⟩
      have hsess : (((Server.init 0).step .plain (.newSess 1)).sessions.get 1).map
          (fun x => (x.user, x.addr, x.dead, x.nextFh)) = some (User.cli, [], false, 2) := by
        decide +kernel
      obtain ⟨sess, hg, hf⟩ := Option.map_eq_some_iff.mp hsess
      simp only [Prod.mk.injEq] at hf
      exact ⟨sess, hg, hf⟩
    obtain ⟨-, ⟨raw, hraw, hnext⟩, x, hx, hsid, hfh⟩ := (h0.run (by norm_num) k).step
    have hrun : (run (Opens.live .plain) (Opens.init 0) (rootRun k)).srv =
        (run (Server.live .plain) ((Server.init 0).step .plain (.newSess 1))
          (List.replicate k (.op .openRoot))).step .plain .openRoot := by
      rw [run_srv, rootRun, run, run_append]
      rfl
    rw [hrun]
    exact ⟨raw, hraw, by omega, x, hx, hsid, by omega⟩

/-- After `2 ^ 64 - 2` openings the number for the next handle is 0. -/
theorem wrapping_stored :
    ¬ ∀ (e : Env) (now : Nat) (ls : List Life) (sid : Sid),
      (run (Opens.live e) (Opens.init now) ls).opens sid < 2 ^ 64 →
        ((run (Opens.live e) (Opens.init now) ls).fhs sid).Nodup ∧
        ∀ raw, (run (Opens.live e) (Opens.init now) ls).srv.db.sessions.get sid = some raw →
          ∀ h ∈ (run (Opens.live e) (Opens.init now) ls).srv.db.handles.rows,
            h.sid = sid → h.fh < raw.nextFh := by
  intro hall
  -- the number stays opaque: the run is not to be unfolded
  obtain ⟨k, hk⟩ : ∃ k, k = 2 ^ 64 - 3 := ⟨_, rfl⟩
  obtain ⟨hopens, raw, hraw, hnext, x, hx, hsid, hfh⟩ := rootRun_stored k
  have hlt := (hall .plain 0 (rootRun k) 1 (by omega)).2 raw hraw x hx hsid
  omega

end Hail.Cld
