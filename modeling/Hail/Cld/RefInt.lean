import Hail.Cld.Step
import Hail.Library.Run

/-!
# Referential integrity of the database

Locks belong to handles opened for locking, handles to sessions and inodes. Two things break this:
`msg_del` deletes the handles on an inode and leaves their locks behind, and `session_remove`
returns success when it runs out of memory half way. A handle number is also reused once a session
has opened `2 ^ 64` handles.
-/
namespace Hail.Cld

open Library

structure RefInt (db : Cldb) : Prop where
  lock : ∀ i, ∀ l ∈ db.locks i, l.inum = i ∧ ∃ h ∈ db.handles.rows, h.key = (l.sid, l.fh) ∧
    h.inum = i ∧ has h.mode comLock = true
  session : ∀ h ∈ db.handles.rows, db.sessions.Has h.sid
  inode : ∀ h ∈ db.handles.rows, db.inodes.Has h.inum

/-- The step neither opens a handle when the numbers of its session are used up, nor deletes an
inode with locks on it. -/
def Op.intact (s : Server) (op : Op) : Bool :=
  match op.request s with
  | some (sid, .open _) => s.nextFh sid != some 0
  | some (_, .del name) => (s.db.byname name.bytes).all fun ino => (s.db.locks ino.inum).isEmpty
  | _ => true

/-- Nor does it end a session without the memory to do so. -/
def Intact (s : Server) (op : Op) : Prop :=
  op.intact s = true ∧ ((op.disposes s).isSome = true → op.faults.CanGrow)

theorem Intact.nextFh {s : Server} {op : Op} (h : Intact s op) {sid : Sid} {m : CldMsgOpen}
    (hr : op.request s = some (sid, .open m)) : s.nextFh sid ≠ some 0 := by
  simpa [Op.intact, hr] using h.1

theorem Intact.locks {s : Server} {op : Op} (h : Intact s op) {sid : Sid} {name : InodeName}
    {ino : RawInode} (hr : op.request s = some (sid, .del name))
    (hi : s.db.byname name.bytes = some ino) : s.db.locks ino.inum = [] := by
  simpa [Op.intact, hr, hi] using h.1

/-- The numbers below which a session's handles lie; zero comes after `2 ^ 64 - 1`. -/
def fhBound (n : Nat) : Nat := if n = 0 then 2 ^ 64 else n

/-- The invariant of runs: handle numbers not yet given out are unused. -/
structure Linked (s : Server) : Prop where
  ref : RefInt s.db
  small : ∀ sid n, s.nextFh sid = some n → n < 2 ^ 64
  unused : ∀ sid n, s.nextFh sid = some n → ∀ h ∈ s.db.handles.rows, h.sid = sid → h.fh < fhBound n

theorem fhBound_succ {n : Nat} (h : n < 2 ^ 64) (h0 : n ≠ 0) :
    fhBound n = n ∧ n < fhBound ((n + 1) % 2 ^ 64) := by
  unfold fhBound
  refine ⟨by simp [h0], ?_⟩
  by_cases hn : n + 1 = 2 ^ 64
  · rw [hn, Nat.mod_self, if_pos rfl]
    exact h
  · rw [Nat.mod_eq_of_lt (by omega), if_neg (by omega)]
    omega

/-- A database that keeps inodes and sessions, and handles but for those whose locks are gone. -/
theorem RefInt.mono {a b : Cldb} (ha : RefInt a) (hs : ∀ k, a.sessions.Has k → b.sessions.Has k)
    (hi : ∀ h ∈ b.handles.rows, a.inodes.Has h.inum → b.inodes.Has h.inum)
    (hh : ∀ h ∈ b.handles.rows, h ∈ a.handles.rows)
    (hl : ∀ i, ∀ l ∈ b.locks i, l ∈ a.locks i ∧ ∀ h ∈ a.handles.rows, h.key = (l.sid, l.fh) →
      h.inum = i → has h.mode comLock = true → h ∈ b.handles.rows) : RefInt b where
  lock i l hm := by
    obtain ⟨hmem, hkeep⟩ := hl i l hm
    obtain ⟨heq, h, hh', hk, hinum, hmode⟩ := ha.lock i l hmem
    exact ⟨heq, h, hkeep h hh' hk hinum hmode, hk, hinum, hmode⟩
  session h hm := hs _ (ha.session h (hh h hm))
  inode h hm := hi h hm (ha.inode h (hh h hm))

/-- Adding a handle whose key is not in use. -/
theorem RefInt.addHandle {a : Cldb} (ha : RefInt a) {h : RawHandle} {sess : RawSession}
    (hs : sess.sid = h.sid) (hi : a.inodes.Has h.inum) (hk : ¬ a.handles.Has h.key) :
    RefInt (a.addHandle h sess) where
  lock i l hm := by
    obtain ⟨heq, x, hx, hxk, hinum, hmode⟩ := ha.lock i l hm
    refine ⟨heq, x, Table.mem_put.mpr (.inr ⟨hx, fun he => hk ⟨x, hx, he⟩⟩), hxk, hinum, hmode⟩
  session x hx := by
    rcases Table.mem_put.mp hx with rfl | ⟨hx, -⟩
    · exact Table.has_put.mpr (.inl hs.symm)
    · exact Table.has_put.mpr (.inr (ha.session x hx))
  inode x hx := by
    rcases Table.mem_put.mp hx with rfl | ⟨hx, -⟩
    · exact hi
    · exact ha.inode x hx

theorem RefInt.effect {db db' : Cldb} {sid : Sid} {fh now : Nat} {req : Request} (hdb : RefInt db)
    (hfh : ∀ m, req = .open m → ¬ db.handles.Has (sid, fh))
    (hdel : ∀ name ino, req = .del name → db.byname name.bytes = some ino →
      db.locks ino.inum = [])
    (h : DbEffect sid fh now db req db') : RefInt db' := by
  cases h with
  | put handle write file inode =>
    exact hdb.mono (fun _ h => h) (fun h _ hi => Table.has_put.mpr (.inr hi)) (fun _ h => h)
      fun i l hl => ⟨hl, fun h hh _ _ _ => hh⟩
  | «open» valid inode dir hsess =>
    exact hdb.addHandle hsess ⟨_, (byname_eq_some inode).1, rfl⟩ (hfh _ rfl)
  | create valid long absent unused above dir hparent hsess =>
    refine RefInt.addHandle ?_ hsess (Table.has_put.mpr (.inl rfl)) (hfh _ rfl)
    exact hdb.mono (fun _ h => h)
      (fun h _ hi => Table.has_put.mpr (.inr (Table.has_put.mpr (.inr hi)))) (fun _ h => h)
      fun i l hl => ⟨hl, fun h hh _ _ _ => hh⟩
  | @close n h handle =>
    obtain ⟨hmem, hkey⟩ := Table.mem_get.mp handle
    refine hdb.mono (fun _ h => h) (fun h _ hi => hi) (fun x hx => (Table.mem_del.mp hx).1)
      fun i l hl => ?_
    by_cases hi : i = h.lockInum
    · subst hi
      rw [setLocks_self, mem_keptLocks] at hl
      refine ⟨hl.1, fun x hx hk _ _ => Table.mem_del.mpr ⟨hx, fun he => ?_⟩⟩
      -- a lock of the closed handle would have been removed
      have hlk : (l.sid, l.fh) = (sid, n) := hk.symm.trans he
      simp only [Prod.mk.injEq] at hlk
      simp [lmatch, hlk.1, hlk.2] at hl
    · rw [setLocks_of_ne _ _ hi] at hl
      refine ⟨hl, fun x hx hk hxi hmode => Table.mem_del.mpr ⟨hx, fun he => hi ?_⟩⟩
      have hxh := Table.eq_of_key hx hmem (he.trans hkey.symm)
      rw [RawHandle.lockInum, ← hxh, if_pos hmode, hxi]
  | @del name ino parent old data size valid long hparent hold inode empty entry =>
    have hempty := hdel name ino rfl inode
    refine hdb.mono (fun _ h => h) (fun h hh hi => ?_) (fun x hx => (Table.mem_filter.mp hx).1)
      fun i l hl => ⟨hl, fun x hx hk hxi hmode => Table.mem_filter.mpr ⟨hx, ?_⟩⟩
    · have hne := (Table.mem_filter.mp hh).2
      exact Table.has_put.mpr (.inr (Table.has_del.mpr ⟨hi, by simpa using hne⟩))
    · simp only [ne_eq, decide_not, Bool.not_eq_true', decide_eq_false_iff_not, hxi]
      rintro rfl
      change l ∈ db.locks ino.inum at hl
      simp [hempty] at hl
  | @unlock n h ls handle mode scan =>
    obtain ⟨pre, l, post, hls, rfl, -, -, -⟩ := lockDelScan_split scan
    refine hdb.mono (fun _ h => h) (fun _ _ h => h) (fun _ h => h) fun i x hx =>
      ⟨?_, fun h hh _ _ _ => hh⟩
    by_cases hi : i = h.inum
    · subst hi
      rw [setLocks_self] at hx
      rw [hls]
      exact (List.sublist_cons_self l post).append_left pre |>.mem hx
    · rwa [setLocks_of_ne _ _ hi] at hx
  | @lock n flags h wait acquired ft db' handle mode add =>
    obtain ⟨lock, ls, hinum, hsid, hlfh, -, -, hperm, rfl, -⟩ := cldbLockAdd_ok add
    obtain ⟨hmem, hkey⟩ := Table.mem_get.mp handle
    refine ⟨fun i x hx => ?_, hdb.session, hdb.inode⟩
    by_cases hi : i = h.inum
    · subst hi
      rw [setLocks_self, hperm.mem_iff, List.mem_cons] at hx
      rcases hx with rfl | hx
      · exact ⟨hinum, h, hmem, by rw [hkey, hsid, hlfh], rfl, mode⟩
      · exact hdb.lock _ x hx
    · rw [setLocks_of_ne _ _ hi] at hx
      exact hdb.lock i x hx

/-- When a session has ended, its lock records and no others are gone. -/
theorem RefInt.mem_pruned {a b : Cldb} {ft : Faults} {sid : Sid} (ha : RefInt a)
    (h : Pruned ft sid a b) (hg : ft.CanGrow) {i : Inum} {l : RawLock} :
    l ∈ b.locks i ↔ l ∈ a.locks i ∧ l.sid ≠ sid := by
  have hkept : l ∈ keptLocks sid 0 (a.locks i) ↔ l ∈ a.locks i ∧ l.sid ≠ sid := by
    rw [mem_keptLocks, ← Bool.not_eq_true, lmatch_zero]
  rcases h.locks i with he | ⟨-, he⟩
  · rw [he]
    refine ⟨fun hl => ⟨hl, fun hs => ?_⟩, fun hl => hl.1⟩
    -- the handle of a lock of the session puts its inode among those the locks are removed from
    obtain ⟨-, x, hx, hk, hinum, hmode⟩ := ha.lock i l hl
    have hxs : x.sid = sid := (congrArg Prod.fst hk).trans hs
    rw [← he, h.unlocked hg i (mem_lockInums.mpr ⟨x, hx, hxs, hmode, hinum⟩), hkept] at hl
    exact hl.2 hs
  · rw [he, hkept]

theorem RefInt.pruned {a b : Cldb} {ft : Faults} {sid : Sid} (ha : RefInt a)
    (h : Pruned ft sid a b) (hg : ft.CanGrow) : RefInt b := by
  constructor
  case lock =>
    intro i l hl
    obtain ⟨hmem, hne⟩ := (ha.mem_pruned h hg).mp hl
    obtain ⟨heq, x, hx, hk, hinum, hmode⟩ := ha.lock i l hmem
    have hxs : x.sid = l.sid := congrArg Prod.fst hk
    exact ⟨heq, x, h.keep x hx (hxs ▸ hne), hk, hinum, hmode⟩
  case session =>
    intro x hx
    rw [h.deleted hg, Table.has_del]
    exact ⟨ha.session x (h.sub x hx), h.gone hg x hx⟩
  case inode =>
    intro x hx
    rw [h.inodes]
    exact ha.inode x (h.sub x hx)

theorem Linked.init (now : Nat) : Linked (Server.init now) where
  ref := ⟨by simp [Server.init], by simp [Server.init, Table.empty], by simp [Server.init, Table.empty]⟩
  small := by simp [Server.init, Server.nextFh, Table.empty, Table.get]
  unused := by simp [Server.init, Server.nextFh, Table.empty, Table.get]

/-- The numbers of handles stay below the next one when only `op` takes a number. -/
theorem Linked.keep_unused {s t : Server} {op : Op} (hs : Linked s) (hok : Intact s op)
    (hfh : FhStep s op t) {sid : Sid} {n : Nat} (hn : t.nextFh sid = some n) :
    n < 2 ^ 64 ∧ ∀ h ∈ s.db.handles.rows, h.sid = sid → h.fh < fhBound n := by
  rcases hfh sid n hn with hn | ⟨k, m, hr, hk, rfl⟩
  · exact ⟨hs.small sid n hn, hs.unused sid n hn⟩
  · have h0 : k ≠ 0 := fun h0 => hok.nextFh hr (h0 ▸ hk)
    obtain ⟨heq, hlt⟩ := fhBound_succ (hs.small sid k hk) h0
    refine ⟨Nat.mod_lt _ (by decide), fun h hm hsid => ?_⟩
    have hb := hs.unused sid k hk h hm hsid
    omega

/-- The handles a committed request leaves: those of before, and one with the next number. -/
theorem DbEffect.handles_sub {sid : Sid} {fh now : Nat} {db db' : Cldb} {req : Request}
    (h : DbEffect sid fh now db req db') :
    ∀ x ∈ db'.handles.rows, x ∈ db.handles.rows ∨ (∃ m, req = .open m) ∧ x.key = (sid, fh) := by
  intro x hx
  cases h with
  | put | unlock => exact .inl hx
  | «open» | create =>
    rcases Table.mem_put.mp hx with rfl | ⟨hx, -⟩
    · exact .inr ⟨⟨_, rfl⟩, rfl⟩
    · exact .inl hx
  | close => exact .inl (Table.mem_del.mp hx).1
  | del => exact .inl (Table.mem_filter.mp hx).1
  | lock handle mode add =>
    obtain ⟨lock, ls, -, -, -, -, -, -, rfl, -⟩ := cldbLockAdd_ok add
    exact .inl hx

theorem Linked.step {s : Server} (hs : Linked s) (e : Env) (op : Op) (hok : Intact s op) :
    Linked (s.step e op) := by
  cases step_db e s op with
  | same hdb hfh =>
    refine ⟨hdb ▸ hs.ref, fun sid n hn => (hs.keep_unused hok hfh hn).1, fun sid n hn => ?_⟩
    rw [hdb]
    exact (hs.keep_unused hok hfh hn).2
  | @created sid h =>
    obtain ⟨raw, hraw, -, -, hdb⟩ := h.db
    have hold : ∀ x ∈ s.db.handles.rows, x.sid ≠ sid := by
      rintro x hx rfl
      exact Table.get_none_iff.mp h.unused (hs.ref.session x hx)
    have hn : ∀ k n, (s.step e op).nextFh k = some n → k = sid ∧ n = 2 ∨ s.nextFh k = some n := by
      intro k n hk
      rw [h.nextFh k] at hk
      split at hk
      · next hks => exact .inl ⟨hks, (Option.some.inj hk).symm⟩
      · exact .inr hk
    constructor
    · rw [hdb]
      exact hs.ref.mono (fun _ hk => Table.has_put.mpr (.inr hk)) (fun _ _ hi => hi)
        (fun _ hh => hh) fun i l hl => ⟨hl, fun _ hh _ _ _ => hh⟩
    · intro k n hk
      rcases hn k n hk with ⟨-, rfl⟩ | hk
      · norm_num
      · exact hs.small k n hk
    · intro k n hk x hx hxs
      rw [hdb] at hx
      rcases hn k n hk with ⟨rfl, -⟩ | hk
      · exact absurd hxs (hold x hx)
      · exact hs.unused k n hk x hx hxs
  | @effect sid req fh hr hn h hopen hfh =>
    have h0 : ∀ m, req = .open m → fh ≠ 0 := by
      rintro m rfl rfl
      exact hok.nextFh hr hn
    refine ⟨hs.ref.effect ?_ (fun name ino hreq => hok.locks (hreq ▸ hr)) h,
      fun k n hk => (hs.keep_unused hok hfh hk).1, fun k n hk x hx hxs => ?_⟩
    · rintro m hreq ⟨x, hx, hkey⟩
      have hb := hs.unused sid fh hn x hx (congrArg Prod.fst hkey)
      have hf : x.fh = fh := congrArg Prod.snd hkey
      rw [(fhBound_succ (hs.small sid fh hn) (h0 m hreq)).1] at hb
      omega
    · rcases h.handles_sub x hx with hx | ⟨⟨m, hreq⟩, hkey⟩
      · exact (hs.keep_unused hok hfh hk).2 x hx hxs
      · have hxsid : x.sid = sid := congrArg Prod.fst hkey
        have hxfh : x.fh = fh := congrArg Prod.snd hkey
        rw [← hxs, hxsid, hopen m hreq] at hk
        rw [hxfh, ← Option.some.inj hk]
        exact (fhBound_succ (hs.small sid fh hn) (h0 m hreq)).2
  | @pruned sid hd h hfh =>
    refine ⟨hs.ref.pruned h (hok.2 (by simp [hd])), fun k n hk => (hs.keep_unused hok hfh hk).1,
      fun k n hk x hx hxs => (hs.keep_unused hok hfh hk).2 x (h.sub x hx) hxs⟩

/-- Of a session that is not stored no handle or lock is. -/
theorem RefInt.of_missing {db : Cldb} (h : RefInt db) {sid : Sid}
    (hs : db.sessions.get sid = none) :
    (∀ x ∈ db.handles.rows, x.sid ≠ sid) ∧ ∀ i, ∀ l ∈ db.locks i, l.sid ≠ sid := by
  have hno : ∀ x ∈ db.handles.rows, x.sid ≠ sid := by
    rintro x hx rfl
    exact Table.get_none_iff.mp hs (h.session x hx)
  refine ⟨hno, fun i l hl => ?_⟩
  obtain ⟨-, x, hx, hk, -⟩ := h.lock i l hl
  have hxs : x.sid = l.sid := congrArg Prod.fst hk
  exact hxs ▸ hno x hx

/-- The database of a run of intact steps has its references intact, and nothing is left in it of a
session that is not stored. A beginning of such a run is one too, so this holds at every point of
it. -/
theorem run_refInt (e : Env) (now : Nat) (ops : List Op)
    (h : Meets (Server.step e) Intact (Server.init now) ops) :
    RefInt (run (Server.step e) (Server.init now) ops).db ∧
      ∀ sid, (run (Server.step e) (Server.init now) ops).db.sessions.get sid = none →
        (∀ x ∈ (run (Server.step e) (Server.init now) ops).db.handles.rows, x.sid ≠ sid) ∧
        ∀ i, ∀ l ∈ (run (Server.step e) (Server.init now) ops).db.locks i, l.sid ≠ sid := by
  have hlinked : Linked (run (Server.step e) (Server.init now) ops) :=
    h.invariant (.init now) fun s op hs hok => hs.step e op hok
  exact ⟨hlinked.ref, fun sid hsid => hlinked.ref.of_missing hsid⟩

theorem Intact.of_none {s : Server} {op : Op} (hf : op.faults = .none) (h : op.intact s = true) :
    Intact s op := ⟨h, fun _ => by rw [hf]; exact ⟨fun _ _ => rfl, fun _ _ => rfl⟩⟩

/-- Session 1 makes and locks `/a`, unlocks, closes and deletes it; then its time runs out. -/
def tidyRun : List Op :=
  [.newSess 1, .open 1 (comCreate + comLock) [slash, 0x61], .lock 1 2, .unlock 1 2, .lock 1 2,
    .close 1 2, .del 1 [slash, 0x61], .timeout 1 100 .none]

theorem run_refInt_tidy :
    Meets (Server.step .plain) Intact (Server.init 0) tidyRun ∧
      RefInt (run (Server.step .plain) (Server.init 0) tidyRun).db := by
  have hmeets : Meets (Server.step .plain) Intact (Server.init 0) tidyRun := by
    have hb : Meets (Server.step .plain) (fun s op => Op.intact s op = true) (Server.init 0)
        tidyRun := by decide +kernel
    refine hb.imp fun s op hop => .of_none ?_
    simp only [tidyRun, List.mem_cons, List.not_mem_nil, or_false] at hop
    rcases hop with rfl | rfl | rfl | rfl | rfl | rfl | rfl | rfl <;> rfl
  exact ⟨hmeets, (run_refInt .plain 0 tidyRun hmeets).1⟩

/-- Session 1 makes `/a`, locks it and deletes it. -/
def orphanRun : List Op :=
  [.newSess 1, .open 1 (comCreate + comLock) [slash, 0x61], .lock 1 2, .del 1 [slash, 0x61]]

/-- The lock outlives its handle. -/
theorem orphanRun_not_refInt :
    ¬ RefInt (run (Server.step .plain) (Server.init 0) orphanRun).db := by
  intro h
  have hl : ⟨55, 1, 2, 0, 0⟩ ∈ (run (Server.step .plain) (Server.init 0) orphanRun).db.locks 55 := by
    decide +kernel
  have hno : (run (Server.step .plain) (Server.init 0) orphanRun).db.handles.rows = [] := by
    decide +kernel
  obtain ⟨-, x, hx, -⟩ := h.lock 55 _ hl
  simp [hno] at hx

end Hail.Cld
