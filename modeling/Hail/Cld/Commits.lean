import Hail.Cld.Restart
import Hail.Library.Run

/-!
# Committed requests

The inodes and their data change in steps that commit a request, and only there (`step_commits`).
The names of the inodes are those that `msg_open` accepts, and the root is always among them
(`Named`).
-/
namespace Hail.Cld

open Library

/-- The request that a step commits, with its session. -/
def Op.commits (e : Env) (srv : Server) (op : Op) : Option (Sid × Request) := do
  let (sid, req) ← op.request srv
  guard (req.commits e op.faults sid (op.entry srv))
  return (sid, req)

theorem commits_eq_some {e : Env} {s : Server} {op : Op} {sid : Sid} {req : Request} :
    op.commits e s = some (sid, req) ↔
      op.request s = some (sid, req) ∧ req.commits e op.faults sid (op.entry s) = true := by
  unfold Op.commits
  cases op.request s with
  | none => simp
  | some r =>
    obtain ⟨sid', req'⟩ := r
    cases hc : req'.commits e op.faults sid' (op.entry s) with
    | true =>
      simp only [Option.bind_eq_bind, Option.bind_some, hc, guard, if_true, Option.pure_def,
        Option.some.injEq, Prod.mk.injEq]
      constructor
      · rintro ⟨rfl, rfl⟩
        exact ⟨⟨rfl, rfl⟩, hc⟩
      · exact And.left
    | false =>
      simp only [Option.bind_eq_bind, Option.bind_some, hc, guard, Bool.false_eq_true, if_false,
        failure, Option.bind_none, Option.some.injEq, Prod.mk.injEq, reduceCtorEq, false_iff, not_and]
      rintro ⟨rfl, rfl⟩
      simp [hc]

/-- A step commits a request, with its effect, or changes neither inodes nor data. -/
theorem step_commits (e : Env) (s : Server) (op : Op) :
    (∃ sid req fh, op.commits e s = some (sid, req) ∧
      DbEffect sid fh s.currentTime s.db req (s.step e op).db) ∨
    (op.commits e s = none ∧ (s.step e op).db.inodes = s.db.inodes ∧
      (s.step e op).db.data = s.db.data) := by
  have hnone : op.request s = none → op.commits e s = none := fun hr => by simp [Op.commits, hr]
  cases step_cases e s op with
  | idle hr hd h => exact .inr ⟨hnone hr, by rw [h.db], by rw [h.db]⟩
  | created hr hd h =>
    obtain ⟨raw, -, -, -, hdb⟩ := h.db
    exact .inr ⟨hnone hr, by rw [hdb], by rw [hdb]⟩
  | @request sid req v sess hr hd hv hsent htime hsess ht hentry =>
    have hvn : v.nextFh sid = some sess.nextFh := by simp [Server.nextFh, hsess]
    have hc := handle_commits e op.faults req hvn
    rw [← ht, hv.db, htime] at hc
    split at hc
    · next hok => exact .inl ⟨sid, req, _, commits_eq_some.mpr ⟨hr, hentry ▸ hok⟩, hc.1⟩
    · next hok =>
      refine .inr ⟨?_, by rw [hc], by rw [hc]⟩
      rw [hentry] at hok
      simp [Op.commits, hr, guard, hok, failure]
  | dispose hr hd ht =>
    rw [ht]
    rcases sessionDispose_db e op.faults _ s with hdb | ⟨hp, -⟩
    · exact .inr ⟨hnone hr, by rw [hdb], by rw [hdb]⟩
    · exact .inr ⟨hnone hr, hp.inodes, hp.data⟩

/-! ## Names -/

/-- A name that `msg_open` accepts. -/
def ValidName (name : Bytes) : Prop :=
  ∃ n : InodeName, n.bytes = name ∧ validInodeName name = true

/-- The names of all inodes are valid, and one is the root. -/
structure Named (inodes : Table RawInode.inum) : Prop where
  valid : ∀ ino ∈ inodes.rows, ValidName ino.name
  root : ∃ ino ∈ inodes.rows, ino.name = [slash]

theorem validName_root : ValidName [slash] :=
  ⟨⟨[slash], by decide +kernel, by decide +kernel⟩, rfl, by decide +kernel⟩

/-- Writing an inode that is stored, under its name. -/
theorem Named.put {inodes : Table RawInode.inum} (h : Named inodes) {ino x : RawInode}
    (hi : ino ∈ inodes.rows) (hk : x.inum = ino.inum) (hname : x.name = ino.name) :
    Named (inodes.put unordered x) where
  valid y hy := by
    rcases Table.mem_put.mp hy with rfl | ⟨hy, -⟩
    · exact hname ▸ h.valid ino hi
    · exact h.valid y hy
  root := by
    obtain ⟨r, hr, hroot⟩ := h.root
    by_cases hkr : r.inum = x.inum
    · -- the root itself is written
      have hri : r = ino := Table.eq_of_key hr hi (hkr.trans hk)
      exact ⟨x, Table.mem_put.mpr (.inl rfl), by rw [hname, ← hri, hroot]⟩
    · exact ⟨r, Table.mem_put.mpr (.inr ⟨hr, hkr⟩), hroot⟩

theorem Named.add {inodes : Table RawInode.inum} (h : Named inodes) {ino : RawInode}
    (hnew : inodes.get ino.inum = none) (hname : ValidName ino.name) :
    Named (inodes.put unordered ino) where
  valid y hy := by
    rcases Table.mem_put.mp hy with rfl | ⟨hy, -⟩
    · exact hname
    · exact h.valid y hy
  root := by
    obtain ⟨r, hr, hroot⟩ := h.root
    exact ⟨r, Table.mem_put.mpr (.inr ⟨hr, Table.get_eq_none.mp hnew r hr⟩), hroot⟩

theorem Named.del {inodes : Table RawInode.inum} (h : Named inodes) {ino : RawInode}
    (hi : ino ∈ inodes.rows) (hne : ino.name ≠ [slash]) : Named (inodes.del ino.inum) where
  valid y hy := h.valid y (Table.mem_del.mp hy).1
  root := by
    obtain ⟨r, hr, hroot⟩ := h.root
    refine ⟨r, Table.mem_del.mpr ⟨hr, fun hk => hne ?_⟩, hroot⟩
    rw [← Table.eq_of_key hr hi hk, hroot]

/-- The inode of a name and that of its directory are two. -/
theorem byname_dir_ne {db : Cldb} {name : Bytes} {ino parent : RawInode}
    (hv : validInodeName name = true) (hl : 2 ≤ name.length) (hi : db.byname name = some ino)
    (hp : db.byname (pathnameParse name).dir = some parent) : parent.inum ≠ ino.inum := by
  obtain ⟨himem, hin⟩ := byname_eq_some hi
  obtain ⟨hpmem, hpn⟩ := byname_eq_some hp
  intro hk
  refine pathnameParse_dir_ne hv (ne_slash_of_long hl) ?_
  rw [← hpn, Table.eq_of_key hpmem himem hk, hin]

theorem Named.effect {sid : Sid} {fh now : Nat} {db db' : Cldb} {req : Request}
    (h : Named db.inodes) (heff : DbEffect sid fh now db req db') : Named db'.inodes := by
  cases heff with
  | put handle write file inode => exact h.put (Table.mem_get.mp inode).1 rfl rfl
  | «open» | close | unlock => exact h
  | @create m inum parent sess size flags valid long absent unused above dir hparent =>
    have hp := (byname_eq_some hparent).1
    have hname : ValidName ((cldbInodeMem now m.inodeName.bytes flags inum).touch now).name :=
      ⟨m.inodeName, rfl, valid⟩
    refine (h.put (x := { parent with size }.touch now) hp rfl rfl).add ?_ hname
    have hne : inum ≠ parent.inum := fun hk => Table.get_eq_none.mp unused parent hp hk.symm
    exact (Table.get_put_of_ne (by exact hne)).trans unused
  | @del name ino parent old data size valid long hparent hold inode =>
    obtain ⟨hi, hn⟩ := byname_eq_some inode
    have hp := (byname_eq_some hparent).1
    exact (h.del hi (hn ▸ ne_slash_of_long long)).put
      (Table.mem_del.mpr ⟨hp, byname_dir_ne valid long inode hparent⟩) rfl rfl
  | lock handle mode add =>
    obtain ⟨lock, ls, -, -, -, -, -, -, rfl, -⟩ := cldbLockAdd_ok add
    exact h

theorem Named.init (now : Nat) : Named (Server.init now).db.inodes where
  valid x hx := by
    obtain rfl : x = rootInode now := by simpa [Server.init, Table.empty] using hx
    exact validName_root
  root := ⟨rootInode now, by simp [Server.init], rfl⟩

/-- Over a database with a root, a restart changes nothing stored. -/
theorem ensureRoot_of_named {now : Nat} {db : Cldb} (h : Named db.inodes) :
    ensureRoot now db = db := by
  obtain ⟨r, hr, hroot⟩ := h.root
  have hsome : (db.byname [slash]).isSome = true := by
    rw [Cldb.byname, List.find?_isSome]
    exact ⟨r, hr, by simpa using hroot⟩
  unfold ensureRoot
  split
  · rfl
  · next hnone => simp [hnone] at hsome

theorem Named.live (e : Env) {s : Server} (h : Named s.db.inodes) (l : Life) :
    Named (s.live e l).db.inodes := by
  cases l with
  | op op =>
    rcases step_commits e s op with ⟨sid, req, fh, -, heff⟩ | ⟨-, hi, -⟩
    · exact h.effect heff
    · change Named (s.step e op).db.inodes
      rwa [hi]
  | restart now timerFails =>
    change Named (ensureRoot now s.db).inodes
    rwa [ensureRoot_of_named h]

theorem run_named (e : Env) (now : Nat) (ls : List Life) :
    Named (run (Server.live e) (Server.init now) ls).db.inodes :=
  run_invariant (I := fun s : Server => Named s.db.inodes) (.init now) (fun _ l hs => hs.live e l) ls

end Hail.Cld
