import Hail.Chunkd.Listing
import Hail.Chunkd.Jobs
import Hail.Library.Exchange

/-!
# The self-check beside uploads and deletions

The scan of the self-check runs in a thread of its own. Its steps and those of any number of uploads,
copies and deletions, each one call, can follow one another in any order.

The scan relies on the flag of the cache entry that it holds: while it is not dirty, the file is the one
that was there when the scan took the entry.
-/
namespace Hail.Chunkd

open Library

/-! ## The scan -/

/-- The store, the connections and threads of copies, and the thread of the self-check. -/
structure Scan where
  srv : Srv
  jobs : List Job
  chk : ChkAt

inductive ScanEv where
  | join
  | job (i : Nat) (ev : JobEv)
  | check (c : ChkCall)

def Scan.step (e : Env) (s : Scan) : ScanEv → Option Scan
  | .join => some { s with jobs := s.jobs ++ [{}] }
  | .job i ev =>
    match s.jobs[i]? with
    | none => some s
    | some j => (jobStep e s.srv j ev).map fun r => { s with srv := r.1, jobs := s.jobs.set i r.2 }
  | .check c => (chkStep e c s.srv s.chk).map fun r => { s with srv := r.1, chk := r.2 }

def scanNext (e : Env) (s : Option Scan) (ev : ScanEv) : Option Scan := s.bind (·.step e ev)

/-- Nobody is at work yet. -/
def Scan.init (srv : Srv) : Scan := ⟨{ srv with actives := fun _ => none }, [], .next⟩

/-- The file of a name, if there is one, is as `P` says, and nobody is writing it. -/
def Scan.Quiet (s : Scan) (tableId : Nat) (fn : FileName) (P : File → Prop) : Prop :=
  ∀ p ∈ s.srv.fs.named tableId fn, ∀ ino ∈ s.srv.fs.lookup p,
    P (s.srv.fs.file ino) ∧ ∀ j ∈ s.jobs, j.fd ≠ some ino

instance (s : Scan) (tableId : Nat) (fn : FileName) (P : File → Prop) [DecidablePred P] :
    Decidable (s.Quiet tableId fn P) :=
  inferInstanceAs (Decidable (∀ p ∈ s.srv.fs.named tableId fn, ∀ ino ∈ s.srv.fs.lookup p,
    P (s.srv.fs.file ino) ∧ ∀ j ∈ s.jobs, j.fd ≠ some ino))

/-- What `fs_obj_disable` is about to be applied to is neither a committed object whose data have the
hash in its header nor the file of an upload. -/
def Scan.Spares (e : Env) (s : Scan) : Prop :=
  ∀ tableId fn cep, s.chk = .bad tableId fn cep →
    ∀ p ∈ s.srv.fs.named tableId fn, ∀ ino ∈ s.srv.fs.lookup p,
      (¬ ∃ hdr key d, Committed e s.srv.fs p hdr key d ∧ hdr.hash = e.sha1 d) ∧
        ∀ j ∈ s.jobs, j.fd ≠ some ino

/-! ## What the scan relies on -/

/-- The file that the job makes is the one at which the scan is. -/
def Job.Here (e : Env) (j : Job) (tableId : Nat) (fn : FileName) : Prop :=
  tableId = j.tableId ∧ fn = Path.fileName ⟨j.tableId, e.sha256 j.key⟩

/-- A job may make a file: not the one at which the scan is between its test of the flag and
`fs_obj_disable`, and once the scan holds the entry of a key that file only for that key. -/
def ChkAt.Admits (e : Env) (j : Job) : ChkAt → Prop
  | .bad tableId fn _ => ¬ j.Here e tableId fn
  | .held tableId fn info _ => j.Here e tableId fn → j.key = info.key
  | .summed tableId fn info _ _ => j.Here e tableId fn → j.key = info.key
  | _ => True

/-- The hash that the data should have, and where they begin. -/
def HdrInfo.expected (info : HdrInfo) : Bytes × Nat :=
  (info.hash, beFsObjHdrSz + info.key.length + info.csumlen)

/-- If the entry that the scan takes is not dirty, nobody is writing the file, and its header is still as
the scan has read it. -/
def Scan.Fresh (s : Scan) : ChkAt → Prop
  | .got tableId fn info =>
    objcacheTestDirty s.srv.actives (objcacheHash info.key) = false →
      s.Quiet tableId fn fun file => (hdrInfo file).map HdrInfo.expected = some info.expected
  | _ => True

/-- The condition on a step. -/
def Scan.StepMeets (e : Env) (s : Scan) : ScanEv → Prop
  | .job i (.new y _) => ∀ j ∈ s.jobs[i]?, j.pc = .held →
      (fsObjNewOpen e y s.srv.fs j.tableId j.key).isOk = true → s.chk.Admits e j
  | .check _ => s.Fresh s.chk
  | _ => True

def ScanMeets (e : Env) (s : Option Scan) (ev : ScanEv) : Prop := ∀ s₁ ∈ s, s₁.StepMeets e ev

/-- The reads of `fs_obj_do_sum` are short at the end of the file only. -/
def ScanEv.FullReads : ScanEv → Prop
  | .check c => ∀ i bound, c.calls.sys.reads i = some bound → sumBuflen ≤ bound
  | _ => True

/-! ## The cache -/

section

variable {cache cache' : Objcache} {key : Bytes} {cep k : UInt32} {fails dirty : Bool}

theorem objcacheGet_dirty (h : objcacheGet fails cache key dirty = some (cep, cache')) (k : UInt32) :
    objcacheTestDirty cache' k = (objcacheTestDirty cache k || (dirty && decide (k = cep))) := by
  unfold objcacheGet at h
  dsimp only at h
  split at h
  · next old hold =>
    obtain ⟨rfl, rfl⟩ := Prod.mk.inj (Option.some.inj h)
    by_cases hk : k = objcacheHash key
    · simp [objcacheTestDirty, hk, hold]
    · simp [objcacheTestDirty, hk]
  · next hnone =>
    split at h
    · cases h
    · obtain ⟨rfl, rfl⟩ := Prod.mk.inj (Option.some.inj h)
      by_cases hk : k = objcacheHash key
      · simp [objcacheTestDirty, hk, hnone]
      · simp [objcacheTestDirty, hk]

/-- An entry that somebody else refers to keeps its flag. -/
theorem objcachePut_dirty (h : k = cep → 2 ≤ cache.refs cep) :
    objcacheTestDirty (objcachePut cache cep) k = objcacheTestDirty cache k := by
  unfold objcachePut
  cases hc : cache cep with
  | none => rfl
  | some entry =>
    by_cases hk : k = cep
    · have href : entry.ref ≠ 1 := by
        have := h hk
        simp only [Objcache.refs, hc, Option.elim_some] at this
        omega
      simp [objcacheTestDirty, hk, hc, href]
    · dsimp only
      split <;> simp [objcacheTestDirty, Function.update_of_ne hk]

end

/-! ## The file at which the scan is -/

section

variable {e : Env} {s s' : Scan} {i : Nat} {j j' : Job} {ev : JobEv} {srv' : Srv} {tableId : Nat}
  {fn : FileName} {P : File → Prop}

theorem named_is {fs : Vol} {p : Path} (h : fs.named tableId fn = some p) :
    p.tableId = tableId ∧ p.fileName = fn := by
  simpa using List.find?_some h

theorem Scan.quiet_iff : s.Quiet tableId fn P ↔ ∀ p ino, p.tableId = tableId → p.fileName = fn →
    s.srv.fs.lookup p = some ino → P (s.srv.fs.file ino) ∧ ∀ j ∈ s.jobs, j.fd ≠ some ino := by
  constructor
  · rintro h p ino ht rfl hino
    exact h p (named_fileName hino ht) ino hino
  · intro h p hp ino hino
    obtain ⟨ht, hfn⟩ := named_is hp
    exact h p ino ht hfn hino

/-- The file stays as it is, unless a file of the name is made. -/
theorem Scan.Quiet.job (h : s.Quiet tableId fn P) (hi : s.jobs[i]? = some j)
    (hchange : j.Change e s.srv ev srv' j')
    (hnew : ∀ y n p, ev = .new y n → j.pc = .held →
      fsObjNewOpen e y s.srv.fs j.tableId j.key = .ok p → ¬ (p.tableId = tableId ∧ p.fileName = fn)) :
    Scan.Quiet { s with srv := srv', jobs := s.jobs.set i j' } tableId fn P := by
  rw [Scan.quiet_iff] at h ⊢
  have hmem : j ∈ s.jobs := List.mem_of_getElem? hi
  -- a descriptor is that of a job before, or a new file
  have hfds : ∀ ino, (∀ j₁ ∈ s.jobs, j₁.fd ≠ some ino) → j'.fd ≠ some ino →
      ∀ j₁ ∈ s.jobs.set i j', j₁.fd ≠ some ino := by
    intro ino hall hown j₁ hj₁
    rcases List.mem_or_eq_of_mem_set hj₁ with hj₁ | rfl
    · exact hall j₁ hj₁
    · exact hown
  have hkept : ∀ ino, (∀ j₁ ∈ s.jobs, j₁.fd ≠ some ino) → j.Keeps j' →
      ∀ j₁ ∈ s.jobs.set i j', j₁.fd ≠ some ino := by
    intro ino hall hkeeps
    apply hfds ino hall
    rcases hkeeps.1 with hfd | hfd <;> rw [hfd]
    · exact hall j hmem
    · simp
  intro p ino ht hfn hino
  cases hchange with
  | same hsrv _ hkeeps =>
    subst hsrv
    obtain ⟨hp, hfd⟩ := h p ino ht hfn hino
    exact ⟨hp, hkept ino hfd hkeeps⟩
  | got _ hsrv _ hnone =>
    subst hsrv
    obtain ⟨hp, hfd⟩ := h p ino ht hfn hino
    exact ⟨hp, hfds ino hfd (by simp [hnone])⟩
  | put _ hsrv _ hkeeps =>
    subst hsrv
    obtain ⟨hp, hfd⟩ := h p ino ht hfn hino
    exact ⟨hp, hkept ino hfd hkeeps⟩
  | @made y n q hev hpc hq hsrv _ hfd' _ =>
    subst hsrv
    have hne : p ≠ q := by
      rintro rfl
      exact hnew y n p hev hpc hq ⟨ht, hfn⟩
    change (s.srv.fs.creat q y.now).lookup p = some ino at hino
    rw [FileSys.lookup_creat_of_ne hne] at hino
    obtain ⟨hp, hfd⟩ := h p ino ht hfn hino
    have hlt : ino ≠ s.srv.fs.next := Nat.ne_of_lt (FileSys.lookup_lt_next hino)
    constructor
    · have hfile : (s.srv.fs.creat q y.now).file ino = s.srv.fs.file ino :=
        Function.update_of_ne hlt _ _
      change P ((s.srv.fs.creat q y.now).file ino)
      rwa [hfile]
    · apply hfds ino hfd
      rw [hfd']
      exact fun heq => hlt (Option.some.inj heq).symm
  | @wrote ino' pos now bs hown hsrv _ hkeeps =>
    subst hsrv
    obtain ⟨hp, hfd⟩ := h p ino ht hfn hino
    have hne : ino ≠ ino' := by
      rintro rfl
      exact hfd j hmem hown
    constructor
    · have hfile : (s.srv.fs.write ino' pos bs now).file ino = s.srv.fs.file ino :=
        Function.update_of_ne hne _ _
      change P ((s.srv.fs.write ino' pos bs now).file ino)
      rwa [hfile]
    · exact hkept ino hfd hkeeps
  | @unlinked q hsrv _ hkeeps =>
    subst hsrv
    change (s.srv.fs.unlink q).lookup p = some ino at hino
    rw [FileSys.lookup_unlink] at hino
    split at hino
    · cases hino
    · obtain ⟨hp, hfd⟩ := h p ino ht hfn hino
      exact ⟨hp, hkept ino hfd hkeeps⟩

end

/-! ## The invariant -/

/-- What the scan has found out of the file, if the entry that it holds is not dirty. -/
def Scan.Found (e : Env) (s : Scan) : Prop :=
  match s.chk with
  | .held tableId fn info cep =>
    cep = objcacheHash info.key ∧ (objcacheTestDirty s.srv.actives cep = false →
      s.Quiet tableId fn fun file => (hdrInfo file).map HdrInfo.expected = some info.expected)
  | .summed tableId fn info cep mdAct =>
    cep = objcacheHash info.key ∧ (objcacheTestDirty s.srv.actives cep = false →
      s.Quiet tableId fn fun file => (hdrInfo file).map HdrInfo.expected = some info.expected ∧
        mdAct = e.sha1 (file.data.drop info.expected.2))
  | .bad tableId fn _ =>
    s.Quiet tableId fn fun file => ∃ hash ofs,
      (hdrInfo file).map HdrInfo.expected = some (hash, ofs) ∧ hash ≠ e.sha1 (file.data.drop ofs)
  | .next | .got .. | .done _ => True

/-- What each has taken of the cache: the scan first, and the jobs. -/
def Scan.holders (s : Scan) : List (Option UInt32) := s.chk.cep :: s.jobs.map Job.outCe

/-- Entries are not removed while somebody holds them, so those that jobs hold are dirty; a job is given
its entry before its file. -/
structure Scan.Inv (e : Env) (s : Scan) : Prop where
  covered : Covered s.srv.actives.refs s.holders
  dirty : ∀ j ∈ s.jobs, ∀ cep, j.outCe = some cep → objcacheTestDirty s.srv.actives cep = true
  holds : ∀ j ∈ s.jobs, j.pc = .held → j.outCe = some (objcacheHash j.key)
  found : s.Found e

section

variable {e : Env} {s s' : Scan} {i : Nat} {j j' : Job} {ev : JobEv} {srv' : Srv}

/-- Whoever is given an entry is given that of its key. -/
theorem Job.Change.holds {srv : Srv} (h : j.Change e srv ev srv' j')
    (hholds : j.pc = .held → j.outCe = some (objcacheHash j.key)) (hpc : j'.pc = .held) :
    j'.outCe = some (objcacheHash j'.key) := by
  cases h with
  | same _ _ hkeeps | wrote _ _ _ hkeeps | unlinked _ _ hkeeps | put _ _ _ hkeeps =>
    obtain rfl := hkeeps.2 hpc
    exact hholds hpc
  | got hget _ hce => rw [hce, (objcacheGet_refs hget).1]
  | made _ _ _ _ _ _ hpc' => exact absurd hpc hpc'

theorem Scan.holders_job (hi : s.jobs[i]? = some j) : s.holders[i + 1]? = some j.outCe := by
  simp [Scan.holders, hi]

theorem Scan.holders_set (srv' : Srv) (j' : Job) :
    Scan.holders { s with srv := srv', jobs := s.jobs.set i j' } = s.holders.set (i + 1) j'.outCe := by
  simp [Scan.holders, List.map_set]

/-- The counts after a step of a job. -/
theorem Scan.Inv.covered_job (h : s.Inv e) (hi : s.jobs[i]? = some j)
    (hchange : j.Change e s.srv ev srv' j') :
    Covered srv'.actives.refs (s.holders.set (i + 1) j'.outCe) := by
  have hj := Scan.holders_job hi
  have hsame : j'.outCe = j.outCe → Covered s.srv.actives.refs (s.holders.set (i + 1) j'.outCe) := by
    intro hce
    apply h.covered.set hj
    rw [hce]
    exact .refl _ _
  cases hchange with
  | same hsrv hce => exact hsrv ▸ hsame hce
  | made _ _ _ hsrv hce => exact hsrv ▸ hsame hce
  | wrote _ hsrv hce => exact hsrv ▸ hsame hce
  | unlinked hsrv hce => exact hsrv ▸ hsame hce
  | got hget hsrv hce =>
    have hforget := h.covered.forget hj
    have hset := hforget.set (i := i + 1) (a := none) ?_ (objcacheGet_refs hget).2
    · rw [List.set_set] at hset
      rw [hsrv, hce]
      exact hset
    · have hlt := (List.getElem?_eq_some_iff.mp hj).1
      rw [List.getElem?_set_self hlt]
  | put hce hsrv hce' =>
    rw [hsrv, hce']
    apply h.covered.set hj
    rw [hce]
    apply objcachePut_refs
    exact h.covered.pos (List.mem_of_getElem? (hce ▸ hj))

/-- An entry that another holds stays dirty. -/
theorem Scan.Inv.dirty_job (h : s.Inv e) (hi : s.jobs[i]? = some j)
    (hchange : j.Change e s.srv ev srv' j') {k : UInt32} {m : Nat} (hm : s.holders[m]? = some (some k))
    (hne : m ≠ i + 1) (hdirty : objcacheTestDirty s.srv.actives k = true) :
    objcacheTestDirty srv'.actives k = true := by
  cases hchange with
  | same hsrv => exact hsrv ▸ hdirty
  | made _ _ _ hsrv => exact hsrv ▸ hdirty
  | wrote _ hsrv => exact hsrv ▸ hdirty
  | unlinked hsrv => exact hsrv ▸ hdirty
  | got hget hsrv =>
    rw [hsrv, objcacheGet_dirty hget, hdirty]
    rfl
  | put hce hsrv =>
    rw [hsrv, objcachePut_dirty]
    · exact hdirty
    · rintro rfl
      apply h.covered.two hm ?_ hne
      rw [Scan.holders_job hi, hce]

/-- What a job holds is dirty after its own step. -/
theorem Scan.Inv.dirty_own (h : s.Inv e) (hi : s.jobs[i]? = some j)
    (hchange : j.Change e s.srv ev srv' j') {k : UInt32} (hk : j'.outCe = some k) :
    objcacheTestDirty srv'.actives k = true := by
  have hmem := List.mem_of_getElem? hi
  cases hchange with
  | same hsrv hce => exact hsrv ▸ h.dirty j hmem k (hce ▸ hk)
  | made _ _ _ hsrv hce => exact hsrv ▸ h.dirty j hmem k (hce ▸ hk)
  | wrote _ hsrv hce => exact hsrv ▸ h.dirty j hmem k (hce ▸ hk)
  | unlinked hsrv hce => exact hsrv ▸ h.dirty j hmem k (hce ▸ hk)
  | got hget hsrv hce =>
    obtain rfl := Option.some.inj (hce.symm.trans hk)
    rw [hsrv, objcacheGet_dirty hget]
    simp
  | put hce hsrv hce' =>
    rw [hce'] at hk
    cases hk

/-- A file of the name that a job makes is for the key whose entry it holds. -/
theorem Scan.Inv.makes (h : s.Inv e) (hi : s.jobs[i]? = some j)
    (hmeets : s.StepMeets e (.job i ev)) {y : Sys} {n : Nat} {p : Path} (hev : ev = .new y n)
    (hpc : j.pc = .held) (hp : fsObjNewOpen e y s.srv.fs j.tableId j.key = .ok p) :
    s.chk.Admits e j ∧ p = ⟨j.tableId, e.sha256 j.key⟩ ∧
      objcacheTestDirty s.srv.actives (objcacheHash j.key) = true := by
  subst hev
  have hmem := List.mem_of_getElem? hi
  refine ⟨hmeets j hi hpc (by rw [hp]; rfl), fsObjNewOpen_eq hp, ?_⟩
  exact h.dirty j hmem _ (h.holds j hmem hpc)

/-- While the entry is held and not dirty, the file stays as it is. -/
theorem Scan.Inv.quiet_job (h : s.Inv e) (hi : s.jobs[i]? = some j)
    (hchange : j.Change e s.srv ev srv' j') (hmeets : s.StepMeets e (.job i ev)) {tableId : Nat}
    {fn : FileName} {info : HdrInfo} {cep : UInt32} {P : File → Prop}
    (hchk : s.chk.cep = some cep) (hcep : cep = objcacheHash info.key)
    (hadmits : s.chk.Admits e j → j.Here e tableId fn → j.key = info.key)
    (hquiet : objcacheTestDirty s.srv.actives cep = false → s.Quiet tableId fn P)
    (hclean : objcacheTestDirty srv'.actives cep = false) :
    Scan.Quiet { s with srv := srv', jobs := s.jobs.set i j' } tableId fn P := by
  have hscan : s.holders[0]? = some (some cep) := by simp [Scan.holders, hchk]
  have hbefore : objcacheTestDirty s.srv.actives cep = false := by
    by_contra hdirty
    have hstill := h.dirty_job hi hchange hscan (by omega) (Bool.not_eq_false _ ▸ hdirty)
    rw [hclean] at hstill
    cases hstill
  apply (hquiet hbefore).job hi hchange
  rintro y n p hev hpc hp ⟨rfl, rfl⟩
  obtain ⟨hadm, rfl, hdirty⟩ := h.makes hi hmeets hev hpc hp
  rw [hadmits hadm ⟨rfl, rfl⟩, ← hcep, hbefore] at hdirty
  cases hdirty

theorem Scan.Inv.found_job (h : s.Inv e) (hi : s.jobs[i]? = some j)
    (hchange : j.Change e s.srv ev srv' j') (hmeets : s.StepMeets e (.job i ev)) :
    Scan.Found e { s with srv := srv', jobs := s.jobs.set i j' } := by
  have hfound := h.found
  unfold Scan.Found at hfound ⊢
  cases hchk : s.chk with
  | next | got tableId fn info | done cep => trivial
  | held tableId fn info cep =>
    simp only [hchk] at hfound ⊢
    refine ⟨hfound.1, h.quiet_job hi hchange hmeets ?_ hfound.1 ?_ hfound.2⟩
    · rw [hchk]
      rfl
    · rw [hchk]
      exact id
  | summed tableId fn info cep mdAct =>
    simp only [hchk] at hfound ⊢
    refine ⟨hfound.1, h.quiet_job hi hchange hmeets ?_ hfound.1 ?_ hfound.2⟩
    · rw [hchk]
      rfl
    · rw [hchk]
      exact id
  | bad tableId fn cep =>
    simp only [hchk] at hfound ⊢
    apply hfound.job hi hchange
    rintro y n p hev hpc hp ⟨rfl, rfl⟩
    obtain ⟨hadm, rfl, -⟩ := h.makes hi hmeets hev hpc hp
    rw [hchk] at hadm
    exact hadm ⟨rfl, rfl⟩

/-- A step of a job. -/
theorem Scan.Inv.job (h : s.Inv e) (hi : s.jobs[i]? = some j)
    (hstep : jobStep e s.srv j ev = some (srv', j')) (hmeets : s.StepMeets e (.job i ev)) :
    Scan.Inv e { s with srv := srv', jobs := s.jobs.set i j' } := by
  have hchange := jobStep_change hstep
  constructor
  · rw [Scan.holders_set]
    exact h.covered_job hi hchange
  · intro j₁ hj₁ cep hcep
    obtain ⟨m, hm⟩ := List.mem_iff_getElem?.mp hj₁
    change (s.jobs.set i j')[m]? = some j₁ at hm
    rw [List.getElem?_set] at hm
    split at hm
    · next hmi =>
      split at hm
      · cases hm
        exact h.dirty_own hi hchange hcep
      · cases hm
    · next hmi =>
      have hheld := Scan.holders_job hm
      rw [hcep] at hheld
      exact h.dirty_job hi hchange hheld (by omega) (h.dirty j₁ (List.mem_of_getElem? hm) cep hcep)
  · intro j₁ hj₁ hpc
    rcases List.mem_or_eq_of_mem_set hj₁ with hj₁ | rfl
    · exact h.holds j₁ hj₁ hpc
    · exact hchange.holds (h.holds j (List.mem_of_getElem? hi)) hpc
  · exact h.found_job hi hchange hmeets

/-! ## The steps of the scan -/

/-- What full reads hash is all that is left of the file. -/
theorem fsObjSumLoop_full {reads : Nat → Option Nat} {fs : Vol} {ino fuel n pos : Nat} {hash r : Bytes}
    (hfull : ∀ n bound, reads n = some bound → sumBuflen ≤ bound)
    (hfuel : ((fs.file ino).data.drop pos).length < fuel)
    (h : fsObjSumLoop fs reads ino fuel n pos hash = some r) : r = hash ++ (fs.file ino).data.drop pos := by
  induction fuel generalizing n pos hash with
  | zero => omega
  | succ fuel ih =>
    cases hread : reads n with
    | none => simp [fsObjSumLoop, hread] at h
    | some bound =>
      have hbound := hfull n bound hread
      have hmin : min sumBuflen (max 1 bound) = sumBuflen := by omega
      simp only [fsObjSumLoop, hread, hmin] at h
      have hlen : (fs.read ino pos sumBuflen).length =
          min sumBuflen ((fs.file ino).data.drop pos).length := by
        rw [FileSys.read, List.length_take]
      split at h
      · next hshort =>
        have hwhole : fs.read ino pos sumBuflen = (fs.file ino).data.drop pos :=
          List.take_of_length_le (by omega)
        rw [← Option.some.inj h, hwhole]
      · have hbuf : (fs.read ino pos sumBuflen).length = sumBuflen := by omega
        have hpos : 0 < sumBuflen := by simp [sumBuflen]
        have hrest : ((fs.file ino).data.drop (pos + sumBuflen)).length < fuel := by
          rw [← List.drop_drop, List.length_drop]
          omega
        rw [hbuf] at h
        rw [ih hrest h, List.append_assoc, ← List.drop_drop]
        exact congrArg (hash ++ ·) (List.take_append_drop _ _)

theorem fsObjDoSumNamed_full {y : Sys} {fs : Vol} {tableId : Nat} {fn : FileName} {info : HdrInfo}
    {md : Bytes} {p : Path} {ino : Nat}
    (hfull : ∀ n bound, y.reads n = some bound → sumBuflen ≤ bound)
    (h : fsObjDoSumNamed e y fs tableId fn info = some md) (hp : fs.named tableId fn = some p)
    (hino : fs.lookup p = some ino) : md = e.sha1 ((fs.file ino).data.drop info.expected.2) := by
  simp only [fsObjDoSumNamed, hp, fsObjDoSum, hino] at h
  split at h
  · cases h
  · split at h
    · cases h
    · obtain ⟨r, hr, rfl⟩ := Option.map_eq_some_iff.mp h
      have hfuel : ((fs.file ino).data.drop info.expected.2).length < (fs.file ino).data.length + 1 := by
        rw [List.length_drop]
        omega
      rw [fsObjSumLoop_full hfull hfuel hr]
      rfl

variable {c : ChkCall} {chk' : ChkAt}

/-- The counts after a step of the scan, and the flags of what jobs hold. -/
theorem Scan.Inv.covered_check (h : s.Inv e) (hstep : chkStep e c s.srv s.chk = some (srv', chk')) :
    Covered srv'.actives.refs (s.holders.set 0 chk'.cep) := by
  have hscan : s.holders[0]? = some s.chk.cep := rfl
  apply h.covered.set hscan
  apply chkStep_balanced hstep
  intro cep hcep
  exact h.covered.pos (List.mem_of_getElem? (hcep ▸ hscan))

theorem Scan.Inv.dirty_check (h : s.Inv e) (hstep : chkStep e c s.srv s.chk = some (srv', chk'))
    {k : UInt32} (hj : j ∈ s.jobs) (hk : j.outCe = some k) :
    objcacheTestDirty srv'.actives k = true := by
  have hdirty := h.dirty j hj k hk
  obtain ⟨m, hm⟩ := List.mem_iff_getElem?.mp hj
  have hheld := Scan.holders_job hm
  unfold chkStep at hstep
  cases hchk : s.chk with
  | next =>
    simp only [hchk] at hstep
    split at hstep <;> cases hstep <;> exact hdirty
  | got tableId fn info =>
    simp only [hchk] at hstep
    split at hstep
    · cases hstep
    · next hget =>
      cases hstep
      rw [objcacheGet_dirty hget, hdirty]
      rfl
  | held tableId fn info cep =>
    simp only [hchk] at hstep
    split at hstep <;> cases hstep <;> exact hdirty
  | summed tableId fn info cep md =>
    simp only [hchk] at hstep
    split at hstep
    · cases hstep
      exact hdirty
    · split at hstep <;> cases hstep <;> exact hdirty
  | bad tableId fn cep =>
    simp only [hchk] at hstep
    cases hstep
    exact hdirty
  | done cep =>
    simp only [hchk] at hstep
    cases hstep
    rw [objcachePut_dirty]
    · exact hdirty
    · rintro rfl
      have hscan : s.holders[0]? = some (some k) := by simp [Scan.holders, hchk, ChkAt.cep]
      exact h.covered.two (hk ▸ hheld) hscan (by omega)

/-- What the scan finds out. -/
theorem Scan.Inv.found_check (h : s.Inv e) (hstep : chkStep e c s.srv s.chk = some (srv', chk'))
    (hfresh : s.Fresh s.chk) (hfull : ScanEv.FullReads (.check c)) :
    Scan.Found e { s with srv := srv', chk := chk' } := by
  have hfound := h.found
  unfold Scan.Found at hfound
  unfold Scan.Fresh at hfresh
  unfold chkStep at hstep
  cases hchk : s.chk with
  | next =>
    simp only [hchk] at hstep
    split at hstep <;> cases hstep <;> trivial
  | got tableId fn info =>
    simp only [hchk] at hstep hfresh
    split at hstep
    · cases hstep
    · next cep actives hget =>
      cases hstep
      refine ⟨(objcacheGet_refs hget).1, fun hclean => ?_⟩
      change objcacheTestDirty actives cep = false at hclean
      rw [objcacheGet_dirty hget, (objcacheGet_refs hget).1] at hclean
      exact hfresh (by simpa using hclean)
  | held tableId fn info cep =>
    simp only [hchk] at hstep hfound
    split at hstep
    · cases hstep
      trivial
    · next md hsum =>
      cases hstep
      refine ⟨hfound.1, fun hclean p hp ino hino => ?_⟩
      obtain ⟨hinfo, hfd⟩ := hfound.2 hclean p hp ino hino
      exact ⟨⟨hinfo, fsObjDoSumNamed_full hfull hsum hp hino⟩, hfd⟩
  | summed tableId fn info cep md =>
    simp only [hchk] at hstep hfound
    split at hstep
    · cases hstep
      trivial
    · next hclean =>
      split at hstep
      · next hne =>
        cases hstep
        intro p hp ino hino
        obtain ⟨⟨hinfo, hmd⟩, hfd⟩ := hfound.2 (Bool.not_eq_true _ ▸ hclean) p hp ino hino
        exact ⟨⟨_, _, hinfo, hmd ▸ hne⟩, hfd⟩
      · cases hstep
        trivial
  | bad tableId fn cep =>
    simp only [hchk] at hstep
    cases hstep
    trivial
  | done cep =>
    simp only [hchk] at hstep
    cases hstep
    trivial

theorem Scan.Inv.check (h : s.Inv e) (hstep : chkStep e c s.srv s.chk = some (srv', chk'))
    (hfresh : s.Fresh s.chk) (hfull : ScanEv.FullReads (.check c)) :
    Scan.Inv e { s with srv := srv', chk := chk' } where
  covered := h.covered_check hstep
  dirty _ hj _ hk := h.dirty_check hstep hj hk
  holds := h.holds
  found := h.found_check hstep hfresh hfull

/-! ## Runs -/

theorem Scan.init_inv (e : Env) (srv : Srv) : (Scan.init srv).Inv e where
  covered _ := Nat.zero_le _
  dirty _ hj := by cases hj
  holds _ hj := by cases hj
  found := trivial

/-- Another job comes in. -/
theorem Scan.Inv.join (h : s.Inv e) : Scan.Inv e { s with jobs := s.jobs ++ [{}] } where
  covered := by
    have hjoin := h.covered.join
    simpa [Scan.holders] using hjoin
  dirty j hj cep hcep := by
    rcases List.mem_append.mp hj with hj | hj
    · exact h.dirty j hj cep hcep
    · obtain rfl := List.mem_singleton.mp hj
      cases hcep
  holds j hj hpc := by
    rcases List.mem_append.mp hj with hj | hj
    · exact h.holds j hj hpc
    · obtain rfl := List.mem_singleton.mp hj
      cases hpc
  found := by
    have hquiet : ∀ tableId fn P, s.Quiet tableId fn P →
        Scan.Quiet { s with jobs := s.jobs ++ [{}] } tableId fn P := by
      intro tableId fn P hq p hp ino hino
      obtain ⟨hfile, hfd⟩ := hq p hp ino hino
      refine ⟨hfile, fun j hj => ?_⟩
      rcases List.mem_append.mp hj with hj | hj
      · exact hfd j hj
      · obtain rfl := List.mem_singleton.mp hj
        simp [Job.fd]
    have hfound := h.found
    unfold Scan.Found at hfound ⊢
    cases hchk : s.chk with
    | next | got tableId fn info | done cep => trivial
    | held tableId fn info cep =>
      simp only [hchk] at hfound ⊢
      exact ⟨hfound.1, fun hclean => hquiet _ _ _ (hfound.2 hclean)⟩
    | summed tableId fn info cep md =>
      simp only [hchk] at hfound ⊢
      exact ⟨hfound.1, fun hclean => hquiet _ _ _ (hfound.2 hclean)⟩
    | bad tableId fn cep =>
      simp only [hchk] at hfound ⊢
      exact hquiet _ _ _ hfound

/-- The invariant over a step. -/
theorem Scan.Inv.step {ev : ScanEv} (h : s.Inv e) (hstep : s.step e ev = some s')
    (hmeets : s.StepMeets e ev) (hfull : ev.FullReads) : s'.Inv e := by
  cases ev with
  | join =>
    cases hstep
    exact h.join
  | job i ev =>
    simp only [Scan.step] at hstep
    split at hstep
    · cases hstep
      exact h
    · next j hi =>
      obtain ⟨⟨srv', j'⟩, hjob, rfl⟩ := Option.map_eq_some_iff.mp hstep
      exact h.job hi hjob hmeets
  | check c =>
    obtain ⟨⟨srv', chk'⟩, hchk, rfl⟩ := Option.map_eq_some_iff.mp hstep
    exact h.check hchk hmeets hfull

/-- The data behind the header of a committed object are those that are summed. -/
theorem expected_committed {fs : Vol} {p : Path} {hdr : BeFsObjHdr} {key d hash : Bytes} {ino ofs : Nat}
    (h : Committed e fs p hdr key d) (hlook : fs.lookup p = some ino)
    (hexp : (hdrInfo (fs.file ino)).map HdrInfo.expected = some (hash, ofs)) :
    hash = hdr.hash ∧ (fs.file ino).data.drop ofs = d := by
  obtain ⟨ino', tbl, hlook', htbl, hfile, -⟩ := h.file
  obtain rfl : ino = ino' := Option.some.inj (hlook.symm.trans hlook')
  rw [hdrInfo_committed h hlook] at hexp
  obtain ⟨rfl, rfl⟩ := Prod.mk.inj (Option.some.inj hexp)
  refine ⟨rfl, ?_⟩
  rw [hfile]
  apply List.drop_left'
  rw [List.length_append, List.length_append, encode_length h.sized, htbl]

theorem Scan.Inv.spares (h : s.Inv e) : s.Spares e := by
  intro tableId fn cep hchk p hp ino hino
  have hfound := h.found
  unfold Scan.Found at hfound
  simp only [hchk] at hfound
  obtain ⟨⟨hash, ofs, hexp, hne⟩, hfd⟩ := hfound p hp ino hino
  refine ⟨?_, hfd⟩
  rintro ⟨hdr, key, d, hcommitted, hhash⟩
  obtain ⟨rfl, hdata⟩ := expected_committed hcommitted hino hexp
  rw [hdata] at hne
  exact hne hhash

/-- In every run in which the scan finds the file that it has read the header of when it takes a clean
entry, and in which no file is made of the name between its test of the flag and `fs_obj_disable`, it takes
away no good object and no file of an upload. -/
theorem run_spares (e : Env) (srv : Srv) {evs : List ScanEv} (hfull : ∀ ev ∈ evs, ev.FullReads)
    (hmeets : Meets (scanNext e) (ScanMeets e) (some (.init srv)) evs) :
    ∀ s ∈ run (scanNext e) (some (.init srv)) evs, s.Spares e := by
  have hboth : Meets (scanNext e) (fun s ev => ScanMeets e s ev ∧ ev.FullReads) (some (.init srv)) evs :=
    hmeets.imp fun s ev hev hok => ⟨hok, hfull ev hev⟩
  have hinv := hboth.invariant (I := fun s => ∀ s₁ ∈ s, s₁.Inv e) ?_ ?_
  · intro s hs
    exact (hinv s hs).spares
  · intro s hs
    cases hs
    exact Scan.init_inv e srv
  · rintro s ev hs ⟨hok, hread⟩ s' hs'
    obtain ⟨s₁, rfl, hstep⟩ := Option.bind_eq_some_iff.mp hs'
    exact (hs s₁ rfl).step hstep (hok s₁ rfl) hread

end

/-! ## Two scans -/

instance (e : Env) (j : Job) (tableId : Nat) (fn : FileName) : Decidable (j.Here e tableId fn) :=
  inferInstanceAs (Decidable (_ ∧ _))

instance (e : Env) (j : Job) : (chk : ChkAt) → Decidable (chk.Admits e j)
  | .bad tableId fn _ => inferInstanceAs (Decidable (¬ j.Here e tableId fn))
  | .held tableId fn info _ => inferInstanceAs (Decidable (j.Here e tableId fn → j.key = info.key))
  | .summed tableId fn info _ _ => inferInstanceAs (Decidable (j.Here e tableId fn → j.key = info.key))
  | .next | .got .. | .done _ => .isTrue trivial

instance (s : Scan) : (chk : ChkAt) → Decidable (s.Fresh chk)
  | .got tableId fn info =>
    inferInstanceAs (Decidable (objcacheTestDirty s.srv.actives (objcacheHash info.key) = false →
      s.Quiet tableId fn fun file => (hdrInfo file).map HdrInfo.expected = some info.expected))
  | .next | .held .. | .summed .. | .bad .. | .done _ => .isTrue trivial

instance Scan.decidableStepMeets (e : Env) (s : Scan) : (ev : ScanEv) → Decidable (s.StepMeets e ev)
  | .job i (.new y _) =>
    inferInstanceAs (Decidable (∀ j ∈ s.jobs[i]?, j.pc = .held →
      (fsObjNewOpen e y s.srv.fs j.tableId j.key).isOk = true → s.chk.Admits e j))
  | .check _ => inferInstanceAs (Decidable (s.Fresh s.chk))
  | .join | .job _ (.get ..) | .job _ (.write ..) | .job _ (.commit ..) | .job _ .giveUp | .job _ .free
  | .job _ .put | .job _ .leave | .job _ (.delOpen ..) | .job _ (.delUnlink _) => .isTrue trivial

instance (e : Env) (s : Option Scan) (ev : ScanEv) : Decidable (ScanMeets e s ev) :=
  inferInstanceAs (Decidable (∀ s₁ ∈ s, s₁.StepMeets e ev))

@[simp] theorem ScanEv.fullReads_join : ScanEv.join.FullReads := trivial

@[simp] theorem ScanEv.fullReads_job (i : Nat) (ev : JobEv) : (ScanEv.job i ev).FullReads := trivial

def abd : Bytes := [0x61, 0x62, 0x64]

/-- The digest of `abd` too. -/
def Env.scanned : Env :=
  { Env.sample with
    sha1 := fun bs =>
      if bs = abd then
        [203, 76, 194, 141, 240, 253, 190, 14, 207, 157, 150, 98, 226, 148, 177, 24, 9, 42, 87, 53]
      else Env.sample.sha1 bs
    sha1_length := fun bs => by
      split
      · rfl
      · exact Env.sample.sha1_length bs }

/-- The job stores `data` under a key in table 1 for the user `u`. -/
def stores (i : Nat) (key data : Bytes) : List ScanEv :=
  [.get 1 key false, .new .calm data.length, .write data 0,
    .commit .calm [0x75] (Env.scanned.sha1 data) false, .free, .put].map (.job i)

def removes (i : Nat) (key : Bytes) : List ScanEv :=
  [.delOpen .calm 1 [0x75] key, .delUnlink false].map (.job i)

/-- A step of the scan, at the file of the key `k` in table 1. -/
def scans : ScanEv := .check ⟨1, kFile, false, calmChk kFile⟩

theorem scans_full : scans.FullReads := by
  rintro i bound h
  cases h
  exact le_rfl

/-- The scan reads the header of `abd`; then `k` is deleted, and `abc` is stored under it. -/
def overtaken : List ScanEv :=
  .join :: stores 0 [0x6b] abd ++ [scans] ++ removes 0 [0x6b] ++ stores 0 [0x6b] abc ++
    [scans, scans, scans]

theorem overtaken_full : ∀ ev ∈ overtaken, ev.FullReads := by
  simp [overtaken, stores, removes, scans_full]

/-- The object stored last is about to be taken away. -/
theorem overtaken_taken : (∀ ev ∈ overtaken, ev.FullReads) ∧
    ∃ s ∈ run (scanNext .scanned) (some (.init bareSrv)) overtaken, ¬ s.Spares .scanned := by
  have hend : ∃ s ∈ run (scanNext .scanned) (some (.init bareSrv)) overtaken,
      s.chk = .bad 1 kFile (objcacheHash [0x6b]) ∧
      s.srv.fs.named 1 kFile = some ⟨1, Env.scanned.sha256 [0x6b]⟩ ∧
      s.srv.fs.lookup ⟨1, Env.scanned.sha256 [0x6b]⟩ = some 1 ∧
      (s.srv.fs.file 1).data = abcHdr.encode ++ [0x6b] ++ Env.scanned.sha1 abc ++ abc := by
    decide +kernel
  obtain ⟨s, hs, hchk, hnamed, hlook, hdata⟩ := hend
  refine ⟨overtaken_full, s, hs, fun hspares => ?_⟩
  apply (hspares 1 kFile _ hchk _ hnamed 1 hlook).1
  refine ⟨abcHdr, [0x6b], abc, ?_, by decide +kernel⟩
  constructor
  · rfl
  · decide
  · exact ⟨by decide, by decide, by decide, by decide, by decide +kernel, by decide +kernel⟩
  · rfl
  · rfl
  · rfl
  · rfl
  · exact ⟨1, Env.scanned.sha1 abc, hlook, by decide +kernel, hdata, by rw [hdata]; decide +kernel⟩

/-- The data of `abc` under the key `k` have been damaged. While the scan is at it, an upload begins. -/
def damaged : Srv := { bareSrv with fs := abcStored.write 0 203 [0x64] 0 }

def damagedScan : List ScanEv :=
  [.join, scans, scans, .job 0 (.get 1 [0x7a] false), .job 0 (.new .calm 3), scans, scans,
    .job 0 (.write [0x61] 0)]

theorem run_spares_damaged :
    (∀ s ∈ run (scanNext .scanned) (some (.init damaged)) damagedScan, s.Spares .scanned) ∧
      ∃ s ∈ run (scanNext .scanned) (some (.init damaged)) damagedScan,
        s.chk = .bad 1 kFile (objcacheHash [0x6b]) ∧
          s.srv.fs.lookup ⟨1, Env.sample.sha256 [0x6b]⟩ = some 0 ∧ s.jobs.map Job.fd = [some 1] := by
  refine ⟨run_spares .scanned damaged ?_ (by decide +kernel), by decide +kernel⟩
  simp [damagedScan, scans_full]

end Hail.Chunkd
