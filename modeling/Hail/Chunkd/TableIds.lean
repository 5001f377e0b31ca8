import Hail.Chunkd.ReadBack
import Hail.Chunkd.Server
import Hail.Library.Run

/-!
# The numbers of tables

`fs_table_open` keeps the names of the tables and the record that it counts in under one set of keys. A
new number is stored in the state of the client before the last calls that may fail.
-/
namespace Hail.Chunkd

open Library

/-- The names that a table may have. -/
def validTable (key : Bytes) : Prop :=
  1 ≤ key.length ∧ key.length ≤ chdKeySz ∧ ¬ mdbTableId <+: key

theorem validTable_ne {key : Bytes} (h : validTable key) : key ≠ mdbTableIdKey := by
  rintro rfl
  exact h.2.2 (List.prefix_append _ _)

/-- What `fs_table_open` may do. -/
inductive OpenCase (y : Sys) (hdb : TblMaster) (key : Bytes) (creat : Bool) (tableId : Nat) :
    Option ChunkErrcode × Nat × TblMaster → Prop
  | refused (err : ChunkErrcode) : OpenCase y hdb key creat tableId (some err, tableId, hdb)
  | found {val : Bytes} (valid : validTable key) (get : hdb.get key = some (key, val)) :
      OpenCase y hdb key creat tableId (none, ofLe (val.take 4), hdb)
  | full {hdb' : TblMaster}
      (add : tchdbaddint (y.fails .tblAddint) hdb mdbTableIdKey 1 = some (2 ^ 31, hdb')) :
      OpenCase y hdb key creat tableId (some .internalError, tableId, hdb')
  | late {n : Nat} {hdb' : TblMaster} (valid : validTable key) (get : hdb.get key = none)
      (create : creat = true)
      (add : tchdbaddint (y.fails .tblAddint) hdb mdbTableIdKey 1 = some (n, hdb')) (ne : n ≠ 2 ^ 31)
      (fails : y.fails .tblPath ∨ y.fails .tblMkdir ∨ y.fails .tblPut) :
      OpenCase y hdb key creat tableId (some .internalError, n, hdb')
  | made {n : Nat} {hdb' : TblMaster} (valid : validTable key) (get : hdb.get key = none)
      (add : tchdbaddint (y.fails .tblAddint) hdb mdbTableIdKey 1 = some (n, hdb')) :
      OpenCase y hdb key creat tableId (none, n, tchdbput hdb' key (leBytes 4 n))

theorem fsTableOpen_cases (y : Sys) (hdb : TblMaster) (key : Bytes) (creat excl : Bool)
    (tableId : Nat) :
    OpenCase y hdb key creat tableId (fsTableOpen y hdb key creat excl tableId) := by
  unfold fsTableOpen
  split
  · exact .refused _
  · split
    · exact .refused _
    · next hname =>
      have hvalid : validTable key := by
        simp only [not_or, not_lt] at hname
        exact hname
      split
      · next row val hget =>
        obtain ⟨-, rfl⟩ := Table.mem_get.mp hget
        split
        · exact .refused _
        · exact .found hvalid hget
      · next hget =>
        split
        · exact .refused _
        · next hcreat =>
          split
          · exact .refused _
          · next n hdb' hadd =>
            split
            · next hfull => exact .full (hfull ▸ hadd)
            · next hne =>
              split
              · next hfails => exact .late hvalid hget (by simpa using hcreat) hadd hne hfails
              · exact .made hvalid hget hadd

/-! ## A request that fails -/

/-- A new table gets the number `n`, and then its creation fails. -/
def FailsLate (y : Sys) (hdb : TblMaster) (key : Bytes) (creat : Bool) (n : Nat) : Prop :=
  validTable key ∧ hdb.get key = none ∧ creat = true ∧ n ≠ 2 ^ 31 ∧
    (∃ hdb', tchdbaddint (y.fails .tblAddint) hdb mdbTableIdKey 1 = some (n, hdb')) ∧
    (y.fails .tblPath ∨ y.fails .tblMkdir ∨ y.fails .tblPut)

theorem FailsLate.fsTableOpen {y : Sys} {hdb : TblMaster} {key : Bytes} {creat : Bool} {n : Nat}
    (h : FailsLate y hdb key creat n) (excl : Bool) (tableId : Nat) :
    (Chunkd.fsTableOpen y hdb key creat excl tableId).1 = some .internalError ∧
      (Chunkd.fsTableOpen y hdb key creat excl tableId).2.1 = n := by
  obtain ⟨hvalid, hget, rfl, hne, ⟨hdb', hadd⟩, hfails⟩ := h
  have hname : ¬ (key.length < 1 ∨ chdKeySz < key.length ∨ mdbTableId <+: key) := by
    simp only [not_or, not_lt]
    exact hvalid
  rw [Chunkd.fsTableOpen, if_neg (by simp), if_neg hname, hget]
  simp only [hadd, hne, hfails, Bool.not_true, Bool.false_eq_true, if_false, if_true, and_self]

/-- A request for a table that fails leaves the table of the client as it is, unless it fails after a
new number has been stored. -/
theorem volumeOpen_keeps_iff (e : Env) (io : Io) (srv : Srv) (cli : Client) :
    let creat := has cli.req.flags chfTblCreat
    ((fsTableOpen io.sys srv.tbl cli.keyBytes creat (has cli.req.flags chfTblExcl) cli.tableId).1 ≠
        none →
      (volumeOpen e io srv cli).2.tableId = cli.tableId ∧
      (volumeOpen e io srv cli).2.table = cli.table ∧
      (volumeOpen e io srv cli).2.tableLen = cli.tableLen) ↔
    ∀ n, FailsLate io.sys srv.tbl cli.keyBytes creat n → n = cli.tableId := by
  intro creat
  have hcase := fsTableOpen_cases io.sys srv.tbl cli.keyBytes creat (has cli.req.flags chfTblExcl)
    cli.tableId
  have hlate := fun n (h : FailsLate io.sys srv.tbl cli.keyBytes creat n) =>
    h.fsTableOpen (has cli.req.flags chfTblExcl) cli.tableId
  unfold volumeOpen
  dsimp only [creat] at hcase hlate ⊢
  generalize fsTableOpen io.sys srv.tbl cli.keyBytes (has cli.req.flags chfTblCreat)
    (has cli.req.flags chfTblExcl) cli.tableId = r at hcase hlate ⊢
  cases hcase with
  | refused err | full add =>
    refine iff_of_true (fun _ => ⟨rfl, rfl, rfl⟩) fun n hn => ?_
    exact (hlate n hn).2.symm
  | found valid get | made valid get add =>
    refine iff_of_true (fun h => absurd rfl h) fun n hn => ?_
    cases (hlate n hn).1
  | @late n hdb' valid get hcreat add ne fails =>
    constructor
    · intro h m hm
      rw [← (hlate m hm).2]
      exact (h (by simp)).1
    · intro h _
      exact ⟨h n ⟨valid, get, hcreat, ne, ⟨hdb', add⟩, fails⟩, rfl, rfl⟩

/-- A server without tables. -/
def bareSrv : Srv where
  fs := emptyVol
  tbl := Table.empty
  actives _ := none
  chkState := .off
  chkDone := 0
  chkUsers := []
  rescans := 0

/-- A client asks for a table, which is made if need be. Some calls may fail. -/
def tableReq (name : UInt8) (fails : Site → Bool) : Io × Client :=
  ({ sys := { Sys.calm with fails }, rd := .again, wr := []
     list := ⟨true, [], fun _ => false, fun _ => false, fun _ => false⟩, listFails := fun _ => false },
    { creq := ⟨ChunksrvReq.encode
        ⟨chunkdMagic, .tableOpen, chfTblCreat, 1, 7, 0, List.replicate chdSigSz 0⟩, false⟩
      key := ⟨name :: List.replicate (chdKeySz - 1) 0, false⟩
      keyLen := 1
      user := [0x75] })

/-- The table `s` has been made. -/
def afterS : Srv × Client :=
  volumeOpen .sample (tableReq 0x73 fun _ => false).1 bareSrv (tableReq 0x73 fun _ => false).2

/-- The client asks for `u`, of which the directory cannot be made. -/
def thenU : Client :=
  { (tableReq 0x75 (· == .tblMkdir)).2 with
    table := afterS.2.table, tableLen := afterS.2.tableLen, tableId := afterS.2.tableId }

/-- The client is left with the number of the new table and the name of the old one. -/
theorem volumeOpen_moves :
    (fsTableOpen (tableReq 0x75 (· == .tblMkdir)).1.sys afterS.1.tbl thenU.keyBytes
        (has thenU.req.flags chfTblCreat) (has thenU.req.flags chfTblExcl) thenU.tableId).1 =
      some .internalError ∧
    thenU.tableId = 1 ∧ thenU.table = 0x73 :: List.replicate (chdKeySz - 1) 0 ∧
    (volumeOpen .sample (tableReq 0x75 (· == .tblMkdir)).1 afterS.1 thenU).2.tableId = 2 ∧
    (volumeOpen .sample (tableReq 0x75 (· == .tblMkdir)).1 afterS.1 thenU).2.table = thenU.table := by
  decide +kernel

/-! ## A run of requests -/

/-- The server with a history: the name and the number of each request that succeeded, and how many
numbers have been allocated. -/
structure Opens where
  srv : Srv
  opened : List (Bytes × Nat)
  creations : Nat

/-- A request of a client in any state. -/
def Opens.step (e : Env) (s : Opens) (req : Io × Client) : Opens :=
  let (io, cli) := req
  let res := fsTableOpen io.sys s.srv.tbl cli.keyBytes (has cli.req.flags chfTblCreat)
    (has cli.req.flags chfTblExcl) cli.tableId
  let (srv, cli') := volumeOpen e io s.srv cli
  { srv
    opened := s.opened ++ if res.1 = none then [(cli.keyBytes, cli'.tableId)] else []
    creations := s.creations +
      if srv.tbl.get mdbTableIdKey = s.srv.tbl.get mdbTableIdKey then 0 else 1 }

/-- The records of a database in which `n` numbers have been allocated. -/
structure Numbered (hdb : TblMaster) (n : Nat) : Prop where
  counter : hdb.get mdbTableIdKey = if n = 0 then none else some (mdbTableIdKey, leBytes 4 n)
  ids : ∀ key val, key ≠ mdbTableIdKey → hdb.get key = some (key, val) →
    ∃ i, val = leBytes 4 i ∧ 1 ≤ i ∧ i ≤ n
  inj : ∀ key key' val, key ≠ mdbTableIdKey → key' ≠ mdbTableIdKey →
    hdb.get key = some (key, val) → hdb.get key' = some (key', val) → key = key'

theorem leBytes_inj {i j : Nat} (hi : i < 2 ^ 32) (hj : j < 2 ^ 32) (h : leBytes 4 i = leBytes 4 j) :
    i = j := by
  have hof := congrArg ofLe h
  rw [ofLe_leBytes, ofLe_leBytes] at hof
  omega

theorem get_tchdbput (hdb : TblMaster) (key val key' : Bytes) :
    (tchdbput hdb key val).get key' = if key' = key then some (key, val) else hdb.get key' :=
  Table.get_put

section

variable {hdb hdb' : TblMaster} {n : Nat}

theorem Numbered.addint (h : Numbered hdb n) (hn : n + 1 < 2 ^ 31) {fails : Bool} {m : Nat}
    (hadd : tchdbaddint fails hdb mdbTableIdKey 1 = some (m, hdb')) :
    m = n + 1 ∧ hdb' = tchdbput hdb mdbTableIdKey (leBytes 4 (n + 1)) := by
  unfold tchdbaddint at hadd
  rw [h.counter] at hadd
  split at hadd
  · cases hadd
  · by_cases h0 : n = 0
    · subst h0
      cases hadd
      exact ⟨rfl, rfl⟩
    · rw [if_neg h0] at hadd
      simp only [leBytes_length, ne_eq, not_true_eq_false, if_false, ofLe_leBytes] at hadd
      cases hadd
      have hmod : (n % 256 ^ 4 + 1) % 2 ^ 32 = n + 1 := by omega
      rw [hmod]
      exact ⟨rfl, rfl⟩

/-- Another number is allocated. -/
theorem Numbered.next (h : Numbered hdb n) :
    Numbered (tchdbput hdb mdbTableIdKey (leBytes 4 (n + 1))) (n + 1) where
  counter := by rw [get_tchdbput, if_pos rfl, if_neg (by omega)]
  ids key val hkey hget := by
    rw [get_tchdbput, if_neg hkey] at hget
    obtain ⟨i, hval, hpos, hle⟩ := h.ids key val hkey hget
    exact ⟨i, hval, hpos, by omega⟩
  inj key key' val hkey hkey' hget hget' := by
    rw [get_tchdbput, if_neg hkey] at hget
    rw [get_tchdbput, if_neg hkey'] at hget'
    exact h.inj key key' val hkey hkey' hget hget'

/-- The number allocated last is stored under a new name. -/
theorem Numbered.name (h : Numbered hdb n) (hn : n + 1 < 2 ^ 31) {key : Bytes}
    (hkey : key ≠ mdbTableIdKey) :
    Numbered (tchdbput (tchdbput hdb mdbTableIdKey (leBytes 4 (n + 1))) key (leBytes 4 (n + 1)))
      (n + 1) := by
  have hnew : ∀ key' val, key' ≠ mdbTableIdKey → key' ≠ key →
      (tchdbput (tchdbput hdb mdbTableIdKey (leBytes 4 (n + 1))) key (leBytes 4 (n + 1))).get key' =
        some (key', val) → hdb.get key' = some (key', val) ∧ val ≠ leBytes 4 (n + 1) := by
    intro key' val hctr hne hget
    rw [get_tchdbput, if_neg hne, get_tchdbput, if_neg hctr] at hget
    obtain ⟨i, rfl, hpos, hle⟩ := h.ids key' val hctr hget
    refine ⟨hget, fun heq => ?_⟩
    have := leBytes_inj (by omega) (by omega) heq
    omega
  have hself : ∀ val,
      (tchdbput (tchdbput hdb mdbTableIdKey (leBytes 4 (n + 1))) key (leBytes 4 (n + 1))).get key =
        some (key, val) → val = leBytes 4 (n + 1) := by
    intro val hget
    rw [get_tchdbput, if_pos rfl] at hget
    cases hget
    rfl
  refine ⟨?_, fun key' val hctr hget => ?_, fun k k' val hk hk' hget hget' => ?_⟩
  · rw [get_tchdbput, if_neg hkey.symm, h.next.counter]
  · by_cases heq : key' = key
    · subst heq
      exact ⟨n + 1, hself val hget, by omega, le_rfl⟩
    · obtain ⟨i, hval, hpos, hle⟩ := h.ids key' val hctr (hnew key' val hctr heq hget).1
      exact ⟨i, hval, hpos, by omega⟩
  · by_cases heq : k = key
    · subst heq
      by_contra hne
      exact (hnew k' val hk' (Ne.symm hne) hget').2 (hself val hget)
    · by_cases heq' : k' = key
      · subst heq'
        exact absurd (hself val hget') (hnew k val hk heq hget).2
      · exact h.inj k k' val hk hk' (hnew k val hk heq hget).1 (hnew k' val hk' heq' hget').1

end

/-- What holds in a run as long as the numbers last. -/
structure Opens.Sound (s : Opens) : Prop where
  numbered : Numbered s.srv.tbl s.creations
  opened : ∀ p ∈ s.opened, validTable p.1 ∧ s.srv.tbl.get p.1 = some (p.1, leBytes 4 p.2) ∧
    p.2 < 2 ^ 32

theorem volumeOpen_result (e : Env) (io : Io) (srv : Srv) (cli : Client) :
    let res := fsTableOpen io.sys srv.tbl cli.keyBytes (has cli.req.flags chfTblCreat)
      (has cli.req.flags chfTblExcl) cli.tableId
    (volumeOpen e io srv cli).1.tbl = res.2.2 ∧ (volumeOpen e io srv cli).2.tableId = res.2.1 := by
  intro res
  unfold volumeOpen
  dsimp only
  split
  · next hres => exact ⟨(congrArg (·.2.2) hres).symm, (congrArg (·.2.1) hres).symm⟩
  · next hres => exact ⟨(congrArg (·.2.2) hres).symm, (congrArg (·.2.1) hres).symm⟩

theorem step_sound (e : Env) {s : Opens} (h : s.Sound) (hn : s.creations + 1 < 2 ^ 31)
    (req : Io × Client) :
    (s.step e req).creations + 1 < 2 ^ 31 → (s.step e req).Sound := by
  obtain ⟨io, cli⟩ := req
  obtain ⟨htbl, hid⟩ := volumeOpen_result e io s.srv cli
  have hcase := fsTableOpen_cases io.sys s.srv.tbl cli.keyBytes (has cli.req.flags chfTblCreat)
    (has cli.req.flags chfTblExcl) cli.tableId
  have hstep : s.step e (io, cli) =
      ⟨(volumeOpen e io s.srv cli).1,
        s.opened ++ if (fsTableOpen io.sys s.srv.tbl cli.keyBytes (has cli.req.flags chfTblCreat)
            (has cli.req.flags chfTblExcl) cli.tableId).1 = none then
          [(cli.keyBytes, (volumeOpen e io s.srv cli).2.tableId)] else [],
        s.creations + if (volumeOpen e io s.srv cli).1.tbl.get mdbTableIdKey =
          s.srv.tbl.get mdbTableIdKey then 0 else 1⟩ := rfl
  rw [hstep, hid]
  -- a number is allocated if and only if the record that counts has changed
  have hadded : (if some (mdbTableIdKey, leBytes 4 (s.creations + 1)) =
      s.srv.tbl.get mdbTableIdKey then 0 else 1) = 1 := by
    rw [h.numbered.counter]
    by_cases h0 : s.creations = 0
    · rw [if_pos h0, if_neg (by simp)]
    · rw [if_neg h0, if_neg]
      intro heq
      have := leBytes_inj (by omega) (by omega) (congrArg Prod.snd (Option.some.inj heq))
      omega
  generalize volumeOpen e io s.srv cli = res at htbl ⊢
  obtain ⟨srv, cli'⟩ := res
  dsimp only at htbl ⊢
  generalize fsTableOpen io.sys s.srv.tbl cli.keyBytes (has cli.req.flags chfTblCreat)
    (has cli.req.flags chfTblExcl) cli.tableId = r at hcase htbl ⊢
  have hkept : ∀ hdb : TblMaster, srv.tbl = hdb →
      (∀ p ∈ s.opened, hdb.get p.1 = s.srv.tbl.get p.1) → ∀ p ∈ s.opened,
        validTable p.1 ∧ srv.tbl.get p.1 = some (p.1, leBytes 4 p.2) ∧ p.2 < 2 ^ 32 := by
    intro hdb heq hsame p hp
    obtain ⟨hvalid, hget, hlt⟩ := h.opened p hp
    exact ⟨hvalid, by rw [heq, hsame p hp, hget], hlt⟩
  have hctr : ∀ p ∈ s.opened, (tchdbput s.srv.tbl mdbTableIdKey (leBytes 4 (s.creations + 1))).get p.1 =
      s.srv.tbl.get p.1 := by
    intro p hp
    rw [get_tchdbput, if_neg (validTable_ne (h.opened p hp).1)]
  cases hcase with
  | refused err =>
    intro _
    dsimp only at htbl ⊢
    rw [htbl, if_pos rfl, if_neg (by simp), List.append_nil]
    exact ⟨htbl.symm ▸ h.numbered, hkept _ htbl fun _ _ => rfl⟩
  | @found val valid get =>
    intro _
    dsimp only at htbl ⊢
    rw [htbl, if_pos rfl, if_pos rfl]
    refine ⟨htbl.symm ▸ h.numbered, fun p hp => ?_⟩
    rcases List.mem_append.mp hp with hp | hp
    · exact hkept _ htbl (fun _ _ => rfl) p hp
    · obtain rfl := List.mem_singleton.mp hp
      obtain ⟨i, rfl, -, hle⟩ := h.numbered.ids _ val (validTable_ne valid) get
      have hid : ofLe ((leBytes 4 i).take 4) = i := by
        rw [List.take_of_length_le (leBytes_length 4 i).le, ofLe_leBytes]
        omega
      dsimp only
      rw [hid, htbl]
      exact ⟨valid, get, by omega⟩
  | full add =>
    obtain ⟨hfull, rfl⟩ := h.numbered.addint hn add
    omega
  | late valid get create add ne fails =>
    obtain ⟨rfl, rfl⟩ := h.numbered.addint hn add
    intro _
    have hnum := h.numbered.next
    dsimp only at htbl ⊢
    rw [← htbl] at hnum
    rw [hnum.counter, if_neg (Nat.succ_ne_zero _), hadded, if_neg (by simp), List.append_nil]
    exact ⟨hnum, hkept _ htbl hctr⟩
  | made valid get add =>
    obtain ⟨rfl, rfl⟩ := h.numbered.addint hn add
    intro _
    have hnum := h.numbered.name hn (validTable_ne valid)
    dsimp only at htbl ⊢
    rw [← htbl] at hnum
    rw [hnum.counter, if_neg (Nat.succ_ne_zero _), hadded, if_pos rfl]
    refine ⟨hnum, fun p hp => ?_⟩
    rcases List.mem_append.mp hp with hp | hp
    · refine hkept _ htbl (fun q hq => ?_) p hp
      rw [get_tchdbput, if_neg, hctr q hq]
      intro heq
      have hold := (h.opened q hq).2.1
      rw [heq, get] at hold
      cases hold
    · obtain rfl := List.mem_singleton.mp hp
      dsimp only
      rw [htbl, get_tchdbput, if_pos rfl]
      exact ⟨valid, rfl, by omega⟩

theorem step_creations (e : Env) (s : Opens) (req : Io × Client) :
    s.creations ≤ (s.step e req).creations := Nat.le_add_right _ _

/-- In every run of requests for tables, as long as the numbers last, requests for the same name get the
same number and requests for different names get different ones. No number is 0, and no name is that of
the record that counts. -/
theorem run_table_ids (e : Env) (srv : Srv) (hsrv : srv.tbl = Table.empty) (reqs : List (Io × Client)) :
    let s := run (Opens.step e) ⟨srv, [], 0⟩ reqs
    s.creations < 2 ^ 31 - 1 →
      (∀ p ∈ s.opened, ∀ q ∈ s.opened, p.1 = q.1 ↔ p.2 = q.2) ∧
        ∀ p ∈ s.opened, p.2 ≠ 0 ∧ p.1 ≠ mdbTableIdKey := by
  intro s hs
  have hempty : Numbered srv.tbl 0 := by
    rw [hsrv]
    refine ⟨rfl, ?_, ?_⟩
    · intro key val _ hget
      cases hget
    · intro key key' val _ _ hget
      cases hget
  have hsound : s.creations + 1 < 2 ^ 31 → s.Sound := by
    refine run_invariant (I := fun s : Opens => s.creations + 1 < 2 ^ 31 → s.Sound) ?_ ?_ reqs
    · exact fun _ => ⟨hempty, fun p hp => by cases hp⟩
    · intro t req ht hlt
      have hle := step_creations e t req
      exact step_sound e (ht (by omega)) (by omega) req hlt
  obtain ⟨hnum, hopened⟩ := hsound (by omega)
  refine ⟨fun p hp q hq => ?_, fun p hp => ?_⟩
  · obtain ⟨hpv, hpg, hplt⟩ := hopened p hp
    obtain ⟨hqv, hqg, hqlt⟩ := hopened q hq
    constructor
    · intro heq
      rw [heq, hqg] at hpg
      exact (leBytes_inj hqlt hplt (congrArg Prod.snd (Option.some.inj hpg))).symm
    · intro heq
      exact hnum.inj _ _ _ (validTable_ne hpv) (validTable_ne hqv) hpg (heq ▸ hqg)
  · obtain ⟨hpv, hpg, hplt⟩ := hopened p hp
    obtain ⟨i, hi, hpos, hle⟩ := hnum.ids _ _ (validTable_ne hpv) hpg
    have hpi := leBytes_inj hplt (by omega) hi
    exact ⟨by omega, validTable_ne hpv⟩

/-- The tables `t` and `u` are made, the second when it is asked for again. -/
def tableReqs : List (Io × Client) :=
  [tableReq 0x74 fun _ => false, tableReq 0x75 (· == .tblMkdir), tableReq 0x75 fun _ => false,
    tableReq 0x74 fun _ => false]

theorem run_table_ids_two :
    (run (Opens.step .sample) ⟨bareSrv, [], 0⟩ tableReqs).opened =
        [([0x74], 1), ([0x75], 3), ([0x74], 1)] ∧
      ((∀ p ∈ (run (Opens.step .sample) ⟨bareSrv, [], 0⟩ tableReqs).opened,
          ∀ q ∈ (run (Opens.step .sample) ⟨bareSrv, [], 0⟩ tableReqs).opened, p.1 = q.1 ↔ p.2 = q.2) ∧
        ∀ p ∈ (run (Opens.step .sample) ⟨bareSrv, [], 0⟩ tableReqs).opened,
          p.2 ≠ 0 ∧ p.1 ≠ mdbTableIdKey) :=
  ⟨by decide +kernel, run_table_ids .sample bareSrv rfl tableReqs (by decide +kernel)⟩

end Hail.Chunkd
