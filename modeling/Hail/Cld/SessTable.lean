import Hail.Cld.Sessions
import Hail.Lib.Htab

/-!
# The hash table of the sessions

Steps look sessions up in `cld_srv.sessions`, a `struct htab`. `Tabled.step` is a step of the server
that knows only of the sessions `htab_get` finds. While every `htab_put` stores its entry where it is
looked for, these are all the sessions there are (`Tabled.Inv`).
-/
namespace Hail.Cld

open Library Lib

def sessHash (sid : Sid) : UInt64 := .ofNat sid

/-- `sess_equal`; only whether it is 0 is ever asked. -/
def sessEqual (a b : Sid) : Int := if a = b then 0 else 1

/-- The server and its hash table. `srv.sessions` are the sessions that are allocated; an entry of the
table points to the one with the entry's sid. -/
structure Tabled where
  srv : Server
  htab : Htab Sid Sid

/-- Nobody looks at what `htab_put` returns. -/
def sessPut (memory : Bool × Bool) (htab : Htab Sid Sid) (sid : Sid) : Htab Sid Sid :=
  ((htabPut sessHash memory htab sid sid).map Prod.snd).getD htab

def sessDel (htab : Htab Sid Sid) (sid : Sid) : Htab Sid Sid := (htabDel sessHash sessEqual htab sid).2

def sessGet (htab : Htab Sid Sid) (sid : Sid) : Option Sid := htabGet sessHash sessEqual htab sid

/-! ## Steps -/

/-- The packet that a step hands to `tcp_rx`. -/
def Op.admits (srv : Server) : Op → Option PktInfo
  | .rx _ addr pkt seqid _ _ =>
    (getPktInfo srv pkt seqid).filter fun info => validatePktSession srv info addr = .ok
  | _ => none

/-- The packet for which a step stores a session. -/
def Op.begins (srv : Server) (op : Op) : Option PktInfo :=
  (op.admits srv).filter fun info => info.pkt.mi.isLast && info.begins srv op.faults

/-- The packet for which `msg_new_sess` makes a session that cannot be stored. -/
def Op.refuses (srv : Server) (op : Op) : Option PktInfo :=
  (op.admits srv).filter fun info =>
    info.pkt.mi.isLast && info.op = .newSess && (User.ofBytes info.pkt.user).isSome &&
      !op.faults .sessionNew && !srv.stores op.faults info.pkt.sid

def Op.stores (srv : Server) (op : Op) : Option Sid := (op.begins srv).map fun info => info.pkt.sid

/-- The session that a step frees, and takes from the table. -/
def Op.frees (srv : Server) (op : Op) : Option Sid :=
  ((op.refuses srv).map fun info => info.pkt.sid).or
    ((op.disposes srv).filter fun _ => !op.faults .txnBegin)

/-- What a step does to the table. -/
def Op.table (srv : Server) (memory : Bool × Bool) (op : Op) (htab : Htab Sid Sid) : Htab Sid Sid :=
  match op.stores srv with
  | some sid => sessPut memory htab sid
  | none => ((op.frees srv).map (sessDel htab)).getD htab

/-- The session whose timer fires. -/
def Op.fires : Op → Option Sid
  | .timeout sid _ _ => some sid
  | _ => none

/-- A step comes to a session by the table, or by the session's own timer. -/
def Tabled.finds (t : Tabled) (op : Op) (sess : Session) : Bool :=
  (sessGet t.htab sess.sid).isSome || op.fires = some sess.sid

def Tabled.seen (t : Tabled) (op : Op) : Server :=
  { t.srv with sessions := t.srv.sessions.filter (t.finds op) }

def Tabled.unseen (t : Tabled) (op : Op) : List Session :=
  t.srv.sessions.rows.filter fun sess => !t.finds op sess

/-- A step of the server; `memory` says whether there is memory for the buckets and the entry of an
`htab_put`. -/
def Tabled.step (e : Env) (t : Tabled) (op : Op) (memory : Bool × Bool) : Tabled :=
  let srv := (t.seen op).step e op
  let sessions := (t.unseen op).foldl (fun ss sess => ss.put unordered sess) srv.sessions
  ⟨{ srv with sessions }, op.table (t.seen op) memory t.htab⟩

/-- The table that `sess_load_db` fills, as `sessLoadLoop` does the sessions. -/
def sessLoadTable (timerFails : Nat → Bool) (memory : Nat → Bool × Bool) :
    Nat → List RawSession → Htab Sid Sid → Htab Sid Sid
  | _, [], ss => ss
  | nth, raw :: raws, ss =>
    match sessionDecode raw with
    | none => sessLoadTable timerFails memory (nth + 1) raws ss
    | some sess =>
      let ss := sessPut (memory nth) ss sess.sid
      if timerFails nth then ss else sessLoadTable timerFails memory (nth + 1) raws ss

/-- A restart with the records in the order in which the cursor returns them. -/
def Tabled.restart (t : Tabled) (now : Nat) (timerFails : Nat → Bool) (memory : Nat → Bool × Bool)
    (cursor : List RawSession) : Tabled :=
  ⟨{ t.srv with
      db := ensureRoot now t.srv.db, sessions := sessLoadLoop timerFails 0 cursor .empty
      currentTime := now, garbage := 0 },
    sessLoadTable timerFails memory 0 cursor htabNew⟩

inductive TabledLife where
  | op (op : Op) (memory : Bool × Bool)
  | restart (now : Nat) (timerFails : Nat → Bool) (memory : Nat → Bool × Bool)
      (cursor : List RawSession)

def Tabled.live (e : Env) (t : Tabled) : TabledLife → Tabled
  | .op op memory => t.step e op memory
  | .restart now timerFails memory cursor => t.restart now timerFails memory cursor

def Tabled.init (now : Nat) : Tabled := ⟨.init now, htabNew⟩

/-! ## Table and database -/

/-- The entries of the table are the sessions of the database, and those are what it finds. -/
structure Tabled.Agrees (t : Tabled) : Prop where
  visited : (t.htab.visited.map Prod.fst).Perm (t.srv.db.sessions.rows.map RawSession.sid)
  get : ∀ sid, (sessGet t.htab sid).isSome = true ↔ t.srv.db.sessions.Has sid

/-- There is memory to put `sid`, and its entry goes to the bucket it is looked for in. -/
structure Accepts (memory : Bool × Bool) (htab : Htab Sid Sid) (sid : Sid) : Prop where
  buckets : htabNeedResize htab = true → memory.1 = true
  entry : memory.2 = true
  lands : htab.Lands sessHash (.put sid sid)

def AcceptsAll (memory : Nat → Bool × Bool) : Nat → List RawSession → Htab Sid Sid → Prop
  | _, [], _ => True
  | nth, raw :: raws, htab =>
    Accepts (memory nth) htab raw.sid ∧
      AcceptsAll memory (nth + 1) raws (sessPut (memory nth) htab raw.sid)

instance (htab : Htab Sid Sid) (sid : Sid) : Decidable (htab.Lands sessHash (.put sid sid)) :=
  inferInstanceAs (Decidable (htabNeedResize htab = true → ∃ idx, htab.next = some idx ∧
    (sessHash sid).toNat % htabSz htab = (sessHash sid).toNat % primes.get idx))

instance (memory : Bool × Bool) (htab : Htab Sid Sid) (sid : Sid) :
    Decidable (Accepts memory htab sid) :=
  decidable_of_iff ((htabNeedResize htab = true → memory.1 = true) ∧ memory.2 = true ∧
    htab.Lands sessHash (.put sid sid)) ⟨fun h => ⟨h.1, h.2.1, h.2.2⟩, fun h => ⟨h.1, h.2, h.3⟩⟩

instance AcceptsAll.decidable (memory : Nat → Bool × Bool) :
    (nth : Nat) → (raws : List RawSession) → (htab : Htab Sid Sid) →
      Decidable (AcceptsAll memory nth raws htab)
  | _, [], _ => .isTrue trivial
  | nth, raw :: raws, htab =>
    @instDecidableAnd _ _ _
      (AcceptsAll.decidable memory (nth + 1) raws (sessPut (memory nth) htab raw.sid))

/-- When a session is disposed of, no call fails but the one that begins the transaction, and the table
accepts a session that is stored. When the server starts, the cursor returns every record once, the table
accepts them, and the timer of none but the last one fails. -/
def TabledLife.Sound (t : Tabled) : TabledLife → Prop
  | .op o memory =>
    (∀ sid ∈ o.disposes t.srv, o.faults .txnBegin = true ∨ o.faults.Removes t.srv.db sid) ∧
    ∀ sid ∈ o.stores t.srv, Accepts memory t.htab sid
  | .restart _ timerFails memory cursor =>
    cursor.Perm t.srv.db.sessions.rows ∧ AcceptsAll memory 0 cursor htabNew ∧
    ∀ n, n + 1 < cursor.length → timerFails n = false

/-! ## What a step stores and frees -/

theorem validate_newSess {s : Server} {info : PktInfo} {addr : Bytes}
    (hval : validatePktSession s info addr = .ok) (hop : info.op = .newSess) :
    s.sessions.get info.pkt.sid = none := by
  unfold validatePktSession at hval
  split at hval
  · assumption
  · simp [hop] at hval

theorem tcpRx_newSess_has (e : Env) (ft : Faults) (fd : Nat) (addr : Bytes) {info : PktInfo}
    (chunk : Bytes) {s : Server} (hop : info.op = .newSess)
    (hnone : s.sessions.get info.pkt.sid = none) (k : Sid) :
    (tcpRx e ft fd addr info chunk s).2.sessions.Has k ↔
      s.sessions.Has k ∨ (info.pkt.mi.isLast && info.begins s ft) = true ∧ k = info.pkt.sid := by
  simp only [tcpRx, Server.arrive, hnone, Bool.not_true, Bool.false_eq_true, if_false]
  cases hl : info.pkt.mi.isLast with
  | false => simp [has_congr ((simpleSendmsg_idle ..).nextFh k)]
  | true =>
    simp only [Bool.not_true, Bool.false_eq_true, if_false, Bool.true_and]
    obtain ⟨hidle, hcreated⟩ := dispatch_newSess e ft fd addr hop hnone
    cases hb : info.begins s ft with
    | false => simp [has_congr ((hidle hb).nextFh k)]
    | true =>
      rw [has_iff_nextFh, has_iff_nextFh, (hcreated hb).nextFh k]
      split
      · next hk => simp [hk]
      · next hk => simp [hk]

theorem tcpRx_has (e : Env) (ft : Faults) (fd : Nat) (addr : Bytes) {info : PktInfo}
    (chunk : Bytes) {s : Server} (hop : info.op ≠ .newSess) (k : Sid) :
    (tcpRx e ft fd addr info chunk s).2.sessions.Has k ↔ s.sessions.Has k := by
  have hold := has_congr ((arrive_idle s fd info chunk).nextFh k)
  unfold tcpRx
  rcases hv : s.arrive fd info chunk with ⟨fits, v⟩
  rw [hv] at hold
  dsimp only at hold ⊢
  split
  · exact hold
  · split
    · rw [has_congr ((simpleSendmsg_idle ..).nextFh k), hold]
    · cases hdec : Request.decode info.op with
      | none => rw [has_congr ((dispatch_idle e ft fd addr hdec hop).nextFh k), hold]
      | some dec =>
        rw [dispatch_of_decode hdec, tcpRxHandle]
        split
        · exact hold
        · split
          · exact hold
          · rw [handle_has]
            exact hold

/-- A step adds the session it stores. -/
theorem step_has (e : Env) {s : Server} {op : Op} (hd : op.disposes s = none) (k : Sid) :
    (s.step e op).sessions.Has k ↔ s.sessions.Has k ∨ op.stores s = some k := by
  cases op with
  | tick now => simp [Server.step, Op.stores, Op.begins, Op.admits]
  | timeout sid now ft =>
    have hexp : ∀ sess, s.sessions.get sid = some sess → sess.expired now = false := by
      intro sess hg
      by_contra hexp
      simp [Op.disposes, hg, hexp, guard] at hd
    have hidle := (sessionTimeout_idle e ft hexp).nextFh k
    simp [Server.step, Op.stores, Op.begins, Op.admits, has_congr hidle]
  | rx fd addr pkt seqid chunk ft =>
    cases hinfo : getPktInfo s pkt seqid with
    | none => simp [Server.step, Op.stores, Op.begins, Op.admits, hinfo]
    | some info =>
      by_cases hval : validatePktSession s info addr = .ok
      · simp only [Server.step, hinfo, hval, if_true]
        have hadm : (Op.rx fd addr pkt seqid chunk ft).admits s = some info := by
          simp [Op.admits, hinfo, hval]
        by_cases hop : info.op = .newSess
        · rw [tcpRx_newSess_has e ft fd addr chunk hop (validate_newSess hval hop)]
          simp only [Op.stores, Op.begins, hadm, Op.faults, Option.filter_some]
          cases info.pkt.mi.isLast && info.begins s ft with
          | true => simp [eq_comm]
          | false => simp
        · rw [tcpRx_has e ft fd addr chunk hop]
          simp [Op.stores, Op.begins, hadm, PktInfo.begins, hop]
      · simp [Server.step, Op.stores, Op.begins, Op.admits, hinfo, hval]

theorem admits_some {s : Server} {op : Op} {info : PktInfo} (h : op.admits s = some info) :
    ∃ addr, validatePktSession s info addr = .ok := by
  cases op with
  | rx fd addr pkt seqid chunk ft =>
    obtain ⟨-, hval⟩ := Option.filter_eq_some_iff.mp h
    exact ⟨addr, by simpa using hval⟩
  | _ => cases h

/-- A session that is stored was not stored before. -/
theorem stores_unused {s : Server} {op : Op} {sid : Sid} (h : op.stores s = some sid) :
    ¬ s.db.sessions.Has sid := by
  obtain ⟨info, hb, rfl⟩ := Option.map_eq_some_iff.mp h
  obtain ⟨-, hb⟩ := Option.filter_eq_some_iff.mp hb
  simp only [PktInfo.begins, Server.stores, Bool.and_eq_true, Bool.not_eq_true', Bool.or_eq_false_iff,
    Option.isSome_eq_false_iff, Option.isNone_iff_eq_none] at hb
  exact Table.get_none_iff.mp hb.2.2.2

/-- A session that cannot be stored has no session of its sid before it. -/
theorem refuses_absent {s : Server} {op : Op} {info : PktInfo} (h : op.refuses s = some info) :
    ¬ s.sessions.Has info.pkt.sid := by
  obtain ⟨hadm, hr⟩ := Option.filter_eq_some_iff.mp h
  obtain ⟨addr, hval⟩ := admits_some hadm
  simp only [Bool.and_eq_true, decide_eq_true_eq] at hr
  exact Table.get_none_iff.mp (validate_newSess hval hr.1.1.1.2)

theorem disposes_admits {s : Server} {op : Op} {sid : Sid} (hd : op.disposes s = some sid) :
    op.admits s = none := by
  cases op with
  | timeout sid' now ft => rfl
  | _ => cases hd

/-- Disposing of a session takes it from the sessions, unless no transaction is begun. -/
theorem dispose_has (e : Env) {s : Server} {op : Op} {sid : Sid} (hd : op.disposes s = some sid)
    (k : Sid) :
    (s.step e op).sessions.Has k ↔ s.sessions.Has k ∧ op.frees s ≠ some k := by
  have hfrees : op.frees s = if op.faults .txnBegin then none else some sid := by
    cases hb : op.faults .txnBegin <;> simp [Op.frees, Op.refuses, disposes_admits hd, hd, hb]
  cases step_cases e s op with
  | dispose hr hd' ht =>
    obtain rfl := Option.some.inj (hd.symm.trans hd')
    rw [ht, hfrees, inTxn]
    have hmem := has_congr ((sessionRemove_keeps e op.faults sid s).nextFh k)
    have hdel : (sessionDispose e op.faults sid s).2.sessions.Has k ↔ s.sessions.Has k ∧ sid ≠ k := by
      simp only [sessionDispose, sessionFree]
      rw [Table.has_del, hmem, ne_comm]
    split
    · simp
    · rcases hres : sessionDispose e op.faults sid s with ⟨code | u, t⟩
      · rw [hres] at hdel
        simpa using hdel
      · rw [hres] at hdel
        dsimp only
        split <;> simpa using hdel
  | idle hr hd' h | created hr hd' h | request hr hd' => rw [hd'] at hd; cases hd

/-! ## The table of a run -/

/-- The table holds an entry for each of these sids. -/
def Tables (htab : Htab Sid Sid) (sids : List Sid) : Prop :=
  htab.Holds sessHash (sids.map fun sid => (sid, sid))

theorem sessEqual_hash (a b : Sid) (h : sessEqual a b = 0) : sessHash a = sessHash b := by
  by_cases hab : a = b
  · rw [hab]
  · simp [sessEqual, hab] at h

theorem Accepts.sessPut_eq {memory : Bool × Bool} {htab : Htab Sid Sid} {sid : Sid}
    (h : Accepts memory htab sid) :
    sessPut memory htab sid = htab.step sessHash sessEqual (.put sid sid) := by
  cases hneed : htabNeedResize htab with
  | true => simp [sessPut, Htab.step, htabPut, hneed, h.buckets hneed, h.entry]
  | false => simp [sessPut, Htab.step, htabPut, hneed, h.entry]

namespace Tables

variable {htab : Htab Sid Sid} {sids : List Sid} {sid : Sid}

theorem put {memory : Bool × Bool} (h : Tables htab sids) (ha : Accepts memory htab sid) :
    Tables (sessPut memory htab sid) (sid :: sids) := by
  rw [ha.sessPut_eq]
  exact step_holds sessEqual_hash h ha.lands

theorem del (h : Tables htab sids) (sid : Sid) : Tables (sessDel htab sid) (sids.filter (· ≠ sid)) := by
  have hdel : (sessDel htab sid).Holds sessHash
      ((sids.map fun k => (k, k)).filter fun p => sessEqual p.1 sid ≠ 0) :=
    Htab.Holds.del sessEqual_hash h sid
  have hkeys : ((fun p : Sid × Sid => decide (sessEqual p.1 sid ≠ 0)) ∘ fun k => (k, k)) =
      fun k => decide (k ≠ sid) := by
    funext k
    simp [sessEqual]
  rwa [List.filter_map, hkeys] at hdel

theorem get (h : Tables htab sids) (sid : Sid) : (sessGet htab sid).isSome = true ↔ sid ∈ sids := by
  have hmap : htab.IsMap sessHash sessEqual (sids.map fun k => (k, k)) :=
    Htab.Holds.isMap sessEqual_hash h
  rw [sessGet, hmap.get, Option.isSome_map, List.find?_isSome]
  simp [sessEqual, eq_comm]

theorem visited (h : Tables htab sids) : (htab.visited.map Prod.fst).Perm sids := by
  have hmap := (visited_perm h.entries).map Prod.fst
  have hfst : (Prod.fst ∘ fun k : Sid => (k, k)) = id := rfl
  rwa [List.map_map, hfst, List.map_id] at hmap

end Tables

/-- The sessions in memory are those in the database, and the table has an entry for each of them. -/
structure Tabled.Inv (t : Tabled) : Prop where
  agree : SessionsAgree t.srv
  stored : Stored t.srv
  table : ∃ sids, Tables t.htab sids ∧ sids.Nodup ∧ ∀ sid, sid ∈ sids ↔ t.srv.sessions.Has sid

namespace Tabled.Inv

variable {t : Tabled}

theorem init (now : Nat) : (Tabled.init now).Inv where
  agree sid := by simp [Tabled.init, Server.init, Table.empty, Table.Has]
  stored := .init now
  table := ⟨[], Htab.Holds.init, List.nodup_nil, by
    simp [Tabled.init, Server.init, Table.empty, Table.Has]⟩

theorem agrees (h : t.Inv) : t.Agrees := by
  obtain ⟨sids, htab, hnodup, hmem⟩ := h.table
  have hdb := t.srv.db.sessions.nodup
  refine ⟨htab.visited.trans ((List.perm_ext_iff_of_nodup hnodup hdb).mpr fun sid => ?_),
    fun sid => ?_⟩
  · rw [hmem, h.agree sid, Table.Has, List.mem_map]
  · rw [htab.get, hmem, h.agree sid]

/-- Then a step finds every session there is. -/
theorem seen (h : t.Inv) (op : Op) : t.seen op = t.srv ∧ t.unseen op = [] := by
  obtain ⟨sids, htab, -, hmem⟩ := h.table
  have hfinds : ∀ sess ∈ t.srv.sessions.rows, t.finds op sess = true := by
    intro sess hsess
    have hget := (htab.get sess.sid).mpr ((hmem _).mpr ⟨sess, hsess, rfl⟩)
    simp [Tabled.finds, hget]
  have hall : t.srv.sessions.filter (t.finds op) = t.srv.sessions :=
    Table.ext (List.filter_eq_self.mpr hfinds)
  refine ⟨by rw [Tabled.seen, hall], List.filter_eq_nil_iff.mpr fun sess hsess => ?_⟩
  simp [hfinds sess hsess]

theorem step_eq (h : t.Inv) (e : Env) (op : Op) (memory : Bool × Bool) :
    t.step e op memory = ⟨t.srv.step e op, op.table t.srv memory t.htab⟩ := by
  obtain ⟨hseen, hunseen⟩ := h.seen op
  simp [Tabled.step, hseen, hunseen]

/-- A session that is freed is taken from the table, if it was there. -/
theorem table_free (h : t.Inv) (e : Env) {op : Op} (hst : op.stores t.srv = none)
    (memory : Bool × Bool) :
    ∃ sids, Tables (op.table t.srv memory t.htab) sids ∧ sids.Nodup ∧
      ∀ k, k ∈ sids ↔ (t.srv.step e op).sessions.Has k := by
  obtain ⟨sids, htab, hnodup, hmem⟩ := h.table
  have hsids : Tables (op.table t.srv memory t.htab) (sids.filter fun k => op.frees t.srv ≠ some k) := by
    simp only [Op.table, hst]
    cases op.frees t.srv with
    | none => simpa using htab
    | some sid => simpa [eq_comm] using htab.del sid
  refine ⟨_, hsids, hnodup.filter _, fun k => ?_⟩
  rw [List.mem_filter, hmem]
  cases hd : op.disposes t.srv with
  | some sid => simp [dispose_has e hd k]
  | none =>
    rw [step_has e hd, hst]
    have hfrees : op.frees t.srv = some k → ¬ t.srv.sessions.Has k := by
      intro hk
      simp only [Op.frees, hd, Option.filter_none, Option.or_none, Option.map_eq_some_iff] at hk
      obtain ⟨info, hr, rfl⟩ := hk
      exact refuses_absent hr
    simp only [decide_eq_true_eq, reduceCtorEq, or_false]
    exact ⟨And.left, fun hk => ⟨hk, fun hf => hfrees hf hk⟩⟩

theorem table_store (h : t.Inv) (e : Env) {op : Op} {sid : Sid} (hst : op.stores t.srv = some sid)
    {memory : Bool × Bool} (ha : Accepts memory t.htab sid) :
    ∃ sids, Tables (op.table t.srv memory t.htab) sids ∧ sids.Nodup ∧
      ∀ k, k ∈ sids ↔ (t.srv.step e op).sessions.Has k := by
  obtain ⟨sids, htab, hnodup, hmem⟩ := h.table
  have hnew : sid ∉ sids := by
    rw [hmem, h.agree sid]
    exact stores_unused hst
  have hd : op.disposes t.srv = none := by
    cases hd : op.disposes t.srv with
    | none => rfl
    | some k => simp [Op.stores, Op.begins, disposes_admits hd] at hst
  refine ⟨sid :: sids, ?_, List.nodup_cons.mpr ⟨hnew, hnodup⟩, fun k => ?_⟩
  · simp only [Op.table, hst]
    exact htab.put ha
  · rw [step_has e hd, hst, List.mem_cons, hmem, Option.some_inj, or_comm, eq_comm]

theorem step (h : t.Inv) (e : Env) {op : Op} {memory : Bool × Bool}
    (hs : (TabledLife.op op memory).Sound t) : (t.step e op memory).Inv := by
  rw [h.step_eq]
  refine ⟨h.agree.step e hs.1, h.stored.step e op, ?_⟩
  cases hst : op.stores t.srv with
  | none => exact h.table_free e hst memory
  | some sid => exact h.table_store e hst (hs.2 sid hst)

end Tabled.Inv

/-! ## Restarting -/

theorem sessLoadTable_tables {timerFails : Nat → Bool} {memory : Nat → Bool × Bool} {nth : Nat}
    {raws : List RawSession} {htab : Htab Sid Sid} {sids : List Sid} (h : Tables htab sids)
    (ha : AcceptsAll memory nth raws htab) (hw : ∀ raw ∈ raws, raw.Written)
    (ht : ∀ n, n + 1 < nth + raws.length → timerFails n = false) :
    Tables (sessLoadTable timerFails memory nth raws htab)
      ((raws.map RawSession.sid).reverse ++ sids) := by
  induction raws generalizing nth htab sids with
  | nil => exact h
  | cons raw raws ih =>
    obtain ⟨hput, htail⟩ := ha
    obtain ⟨x, rfl⟩ := hw raw (by simp)
    obtain ⟨sess, hdec⟩ := sessionDecode_encode x
    have hsid : sess.sid = (sessionEncode x).sid := (sessionDecode_some hdec).1
    have hone := h.put hput
    simp only [List.length_cons] at ht
    simp only [sessLoadTable, hdec, hsid]
    split
    · next hfail =>
      have hlast : raws = [] := by
        by_contra hne
        have hpos := List.length_pos_iff.mpr hne
        rw [ht nth (by omega)] at hfail
        cases hfail
      simpa [hlast] using hone
    · have hrest := ih hone htail (fun r hr => hw r (List.mem_cons_of_mem _ hr))
        fun n hn => ht n (by omega)
      simpa using hrest

theorem Tabled.Inv.restart {t : Tabled} (h : t.Inv) {now : Nat} {timerFails : Nat → Bool}
    {memory : Nat → Bool × Bool} {cursor : List RawSession}
    (hs : (TabledLife.restart now timerFails memory cursor).Sound t) :
    (t.restart now timerFails memory cursor).Inv := by
  obtain ⟨hperm, haccepts, htimers⟩ := hs
  have hw : ∀ raw ∈ cursor, raw.Written := fun raw hraw => h.stored.written raw (hperm.subset hraw)
  have hload : ∀ sid, (sessLoadLoop timerFails 0 cursor .empty).Has sid ↔ t.srv.db.sessions.Has sid := by
    intro sid
    rw [sessLoadLoop_has _ hw (fun n hn => htimers n (by omega))]
    simp [Table.Has, Table.empty, hperm.mem_iff]
  have hnew : Tables htabNew [] := Htab.Holds.init
  have htables := sessLoadTable_tables hnew haccepts hw fun n hn => htimers n (by omega)
  have hnodup : (cursor.map RawSession.sid).Nodup :=
    (hperm.map RawSession.sid).nodup_iff.mpr t.srv.db.sessions.nodup
  constructor
  · intro sid
    simp [Tabled.restart, hload]
  · refine ⟨fun sid hsid => ?_, ?_, ?_⟩
    · simp only [Tabled.restart, ensureRoot_sessions] at hsid ⊢
      exact (hload sid).mp hsid
    · simpa [Tabled.restart] using h.stored.handle
    · simpa [Tabled.restart] using h.stored.written
  · refine ⟨_, htables, by simpa using hnodup, fun sid => ?_⟩
    simp only [Tabled.restart, List.append_nil, List.mem_reverse, hload]
    rw [(hperm.map RawSession.sid).mem_iff, Table.Has, List.mem_map]

theorem Tabled.Inv.live (e : Env) {t : Tabled} (h : t.Inv) {l : TabledLife} (hl : l.Sound t) :
    (t.live e l).Inv := by
  cases l with
  | op op memory => exact h.step e hl
  | restart now timerFails memory cursor => exact h.restart hl

/-- The table holds the sessions of the database in every state of a run whose disposals, restarts and
puts are sound, and `session_remove` says that it has succeeded only when everything is deleted, if its
arrays can grow. -/
theorem run_sessions_agree (e : Env) (now : Nat) (ls : List TabledLife)
    (h : Meets (Tabled.live e) (fun t l => l.Sound t) (Tabled.init now) ls) :
    (run (Tabled.live e) (Tabled.init now) ls).Agrees ∧
      ∀ sid ft u v, ft.Grows (run (Tabled.live e) (Tabled.init now) ls).srv.db sid →
        sessionRemove e ft sid (run (Tabled.live e) (Tabled.init now) ls).srv = (.ok u, v) →
          Removed sid (run (Tabled.live e) (Tabled.init now) ls).srv.db v.db :=
  ⟨(h.invariant (Tabled.Inv.init now) fun _ _ ht hl => ht.live e hl).agrees,
    fun _ _ _ _ hg hrem => sessionRemove_removed hg hrem⟩

/-- Five sessions are made, the last of which lies in the same bucket of a larger table; session 1 opens
the root directory and runs out of time. -/
def expiredRun : List TabledLife :=
  [.op (.newSess 1) (true, true), .op (.newSess 2) (true, true), .op (.newSess 3) (true, true),
    .op (.newSess 4) (true, true), .op (.newSess 3845) (true, true),
    .op (.open 1 (comDirectory ||| comLock) [slash]) (true, true),
    .op (.timeout 1 100 .none) (true, true)]

/-- The sessions are loaded in the order opposite to that in which they were stored. -/
def expiredRestart : TabledLife :=
  .restart 200 (fun _ => false) (fun _ => (true, true))
    (run (Tabled.live .plain) (.init 0) expiredRun).srv.db.sessions.rows.reverse

theorem run_sessions_agree_expired :
    Meets (Tabled.live .plain) (fun t l => l.Sound t) (Tabled.init 0) (expiredRun ++ [expiredRestart]) ∧
      (run (Tabled.live .plain) (Tabled.init 0) (expiredRun ++ [expiredRestart])).Agrees ∧
      (run (Tabled.live .plain) (Tabled.init 0) (expiredRun ++ [expiredRestart])).htab.visited.map
        Prod.fst = [3845, 2, 3, 4] := by
  have hnone : ∀ db sid, Faults.none.Removes db sid := fun db sid =>
    ⟨⟨rfl, rfl⟩, fun n _ => ⟨fun _ => rfl, fun _ => rfl⟩, fun n _ => rfl, fun i _ => rfl,
      fun i _ => ⟨rfl, fun n _ => ⟨rfl, rfl⟩⟩, rfl, rfl⟩
  have hmeets : Meets (Tabled.live .plain) (fun t l => l.Sound t) (Tabled.init 0)
      (expiredRun ++ [expiredRestart]) := by
    refine Meets.append.mpr ⟨?_, ⟨List.reverse_perm _, by decide +kernel, fun n _ => rfl⟩, trivial⟩
    refine ⟨⟨nofun, by decide +kernel⟩, ⟨nofun, by decide +kernel⟩, ⟨nofun, by decide +kernel⟩,
      ⟨nofun, by decide +kernel⟩, ⟨nofun, by decide +kernel⟩, ⟨nofun, by decide +kernel⟩,
      ⟨fun sid _ => .inr (hnone _ _), nofun⟩, trivial⟩
  exact ⟨hmeets, (run_sessions_agree .plain 0 _ hmeets).1, by decide +kernel⟩

/-- Session 1 with 128 handles on the root directory, all opened for locking. -/
def crowdedSession : Server :=
  { (Server.init 0).step .plain (.newSess 1) with
    db := { ((Server.init 0).step .plain (.newSess 1)).db with
      handles := ⟨(List.range 128).map fun n => ⟨1, n + 2, cldInoRoot, comLock, 0⟩, by
        rw [List.map_map]
        exact List.nodup_range.map fun a b h => by simpa [RawHandle.key] using h⟩ } }

/-- The deletion of a session fails after its memory is freed; the fifth session goes to a bucket where
it is not found; and an array that cannot be enlarged ends `session_remove` with the code of the
database call before. -/
theorem disposal_disagrees :
    ¬ (run (Tabled.live .plain) (Tabled.init 0) [.op (.newSess 1) (true, true),
        .op (.timeout 1 100 fun c => c = .sessionDel) (true, true)]).Agrees ∧
      ¬ (run (Tabled.live .plain) (Tabled.init 0) [.op (.newSess 1) (true, true),
        .op (.newSess 2) (true, true), .op (.newSess 3) (true, true), .op (.newSess 4) (true, true),
        .op (.newSess 5) (true, true)]).Agrees ∧
      ¬ ∀ (e : Env) (ft : Faults) (sid : Sid) (s : Server) (u : PUnit) (t : Server),
        sessionRemove e ft sid s = (.ok u, t) → Removed sid s.db t.db := by
  have hlost : ∀ {t : Tabled} (sid : Sid), (sessGet t.htab sid).isSome = false →
      (t.srv.db.sessions.get sid).isSome = true → ¬ t.Agrees := by
    intro t sid hget hdb h
    have hfound := (h.get sid).mpr (Table.has_iff.mpr (Option.isSome_iff_exists.mp hdb))
    rw [hget] at hfound
    cases hfound
  refine ⟨hlost 1 (by decide +kernel) (by decide +kernel),
    hlost 5 (by decide +kernel) (by decide +kernel), fun h => ?_⟩
  have hok : (sessionRemove .plain (fun c => c = .allocLocks 256) 1 crowdedSession).1.toOption =
      some ⟨⟩ := by decide +kernel
  have hleft : ((sessionRemove .plain (fun c => c = .allocLocks 256) 1
      crowdedSession).2.db.sessions.get 1).isSome = true := by decide +kernel
  rcases hrem : sessionRemove .plain (fun c => c = .allocLocks 256) 1 crowdedSession with
    ⟨_ | u, t⟩
  · rw [hrem] at hok
    cases hok
  · have hgone := (h _ _ _ _ _ _ hrem).sessions
    rw [hrem, hgone, Table.get_del, if_pos rfl] at hleft
    cases hleft

end Hail.Cld
