import Hail.Library.Run
import Mathlib.Data.List.Sort
import Mathlib.Logic.Function.Basic

/-!
# Timers

The list of `libtimer.c` is drained from its front while the callbacks change it. What a callback
adds comes to lie behind the mark of the run, so that a run only ever fires timers that were due when
it began.
-/
namespace Hail.Lib

open Library

/-- `struct cld_timer`. The callback is given where the timers are run. -/
structure CldTimer where
  expires : Int
  onList : Bool
  fired : Bool

/-- `struct cld_timer_list`, with the timers that its entries point to. -/
structure CldTimerList (ι : Type*) where
  list : List ι
  runmark : Int
  timer : ι → CldTimer

def cldTimerCmp (a b : CldTimer) : Int :=
  if a.expires > b.expires then 1
  else if a.expires = b.expires then 0
  else -1

section

variable {ι : Type*} [DecidableEq ι]

/-- `g_list_insert_sorted` puts the timer before the first one it does not compare greater than. -/
def cldTimerAdd (tlist : CldTimerList ι) (t : ι) (expires : Int) : CldTimerList ι :=
  let timerList := if (tlist.timer t).onList then tlist.list.erase t else tlist.list
  let expires := if expires < tlist.runmark + 1 then tlist.runmark + 1 else expires
  let timer := Function.update tlist.timer t ⟨expires, true, false⟩
  { tlist with
    list := timerList.orderedInsert (fun a b => cldTimerCmp (timer a) (timer b) ≤ 0) t
    timer }

def cldTimerDel (tlist : CldTimerList ι) (t : ι) : CldTimerList ι :=
  if !(tlist.timer t).onList then tlist
  else
    { tlist with
      list := tlist.list.erase t
      timer := Function.update tlist.timer t { tlist.timer t with onList := false } }

inductive TimerOp (ι : Type*)
  | add (t : ι) (expires : Int)
  | del (t : ι)
  deriving DecidableEq

def TimerOp.target : TimerOp ι → ι
  | .add t _ | .del t => t

def CldTimerList.op (tlist : CldTimerList ι) : TimerOp ι → CldTimerList ι
  | .add t expires => cldTimerAdd tlist t expires
  | .del t => cldTimerDel tlist t

/-- The entry at the front is taken off and marked as fired. -/
def CldTimerList.pop (tlist : CldTimerList ι) (t : ι) (rest : List ι) : CldTimerList ι :=
  { tlist with
    list := rest
    timer := Function.update tlist.timer t { tlist.timer t with onList := false, fired := true } }

/-- A call of a callback: the list it finds, and what it does to it. -/
structure Firing (ι : Type*) where
  timer : ι
  seen : CldTimerList ι
  ops : List (TimerOp ι)

def Firing.Touches (f : Firing ι) (t : ι) : Prop := ∃ o ∈ f.ops, o.target = t

/-- The loop of `cld_timers_run`. `cb n` is what the callback called as number `n` does; the loop gives
`false` when it has not ended within the fuel. -/
def cldTimersLoop (cb : Nat → List (TimerOp ι)) (now : Int) :
    Nat → Nat → CldTimerList ι → Bool × List (Firing ι) × CldTimerList ι
  | 0, _, tlist => (false, [], tlist)
  | fuel + 1, n, tlist =>
    match tlist.list with
    | [] => (true, [], tlist)
    | t :: rest =>
      if (tlist.timer t).expires > now then (true, [], tlist)
      else
        let tlist := tlist.pop t rest
        let (ended, log, tlist') := cldTimersLoop cb now fuel (n + 1) (run CldTimerList.op tlist (cb n))
        (ended, ⟨t, tlist, cb n⟩ :: log, tlist')

/-- What `cld_timers_run` returns. -/
def nextTimeout (now : Int) (tlist : CldTimerList ι) : Int :=
  match tlist.list with
  | [] => 0
  | t :: _ =>
    let timer := tlist.timer t
    if timer.expires > now then timer.expires - now else 1

/-- What a run gives: whether it ends, the callbacks it calls, the list and the timeout. -/
structure TimersRun (ι : Type*) where
  ended : Bool
  log : List (Firing ι)
  tlist : CldTimerList ι
  timeout : Int

def cldTimersRun (cb : Nat → List (TimerOp ι)) (now : Int) (fuel : Nat) (tlist : CldTimerList ι) :
    TimersRun ι :=
  let (ended, log, tlist) := cldTimersLoop cb now fuel 0 { tlist with runmark := now }
  ⟨ended, log, tlist, nextTimeout now tlist⟩

inductive TimerEv (ι : Type*)
  | op (o : TimerOp ι)
  | run (now : Int) (cb : Nat → List (TimerOp ι))

def CldTimerList.step (tlist : CldTimerList ι) : TimerEv ι → CldTimerList ι
  | .op o => tlist.op o
  | .run now cb => (cldTimersRun cb now (tlist.list.length + 1) tlist).tlist

/-- No timer has been added. -/
def CldTimerList.init : CldTimerList ι := ⟨[], 0, fun _ => ⟨0, false, false⟩⟩

end

/-! ## The list -/

section

variable {ι : Type*}

@[simp] theorem cldTimerCmp_le {a b : CldTimer} : cldTimerCmp a b ≤ 0 ↔ a.expires ≤ b.expires := by
  unfold cldTimerCmp
  split_ifs <;> omega

/-- The list is sorted, and holds the timers that say so, each of them once. -/
structure CldTimerList.Ordered (tlist : CldTimerList ι) : Prop where
  sorted : tlist.list.Pairwise fun a b => (tlist.timer a).expires ≤ (tlist.timer b).expires
  nodup : tlist.list.Nodup
  mem_iff : ∀ t, t ∈ tlist.list ↔ (tlist.timer t).onList = true

/-- The timers that are due, in the order of the list. -/
def CldTimerList.due (tlist : CldTimerList ι) (now : Int) : List ι :=
  tlist.list.filter fun t => (tlist.timer t).expires ≤ now

theorem filter_orderedInsert {r : ι → ι → Prop} [DecidableRel r] {p : ι → Bool} {t : ι}
    (ht : p t = false) (l : List ι) : (l.orderedInsert r t).filter p = l.filter p := by
  induction l with
  | nil => simp [ht]
  | cons a l ih =>
    rw [List.orderedInsert_cons]
    split
    · rw [List.filter_cons_of_neg (by simp [ht])]
    · rw [List.filter_cons, List.filter_cons, ih]

namespace CldTimerList.Ordered

variable {tlist : CldTimerList ι}

theorem init : (CldTimerList.init : CldTimerList ι).Ordered :=
  ⟨.nil, .nil, fun _ => by simp [CldTimerList.init]⟩

theorem congr (h : tlist.Ordered) (runmark : Int) : { tlist with runmark }.Ordered :=
  ⟨h.sorted, h.nodup, h.mem_iff⟩

variable [DecidableEq ι]

/-- What is left of the list without `t` is sorted whatever becomes of `t`. -/
theorem erase (h : tlist.Ordered) (t : ι) (x : CldTimer) :
    (tlist.list.erase t).Pairwise fun a b =>
      (Function.update tlist.timer t x a).expires ≤ (Function.update tlist.timer t x b).expires := by
  have hne : ∀ a ∈ tlist.list.erase t, a ≠ t := fun a ha => ((List.Nodup.mem_erase_iff h.nodup).mp ha).1
  refine (h.sorted.sublist List.erase_sublist).imp_of_mem fun ha hb hab => ?_
  rwa [Function.update_of_ne (hne _ ha), Function.update_of_ne (hne _ hb)]

theorem rest_eq (h : tlist.Ordered) (t : ι) :
    (if (tlist.timer t).onList then tlist.list.erase t else tlist.list) = tlist.list.erase t := by
  split
  · rfl
  · next hoff => exact (List.erase_of_not_mem fun hmem => hoff ((h.mem_iff t).mp hmem)).symm

theorem add (h : tlist.Ordered) (t : ι) (expires : Int) : (cldTimerAdd tlist t expires).Ordered := by
  unfold cldTimerAdd
  dsimp only
  rw [h.rest_eq t]
  generalize (if expires < tlist.runmark + 1 then tlist.runmark + 1 else expires) = expires
  have herase := h.erase t ⟨expires, true, false⟩
  set timer := Function.update tlist.timer t ⟨expires, true, false⟩ with htimer
  have htotal : Std.Total fun a b : ι => cldTimerCmp (timer a) (timer b) ≤ 0 :=
    ⟨fun a b => by simp only [cldTimerCmp_le]; omega⟩
  have htrans : IsTrans ι fun a b => cldTimerCmp (timer a) (timer b) ≤ 0 :=
    ⟨fun a b c => by simp only [cldTimerCmp_le]; omega⟩
  constructor
  · have hins := List.Pairwise.orderedInsert (r := fun a b => cldTimerCmp (timer a) (timer b) ≤ 0) t
      (tlist.list.erase t) (by simpa only [cldTimerCmp_le] using herase)
    simpa only [cldTimerCmp_le] using hins
  · rw [(List.perm_orderedInsert _ t _).nodup_iff, List.nodup_cons]
    exact ⟨h.nodup.not_mem_erase, h.nodup.erase t⟩
  · intro s
    rw [List.mem_orderedInsert, h.nodup.mem_erase_iff, h.mem_iff, htimer]
    by_cases hst : s = t
    · simp [hst]
    · simp [hst]

theorem del (h : tlist.Ordered) (t : ι) : (cldTimerDel tlist t).Ordered := by
  unfold cldTimerDel
  split
  · exact h
  · refine ⟨h.erase t _, h.nodup.erase t, fun s => ?_⟩
    rw [h.nodup.mem_erase_iff, h.mem_iff]
    by_cases hst : s = t
    · simp [hst]
    · simp [hst]

theorem op (h : tlist.Ordered) (o : TimerOp ι) : (tlist.op o).Ordered := by
  cases o with
  | add t expires => exact h.add t expires
  | del t => exact h.del t

theorem ops (h : tlist.Ordered) (ops : List (TimerOp ι)) : (run CldTimerList.op tlist ops).Ordered :=
  run_invariant h (fun _ o hs => hs.op o) ops

theorem pop (h : tlist.Ordered) {t : ι} {rest : List ι} (hl : tlist.list = t :: rest) :
    (tlist.pop t rest).Ordered := by
  have hnd := h.nodup
  have hrest : rest = tlist.list.erase t := by rw [hl, List.erase_cons_head]
  refine ⟨?_, ?_, fun s => ?_⟩
  · change rest.Pairwise _
    rw [hrest]
    exact h.erase t _
  · rw [hl] at hnd
    exact hnd.of_cons
  · change s ∈ rest ↔ _
    rw [hrest, h.nodup.mem_erase_iff, h.mem_iff]
    by_cases hst : s = t
    · simp [hst, CldTimerList.pop]
    · simp [hst, CldTimerList.pop]

/-! ## What is due -/

theorem due_erase (h : tlist.Ordered) (t : ι) (x : CldTimer) (now : Int) :
    ((tlist.list.erase t).filter fun s => decide ((Function.update tlist.timer t x s).expires ≤ now)) =
      (tlist.due now).filter (· ≠ t) := by
  rw [h.nodup.erase_eq_filter, CldTimerList.due, List.filter_filter, List.filter_filter]
  refine List.filter_congr fun s _ => ?_
  by_cases hst : s = t
  · simp [hst]
  · simp [hst]

/-- A timer that is added or deleted during a run is no longer due in it. -/
theorem due_op (h : tlist.Ordered) (o : TimerOp ι) :
    (tlist.op o).due tlist.runmark = (tlist.due tlist.runmark).filter (· ≠ o.target) := by
  cases o with
  | add t expires =>
    simp only [CldTimerList.op, cldTimerAdd, TimerOp.target]
    rw [h.rest_eq t, CldTimerList.due, filter_orderedInsert]
    · exact h.due_erase t _ _
    · simp only [Function.update_self, decide_eq_false_iff_not]
      split <;> omega
  | del t =>
    simp only [CldTimerList.op, cldTimerDel, TimerOp.target]
    split
    · next hoff =>
      refine (List.filter_eq_self.mpr fun s hs => ?_).symm
      have hmem := (h.mem_iff s).mp (List.mem_of_mem_filter hs)
      refine decide_eq_true fun hst => ?_
      rw [← hst, hmem] at hoff
      cases hoff
    · exact h.due_erase t _ _

theorem op_runmark (tlist : CldTimerList ι) (o : TimerOp ι) : (tlist.op o).runmark = tlist.runmark := by
  cases o with
  | add t expires => rfl
  | del t =>
    simp only [CldTimerList.op, cldTimerDel]
    split <;> rfl

theorem due_ops (h : tlist.Ordered) (ops : List (TimerOp ι)) :
    (run CldTimerList.op tlist ops).runmark = tlist.runmark ∧
      (run CldTimerList.op tlist ops).due tlist.runmark =
        (tlist.due tlist.runmark).filter fun s => ∀ o ∈ ops, o.target ≠ s := by
  induction ops generalizing tlist with
  | nil => exact ⟨rfl, by simp [run]⟩
  | cons o ops ih =>
    obtain ⟨hmark, hdue⟩ := ih (h.op o)
    rw [op_runmark] at hmark hdue
    refine ⟨hmark, ?_⟩
    rw [run, hdue, h.due_op, List.filter_filter]
    refine List.filter_congr fun s _ => ?_
    rw [← Bool.decide_and, decide_eq_decide, List.forall_mem_cons, and_comm, ne_comm]

theorem due_pop (h : tlist.Ordered) {t : ι} {rest : List ι} (hl : tlist.list = t :: rest) {now : Int}
    (hdue : (tlist.timer t).expires ≤ now) :
    tlist.due now = t :: (tlist.pop t rest).due now := by
  have ht : t ∉ rest := by
    have hnd := h.nodup
    rw [hl] at hnd
    exact (List.nodup_cons.mp hnd).1
  rw [CldTimerList.due, hl, List.filter_cons_of_pos (by simpa using hdue)]
  refine congrArg _ (List.filter_congr fun s hs => ?_)
  have hst : s ≠ t := fun he => ht (he ▸ hs)
  simp [CldTimerList.pop, hst]

end CldTimerList.Ordered

/-! ## The loop -/

/-- What the loop makes of a list when the mark of the run is `now`. -/
structure Drained (tlist : CldTimerList ι) (now : Int) (log : List (Firing ι))
    (tlist' : CldTimerList ι) : Prop where
  fires : (log.map Firing.timer).Sublist (tlist.due now)
  all : ∀ t ∈ tlist.due now, t ∉ log.map Firing.timer →
    ∃ f ∈ log, f.Touches t ∧ [f.timer, t].Sublist (tlist.due now)
  untouched : log.Pairwise fun f g => ¬ f.Touches g.timer
  seen : ∀ f ∈ log, f.seen.Ordered
  ordered : tlist'.Ordered
  left : ∀ t ∈ tlist'.list, now < (tlist'.timer t).expires

variable {tlist : CldTimerList ι}

/-- When the timer at the front is not due, none is. -/
theorem Drained.stop {now : Int} (h : tlist.Ordered)
    (hleft : ∀ t ∈ tlist.list, now < (tlist.timer t).expires) : Drained tlist now [] tlist where
  fires := List.nil_sublist _
  all t ht := by
    have hdue : (tlist.timer t).expires ≤ now := by simpa using (List.mem_filter.mp ht).2
    have hlate := hleft t (List.mem_of_mem_filter ht)
    omega
  untouched := .nil
  seen := by simp
  ordered := h
  left := hleft

theorem nextTimeout_pos (now : Int) (tlist : CldTimerList ι) :
    0 < nextTimeout now tlist ↔ tlist.list ≠ [] := by
  unfold nextTimeout
  cases tlist.list with
  | nil => simp
  | cons t rest =>
    dsimp only
    split
    · simp_all
    · simp

variable [DecidableEq ι]

/-- One turn of the loop, for the timer `t` at the front. -/
theorem Drained.turn {t : ι} {rest : List ι} {ops : List (TimerOp ι)} {log : List (Firing ι)}
    {tlist' : CldTimerList ι} (h : tlist.Ordered) (hl : tlist.list = t :: rest)
    (hdue : (tlist.timer t).expires ≤ tlist.runmark)
    (hrest : Drained (run CldTimerList.op (tlist.pop t rest) ops) tlist.runmark log tlist') :
    Drained tlist tlist.runmark (⟨t, tlist.pop t rest, ops⟩ :: log) tlist' := by
  have hpop : (tlist.pop t rest).Ordered := h.pop hl
  have hfront := h.due_pop hl hdue
  have hops := (hpop.due_ops ops).2
  -- the timers that stay due are the ones the callback leaves alone
  have hstay : ∀ s, s ∈ (run CldTimerList.op (tlist.pop t rest) ops).due tlist.runmark ↔
      s ∈ (tlist.pop t rest).due tlist.runmark ∧ ∀ o ∈ ops, o.target ≠ s := by
    intro s
    rw [show tlist.runmark = (tlist.pop t rest).runmark from rfl, hops, List.mem_filter,
      decide_eq_true_iff]
  refine ⟨?_, fun s hs hfired => ?_, ?_, ?_, hrest.ordered, hrest.left⟩
  · rw [hfront, List.map_cons]
    refine (hrest.fires.trans ?_).cons_cons t
    rw [show tlist.runmark = (tlist.pop t rest).runmark from rfl, hops]
    exact List.filter_sublist
  · rw [List.map_cons, List.mem_cons, not_or] at hfired
    have hs' : s ∈ (tlist.pop t rest).due tlist.runmark := by
      rw [hfront] at hs
      exact (List.mem_cons.mp hs).resolve_left hfired.1
    rw [hfront]
    by_cases htouch : ∃ o ∈ ops, o.target = s
    · exact ⟨_, List.mem_cons_self, htouch, (List.singleton_sublist.mpr hs').cons_cons t⟩
    · obtain ⟨f, hf, hft, hbefore⟩ := hrest.all s
        ((hstay s).mpr ⟨hs', fun o ho he => htouch ⟨o, ho, he⟩⟩) hfired.2
      refine ⟨f, List.mem_cons_of_mem _ hf, hft, (hbefore.trans ?_).cons t⟩
      rw [show tlist.runmark = (tlist.pop t rest).runmark from rfl, hops]
      exact List.filter_sublist
  · refine List.pairwise_cons.mpr ⟨fun g hg => ?_, hrest.untouched⟩
    rintro ⟨o, ho, he⟩
    have hmem := hrest.fires.subset (List.mem_map_of_mem hg)
    exact ((hstay _).mp hmem).2 o ho he
  · exact List.forall_mem_cons.mpr ⟨hpop, hrest.seen⟩

/-- The loop ends, since every turn takes a due timer off the list and the callbacks add none. -/
theorem cldTimersLoop_drained (cb : Nat → List (TimerOp ι)) {fuel : Nat} (n : Nat)
    (h : tlist.Ordered) (hfuel : (tlist.due tlist.runmark).length < fuel) :
    ∃ log tlist', cldTimersLoop cb tlist.runmark fuel n tlist = (true, log, tlist') ∧
      Drained tlist tlist.runmark log tlist' := by
  induction fuel generalizing n tlist with
  | zero => omega
  | succ fuel ih =>
    unfold cldTimersLoop
    cases hl : tlist.list with
    | nil => exact ⟨[], tlist, rfl, .stop h (by simp [hl])⟩
    | cons t rest =>
      dsimp only
      split
      · next hlate =>
        refine ⟨[], tlist, rfl, .stop h ?_⟩
        have hsorted := h.sorted
        rw [hl] at hsorted ⊢
        refine List.forall_mem_cons.mpr ⟨hlate, fun s hs => ?_⟩
        have hle := List.rel_of_pairwise_cons hsorted hs
        omega
      · next hdue =>
        have hdue : (tlist.timer t).expires ≤ tlist.runmark := by omega
        have hpop : (tlist.pop t rest).Ordered := h.pop hl
        obtain ⟨hmark, hops⟩ := hpop.due_ops (cb n)
        have hlen : ((run CldTimerList.op (tlist.pop t rest) (cb n)).due tlist.runmark).length <
            fuel := by
          have hfront := congrArg List.length (h.due_pop hl hdue)
          have hle := List.length_filter_le (fun s => decide (∀ o ∈ cb n, o.target ≠ s))
            ((tlist.pop t rest).due tlist.runmark)
          rw [List.length_cons] at hfront
          rw [show tlist.runmark = (tlist.pop t rest).runmark from rfl, hops]
          exact lt_of_le_of_lt hle (by omega)
        have hmark : (run CldTimerList.op (tlist.pop t rest) (cb n)).runmark = tlist.runmark := hmark
        obtain ⟨log, tlist', hloop, hdrained⟩ := ih (n + 1) (hpop.ops (cb n)) (by rwa [hmark])
        rw [hmark] at hloop hdrained
        exact ⟨⟨t, tlist.pop t rest, cb n⟩ :: log, tlist', by rw [hloop], .turn h hl hdue hdrained⟩

/-! ## Runs -/

/-- What is to be said of a run, which finds the list as `tlist`. A timer that is due is not fired only
if the callback of one that stood before it in the list adds or deletes it. -/
structure TimersRun.Correct (tlist : CldTimerList ι) (now : Int) (r : TimersRun ι) : Prop where
  ended : r.ended = true
  due : ∀ f ∈ r.log, f.timer ∈ tlist.list ∧ (tlist.timer f.timer).expires ≤ now
  once : (r.log.map Firing.timer).Nodup
  inOrder : r.log.Pairwise fun f g => (tlist.timer f.timer).expires ≤ (tlist.timer g.timer).expires
  all : ∀ t ∈ tlist.list, (tlist.timer t).expires ≤ now → t ∉ r.log.map Firing.timer →
    ∃ f ∈ r.log, f.Touches t ∧ [f.timer, t].Sublist tlist.list
  untouched : r.log.Pairwise fun f g => ¬ f.Touches g.timer
  seen : ∀ f ∈ r.log, ∀ ops, ops <+: f.ops → (run CldTimerList.op f.seen ops).Ordered
  left : r.tlist.Ordered
  timeout : 0 < r.timeout ↔ r.tlist.list ≠ []

theorem cldTimersRun_correct (cb : Nat → List (TimerOp ι)) (now : Int) {fuel : Nat}
    (h : tlist.Ordered) (hfuel : tlist.list.length < fuel) :
    (cldTimersRun cb now fuel tlist).Correct tlist now := by
  have hlen : (tlist.due now).length < fuel := (List.length_filter_le _ _).trans_lt hfuel
  obtain ⟨log, tlist', hloop, hd⟩ := cldTimersLoop_drained cb 0 (h.congr now) hlen
  have hsub : (log.map Firing.timer).Sublist tlist.list := hd.fires.trans List.filter_sublist
  have hord := h.sorted.sublist hsub
  rw [List.pairwise_map] at hord
  have hrun : cldTimersRun cb now fuel tlist = ⟨true, log, tlist', nextTimeout now tlist'⟩ := by
    unfold cldTimersRun
    rw [hloop]
  rw [hrun]
  refine ⟨rfl, fun f hf => ?_, h.nodup.sublist hsub, hord,
    fun t ht hdue hnot => ?_, hd.untouched,
    fun f hf ops _ => (hd.seen f hf).ops ops, hd.ordered, nextTimeout_pos now tlist'⟩
  · obtain ⟨hmem, hdue⟩ := List.mem_filter.mp (hd.fires.subset (List.mem_map_of_mem hf))
    exact ⟨hmem, by simpa using hdue⟩
  · obtain ⟨f, hf, htouch, hbefore⟩ := hd.all t (List.mem_filter.mpr ⟨ht, by simpa using hdue⟩) hnot
    exact ⟨f, hf, htouch, hbefore.trans List.filter_sublist⟩

theorem step_ordered (h : tlist.Ordered) (ev : TimerEv ι) : (tlist.step ev).Ordered := by
  cases ev with
  | op o => exact h.op o
  | run now cb => exact (cldTimersRun_correct cb now h (Nat.lt_succ_self _)).left

/-- After any operations and runs, the list is in order and a run fires the timers that were due, but
for those that a callback has added or deleted before. -/
theorem run_timers (evs : List (TimerEv ι)) (now : Int) (cb : Nat → List (TimerOp ι)) (n : Nat) :
    (run CldTimerList.step .init evs).Ordered ∧
      (cldTimersRun cb now ((run CldTimerList.step .init evs).list.length + 1 + n)
        (run CldTimerList.step .init evs)).Correct (run CldTimerList.step .init evs) now := by
  have h : (run CldTimerList.step .init evs : CldTimerList ι).Ordered :=
    run_invariant (I := CldTimerList.Ordered) .init (fun _ ev hs => step_ordered hs ev) evs
  exact ⟨h, cldTimersRun_correct cb now h (by omega)⟩

/-- A timer that is added again while it is due is put off, although no callback deletes it. -/
theorem readded_not_fired :
    ∃ (evs : List (TimerEv Nat)) (now : Int) (cb : Nat → List (TimerOp Nat)) (t : Nat),
      let tlist := run CldTimerList.step .init evs
      let r := cldTimersRun cb now (tlist.list.length + 1) tlist
      t ∈ tlist.list ∧ (tlist.timer t).expires ≤ now ∧ (∀ f ∈ r.log, .del t ∉ f.ops) ∧
        t ∉ r.log.map Firing.timer :=
  ⟨[.op (.add 1 5), .op (.add 2 5)], 10, fun _ => [.add 1 5], 1, by decide⟩

end

end Hail.Lib
