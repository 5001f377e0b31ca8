import Hail.Library.Buckets
import Hail.Library.Run

/-!
# The hash table

`htab.c`, with `htab_put`, `htab_get`, `htab_del` and `htab_foreach` compared with the list of the pairs
that are present. `htab_put` takes the bucket of the new entry before it makes the table larger.
-/
namespace Hail.Lib

open Library

structure HtabEntry (κ ν : Type*) where
  key : κ
  value : ν
  hash : UInt64
  deriving DecidableEq

def primes : List Nat :=
  [5, 769, 6151, 49157, 98317, 196613, 393241, 786433, 1572869, 3145739, 6291469, 12582917, 25165843,
    50331653, 100663319, 201326611, 402653189, 805306457, 1610612741]

/-- `struct htab`. Each bucket is the chain of its entries. -/
structure Htab (κ ν : Type*) where
  primeIdx : Fin primes.length
  buckets : Nat → List (HtabEntry κ ν)
  nEnt : Nat

section

variable {κ ν : Type*}

def HtabEntry.code (ent : HtabEntry κ ν) : Nat := ent.hash.toNat

def htabSz (htab : Htab κ ν) : Nat := primes.get htab.primeIdx

def htabNew : Htab κ ν := ⟨⟨0, by decide⟩, fun _ => [], 0⟩

def htabSize (htab : Htab κ ν) : Nat := htab.nEnt

def htabNeedResize (htab : Htab κ ν) : Bool :=
  let sz := htabSz htab
  let threshold := sz * 2 / 3
  htab.nEnt > threshold

/-- The entries in the order in which the loops over the table meet them. -/
def Htab.entries (htab : Htab κ ν) : List (HtabEntry κ ν) := Buckets.all (htabSz htab) htab.buckets

def Htab.next (htab : Htab κ ν) : Option (Fin primes.length) :=
  if h : htab.primeIdx + 1 < primes.length then some ⟨htab.primeIdx + 1, h⟩ else none

/-- The table with its entries moved to as many buckets as the prime number `idx` says. -/
def Htab.grown (htab : Htab κ ν) (idx : Fin primes.length) : Htab κ ν :=
  { htab with primeIdx := idx, buckets := Buckets.spread HtabEntry.code (primes.get idx) htab.entries }

/-- `htab_resize`. Past the last prime the code reads what lies behind its table: there is no result. -/
def htabResize (memory : Bool) (htab : Htab κ ν) : Option (Bool × Htab κ ν) :=
  htab.next.map fun idx => if memory then (true, htab.grown idx) else (false, htab)

/-- `memory` says whether there is memory for new buckets and for an entry. -/
def htabPut (hashFn : κ → UInt64) (memory : Bool × Bool) (htab : Htab κ ν) (key : κ) (value : ν) :
    Option (Bool × Htab κ ν) :=
  let hash := hashFn key
  let bucket := hash.toNat % htabSz htab
  (if htabNeedResize htab then htabResize memory.1 htab else some (true, htab)).map fun (ok, htab) =>
    if !ok then (false, htab)
    else if !memory.2 then (false, htab)
    else
      let ent := ⟨key, value, hash⟩
      (true, { htab with
        buckets := Function.update htab.buckets bucket (ent :: htab.buckets bucket)
        nEnt := htab.nEnt + 1 })

variable (hashFn : κ → UInt64) (cmpFn : κ → κ → Int)

def HtabEntry.isKey (ent : HtabEntry κ ν) (key : κ) : Bool :=
  ent.hash = hashFn key && cmpFn ent.key key = 0

def htabGet (htab : Htab κ ν) (key : κ) : Option ν :=
  let bucket := (hashFn key).toNat % htabSz htab
  ((htab.buckets bucket).find? fun ent => ent.isKey hashFn cmpFn key).map HtabEntry.value

def htabDel (htab : Htab κ ν) (key : κ) : Bool × Htab κ ν :=
  let bucket := (hashFn key).toNat % htabSz htab
  let chain := htab.buckets bucket
  let found := chain.filter fun ent => ent.isKey hashFn cmpFn key
  (!found.isEmpty,
    { htab with
      buckets := Buckets.filterAt htab.buckets bucket fun ent => !ent.isKey hashFn cmpFn key
      nEnt := htab.nEnt - found.length })

def htabForeach {σ : Type*} (iterFn : σ → κ → ν → σ) (userdata : σ) (htab : Htab κ ν) : σ :=
  htab.entries.foldl (fun s ent => iterFn s ent.key ent.value) userdata

/-! ## A table and the pairs present -/

inductive HtabOp (κ ν : Type*)
  | put (key : κ) (value : ν)
  | del (key : κ)

/-- What an operation does when the allocations succeed. -/
def Htab.step (htab : Htab κ ν) : HtabOp κ ν → Htab κ ν
  | .put key value => ((htabPut hashFn (true, true) htab key value).map Prod.snd).getD htab
  | .del key => (htabDel hashFn cmpFn htab key).2

/-- The pairs put and not deleted, the latest first. -/
def present (pairs : List (κ × ν)) : HtabOp κ ν → List (κ × ν)
  | .put key value => (key, value) :: pairs
  | .del key => pairs.filter fun p => cmpFn p.1 key ≠ 0

def bothStep (s : Htab κ ν × List (κ × ν)) (op : HtabOp κ ν) : Htab κ ν × List (κ × ν) :=
  (s.1.step hashFn cmpFn op, present cmpFn s.2 op)

/-- The pairs that `htab_foreach` gives to its function. -/
def Htab.visited (htab : Htab κ ν) : List (κ × ν) :=
  htabForeach (fun seen key value => seen ++ [(key, value)]) [] htab

/-- The table holds these pairs. -/
structure Htab.IsMap (htab : Htab κ ν) (pairs : List (κ × ν)) : Prop where
  get : ∀ key, htabGet hashFn cmpFn htab key =
    (pairs.find? fun p => cmpFn p.1 key = 0).map Prod.snd
  del : ∀ key, (htabDel hashFn cmpFn htab key).1 = pairs.any fun p => cmpFn p.1 key = 0
  rest : ∀ key, (htabDel hashFn cmpFn htab key).2.visited.Perm
    (pairs.filter fun p => cmpFn p.1 key ≠ 0)
  size : htabSize htab = pairs.length
  foreach : htab.visited.Perm pairs

/-- When the table is made larger, the new entry belongs to the bucket with the same number. -/
def Htab.Lands (htab : Htab κ ν) : HtabOp κ ν → Prop
  | .put key _ => htabNeedResize htab = true →
    ∃ idx, htab.next = some idx ∧ (hashFn key).toNat % htabSz htab = (hashFn key).toNat % primes.get idx
  | .del _ => True

/-! ## The invariant -/

def entryOf (p : κ × ν) : HtabEntry κ ν := ⟨p.1, p.2, hashFn p.1⟩

structure Htab.Holds (htab : Htab κ ν) (pairs : List (κ × ν)) : Prop where
  placed : Buckets.Placed HtabEntry.code (htabSz htab) htab.buckets
  entries : htab.entries.Perm (pairs.map (entryOf hashFn))
  chains : ∀ x, Buckets.ofHash HtabEntry.code (htabSz htab) htab.buckets x =
    (pairs.map (entryOf hashFn)).filter fun ent => ent.code = x
  size : htab.nEnt = pairs.length

end

theorem primes_pos (idx : Fin primes.length) : 0 < primes.get idx := by
  revert idx
  decide

theorem primes_lt (idx : Fin primes.length) (h : idx + 1 < primes.length) :
    primes.get idx < primes.get ⟨idx + 1, h⟩ := by
  revert idx
  decide

section

variable {κ ν : Type*} {hashFn : κ → UInt64} {cmpFn : κ → κ → Int} {htab : Htab κ ν}
  {pairs : List (κ × ν)}

theorem htabSz_pos (htab : Htab κ ν) : 0 < htabSz htab := primes_pos htab.primeIdx

theorem Htab.next_lt {idx : Fin primes.length} (h : htab.next = some idx) :
    htabSz htab < primes.get idx := by
  unfold Htab.next at h
  split at h
  · next hlt =>
    rw [← Option.some.inj h]
    exact primes_lt htab.primeIdx hlt
  · cases h

/-- Keys that compare equal have one hash, so that of the pairs only the keys need be compared. -/
theorem isKey_entryOf (hcmp : ∀ a b, cmpFn a b = 0 → hashFn a = hashFn b) (p : κ × ν) (key : κ) :
    (entryOf hashFn p).isKey hashFn cmpFn key = decide (cmpFn p.1 key = 0) := by
  unfold HtabEntry.isKey entryOf
  by_cases h : cmpFn p.1 key = 0
  · simp [h, hcmp _ _ h]
  · simp [h]

theorem code_of_isKey {ent : HtabEntry κ ν} {key : κ} (h : ent.isKey hashFn cmpFn key = true) :
    ent.code = (hashFn key).toNat := by
  simp only [HtabEntry.isKey, Bool.and_eq_true, decide_eq_true_eq] at h
  rw [HtabEntry.code, h.1]

theorem visited_eq (htab : Htab κ ν) :
    htab.visited = htab.entries.map fun ent => (ent.key, ent.value) := by
  have hgen : ∀ (seen : List (κ × ν)) (l : List (HtabEntry κ ν)),
      l.foldl (fun seen ent => seen ++ [(ent.key, ent.value)]) seen =
        seen ++ l.map fun ent => (ent.key, ent.value) := by
    intro seen l
    induction l generalizing seen with
    | nil => simp
    | cons ent l ih => rw [List.foldl_cons, ih, List.map_cons, List.append_assoc, List.singleton_append]
  exact hgen [] htab.entries

theorem visited_perm (h : htab.entries.Perm (pairs.map (entryOf hashFn))) : htab.visited.Perm pairs := by
  have hmap := h.map fun ent => (ent.key, ent.value)
  rw [List.map_map] at hmap
  rw [visited_eq]
  refine hmap.trans (List.Perm.of_eq ?_)
  exact List.map_id _

namespace Htab.Holds

theorem init : (htabNew : Htab κ ν).Holds hashFn [] where
  placed i a ha := by cases ha
  entries := by
    rw [Htab.entries, Buckets.all]
    exact List.Perm.of_eq (List.flatMap_eq_nil_iff.mpr fun _ _ => rfl)
  chains _ := rfl
  size := rfl

theorem grow (h : htab.Holds hashFn pairs) (idx : Fin primes.length) :
    (htab.grown idx).Holds hashFn pairs where
  placed := Buckets.placed_spread htab.entries
  entries := (Buckets.all_spread (primes_pos idx) htab.entries).trans h.entries
  chains x := (Buckets.ofHash_spread (htabSz_pos htab) h.placed _ x).trans (h.chains x)
  size := h.size

/-- An entry is added to the bucket of its hash. -/
theorem push (h : htab.Holds hashFn pairs) (key : κ) (value : ν) :
    Htab.Holds hashFn { htab with
      buckets := Buckets.push HtabEntry.code (htabSz htab) htab.buckets ⟨key, value, hashFn key⟩
      nEnt := htab.nEnt + 1 } ((key, value) :: pairs) where
  placed := h.placed.push _
  entries := (Buckets.all_push (htabSz_pos htab) _).trans (h.entries.cons _)
  chains x := by
    have hpush := @Buckets.ofHash_push _ HtabEntry.code (htabSz htab) htab.buckets
      ⟨key, value, hashFn key⟩ x
    rw [h.chains x] at hpush
    rw [List.map_cons, List.filter_cons]
    simp only [decide_eq_true_eq]
    exact hpush
  size := congrArg (· + 1) h.size

theorem other_chain (h : htab.Holds hashFn pairs) (key : κ) :
    ∀ j, j ≠ (hashFn key).toNat % htabSz htab → ∀ ent ∈ htab.buckets j,
      ent.isKey hashFn cmpFn key = false := by
  intro j hj ent hent
  by_contra hkey
  refine hj ?_
  rw [← h.placed j ent hent, code_of_isKey (Bool.not_eq_false _ ▸ hkey)]

/-- The entries of the bucket that have the key are all there are. -/
theorem filter_chain (h : htab.Holds hashFn pairs) (key : κ) :
    (htab.entries.filter fun ent => ent.isKey hashFn cmpFn key) =
      (htab.buckets ((hashFn key).toNat % htabSz htab)).filter fun ent => ent.isKey hashFn cmpFn key :=
  Buckets.filter_all (Nat.mod_lt _ (htabSz_pos htab)) (h.other_chain key)

theorem del (hcmp : ∀ a b, cmpFn a b = 0 → hashFn a = hashFn b) (h : htab.Holds hashFn pairs) (key : κ) :
    (htabDel hashFn cmpFn htab key).2.Holds hashFn (pairs.filter fun p => cmpFn p.1 key ≠ 0) := by
  have hpairs : (pairs.map (entryOf hashFn)).filter (fun ent => !ent.isKey hashFn cmpFn key) =
      (pairs.filter fun p => cmpFn p.1 key ≠ 0).map (entryOf hashFn) := by
    rw [List.filter_map]
    refine congrArg _ (List.filter_congr fun p _ => ?_)
    simp [isKey_entryOf hcmp]
  have hother : ∀ j, j ≠ (hashFn key).toNat % htabSz htab → ∀ ent ∈ htab.buckets j,
      (!ent.isKey hashFn cmpFn key) = true := fun j hj ent hent => by
    rw [h.other_chain key j hj ent hent, Bool.not_false]
  have hall : (htabDel hashFn cmpFn htab key).2.entries =
      htab.entries.filter fun ent => !ent.isKey hashFn cmpFn key := Buckets.all_filterAt hother
  have hperm := h.entries.filter fun ent => !ent.isKey hashFn cmpFn key
  rw [hpairs] at hperm
  refine ⟨h.placed.filterAt _ _, hall ▸ hperm, fun x => ?_, ?_⟩
  · have hfilter := @Buckets.ofHash_filterAt _ HtabEntry.code (htabSz htab) _ _ _ hother x
    rw [h.chains x, List.filter_filter] at hfilter
    rw [← hpairs, List.filter_filter]
    simp only [Bool.and_comm] at hfilter ⊢
    exact hfilter
  · have hlen := List.length_eq_length_filter_add (l := htab.entries)
      fun ent => ent.isKey hashFn cmpFn key
    have hkept := hperm.length_eq
    have hsize := h.entries.length_eq
    rw [List.length_map] at hkept hsize
    change htab.nEnt - ((htab.buckets _).filter _).length = _
    rw [← h.filter_chain key, ← hkept, h.size, ← hsize]
    omega

/-- The first entry of the bucket that has the key is that of the latest pair with it. -/
theorem find?_chain (hcmp : ∀ a b, cmpFn a b = 0 → hashFn a = hashFn b) (h : htab.Holds hashFn pairs)
    (key : κ) :
    (htab.buckets ((hashFn key).toNat % htabSz htab)).find? (fun ent => ent.isKey hashFn cmpFn key) =
      (pairs.find? fun p => cmpFn p.1 key = 0).map (entryOf hashFn) := by
  have hfind : ∀ l : List (HtabEntry κ ν), l.find? (fun ent => ent.isKey hashFn cmpFn key) =
      (l.filter fun ent => ent.code = (hashFn key).toNat).find? fun ent =>
        ent.isKey hashFn cmpFn key := by
    intro l
    rw [List.find?_filter]
    congr 1
    funext ent
    by_cases hkey : ent.isKey hashFn cmpFn key = true
    · simp [hkey, code_of_isKey hkey]
    · simp [hkey]
  have hchain := h.chains (hashFn key).toNat
  rw [Buckets.ofHash] at hchain
  rw [hfind, hchain, ← hfind, List.find?_map]
  congr 2
  funext p
  exact isKey_entryOf hcmp p key

theorem isMap (hcmp : ∀ a b, cmpFn a b = 0 → hashFn a = hashFn b) (h : htab.Holds hashFn pairs) :
    htab.IsMap hashFn cmpFn pairs where
  get key := by
    rw [htabGet, h.find?_chain hcmp key, Option.map_map]
    rfl
  del key := by
    have hany : (htabDel hashFn cmpFn htab key).1 =
        (htab.buckets ((hashFn key).toNat % htabSz htab)).any fun ent => ent.isKey hashFn cmpFn key := by
      rw [Bool.eq_iff_iff, List.any_eq_true]
      simp [htabDel]
    rw [hany, Bool.eq_iff_iff, List.any_eq_true, List.any_eq_true, ← List.find?_isSome,
      h.find?_chain hcmp key, Option.isSome_map, List.find?_isSome]
  rest key := visited_perm (h.del hcmp key).entries
  size := h.size
  foreach := visited_perm h.entries

end Htab.Holds

/-! ## Putting -/

/-- A new entry at the head of bucket `bucket`. -/
def Htab.added (htab : Htab κ ν) (bucket : Nat) (ent : HtabEntry κ ν) : Htab κ ν :=
  { htab with
    buckets := Function.update htab.buckets bucket (ent :: htab.buckets bucket)
    nEnt := htab.nEnt + 1 }

theorem step_put_kept (key : κ) (value : ν) (hneed : htabNeedResize htab = false) :
    htab.step hashFn cmpFn (.put key value) =
      htab.added ((hashFn key).toNat % htabSz htab) ⟨key, value, hashFn key⟩ := by
  simp [Htab.step, htabPut, hneed, Htab.added]

/-- The number of the bucket is the one of before the table was made larger. -/
theorem step_put_grown (key : κ) (value : ν) (hneed : htabNeedResize htab = true)
    {idx : Fin primes.length} (hidx : htab.next = some idx) :
    htab.step hashFn cmpFn (.put key value) =
      (htab.grown idx).added ((hashFn key).toNat % htabSz htab) ⟨key, value, hashFn key⟩ := by
  simp [Htab.step, htabPut, hneed, htabResize, hidx, Htab.added]

theorem step_put_stuck (key : κ) (value : ν) (hneed : htabNeedResize htab = true)
    (hidx : htab.next = none) : htab.step hashFn cmpFn (.put key value) = htab := by
  simp [Htab.step, htabPut, hneed, htabResize, hidx]

theorem step_holds (hcmp : ∀ a b, cmpFn a b = 0 → hashFn a = hashFn b) (h : htab.Holds hashFn pairs)
    {op : HtabOp κ ν} (hop : htab.Lands hashFn op) :
    (htab.step hashFn cmpFn op).Holds hashFn (present cmpFn pairs op) := by
  cases op with
  | put key value =>
    by_cases hneed : htabNeedResize htab = true
    · obtain ⟨idx, hidx, hbucket⟩ := hop hneed
      rw [step_put_grown key value hneed hidx, hbucket]
      exact (h.grow idx).push key value
    · rw [step_put_kept key value (Bool.eq_false_iff.mpr hneed)]
      exact h.push key value
  | del key => exact h.del hcmp key

/-- An entry in a wrong bucket is not found, and stays when its key is deleted. -/
theorem lands_of_isMap (hrefl : ∀ key, cmpFn key key = 0) (h : htab.Holds hashFn pairs)
    {op : HtabOp κ ν}
    (hmap : (htab.step hashFn cmpFn op).IsMap hashFn cmpFn (present cmpFn pairs op)) :
    htab.Lands hashFn op := by
  cases op with
  | del key => trivial
  | put key value =>
    intro hneed
    cases hidx : htab.next with
    | none =>
      have hsize := hmap.size
      rw [step_put_stuck key value hneed hidx, htabSize, h.size, present, List.length_cons] at hsize
      omega
    | some idx =>
      refine ⟨idx, rfl, ?_⟩
      by_contra hne
      rw [step_put_grown key value hneed hidx] at hmap
      set stale : Htab κ ν := (htab.grown idx).added ((hashFn key).toNat % htabSz htab)
        ⟨key, value, hashFn key⟩ with hstale
      have hsz : htabSz stale = primes.get idx := rfl
      -- the deletion leaves the bucket of the entry as it is
      have hchain : (⟨key, value, hashFn key⟩ : HtabEntry κ ν) ∈
          (htabDel hashFn cmpFn stale key).2.buckets ((hashFn key).toNat % htabSz htab) := by
        change _ ∈ Function.update stale.buckets ((hashFn key).toNat % htabSz stale) _ _
        rw [hsz, Function.update_of_ne hne, hstale, Htab.added]
        dsimp only
        rw [Function.update_self]
        exact List.mem_cons_self
      have hlt : (hashFn key).toNat % htabSz htab < primes.get idx :=
        (Nat.mod_lt _ (htabSz_pos htab)).trans (Htab.next_lt hidx)
      have hmem : (⟨key, value, hashFn key⟩ : HtabEntry κ ν) ∈
          (htabDel hashFn cmpFn stale key).2.entries :=
        List.mem_flatMap.mpr ⟨_, List.mem_range.mpr hlt, hchain⟩
      have hvisited : (key, value) ∈ (htabDel hashFn cmpFn stale key).2.visited := by
        rw [visited_eq]
        exact List.mem_map_of_mem hmem
      have hrest := (hmap.rest key).subset hvisited
      simp [hrefl] at hrest

/-- In all states of a run the table is a map if and only if every entry is put, when the table is made
larger, into a bucket whose number does not change by that. -/
theorem run_htab_map_iff (hashFn : κ → UInt64) (cmpFn : κ → κ → Int)
    (hcmp : ∀ a b, cmpFn a b = 0 → hashFn a = hashFn b) (hrefl : ∀ key, cmpFn key key = 0)
    (ops : List (HtabOp κ ν)) :
    (∀ done, done <+: ops →
      (run (bothStep hashFn cmpFn) (htabNew, []) done).1.IsMap hashFn cmpFn
        (run (bothStep hashFn cmpFn) (htabNew, []) done).2) ↔
      Meets (bothStep hashFn cmpFn) (fun (s : Htab κ ν × List (κ × ν)) op => s.1.Lands hashFn op)
        (htabNew, []) ops :=
  Meets.iff_forall (I := fun s : Htab κ ν × List (κ × ν) => s.1.Holds hashFn s.2)
    (P := fun s : Htab κ ν × List (κ × ν) => s.1.IsMap hashFn cmpFn s.2) Htab.Holds.init (fun _ h => h.isMap hcmp)
    (fun _ _ h hop => step_holds hcmp h hop) fun _ _ h hmap => lands_of_isMap hrefl h hmap

/-- A number is its own hash. -/
def ownHash (n : UInt64) : UInt64 := n

def cmpNumbers (a b : UInt64) : Int := a.toNat - b.toNat

theorem run_htab_map_iff_numbers :
    (∀ done, done <+: [HtabOp.put 1 (10 : Nat), .put 2 20, .put 1 11, .del 2] →
      (run (bothStep ownHash cmpNumbers) (htabNew, []) done).1.IsMap ownHash cmpNumbers
        (run (bothStep ownHash cmpNumbers) (htabNew, []) done).2) ↔
      Meets (bothStep ownHash cmpNumbers)
        (fun (s : Htab UInt64 Nat × List (UInt64 × Nat)) op => s.1.Lands ownHash op) (htabNew, [])
        [.put 1 10, .put 2 20, .put 1 11, .del 2] :=
  run_htab_map_iff ownHash cmpNumbers
    (fun a b h => UInt64.toNat_inj.mp (by simp only [cmpNumbers] at h; simp only [ownHash]; omega))
    (fun _ => by simp [cmpNumbers]) _

/-- The key whose entry makes the table larger is not found. -/
theorem resizing_put_lost :
    let s := run (bothStep ownHash cmpNumbers) (htabNew, [])
      [.put 1 (), .put 2 (), .put 3 (), .put 4 (), .put 5 ()]
    (s.2.find? fun p => cmpNumbers p.1 5 = 0) = some (5, ()) ∧ htabGet ownHash cmpNumbers s.1 5 = none ∧
      (htabDel ownHash cmpNumbers s.1 5).1 = false := by
  decide +kernel

end

end Hail.Lib
