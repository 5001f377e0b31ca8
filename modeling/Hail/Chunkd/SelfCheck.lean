import Hail.Chunkd.Table

/-!
# The object cache and the self-check

`objcache.c` keeps an entry for each hash of a key that somebody works on, with a count of references.
The self-check of `selfcheck.c` walks a table, sums the data of each file and takes a file away when
the sum is not the one in its header, unless the entry says that somebody has written.
-/
namespace Hail.Chunkd

open Library

/-- `struct objcache_entry`; the flags are `OC_F_DIRTY` alone. An entry nobody refers to is removed. -/
structure ObjcacheEntry where
  dirty : Bool
  ref : Nat
  ref_pos : 0 < ref
  deriving DecidableEq

/-- `struct objcache`: an entry for each hash. -/
abbrev Objcache := UInt32 → Option ObjcacheEntry

def objcacheHash (key : Bytes) : UInt32 :=
  key.foldl (fun hash c =>
    let hash := hash ^^^ (hash <<< 16)
    let hash := hash ^^^ c.toUInt32
    (hash <<< 8) ||| (hash >>> 24)) 0x55555555

/-- `__objcache_get`. Without memory for a new entry the process dies. -/
def objcacheGet (fails : Bool) (cache : Objcache) (key : Bytes) (dirty : Bool) :
    Option (UInt32 × Objcache) :=
  let hash := objcacheHash key
  match cache hash with
  | some cep =>
    some (hash, Function.update cache hash
      (some ⟨cep.dirty || dirty, cep.ref + 1, Nat.succ_pos _⟩))
  | none =>
    if fails then none else some (hash, Function.update cache hash (some ⟨dirty, 1, Nat.one_pos⟩))

def objcacheTestDirty (cache : Objcache) (hash : UInt32) : Bool :=
  (cache hash).any ObjcacheEntry.dirty

def objcachePut (cache : Objcache) (hash : UInt32) : Objcache :=
  match cache hash with
  | none => cache
  | some cep =>
    if h : cep.ref = 1 then Function.update cache hash none
    else
      Function.update cache hash
        (some ⟨cep.dirty, cep.ref - 1, by have := cep.ref_pos; omega⟩)

/-- A reference taken and given back leaves the cache as it was. -/
theorem objcachePut_get {fails : Bool} {cache cache' : Objcache} {key : Bytes} {cep : UInt32}
    (h : objcacheGet fails cache key false = some (cep, cache')) :
    objcachePut cache' cep = cache := by
  unfold objcacheGet at h
  dsimp only at h
  split at h
  · next old hold =>
    obtain ⟨rfl, rfl⟩ := Prod.mk.inj (Option.some.inj h)
    have href : ¬ old.ref + 1 = 1 := by have := old.ref_pos; omega
    simp only [objcachePut, Function.update_self, dif_neg href, Function.update_idem, Bool.or_false,
      Nat.add_sub_cancel]
    exact Function.update_eq_self_iff.mpr hold.symm
  · next hold =>
    split at h
    · cases h
    · obtain ⟨rfl, rfl⟩ := Prod.mk.inj (Option.some.inj h)
      simp only [objcachePut, Function.update_self, dite_true, Function.update_idem]
      exact Function.update_eq_self_iff.mpr hold.symm

/-- `fs_obj_disable`, which takes the file to the directory of bad ones. -/
def fsObjDisable (fs : Vol) (fails : Bool) (tableId : Nat) (fn : FileName) : Vol :=
  match fs.named tableId fn with
  | none => fs
  | some p => if fails then fs else fs.unlink p

/-- What the calls of a check of one file do: besides those of `fs_obj_do_sum`, the allocation of a
cache entry and those of `fs_obj_disable`. -/
structure ChkCalls where
  sys : Sys
  cacheFails : Bool
  disableFails : Bool

/-- `stat_ok`, `stat_conflict`, the files checked, and whether the process has died. -/
structure ChkTls where
  statOk : Nat := 0
  statConflict : Nat := 0
  visited : List FileName := []
  dead : Bool := false
  deriving DecidableEq

/-- `fs_obj_do_sum` by name. -/
def fsObjDoSumNamed (e : Env) (y : Sys) (fs : Vol) (tableId : Nat) (fn : FileName)
    (info : HdrInfo) : Option Bytes :=
  match fs.named tableId fn with
  | none => none
  | some p => fsObjDoSum e y fs p info.key.length info.csumlen

/-- The body of the loop of `chk_list_objs` when nothing else runs, and whether the loop goes on. -/
def chkBody (e : Env) (c : ListCalls) (k : FileName → ChkCalls) (tableId : Nat) (fn : FileName) :
    Vol × Objcache × ChkTls → (Vol × Objcache × ChkTls) × Bool
  | (fs, cache, tls) =>
    if c.nameFails fn then ((fs, cache, tls), false)
    else
      match fsObjHdrRead fs (c.hdrFails fn) tableId fn with
      | none => ((fs, cache, tls), false)
      | some info =>
        match objcacheGet (k fn).cacheFails cache info.key false with
        | none => ((fs, cache, { tls with dead := true }), false)
        | some (cep, cache) =>
          let tls := { tls with visited := tls.visited ++ [fn] }
          match fsObjDoSumNamed e (k fn).sys fs tableId fn info with
          | none => ((fs, objcachePut cache cep, tls), true)
          | some mdAct =>
            if objcacheTestDirty cache cep then
              ((fs, objcachePut cache cep, { tls with statConflict := tls.statConflict + 1 }), true)
            else if info.hash ≠ mdAct then
              ((fsObjDisable fs (k fn).disableFails tableId fn, objcachePut cache cep, tls), true)
            else ((fs, objcachePut cache cep, { tls with statOk := tls.statOk + 1 }), true)

def chkListObjs (e : Env) (c : ListCalls) (k : FileName → ChkCalls) (fs : Vol) (cache : Objcache)
    (tableId : Nat) : Vol × Objcache × ChkTls :=
  if !c.opens then (fs, cache, {})
  else listerLoop (chkBody e c k tableId) (c.lister.size + 1) c.lister (fs, cache, {})

end Hail.Chunkd
