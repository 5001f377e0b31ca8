import Hail.Cld.Rpc
import Mathlib.Data.List.Infix
import Mathlib.Tactic

/-!
# Pathnames and directory data

An inode is named by its full path. The data record of a directory lists the last components of
the names in it, each as a 16-bit length, the name, and zeros up to a multiple of eight bytes.
-/
namespace Hail.Cld

open Library

def slash : UInt8 := 0x2f

def validInodeName (name : Bytes) : Bool :=
  if name = [] ∨ name.head? = some 0 then false
  else if (cstr name).length ≠ name.length then false
  else if name.head? ≠ some slash then false
  else if 1 < name.length ∧ name.getLast? = some slash then false
  else if [slash, slash] <:+: name then false
  else true

/-- The offset of the last byte of a string that equals `c`. -/
def memrchr (c : UInt8) : Bytes → Option Nat
  | [] => none
  | b :: bs =>
    match memrchr c bs with
    | some i => some (i + 1)
    | none => if b = c then some 0 else none

structure PathnameInfo where
  dir : Bytes
  base : Bytes
  deriving DecidableEq, Repr

def pathnameParse (path : Bytes) : PathnameInfo :=
  match memrchr slash path with
  | none => ⟨[], path⟩
  | some 0 => if path.length = 1 then ⟨path, path⟩ else ⟨path.take 1, path.drop 1⟩
  | some ofs => ⟨path.take ofs, path.drop (ofs + 1)⟩

/-- `CLD_ALIGN8`: the bytes missing to the next multiple of eight. -/
def cldAlign8 (n : Nat) : Nat := (8 - n % 8) % 8

inductive DirentResult where
  | notfound
  | corrupt
  | found (ofs entLen : Nat)
  deriving DecidableEq, Repr

/-- The scan of `dirent_find`, `ofs` bytes into the data. Every record takes at least eight bytes,
so as many rounds as there are bytes are enough. -/
def direntScan (name : Bytes) : Nat → Nat → Bytes → DirentResult
  | 0, _, p => if p = [] then .notfound else .corrupt
  | fuel + 1, ofs, p =>
    if p = [] then .notfound
    else if p.length < 2 then .corrupt
    else
      let strLen := ofLe (p.take 2)
      let recLen := strLen + 2
      let totalLen := recLen + cldAlign8 recLen
      if p.length < totalLen then .corrupt
      else if name.length = strLen ∧ (p.drop 2).take strLen = name then .found ofs totalLen
      else direntScan name fuel (ofs + totalLen) (p.drop totalLen)

def direntFind (data name : Bytes) : DirentResult := direntScan name data.length 0 data

/-- The value of a `long` stored in an `int`. -/
def toInt32 (n : Nat) : Int := (n : Int).bmod (2 ^ 32)

/-- `ofs` is an `int`: from `2 ^ 31` bytes on it no longer is where the record stands, and the
unsigned sum that guards the move wraps around for a negative one. -/
def dirdataDelete (data name : Bytes) : Option Bytes :=
  match direntFind data name with
  | .found pos entLen =>
    let ofs := toInt32 pos
    let newLen := data.length - entLen
    if (ofs + entLen) % 2 ^ 64 < data.length then
      some ((data.take ofs.toNat ++ data.drop (ofs.toNat + entLen)).take newLen)
    else some (data.take newLen)
  | _ => none

/-- The record appended for a name. -/
def direntRec (name : Bytes) : Bytes :=
  leBytes 2 name.length ++ name ++ List.replicate (cldAlign8 (name.length + 2)) 0

def dirdataAppend (data name : Bytes) : Bytes := data ++ direntRec name

/-! ## Names and their parts -/

theorem memrchr_eq_none {c : UInt8} {p : Bytes} (h : memrchr c p = none) : c ∉ p := by
  induction p with
  | nil => simp
  | cons b p ih => grind [memrchr]

/-- The byte found is there. -/
theorem memrchr_eq_some {c : UInt8} {p : Bytes} {i : Nat} (h : memrchr c p = some i) :
    p = p.take i ++ c :: p.drop (i + 1) := by
  induction p generalizing i with
  | nil => simp [memrchr] at h
  | cons b p ih => grind [memrchr]

/-- A valid name other than the root is its directory, a slash and its base; in the root directory
the slash is the directory. -/
theorem pathnameParse_split {name : Bytes} (hv : validInodeName name = true)
    (hr : name ≠ [slash]) :
    ∃ pre, name = pre ++ slash :: (pathnameParse name).base ∧ pre ≠ [slash] ∧
      (pathnameParse name).dir = if pre = [] then [slash] else pre := by
  obtain ⟨hhead, hdouble⟩ : name.head? = some slash ∧ ¬ [slash, slash] <:+: name := by
    grind [validInodeName]
  obtain ⟨rest, rfl⟩ : ∃ rest, name = slash :: rest := by
    cases name with
    | nil => simp at hhead
    | cons b rest => exact ⟨rest, by simpa using hhead⟩
  cases hm : memrchr slash (slash :: rest) with
  | none => exact absurd (List.mem_cons_self) (memrchr_eq_none hm)
  | some i =>
    have hsplit := memrchr_eq_some hm
    cases i with
    | zero =>
      have hne : rest ≠ [] := fun he => hr (by rw [he])
      exact ⟨[], by simp [pathnameParse, hm, hne], by simp, by simp [pathnameParse, hm, hne]⟩
    | succ i =>
      refine ⟨(slash :: rest).take (i + 1), ?_, fun hpre => hdouble ?_, ?_⟩
      · simpa [pathnameParse, hm] using hsplit
      · rw [hpre] at hsplit
        exact ⟨[], _, hsplit.symm⟩
      · simp [pathnameParse, hm]

/-- A name is determined by its parts. -/
theorem pathnameParse_inj {m n : Bytes} (hm : validInodeName m = true) (hn : validInodeName n = true)
    (hm' : m ≠ [slash]) (hn' : n ≠ [slash]) (h : pathnameParse m = pathnameParse n) : m = n := by
  obtain ⟨p, hp, hp', hpd⟩ := pathnameParse_split hm hm'
  obtain ⟨q, hq, hq', hqd⟩ := pathnameParse_split hn hn'
  have hpq : p = q := by grind
  rw [hp, hq, h, hpq]

theorem ne_slash_of_long {name : Bytes} (h : 2 ≤ name.length) : name ≠ [slash] := by
  rintro rfl
  simp at h

theorem pathnameParse_dir_ne {name : Bytes} (hv : validInodeName name = true)
    (hr : name ≠ [slash]) : (pathnameParse name).dir ≠ name := by
  obtain ⟨pre, hp, -, hd⟩ := pathnameParse_split hv hr
  intro he
  have hlen := congrArg List.length (hd.symm.trans (he.trans hp))
  split at hlen
  · exact hr (by grind)
  · simp at hlen

theorem pathnameParse_base_length {name : Bytes} (hv : validInodeName name = true)
    (hr : name ≠ [slash]) : (pathnameParse name).base.length < name.length := by
  obtain ⟨pre, hp, -⟩ := pathnameParse_split hv hr
  have hlen := congrArg List.length hp
  simp at hlen
  omega

/-! ## What directory data says -/

/-- The names recorded in directory data, or `none` if it is not a sequence of whole records. -/
def dirNames : Nat → Bytes → Option (List Bytes)
  | 0, p => if p = [] then some [] else none
  | fuel + 1, p =>
    if p = [] then some []
    else if p.length < 2 then none
    else
      let strLen := ofLe (p.take 2)
      let totalLen := strLen + 2 + cldAlign8 (strLen + 2)
      if p.length < totalLen then none
      else (dirNames fuel (p.drop totalLen)).map ((p.drop 2).take strLen :: ·)

def dirdataNames (data : Bytes) : Option (List Bytes) := dirNames data.length data

/-- Directory data with the given names in this order. -/
def dirdataOf (names : List Bytes) : Bytes := names.flatMap direntRec

theorem direntRec_length (name : Bytes) :
    (direntRec name).length = name.length + 2 + cldAlign8 (name.length + 2) := by
  simp [direntRec]
  omega

theorem direntRec_length_pos (name : Bytes) : 8 ≤ (direntRec name).length := by
  rw [direntRec_length, cldAlign8]
  omega

theorem direntRec_strLen {name : Bytes} (h : name.length < 65536) (rest : Bytes) :
    ofLe ((direntRec name ++ rest).take 2) = name.length := by
  have ht : (direntRec name ++ rest).take 2 = leBytes 2 name.length := by
    rw [direntRec, List.append_assoc, List.append_assoc]
    exact List.take_left' (leBytes_length 2 _)
  rw [ht, ofLe_leBytes, Nat.mod_eq_of_lt (by simpa using h)]

theorem direntRec_name (name rest : Bytes) :
    ((direntRec name ++ rest).drop 2).take name.length = name := by
  have hd : (direntRec name ++ rest).drop 2 =
      name ++ (List.replicate (cldAlign8 (name.length + 2)) 0 ++ rest) := by
    rw [direntRec, List.append_assoc, List.append_assoc]
    exact List.drop_left' (leBytes_length 2 _)
  rw [hd, List.take_left]

/-- One round of a scan over data that begins with a whole record. -/
theorem direntScan_rec {x name : Bytes} (h : x.length < 65536) (fuel ofs : Nat) (rest : Bytes) :
    direntScan name (fuel + 1) ofs (direntRec x ++ rest) =
      if x = name then .found ofs (direntRec x).length
      else direntScan name fuel (ofs + (direntRec x).length) rest := by
  have hpos := direntRec_length_pos x
  have hne : direntRec x ++ rest ≠ [] := by
    intro he
    simp [List.append_eq_nil_iff.mp he] at hpos
  have h2 : ¬ (direntRec x ++ rest).length < 2 := by simp; omega
  have hlen : x.length + 2 + cldAlign8 (x.length + 2) = (direntRec x).length :=
    (direntRec_length x).symm
  have ht : ¬ (direntRec x ++ rest).length < (direntRec x).length := by simp
  simp only [direntScan, if_neg hne, if_neg h2, direntRec_strLen h, hlen, if_neg ht,
    direntRec_name, List.drop_left]
  by_cases hx : x = name
  · simp [hx]
  · rw [if_neg hx, if_neg (fun hn => hx hn.2)]

theorem dirNames_rec {x : Bytes} (h : x.length < 65536) (fuel : Nat) (rest : Bytes) :
    dirNames (fuel + 1) (direntRec x ++ rest) = (dirNames fuel rest).map (x :: ·) := by
  have hpos := direntRec_length_pos x
  have hne : direntRec x ++ rest ≠ [] := by
    intro he
    simp [List.append_eq_nil_iff.mp he] at hpos
  have h2 : ¬ (direntRec x ++ rest).length < 2 := by simp; omega
  have hlen : x.length + 2 + cldAlign8 (x.length + 2) = (direntRec x).length :=
    (direntRec_length x).symm
  have ht : ¬ (direntRec x ++ rest).length < (direntRec x).length := by simp
  simp only [dirNames, if_neg hne, if_neg h2, direntRec_strLen h, hlen, if_neg ht,
    direntRec_name, List.drop_left]

theorem dirNames_dirdataOf {names : List Bytes} (h : ∀ x ∈ names, x.length < 65536)
    {fuel : Nat} (hf : (dirdataOf names).length ≤ fuel) :
    dirNames fuel (dirdataOf names) = some names := by
  induction names generalizing fuel with
  | nil => cases fuel <;> simp [dirdataOf, dirNames]
  | cons x xs ih =>
    have hx := direntRec_length_pos x
    have hcons : dirdataOf (x :: xs) = direntRec x ++ dirdataOf xs := by simp [dirdataOf]
    rw [hcons, List.length_append] at hf
    obtain ⟨fuel, rfl⟩ : ∃ n, fuel = n + 1 := ⟨fuel - 1, by omega⟩
    rw [hcons, dirNames_rec (h x (by simp)),
      ih (fun y hy => h y (List.mem_cons_of_mem x hy)) (by omega)]
    rfl

/-- Directory data decodes to the names it was made of. -/
theorem dirdataNames_dirdataOf {names : List Bytes} (h : ∀ x ∈ names, x.length < 65536) :
    dirdataNames (dirdataOf names) = some names := dirNames_dirdataOf h le_rfl

theorem dirdataAppend_dirdataOf (names : List Bytes) (name : Bytes) :
    dirdataAppend (dirdataOf names) name = dirdataOf (names ++ [name]) := by
  simp [dirdataAppend, dirdataOf]

/-- Where the scan finds a name: behind the records before its first occurrence. -/
theorem direntScan_dirdataOf {pre post : List Bytes} {name : Bytes}
    (h : ∀ x ∈ pre ++ name :: post, x.length < 65536) (hp : name ∉ pre) {fuel ofs : Nat}
    (hf : (dirdataOf (pre ++ name :: post)).length ≤ fuel) :
    direntScan name fuel ofs (dirdataOf (pre ++ name :: post)) =
      .found (ofs + (dirdataOf pre).length) (direntRec name).length := by
  induction pre generalizing fuel ofs with
  | nil =>
    have hx := direntRec_length_pos name
    have hcons : dirdataOf ([] ++ name :: post) = direntRec name ++ dirdataOf post := by
      simp [dirdataOf]
    rw [hcons, List.length_append] at hf
    obtain ⟨fuel, rfl⟩ : ∃ n, fuel = n + 1 := ⟨fuel - 1, by omega⟩
    rw [hcons, direntScan_rec (h name (by simp)), if_pos rfl]
    simp [dirdataOf]
  | cons x xs ih =>
    have hx := direntRec_length_pos x
    have hcons : dirdataOf (x :: xs ++ name :: post) =
        direntRec x ++ dirdataOf (xs ++ name :: post) := by simp [dirdataOf]
    rw [hcons, List.length_append] at hf
    obtain ⟨fuel, rfl⟩ : ∃ n, fuel = n + 1 := ⟨fuel - 1, by omega⟩
    have hne : x ≠ name := fun he => hp (by simp [he])
    rw [hcons, direntScan_rec (h x (by simp)), if_neg hne,
      ih (fun y hy => h y (List.mem_cons_of_mem x hy)) (fun hm => hp (List.mem_cons_of_mem x hm))
        (by omega)]
    simp [dirdataOf]
    omega

theorem toInt32_of_lt {n : Nat} (h : n < 2 ^ 31) : toInt32 n = n := by
  unfold toInt32
  apply Int.bmod_eq_of_le
  · omega
  · push_cast
    omega

theorem direntFind_dirdataOf {pre post : List Bytes} {name : Bytes}
    (h : ∀ x ∈ pre ++ name :: post, x.length < 65536) (hp : name ∉ pre) :
    direntFind (dirdataOf (pre ++ name :: post)) name =
      .found (dirdataOf pre).length (direntRec name).length := by
  rw [direntFind, direntScan_dirdataOf h hp le_rfl, Nat.zero_add]

/-- Below `2 ^ 31` bytes the record of the name, and nothing else, leaves the data. -/
theorem dirdataDelete_dirdataOf {pre post : List Bytes} {name : Bytes}
    (h : ∀ x ∈ pre ++ name :: post, x.length < 65536) (hp : name ∉ pre)
    (hpos : (dirdataOf pre).length < 2 ^ 31) :
    dirdataDelete (dirdataOf (pre ++ name :: post)) name = some (dirdataOf (pre ++ post)) := by
  have hfind := direntFind_dirdataOf h hp
  have hrec : (direntRec name).length < 2 ^ 17 := by
    have hname := h name (by simp)
    rw [direntRec_length, cldAlign8]
    omega
  have hsplit : dirdataOf (pre ++ name :: post) =
      dirdataOf pre ++ direntRec name ++ dirdataOf post := by simp [dirdataOf]
  have hjoin : dirdataOf (pre ++ post) = dirdataOf pre ++ dirdataOf post := by simp [dirdataOf]
  rw [hsplit] at hfind ⊢
  rw [hjoin]
  simp only [dirdataDelete, hfind, toInt32_of_lt hpos]
  have hnew : (dirdataOf pre ++ direntRec name ++ dirdataOf post).length -
      (direntRec name).length = (dirdataOf pre ++ dirdataOf post).length := by
    simp only [List.length_append]
    omega
  have htail : (dirdataOf pre ++ direntRec name ++ dirdataOf post).drop
      ((dirdataOf pre).length + (direntRec name).length) = dirdataOf post := by
    rw [← List.length_append]
    exact List.drop_left
  have hhead : (dirdataOf pre ++ direntRec name ++ dirdataOf post).take (dirdataOf pre).length =
      dirdataOf pre := by rw [List.append_assoc, List.take_left]
  split
  · rw [Int.toNat_natCast, htail, hhead, hnew, List.take_length]
  · next hge =>
    -- the name stands last, so that nothing has to be moved
    have hpost : dirdataOf post = [] := by
      apply List.length_eq_zero_iff.mp
      simp only [List.length_append] at hge
      omega
    rw [hnew, hpost, List.append_nil, List.append_nil, List.take_left]

end Hail.Cld
