import Hail.Cld.Path
import Mathlib.Data.List.Chain

/-!
# The grammar of pathnames

`valid_inode_name` accepts the root and the sequences of components, and `pathname_parse` takes the last
component off. The offset of the latter is an `int`, so its split is right for paths of less than
`2 ^ 31` bytes.
-/
namespace Hail.Cld

open Library

/-- One or more bytes other than a slash and NUL. -/
structure IsComponent (c : Bytes) : Prop where
  ne_nil : c ≠ []
  noSlash : slash ∉ c
  noNul : 0 ∉ c

def pathOf (comps : List Bytes) : Bytes := comps.flatMap (slash :: ·)

def IsPath (name : Bytes) : Prop :=
  name = [slash] ∨ ∃ comps, comps ≠ [] ∧ (∀ c ∈ comps, IsComponent c) ∧ name = pathOf comps

/-- Not both of two bytes are slashes. -/
def Apart (a b : UInt8) : Prop := ¬ (a = slash ∧ b = slash)

theorem slash_ne_zero : slash ≠ 0 := by decide

/-- Two slashes in a row are what two neighbours can show. -/
theorem doubled_iff (s : Bytes) : ¬ [slash, slash] <:+: s ↔ s.IsChain Apart := by
  rw [List.isChain_iff_forall_rel_of_append_cons_cons]
  constructor
  · rintro h a b l₁ l₂ hs ⟨rfl, rfl⟩
    exact h ⟨l₁, l₂, by rw [hs]; simp⟩
  · rintro h ⟨l₁, l₂, hs⟩
    refine @h slash slash l₁ l₂ ?_ ⟨rfl, rfl⟩
    rw [← hs]
    simp

/-- What `valid_inode_name` tests. -/
theorem validInodeName_iff (name : Bytes) :
    validInodeName name = true ↔
      0 ∉ name ∧ name.head? = some slash ∧
        ¬ (1 < name.length ∧ name.getLast? = some slash) ∧ name.IsChain Apart := by
  rw [← doubled_iff]
  have hcstr : (cstr name).length = name.length ↔ 0 ∉ name := by
    constructor
    · intro h h0
      have heq : cstr name = name := (List.takeWhile_prefix _).eq_of_length h
      exact cstr_ne_zero (heq.symm ▸ h0) rfl
    · intro h
      rw [cstr_eq_self fun b hb hz => h (hz ▸ hb)]
  have hne := slash_ne_zero
  simp only [validInodeName, ne_eq, hcstr]
  cases name with
  | nil => simp
  | cons b bs =>
    by_cases hb : b = slash
    · subst hb
      simp only [List.head?_cons, Option.some.injEq, hne, reduceCtorEq, or_self, if_false, not_not,
        not_true_eq_false, true_and]
      grind
    · have hhead : ¬ (b :: bs).head? = some slash := by simpa using hb
      simp only [hhead, not_false_eq_true, if_true, false_and, and_false, iff_false]
      grind

/-! ## The grammar -/

theorem pathOf_cons (c : Bytes) (cs : List Bytes) : pathOf (c :: cs) = slash :: c ++ pathOf cs := rfl

theorem isChain_of_noSlash {c : Bytes} (h : slash ∉ c) : c.IsChain Apart := by
  rw [List.isChain_iff_forall_rel_of_append_cons_cons]
  rintro a b l₁ l₂ rfl ⟨rfl, -⟩
  exact h (by simp)

/-- A sequence of components has no slashes in a row, no NUL, and does not end in a slash. -/
theorem pathOf_sound {comps : List Bytes} (h : ∀ c ∈ comps, IsComponent c) :
    0 ∉ pathOf comps ∧ (pathOf comps).IsChain Apart ∧ (pathOf comps).getLast? ≠ some slash := by
  induction comps with
  | nil => exact ⟨by simp [pathOf], List.isChain_nil, by simp [pathOf]⟩
  | cons c cs ih =>
    have hc := h c List.mem_cons_self
    obtain ⟨hnul, hchain, hlast⟩ := ih fun x hx => h x (List.mem_cons_of_mem c hx)
    rw [pathOf_cons]
    refine ⟨?_, ?_, ?_⟩
    · rw [List.mem_append, List.mem_cons]
      rintro ((h0 | h0) | h0)
      · exact slash_ne_zero h0.symm
      · exact hc.noNul h0
      · exact hnul h0
    · rw [List.isChain_append]
      refine ⟨?_, hchain, ?_⟩
      · rw [List.isChain_cons]
        refine ⟨?_, isChain_of_noSlash hc.noSlash⟩
        rintro y hy ⟨-, rfl⟩
        exact hc.noSlash (List.mem_of_mem_head? hy)
      · rintro x hx y - ⟨rfl, -⟩
        rw [List.getLast?_cons_of_ne_nil hc.ne_nil] at hx
        exact hc.noSlash (List.mem_of_getLast? hx)
    · intro hend
      rw [List.getLast?_append] at hend
      cases hrest : (pathOf cs).getLast? with
      | some b =>
        rw [hrest] at hend hlast
        exact hlast hend
      | none =>
        rw [hrest, Option.none_or, List.getLast?_cons_of_ne_nil hc.ne_nil] at hend
        exact hc.noSlash (List.mem_of_getLast? hend)

/-- Bytes behind a slash, without slashes in a row or at the end, are components. -/
theorem exists_comps {s : Bytes} (hne : s ≠ []) (hnul : 0 ∉ s) (hchain : (slash :: s).IsChain Apart)
    (hlast : s.getLast? ≠ some slash) :
    ∃ comps, comps ≠ [] ∧ (∀ c ∈ comps, IsComponent c) ∧ slash :: s = pathOf comps := by
  induction hn : s.length using Nat.strong_induction_on generalizing s with
  | _ n ih =>
  have hsplit := List.takeWhile_append_dropWhile (p := (· ≠ slash)) (l := s)
  set c := s.takeWhile (· ≠ slash) with hc
  have hcomp : IsComponent c := by
    refine ⟨fun hnil => ?_, fun hm => ?_, fun h0 => hnul (List.takeWhile_subset _ h0)⟩
    · -- then the bytes begin with a slash
      cases s with
      | nil => exact hne rfl
      | cons b bs =>
        rw [List.isChain_cons_cons] at hchain
        rw [hc, List.takeWhile_cons] at hnil
        split at hnil
        · cases hnil
        · next hb => exact hchain.1 ⟨rfl, by simpa using hb⟩
    · simpa using List.mem_takeWhile_imp hm
  cases hrest : s.dropWhile (· ≠ slash) with
  | nil =>
    rw [hrest, List.append_nil] at hsplit
    refine ⟨[c], by simp, by simpa using hcomp, ?_⟩
    rw [pathOf_cons, hsplit]
    simp [pathOf]
  | cons b rest =>
    obtain rfl : b = slash := by
      have hb := List.head?_dropWhile_not (· ≠ slash) s
      rw [hrest] at hb
      simpa using hb
    rw [hrest] at hsplit
    have hrest_ne : rest ≠ [] := by
      rintro rfl
      exact hlast (by rw [← hsplit]; simp)
    have hsub : slash :: rest <:+ slash :: s := ⟨slash :: c, by rw [List.cons_append, hsplit]⟩
    have hlen := congrArg List.length hsplit
    rw [List.length_append, List.length_cons] at hlen
    obtain ⟨comps, -, hcomps, heq⟩ := ih rest.length (by omega) hrest_ne
      (fun h0 => hnul (by rw [← hsplit]; simp [h0])) (hchain.suffix hsub)
      (fun h => hlast (by
        rw [← hsplit, List.getLast?_append, List.getLast?_cons_of_ne_nil hrest_ne, h]
        rfl)) rfl
    refine ⟨c :: comps, by simp, ?_, ?_⟩
    · rintro x (_ | ⟨_, hx⟩)
      · exact hcomp
      · exact hcomps x hx
    · rw [pathOf_cons, ← heq, List.cons_append, hsplit]

theorem validInodeName_isPath (name : Bytes) : validInodeName name = true ↔ IsPath name := by
  rw [validInodeName_iff]
  constructor
  · rintro ⟨hnul, hhead, hlast, hchain⟩
    cases name with
    | nil => cases hhead
    | cons b s =>
      obtain rfl : b = slash := by simpa using hhead
      by_cases hs : s = []
      · exact .inl (by rw [hs])
      · refine .inr (exists_comps hs (fun h0 => hnul (List.mem_cons_of_mem _ h0)) hchain fun h => ?_)
        have hpos : 0 < s.length := List.length_pos_iff.mpr hs
        exact hlast ⟨by rw [List.length_cons]; omega, by rw [List.getLast?_cons_of_ne_nil hs, h]⟩
  · rintro (rfl | ⟨comps, hne, hcomps, rfl⟩)
    · exact (validInodeName_iff [slash]).mp (by decide)
    · obtain ⟨hnul, hchain, hlast⟩ := pathOf_sound hcomps
      refine ⟨hnul, ?_, fun h => hlast h.2, hchain⟩
      cases comps with
      | nil => exact absurd rfl hne
      | cons c cs => rfl

/-! ## The parts -/

/-- The last slash is the one found. -/
theorem memrchr_last {c : UInt8} {p : Bytes} {i : Nat} (h : memrchr c p = some i) :
    c ∉ p.drop (i + 1) := by
  induction p generalizing i with
  | nil => cases h
  | cons b p ih =>
    rw [memrchr] at h
    cases hm : memrchr c p with
    | some j =>
      rw [hm] at h
      cases h
      exact ih hm
    | none =>
      rw [hm] at h
      dsimp only at h
      split at h
      · cases h
        exact memrchr_eq_none hm
      · cases h

theorem memrchr_eq_none_of {c : UInt8} {p : Bytes} (h : c ∉ p) : memrchr c p = none := by
  cases hm : memrchr c p with
  | none => rfl
  | some i =>
    refine absurd ?_ h
    rw [memrchr_eq_some hm]
    simp

theorem memrchr_append {c : UInt8} {q : Bytes} (h : c ∉ q) (p : Bytes) :
    memrchr c (p ++ c :: q) = some p.length := by
  induction p with
  | nil => simp [memrchr, memrchr_eq_none_of h]
  | cons b p ih => simp [memrchr, ih]

theorem memrchr_lt {c : UInt8} {p : Bytes} {i : Nat} (h : memrchr c p = some i) : i < p.length := by
  have hsplit := congrArg List.length (memrchr_eq_some h)
  rw [List.length_append, List.length_cons, List.length_take, List.length_drop] at hsplit
  omega

/-- A pointer into a path, as an offset, and a length of type `size_t`. -/
structure PathPart where
  ofs : Int
  len : Nat
  deriving DecidableEq, Repr

/-- The bytes of a part that lies inside the path. -/
def PathPart.bytes (path : Bytes) (part : PathPart) : Option Bytes :=
  if 0 ≤ part.ofs ∧ part.ofs.toNat + part.len ≤ path.length then
    some ((path.drop part.ofs.toNat).take part.len)
  else none

theorem PathPart.bytes_nat {path : Bytes} {ofs len : Nat} (h : ofs + len ≤ path.length) :
    PathPart.bytes path ⟨ofs, len⟩ = some ((path.drop ofs).take len) := by
  have hnat : ((ofs : Int)).toNat = ofs := Int.toNat_natCast ofs
  simp only [PathPart.bytes, hnat]
  rw [if_pos ⟨Int.natCast_nonneg ofs, h⟩]

/-- The `dir` and the `base` of `pathname_parse`, whose `ofs` is an `int`. -/
def pathnameParts (path : Bytes) : PathPart × PathPart :=
  match memrchr slash path with
  | none => (⟨0, 0⟩, ⟨0, path.length⟩)
  | some 0 => if path.length = 1 then (⟨0, 1⟩, ⟨0, 1⟩) else (⟨0, 1⟩, ⟨1, path.length - 1⟩)
  | some lsl =>
    let ofs := toInt32 (lsl + 1)
    (⟨0, ((ofs - 1) % 2 ^ 64).toNat⟩, ⟨ofs, ((path.length - ofs) % 2 ^ 64).toNat⟩)

theorem pathnameParts_root {path : Bytes} (h : memrchr slash path = some 0) :
    pathnameParts path =
      if path.length = 1 then (⟨0, 1⟩, ⟨0, 1⟩) else (⟨0, 1⟩, ⟨1, path.length - 1⟩) := by
  simp only [pathnameParts, h]

theorem pathnameParts_slash {path : Bytes} {n : Nat} (h : memrchr slash path = some (n + 1)) :
    pathnameParts path =
      (⟨0, ((toInt32 (n + 1 + 1) - 1) % 2 ^ 64).toNat⟩,
        ⟨toInt32 (n + 1 + 1), ((path.length - toInt32 (n + 1 + 1)) % 2 ^ 64).toNat⟩) := by
  simp only [pathnameParts, h]

/-- Below `2 ^ 31` bytes the parts are what `pathnameParse` says. -/
theorem pathnameParts_bytes {path : Bytes} (h : path.length < 2 ^ 31) :
    (pathnameParts path).1.bytes path = some (pathnameParse path).dir ∧
      (pathnameParts path).2.bytes path = some (pathnameParse path).base := by
  cases hm : memrchr slash path with
  | none => simp [pathnameParts, pathnameParse, hm, PathPart.bytes]
  | some lsl =>
    have hlt := memrchr_lt hm
    cases lsl with
    | zero =>
      rw [pathnameParts_root hm]
      by_cases hone : path.length = 1
      · have hparse : pathnameParse path = ⟨path, path⟩ := by simp [pathnameParse, hm, hone]
        have hwhole : path.take 1 = path := List.take_of_length_le hone.le
        simp [hparse, hone, PathPart.bytes, hwhole]
      · have hparse : pathnameParse path = ⟨path.take 1, path.drop 1⟩ := by
          simp [pathnameParse, hm, hone]
        have hbase : (path.drop 1).take (path.length - 1) = path.drop 1 :=
          List.take_of_length_le (by rw [List.length_drop])
        rw [if_neg hone, hparse]
        constructor
        · exact @PathPart.bytes_nat path 0 _ (by omega)
        · exact (@PathPart.bytes_nat path 1 _ (by omega)).trans (congrArg some hbase)
    | succ lsl =>
      have hparse : pathnameParse path = ⟨path.take (lsl + 1), path.drop (lsl + 1 + 1)⟩ := by
        simp only [pathnameParse, hm]
      rw [pathnameParts_slash hm, hparse, toInt32_of_lt (show lsl + 1 + 1 < 2 ^ 31 by omega)]
      have hdir : (((lsl + 1 + 1 : Nat) - 1 : Int) % 2 ^ 64).toNat = lsl + 1 := by omega
      have hbase : (((path.length : Int) - (lsl + 1 + 1 : Nat)) % 2 ^ 64).toNat =
          path.length - (lsl + 1 + 1) := by omega
      rw [hdir, hbase]
      have htail : (path.drop (lsl + 1 + 1)).take (path.length - (lsl + 1 + 1)) =
          path.drop (lsl + 1 + 1) := List.take_of_length_le (by rw [List.length_drop])
      constructor
      · exact @PathPart.bytes_nat path 0 _ (by omega)
      · exact (PathPart.bytes_nat (by omega)).trans (congrArg some htail)

/-- A directory and a name in it. -/
def joinPath (dir base : Bytes) : Bytes := (if dir = [slash] then [] else dir) ++ slash :: base

/-- The parts of a name are a valid name and a component, which joined are the name. -/
theorem pathnameParse_join {name : Bytes} (hv : validInodeName name = true) (hr : name ≠ [slash]) :
    validInodeName (pathnameParse name).dir = true ∧ (pathnameParse name).base ≠ [] ∧
      slash ∉ (pathnameParse name).base ∧
      joinPath (pathnameParse name).dir (pathnameParse name).base = name := by
  obtain ⟨pre, hname, hpre, hdir⟩ := pathnameParse_split hv hr
  have hbase : slash ∉ (pathnameParse name).base := by
    unfold pathnameParse
    cases hm : memrchr slash name with
    | none => exact memrchr_eq_none hm
    | some lsl =>
      cases lsl with
      | zero =>
        by_cases hone : name.length = 1
        · have hsplit := memrchr_eq_some hm
          have hnil : name.drop (0 + 1) = [] := List.drop_eq_nil_of_le hone.le
          rw [hnil] at hsplit
          exact absurd hsplit hr
        · rw [if_neg hone]
          exact memrchr_last hm
      | succ lsl => exact memrchr_last hm
  generalize (pathnameParse name).base = base at hname hbase ⊢
  rw [validInodeName_iff, hname] at hv
  obtain ⟨hnul, hhead, hlast, hchain⟩ := hv
  have hne : base ≠ [] := by
    rintro rfl
    have hlen : pre ≠ [] := fun hp => hr (by rw [hname, hp]; rfl)
    have hpos := List.length_pos_iff.mpr hlen
    exact hlast ⟨by simp; omega, by simp⟩
  refine ⟨?_, hne, hbase, ?_⟩
  · rw [hdir]
    split
    · decide
    · next hp =>
      rw [validInodeName_iff]
      refine ⟨fun h0 => hnul (by simp [h0]), ?_, ?_, ?_⟩
      · rwa [List.head?_append_of_ne_nil _ hp] at hhead
      · rintro ⟨-, hend⟩
        -- the slash at the end and the one behind it
        rw [List.isChain_append] at hchain
        exact hchain.2.2 slash hend slash rfl ⟨rfl, rfl⟩
      · exact (List.isChain_append.mp hchain).1
  · rw [hdir, hname, joinPath]
    by_cases hp : pre = []
    · rw [if_pos hp, if_pos rfl, hp]
    · rw [if_neg hp, if_neg hpre]

/-- The accepted names are the root and the sequences of components. The parts of one of less than
`2 ^ 31` bytes are an accepted name and a component, and determine it. -/
theorem path_grammar (name : Bytes) :
    (validInodeName name = true ↔ IsPath name) ∧
    (validInodeName name = true → name ≠ [slash] → name.length < 2 ^ 31 →
      ∃ dir base, (pathnameParts name).1.bytes name = some dir ∧
        (pathnameParts name).2.bytes name = some base ∧ validInodeName dir = true ∧ base ≠ [] ∧
        slash ∉ base ∧ joinPath dir base = name ∧
        ∀ name', validInodeName name' = true → name' ≠ [slash] → name'.length < 2 ^ 31 →
          (pathnameParts name').1.bytes name' = some dir →
          (pathnameParts name').2.bytes name' = some base → name' = name) := by
  refine ⟨validInodeName_isPath name, fun hv hr hlen => ?_⟩
  obtain ⟨hdir, hbase⟩ := pathnameParts_bytes hlen
  obtain ⟨hvalid, hne, hslash, hjoin⟩ := pathnameParse_join hv hr
  refine ⟨_, _, hdir, hbase, hvalid, hne, hslash, hjoin, fun name' hv' hr' hlen' hd hb => ?_⟩
  obtain ⟨hdir', hbase'⟩ := pathnameParts_bytes hlen'
  obtain ⟨-, -, -, hjoin'⟩ := pathnameParse_join hv' hr'
  rw [← hjoin', ← hjoin, Option.some.inj (hdir'.symm.trans hd), Option.some.inj (hbase'.symm.trans hb)]

/-- `/b` in a directory of the root. -/
def longPath (n : Nat) : Bytes := (slash :: List.replicate n 0x61) ++ slash :: [0x62]

theorem longPath_isPath {n : Nat} (h : n ≠ 0) : IsPath (longPath n) := by
  refine .inr ⟨[List.replicate n 0x61, [0x62]], by simp, ?_, by simp [longPath, pathOf]⟩
  intro c hc
  rcases List.mem_pair.mp hc with rfl | rfl
  · refine ⟨fun hnil => h (by simpa using hnil), fun hm => ?_, fun hm => ?_⟩
    · exact absurd (List.eq_of_mem_replicate hm) (by decide)
    · exact absurd (List.eq_of_mem_replicate hm) (by decide)
  · exact ⟨by decide, by decide, by decide⟩

theorem longPath_dir {n : Nat} (h : n + 1 = 2 ^ 32) :
    (pathnameParts (longPath n)).1.bytes (longPath n) = some [] := by
  have hm : memrchr slash (longPath n) = some (n + 1) := by
    rw [longPath, memrchr_append (by decide), List.length_cons, List.length_replicate]
  have hofs : toInt32 (n + 1 + 1) = 1 := by
    rw [h]
    decide
  rw [pathnameParts_slash hm, hofs]
  simp [PathPart.bytes]

/-- In a path of more than `2 ^ 32` bytes the offset wraps to one, and the directory is the empty
string. -/
theorem longPath_split :
    ∃ name, validInodeName name = true ∧ name ≠ [slash] ∧
      (pathnameParts name).1.bytes name = some [] ∧ validInodeName [] = false := by
  obtain ⟨n, hn⟩ : ∃ n, n + 1 = 2 ^ 32 := ⟨2 ^ 32 - 1, by norm_num⟩
  have hpos : n ≠ 0 := by
    rintro rfl
    norm_num at hn
  refine ⟨longPath n, (validInodeName_isPath _).mpr (longPath_isPath hpos), fun h => ?_,
    longPath_dir hn, by decide⟩
  have hlen := congrArg List.length h
  simp [longPath] at hlen

theorem path_grammar_ab :
    validInodeName [0x2f, 0x61, 0x2f, 0x62] = true ∧
      ∃ dir base, (pathnameParts [0x2f, 0x61, 0x2f, 0x62]).1.bytes [0x2f, 0x61, 0x2f, 0x62] = some dir ∧
        (pathnameParts [0x2f, 0x61, 0x2f, 0x62]).2.bytes [0x2f, 0x61, 0x2f, 0x62] = some base ∧
        validInodeName dir = true ∧ base ≠ [] := by
  have hv : validInodeName [0x2f, 0x61, 0x2f, 0x62] = true := by decide
  obtain ⟨dir, base, hdir, hbase, hvalid, hne, -⟩ :=
    (path_grammar [0x2f, 0x61, 0x2f, 0x62]).2 hv (by decide) (by decide)
  exact ⟨hv, dir, base, hdir, hbase, hvalid, hne⟩

end Hail.Cld
