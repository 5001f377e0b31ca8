import Hail.Cld.Cldb

/-!
# The order of locks

`lock_compare` takes differences in 64 bits and returns them in an `int`, so only their low 32 bits
count. This says for which records it orders the locks, the oldest of an inode first.
-/
namespace Hail.Cld

open Library

/-! ## Strings of bytes -/

theorem memcmp_symm (s t : Bytes) : memcmp s t = -memcmp t s := by
  induction s generalizing t with
  | nil => cases t <;> rfl
  | cons a s ih =>
    cases t with
    | nil => rfl
    | cons b t =>
      rw [memcmp, memcmp]
      by_cases h : a = b
      · rw [if_pos h, if_pos h.symm, ih]
      · rw [if_neg h, if_neg (Ne.symm h)]
        omega

theorem toNat_sub_ne_zero {a b : UInt8} (h : a ≠ b) : (a.toNat : Int) - b.toNat ≠ 0 := by
  have hne : a.toNat ≠ b.toNat := fun he => h (UInt8.toNat_inj.mp he)
  omega

theorem memcmp_eq_zero {s t : Bytes} (hlen : s.length = t.length) (h : memcmp s t = 0) : s = t := by
  induction s generalizing t with
  | nil => exact (List.length_eq_zero_iff.mp hlen.symm).symm
  | cons a s ih =>
    cases t with
    | nil => cases hlen
    | cons b t =>
      rw [memcmp] at h
      by_cases hab : a = b
      · rw [if_pos hab] at h
        rw [hab, ih (Nat.succ.inj hlen) h]
      · rw [if_neg hab] at h
        exact absurd h (toNat_sub_ne_zero hab)

theorem memcmp_self (s : Bytes) : memcmp s s = 0 := by
  have h := memcmp_symm s s
  omega

theorem memcmp_trans {s t u : Bytes} (hst : s.length = t.length) (htu : t.length = u.length)
    (h : memcmp s t < 0) (h' : memcmp t u < 0) : memcmp s u < 0 := by
  induction s generalizing t u with
  | nil =>
    simp [memcmp] at h
  | cons a s ih =>
    cases t with
    | nil => cases hst
    | cons b t =>
      cases u with
      | nil => cases htu
      | cons c u =>
        rw [memcmp] at h h' ⊢
        by_cases hab : a = b
        · subst hab
          rw [if_pos rfl] at h
          by_cases hac : a = c
          · rw [if_pos hac] at h' ⊢
            exact ih (Nat.succ.inj hst) (Nat.succ.inj htu) h h'
          · rwa [if_neg hac] at h' ⊢
        · rw [if_neg hab] at h
          by_cases hbc : b = c
          · subst hbc
            rwa [if_neg hab]
          · rw [if_neg hbc] at h'
            have hac : a ≠ c := by
              rintro rfl
              omega
            rw [if_neg hac]
            omega

/-! ## Differences of 32 bits -/

/-- The difference of two numbers as an `int`. -/
def diff32 (x y : Nat) : Int := ((x : Int) - y).bmod (2 ^ 32)

theorem diff32_bounds (x y : Nat) : -2 ^ 31 ≤ diff32 x y ∧ diff32 x y < 2 ^ 31 := by
  unfold diff32 Int.bmod
  dsimp only
  split <;> omega

theorem diff32_symm (x y : Nat) :
    diff32 y x = if diff32 x y = -2 ^ 31 then -2 ^ 31 else -diff32 x y := by
  unfold diff32 Int.bmod
  dsimp only
  split <;> split <;> split <;> omega

theorem diff32_add (x y z : Nat) : diff32 x z = (diff32 x y + diff32 y z).bmod (2 ^ 32) := by
  unfold diff32 Int.bmod
  dsimp only
  split <;> split <;> split <;> split <;> omega

theorem diff64_ne_zero {x y : Nat} (hx : x < 2 ^ 64) (hy : y < 2 ^ 64) :
    ((x : Int) - y).bmod (2 ^ 64) ≠ 0 ↔ x ≠ y := by
  unfold Int.bmod
  dsimp only
  split <;> omega

theorem diff64_low (x y : Nat) : (((x : Int) - y).bmod (2 ^ 64)).bmod (2 ^ 32) = diff32 x y := by
  unfold diff32 Int.bmod
  dsimp only
  split <;> split <;> omega

/-- The difference has an opposite, and is not zero. -/
structure Proper (x y : Nat) : Prop where
  ne_zero : diff32 x y ≠ 0
  ne_min : diff32 x y ≠ -2 ^ 31

/-- Two negative differences do not add up to one that wraps. -/
def NoWrap (x y z : Nat) : Prop :=
  diff32 x y < 0 → diff32 y z < 0 → -2 ^ 31 ≤ diff32 x y + diff32 y z

/-- The signs of two numbers are opposite. -/
structure Opposite (v w : Int) : Prop where
  neg : v < 0 ↔ 0 < w
  pos : 0 < v ↔ w < 0

theorem opposite_diff32_iff (x y : Nat) :
    Opposite (diff32 x y) (diff32 y x) ∧ diff32 x y ≠ 0 ↔ Proper x y := by
  have hb := diff32_bounds x y
  have hs := diff32_symm x y
  constructor
  · rintro ⟨⟨hneg, hpos⟩, hne⟩
    refine ⟨hne, fun hmin => ?_⟩
    rw [if_pos hmin] at hs
    omega
  · rintro ⟨hne, hmin⟩
    rw [if_neg hmin] at hs
    exact ⟨⟨by omega, by omega⟩, hne⟩

/-- When a comparison of the ends is one of the same numbers, differences are transitive unless they
wrap. -/
theorem trans_iff {x y z : Nat} (h : Proper x y) {v : Int} (hv : x ≠ z → v = diff32 x z) :
    (diff32 x y < 0 → diff32 y z < 0 → v < 0) ↔ NoWrap x y z := by
  have hb := diff32_bounds x y
  have hb' := diff32_bounds y z
  have hadd := diff32_add x y z
  unfold NoWrap
  by_cases hxz : x = z
  · -- the second difference is the opposite of the first
    subst hxz
    have hs := diff32_symm x y
    rw [if_neg h.ne_min] at hs
    constructor <;> intro _ hneg hneg' <;> omega
  · rw [hv hxz, hadd]
    unfold Int.bmod
    dsimp only
    constructor
    · intro ht hneg hneg'
      have hlt := ht hneg hneg'
      split at hlt <;> omega
    · intro hw hneg hneg'
      have hle := hw hneg hneg'
      split <;> omega

/-! ## The fields that decide -/

/-- The fields have the sizes of their types. -/
structure RawLock.Sized (l : RawLock) : Prop where
  inum : l.inum < 2 ^ 64
  sid : l.sid < 2 ^ 64
  fh : l.fh < 2 ^ 64
  ctime : l.ctime < 2 ^ 64

section

variable {a b c : RawLock}

theorem memcmp_sid_ne_zero (ha : a.Sized) (hb : b.Sized) :
    memcmp (leBytes 8 a.sid) (leBytes 8 b.sid) ≠ 0 ↔ a.sid ≠ b.sid := by
  have hsa := ha.sid
  have hsb := hb.sid
  constructor
  · intro hne heq
    rw [heq] at hne
    exact hne (memcmp_self _)
  · intro hne hz
    have heq := congrArg ofLe (memcmp_eq_zero (by simp) hz)
    rw [ofLe_leBytes, ofLe_leBytes, Nat.mod_eq_of_lt (by omega), Nat.mod_eq_of_lt (by omega)] at heq
    exact hne heq

theorem lockCompare_inum (ha : a.Sized) (hb : b.Sized) (hi : a.inum ≠ b.inum) :
    lockCompare a b = diff32 a.inum b.inum := by
  unfold lockCompare
  dsimp only
  rw [if_pos ((diff64_ne_zero ha.inum hb.inum).mpr hi), diff64_low]

theorem lockCompare_ctime (ha : a.Sized) (hb : b.Sized) (hi : a.inum = b.inum)
    (ht : a.ctime ≠ b.ctime) : lockCompare a b = diff32 a.ctime b.ctime := by
  unfold lockCompare
  dsimp only
  rw [if_neg (fun h => (diff64_ne_zero ha.inum hb.inum).mp h hi),
    if_pos ((diff64_ne_zero ha.ctime hb.ctime).mpr ht), diff64_low]

theorem lockCompare_sid (ha : a.Sized) (hb : b.Sized) (hi : a.inum = b.inum)
    (ht : a.ctime = b.ctime) (hs : a.sid ≠ b.sid) :
    lockCompare a b = memcmp (leBytes 8 a.sid) (leBytes 8 b.sid) := by
  unfold lockCompare
  dsimp only
  rw [if_neg (fun h => (diff64_ne_zero ha.inum hb.inum).mp h hi),
    if_neg (fun h => (diff64_ne_zero ha.ctime hb.ctime).mp h ht),
    if_pos ((memcmp_sid_ne_zero ha hb).mpr hs)]

theorem lockCompare_fh (ha : a.Sized) (hb : b.Sized) (hi : a.inum = b.inum)
    (ht : a.ctime = b.ctime) (hs : a.sid = b.sid) : lockCompare a b = diff32 a.fh b.fh := by
  unfold lockCompare
  dsimp only
  rw [if_neg (fun h => (diff64_ne_zero ha.inum hb.inum).mp h hi),
    if_neg (fun h => (diff64_ne_zero ha.ctime hb.ctime).mp h ht),
    if_neg (fun h => (memcmp_sid_ne_zero ha hb).mp h hs), diff32]

/-! ## What the order is for -/

/-- The records are ordered: the comparison is that of a strict total order, in which of the locks of
an inode the older comes first. -/
structure LocksOrdered (a b c : RawLock) : Prop where
  opposite : Opposite (lockCompare a b) (lockCompare b a)
  zero_iff : lockCompare a b = 0 ↔
    a.inum = b.inum ∧ a.ctime = b.ctime ∧ a.sid = b.sid ∧ a.fh = b.fh
  trans : lockCompare a b < 0 → lockCompare b c < 0 → lockCompare a c < 0
  oldest : a.inum = b.inum → a.ctime ≠ b.ctime → (lockCompare a b < 0 ↔ a.ctime < b.ctime)

/-- The first number in which `a` and `b` differ has a proper difference, for a creation time one of the
right sign, and if it is also where `b` and `c` differ, the two differences do not wrap. -/
structure LocksClose (a b c : RawLock) : Prop where
  inum : a.inum ≠ b.inum →
    Proper a.inum b.inum ∧ (b.inum ≠ c.inum → NoWrap a.inum b.inum c.inum)
  ctime : a.inum = b.inum → a.ctime ≠ b.ctime →
    Proper a.ctime b.ctime ∧ (diff32 a.ctime b.ctime < 0 ↔ a.ctime < b.ctime) ∧
      (b.inum = c.inum → b.ctime ≠ c.ctime → NoWrap a.ctime b.ctime c.ctime)
  fh : a.inum = b.inum → a.ctime = b.ctime → a.sid = b.sid → a.fh ≠ b.fh →
    Proper a.fh b.fh ∧ (b.inum = c.inum → b.ctime = c.ctime → b.sid = c.sid → b.fh ≠ c.fh →
      NoWrap a.fh b.fh c.fh)

theorem ordered_inum (ha : a.Sized) (hb : b.Sized) (hc : c.Sized) (hi : a.inum ≠ b.inum) :
    LocksOrdered a b c ↔ Proper a.inum b.inum ∧ (b.inum ≠ c.inum → NoWrap a.inum b.inum c.inum) := by
  have hab := lockCompare_inum ha hb hi
  have hba := lockCompare_inum hb ha (Ne.symm hi)
  have hac : a.inum ≠ c.inum → lockCompare a c = diff32 a.inum c.inum := lockCompare_inum ha hc
  constructor
  · rintro ⟨hopp, hzero, htrans, -⟩
    rw [hab, hba] at hopp
    rw [hab] at hzero htrans
    have hproper := (opposite_diff32_iff _ _).mp ⟨hopp, fun h0 => hi (hzero.mp h0).1⟩
    refine ⟨hproper, fun hbc => ?_⟩
    rw [lockCompare_inum hb hc hbc] at htrans
    exact (trans_iff hproper hac).mp htrans
  · rintro ⟨hproper, hwrap⟩
    obtain ⟨hopp, hne⟩ := (opposite_diff32_iff _ _).mpr hproper
    refine ⟨by rwa [hab, hba], ?_, ?_, fun h => absurd h hi⟩
    · rw [hab]
      exact iff_of_false hne fun h => hi h.1
    · rw [hab]
      by_cases hbc : b.inum = c.inum
      · intro hneg _
        rwa [hac (hbc ▸ hi), ← hbc]
      · rw [lockCompare_inum hb hc hbc]
        exact (trans_iff hproper hac).mpr (hwrap hbc)

theorem ordered_ctime (ha : a.Sized) (hb : b.Sized) (hc : c.Sized) (hi : a.inum = b.inum)
    (ht : a.ctime ≠ b.ctime) :
    LocksOrdered a b c ↔
      Proper a.ctime b.ctime ∧ (diff32 a.ctime b.ctime < 0 ↔ a.ctime < b.ctime) ∧
        (b.inum = c.inum → b.ctime ≠ c.ctime → NoWrap a.ctime b.ctime c.ctime) := by
  have hab := lockCompare_ctime ha hb hi ht
  have hba := lockCompare_ctime hb ha hi.symm (Ne.symm ht)
  have hac : a.inum = c.inum → a.ctime ≠ c.ctime → lockCompare a c = diff32 a.ctime c.ctime :=
    lockCompare_ctime ha hc
  constructor
  · rintro ⟨hopp, hzero, htrans, hold⟩
    rw [hab, hba] at hopp
    rw [hab] at hzero htrans hold
    have hproper := (opposite_diff32_iff _ _).mp ⟨hopp, fun h0 => ht (hzero.mp h0).2.1⟩
    refine ⟨hproper, hold hi ht, fun hbi hbt => ?_⟩
    rw [lockCompare_ctime hb hc hbi hbt] at htrans
    exact (trans_iff hproper (hac (hi.trans hbi))).mp htrans
  · rintro ⟨hproper, hold, hwrap⟩
    obtain ⟨hopp, hne⟩ := (opposite_diff32_iff _ _).mpr hproper
    refine ⟨by rwa [hab, hba], ?_, ?_, fun _ _ => by rwa [hab]⟩
    · rw [hab]
      exact iff_of_false hne fun h => ht h.2.1
    · rw [hab]
      by_cases hbi : b.inum = c.inum
      · by_cases hbt : b.ctime = c.ctime
        · intro hneg _
          rwa [hac (hi.trans hbi) (hbt ▸ ht), ← hbt]
        · rw [lockCompare_ctime hb hc hbi hbt]
          exact (trans_iff hproper (hac (hi.trans hbi))).mpr (hwrap hbi hbt)
      · intro _ hneg
        rw [lockCompare_inum hb hc hbi] at hneg
        rwa [lockCompare_inum ha hc (hi ▸ hbi), hi]

theorem ordered_sid (ha : a.Sized) (hb : b.Sized) (hc : c.Sized) (hi : a.inum = b.inum)
    (ht : a.ctime = b.ctime) (hs : a.sid ≠ b.sid) : LocksOrdered a b c := by
  have hab := lockCompare_sid ha hb hi ht hs
  have hba := lockCompare_sid hb ha hi.symm ht.symm (Ne.symm hs)
  have hsymm := memcmp_symm (leBytes 8 a.sid) (leBytes 8 b.sid)
  have hne := (memcmp_sid_ne_zero ha hb).mpr hs
  refine ⟨?_, ?_, ?_, fun _ h => absurd ht h⟩
  · rw [hab, hba]
    exact ⟨by omega, by omega⟩
  · rw [hab]
    exact iff_of_false hne fun h => hs h.2.2.1
  · by_cases hbi : b.inum = c.inum
    · by_cases hbt : b.ctime = c.ctime
      · by_cases hbs : b.sid = c.sid
        · intro hneg _
          rw [lockCompare_sid ha hc (hi.trans hbi) (ht.trans hbt) (hbs ▸ hs), ← hbs, ← hab]
          exact hneg
        · rw [hab, lockCompare_sid hb hc hbi hbt hbs]
          intro hneg hneg'
          have htrans := memcmp_trans (by simp) (by simp) hneg hneg'
          have hsc : a.sid ≠ c.sid := by
            intro h
            rw [h, memcmp_self] at htrans
            exact lt_irrefl _ htrans
          rwa [lockCompare_sid ha hc (hi.trans hbi) (ht.trans hbt) hsc]
      · intro _ hneg
        rw [lockCompare_ctime hb hc hbi hbt] at hneg
        rwa [lockCompare_ctime ha hc (hi.trans hbi) (ht ▸ hbt), ht]
    · intro _ hneg
      rw [lockCompare_inum hb hc hbi] at hneg
      rwa [lockCompare_inum ha hc (hi ▸ hbi), hi]

theorem ordered_fh (ha : a.Sized) (hb : b.Sized) (hc : c.Sized) (hi : a.inum = b.inum)
    (ht : a.ctime = b.ctime) (hs : a.sid = b.sid) (hf : a.fh ≠ b.fh) :
    LocksOrdered a b c ↔
      Proper a.fh b.fh ∧ (b.inum = c.inum → b.ctime = c.ctime → b.sid = c.sid → b.fh ≠ c.fh →
        NoWrap a.fh b.fh c.fh) := by
  have hab := lockCompare_fh ha hb hi ht hs
  have hba := lockCompare_fh hb ha hi.symm ht.symm hs.symm
  constructor
  · rintro ⟨hopp, hzero, htrans, -⟩
    rw [hab, hba] at hopp
    rw [hab] at hzero htrans
    have hproper := (opposite_diff32_iff _ _).mp ⟨hopp, fun h0 => hf (hzero.mp h0).2.2.2⟩
    refine ⟨hproper, fun hbi hbt hbs _ => ?_⟩
    rw [lockCompare_fh hb hc hbi hbt hbs] at htrans
    exact (trans_iff hproper fun _ =>
      lockCompare_fh ha hc (hi.trans hbi) (ht.trans hbt) (hs.trans hbs)).mp htrans
  · rintro ⟨hproper, hwrap⟩
    obtain ⟨hopp, hne⟩ := (opposite_diff32_iff _ _).mpr hproper
    refine ⟨by rwa [hab, hba], ?_, ?_, fun _ h => absurd ht h⟩
    · rw [hab]
      exact iff_of_false hne fun h => hf h.2.2.2
    · by_cases hbi : b.inum = c.inum
      · by_cases hbt : b.ctime = c.ctime
        · by_cases hbs : b.sid = c.sid
          · rw [hab, lockCompare_fh hb hc hbi hbt hbs,
              lockCompare_fh ha hc (hi.trans hbi) (ht.trans hbt) (hs.trans hbs)]
            by_cases hbf : b.fh = c.fh
            · intro hneg _
              rwa [← hbf]
            · exact (trans_iff hproper fun _ => rfl).mpr (hwrap hbi hbt hbs hbf)
          · intro _ hneg
            rw [lockCompare_sid hb hc hbi hbt hbs] at hneg
            rwa [lockCompare_sid ha hc (hi.trans hbi) (ht.trans hbt) (hs ▸ hbs), hs]
        · intro _ hneg
          rw [lockCompare_ctime hb hc hbi hbt] at hneg
          rwa [lockCompare_ctime ha hc (hi.trans hbi) (ht ▸ hbt), ht]
      · intro _ hneg
        rw [lockCompare_inum hb hc hbi] at hneg
        rwa [lockCompare_inum ha hc (hi ▸ hbi), hi]

end

/-- The records are ordered if and only if they are close. -/
theorem locksOrdered_iff (a b c : RawLock) (ha : a.Sized) (hb : b.Sized) (hc : c.Sized) :
    LocksOrdered a b c ↔ LocksClose a b c := by
  by_cases hi : a.inum = b.inum
  · by_cases ht : a.ctime = b.ctime
    · by_cases hs : a.sid = b.sid
      · by_cases hf : a.fh = b.fh
        · have hab := lockCompare_fh ha hb hi ht hs
          have hba := lockCompare_fh hb ha hi.symm ht.symm hs.symm
          have hzero : ∀ x, diff32 x x = 0 := fun x => by simp [diff32]
          rw [hf, hzero] at hab hba
          refine iff_of_true ⟨?_, ?_, fun h => ?_, fun _ h => absurd ht h⟩
            ⟨fun h => absurd hi h, fun _ h => absurd ht h, fun _ _ _ h => absurd hf h⟩
          · rw [hab, hba]
            exact ⟨Iff.rfl, Iff.rfl⟩
          · exact iff_of_true hab ⟨hi, ht, hs, hf⟩
          · rw [hab] at h
            exact absurd h (lt_irrefl 0)
        · rw [ordered_fh ha hb hc hi ht hs hf]
          exact ⟨fun h => ⟨fun hn => absurd hi hn, fun _ hn => absurd ht hn, fun _ _ _ _ => h⟩,
            fun h => h.fh hi ht hs hf⟩
      · exact iff_of_true (ordered_sid ha hb hc hi ht hs)
          ⟨fun h => absurd hi h, fun _ h => absurd ht h, fun _ _ h => absurd h hs⟩
    · rw [ordered_ctime ha hb hc hi ht]
      exact ⟨fun h => ⟨fun hn => absurd hi hn, fun _ _ => h, fun _ hn => absurd hn ht⟩,
        fun h => h.ctime hi ht⟩
  · rw [ordered_inum ha hb hc hi]
    exact ⟨fun h => ⟨fun _ => h, fun hn => absurd hn hi, fun hn => absurd hn hi⟩, fun h => h.inum hi⟩

def lockAt (ctime : Nat) : RawLock := ⟨11, 7, 1, ctime, 0⟩

theorem lockAt_sized {ctime : Nat} (h : ctime < 2 ^ 64) : (lockAt ctime).Sized :=
  ⟨(by decide : 11 < 2 ^ 64), (by decide : 7 < 2 ^ 64), (by decide : 1 < 2 ^ 64), h⟩

/-- Locks made one after another within a few years. -/
theorem locksOrdered_close :
    LocksOrdered (lockAt 1000) (lockAt 1001) (lockAt 2001) :=
  (locksOrdered_iff _ _ _ (lockAt_sized (by decide)) (lockAt_sized (by decide))
    (lockAt_sized (by decide))).mpr
      ⟨fun h => absurd rfl h, fun _ _ => ⟨⟨by decide, by decide⟩, by decide, fun _ _ _ _ => by decide⟩,
        fun _ h => absurd h (by decide)⟩

/-- Two locks of a handle whose times differ by `2 ^ 32` seconds are merged. -/
theorem distant_merged :
    lockCompare (lockAt 1) (lockAt (1 + 2 ^ 32)) = 0 ∧ lockAt 1 ≠ lockAt (1 + 2 ^ 32) ∧
      ¬ LocksOrdered (lockAt 1) (lockAt (1 + 2 ^ 32)) (lockAt 1) := by
  have hzero : lockCompare (lockAt 1) (lockAt (1 + 2 ^ 32)) = 0 := by decide
  have hctime : (lockAt 1).ctime ≠ (lockAt (1 + 2 ^ 32)).ctime := by decide
  exact ⟨hzero, fun h => hctime (congrArg RawLock.ctime h), fun h => hctime (h.zero_iff.mp hzero).2.1⟩

end Hail.Cld
