import Hail.Chunkd.Sums

/-!
# Reads that are verified

`fs_obj_read` compares the checksum of each block it has read with its entry in the table, provided
that what it has read begins and ends where blocks do. `csumsTried` lists what the loop hashes.
-/
namespace Hail.Chunkd

open Library

/-- A round of the loop: the block, and the part of the buffer that is hashed. -/
structure CsumRound where
  blkIdx : Nat
  ofs : Nat
  len : Nat
  deriving DecidableEq, Repr

def CsumRound.bytes (r : CsumRound) (buf : Bytes) : Bytes := (buf.drop r.ofs).take r.len

def FsObj.blkLen (obj : FsObj) (blkIdx : Nat) : Nat :=
  if blkIdx + 1 = obj.nBlk ∧ 0 < obj.tailLen then obj.tailLen else chunkBlkSz

/-- The entry of a block in the table. -/
def FsObj.csumEntry (obj : FsObj) (blkIdx : Nat) : Bytes :=
  (obj.csumTbl.data.drop (blkIdx * chdCsumSz % 2 ^ 32)).take chdCsumSz

def CsumRound.passes (e : Env) (obj : FsObj) (buf : Bytes) (r : CsumRound) : Bool :=
  e.sha1 (r.bytes buf) = obj.csumEntry r.blkIdx

/-- The rounds that the loop makes for `n` blocks. It ends with the first that finds a difference. -/
def csumsTried (e : Env) (obj : FsObj) (buf : Bytes) : Nat → Nat → Nat → List CsumRound
  | 0, _, _ => []
  | n + 1, blkIdx, ofs =>
    let r : CsumRound := ⟨blkIdx, ofs, obj.blkLen blkIdx⟩
    r :: if r.passes e obj buf then csumsTried e obj buf n (blkIdx + 1) (ofs + r.len) else []

/-- The rounds that `fs_obj_read` makes when its `read` has given `buf`. -/
def FsObj.tried (e : Env) (obj : FsObj) (buf : Bytes) : List CsumRound :=
  if canCsumRange obj buf.length then
    let curBlk := fsBlkCount obj.inPos
    csumsTried e obj buf ((curBlk + fsBlkCount buf.length) % 2 ^ 32 - curBlk) curBlk 0
  else []

/-- The comparison succeeds if all rounds do that are made. -/
theorem csumsMatch_eq (e : Env) (obj : FsObj) (buf : Bytes) (n blkIdx ofs : Nat) :
    csumsMatch e obj n blkIdx (buf.drop ofs) =
      (csumsTried e obj buf n blkIdx ofs).all (·.passes e obj buf) := by
  induction n generalizing blkIdx ofs with
  | zero => rfl
  | succ n ih =>
    have hrest := ih (blkIdx + 1) (ofs + obj.blkLen blkIdx)
    rw [← List.drop_drop] at hrest
    rw [csumsMatch, csumsTried, List.all_cons]
    change (decide _ && csumsMatch e obj n (blkIdx + 1) ((buf.drop ofs).drop (obj.blkLen blkIdx))) = _
    rw [hrest]
    have hpasses : (⟨blkIdx, ofs, obj.blkLen blkIdx⟩ : CsumRound).passes e obj buf =
        decide (e.sha1 ((buf.drop ofs).take (obj.blkLen blkIdx)) = obj.csumEntry blkIdx) := rfl
    by_cases hpass : e.sha1 ((buf.drop ofs).take (obj.blkLen blkIdx)) = obj.csumEntry blkIdx
    · rw [hpasses, decide_eq_true hpass, if_pos rfl, Bool.true_and]
      exact Bool.and_eq_right_iff_imp.mpr fun _ => decide_eq_true hpass
    · rw [hpasses, decide_eq_false hpass, Bool.false_and]
      exact Bool.and_eq_false_imp.mpr fun h => absurd (of_decide_eq_true h) hpass

/-- The descriptor is of no account to the comparison. -/
theorem csumsMatch_moved (e : Env) (obj : FsObj) (fd : Option (Nat × Nat)) (n i : Nat) (p : Bytes) :
    csumsMatch e { obj with inFd := fd } n i p = csumsMatch e obj n i p := by
  induction n generalizing i p with
  | zero => rfl
  | succ n ih => simp only [csumsMatch, ih]

/-- A `read` that gives some bytes, and what comes of the comparison. -/
theorem fsObjRead_tried {e : Env} {fs : Vol} {obj : FsObj} {ino pos bound len : Nat} {bs : Bytes}
    (hfd : obj.inFd = some (ino, pos)) (hbs : fs.read ino pos (min len (max 1 bound)) = bs)
    (hne : bs ≠ []) :
    fsObjRead e fs (some bound) obj len =
      if ∀ r ∈ obj.tried e bs, r.passes e obj bs = true then
        (some bs, { obj with inFd := some (ino, pos + bs.length), inPos := obj.inPos + bs.length })
      else (none, { obj with inFd := some (ino, pos + bs.length) }) := by
  have hcan : canCsumRange { obj with inFd := some (ino, pos + bs.length) } bs.length =
      canCsumRange obj bs.length := rfl
  have hall := csumsMatch_eq e obj bs
    ((fsBlkCount obj.inPos + fsBlkCount bs.length) % 2 ^ 32 - fsBlkCount obj.inPos)
    (fsBlkCount obj.inPos) 0
  rw [List.drop_zero] at hall
  simp only [fsObjRead, hfd, hbs, hne, if_false, csumsMatch_moved, hall, hcan, FsObj.tried]
  by_cases hrange : canCsumRange obj bs.length = true
  · simp only [hrange, if_true, Bool.true_and, ← List.all_eq_true]
    cases (csumsTried e obj bs _ (fsBlkCount obj.inPos) 0).all (·.passes e obj bs) <;> rfl
  · simp [hrange]

/-! ## The rounds of a range -/

/-- The round for the `i`-th block of a buffer read from the block `k` on. -/
def blockRound (k : Nat) (buf : Bytes) (i : Nat) : CsumRound :=
  ⟨k + i, i * chunkBlkSz, (block chunkBlkSz buf i).length⟩

theorem blockRound_bytes (k : Nat) (buf : Bytes) (i : Nat) :
    (blockRound k buf i).bytes buf = block chunkBlkSz buf i := by
  rw [CsumRound.bytes, blockRound, block_length, ← List.length_drop, min_comm,
    ← List.take_eq_take_min, block]

/-- When the blocks of the object are as long as those of the buffer, the loop goes through the latter
up to the first that is found bad. -/
theorem csumsTried_blocks {e : Env} {obj : FsObj} {buf : Bytes} {k m i : Nat}
    (hlen : ∀ j, j < i + m → obj.blkLen (k + j) = (block chunkBlkSz buf j).length)
    (hfull : ∀ j, j + 1 < i + m → (block chunkBlkSz buf j).length = chunkBlkSz) :
    csumsTried e obj buf m (k + i) (i * chunkBlkSz) <+: (List.range' i m).map (blockRound k buf) ∧
    ((∀ r ∈ csumsTried e obj buf m (k + i) (i * chunkBlkSz), r.passes e obj buf = true) ↔
      ∀ j, i ≤ j → j < i + m → (blockRound k buf j).passes e obj buf = true) ∧
    ((∀ j, i ≤ j → j < i + m → (blockRound k buf j).passes e obj buf = true) →
      csumsTried e obj buf m (k + i) (i * chunkBlkSz) =
        (List.range' i m).map (blockRound k buf)) := by
  induction m generalizing i with
  | zero =>
    refine ⟨List.prefix_rfl, ?_, fun _ => rfl⟩
    constructor
    · intro _ j hj hlt
      omega
    · intro _ r hr
      cases hr
  | succ m ih =>
    have hround : (⟨k + i, i * chunkBlkSz, obj.blkLen (k + i)⟩ : CsumRound) = blockRound k buf i := by
      rw [blockRound, hlen i (by omega)]
    rw [csumsTried, hround, List.range'_succ, List.map_cons]
    by_cases hpass : (blockRound k buf i).passes e obj buf = true
    · have hnext : csumsTried e obj buf m (k + i + 1) (i * chunkBlkSz + (blockRound k buf i).len) =
          csumsTried e obj buf m (k + (i + 1)) ((i + 1) * chunkBlkSz) := by
        cases m with
        | zero => simp only [csumsTried]
        | succ m =>
          have hround : (blockRound k buf i).len = (block chunkBlkSz buf i).length := rfl
          rw [hround, hfull i (by omega), Nat.succ_mul, Nat.add_assoc]
      obtain ⟨hpre, hall, heq⟩ := @ih (i + 1) (fun j hj => hlen j (by omega))
        (fun j hj => hfull j (by omega))
      rw [if_pos hpass, hnext]
      refine ⟨List.cons_prefix_cons.mpr ⟨rfl, hpre⟩, ?_, ?_⟩
      · rw [List.forall_mem_cons, hall]
        constructor
        · rintro ⟨-, h⟩ j hj hlt
          rcases hj.eq_or_lt with rfl | hj
          · exact hpass
          · exact h j hj (by omega)
        · exact fun h => ⟨hpass, fun j hj hlt => h j (by omega) (by omega)⟩
      · intro h
        rw [heq fun j hj hlt => h j (by omega) (by omega)]
    · rw [if_neg hpass]
      refine ⟨List.cons_prefix_cons.mpr ⟨rfl, List.nil_prefix⟩, ?_, ?_⟩
      · refine iff_of_false ?_ ?_
        · exact fun h => hpass (h _ List.mem_cons_self)
        · exact fun h => hpass (h i le_rfl (by omega))
      · exact fun h => absurd (h i le_rfl (by omega)) hpass

/-- What `fs_obj_new` and `fs_obj_open` say of the blocks of an object. -/
structure FsObj.Blocked (obj : FsObj) : Prop where
  tailPos : obj.tailPos = obj.size / chunkBlkSz * chunkBlkSz
  tailLen : obj.tailLen = obj.size % chunkBlkSz
  nBlk : obj.nBlk = blockCount chunkBlkSz obj.size
  small : obj.nBlk < 2 ^ 32

section

variable {obj : FsObj} {p n : Nat}

theorem FsObj.Blocked.can_eq (h : obj.Blocked) (hpos : obj.inPos = p)
    (hp : p % chunkBlkSz = 0) (hn : 0 < n)
    (hend : (p + n) % chunkBlkSz = 0 ∨ p + n = obj.size) :
    canCsumRange obj n = decide (p + n ≤ obj.size) := by
  have hsize : obj.tailPos + obj.tailLen = obj.size := by
    rw [h.tailPos, h.tailLen, Nat.div_add_mod']
  unfold canCsumRange
  dsimp only
  rw [hpos, hsize, if_neg (by omega), if_neg (by omega)]
  by_cases hle : p + n ≤ obj.size
  · rw [if_neg (by omega), decide_eq_true hle]
    simpa using hend
  · rw [if_pos (by omega), decide_eq_false hle]

/-- The blocks of a range that ends where blocks do are as long as those of the object. -/
theorem FsObj.Blocked.blkLen (h : obj.Blocked) {buf : Bytes} (hlen : buf.length = n)
    (hp : p % chunkBlkSz = 0) (hle : p + n ≤ obj.size)
    (hend : (p + n) % chunkBlkSz = 0 ∨ p + n = obj.size) {j : Nat}
    (hj : j < blockCount chunkBlkSz n) :
    obj.blkLen (p / chunkBlkSz + j) = (block chunkBlkSz buf j).length ∧
      (j + 1 < blockCount chunkBlkSz n → (block chunkBlkSz buf j).length = chunkBlkSz) := by
  have htail := h.tailLen
  have hcount := h.nBlk
  rw [blockCount_eq_ceil chunkBlkSz_pos] at hj hcount ⊢
  rw [FsObj.blkLen, block_length, hlen]
  constructor
  · split
    · next hlast =>
      simp only [chunkBlkSz] at *
      omega
    · next hlast =>
      simp only [chunkBlkSz] at *
      omega
  · simp only [chunkBlkSz] at *
    omega

/-- The blocks of the range are blocks of the object. -/
theorem FsObj.Blocked.blkIdx (h : obj.Blocked) (hp : p % chunkBlkSz = 0) (hle : p + n ≤ obj.size) :
    p / chunkBlkSz + blockCount chunkBlkSz n ≤ obj.nBlk := by
  rw [h.nBlk, blockCount_eq_ceil chunkBlkSz_pos, blockCount_eq_ceil chunkBlkSz_pos]
  simp only [chunkBlkSz] at *
  omega

end

theorem fsObjOpen_blocked {e : Env} {y : Sys} {fs : Vol} {tableId : Nat} {user key : Bytes}
    {obj : FsObj} (h : fsObjOpen e y fs tableId user key = .ok obj)
    (hsmall : blockCount chunkBlkSz obj.size * chdCsumSz < 2 ^ 32) : obj.Blocked := by
  obtain ⟨fn, ino, hdr, csums, -, -, -, -, -, -, -, -, hblk, -, -, rfl⟩ := fsObjOpen_ok h
  change blockCount chunkBlkSz hdr.valueLen * chdCsumSz < 2 ^ 32 at hsmall
  have hlt : blockCount chunkBlkSz hdr.valueLen < 2 ^ 32 := by
    simp only [chdCsumSz] at hsmall
    omega
  have hn : hdr.nBlk = blockCount chunkBlkSz hdr.valueLen := by
    rw [← hblk, fsBlkCount, Nat.mod_eq_of_lt hlt]
  exact ⟨rfl, rfl, hn, hn.trans_lt hlt⟩

theorem fsObjOpen_table {e : Env} {y : Sys} {fs : Vol} {tableId : Nat} {user key : Bytes}
    {obj : FsObj} (h : fsObjOpen e y fs tableId user key = .ok obj)
    (hsmall : blockCount chunkBlkSz obj.size * chdCsumSz < 2 ^ 32) :
    obj.csumTbl.data.length = blockCount chunkBlkSz obj.size * chdCsumSz := by
  obtain ⟨fn, ino, hdr, csums, -, -, -, -, -, -, -, -, hblk, -, hcsums, rfl⟩ := fsObjOpen_ok h
  change blockCount chunkBlkSz hdr.valueLen * chdCsumSz < 2 ^ 32 at hsmall
  change csums.length = blockCount chunkBlkSz hdr.valueLen * chdCsumSz
  rw [hcsums, ← hblk, fsBlkCount, csumBytes_exact.mpr hsmall]

/-- What the reading of a range does: the rounds of the loop, and the answer. -/
theorem FsObj.Blocked.read {obj : FsObj} (h : obj.Blocked) {e : Env} {fs : Vol}
    {ino p n bound : Nat} {bs : Bytes} (hp : p % chunkBlkSz = 0) (hn : 0 < n)
    (hle : p + n ≤ obj.size) (hend : (p + n) % chunkBlkSz = 0 ∨ p + n = obj.size)
    (hread : fs.read ino (obj.valueOfs + p) (min n (max 1 bound)) = bs) (hall : bs.length = n) :
    (obj.at ino p).tried e bs <+:
      (List.range (blockCount chunkBlkSz n)).map (blockRound (p / chunkBlkSz) bs) ∧
    ((∀ i < blockCount chunkBlkSz n,
        e.sha1 (block chunkBlkSz bs i) = obj.csumEntry (p / chunkBlkSz + i)) →
      (obj.at ino p).tried e bs =
          (List.range (blockCount chunkBlkSz n)).map (blockRound (p / chunkBlkSz) bs) ∧
        fsObjRead e fs (some bound) (obj.at ino p) n = (some bs, obj.at ino (p + n))) ∧
    ((fsObjRead e fs (some bound) (obj.at ino p) n).1 ≠ none →
      ∀ i < blockCount chunkBlkSz n,
        e.sha1 (block chunkBlkSz bs i) = obj.csumEntry (p / chunkBlkSz + i)) := by
  have hidx := h.blkIdx hp hle
  have hsmall := h.small
  have hcur : fsBlkCount p = p / chunkBlkSz := by
    have hp' : p = p / chunkBlkSz * chunkBlkSz := (Nat.div_mul_cancel (Nat.dvd_of_mod_eq_zero hp)).symm
    conv_lhs => rw [hp']
    rw [fsBlkCount, blockCount_mul chunkBlkSz_pos, Nat.mod_eq_of_lt (by omega)]
  have hcnt : fsBlkCount n = blockCount chunkBlkSz n := Nat.mod_eq_of_lt (by omega)
  have hrounds : (p / chunkBlkSz + blockCount chunkBlkSz n) % 2 ^ 32 - p / chunkBlkSz =
      blockCount chunkBlkSz n := by
    rw [Nat.mod_eq_of_lt (by omega)]
    omega
  have hatBlocked : (obj.at ino p).Blocked := ⟨h.tailPos, h.tailLen, h.nBlk, h.small⟩
  have hcan : canCsumRange (obj.at ino p) n = true := by
    rw [hatBlocked.can_eq rfl hp hn hend]
    exact decide_eq_true hle
  have htried : (obj.at ino p).tried e bs =
      csumsTried e (obj.at ino p) bs (blockCount chunkBlkSz n) (p / chunkBlkSz + 0)
        (0 * chunkBlkSz) := by
    have hpos : (obj.at ino p).inPos = p := rfl
    rw [FsObj.tried, hall, if_pos hcan]
    dsimp only
    rw [hpos, hcur, hcnt, hrounds, Nat.add_zero, Nat.zero_mul]
  obtain ⟨hpre, hiff, heq⟩ := @csumsTried_blocks e (obj.at ino p) bs (p / chunkBlkSz)
    (blockCount chunkBlkSz n) 0
    (fun j hj => (hatBlocked.blkLen hall hp hle hend (by omega)).1)
    (fun j hj => (hatBlocked.blkLen hall hp hle hend (by omega)).2 (by omega))
  rw [← htried, ← List.range_eq_range'] at hpre heq
  rw [← htried] at hiff
  have hpass : ∀ j, (blockRound (p / chunkBlkSz) bs j).passes e (obj.at ino p) bs = true ↔
      e.sha1 (block chunkBlkSz bs j) = obj.csumEntry (p / chunkBlkSz + j) := by
    intro j
    rw [CsumRound.passes, blockRound_bytes, decide_eq_true_iff]
    rfl
  have hne : bs ≠ [] := List.length_pos_iff.mp (by omega)
  have hres := @fsObjRead_tried e fs (obj.at ino p) ino (obj.valueOfs + p) bound n bs rfl hread hne
  refine ⟨hpre, fun hgood => ?_, fun hsome => ?_⟩
  · have hok : ∀ j, 0 ≤ j → j < 0 + blockCount chunkBlkSz n →
        (blockRound (p / chunkBlkSz) bs j).passes e (obj.at ino p) bs = true :=
      fun j _ hj => (hpass j).mpr (hgood j (by omega))
    refine ⟨heq hok, ?_⟩
    rw [hres, if_pos (hiff.mpr hok), hall, Nat.add_assoc]
    rfl
  · by_cases hok : ∀ r ∈ (obj.at ino p).tried e bs, r.passes e (obj.at ino p) bs = true
    · exact fun i hi => (hpass i).mp (hiff.mp hok i (Nat.zero_le i) (by omega))
    · rw [hres, if_neg hok] at hsome
      exact absurd rfl hsome

/-- A read that goes on behind the object is not verified. -/
theorem FsObj.Blocked.read_past {obj : FsObj} (h : obj.Blocked) {e : Env} {fs : Vol}
    {ino p n bound : Nat} {bs : Bytes} (hp : p % chunkBlkSz = 0) (hn : 0 < n)
    (hlt : obj.size < p + n) (hend : (p + n) % chunkBlkSz = 0 ∨ p + n = obj.size)
    (hread : fs.read ino (obj.valueOfs + p) (min n (max 1 bound)) = bs) (hall : bs.length = n) :
    (fsObjRead e fs (some bound) (obj.at ino p) n).1 = some bs ∧
      (obj.at ino p).tried e bs = [] := by
  have hatBlocked : (obj.at ino p).Blocked := ⟨h.tailPos, h.tailLen, h.nBlk, h.small⟩
  have hcan : canCsumRange (obj.at ino p) n = false := by
    rw [hatBlocked.can_eq rfl hp hn hend]
    exact decide_eq_false (by simpa [FsObj.at] using hlt)
  have htried : (obj.at ino p).tried e bs = [] := by
    rw [FsObj.tried, hall, hcan]
    rfl
  have hne : bs ≠ [] := List.length_pos_iff.mp (by omega)
  refine ⟨?_, htried⟩
  rw [fsObjRead_tried rfl hread hne, if_pos]
  rw [htried]
  exact fun r hr => by cases hr

/-- A read of whole blocks of an object, the last of which may be short, succeeds if and only if all
their checksums are right, and then all that was read has been hashed, block by block. No entry behind
the table is looked at. A read that goes on behind the object is not verified. -/
theorem read_verifies_blocks (e : Env) (y : Sys) (fs₀ fs : Vol) (tableId : Nat) (user key : Bytes)
    (obj : FsObj) (hopen : fsObjOpen e y fs₀ tableId user key = .ok obj)
    (hsmall : blockCount chunkBlkSz obj.size * chdCsumSz < 2 ^ 32) (ino p n bound : Nat)
    (hp : p % chunkBlkSz = 0) (hn : 0 < n) (hend : (p + n) % chunkBlkSz = 0 ∨ p + n = obj.size)
    (bs : Bytes) (hread : fs.read ino (obj.valueOfs + p) (min n (max 1 bound)) = bs)
    (hall : bs.length = n) :
    (p + n ≤ obj.size →
      ((fsObjRead e fs (some bound) (obj.at ino p) n).1 =
        if ∀ i < blockCount chunkBlkSz n,
          e.sha1 (block chunkBlkSz bs i) = obj.csumEntry (p / chunkBlkSz + i) then some bs
        else none) ∧
      ((obj.at ino p).tried e bs <+:
        (List.range (blockCount chunkBlkSz n)).map (blockRound (p / chunkBlkSz) bs)) ∧
      ((fsObjRead e fs (some bound) (obj.at ino p) n).1 = some bs →
        (fsObjRead e fs (some bound) (obj.at ino p) n).2 = obj.at ino (p + n) ∧
        (obj.at ino p).tried e bs =
          (List.range (blockCount chunkBlkSz n)).map (blockRound (p / chunkBlkSz) bs) ∧
        (((obj.at ino p).tried e bs).map (·.bytes bs)).flatten = bs) ∧
      ∀ r ∈ (obj.at ino p).tried e bs, r.ofs + r.len ≤ n ∧
        r.blkIdx < blockCount chunkBlkSz obj.size ∧
        (r.blkIdx + 1) * chdCsumSz ≤ obj.csumTbl.data.length) ∧
    (obj.size < p + n →
      (fsObjRead e fs (some bound) (obj.at ino p) n).1 = some bs ∧
        (obj.at ino p).tried e bs = []) := by
  have hblocked := fsObjOpen_blocked hopen hsmall
  constructor
  · intro hle
    obtain ⟨hpre, hgood, hbad⟩ := hblocked.read hp hn hle hend hread hall
    refine ⟨?_, hpre, fun hsome => ?_, fun r hr => ?_⟩
    · split
      · next h => rw [(hgood h).2]
      · next h =>
        by_contra hne
        exact h (hbad hne)
    · obtain ⟨htried, hres⟩ := hgood (hbad (by rw [hsome]; exact Option.some_ne_none bs))
      refine ⟨by rw [hres], htried, ?_⟩
      have hmap : ((List.range (blockCount chunkBlkSz n)).map
          (blockRound (p / chunkBlkSz) bs)).map (·.bytes bs) = blocks chunkBlkSz bs := by
        rw [List.map_map, blocks, hall]
        exact List.map_congr_left fun i _ => blockRound_bytes _ _ _
      rw [htried, hmap, flatten_blocks chunkBlkSz_pos]
    · obtain ⟨i, hi, rfl⟩ := List.mem_map.mp (hpre.subset hr)
      have hidx := hblocked.blkIdx hp hle
      have hcount := List.mem_range.mp hi
      have hlen := block_length chunkBlkSz bs i
      have htable := fsObjOpen_table hopen hsmall
      rw [hblocked.nBlk] at hidx
      refine ⟨?_, ?_, ?_⟩
      · simp only [blockRound]
        rw [blockCount_eq_ceil chunkBlkSz_pos] at hcount
        simp only [chunkBlkSz] at *
        omega
      · simp only [blockRound]
        omega
      · simp only [blockRound]
        rw [htable]
        exact Nat.mul_le_mul_right _ (by omega)
  · exact fun hlt => hblocked.read_past hp hn hlt hend hread hall

theorem abcHdr_describes : abcHdr.Describes [0x6b] abc :=
  ⟨⟨rfl, by decide, by decide, by decide, by decide +kernel, by decide +kernel⟩, rfl, rfl, rfl,
    by decide +kernel, by decide⟩

def abcFn : Path := ⟨1, Env.sample.sha256 [0x6b]⟩

/-- A volume with the file of `abc`, in which other bytes come after the data. -/
def abcDisk (extra : Bytes) : Vol :=
  (emptyVol.creat abcFn 0).write 0 0 (objFile .sample abcHdr [0x6b] abc ++ extra) 0

theorem abcFile_length : (objFile .sample abcHdr [0x6b] abc).length = 204 := by
  rw [objFile_length abcHdr_describes]
  decide +kernel

theorem abcDisk_file (extra : Bytes) :
    ((abcDisk extra).file 0).data = objFile .sample abcHdr [0x6b] abc ++ extra := by
  have hnext : emptyVol.next = 0 := rfl
  have hdata := FileSys.data_creat emptyVol abcFn 0
  rw [hnext] at hdata
  have hne : objFile .sample abcHdr [0x6b] abc ++ extra ≠ [] := by
    rw [← List.length_pos_iff, List.length_append, abcFile_length]
    omega
  rw [abcDisk, FileSys.data_write, writeAt_zero hne, hdata, List.drop_nil, List.append_nil]

theorem abcDisk_open (extra : Bytes) {y : Sys} (hcalm : ∀ s, y.fails s = false) :
    fsObjOpen .sample y (abcDisk extra) 1 [0x75] [0x6b] =
      .ok (.opened abcHdr 0 [0x6b] (Env.sample.sha1 abc) 0) := by
  have hlook : (abcDisk extra).lookup abcFn = some 0 := FileSys.lookup_creat emptyVol abcFn 0
  have hmtime : ((abcDisk extra).file 0).mtime = 0 := by simp [abcDisk, FileSys.write]
  have hsums : ((blocks chunkBlkSz abc).map Env.sample.sha1).flatten = Env.sample.sha1 abc := by
    decide +kernel
  have h := @fsObjOpen_objFile .sample abcHdr [0x6b] abc y (abcDisk extra) 1 0 [0x75] extra abcFn
    hcalm rfl rfl hlook (abcDisk_file extra) abcHdr_describes (by decide +kernel)
    (by rw [abcFile_length]; omega)
  rwa [hmtime, hsums] at h

/-- The data of the volume and what comes after it. -/
theorem abcDisk_drop (extra : Bytes) : ((abcDisk extra).file 0).data.drop 201 = abc ++ extra := by
  have h := objFile_drop (e := .sample) abcHdr_describes
  have hofs : beFsObjHdrSz + ([0x6b] : Bytes).length + csumBytes abcHdr.nBlk = 201 := by decide
  rw [hofs] at h
  rw [abcDisk_file, List.drop_append_of_le_length (by rw [abcFile_length]; omega), h]

theorem read_verifies_blocks_abc :
    (fsObjRead .sample (abcDisk []) (some 3)
      ((FsObj.opened abcHdr 0 [0x6b] (Env.sample.sha1 abc) 0).at 0 0) 3).1 = some abc ∧
    ((FsObj.opened abcHdr 0 [0x6b] (Env.sample.sha1 abc) 0).at 0 0).tried .sample abc =
      [⟨0, 0, 3⟩] := by
  have hread : (abcDisk []).read 0 201 3 = abc := by
    rw [FileSys.read, abcDisk_drop]
    rfl
  obtain ⟨hinside, -⟩ := read_verifies_blocks .sample .calm (abcDisk []) (abcDisk []) 1 [0x75] [0x6b] _
    (abcDisk_open [] fun _ => rfl) (by decide) 0 0 3 3 (by decide) (by decide) (.inr (by decide)) abc hread rfl
  obtain ⟨hres, -, hall, -⟩ := hinside (by decide)
  have hok : (fsObjRead .sample (abcDisk []) (some 3)
      ((FsObj.opened abcHdr 0 [0x6b] (Env.sample.sha1 abc) 0).at 0 0) 3).1 = some abc := by
    rw [hres, if_pos (by decide +kernel)]
  refine ⟨hok, ?_⟩
  rw [(hall hok).2.1]
  decide +kernel

/-- What comes after the data is returned unverified. -/
theorem unverified_past_end :
    ∃ obj bs, fsObjOpen .sample .calm (abcDisk (List.replicate 65533 0)) 1 [0x75] [0x6b] = .ok obj ∧
      blockCount chunkBlkSz obj.size * chdCsumSz < 2 ^ 32 ∧ (0 + 65536) % chunkBlkSz = 0 ∧
      (abcDisk (List.replicate 65533 0)).read 0 (obj.valueOfs + 0) 65536 = bs ∧ bs.length = 65536 ∧
      (fsObjRead .sample (abcDisk (List.replicate 65533 0)) (some 65536) (obj.at 0 0) 65536).1 =
        some bs ∧
      Env.sample.sha1 (block chunkBlkSz bs 0) ≠ obj.csumEntry 0 := by
  set bs : Bytes := abc ++ List.replicate 65533 0 with hbs
  have hlen : bs.length = 65536 := by
    rw [hbs, List.length_append, List.length_replicate]
    rfl
  have hread : (abcDisk (List.replicate 65533 0)).read 0 (201 + 0) 65536 = bs := by
    rw [FileSys.read, abcDisk_drop, ← hbs, ← hlen, List.take_length]
  have hopen := @abcDisk_open (List.replicate 65533 0) .calm fun _ => rfl
  have hblocked := fsObjOpen_blocked hopen (by decide)
  have hpast := @FsObj.Blocked.read_past _ hblocked .sample (abcDisk (List.replicate 65533 0)) 0 0
    65536 65536 bs (by decide) (by decide) (by decide) (.inl (by decide)) hread hlen
  refine ⟨_, bs, hopen, by decide, by decide, hread, hlen, hpast.1, ?_⟩
  have hblock : block chunkBlkSz bs 0 = bs := by
    rw [block, Nat.zero_mul, List.drop_zero]
    exact List.take_of_length_le hlen.le
  have hne : bs ≠ abc := by
    intro h
    rw [h] at hlen
    cases hlen
  have hsum : Env.sample.sha1 bs = List.replicate chdCsumSz 0 := by
    simp only [Env.sample, if_neg hne]
  rw [hblock, hsum]
  decide +kernel

end Hail.Chunkd
