import Hail.Cld.Path
import Hail.Library.Run

/-!
# Walks over directory data

`dirent_find` of the server and the functions of `lib/cldc.c` that go through the data of a directory.
Each holds a pointer and counts by itself how many bytes are left. A read of memory behind the end of
the data is a fault, for which the model has no result.
-/
namespace Hail.Cldc

open Library Cld

/-- `n` bytes of the memory behind a pointer, `p`, at an offset. -/
def peek (p : Bytes) (ofs n : Nat) : Option Bytes :=
  if ofs + n ≤ p.length then some ((p.drop ofs).take n) else none

def strLenAt (p : Bytes) : Option Nat := (peek p 0 2).map ofLe

/-- `total_len`. -/
def totalLen (strLen : Nat) : Nat := strLen + 2 + cldAlign8 (strLen + 2)

theorem totalLen_pos (strLen : Nat) : 0 < totalLen strLen := by
  unfold totalLen
  omega

/-- The comparison of `dirent_find` with the name of a record. -/
def sameName (name p : Bytes) (strLen : Nat) : Option Bool :=
  if name.length = strLen then (peek p 2 name.length).map fun s => decide (s = name) else some false

/-- The loop of `dirent_find`, `ofs` bytes into the data: an error code, or the offset and the length of
the record. -/
def direntFindFrom (name p : Bytes) (ofs tmpLen : Nat) : Option (Except Int (Int × Nat)) :=
  if tmpLen = 0 then some (.error (-1))
  else if tmpLen < 2 then some (.error (-2))
  else
    match strLenAt p with
    | none => none
    | some strLen =>
      if tmpLen < totalLen strLen then some (.error (-2))
      else
        match sameName name p strLen with
        | none => none
        | some true => some (.ok (toInt32 ofs, totalLen strLen))
        | some false =>
          direntFindFrom name (p.drop (totalLen strLen)) (ofs + totalLen strLen)
            (tmpLen - totalLen strLen)
termination_by tmpLen
decreasing_by
  have := totalLen_pos strLen
  omega

def direntFind (data name : Bytes) : Option (Except Int (Int × Nat)) :=
  direntFindFrom name data 0 data.length

/-- The loop of `cldc_dirent_count`. -/
def direntCountFrom (p : Bytes) (tmpLen count : Nat) : Option Int :=
  if tmpLen = 0 then some (toInt32 count)
  else if tmpLen < 2 then some (-2)
  else
    match strLenAt p with
    | none => none
    | some strLen =>
      if tmpLen < totalLen strLen then some (-2)
      else direntCountFrom (p.drop (totalLen strLen)) (tmpLen - totalLen strLen) (count + 1)
termination_by tmpLen
decreasing_by
  have := totalLen_pos strLen
  omega

def cldcDirentCount (data : Bytes) : Option Int := direntCountFrom data data.length 0

def direntLength (buf : Bytes) (buflen : Nat) : Option Int :=
  if buflen < 2 then some (-1)
  else
    match strLenAt buf with
    | none => none
    | some strLen => if buflen < totalLen strLen then some (-1) else some (totalLen strLen)

/-- `struct cld_dirent_cur`. -/
structure DirentCur where
  p : Bytes
  tmpLen : Nat
  deriving DecidableEq, Repr

def cldcDirentCurInit (data : Bytes) : DirentCur := ⟨data, data.length⟩

def cldcDirentFirst (dc : DirentCur) : Option Int :=
  (direntLength dc.p dc.tmpLen).map fun direntLen => if direntLen < 0 then -2 else 0

def cldcDirentNext (dc : DirentCur) : Option (Int × DirentCur) :=
  match direntLength dc.p dc.tmpLen with
  | none => none
  | some direntLen =>
    if direntLen < 0 then some (-2, dc)
    else
      let dc : DirentCur := ⟨dc.p.drop direntLen.toNat, dc.tmpLen - direntLen.toNat⟩
      (direntLength dc.p dc.tmpLen).map fun direntLen => (if direntLen < 0 then -2 else 0, dc)

/-- `cldc_dirent_name`: a string in new memory, or null. -/
def cldcDirentName (fails : Bool) (dc : DirentCur) : Option (Option Bytes) :=
  match strLenAt dc.p with
  | none => none
  | some strLen => if fails then some none else (peek dc.p 2 strLen).map fun s => some (s ++ [0])

/-! ## Records -/

/-- A record. The padding may hold anything. -/
structure Dirent where
  name : Bytes
  pad : Bytes
  name_lt : name.length < 2 ^ 16
  pad_length : pad.length = cldAlign8 (name.length + 2)

def Dirent.bytes (d : Dirent) : Bytes := leBytes 2 d.name.length ++ d.name ++ d.pad

def direntsOf (ds : List Dirent) : Bytes := ds.flatMap Dirent.bytes

theorem direntsOf_cons (d : Dirent) (ds : List Dirent) :
    direntsOf (d :: ds) = d.bytes ++ direntsOf ds := rfl

theorem Dirent.bytes_length (d : Dirent) : d.bytes.length = totalLen d.name.length := by
  rw [bytes, List.length_append, List.length_append, leBytes_length, d.pad_length, totalLen]
  omega

theorem direntsOf_length (ds : List Dirent) : 8 * ds.length ≤ (direntsOf ds).length := by
  induction ds with
  | nil => simp
  | cons d ds ih =>
    rw [direntsOf_cons, List.length_append, d.bytes_length, List.length_cons, totalLen, cldAlign8]
    omega

theorem strLenAt_bytes (d : Dirent) (rest : Bytes) :
    strLenAt (d.bytes ++ rest) = some d.name.length := by
  have hlen : 0 + 2 ≤ (d.bytes ++ rest).length := by
    rw [List.length_append, d.bytes_length, totalLen]
    omega
  have htake : (d.bytes ++ rest).take 2 = leBytes 2 d.name.length := by
    rw [Dirent.bytes, List.append_assoc, List.append_assoc]
    exact List.take_left' (leBytes_length 2 _)
  have hlt := d.name_lt
  rw [strLenAt, peek, if_pos hlen, List.drop_zero, htake, Option.map_some, ofLe_leBytes,
    Nat.mod_eq_of_lt (by omega)]

theorem peek_bytes (d : Dirent) (rest : Bytes) :
    peek (d.bytes ++ rest) 2 d.name.length = some d.name := by
  have hlen : 2 + d.name.length ≤ (d.bytes ++ rest).length := by
    rw [List.length_append, d.bytes_length, totalLen]
    omega
  have hfield := take_drop_field (leBytes_length 2 d.name.length) (rfl : d.name.length = _)
    (d.pad ++ rest)
  rw [peek, if_pos hlen, Dirent.bytes]
  simpa only [List.append_assoc] using congrArg some hfield

/-- Bytes that do not begin with a record. -/
structure Broken (p : Bytes) : Prop where
  ne_nil : p ≠ []
  short : p.length < 2 ∨ ∃ n, strLenAt p = some n ∧ p.length < totalLen n

/-- A length in the data that fits is that of a record. -/
theorem exists_dirent {p : Bytes} {n : Nat} (hn : strLenAt p = some n)
    (hle : totalLen n ≤ p.length) : ∃ (d : Dirent) (rest : Bytes), p = d.bytes ++ rest := by
  have htwo : 2 ≤ p.length := by
    unfold totalLen at hle
    omega
  have hpre : (p.take 2).length = 2 := by
    rw [List.length_take]
    omega
  have hlen : ofLe (p.take 2) = n := by
    rw [strLenAt, peek, if_pos (by omega), List.drop_zero] at hn
    exact Option.some.inj hn
  have hlt := ofLe_lt (p.take 2)
  rw [hlen, hpre] at hlt
  have hname : ((p.drop 2).take n).length = n := by
    rw [List.length_take, List.length_drop]
    unfold totalLen at hle
    omega
  have hpad : (((p.drop 2).drop n).take (cldAlign8 (n + 2))).length = cldAlign8 (n + 2) := by
    rw [List.length_take, List.length_drop, List.length_drop]
    unfold totalLen at hle
    omega
  refine ⟨⟨(p.drop 2).take n, ((p.drop 2).drop n).take (cldAlign8 (n + 2)), by omega, by rw [hname, hpad]⟩,
    ((p.drop 2).drop n).drop (cldAlign8 (n + 2)), ?_⟩
  have hhead : leBytes 2 n = p.take 2 := by
    have h := leBytes_ofLe (p.take 2)
    rwa [hpre, hlen] at h
  simp only [Dirent.bytes, hname, hhead]
  rw [List.append_assoc, List.append_assoc, List.take_append_drop, List.take_append_drop,
    List.take_append_drop]

/-- Any bytes are some records and what does not begin with one. -/
theorem exists_records (data : Bytes) :
    ∃ ds tail, data = direntsOf ds ++ tail ∧ (tail = [] ∨ Broken tail) := by
  induction hlen : data.length using Nat.strong_induction_on generalizing data with
  | _ n ih =>
    by_cases hnil : data = []
    · exact ⟨[], [], by rw [hnil]; rfl, .inl rfl⟩
    by_cases hshort : data.length < 2
    · exact ⟨[], data, rfl, .inr ⟨hnil, .inl hshort⟩⟩
    have hsome : strLenAt data = some (ofLe (data.take 2)) := by
      rw [strLenAt, peek, if_pos (by omega), List.drop_zero]
      rfl
    by_cases hfit : totalLen (ofLe (data.take 2)) ≤ data.length
    · obtain ⟨d, rest, rfl⟩ := exists_dirent hsome hfit
      have hpos := totalLen_pos d.name.length
      rw [List.length_append, d.bytes_length] at hlen
      obtain ⟨ds, tail, hrest, htail⟩ := ih rest.length (by omega) rest rfl
      exact ⟨d :: ds, tail, by rw [direntsOf_cons, List.append_assoc, ← hrest], htail⟩
    · exact ⟨[], data, rfl, .inr ⟨hnil, .inr ⟨_, hsome, by omega⟩⟩⟩

/-! ## One round of each walk -/

section

variable {d : Dirent} {rest tail : Bytes}

theorem bytes_append_length (d : Dirent) (rest : Bytes) :
    (d.bytes ++ rest).length = totalLen d.name.length + rest.length := by
  rw [List.length_append, d.bytes_length]

theorem totalLen_ge (n : Nat) : 8 ≤ totalLen n := by
  unfold totalLen cldAlign8
  omega

theorem drop_bytes (d : Dirent) (rest : Bytes) :
    (d.bytes ++ rest).drop (totalLen d.name.length) = rest := by
  rw [← d.bytes_length, List.drop_left]

theorem direntFindFrom_bytes (name : Bytes) (d : Dirent) (rest : Bytes) (ofs : Nat) :
    direntFindFrom name (d.bytes ++ rest) ofs (d.bytes ++ rest).length =
      if d.name = name then some (.ok (toInt32 ofs, d.bytes.length))
      else direntFindFrom name rest (ofs + d.bytes.length) rest.length := by
  have hge := totalLen_ge d.name.length
  have hlen := bytes_append_length d rest
  rw [direntFindFrom, if_neg (by omega), if_neg (by omega), strLenAt_bytes]
  dsimp only
  rw [if_neg (by omega), drop_bytes, ← d.bytes_length, List.length_append, Nat.add_sub_cancel_left]
  by_cases hname : d.name = name
  · have hsame : sameName name (d.bytes ++ rest) d.name.length = some true := by
      rw [sameName, if_pos (by rw [hname]), ← hname, peek_bytes]
      simp
    rw [hsame, if_pos hname]
  · have hsame : sameName name (d.bytes ++ rest) d.name.length = some false := by
      unfold sameName
      split
      · next hl =>
        rw [hl, peek_bytes]
        simp [hname]
      · rfl
    rw [hsame, if_neg hname]

theorem direntFindFrom_end (name : Bytes) (ofs : Nat) (h : tail = [] ∨ Broken tail) :
    direntFindFrom name tail ofs tail.length =
      some (.error (if tail = [] then -1 else -2)) := by
  rw [direntFindFrom]
  rcases h with rfl | ⟨hne, hshort⟩
  · rfl
  · have hpos := List.length_pos_iff.mpr hne
    rw [if_neg (by omega), if_neg hne]
    by_cases htwo : tail.length < 2
    · rw [if_pos htwo]
    · obtain ⟨n, hn, hlt⟩ := hshort.resolve_left htwo
      rw [if_neg htwo, hn]
      dsimp only
      rw [if_pos hlt]

theorem direntCountFrom_bytes (d : Dirent) (rest : Bytes) (count : Nat) :
    direntCountFrom (d.bytes ++ rest) (d.bytes ++ rest).length count =
      direntCountFrom rest rest.length (count + 1) := by
  have hge := totalLen_ge d.name.length
  have hlen := bytes_append_length d rest
  rw [direntCountFrom, if_neg (by omega), if_neg (by omega), strLenAt_bytes]
  dsimp only
  rw [if_neg (by omega), drop_bytes, ← d.bytes_length, List.length_append, Nat.add_sub_cancel_left]

theorem direntCountFrom_end (count : Nat) (h : tail = [] ∨ Broken tail) :
    direntCountFrom tail tail.length count = some (if tail = [] then toInt32 count else -2) := by
  rw [direntCountFrom]
  rcases h with rfl | ⟨hne, hshort⟩
  · simp
  · have hpos := List.length_pos_iff.mpr hne
    rw [if_neg (by omega), if_neg hne]
    by_cases htwo : tail.length < 2
    · rw [if_pos htwo]
    · obtain ⟨n, hn, hlt⟩ := hshort.resolve_left htwo
      rw [if_neg htwo, hn]
      dsimp only
      rw [if_pos hlt]

theorem direntLength_bytes (d : Dirent) (rest : Bytes) :
    direntLength (d.bytes ++ rest) (d.bytes ++ rest).length = some (d.bytes.length : Int) := by
  have hge := totalLen_ge d.name.length
  have hlen := bytes_append_length d rest
  rw [direntLength, if_neg (by omega), strLenAt_bytes]
  dsimp only
  rw [if_neg (by omega), d.bytes_length]

theorem direntLength_end (h : tail = [] ∨ Broken tail) :
    direntLength tail tail.length = some (-1) := by
  unfold direntLength
  by_cases htwo : tail.length < 2
  · rw [if_pos htwo]
  · rcases h with rfl | ⟨hne, hshort⟩
    · exact absurd (by simp) htwo
    · obtain ⟨n, hn, hlt⟩ := hshort.resolve_left htwo
      rw [if_neg htwo, hn]
      dsimp only
      rw [if_pos hlt]

end

/-! ## Whole walks -/

section

variable {ds : List Dirent} {tail : Bytes}

theorem direntFindFrom_absent {name : Bytes} (hname : name ∉ ds.map Dirent.name)
    (h : tail = [] ∨ Broken tail) (ofs : Nat) :
    direntFindFrom name (direntsOf ds ++ tail) ofs (direntsOf ds ++ tail).length =
      some (.error (if tail = [] then -1 else -2)) := by
  induction ds generalizing ofs with
  | nil => exact direntFindFrom_end name ofs h
  | cons d ds ih =>
    rw [List.map_cons, List.mem_cons, not_or] at hname
    rw [direntsOf_cons, List.append_assoc, direntFindFrom_bytes, if_neg (Ne.symm hname.1)]
    exact ih hname.2 _

/-- The first record of a name is found. -/
theorem direntFindFrom_first {pre post : List Dirent} {d : Dirent}
    (hname : d.name ∉ pre.map Dirent.name) (ofs : Nat) :
    direntFindFrom d.name (direntsOf (pre ++ d :: post) ++ tail) ofs
        (direntsOf (pre ++ d :: post) ++ tail).length =
      some (.ok (toInt32 (ofs + (direntsOf pre).length : Nat), d.bytes.length)) := by
  induction pre generalizing ofs with
  | nil =>
    rw [List.nil_append, direntsOf_cons, List.append_assoc, direntFindFrom_bytes, if_pos rfl]
    rfl
  | cons x pre ih =>
    rw [List.map_cons, List.mem_cons, not_or] at hname
    rw [List.cons_append, direntsOf_cons, List.append_assoc, direntFindFrom_bytes,
      if_neg (Ne.symm hname.1), ih hname.2, direntsOf_cons, List.length_append, Nat.add_assoc]

theorem direntCountFrom_records (ds : List Dirent) (h : tail = [] ∨ Broken tail) (count : Nat) :
    direntCountFrom (direntsOf ds ++ tail) (direntsOf ds ++ tail).length count =
      some (if tail = [] then toInt32 (count + ds.length : Nat) else -2) := by
  induction ds generalizing count with
  | nil => exact direntCountFrom_end count h
  | cons d ds ih =>
    rw [direntsOf_cons, List.append_assoc, direntCountFrom_bytes, ih, List.length_cons,
      Nat.add_right_comm, Nat.add_assoc]

/-- A cursor before some records. -/
def DirentCur.before (ds : List Dirent) (tail : Bytes) : DirentCur :=
  cldcDirentCurInit (direntsOf ds ++ tail)

theorem direntLength_before (ds : List Dirent) (h : tail = [] ∨ Broken tail) :
    direntLength (DirentCur.before ds tail).p (DirentCur.before ds tail).tmpLen =
      some (match ds with | [] => -1 | d :: _ => d.bytes.length) := by
  cases ds with
  | nil => exact direntLength_end h
  | cons d ds =>
    simp only [DirentCur.before, cldcDirentCurInit, direntsOf_cons, List.append_assoc]
    exact direntLength_bytes d _

theorem cldcDirentFirst_before (ds : List Dirent) (h : tail = [] ∨ Broken tail) :
    cldcDirentFirst (.before ds tail) = some (if ds = [] then -2 else 0) := by
  rw [cldcDirentFirst, direntLength_before ds h]
  cases ds with
  | nil => rfl
  | cons d ds =>
    simp only [Option.map_some, reduceCtorEq, if_false]
    rw [if_neg (by omega)]

theorem cldcDirentNext_before (ds : List Dirent) (h : tail = [] ∨ Broken tail) :
    cldcDirentNext (.before ds tail) =
      some (if ds.tail = [] then -2 else 0, .before ds.tail tail) := by
  rw [cldcDirentNext, direntLength_before ds h]
  cases ds with
  | nil => rfl
  | cons d ds =>
    have hmoved : (⟨(DirentCur.before (d :: ds) tail).p.drop d.bytes.length,
        (DirentCur.before (d :: ds) tail).tmpLen - d.bytes.length⟩ : DirentCur) = .before ds tail := by
      simp only [DirentCur.before, cldcDirentCurInit, direntsOf_cons, List.append_assoc,
        List.drop_left, List.length_append, Nat.add_sub_cancel_left]
    have hp := congrArg DirentCur.p hmoved
    have hleft := congrArg DirentCur.tmpLen hmoved
    dsimp only at hp hleft ⊢
    rw [if_neg (by omega), Int.toNat_natCast, hmoved, hp, hleft, direntLength_before ds h]
    cases ds with
    | nil => rfl
    | cons x ds =>
      simp only [Option.map_some, reduceCtorEq, if_false, List.tail_cons]
      rw [if_neg (by omega)]

theorem cldcDirentName_before (fails : Bool) (d : Dirent) (ds : List Dirent) :
    cldcDirentName fails (.before (d :: ds) tail) =
      some (if fails then none else some (d.name ++ [0])) := by
  simp only [cldcDirentName, DirentCur.before, cldcDirentCurInit, direntsOf_cons, List.append_assoc,
    strLenAt_bytes, peek_bytes, Option.map_some]
  cases fails <;> rfl

end

/-! ## Calls of the cursor -/

inductive CurOp where
  | first | next
  | name (fails : Bool)
  deriving DecidableEq, Repr

/-- A cursor, and what the last `cldc_dirent_first` or `cldc_dirent_next` has returned. -/
structure CurRun where
  dc : DirentCur
  rc : Int
  deriving DecidableEq, Repr

def CurRun.start (data : Bytes) : CurRun := ⟨cldcDirentCurInit data, -2⟩

/-- A call, which may be one of `cldc_dirent_name` only when there is a record. -/
def CurRun.step (s : CurRun) : CurOp → Option CurRun
  | .first => (cldcDirentFirst s.dc).map fun rc => { s with rc }
  | .next => (cldcDirentNext s.dc).map fun r => ⟨r.2, r.1⟩
  | .name fails => if s.rc = 0 then (cldcDirentName fails s.dc).map fun _ => s else some s

def curStep (s : Option CurRun) (op : CurOp) : Option CurRun := s.bind (·.step op)

/-- The cursor stands before some of the records, and at one after a call that has succeeded. -/
def CurRun.Sound (ds : List Dirent) (tail : Bytes) (s : CurRun) : Prop :=
  ∃ ds', ds' <:+ ds ∧ s.dc = .before ds' tail ∧ (s.rc = 0 → ds' ≠ [])

theorem CurRun.Sound.step {ds : List Dirent} {tail : Bytes} {s : CurRun} (h : s.Sound ds tail)
    (htail : tail = [] ∨ Broken tail) (op : CurOp) :
    ∃ s', s.step op = some s' ∧ s'.Sound ds tail := by
  obtain ⟨ds', hsuf, hdc, hrc⟩ := h
  obtain ⟨dc, rc⟩ := s
  obtain rfl : dc = .before ds' tail := hdc
  cases op with
  | first =>
    refine ⟨⟨_, _⟩, by rw [CurRun.step, cldcDirentFirst_before ds' htail]; rfl, ds', hsuf, rfl, ?_⟩
    intro h0 hnil
    simp [hnil] at h0
  | next =>
    refine ⟨⟨_, _⟩, by rw [CurRun.step, cldcDirentNext_before ds' htail]; rfl, ds'.tail,
      (List.tail_suffix ds').trans hsuf, rfl, ?_⟩
    intro h0 hnil
    simp [hnil] at h0
  | name fails =>
    refine ⟨⟨.before ds' tail, rc⟩, ?_, ds', hsuf, rfl, hrc⟩
    simp only [CurRun.step]
    split
    · next h0 =>
      cases ds' with
      | nil => exact absurd rfl (hrc h0)
      | cons d ds' =>
        rw [cldcDirentName_before]
        rfl
    · rfl

theorem run_curStep_sound {ds : List Dirent} {tail : Bytes} (htail : tail = [] ∨ Broken tail)
    (ops : List CurOp) :
    ∃ s, run curStep (some (.start (direntsOf ds ++ tail))) ops = some s ∧ s.Sound ds tail := by
  refine @run_invariant _ _ curStep (some (.start (direntsOf ds ++ tail)))
    (fun s => ∃ t, s = some t ∧ t.Sound ds tail) ⟨_, rfl, ds, List.suffix_rfl, rfl, ?_⟩ ?_ ops
  · rintro ⟨⟩
  · rintro s op ⟨t, rfl, ht⟩
    exact ht.step htail op

/-- After `cldc_dirent_first` and `k` times `cldc_dirent_next`. -/
theorem run_visits (ds : List Dirent) (k : Nat) :
    run curStep (some (.start (direntsOf ds))) (.first :: List.replicate k .next) =
      some ⟨.before (ds.drop k) [], if k < ds.length then 0 else -2⟩ := by
  have hstart : CurRun.start (direntsOf ds) = ⟨.before ds [], -2⟩ := by
    rw [CurRun.start, DirentCur.before, List.append_nil]
  induction k with
  | zero =>
    rw [hstart]
    change (CurRun.step ⟨.before ds [], -2⟩ .first) = _
    rw [CurRun.step, cldcDirentFirst_before ds (.inl rfl)]
    cases ds <;> rfl
  | succ k ih =>
    rw [List.replicate_succ', ← List.cons_append, run_append, ih]
    change (CurRun.step ⟨.before (ds.drop k) [], _⟩ .next) = _
    rw [CurRun.step, cldcDirentNext_before _ (.inl rfl), List.tail_drop]
    simp only [Option.map_some, List.drop_eq_nil_iff]
    by_cases hk : k + 1 < ds.length
    · rw [if_neg (by omega), if_pos hk]
    · rw [if_pos (by omega), if_neg hk]

/-- The three walks over any bytes end without a fault and agree on the records. -/
theorem walks_agree (data : Bytes) (hlen : data.length < 2 ^ 31) :
    (∀ name, ∃ res, direntFind data name = some res) ∧
    (∀ ops, ∃ s, run curStep (some (.start data)) ops = some s) ∧
    (∃ n, cldcDirentCount data = some n ∧
      ∀ k : Nat, n = k ↔ ∃ ds, data = direntsOf ds ∧ ds.length = k) ∧
    ∀ ds, data = direntsOf ds →
      (∀ k, ∃ s, run curStep (some (.start data)) (.first :: List.replicate k .next) = some s ∧
        (s.rc = 0 ↔ k < ds.length) ∧
        ∀ hk : k < ds.length, cldcDirentName false s.dc = some (some (ds[k].name ++ [0]))) ∧
      (∀ name, name ∉ ds.map Dirent.name → direntFind data name = some (.error (-1))) ∧
      ∀ pre d post, ds = pre ++ d :: post → d.name ∉ pre.map Dirent.name →
        direntFind data d.name = some (.ok (((direntsOf pre).length : Nat), d.bytes.length)) := by
  obtain ⟨ds, tail, hdata, htail⟩ := exists_records data
  have hbound : ∀ {ds : List Dirent} {rest : Bytes}, data = direntsOf ds ++ rest →
      (direntsOf ds).length < 2 ^ 31 ∧ ds.length < 2 ^ 31 := by
    intro ds rest h
    have hds := direntsOf_length ds
    rw [h, List.length_append] at hlen
    omega
  have hcount : ∀ {ds : List Dirent} {rest : Bytes}, data = direntsOf ds ++ rest →
      (rest = [] ∨ Broken rest) →
      cldcDirentCount data = some (if rest = [] then (ds.length : Int) else -2) := by
    intro ds rest h hrest
    rw [cldcDirentCount, h, direntCountFrom_records ds hrest, Nat.zero_add,
      toInt32_of_lt (hbound h).2]
  refine ⟨fun name => ?_, fun ops => ?_, ⟨_, hcount hdata htail, fun k => ?_⟩, ?_⟩
  · rw [direntFind, hdata]
    by_cases hname : name ∈ ds.map Dirent.name
    · obtain ⟨pre, d, post, hds, hd, hpre⟩ : ∃ pre d post, ds = pre ++ d :: post ∧ d.name = name ∧
          d.name ∉ pre.map Dirent.name := by
        obtain ⟨front, back, hsplit, hfirst⟩ := List.eq_append_cons_of_mem hname
        obtain ⟨pre, more, rfl, rfl, hmore⟩ := List.map_eq_append_iff.mp hsplit
        obtain ⟨d, post, rfl, hd, -⟩ := List.map_eq_cons_iff.mp hmore
        exact ⟨pre, d, post, rfl, hd, hd ▸ hfirst⟩
      rw [hds, ← hd]
      exact ⟨_, direntFindFrom_first hpre 0⟩
    · exact ⟨_, direntFindFrom_absent hname htail 0⟩
  · obtain ⟨s, hs, -⟩ := @run_curStep_sound ds tail htail ops
    exact ⟨s, by rw [hdata, hs]⟩
  · constructor
    · intro hk
      split at hk
      · next hnil => exact ⟨ds, by rw [hdata, hnil, List.append_nil], by omega⟩
      · omega
    · rintro ⟨ds', hds', rfl⟩
      have h := (hcount hdata htail).symm.trans
        (hcount (hds'.trans (List.append_nil _).symm) (.inl rfl))
      simpa using h
  · rintro ds' hds'
    refine ⟨fun k => ⟨_, by rw [hds', run_visits], ?_, fun hk => ?_⟩, fun name hname => ?_,
      fun pre d post hsplit hpre => ?_⟩
    · dsimp only
      split <;> simp_all
    · dsimp only
      rw [List.drop_eq_getElem_cons hk, cldcDirentName_before]
      rfl
    · have h := @direntFindFrom_absent _ [] _ hname (.inl rfl) 0
      rw [List.append_nil] at h
      rw [direntFind, hds', h]
      rfl
    · have h := @direntFindFrom_first [] pre post d hpre 0
      have hlt := (hbound (hds'.trans (List.append_nil _).symm)).1
      rw [hsplit, direntsOf, List.flatMap_append, List.length_append] at hlt
      rw [List.append_nil, Nat.zero_add, toInt32_of_lt (by rw [direntsOf]; omega)] at h
      rw [direntFind, hds', hsplit, h]

/-- Two records, of the names `a` and `b`. -/
theorem walks_agree_two :
    ∃ s, run curStep (some (.start (dirdataAppend (dirdataAppend [] [0x61]) [0x62]))) [.first, .next] =
        some s ∧ s.rc = 0 ∧ cldcDirentName false s.dc = some (some [0x62, 0]) := by
  have hagree := walks_agree (dirdataAppend (dirdataAppend [] [0x61]) [0x62]) (by decide)
  have hvisits := hagree.2.2.2
    [⟨[0x61], [0, 0, 0, 0, 0], by decide, by decide⟩, ⟨[0x62], [0, 0, 0, 0, 0], by decide, by decide⟩]
    (by decide)
  obtain ⟨s, hs, hrc, hname⟩ := hvisits.1 1
  exact ⟨s, hs, hrc.mpr (by decide), hname (by decide)⟩

/-! ## The scan of the server -/

theorem direntScan_bytes (name : Bytes) (d : Dirent) (rest : Bytes) (fuel ofs : Nat) :
    direntScan name (fuel + 1) ofs (d.bytes ++ rest) =
      if d.name = name then .found ofs d.bytes.length
      else direntScan name fuel (ofs + d.bytes.length) rest := by
  have hge := totalLen_ge d.name.length
  have hlen := bytes_append_length d rest
  have hne : d.bytes ++ rest ≠ [] := List.length_pos_iff.mp (by omega)
  have hstr : ofLe ((d.bytes ++ rest).take 2) = d.name.length := by
    have h := strLenAt_bytes d rest
    rw [strLenAt, peek, if_pos (by omega), List.drop_zero] at h
    exact Option.some.inj h
  have hname : ((d.bytes ++ rest).drop 2).take d.name.length = d.name := by
    have h := peek_bytes d rest
    rw [peek, if_pos (by rw [hlen, totalLen]; omega)] at h
    exact Option.some.inj h
  have htotal : d.name.length + 2 + cldAlign8 (d.name.length + 2) = totalLen d.name.length := rfl
  rw [direntScan, if_neg hne, if_neg (by omega)]
  simp only [hstr, hname, htotal, drop_bytes, d.bytes_length]
  rw [if_neg (by omega)]
  by_cases h : d.name = name
  · rw [if_pos ⟨by rw [h], h⟩, if_pos h]
  · rw [if_neg (fun hn => h hn.2), if_neg h]

theorem direntScan_end {tail : Bytes} (name : Bytes) (fuel ofs : Nat)
    (h : tail = [] ∨ Broken tail) :
    direntScan name fuel ofs tail = if tail = [] then .notfound else .corrupt := by
  cases fuel with
  | zero => rfl
  | succ fuel =>
    rw [direntScan]
    by_cases hnil : tail = []
    · rw [if_pos hnil, if_pos hnil]
    · obtain ⟨-, hshort⟩ := h.resolve_left hnil
      rw [if_neg hnil, if_neg hnil]
      by_cases htwo : tail.length < 2
      · rw [if_pos htwo]
      · obtain ⟨n, hn, hlt⟩ := hshort.resolve_left htwo
        rw [strLenAt, peek, if_pos (by omega), List.drop_zero] at hn
        unfold totalLen at hlt
        rw [if_neg htwo]
        simp only [Option.some.inj hn]
        rw [if_pos hlt]

/-- The result of a scan as `dirent_find` returns it. -/
def findResult : DirentResult → Except Int (Int × Nat)
  | .notfound => .error (-1)
  | .corrupt => .error (-2)
  | .found ofs entLen => .ok (toInt32 ofs, entLen)

/-- What the server does with its data is what `dirent_find` says. -/
theorem direntFind_eq (data name : Bytes) :
    direntFind data name = some (findResult (Cld.direntFind data name)) := by
  obtain ⟨ds, tail, rfl, htail⟩ := exists_records data
  have hscan : ∀ fuel ofs, (direntsOf ds ++ tail).length ≤ fuel →
      direntFindFrom name (direntsOf ds ++ tail) ofs (direntsOf ds ++ tail).length =
        some (findResult (direntScan name fuel ofs (direntsOf ds ++ tail))) := by
    induction ds with
    | nil =>
      intro fuel ofs hfuel
      rw [direntsOf, List.flatMap_nil, List.nil_append, direntFindFrom_end name ofs htail,
        direntScan_end name fuel ofs htail]
      split <;> rfl
    | cons d ds ih =>
      intro fuel ofs hfuel
      have hge := totalLen_ge d.name.length
      rw [direntsOf_cons, List.append_assoc, bytes_append_length] at hfuel
      obtain ⟨fuel, rfl⟩ : ∃ n, fuel = n + 1 := ⟨fuel - 1, by omega⟩
      rw [direntsOf_cons, List.append_assoc, direntFindFrom_bytes, direntScan_bytes]
      split
      · rfl
      · exact ih fuel _ (by omega)
  exact hscan _ 0 le_rfl

/-! ## Changes to a directory -/

/-- The loop of `cmd_ls` over the records that have been counted. -/
def lsLoop : Nat → Bool → DirentCur → Option (List Bytes)
  | 0, _, _ => some []
  | n + 1, first, dc =>
    match if first then (cldcDirentFirst dc).map (·, dc) else cldcDirentNext dc with
    | none => none
    | some (rc, dc) =>
      if rc < 0 then some []
      else
        match cldcDirentName false dc with
        | some (some s) => (lsLoop n false dc).map (cstr s :: ·)
        | _ => none

/-- What `cmd_ls` prints of the data of a directory, unless the data is not well formed. -/
def cmdLs (data : Bytes) : Option (Option (List Bytes)) :=
  match cldcDirentCount data with
  | none => none
  | some rc => if rc < 0 then some none else (lsLoop rc.toNat true (cldcDirentCurInit data)).map some

/-- A name added to a directory or taken out of it. -/
inductive DirOp where
  | append (name : Bytes)
  | delete (name : Bytes)
  deriving DecidableEq, Repr

def DirOp.name : DirOp → Bytes
  | .append name | .delete name => name

def dirStep (data : Bytes) : DirOp → Bytes
  | .append name => dirdataAppend data name
  | .delete name => (dirdataDelete data name).getD data

def namesStep (names : List Bytes) : DirOp → List Bytes
  | .append name => names ++ [name]
  | .delete name => names.erase name

/-- A name as `msg_open` accepts it for a component. -/
structure DirName (name : Bytes) : Prop where
  pos : 1 ≤ name.length
  lt : name.length < 65536
  noNul : ∀ b ∈ name, b ≠ 0

/-- The record of `dirdata_append`. -/
def Dirent.ofName (name : Bytes) (h : name.length < 65536) : Dirent where
  name := name
  pad := List.replicate (cldAlign8 (name.length + 2)) 0
  name_lt := h
  pad_length := List.length_replicate

theorem exists_dirdata {names : List Bytes} (h : ∀ x ∈ names, x.length < 65536) :
    ∃ ds, dirdataOf names = direntsOf ds ∧ ds.map Dirent.name = names := by
  induction names with
  | nil => exact ⟨[], rfl, rfl⟩
  | cons x xs ih =>
    obtain ⟨ds, hds, hnames⟩ := ih fun y hy => h y (List.mem_cons_of_mem x hy)
    refine ⟨.ofName x (h x List.mem_cons_self) :: ds, ?_, by rw [List.map_cons, hnames]; rfl⟩
    rw [direntsOf_cons, ← hds]
    rfl

theorem dirdataDelete_absent {names : List Bytes} (h : ∀ x ∈ names, x.length < 65536) {name : Bytes}
    (hname : name ∉ names) : dirdataDelete (dirdataOf names) name = none := by
  obtain ⟨ds, hds, hmap⟩ := exists_dirdata h
  have hfind := @direntFindFrom_absent ds [] name (hmap ▸ hname) (.inl rfl) 0
  have heq := direntFind_eq (dirdataOf names) name
  rw [direntFind, hds] at heq
  rw [List.append_nil, if_pos rfl] at hfind
  rw [hfind] at heq
  rw [dirdataDelete, hds]
  cases hres : Cld.direntFind (direntsOf ds) name with
  | found ofs entLen =>
    rw [hres] at heq
    cases heq
  | notfound => rfl
  | corrupt => rfl

/-- The loop of `cmd_ls` from a record on. -/
theorem lsLoop_records {ds : List Dirent} (h : ∀ d ∈ ds, ∀ b ∈ d.name, b ≠ 0) (x : Dirent) :
    lsLoop ds.length false (.before (x :: ds) []) = some (ds.map Dirent.name) := by
  induction ds generalizing x with
  | nil => rfl
  | cons d ds ih =>
    have hname : cstr (d.name ++ [0]) = d.name :=
      cstr_append_zeros (h d List.mem_cons_self) 1
    rw [List.length_cons, lsLoop]
    simp only [Bool.false_eq_true, if_false]
    rw [cldcDirentNext_before _ (.inl rfl), List.tail_cons]
    simp only [reduceCtorEq, if_false]
    rw [if_neg (by omega), cldcDirentName_before]
    simp only [Bool.false_eq_true, if_false]
    rw [ih (fun y hy => h y (List.mem_cons_of_mem d hy)), hname]
    rfl

theorem cmdLs_direntsOf {ds : List Dirent} (hlen : (direntsOf ds).length < 2 ^ 31)
    (h : ∀ d ∈ ds, ∀ b ∈ d.name, b ≠ 0) :
    cmdLs (direntsOf ds) = some (some (ds.map Dirent.name)) := by
  have hcount := @direntCountFrom_records [] ds (.inl rfl) 0
  have hbytes := direntsOf_length ds
  rw [List.append_nil, if_pos rfl, Nat.zero_add, toInt32_of_lt (by omega)] at hcount
  rw [cmdLs, cldcDirentCount, hcount]
  dsimp only
  rw [if_neg (by omega), Int.toNat_natCast]
  cases ds with
  | nil => rfl
  | cons d ds =>
    have hname : cstr (d.name ++ [0]) = d.name :=
      cstr_append_zeros (h d List.mem_cons_self) 1
    have hinit : cldcDirentCurInit (direntsOf (d :: ds)) = .before (d :: ds) [] := by
      rw [DirentCur.before, List.append_nil]
    rw [hinit, List.length_cons, lsLoop]
    simp only [if_true]
    rw [cldcDirentFirst_before _ (.inl rfl)]
    simp only [Option.map_some, reduceCtorEq, if_false]
    rw [if_neg (by omega), cldcDirentName_before]
    simp only [Bool.false_eq_true, if_false]
    rw [lsLoop_records (fun y hy => h y (List.mem_cons_of_mem d hy)), hname]
    rfl

/-- What a run of appends and deletions keeps. -/
theorem dirStep_names {names : List Bytes} (hnames : ∀ x ∈ names, DirName x) {op : DirOp}
    (hop : DirName op.name) (hlen : (dirdataOf names).length < 2 ^ 31) :
    dirStep (dirdataOf names) op = dirdataOf (namesStep names op) ∧
      ∀ x ∈ namesStep names op, DirName x := by
  cases op with
  | append name =>
    refine ⟨dirdataAppend_dirdataOf names name, fun x hx => ?_⟩
    rcases List.mem_append.mp hx with hx | hx
    · exact hnames x hx
    · rw [List.mem_singleton.mp hx]
      exact hop
  | delete name =>
    refine ⟨?_, fun x hx => hnames x (List.mem_of_mem_erase hx)⟩
    by_cases hmem : name ∈ names
    · obtain ⟨pre, post, rfl, hpre⟩ := List.eq_append_cons_of_mem hmem
      have hpos : (dirdataOf pre).length < 2 ^ 31 := by
        rw [dirdataOf, List.flatMap_append, List.length_append] at hlen
        rw [dirdataOf]
        omega
      rw [dirStep, dirdataDelete_dirdataOf (fun x hx => (hnames x hx).lt) hpre hpos, namesStep,
        List.erase_append_right _ hpre, List.erase_cons_head]
      rfl
    · rw [dirStep, dirdataDelete_absent (fun x hx => (hnames x hx).lt) hmem, namesStep,
        List.erase_of_not_mem hmem]
      rfl

/-- The client lists the names that have been appended, in order, without those deleted since, of each
of which the first is taken out. A deletion fails, and changes nothing, if there is no such name. -/
theorem run_dirdata_names (ops : List DirOp) (hops : ∀ op ∈ ops, DirName op.name)
    (hsize : ∀ k, (run dirStep [] (ops.take k)).length < 2 ^ 31) :
    cmdLs (run dirStep [] ops) = some (some (run namesStep [] ops)) ∧
      ∀ name, dirdataDelete (run dirStep [] ops) name = none ↔ name ∉ run namesStep [] ops := by
  have hrun : ∀ k, run dirStep [] (ops.take k) = dirdataOf (run namesStep [] (ops.take k)) ∧
      ∀ x ∈ run namesStep [] (ops.take k), DirName x := by
    intro k
    induction k with
    | zero => exact ⟨rfl, by rintro x ⟨⟩⟩
    | succ k ih =>
      by_cases hk : k < ops.length
      · have hlen := hsize k
        rw [List.take_succ_eq_append_getElem hk, run_append, run_append, ih.1]
        rw [ih.1] at hlen
        exact dirStep_names ih.2 (hops _ (List.getElem_mem hk)) hlen
      · rwa [List.take_of_length_le (by omega : ops.length ≤ k + 1), ← List.take_of_length_le
          (by omega : ops.length ≤ k)]
  have hlen := hsize ops.length
  obtain ⟨hdata, hvalid⟩ := hrun ops.length
  rw [List.take_length] at hlen hdata hvalid
  rw [hdata] at hlen ⊢
  obtain ⟨ds, hds, hmap⟩ := exists_dirdata fun x hx => (hvalid x hx).lt
  constructor
  · rw [hds] at hlen ⊢
    rw [cmdLs_direntsOf hlen, hmap]
    intro d hd
    exact (hvalid d.name (hmap ▸ List.mem_map_of_mem hd)).noNul
  · intro name
    constructor
    · intro hnone hmem
      obtain ⟨pre, post, hsplit, hpre⟩ := List.eq_append_cons_of_mem hmem
      have hpos : (dirdataOf pre).length < 2 ^ 31 := by
        rw [hsplit, dirdataOf, List.flatMap_append, List.length_append] at hlen
        rw [dirdataOf]
        omega
      rw [hsplit] at hvalid hnone
      rw [dirdataDelete_dirdataOf (fun x hx => (hvalid x hx).lt) hpre hpos] at hnone
      cases hnone
    · exact dirdataDelete_absent fun x hx => (hvalid x hx).lt

/-- The second of three names is deleted, and one that there is not. -/
theorem run_dirdata_names_three :
    cmdLs (run dirStep [] [.append [0x61], .append [0x62, 0x63], .append [0x61], .delete [0x62, 0x63],
      .delete [0x64]]) = some (some [[0x61], [0x61]]) := by
  have hvalid : ∀ op ∈ [DirOp.append [0x61], .append [0x62, 0x63], .append [0x61], .delete [0x62, 0x63],
      .delete [0x64]], DirName op.name := by
    intro op hop
    have hdec : 1 ≤ op.name.length ∧ op.name.length < 65536 ∧ ∀ b ∈ op.name, b ≠ 0 := by
      revert op
      decide
    exact ⟨hdec.1, hdec.2.1, hdec.2.2⟩
  refine (run_dirdata_names _ hvalid fun k => ?_).1
  by_cases hk : k < 5
  · interval_cases k <;> decide
  · rw [List.take_of_length_le (Nat.le_of_not_lt hk)]
    decide

end Hail.Cldc
