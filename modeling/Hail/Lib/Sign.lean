import Hail.Cld.Path
import Hail.Library.Table

/-!
# Signatures of requests

What `hreq_sign` of `hutil.c` gives to the HMAC. A string stands without its final NUL. What `qsort` does
with two headers of one key is not defined.
-/
namespace Hail.Lib

open Library Cld

abbrev CString := {s : Bytes // 0 ∉ s}

instance : Inhabited CString := ⟨[], List.not_mem_nil⟩

/-- `tolower`, in the C locale. -/
def tolower (c : UInt8) : UInt8 := if 0x41 ≤ c ∧ c ≤ 0x5a then c + 0x20 else c

def strcmp : Bytes → Bytes → Int
  | [], [] => 0
  | [], b :: _ => -b.toNat
  | a :: _, [] => a.toNat
  | a :: as, b :: bs => if a = b then strcmp as bs else (a.toNat : Int) - b.toNat

def strcasecmp (s t : Bytes) : Int := strcmp (s.map tolower) (t.map tolower)

def strncasecmp (s t : Bytes) (n : Nat) : Int := strcasecmp (s.take n) (t.take n)

theorem strcmp_symm (s t : Bytes) : strcmp s t = -strcmp t s := by
  induction s generalizing t with
  | nil => cases t <;> simp [strcmp]
  | cons a as ih =>
    cases t with
    | nil => simp [strcmp]
    | cons b bs =>
      rw [strcmp, strcmp]
      by_cases h : a = b
      · rw [if_pos h, if_pos h.symm]
        exact ih bs
      · rw [if_neg h, if_neg (Ne.symm h)]
        omega

theorem head_toNat_ne_zero {a : UInt8} {as : Bytes} (h : 0 ∉ a :: as) : a.toNat ≠ 0 := by
  intro h0
  exact h (List.mem_cons.mpr (.inl (UInt8.toNat_inj.mp h0.symm)))

theorem strcmp_eq_zero {s t : Bytes} (hs : 0 ∉ s) (ht : 0 ∉ t) : strcmp s t = 0 ↔ s = t := by
  induction s generalizing t with
  | nil =>
    cases t with
    | nil => simp [strcmp]
    | cons b bs =>
      have hb := head_toNat_ne_zero ht
      simp only [strcmp, reduceCtorEq, iff_false]
      omega
  | cons a as ih =>
    cases t with
    | nil =>
      have ha := head_toNat_ne_zero hs
      simp only [strcmp, reduceCtorEq, iff_false]
      omega
    | cons b bs =>
      rw [strcmp]
      split
      · next h =>
        have hrest := ih (fun h => hs (List.mem_cons_of_mem a h))
          (fun h => ht (List.mem_cons_of_mem b h))
        exact hrest.trans (by rw [h, List.cons_inj_right])
      · next h =>
        have hne : a.toNat ≠ b.toNat := fun hn => h (UInt8.toNat_inj.mp hn)
        simp only [List.cons.injEq, h, false_and, iff_false]
        omega

theorem tolower_ne_zero {c : UInt8} (h : c ≠ 0) : tolower c ≠ 0 := by
  unfold tolower
  split
  · next hc =>
    have hlo := UInt8.le_iff_toNat_le.mp hc.1
    have hhi := UInt8.le_iff_toNat_le.mp hc.2
    intro h0
    have hsum := congrArg UInt8.toNat h0
    rw [UInt8.toNat_add] at hsum
    simp at hlo hhi hsum
    omega
  · exact h

theorem lower_noNul {s : Bytes} (h : 0 ∉ s) : 0 ∉ s.map tolower := by
  intro hm
  obtain ⟨c, hc, h0⟩ := List.mem_map.mp hm
  exact tolower_ne_zero (fun hz => h (hz ▸ hc)) h0

theorem strcasecmp_eq_zero {s t : Bytes} (hs : 0 ∉ s) (ht : 0 ∉ t) :
    strcasecmp s t = 0 ↔ s.map tolower = t.map tolower :=
  strcmp_eq_zero (lower_noNul hs) (lower_noNul ht)

theorem strcmp_trans {s t u : Bytes} (hs : 0 ∉ s) (ht : 0 ∉ t) (hu : 0 ∉ u)
    (hst : strcmp s t ≤ 0) (htu : strcmp t u ≤ 0) : strcmp s u ≤ 0 := by
  induction s generalizing t u with
  | nil => cases u <;> simp [strcmp]
  | cons a as ih =>
    have ha := head_toNat_ne_zero hs
    cases t with
    | nil =>
      simp only [strcmp] at hst
      omega
    | cons b bs =>
      have hb := head_toNat_ne_zero ht
      cases u with
      | nil =>
        simp only [strcmp] at htu
        omega
      | cons c cs =>
        have hrest := ih (fun h => hs (List.mem_cons_of_mem a h)) (fun h => ht (List.mem_cons_of_mem b h))
          (fun h => hu (List.mem_cons_of_mem c h))
        have hne : ∀ {x y : UInt8}, x ≠ y → x.toNat ≠ y.toNat := fun h hn => h (UInt8.toNat_inj.mp hn)
        rw [strcmp] at hst htu ⊢
        by_cases hab : a = b
        · by_cases hbc : b = c
          · rw [if_pos hab] at hst
            rw [if_pos hbc] at htu
            rw [if_pos (hab.trans hbc)]
            exact hrest hst htu
          · rw [if_neg hbc] at htu
            rw [if_neg (hab ▸ hbc), hab]
            exact htu
        · rw [if_neg hab] at hst
          by_cases hbc : b = c
          · rw [if_neg (hbc ▸ hab), ← hbc]
            exact hst
          · rw [if_neg hbc] at htu
            have h1 := hne hab
            have h2 := hne hbc
            rw [if_neg (by rintro rfl; omega)]
            omega

def CString.part (s : CString) (ofs n : Nat) : CString :=
  ⟨(s.1.drop ofs).take n, fun h => s.2 (List.mem_of_mem_drop (List.mem_of_mem_take h))⟩

def CString.lower (s : CString) : CString := ⟨s.1.map tolower, lower_noNul s.2⟩

/-! ## Requests -/

def hreqMaxHdr : Nat := 128

structure HttpHdr where
  key : CString
  val : CString
  deriving DecidableEq

/-- The query of `struct http_uri`: the memory from its first byte on, and how long it is. -/
structure HttpUri where
  query : Bytes
  queryLen : Nat
  queryLen_lt : queryLen < 2 ^ 32

/-- `struct http_req`. -/
structure HttpReq where
  method : CString
  uri : HttpUri
  origPath : CString
  hdr : List HttpHdr
  nHdr_le : hdr.length ≤ hreqMaxHdr

def hreqHdr (req : HttpReq) (key : Bytes) : Option CString :=
  (req.hdr.find? fun h => strcasecmp key h.key.1 = 0).map HttpHdr.val

def hreqQuerySign : List Bytes :=
  [[0x61, 0x63, 0x6c], [0x6c, 0x6f, 0x63, 0x61, 0x74, 0x69, 0x6f, 0x6e],
    [0x6c, 0x6f, 0x67, 0x67, 0x69, 0x6e, 0x67], [0x74, 0x6f, 0x72, 0x72, 0x65, 0x6e, 0x74]]

/-- `hreq_is_query`, which does not look how long the query is. -/
def hreqIsQuery (req : HttpReq) : Int :=
  if req.uri.queryLen = 0 then -1
  else ((hreqQuerySign.findIdx? fun s => strcasecmp (cstr req.uri.query) s = 0).map Int.ofNat).getD (-1)

/-! ## Headers of the service -/

/-- `struct custom_hdr`. -/
structure CustomHdr where
  key : CString
  val : CString
  deriving DecidableEq

def amzpfx : Bytes := [0x78, 0x2d, 0x61, 0x6d, 0x7a, 0x2d]

/-- `cust_cmp`. -/
def custCmp (h₁ h₂ : CustomHdr) : Int := strcmp h₁.key.1 h₂.key.1

/-- The loop of `cust_init`. There is no memory for a string whose length is negative as an `int`. -/
def custCollect (memory : Nat → Bool) : List HttpHdr → Nat → Option (List CustomHdr)
  | [], _ => some []
  | h :: hdrs, cnt =>
    if strncasecmp amzpfx h.key.1 amzpfx.length = 0 then
      let klen := toInt32 (h.key.1.length - amzpfx.length)
      if klen + 1 < 0 ∨ !memory cnt then none
      else (custCollect memory hdrs (cnt + 1)).map
        (⟨(h.key.part amzpfx.length klen.toNat).lower, h.val⟩ :: ·)
    else custCollect memory hdrs cnt

def custInit (qsort : List CustomHdr → List CustomHdr) (memory : Nat → Bool) (req : HttpReq) :
    Option (List CustomHdr) :=
  (custCollect memory req.hdr 0).map qsort

/-! ## What is signed -/

/-- `_HMAC_Update`, after some bytes. A length that is negative as an `int` is a huge one, and the bytes
behind the data are read. -/
def hmacUpdate (data : Bytes) (len : Nat) (ctx : Option Bytes) : Option Bytes :=
  let len := toInt32 len
  if len < 0 ∨ data.length < len then none else ctx.map (· ++ data.take len.toNat)

def hmacString (s : Bytes) : Option Bytes → Option Bytes := hmacUpdate s s.length

def hreqSignHdr (req : HttpReq) (hdr : Bytes) (ctx : Option Bytes) : Option Bytes :=
  let ctx := match hreqHdr req hdr with
    | some hdr => hmacString hdr.1 ctx
    | none => ctx
  hmacString [0x0a] ctx

/-- The loop of `hreq_sign_amz`, with the context and the key of `prev`. -/
def signAmzStep (s : Option Bytes × Option Bytes) (p : CustomHdr) : Option Bytes × Option Bytes :=
  let named (ctx : Option Bytes) := hmacString [0x3a] (hmacString p.key.1 (hmacString amzpfx ctx))
  let s := match s.2 with
    | some prev =>
      if strcmp prev p.key.1 = 0 then (hmacString [0x2c] s.1, some prev)
      else (named (hmacString [0x0a] s.1), some p.key.1)
    | none => (named s.1, some p.key.1)
  (hmacString p.val.1 s.1, s.2)

def signCust (cust : Option (List CustomHdr)) (ctx : Option Bytes) : Option Bytes :=
  match cust with
  | none => ctx
  | some cust =>
    let s := cust.foldl signAmzStep (ctx, none)
    if s.2.isSome then hmacString [0x0a] s.1 else s.1

def hreqSignAmz (qsort : List CustomHdr → List CustomHdr) (memory : Nat → Bool) (req : HttpReq)
    (ctx : Option Bytes) : Option Bytes :=
  signCust (custInit qsort memory req) ctx

def contentMd5 : Bytes := [0x63, 0x6f, 0x6e, 0x74, 0x65, 0x6e, 0x74, 0x2d, 0x6d, 0x64, 0x35]

def contentType : Bytes := [0x63, 0x6f, 0x6e, 0x74, 0x65, 0x6e, 0x74, 0x2d, 0x74, 0x79, 0x70, 0x65]

def date : Bytes := [0x64, 0x61, 0x74, 0x65]

def xAmzDate : Bytes := amzpfx ++ date

/-- The bytes that `hreq_sign` gives to the HMAC. -/
def hreqSign (qsort : List CustomHdr → List CustomHdr) (memory : Nat → Bool) (req : HttpReq)
    (bucket : Option CString) : Option Bytes :=
  let ctx := hmacString [0x0a] (hmacString req.method.1 (some []))
  let ctx := hreqSignHdr req contentType (hreqSignHdr req contentMd5 ctx)
  let ctx := if (hreqHdr req xAmzDate).isSome then hmacString [0x0a] ctx else hreqSignHdr req date ctx
  let ctx := hreqSignAmz qsort memory req ctx
  let ctx := match bucket with
    | some bucket => hmacString bucket.1 (hmacString [0x2f] ctx)
    | none => ctx
  let ctx := hmacString req.origPath.1 ctx
  if hreqIsQuery req ≠ -1 then hmacUpdate req.uri.query req.uri.queryLen (hmacString [0x3f] ctx) else ctx

/-! ## Order and case of the headers -/

/-- A header of the same name but for the case of letters. -/
structure HttpHdr.Same (h h' : HttpHdr) : Prop where
  key : strcasecmp h.key.1 h'.key.1 = 0
  val : h.val = h'.val

/-- The headers in another order and with other letters in upper case. -/
def SameHdrs (hdr hdr' : List HttpHdr) : Prop := ∃ l, l.Perm hdr ∧ List.Forall₂ HttpHdr.Same l hdr'

theorem SameHdrs.length_eq {hdr hdr' : List HttpHdr} (h : SameHdrs hdr hdr') :
    hdr'.length = hdr.length := by
  obtain ⟨l, hperm, hsame⟩ := h
  exact hsame.length_eq.symm.trans hperm.length_eq

/-- The names are distinct also without regard to case. -/
def DistinctNames (hdr : List HttpHdr) : Prop :=
  hdr.Pairwise fun h h' => strcasecmp h.key.1 h'.key.1 ≠ 0

/-- What `qsort` does with `cust_cmp`. -/
structure IsQsort (qsort : List CustomHdr → List CustomHdr) : Prop where
  perm : ∀ cust, (qsort cust).Perm cust
  sorted : ∀ cust, (qsort cust).Pairwise fun h₁ h₂ => custCmp h₁ h₂ ≤ 0

/-- All that the signature sees of a header. -/
def HttpHdr.folded (h : HttpHdr) : CString × CString := (h.key.lower, h.val)

theorem SameHdrs.folded {hdr hdr' : List HttpHdr} (h : SameHdrs hdr hdr') :
    (hdr'.map HttpHdr.folded).Perm (hdr.map HttpHdr.folded) := by
  obtain ⟨l, hperm, hsame⟩ := h
  have hmap : hdr'.map HttpHdr.folded = l.map HttpHdr.folded := by
    induction hsame generalizing hdr with
    | nil => rfl
    | @cons h h' _ _ hs _ ih =>
      have hkey : h.key.lower = h'.key.lower :=
        Subtype.ext ((strcasecmp_eq_zero h.key.2 h'.key.2).mp hs.key)
      rw [List.map_cons, List.map_cons, ih (List.Perm.refl _), HttpHdr.folded, HttpHdr.folded, hs.val, hkey]
  rw [hmap]
  exact hperm.map _

theorem DistinctNames.folded {hdr : List HttpHdr} (h : DistinctNames hdr) :
    ((hdr.map HttpHdr.folded).map Prod.fst).Nodup := by
  rw [List.map_map]
  refine List.pairwise_map.mpr (h.imp ?_)
  intro a b hne heq
  exact hne ((strcasecmp_eq_zero a.key.2 b.key.2).mpr (congrArg Subtype.val heq))

/-- `hreq_hdr` looks a name up among the folded ones. -/
theorem hreqHdr_folded (req : HttpReq) (key : CString) :
    hreqHdr req key.1 =
      ((req.hdr.map HttpHdr.folded).find? fun p => p.1 = key.lower).map Prod.snd := by
  rw [hreqHdr, List.find?_map, Option.map_map]
  have heq : (fun h : HttpHdr => decide (strcasecmp key.1 h.key.1 = 0)) =
      (fun p : CString × CString => decide (p.1 = key.lower)) ∘ HttpHdr.folded := by
    funext h
    simp only [Function.comp_apply, HttpHdr.folded, strcasecmp_eq_zero key.2 h.key.2, CString.lower,
      Subtype.mk.injEq, eq_comm]
  rw [heq]
  rfl

theorem find_perm {l l' : List (CString × CString)} (h : l'.Perm l) (hl : (l.map Prod.fst).Nodup)
    (key : CString) : (l'.find? fun p => p.1 = key) = l.find? fun p => p.1 = key :=
  @Table.get_congr _ _ Prod.fst _ ⟨l', (h.map _).nodup_iff.mpr hl⟩ ⟨l, hl⟩ key fun _ _ => h.mem_iff

/-- What `cust_init` takes over of a folded header. -/
def customOf (p : CString × CString) : Option CustomHdr :=
  if p.1.1.take amzpfx.length = amzpfx then
    some ⟨p.1.part amzpfx.length (p.1.1.length - amzpfx.length), p.2⟩
  else none

theorem customOf_eq {p : CString × CString} {c : CustomHdr} (h : customOf p = some c) :
    p.1.1 = amzpfx ++ c.key.1 := by
  unfold customOf at h
  split at h
  · next hp =>
    obtain rfl := Option.some.inj h
    have hsplit := List.take_append_drop amzpfx.length p.1.1
    have hlen : (p.1.1.drop amzpfx.length).length ≤ p.1.1.length - amzpfx.length :=
      List.length_drop.le
    rw [hp] at hsplit
    change p.1.1 = amzpfx ++ (p.1.1.drop amzpfx.length).take (p.1.1.length - amzpfx.length)
    rw [List.take_of_length_le hlen, hsplit]
  · cases h

theorem custCollect_folded (hdr : List HttpHdr) (hlen : ∀ h ∈ hdr, h.key.1.length < 2 ^ 31) (cnt : Nat) :
    custCollect (fun _ => true) hdr cnt = some ((hdr.map HttpHdr.folded).filterMap customOf) := by
  induction hdr generalizing cnt with
  | nil => rfl
  | cons h hdr ih =>
    have hrest := ih fun x hx => hlen x (List.mem_cons_of_mem h hx)
    have hl := hlen h List.mem_cons_self
    have hpfx : strncasecmp amzpfx h.key.1 amzpfx.length = 0 ↔
        (h.folded.1.1.take amzpfx.length = amzpfx) := by
      have hlow : (amzpfx.take amzpfx.length).map tolower = amzpfx := by decide
      rw [strncasecmp, strcasecmp_eq_zero (by decide) fun hm => h.key.2 (List.mem_of_mem_take hm),
        HttpHdr.folded, CString.lower, hlow, List.map_take, eq_comm]
    rw [custCollect, List.map_cons, List.filterMap_cons, customOf]
    by_cases hp : strncasecmp amzpfx h.key.1 amzpfx.length = 0
    · have hk : toInt32 (h.key.1.length - amzpfx.length) = (h.key.1.length - amzpfx.length : Nat) :=
        toInt32_of_lt (by omega)
      have hkey : (h.key.part amzpfx.length (h.key.1.length - amzpfx.length)).lower =
          h.key.lower.part amzpfx.length (h.key.lower.1.length - amzpfx.length) := by
        apply Subtype.ext
        simp only [CString.lower, CString.part, List.map_take, List.map_drop, List.length_map]
      rw [if_pos hp, if_pos (hpfx.mp hp), hk]
      dsimp only
      rw [if_neg (by simp; omega), hrest, Int.toNat_natCast, hkey]
      rfl
    · rw [if_neg hp, if_neg (fun h => hp (hpfx.mpr h)), hrest]

theorem custCmp_inj {h₁ h₂ : CustomHdr} (h : custCmp h₁ h₂ ≤ 0) (h' : custCmp h₂ h₁ ≤ 0) :
    h₁.key = h₂.key := by
  rw [custCmp, strcmp_symm] at h'
  rw [custCmp] at h
  exact Subtype.ext ((strcmp_eq_zero h₁.key.2 h₂.key.2).mp (by omega))

/-- Headers of distinct names are sorted in one way. -/
theorem qsort_perm {qsort : List CustomHdr → List CustomHdr} (hq : IsQsort qsort)
    {cust cust' : List CustomHdr} (h : cust'.Perm cust) (hkeys : (cust.map CustomHdr.key).Nodup) :
    qsort cust' = qsort cust := by
  have hperm : (qsort cust').Perm (qsort cust) := ((hq.perm _).trans h).trans (hq.perm _).symm
  refine hperm.eq_of_pairwise ?_ (hq.sorted _) (hq.sorted _)
  intro a b ha hb hab hba
  have hma := h.mem_iff.mp ((hq.perm _).mem_iff.mp ha)
  have hmb := (hq.perm _).mem_iff.mp hb
  exact List.inj_on_of_nodup_map hkeys hma hmb (custCmp_inj hab hba)

/-- The names of the headers that `cust_init` takes over are distinct if those of the request are. -/
theorem filterMap_customOf_nodup {l : List (CString × CString)} (h : (l.map Prod.fst).Nodup) :
    ((l.filterMap customOf).map CustomHdr.key).Nodup := by
  induction l with
  | nil => exact List.nodup_nil
  | cons p l ih =>
    rw [List.map_cons, List.nodup_cons] at h
    have hrest := ih h.2
    rw [List.filterMap_cons]
    cases hp : customOf p with
    | none => exact hrest
    | some c =>
      refine List.nodup_cons.mpr ⟨fun hm => h.1 ?_, hrest⟩
      obtain ⟨c', hc', hkey⟩ := List.mem_map.mp hm
      obtain ⟨p', hp', hcp⟩ := List.mem_filterMap.mp hc'
      refine List.mem_map.mpr ⟨p', hp', Subtype.ext ?_⟩
      rw [customOf_eq hp, customOf_eq hcp, hkey]

section

variable {qsort : List CustomHdr → List CustomHdr} {req : HttpReq} {hdr' : List HttpHdr}

theorem hreqHdr_same (h' : hdr'.length ≤ hreqMaxHdr) (hsame : SameHdrs req.hdr hdr')
    (hnames : DistinctNames req.hdr) (key : CString) :
    hreqHdr { req with hdr := hdr', nHdr_le := h' } key.1 = hreqHdr req key.1 := by
  rw [hreqHdr_folded _ key, hreqHdr_folded _ key, find_perm hsame.folded hnames.folded]

theorem custInit_same (hq : IsQsort qsort) (h' : hdr'.length ≤ hreqMaxHdr)
    (hsame : SameHdrs req.hdr hdr') (hnames : DistinctNames req.hdr)
    (hlen : ∀ h ∈ req.hdr, h.key.1.length < 2 ^ 31) :
    custInit qsort (fun _ => true) { req with hdr := hdr', nHdr_le := h' } =
      custInit qsort (fun _ => true) req := by
  have hlen' : ∀ h ∈ hdr', h.key.1.length < 2 ^ 31 := by
    intro h hh
    obtain ⟨g, hg, heq⟩ := List.mem_map.mp (hsame.folded.subset (List.mem_map_of_mem hh))
    have hlow : (g.key.1.map tolower).length = (h.key.1.map tolower).length :=
      congrArg (fun p : CString × CString => p.1.1.length) heq
    rw [List.length_map, List.length_map] at hlow
    exact hlow ▸ hlen g hg
  rw [custInit, custInit, custCollect_folded _ hlen', custCollect_folded _ hlen, Option.map_some,
    Option.map_some, qsort_perm hq (hsame.folded.filterMap _) (filterMap_customOf_nodup hnames.folded)]

/-- The signature of a request whose names are distinct and have less than `2 ^ 31` bytes depends neither
on the order of the headers nor on the case of their names. -/
theorem hreqSign_same (hq : IsQsort qsort) (h' : hdr'.length ≤ hreqMaxHdr)
    (hsame : SameHdrs req.hdr hdr') (hnames : DistinctNames req.hdr)
    (hlen : ∀ h ∈ req.hdr, h.key.1.length < 2 ^ 31) (bucket : Option CString) :
    hreqSign qsort (fun _ => true) { req with hdr := hdr', nHdr_le := h' } bucket =
      hreqSign qsort (fun _ => true) req bucket := by
  have hhdr : ∀ key, 0 ∉ key →
      hreqHdr { req with hdr := hdr', nHdr_le := h' } key = hreqHdr req key :=
    fun key hkey => hreqHdr_same h' hsame hnames ⟨key, hkey⟩
  have hline : ∀ key ctx, 0 ∉ key →
      hreqSignHdr { req with hdr := hdr', nHdr_le := h' } key ctx = hreqSignHdr req key ctx := by
    intro key ctx hkey
    rw [hreqSignHdr, hhdr key hkey]
    rfl
  have hcust := custInit_same hq h' hsame hnames hlen
  have hquery : hreqIsQuery { req with hdr := hdr', nHdr_le := h' } = hreqIsQuery req := rfl
  unfold hreqSign hreqSignAmz
  rw [hhdr xAmzDate (by decide), hcust, hquery]
  simp only [fun ctx => hline contentMd5 ctx (by decide), fun ctx => hline contentType ctx (by decide),
    fun ctx => hline date ctx (by decide)]

end

/-! ## Some requests -/

def custSort (cust : List CustomHdr) : List CustomHdr :=
  cust.insertionSort fun h₁ h₂ => custCmp h₁ h₂ ≤ 0

theorem custSort_isQsort : IsQsort custSort := by
  have htotal : Std.Total fun h₁ h₂ : CustomHdr => custCmp h₁ h₂ ≤ 0 := by
    refine ⟨fun h₁ h₂ => ?_⟩
    rw [custCmp, custCmp, strcmp_symm]
    omega
  have htrans : IsTrans CustomHdr fun h₁ h₂ => custCmp h₁ h₂ ≤ 0 :=
    ⟨fun h₁ h₂ h₃ => strcmp_trans h₁.key.2 h₂.key.2 h₃.key.2⟩
  exact ⟨fun cust => List.perm_insertionSort _ cust, fun cust => List.pairwise_insertionSort _ cust⟩

/-- A `GET` of the root. -/
def rootReq (hdr : List HttpHdr) (h : hdr.length ≤ hreqMaxHdr) : HttpReq where
  method := ⟨[0x47, 0x45, 0x54], by decide⟩
  uri := ⟨[], 0, by decide⟩
  origPath := ⟨[0x2f], by decide⟩
  hdr := hdr
  nHdr_le := h

/-- `Date: 1`, `x-amz-b: 2` and `X-AMZ-A: 3`. -/
theorem hreqSign_same_three :
    hreqSign custSort (fun _ => true) (rootReq [⟨⟨[0x58, 0x2d, 0x41, 0x4d, 0x5a, 0x2d, 0x41], by decide⟩,
        ⟨[0x33], by decide⟩⟩, ⟨⟨[0x64, 0x61, 0x74, 0x65], by decide⟩, ⟨[0x31], by decide⟩⟩,
        ⟨⟨[0x78, 0x2d, 0x61, 0x6d, 0x7a, 0x2d, 0x42], by decide⟩, ⟨[0x32], by decide⟩⟩] (by decide)) none =
      hreqSign custSort (fun _ => true) (rootReq [⟨⟨[0x44, 0x61, 0x74, 0x65], by decide⟩,
        ⟨[0x31], by decide⟩⟩, ⟨⟨[0x78, 0x2d, 0x61, 0x6d, 0x7a, 0x2d, 0x62], by decide⟩,
        ⟨[0x32], by decide⟩⟩, ⟨⟨[0x58, 0x2d, 0x41, 0x4d, 0x5a, 0x2d, 0x41], by decide⟩,
        ⟨[0x33], by decide⟩⟩] (by decide)) none := by
  have hsame : ∀ h h' : HttpHdr, strcasecmp h.key.1 h'.key.1 = 0 ∧ h.val = h'.val → h.Same h' :=
    fun _ _ h => ⟨h.1, h.2⟩
  refine @hreqSign_same custSort (rootReq _ _) _ custSort_isQsort (by decide)
    ⟨_, @List.perm_append_comm _ [_] [_, _], ?_⟩ ?_ (by decide) none
  · exact .cons (hsame _ _ (by decide)) (.cons (hsame _ _ (by decide))
      (.cons (hsame _ _ (by decide)) .nil))
  · unfold DistinctNames
    decide

/-- A header whose name is `x-amz-a` and a letter `n` times. -/
def longHdr (n : Nat) (c : UInt8) (hc : c ≠ 0) (val : CString) : HttpHdr where
  key := ⟨amzpfx ++ 0x61 :: List.replicate n c, by
    simp only [List.mem_append, List.mem_cons, List.mem_replicate]
    rintro (h | h | ⟨-, h⟩)
    · exact absurd h (by decide)
    · exact absurd h (by decide)
    · exact hc h.symm⟩
  val := val

/-- Of a name with `2 ^ 32` more bytes only the first is taken over. -/
theorem custCollect_long {n : Nat} (hn : n = 2 ^ 32) (c : UInt8) (hc : c ≠ 0) (val : CString)
    (hdrs : List HttpHdr) (cnt : Nat) :
    custCollect (fun _ => true) (longHdr n c hc val :: hdrs) cnt =
      (custCollect (fun _ => true) hdrs (cnt + 1)).map (⟨⟨[0x61], by decide⟩, val⟩ :: ·) := by
  have htake : (longHdr n c hc val).key.1.take amzpfx.length = amzpfx := List.take_left' rfl
  have hdrop : (longHdr n c hc val).key.1.drop amzpfx.length = 0x61 :: List.replicate n c :=
    List.drop_left' rfl
  have hklen : toInt32 ((longHdr n c hc val).key.1.length - amzpfx.length) = 1 := by
    have hlen : (longHdr n c hc val).key.1.length - amzpfx.length = 2 ^ 32 + 1 := by
      rw [← List.length_drop, hdrop, List.length_cons, List.length_replicate, hn]
    rw [hlen]
    decide
  have hpfx : strncasecmp amzpfx (longHdr n c hc val).key.1 amzpfx.length = 0 := by
    rw [strncasecmp, htake]
    decide
  have hkey : ((longHdr n c hc val).key.part amzpfx.length 1).lower = ⟨[0x61], by decide⟩ := by
    apply Subtype.ext
    change (((longHdr n c hc val).key.1.drop amzpfx.length).take 1).map tolower = _
    rw [hdrop]
    rfl
  rw [custCollect, if_pos hpfx, hklen]
  dsimp only
  rw [if_neg (by decide), Int.toNat_one, hkey]
  rfl

/-- No name that is signed for itself is that of a long header. -/
theorem strcasecmp_long {key : Bytes} (hkey : key ∈ [contentMd5, contentType, xAmzDate, date]) (n : Nat)
    (c : UInt8) (hc : c ≠ 0) (val : CString) : strcasecmp key (longHdr n c hc val).key.1 ≠ 0 := by
  simp only [List.mem_cons, List.not_mem_nil, or_false] at hkey
  rcases hkey with rfl | rfl | rfl | rfl
  all_goals
    simp [strcasecmp, strcmp, longHdr, contentMd5, contentType, xAmzDate, date, amzpfx, tolower]

/-- What is signed of two long headers. -/
theorem hreqSign_long {n : Nat} (hn : n = 2 ^ 32) (b c : UInt8) (hb : b ≠ 0) (hc : c ≠ 0) (v w : CString)
    (h : [longHdr n b hb v, longHdr n c hc w].length ≤ hreqMaxHdr) :
    hreqSign custSort (fun _ => true) (rootReq [longHdr n b hb v, longHdr n c hc w] h) none =
      hmacString [0x2f] (signCust (some (custSort [⟨⟨[0x61], by decide⟩, v⟩, ⟨⟨[0x61], by decide⟩, w⟩]))
        (some [0x47, 0x45, 0x54, 0x0a, 0x0a, 0x0a, 0x0a])) := by
  have hhdr : ∀ key ∈ [contentMd5, contentType, xAmzDate, date],
      hreqHdr (rootReq [longHdr n b hb v, longHdr n c hc w] h) key = none := by
    intro key hkey
    rw [hreqHdr, Option.map_eq_none_iff, List.find?_eq_none]
    intro x hx
    rcases List.mem_pair.mp hx with rfl | rfl
    · simpa using strcasecmp_long hkey n b hb v
    · simpa using strcasecmp_long hkey n c hc w
  have hcust : custInit custSort (fun _ => true) (rootReq [longHdr n b hb v, longHdr n c hc w] h) =
      some (custSort [⟨⟨[0x61], by decide⟩, v⟩, ⟨⟨[0x61], by decide⟩, w⟩]) := by
    rw [custInit, rootReq, custCollect_long hn, custCollect_long hn]
    rfl
  have hctx : hmacString [0x0a] (hmacString [0x0a] (hmacString [0x0a] (hmacString [0x0a]
      (hmacString [0x47, 0x45, 0x54] (some []))))) = some [0x47, 0x45, 0x54, 0x0a, 0x0a, 0x0a, 0x0a] := by
    decide
  have hquery : ¬ hreqIsQuery (rootReq [longHdr n b hb v, longHdr n c hc w] h) ≠ -1 := by
    rw [hreqIsQuery, rootReq, if_pos rfl]
    simp
  unfold hreqSign hreqSignAmz hreqSignHdr
  rw [hcust, hhdr contentMd5 (by simp), hhdr contentType (by simp), hhdr xAmzDate (by simp),
    hhdr date (by simp), if_neg hquery]
  simp only [Option.isSome_none, Bool.false_eq_true, if_false]
  rw [rootReq, hctx]

/-- Two names that differ behind `2 ^ 32` bytes are signed as one, with the values in the order of the
headers. -/
theorem longNames_ordered :
    ∃ req : HttpReq, ∃ hdr', ∃ h' : hdr'.length ≤ hreqMaxHdr, DistinctNames req.hdr ∧
      SameHdrs req.hdr hdr' ∧
      hreqSign custSort (fun _ => true) { req with hdr := hdr', nHdr_le := h' } none ≠
        hreqSign custSort (fun _ => true) req none := by
  obtain ⟨n, hn⟩ : ∃ n, n = 2 ^ 32 := ⟨2 ^ 32, rfl⟩
  have hb : (0x62 : UInt8) ≠ 0 := by decide
  have hc : (0x63 : UInt8) ≠ 0 := by decide
  have hself : ∀ h : HttpHdr, h.Same h := fun h => ⟨(strcasecmp_eq_zero h.key.2 h.key.2).mpr rfl, rfl⟩
  have hfits : ∀ h h' : HttpHdr, [h, h'].length ≤ hreqMaxHdr := fun _ _ => by simp [hreqMaxHdr]
  refine ⟨rootReq [longHdr n 0x62 hb ⟨[0x31], by decide⟩, longHdr n 0x63 hc ⟨[0x32], by decide⟩]
    (hfits _ _), [longHdr n 0x63 hc ⟨[0x32], by decide⟩, longHdr n 0x62 hb ⟨[0x31], by decide⟩],
    hfits _ _, ?_, ⟨_, List.Perm.swap .., .cons (hself _) (.cons (hself _) .nil)⟩, ?_⟩
  · refine List.pairwise_pair.mpr fun h => ?_
    have hmap := (strcasecmp_eq_zero (longHdr n 0x62 hb _).key.2 (longHdr n 0x63 hc _).key.2).mp h
    have hlast := congrArg List.getLast? hmap
    rw [longHdr, longHdr, hn] at hlast
    simp only [List.map_append, List.map_cons, List.map_replicate, List.getLast?_append,
      List.getLast?_cons, List.getLast?_replicate] at hlast
    revert hlast
    decide
  · intro h
    have hl := hreqSign_long hn 0x62 0x63 hb hc ⟨[0x31], by decide⟩ ⟨[0x32], by decide⟩ (hfits _ _)
    have hr := hreqSign_long hn 0x63 0x62 hc hb ⟨[0x32], by decide⟩ ⟨[0x31], by decide⟩ (hfits _ _)
    have heq := hr.symm.trans (h.trans hl)
    revert heq
    decide

end Hail.Lib
