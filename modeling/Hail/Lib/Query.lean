import Hail.Lib.Sign
import Mathlib.Data.Nat.Digits.Lemmas

/-!
# Query parameters

The query that `hstor_keys` adds to a URL, and the table that `hreq_query` makes of one. The table of
`huri.c` does not ask for `&` to be escaped.
-/
namespace Hail.Lib

open Library Cld

def percent : UInt8 := 0x25

def ampersand : UInt8 := 0x26

def equalsSign : UInt8 := 0x3d

def questionMark : UInt8 := 0x3f

def numberSign : UInt8 := 0x23

/-! ## Escapes -/

def hexValue (c : UInt8) : Option UInt8 :=
  if 0x61 ≤ c ∧ c ≤ 0x66 then some (c - 0x61 + 10)
  else if 0x41 ≤ c ∧ c ≤ 0x46 then some (c - 0x41 + 10)
  else if 0x30 ≤ c ∧ c ≤ 0x39 then some (c - 0x30)
  else none

/-- The byte that two digits stand for. -/
def hexPair : Bytes → Option UInt8
  | a :: b :: _ =>
    match hexValue a, hexValue b with
    | some high, some low => some (high <<< 4 + low)
    | _, _ => none
  | _ => none

def huriFieldUnescape : Bytes → Bytes
  | [] => []
  | c :: s =>
    match if c = percent then hexPair s else none with
    | some b => b :: huriFieldUnescape (s.drop 2)
    | none => c :: huriFieldUnescape s
termination_by s => s.length
decreasing_by all_goals simp; try omega

def needntEscapeTable : List UInt8 :=
  [0x00, 0x00, 0x00, 0x00, 0x00, 0x00, 0x00, 0x00,
    0x00, 0x00, 0x00, 0x00, 0x00, 0x00, 0x00, 0x00,
    0x00, 0x00, 0x00, 0x00, 0x00, 0x00, 0x00, 0x00,
    0x00, 0x00, 0x00, 0x00, 0x00, 0x00, 0x00, 0x00,
    0x00, 0x0f, 0x00, 0x00, 0x0f, 0x00, 0x0f, 0x0f,
    0x0f, 0x0f, 0x0f, 0x0f, 0x0f, 0x0f, 0x0f, 0x0e,
    0x0f, 0x0f, 0x0f, 0x0f, 0x0f, 0x0f, 0x0f, 0x0f,
    0x0f, 0x0f, 0x0f, 0x0f, 0x00, 0x0f, 0x00, 0x0c,
    0x0e, 0x0f, 0x0f, 0x0f, 0x0f, 0x0f, 0x0f, 0x0f,
    0x0f, 0x0f, 0x0f, 0x0f, 0x0f, 0x0f, 0x0f, 0x0f,
    0x0f, 0x0f, 0x0f, 0x0f, 0x0f, 0x0f, 0x0f, 0x0f,
    0x0f, 0x0f, 0x0f, 0x00, 0x0f, 0x00, 0x00, 0x0f,
    0x00, 0x0f, 0x0f, 0x0f, 0x0f, 0x0f, 0x0f, 0x0f,
    0x0f, 0x0f, 0x0f, 0x0f, 0x0f, 0x0f, 0x0f, 0x0f,
    0x0f, 0x0f, 0x0f, 0x0f, 0x0f, 0x0f, 0x0f, 0x0f,
    0x0f, 0x0f, 0x0f, 0x00, 0x00, 0x00, 0x0f, 0x00] ++ List.replicate 128 0x00

def queryEscapeMask : UInt8 := 0x04

def needntEscape (mask c : UInt8) : Bool := needntEscapeTable.getD c.toNat 0 &&& mask ≠ 0

def hexDigit (n : UInt8) : UInt8 := if n < 10 then n + 0x30 else n + 0x61 - 10

def escapeByte (mask c : UInt8) : Bytes :=
  if needntEscape mask c then [c] else [percent, hexDigit ((c &&& 0xf0) >>> 4), hexDigit (c &&& 0x0f)]

/-- The escaped string. -/
def escaped (mask : UInt8) (s : Bytes) : Bytes := s.flatMap (escapeByte mask)

/-- `huri_field_escape`: no result if its `int`s overflow, and null if there is no memory. -/
def huriFieldEscape (memory : Bool) (s : CString) (mask : UInt8) : Option (Option Bytes) :=
  let len := (s.1.map fun c => if needntEscape mask c then 1 else 3).sum
  let mustEscape := s.1.any fun c => !needntEscape mask c
  if 2 ^ 31 ≤ len then none
  else if !mustEscape then some (if memory then some s.1 else none)
  else if 2 ^ 31 ≤ len + 1 then none
  else some (if memory then some (escaped mask s.1) else none)

/-! ## The query of a URL -/

def prefixKey : Bytes := [0x70, 0x72, 0x65, 0x66, 0x69, 0x78]

def markerKey : Bytes := [0x6d, 0x61, 0x72, 0x6b, 0x65, 0x72]

def delimiterKey : Bytes := [0x64, 0x65, 0x6c, 0x69, 0x6d, 0x69, 0x74, 0x65, 0x72]

def maxKeysKey : Bytes := [0x6d, 0x61, 0x78, 0x2d, 0x6b, 0x65, 0x79, 0x73]

/-- A number as `%u` prints it. -/
def decimal (n : Nat) : Bytes := (Nat.digits 10 n).reverse.map fun d => UInt8.ofNat (0x30 + d)

/-- `append_qparam`, with `arg_char` and what it becomes. -/
def appendQparam (memory : Bool) (key : Bytes) (val : CString) (str : Bytes × UInt8) :
    Option (Bytes × UInt8) :=
  (huriFieldEscape memory val queryEscapeMask).map fun stmp =>
    (str.1 ++ [str.2] ++ key ++ [equalsSign] ++ stmp.getD [], ampersand)

def appendOpt (memory : Bool) (key : Bytes) (val : Option CString) (str : Bytes × UInt8) :
    Option (Bytes × UInt8) :=
  match val with
  | some val => appendQparam memory key val str
  | none => some str

/-- What `hstor_keys` adds to the path. -/
def hstorKeysArgs (memory : Nat → Bool) (pfx marker delim : Option CString) (maxKeys : UInt32) :
    Option Bytes :=
  (appendOpt (memory 0) prefixKey pfx ([], questionMark)).bind fun url =>
    (appendOpt (memory 1) markerKey marker url).bind fun url =>
      (appendOpt (memory 2) delimiterKey delim url).map fun url =>
        if maxKeys = 0 then url.1 else url.1 ++ [url.2] ++ maxKeysKey ++ [equalsSign] ++
          decimal maxKeys.toNat

/-- The query that `huri_parse` finds behind a path. -/
def huriQuery (args : Bytes) : HttpUri where
  query := if args.head? = some questionMark then args.drop 1 else []
  queryLen := (if args.head? = some questionMark then
    ((args.drop 1).takeWhile (· ≠ numberSign)).length else 0) % 2 ^ 32
  queryLen_lt := Nat.mod_lt _ (by decide)

/-! ## The table of a query -/

def queryKey (key : Bytes) : Bytes := cstr ((huriFieldUnescape (cstr key)).map tolower)

def queryVal (val : Bytes) : Bytes := cstr (huriFieldUnescape val)

/-- The loop of `hreq_query`: the pairs put into the table. -/
def hreqQueryFrom (q : Bytes) : List (Bytes × Bytes) :=
  match h : q.idxOf? equalsSign with
  | none => []
  | some keylen =>
    if keylen = 0 then []
    else
      let valEnd := (q.drop keylen).idxOf? ampersand
      let tmp := q.drop (keylen + 1)
      let vallen := match valEnd with
        | some n => n - 1
        | none => tmp.length
      let valskip := vallen + if valEnd.isSome then 1 else 0
      (queryKey (q.take keylen), queryVal (tmp.take vallen)) :: hreqQueryFrom (tmp.drop valskip)
termination_by q.length
decreasing_by
  have hlt : keylen < q.length := (List.idxOf?_eq_some_iff.mp h).1
  simp only [List.length_drop]
  omega

def hreqQuery (uri : HttpUri) : List (Bytes × Bytes) :=
  hreqQueryFrom (uri.query.take (toInt32 uri.queryLen).toNat)

/-- A table of strings as a map: what has been put last counts. -/
def htabLookup (puts : List (Bytes × Bytes)) (key : Bytes) : Option Bytes :=
  (puts.reverse.find? fun p => p.1 = key).map Prod.snd

/-! ## Escaped strings -/

theorem forall_byte {p : UInt8 → Prop} (h : ∀ n < 256, p (UInt8.ofNat n)) (c : UInt8) : p c := by
  have hc := h c.toNat c.toNat_lt
  rwa [UInt8.ofNat_toNat] at hc

theorem needntEscape_ne (c : UInt8) :
    needntEscape queryEscapeMask c = true → c ≠ percent ∧ c ≠ numberSign :=
  @forall_byte (fun c => needntEscape queryEscapeMask c = true → c ≠ percent ∧ c ≠ numberSign)
    (by decide +kernel) c

theorem hexPair_hexDigit (c : UInt8) (s : Bytes) :
    hexPair (hexDigit ((c &&& 0xf0) >>> 4) :: hexDigit (c &&& 0x0f) :: s) = some c :=
  @forall_byte (fun c => hexPair [hexDigit ((c &&& 0xf0) >>> 4), hexDigit (c &&& 0x0f)] = some c)
    (by decide +kernel) c

/-- The bytes that mean something in a query. -/
def IsMark (c : UInt8) : Prop := c = ampersand ∨ c = equalsSign ∨ c = numberSign

instance (c : UInt8) : Decidable (IsMark c) := inferInstanceAs (Decidable (_ ∨ _ ∨ _))

theorem hexDigit_not_mark (c : UInt8) :
    ∀ x ∈ [percent, hexDigit ((c &&& 0xf0) >>> 4), hexDigit (c &&& 0x0f)], ¬ IsMark x :=
  @forall_byte (fun c => ∀ x ∈ [percent, hexDigit ((c &&& 0xf0) >>> 4), hexDigit (c &&& 0x0f)],
    ¬ IsMark x) (by decide +kernel) c

theorem huriFieldUnescape_escapeByte (c : UInt8) (s : Bytes) :
    huriFieldUnescape (escapeByte queryEscapeMask c ++ s) = c :: huriFieldUnescape s := by
  unfold escapeByte
  split
  · next h =>
    rw [List.singleton_append, huriFieldUnescape, if_neg (needntEscape_ne c h).1]
  · rw [List.cons_append, huriFieldUnescape, if_pos rfl]
    simp only [List.cons_append, List.nil_append, hexPair_hexDigit, List.drop_succ_cons, List.drop_zero]

theorem huriFieldUnescape_escaped (s t : Bytes) :
    huriFieldUnescape (escaped queryEscapeMask s ++ t) = s ++ huriFieldUnescape t := by
  induction s with
  | nil => rfl
  | cons c s ih =>
    rw [escaped, List.flatMap_cons, List.append_assoc, huriFieldUnescape_escapeByte, ← escaped, ih,
      List.cons_append]

theorem huriFieldUnescape_short {p : Bytes} (h : p.length ≤ 2) : huriFieldUnescape p = p := by
  match p, h with
  | [], _ => simp [huriFieldUnescape]
  | [_], _ => simp [huriFieldUnescape, hexPair]
  | [_, _], _ => simp [huriFieldUnescape, hexPair]

theorem mem_escapeByte {c x : UInt8} (hx : IsMark x) (h : x ∈ escapeByte queryEscapeMask c) :
    x = c ∧ x ≠ numberSign := by
  unfold escapeByte at h
  split at h
  · next hc =>
    obtain rfl := List.mem_singleton.mp h
    exact ⟨rfl, (needntEscape_ne x hc).2⟩
  · exact absurd hx (hexDigit_not_mark c x h)

theorem escapeByte_separator {c : UInt8} (h : c = ampersand ∨ c = equalsSign) :
    escapeByte queryEscapeMask c = [c] := by
  rcases h with rfl | rfl <;> decide +kernel

theorem escapeByte_length (c : UInt8) :
    (escapeByte queryEscapeMask c).length = if needntEscape queryEscapeMask c then 1 else 3 := by
  unfold escapeByte
  split <;> rfl

theorem mem_escaped {s : Bytes} {x : UInt8} (hx : x = ampersand ∨ x = equalsSign) :
    x ∈ escaped queryEscapeMask s ↔ x ∈ s := by
  have hmark : IsMark x := hx.imp_right .inl
  constructor
  · intro h
    obtain ⟨c, hc, hxc⟩ := List.mem_flatMap.mp h
    rwa [(mem_escapeByte hmark hxc).1]
  · intro h
    refine List.mem_flatMap.mpr ⟨x, h, ?_⟩
    rw [escapeByte_separator hx]
    exact List.mem_singleton_self x

theorem numberSign_not_mem_escaped (s : Bytes) : numberSign ∉ escaped queryEscapeMask s := by
  intro h
  obtain ⟨c, -, hc⟩ := List.mem_flatMap.mp h
  exact (mem_escapeByte (.inr (.inr rfl)) hc).2 rfl

theorem escaped_append (s t : Bytes) :
    escaped queryEscapeMask (s ++ t) = escaped queryEscapeMask s ++ escaped queryEscapeMask t :=
  List.flatMap_append

theorem escaped_separator {c : UInt8} (h : c = ampersand ∨ c = equalsSign) (s : Bytes) :
    escaped queryEscapeMask (c :: s) = c :: escaped queryEscapeMask s := by
  rw [escaped, List.flatMap_cons, escapeByte_separator h]
  rfl

theorem length_le_escaped (s : Bytes) : s.length ≤ (escaped queryEscapeMask s).length := by
  induction s with
  | nil => exact Nat.zero_le _
  | cons c s ih =>
    have hc := escapeByte_length c
    rw [escaped, List.flatMap_cons, List.length_append, List.length_cons, ← escaped]
    split at hc <;> omega

/-- What is left of an escape that has been cut. -/
structure Remnant (p : Bytes) : Prop where
  length_le : p.length ≤ 2
  noMark : ∀ x ∈ p, ¬ IsMark x

theorem Remnant.nil : Remnant [] := ⟨Nat.zero_le _, fun _ hx => absurd hx List.not_mem_nil⟩

theorem exists_escaped_take (s : Bytes) (m : Nat) :
    ∃ t p, (escaped queryEscapeMask s).take m = escaped queryEscapeMask t ++ p ∧ Remnant p := by
  induction s generalizing m with
  | nil => exact ⟨[], [], by rw [escaped, List.flatMap_nil, List.take_nil]; rfl, Remnant.nil⟩
  | cons c s ih =>
    have hlen := escapeByte_length c
    rw [escaped, List.flatMap_cons, List.take_append, ← escaped]
    by_cases hm : (escapeByte queryEscapeMask c).length ≤ m
    · obtain ⟨t, p, htake, hp⟩ := ih (m - (escapeByte queryEscapeMask c).length)
      refine ⟨c :: t, p, ?_, hp⟩
      rw [List.take_of_length_le hm, htake, escaped, escaped, List.flatMap_cons, List.append_assoc]
    · refine ⟨[], (escapeByte queryEscapeMask c).take m, ?_, ?_, ?_⟩
      · rw [Nat.sub_eq_zero_of_le (by omega), List.take_zero, List.append_nil]
        rfl
      · rw [List.length_take]
        split at hlen <;> omega
      · intro x hx hmark
        have hmem := List.mem_of_mem_take hx
        unfold escapeByte at hmem hm
        split at hmem
        · next h =>
          rw [if_pos h, List.length_singleton] at hm
          rw [show m = 0 by omega, List.take_zero] at hx
          cases hx
        · exact hexDigit_not_mark c x hmem hmark

/-! ## Queries made of pairs -/

theorem idxOf?_append {k : Bytes} {c : UInt8} (h : c ∉ k) (t : Bytes) :
    (k ++ c :: t).idxOf? c = some k.length := by
  induction k with
  | nil => simp [List.idxOf?_cons]
  | cons x k ih =>
    rw [List.mem_cons, not_or] at h
    rw [List.cons_append, List.idxOf?_cons, if_neg (by simpa using Ne.symm h.1), ih h.2]
    rfl

theorem hreqQueryFrom_nil {q : Bytes} (h : equalsSign ∉ q) : hreqQueryFrom q = [] := by
  have hnone : q.idxOf? equalsSign = none := List.idxOf?_eq_none_iff.mpr h
  rw [hreqQueryFrom]
  split
  · rfl
  · next hsome =>
    rw [hnone] at hsome
    cases hsome

theorem hreqQueryFrom_equals (q : Bytes) : hreqQueryFrom (equalsSign :: q) = [] := by
  rw [hreqQueryFrom]
  split
  · rfl
  · next hsome =>
    rw [List.idxOf?_cons, if_pos (by rfl)] at hsome
    rw [if_pos (Option.some.inj hsome).symm]

/-- The first pair of a query, behind which there is an ampersand or nothing. -/
theorem hreqQueryFrom_pair {k v t : Bytes} (hk : k ≠ []) (hkeq : equalsSign ∉ k) (hv : ampersand ∉ v)
    (ht : t = [] ∨ t.head? = some ampersand) :
    hreqQueryFrom (k ++ equalsSign :: (v ++ t)) = (queryKey k, queryVal v) :: hreqQueryFrom (t.drop 1) := by
  have hidx := idxOf?_append hkeq (v ++ t)
  have hdrop : (k ++ equalsSign :: (v ++ t)).drop (k.length + 1) = v ++ t := by
    rw [← List.drop_drop, List.drop_left]
    rfl
  rw [hreqQueryFrom]
  split
  · next hnone =>
    rw [hidx] at hnone
    cases hnone
  · next keylen hsome =>
    rw [hidx] at hsome
    obtain rfl := Option.some.inj hsome
    rw [if_neg (fun h0 => hk (List.length_eq_zero_iff.mp h0)), List.take_left, List.drop_left, hdrop,
      List.idxOf?_cons, if_neg (by decide)]
    rcases ht with rfl | ht
    · have hend : (v ++ []).idxOf? ampersand = none := by
        rw [List.append_nil]
        exact List.idxOf?_eq_none_iff.mpr hv
      rw [hend]
      simp
    · obtain ⟨t, rfl⟩ : ∃ t', t = ampersand :: t' := by
        cases t with
        | nil => cases ht
        | cons c t => exact ⟨t, by rw [Option.some.inj ht]⟩
      rw [idxOf?_append hv]
      simp [← List.drop_drop]

theorem cstr_noNul {s : Bytes} (h : 0 ∉ s) : cstr s = s :=
  cstr_eq_self fun _ hb h0 => h (h0 ▸ hb)

theorem queryVal_escaped (s : Bytes) {p : Bytes} (hp : Remnant p) :
    queryVal (escaped queryEscapeMask s ++ p) = cstr (s ++ p) := by
  rw [queryVal, huriFieldUnescape_escaped, huriFieldUnescape_short hp.length_le]

/-- No value that comes of an escaped text, or of the beginning of one, has an ampersand. -/
theorem hreqQueryFrom_val (s : Bytes) {p : Bytes} (hp : Remnant p) :
    ∀ kv ∈ hreqQueryFrom (escaped queryEscapeMask s ++ p), ampersand ∉ kv.2 := by
  have hpamp : ampersand ∉ p := fun h => hp.noMark _ h (.inl rfl)
  have hpeq : equalsSign ∉ p := fun h => hp.noMark _ h (.inr (.inl rfl))
  induction hlen : s.length using Nat.strong_induction_on generalizing s with
  | _ n ih =>
    by_cases heq : equalsSign ∈ s
    · obtain ⟨a, b, rfl, ha⟩ := List.eq_append_cons_of_mem heq
      have haeq : equalsSign ∉ escaped queryEscapeMask a := fun h => ha ((mem_escaped (.inr rfl)).mp h)
      rw [escaped_append, escaped_separator (.inr rfl), List.append_assoc, List.cons_append]
      by_cases hnil : a = []
      · rw [hnil, escaped, List.flatMap_nil, List.nil_append, hreqQueryFrom_equals]
        exact fun kv h => absurd h List.not_mem_nil
      have hne : escaped queryEscapeMask a ≠ [] := by
        intro h
        have hle := length_le_escaped a
        rw [h] at hle
        exact hnil (List.length_eq_zero_iff.mp (Nat.le_zero.mp hle))
      by_cases hamp : ampersand ∈ b
      · obtain ⟨c, d, rfl, hc⟩ := List.eq_append_cons_of_mem hamp
        have hcamp : ampersand ∉ escaped queryEscapeMask c := fun h => hc ((mem_escaped (.inl rfl)).mp h)
        rw [escaped_append, escaped_separator (.inl rfl), List.append_assoc, List.cons_append,
          hreqQueryFrom_pair hne haeq hcamp (.inr rfl), List.drop_one, List.tail_cons]
        intro kv hkv
        rcases List.mem_cons.mp hkv with rfl | hkv
        · have hval := queryVal_escaped c Remnant.nil
          rw [List.append_nil, List.append_nil] at hval
          rw [hval]
          exact fun h => hc (List.takeWhile_subset _ h)
        · refine ih d.length ?_ d rfl kv hkv
          simp only [List.length_append, List.length_cons] at hlen
          omega
      · have hbamp : ampersand ∉ escaped queryEscapeMask b ++ p := fun h =>
          (List.mem_append.mp h).elim (fun h => hamp ((mem_escaped (.inl rfl)).mp h)) hpamp
        have hpair := hreqQueryFrom_pair hne haeq hbamp (.inl rfl)
        rw [List.append_nil] at hpair
        rw [hpair, queryVal_escaped b hp]
        intro kv hkv
        rcases List.mem_cons.mp hkv with rfl | hkv
        · exact fun h => (List.mem_append.mp (List.takeWhile_subset _ h)).elim hamp hpamp
        · rw [List.drop_nil, hreqQueryFrom_nil List.not_mem_nil] at hkv
          cases hkv
    · have hnone : equalsSign ∉ escaped queryEscapeMask s ++ p := fun h =>
        (List.mem_append.mp h).elim (fun h => heq ((mem_escaped (.inr rfl)).mp h)) hpeq
      rw [hreqQueryFrom_nil hnone]
      exact fun kv h => absurd h List.not_mem_nil

/-! ## The query that is built -/

/-- A name as it stands in a query and in the table. -/
structure QueryKey (k : Bytes) : Prop where
  ne_nil : k ≠ []
  noNul : 0 ∉ k
  noEquals : equalsSign ∉ k
  escaped_eq : escaped queryEscapeMask k = k
  lower_eq : k.map tolower = k

theorem QueryKey.queryKey_eq {k : Bytes} (h : QueryKey k) : queryKey k = k := by
  have hun := huriFieldUnescape_escaped k []
  rw [h.escaped_eq, List.append_nil, huriFieldUnescape, List.append_nil] at hun
  rw [queryKey, cstr_noNul h.noNul, hun, h.lower_eq, cstr_noNul h.noNul]

/-- Pairs with an ampersand before each. -/
def amped (parts : List (Bytes × Bytes)) : Bytes :=
  parts.flatMap fun p => ampersand :: (p.1 ++ equalsSign :: escaped queryEscapeMask p.2)

theorem amped_cons (p : Bytes × Bytes) (parts : List (Bytes × Bytes)) :
    amped (p :: parts) =
      ampersand :: (p.1 ++ equalsSign :: (escaped queryEscapeMask p.2 ++ amped parts)) := by
  simp [amped]

theorem amped_append (parts parts' : List (Bytes × Bytes)) :
    amped (parts ++ parts') = amped parts ++ amped parts' := List.flatMap_append

theorem amped_head (parts : List (Bytes × Bytes)) :
    amped parts = [] ∨ (amped parts).head? = some ampersand := by
  cases parts with
  | nil => exact .inl rfl
  | cons p parts => exact .inr (by rw [amped_cons]; rfl)

theorem amped_escaped {parts : List (Bytes × Bytes)} (h : ∀ p ∈ parts, QueryKey p.1) :
    ∃ s, amped parts = escaped queryEscapeMask s := by
  induction parts with
  | nil => exact ⟨[], rfl⟩
  | cons p parts ih =>
    obtain ⟨s, hs⟩ := ih fun q hq => h q (List.mem_cons_of_mem p hq)
    refine ⟨ampersand :: (p.1 ++ equalsSign :: (p.2 ++ s)), ?_⟩
    rw [amped_cons, escaped_separator (.inl rfl), escaped_append, escaped_separator (.inr rfl),
      escaped_append, (h p List.mem_cons_self).escaped_eq, hs]

/-- Values without ampersands come back. -/
theorem hreqQueryFrom_amped {parts : List (Bytes × Bytes)} (hkey : ∀ p ∈ parts, QueryKey p.1)
    (hval : ∀ p ∈ parts, 0 ∉ p.2 ∧ ampersand ∉ p.2) :
    hreqQueryFrom ((amped parts).drop 1) = parts := by
  induction parts with
  | nil => exact hreqQueryFrom_nil List.not_mem_nil
  | cons p parts ih =>
    have hk := hkey p List.mem_cons_self
    obtain ⟨hnul, hamp⟩ := hval p List.mem_cons_self
    have hv : queryVal (escaped queryEscapeMask p.2) = p.2 := by
      have h := queryVal_escaped p.2 Remnant.nil
      rwa [List.append_nil, List.append_nil, cstr_noNul hnul] at h
    rw [amped_cons, List.drop_one, List.tail_cons, hreqQueryFrom_pair hk.ne_nil hk.noEquals
      (fun h => hamp ((mem_escaped (.inl rfl)).mp h)) (amped_head parts), hk.queryKey_eq, hv,
      ih (fun q hq => hkey q (List.mem_cons_of_mem p hq)) fun q hq => hval q (List.mem_cons_of_mem p hq)]

/-- The beginning of a query binds no other keys. -/
theorem hreqQueryFrom_take_keys {parts : List (Bytes × Bytes)} (hkey : ∀ p ∈ parts, QueryKey p.1)
    (hval : ∀ p ∈ parts, ampersand ∉ p.2) (m : Nat) :
    ∀ kv ∈ hreqQueryFrom (((amped parts).drop 1).take m), kv.1 ∈ parts.map Prod.fst := by
  induction parts generalizing m with
  | nil =>
    rw [amped, List.flatMap_nil, List.drop_nil, List.take_nil, hreqQueryFrom_nil List.not_mem_nil]
    exact fun kv h => absurd h List.not_mem_nil
  | cons p parts ih =>
    have hk := hkey p List.mem_cons_self
    have hamp : ampersand ∉ escaped queryEscapeMask p.2 := fun h =>
      hval p List.mem_cons_self ((mem_escaped (.inl rfl)).mp h)
    have hrest := ih (fun q hq => hkey q (List.mem_cons_of_mem p hq))
      fun q hq => hval q (List.mem_cons_of_mem p hq)
    rw [amped_cons, List.drop_one, List.tail_cons]
    by_cases hm : m ≤ p.1.length
    · rw [List.take_append_of_le_length hm, hreqQueryFrom_nil fun h => hk.noEquals (List.mem_of_mem_take h)]
      exact fun kv h => absurd h List.not_mem_nil
    obtain ⟨j, rfl⟩ : ∃ j, m = p.1.length + (j + 1) := ⟨m - p.1.length - 1, by omega⟩
    rw [List.take_length_add_append, List.take_succ_cons, List.take_append]
    have htail : (amped parts).take (j - (escaped queryEscapeMask p.2).length) = [] ∨
        ((amped parts).take (j - (escaped queryEscapeMask p.2).length)).head? = some ampersand := by
      cases j - (escaped queryEscapeMask p.2).length with
      | zero => exact .inl rfl
      | succ i =>
        refine (amped_head parts).imp (fun h => by rw [h]; rfl) fun h => ?_
        rw [List.head?_take, if_neg (by omega), h]
    rw [hreqQueryFrom_pair hk.ne_nil hk.noEquals (fun h => hamp (List.mem_of_mem_take h)) htail,
      hk.queryKey_eq, List.drop_take]
    intro kv hkv
    rcases List.mem_cons.mp hkv with rfl | hkv
    · exact List.mem_cons_self
    · exact List.mem_cons_of_mem _ (hrest _ kv hkv)

/-! ## Parameters -/

/-- A string that is there, with its key and whether there is memory for its escaped copy. -/
structure QParam where
  key : Bytes
  memory : Bool
  val : CString

/-- What is added for a parameter. -/
def QParam.part (p : QParam) : Bytes × Bytes := (p.key, if p.memory then p.val.1 else [])

/-- Nothing is lost of the string. -/
def QParam.Kept (p : QParam) : Prop := p.memory = true ∨ p.val.1 = []

theorem QParam.part_eq {p : QParam} (h : p.Kept) : p.part = (p.key, p.val.1) := by
  rcases h with h | h
  · rw [part, h, if_pos rfl]
  · rw [part, h, ite_self]

def qparams (memory : Nat → Bool) (pfx marker delim : Option CString) : List QParam :=
  (pfx.map (⟨prefixKey, memory 0, ·⟩)).toList ++ (marker.map (⟨markerKey, memory 1, ·⟩)).toList ++
    (delim.map (⟨delimiterKey, memory 2, ·⟩)).toList

/-- The last part, for `max-keys`. -/
def maxPart (maxKeys : UInt32) : List (Bytes × Bytes) :=
  if maxKeys = 0 then [] else [(maxKeysKey, decimal maxKeys.toNat)]

/-- The query whose strings are these. -/
def partsQuery (parts : List (Bytes × Bytes)) : Bytes := (amped parts).drop 1

theorem escaped_plain {s : Bytes} (h : s.any (fun c => !needntEscape queryEscapeMask c) = false) :
    escaped queryEscapeMask s = s := by
  induction s with
  | nil => rfl
  | cons c s ih =>
    rw [List.any_cons, Bool.or_eq_false_iff] at h
    rw [escaped, List.flatMap_cons, ← escaped, ih h.2, escapeByte, if_pos (by simpa using h.1)]
    rfl

theorem escaped_length (s : Bytes) :
    (s.map fun c => if needntEscape queryEscapeMask c then 1 else 3).sum =
      (escaped queryEscapeMask s).length := by
  rw [escaped, List.length_flatMap]
  refine congrArg List.sum (List.map_congr_left fun c _ => ?_)
  rw [escapeByte_length]

/-- An escape that does not overflow. -/
theorem huriFieldEscape_some {memory : Bool} {s : CString} {stmp : Option Bytes}
    (h : huriFieldEscape memory s queryEscapeMask = some stmp) :
    stmp = (if memory then some (escaped queryEscapeMask s.1) else none) ∧
      (escaped queryEscapeMask s.1).length < 2 ^ 31 := by
  unfold huriFieldEscape at h
  rw [escaped_length] at h
  dsimp only at h
  split at h
  · cases h
  · next hlen =>
    refine ⟨?_, Nat.lt_of_not_le hlen⟩
    split at h
    · next hplain =>
      rw [escaped_plain (by simpa using hplain)]
      exact (Option.some.inj h).symm
    · split at h
      · cases h
      · exact (Option.some.inj h).symm

theorem huriFieldEscape_of_lt (memory : Bool) {s : CString}
    (h : (escaped queryEscapeMask s.1).length + 1 < 2 ^ 31) :
    huriFieldEscape memory s queryEscapeMask =
      some (if memory then some (escaped queryEscapeMask s.1) else none) := by
  unfold huriFieldEscape
  rw [escaped_length]
  dsimp only
  rw [if_neg (by omega)]
  split
  · next hplain => rw [escaped_plain (by simpa using hplain)]
  · rw [if_neg (by omega)]

/-- What `append_qparam` has built of some parts, with the character before the next. -/
def built (parts : List (Bytes × Bytes)) : Bytes × UInt8 :=
  if parts = [] then ([], questionMark) else (questionMark :: partsQuery parts, ampersand)

theorem built_append (parts : List (Bytes × Bytes)) (p : Bytes × Bytes) :
    built (parts ++ [p]) = ((built parts).1 ++ [(built parts).2] ++ p.1 ++ [equalsSign] ++
      escaped queryEscapeMask p.2, ampersand) := by
  cases parts with
  | nil => simp [built, partsQuery, amped]
  | cons q parts => simp [built, partsQuery, amped]

theorem appendQparam_built (parts : List (Bytes × Bytes)) (p : QParam) :
    appendQparam p.memory p.key p.val (built parts) =
      (huriFieldEscape p.memory p.val queryEscapeMask).map fun _ => built (parts ++ [p.part]) := by
  rw [appendQparam]
  cases h : huriFieldEscape p.memory p.val queryEscapeMask with
  | none => rfl
  | some stmp =>
    rw [Option.map_some, Option.map_some, built_append, (huriFieldEscape_some h).1, QParam.part]
    cases p.memory <;> rfl

/-- The strings can be escaped. -/
def Escapable (params : List QParam) : Prop :=
  ∀ p ∈ params, (huriFieldEscape p.memory p.val queryEscapeMask).isSome = true

instance (params : List QParam) : Decidable (Escapable params) :=
  inferInstanceAs (Decidable (∀ _ ∈ params, _))

def qparamStep (str : Bytes × UInt8) (p : QParam) : Option (Bytes × UInt8) :=
  appendQparam p.memory p.key p.val str

theorem foldlM_built (params : List QParam) (parts : List (Bytes × Bytes)) :
    params.foldlM qparamStep (built parts) =
      if Escapable params then some (built (parts ++ params.map QParam.part)) else none := by
  induction params generalizing parts with
  | nil =>
    have hnil : Escapable [] := fun _ h => absurd h List.not_mem_nil
    rw [if_pos hnil, List.map_nil, List.append_nil]
    rfl
  | cons p params ih =>
    have hiff : Escapable (p :: params) ↔
        (huriFieldEscape p.memory p.val queryEscapeMask).isSome = true ∧ Escapable params :=
      List.forall_mem_cons
    rw [List.foldlM_cons, qparamStep, appendQparam_built]
    cases hesc : huriFieldEscape p.memory p.val queryEscapeMask with
    | none =>
      rw [if_neg fun h => by simpa [hesc] using (hiff.mp h).1]
      rfl
    | some stmp =>
      simp only [Option.map_some, Option.bind_eq_bind, Option.bind_some]
      rw [ih, List.append_assoc, List.map_cons, List.singleton_append]
      by_cases h : Escapable params
      · rw [if_pos h, if_pos (hiff.mpr ⟨by rw [hesc]; rfl, h⟩)]
      · rw [if_neg h, if_neg fun hn => h (hiff.mp hn).2]

theorem digit_plain : ∀ d < 10, escapeByte queryEscapeMask (UInt8.ofNat (0x30 + d)) =
    [UInt8.ofNat (0x30 + d)] ∧ UInt8.ofNat (0x30 + d) ≠ 0 ∧ UInt8.ofNat (0x30 + d) ≠ ampersand := by
  decide +kernel

theorem mem_decimal {n : Nat} {c : UInt8} (h : c ∈ decimal n) :
    escapeByte queryEscapeMask c = [c] ∧ c ≠ 0 ∧ c ≠ ampersand := by
  obtain ⟨d, hd, rfl⟩ := List.mem_map.mp h
  exact digit_plain d (Nat.digits_lt_base (by decide) (List.mem_reverse.mp hd))

theorem escaped_decimal (n : Nat) : escaped queryEscapeMask (decimal n) = decimal n := by
  have hall : ∀ c ∈ decimal n, escapeByte queryEscapeMask c = [c] := fun c h => (mem_decimal h).1
  rw [escaped, List.flatMap_congr hall, List.flatMap_singleton']

theorem decimal_length (n : UInt32) : (decimal n.toNat).length ≤ 10 := by
  rw [decimal, List.length_map, List.length_reverse, Nat.digits_length_le_iff (by decide)]
  exact n.toNat_lt.trans (by decide)

/-- All the parts that `hstor_keys` adds. -/
def keysParts (memory : Nat → Bool) (pfx marker delim : Option CString) (maxKeys : UInt32) :
    List (Bytes × Bytes) :=
  (qparams memory pfx marker delim).map QParam.part ++ maxPart maxKeys

section

variable (memory : Nat → Bool) (pfx marker delim : Option CString) (maxKeys : UInt32)

theorem hstorKeysArgs_eq : hstorKeysArgs memory pfx marker delim maxKeys =
    if Escapable (qparams memory pfx marker delim) then
      some (built (keysParts memory pfx marker delim maxKeys)).1
    else none := by
  have hopt : ∀ i key (val : Option CString) str, appendOpt (memory i) key val str =
      ((val.map (⟨key, memory i, ·⟩)).toList : List QParam).foldlM qparamStep str := by
    intro i key val str
    cases val with
    | none => rfl
    | some val =>
      simp only [Option.map_some, Option.toList_some, List.foldlM_cons, List.foldlM_nil]
      cases h : qparamStep str ⟨key, memory i, val⟩ <;> exact h
  have hfold : ((appendOpt (memory 0) prefixKey pfx ([], questionMark)).bind fun url =>
      (appendOpt (memory 1) markerKey marker url).bind fun url =>
        appendOpt (memory 2) delimiterKey delim url) =
      (qparams memory pfx marker delim).foldlM qparamStep (built []) := by
    rw [qparams, List.foldlM_append, List.foldlM_append, hopt]
    simp only [hopt, Option.bind_eq_bind, Option.bind_assoc]
    rfl
  have hlast : ∀ parts, (if maxKeys = 0 then (built parts).1 else (built parts).1 ++ [(built parts).2] ++
      maxKeysKey ++ [equalsSign] ++ decimal maxKeys.toNat) = (built (parts ++ maxPart maxKeys)).1 := by
    intro parts
    unfold maxPart
    split
    · rw [List.append_nil]
    · rw [built_append, escaped_decimal]
  have hargs : hstorKeysArgs memory pfx marker delim maxKeys =
      ((qparams memory pfx marker delim).foldlM qparamStep (built [])).map fun url =>
        if maxKeys = 0 then url.1 else url.1 ++ [url.2] ++ maxKeysKey ++ [equalsSign] ++
          decimal maxKeys.toNat := by
    rw [← hfold]
    simp only [hstorKeysArgs, Option.map_bind, Function.comp_def]
  rw [hargs, foldlM_built, List.nil_append]
  by_cases hesc : Escapable (qparams memory pfx marker delim)
  · rw [if_pos hesc, if_pos hesc, Option.map_some, hlast]
    rfl
  · rw [if_neg hesc, if_neg hesc]
    rfl

end

/-- What `hreq_query` gets to see of a query. -/
theorem hreqQuery_built {parts : List (Bytes × Bytes)} (hkey : ∀ p ∈ parts, QueryKey p.1) :
    hreqQuery (huriQuery (built parts).1) =
      hreqQueryFrom ((partsQuery parts).take (toInt32 ((partsQuery parts).length % 2 ^ 32)).toNat) := by
  have hsign : numberSign ∉ partsQuery parts := by
    obtain ⟨s, hs⟩ := amped_escaped hkey
    intro h
    exact numberSign_not_mem_escaped s (hs ▸ List.mem_of_mem_drop h)
  cases parts with
  | nil => rfl
  | cons p parts =>
    have hwhile : (partsQuery (p :: parts)).takeWhile (fun c => decide (c ≠ numberSign)) =
        partsQuery (p :: parts) :=
      List.takeWhile_eq_self_iff.mpr fun c hc => decide_eq_true fun h => hsign (h ▸ hc)
    rw [hreqQuery, built, if_neg (List.cons_ne_nil p parts), huriQuery]
    simp only [List.head?_cons, if_true, List.drop_one, List.tail_cons, hwhile]

/-! ## The round trip -/

theorem htabLookup_mem {puts : List (Bytes × Bytes)} {k v : Bytes} (h : htabLookup puts k = some v) :
    (k, v) ∈ puts := by
  obtain ⟨p, hp, rfl⟩ := Option.map_eq_some_iff.mp h
  have hk : p.1 = k := by simpa using List.find?_some hp
  have hmem := List.mem_reverse.mp (List.mem_of_find?_eq_some hp)
  rwa [← hk]

theorem htabLookup_iff {puts : List (Bytes × Bytes)} (h : (puts.map Prod.fst).Nodup) (k v : Bytes) :
    htabLookup puts k = some v ↔ (k, v) ∈ puts := by
  refine ⟨htabLookup_mem, fun hmem => ?_⟩
  have hrev : (puts.reverse.map Prod.fst).Nodup := by
    rw [List.map_reverse]
    exact List.nodup_reverse.mpr h
  have hget := (@Table.mem_get _ _ Prod.fst _ ⟨puts.reverse, hrev⟩ k (k, v)).mpr
    ⟨List.mem_reverse.mpr hmem, rfl⟩
  rw [htabLookup]
  exact Option.map_eq_some_iff.mpr ⟨_, hget, rfl⟩

/-- The keys of the strings. -/
def stringKeys : List Bytes := [prefixKey, markerKey, delimiterKey]

theorem stringKeys_queryKey : ∀ k ∈ maxKeysKey :: stringKeys, QueryKey k := by
  have hall : ∀ k ∈ maxKeysKey :: stringKeys, k ≠ [] ∧ 0 ∉ k ∧ equalsSign ∉ k ∧
      escaped queryEscapeMask k = k ∧ k.map tolower = k := by decide +kernel
  intro k hk
  obtain ⟨h₁, h₂, h₃, h₄, h₅⟩ := hall k hk
  exact ⟨h₁, h₂, h₃, h₄, h₅⟩

/-- The table binds the three strings, each if it is there, and but for `max-keys` nothing else. -/
structure BindsStrings (table : Bytes → Option Bytes) (pfx marker delim : Option CString) : Prop where
  pfx : table prefixKey = pfx.map Subtype.val
  marker : table markerKey = marker.map Subtype.val
  delim : table delimiterKey = delim.map Subtype.val
  others : ∀ k, k ∉ maxKeysKey :: stringKeys → table k = none

section

variable {memory : Nat → Bool} {pfx marker delim : Option CString} {maxKeys : UInt32}

theorem qparams_keys : ((qparams memory pfx marker delim).map QParam.key).Sublist stringKeys := by
  unfold qparams stringKeys
  cases pfx <;> cases marker <;> cases delim <;> simp

theorem mem_qparams {p : QParam} : p ∈ qparams memory pfx marker delim ↔
    pfx.map (⟨prefixKey, memory 0, ·⟩) = some p ∨ marker.map (⟨markerKey, memory 1, ·⟩) = some p ∨
      delim.map (⟨delimiterKey, memory 2, ·⟩) = some p := by
  simp only [qparams, List.mem_append, Option.mem_toList, or_assoc]

/-- A parameter of a key is its string. -/
theorem qparams_val {p : QParam} (hp : p ∈ qparams memory pfx marker delim) :
    (p.key = prefixKey → pfx = some p.val) ∧ (p.key = markerKey → marker = some p.val) ∧
      (p.key = delimiterKey → delim = some p.val) := by
  have hne : prefixKey ≠ markerKey ∧ prefixKey ≠ delimiterKey ∧ markerKey ≠ delimiterKey := by decide
  rcases mem_qparams.mp hp with hp | hp | hp
  all_goals
    obtain ⟨val, hval, rfl⟩ := Option.map_eq_some_iff.mp hp
    simp [hval, hne.1, hne.2.1, hne.2.2, hne.1.symm, hne.2.1.symm, hne.2.2.symm]

/-- A table that binds the strings, by the parameters. -/
theorem BindsStrings.param {table : Bytes → Option Bytes} (h : BindsStrings table pfx marker delim)
    {p : QParam} (hp : p ∈ qparams memory pfx marker delim) : table p.key = some p.val.1 := by
  rcases mem_qparams.mp hp with hp | hp | hp
  all_goals obtain ⟨val, hval, rfl⟩ := Option.map_eq_some_iff.mp hp
  · rw [h.pfx, hval, Option.map_some]
  · rw [h.marker, hval, Option.map_some]
  · rw [h.delim, hval, Option.map_some]

theorem keysParts_keys :
    ((keysParts memory pfx marker delim maxKeys).map Prod.fst).Sublist (stringKeys ++ [maxKeysKey]) := by
  rw [keysParts, List.map_append, List.map_map]
  refine qparams_keys.append ?_
  unfold maxPart
  split
  · exact List.nil_sublist _
  · exact List.Sublist.refl _

theorem keysParts_nodup : ((keysParts memory pfx marker delim maxKeys).map Prod.fst).Nodup :=
  keysParts_keys.nodup (by decide)

theorem keysParts_queryKey : ∀ p ∈ keysParts memory pfx marker delim maxKeys, QueryKey p.1 := by
  intro p hp
  have hmem := keysParts_keys.subset (List.mem_map_of_mem hp)
  rw [List.mem_append, or_comm] at hmem
  exact stringKeys_queryKey p.1 (List.mem_cons.mpr (hmem.imp_left List.mem_singleton.mp))

theorem partsQuery_escaped {parts : List (Bytes × Bytes)} (h : ∀ p ∈ parts, QueryKey p.1) :
    ∃ s, partsQuery parts = escaped queryEscapeMask s := by
  cases parts with
  | nil => exact ⟨[], rfl⟩
  | cons p parts =>
    obtain ⟨s, hs⟩ := amped_escaped fun q hq => h q (List.mem_cons_of_mem p hq)
    refine ⟨p.1 ++ equalsSign :: (p.2 ++ s), ?_⟩
    rw [partsQuery, amped_cons, List.drop_one, List.tail_cons, escaped_append,
      escaped_separator (.inr rfl), escaped_append, (h p List.mem_cons_self).escaped_eq, hs]

theorem part_val (p : QParam) : p.part.2 = p.val.1 ∨ p.part.2 = [] := by
  rw [QParam.part]
  dsimp only
  split
  · exact .inl rfl
  · exact .inr rfl

/-- Strings without ampersands make parts without them. -/
theorem keysParts_noAmp (h : ∀ p ∈ qparams memory pfx marker delim, ampersand ∉ p.val.1) :
    ∀ kv ∈ keysParts memory pfx marker delim maxKeys, 0 ∉ kv.2 ∧ ampersand ∉ kv.2 := by
  intro kv hkv
  rcases List.mem_append.mp hkv with hkv | hkv
  · obtain ⟨p, hp, rfl⟩ := List.mem_map.mp hkv
    rcases part_val p with hv | hv
    · rw [hv]
      exact ⟨p.val.2, h p hp⟩
    · rw [hv]
      exact ⟨List.not_mem_nil, List.not_mem_nil⟩
  · unfold maxPart at hkv
    split at hkv
    · cases hkv
    · rw [List.mem_singleton.mp hkv]
      exact ⟨fun h => (mem_decimal h).2.1 rfl, fun h => (mem_decimal h).2.2 rfl⟩

theorem maxPart_length : (amped (maxPart maxKeys)).length ≤ 20 := by
  have hdec := decimal_length maxKeys
  unfold maxPart
  split
  · exact Nat.zero_le _
  · rw [amped_cons, escaped_decimal]
    simp only [List.length_cons, List.length_append, amped, List.flatMap_nil, List.length_nil,
      maxKeysKey]
    omega

theorem toInt32_toNat_of_le {n : Nat} (h : 2 ^ 31 ≤ n) (h' : n < 2 ^ 32) : (toInt32 n).toNat = 0 := by
  have hemod : (n : Int) % ((2 ^ 32 : Nat) : Int) = n := Int.emod_eq_of_lt (by omega) (by omega)
  have hsub : toInt32 n = (n : Int) - ((2 ^ 32 : Nat) : Int) := by
    unfold toInt32
    rw [Int.bmod_def, hemod, if_neg (by omega)]
  rw [hsub]
  omega

/-- A query of `2 ^ 31` bytes or more does not bind all its keys: as an `int` its length is negative, or
too small by `2 ^ 32`, and the last string is cut off. -/
theorem partsQuery_length_lt (hesc : Escapable (qparams memory pfx marker delim))
    (hamp : ∀ p ∈ qparams memory pfx marker delim, ampersand ∉ p.val.1)
    (hbound : ∀ p ∈ qparams memory pfx marker delim, ∃ v, (p.key, v) ∈ hreqQueryFrom
      ((partsQuery (keysParts memory pfx marker delim maxKeys)).take
        (toInt32 ((partsQuery (keysParts memory pfx marker delim maxKeys)).length % 2 ^ 32)).toNat)) :
    (partsQuery (keysParts memory pfx marker delim maxKeys)).length < 2 ^ 31 := by
  by_contra hbig
  have hnoAmp := @keysParts_noAmp memory pfx marker delim maxKeys hamp
  have hkeys := @keysParts_queryKey memory pfx marker delim maxKeys
  have hnodup := @keysParts_nodup memory pfx marker delim maxKeys
  have hmax := @maxPart_length maxKeys
  rcases List.eq_nil_or_concat (qparams memory pfx marker delim) with hnil | ⟨ps, last, hlast⟩
  · rw [keysParts, hnil, List.map_nil, List.nil_append, partsQuery, List.length_drop] at hbig
    omega
  have hmem : last ∈ qparams memory pfx marker delim := by
    rw [hlast, List.concat_eq_append]
    exact List.mem_append_right _ (List.mem_singleton_self _)
  have hkeylen : last.part.1.length ≤ 9 := by
    have hall : ∀ k ∈ stringKeys, k.length ≤ 9 := by decide
    exact hall _ (qparams_keys.subset (List.mem_map_of_mem hmem))
  have hvallen : (escaped queryEscapeMask last.part.2).length < 2 ^ 31 := by
    obtain ⟨stmp, hstmp⟩ := Option.isSome_iff_exists.mp (hesc last hmem)
    rcases part_val last with hv | hv
    · rw [hv]
      exact (huriFieldEscape_some hstmp).2
    · rw [hv]
      decide
  have hrest : (amped (last.part :: maxPart maxKeys)).length ≤ 31 + (2 ^ 31 - 1) := by
    rw [amped_cons]
    simp only [List.length_cons, List.length_append]
    omega
  have hparts : keysParts memory pfx marker delim maxKeys =
      ps.map QParam.part ++ last.part :: maxPart maxKeys := by
    rw [keysParts, hlast, List.concat_eq_append, List.map_append, List.append_assoc]
    rfl
  obtain ⟨v, hv⟩ := hbound last hmem
  rw [hparts] at hv hbig hnoAmp hkeys hnodup
  have hlen : (partsQuery (ps.map QParam.part ++ last.part :: maxPart maxKeys)).length + 1 =
      (amped (ps.map QParam.part)).length + (amped (last.part :: maxPart maxKeys)).length := by
    rw [partsQuery, List.length_drop, amped_append, List.length_append, amped_cons]
    simp only [List.length_cons]
    omega
  by_cases hneg : 2 ^ 31 ≤ (partsQuery (ps.map QParam.part ++ last.part :: maxPart maxKeys)).length % 2 ^ 32
  · have hint : (toInt32 ((partsQuery (ps.map QParam.part ++ last.part :: maxPart maxKeys)).length %
        2 ^ 32)).toNat = 0 := toInt32_toNat_of_le hneg (Nat.mod_lt _ (by decide))
    rw [hint, List.take_zero, hreqQueryFrom_nil List.not_mem_nil] at hv
    cases hv
  · rw [toInt32_of_lt (by omega), Int.toNat_natCast, partsQuery, amped_append,
      List.drop_append_of_le_length (by omega), List.take_append_of_le_length] at hv
    · have hmemKeys := hreqQueryFrom_take_keys (fun p hp => hkeys p (List.mem_append_left _ hp))
        (fun p hp => (hnoAmp p (List.mem_append_left _ hp)).2) _ _ hv
      rw [List.map_append, List.map_cons] at hnodup
      exact List.disjoint_of_nodup_append hnodup hmemKeys List.mem_cons_self
    · rw [← List.drop_append_of_le_length (by omega), ← amped_append, ← partsQuery, List.length_drop]
      omega

/-- The strings as they are, whatever memory there was. -/
theorem keysParts_kept (h : ∀ p ∈ qparams memory pfx marker delim, p.Kept) :
    keysParts memory pfx marker delim maxKeys = keysParts (fun _ => true) pfx marker delim maxKeys := by
  have hplain : ∀ m : Nat → Bool, (qparams m pfx marker delim).map (fun p => (p.key, p.val.1)) =
      (qparams (fun _ => true) pfx marker delim).map fun p => (p.key, p.val.1) := by
    intro m
    unfold qparams
    cases pfx <;> cases marker <;> cases delim <;> rfl
  have hparts : ∀ m : Nat → Bool, (∀ p ∈ qparams m pfx marker delim, p.Kept) →
      (qparams m pfx marker delim).map QParam.part =
        (qparams m pfx marker delim).map fun p => (p.key, p.val.1) :=
    fun m hm => List.map_congr_left fun p hp => QParam.part_eq (hm p hp)
  rw [keysParts, keysParts, hparts memory h, hplain memory, hparts (fun _ => true)]
  intro p hp
  rcases mem_qparams.mp hp with hp | hp | hp
  all_goals
    obtain ⟨val, -, rfl⟩ := Option.map_eq_some_iff.mp hp
    exact .inl rfl

/-- A short query can be escaped. -/
theorem escapable_of_length (h : ∀ p ∈ qparams memory pfx marker delim, p.Kept)
    (hlen : (partsQuery (keysParts memory pfx marker delim maxKeys)).length < 2 ^ 31) :
    Escapable (qparams memory pfx marker delim) := by
  intro p hp
  obtain ⟨front, back, hsplit⟩ := List.append_of_mem hp
  have hkey : 1 < p.key.length := by
    have hall : ∀ k ∈ stringKeys, 1 < k.length := by decide
    exact hall _ (qparams_keys.subset (List.mem_map_of_mem hp))
  rw [keysParts, hsplit, List.map_append, List.map_cons, List.append_assoc, List.cons_append, partsQuery,
    List.length_drop, amped_append, List.length_append, amped_cons, QParam.part_eq (h p hp)] at hlen
  simp only [List.length_cons, List.length_append] at hlen
  rw [huriFieldEscape_of_lt p.memory (by omega)]
  rfl

/-- The table of `hreq_query` binds the strings that `hstor_keys` has been given if and only if none has
an ampersand, the copies of those that are not empty can be allocated, and the query has less than
`2 ^ 31` bytes. -/
theorem keys_query_iff (memory : Nat → Bool) (pfx marker delim : Option CString) (maxKeys : UInt32) :
    (∃ args, hstorKeysArgs memory pfx marker delim maxKeys = some args ∧
      BindsStrings (htabLookup (hreqQuery (huriQuery args))) pfx marker delim) ↔
    (∀ p ∈ qparams memory pfx marker delim, ampersand ∉ p.val.1 ∧ p.Kept) ∧
      (partsQuery (keysParts (fun _ => true) pfx marker delim maxKeys)).length < 2 ^ 31 := by
  have hkeys := @keysParts_queryKey memory pfx marker delim maxKeys
  have hnodup := @keysParts_nodup memory pfx marker delim maxKeys
  -- A query that is short and has no other ampersands gives its parts back.
  have hback : (∀ p ∈ qparams memory pfx marker delim, ampersand ∉ p.val.1) →
      (partsQuery (keysParts memory pfx marker delim maxKeys)).length < 2 ^ 31 →
      hreqQuery (huriQuery (built (keysParts memory pfx marker delim maxKeys)).1) =
        keysParts memory pfx marker delim maxKeys := by
    intro hamp hlen
    rw [hreqQuery_built hkeys, Nat.mod_eq_of_lt (by omega), toInt32_of_lt hlen, Int.toNat_natCast,
      List.take_length]
    exact hreqQueryFrom_amped hkeys (keysParts_noAmp hamp)
  constructor
  · rintro ⟨args, hargs, hbinds⟩
    rw [hstorKeysArgs_eq] at hargs
    split at hargs
    · next hesc =>
      obtain rfl := Option.some.inj hargs
      have hbound : ∀ p ∈ qparams memory pfx marker delim,
          (p.key, p.val.1) ∈ hreqQuery (huriQuery (built (keysParts memory pfx marker delim maxKeys)).1) :=
        fun p hp => htabLookup_mem (hbinds.param hp)
      have hamp : ∀ p ∈ qparams memory pfx marker delim, ampersand ∉ p.val.1 := by
        intro p hp
        have hmem := hbound p hp
        obtain ⟨s, hs⟩ := partsQuery_escaped hkeys
        obtain ⟨t, rem, htake, hrem⟩ := exists_escaped_take s
          (toInt32 ((escaped queryEscapeMask s).length % 2 ^ 32)).toNat
        rw [hreqQuery_built hkeys, hs, htake] at hmem
        exact hreqQueryFrom_val t hrem _ hmem
      have hlen := partsQuery_length_lt hesc hamp fun p hp => by
        have hmem := hbound p hp
        rw [hreqQuery_built hkeys] at hmem
        exact ⟨_, hmem⟩
      have hkept : ∀ p ∈ qparams memory pfx marker delim, p.Kept := by
        intro p hp
        have hmem := hbound p hp
        rw [hback hamp hlen] at hmem
        have hpart : p.part ∈ keysParts memory pfx marker delim maxKeys :=
          List.mem_append_left _ (List.mem_map_of_mem hp)
        have heq : p.part = (p.key, p.val.1) := List.inj_on_of_nodup_map hnodup hpart hmem rfl
        cases hm : p.memory with
        | true => exact .inl hm
        | false =>
          rw [QParam.part, hm] at heq
          exact .inr (congrArg Prod.snd heq).symm
      exact ⟨fun p hp => ⟨hamp p hp, hkept p hp⟩, keysParts_kept hkept ▸ hlen⟩
    · cases hargs
  · rintro ⟨hplain, hlen⟩
    have hkept : ∀ p ∈ qparams memory pfx marker delim, p.Kept := fun p hp => (hplain p hp).2
    rw [← keysParts_kept hkept] at hlen
    have hesc := escapable_of_length hkept hlen
    refine ⟨_, by rw [hstorKeysArgs_eq, if_pos hesc], ?_⟩
    rw [hback (fun p hp => (hplain p hp).1) hlen]
    have hparam : ∀ p ∈ qparams memory pfx marker delim,
        htabLookup (keysParts memory pfx marker delim maxKeys) p.key = some p.val.1 := by
      intro p hp
      refine (htabLookup_iff hnodup p.key p.val.1).mpr ?_
      rw [← QParam.part_eq (hkept p hp)]
      exact List.mem_append_left _ (List.mem_map_of_mem hp)
    have hnone : ∀ k, k ≠ maxKeysKey → (∀ p ∈ qparams memory pfx marker delim, p.key ≠ k) →
        htabLookup (keysParts memory pfx marker delim maxKeys) k = none := by
      intro k hmax hk
      rw [Option.eq_none_iff_forall_ne_some]
      intro v hv
      rcases List.mem_append.mp (htabLookup_mem hv) with hmem | hmem
      · obtain ⟨p, hp, heq⟩ := List.mem_map.mp hmem
        exact hk p hp (congrArg Prod.fst heq)
      · unfold maxPart at hmem
        split at hmem
        · cases hmem
        · exact hmax (congrArg Prod.fst (List.mem_singleton.mp hmem))
    refine ⟨?_, ?_, ?_, fun k hk => hnone k (fun h => hk (List.mem_cons.mpr (.inl h))) fun p hp heq => ?_⟩
    · cases pfx with
      | some val => exact hparam ⟨prefixKey, memory 0, val⟩ (mem_qparams.mpr (.inl rfl))
      | none => exact hnone prefixKey (by decide) fun p hp heq => absurd ((qparams_val hp).1 heq) (by simp)
    · cases marker with
      | some val => exact hparam ⟨markerKey, memory 1, val⟩ (mem_qparams.mpr (.inr (.inl rfl)))
      | none => exact hnone markerKey (by decide) fun p hp heq => absurd ((qparams_val hp).2.1 heq) (by simp)
    · cases delim with
      | some val => exact hparam ⟨delimiterKey, memory 2, val⟩ (mem_qparams.mpr (.inr (.inr rfl)))
      | none => exact hnone delimiterKey (by decide) fun p hp heq => absurd ((qparams_val hp).2.2 heq) (by simp)
    · exact hk (List.mem_cons_of_mem _ (heq ▸ qparams_keys.subset (List.mem_map_of_mem hp)))

end

/-- A prefix with bytes that are escaped and an equals sign, and a delimiter. -/
theorem keys_query_escapes :
    ∃ args, hstorKeysArgs (fun _ => true) (some ⟨[0x25, 0x20, 0x3d], by decide⟩) none
        (some ⟨[0x2f], by decide⟩) 100 = some args ∧
      BindsStrings (htabLookup (hreqQuery (huriQuery args))) (some ⟨[0x25, 0x20, 0x3d], by decide⟩) none
        (some ⟨[0x2f], by decide⟩) := by
  refine (keys_query_iff (fun _ => true) _ none _ 100).mpr ⟨?_, ?_⟩
  · intro p hp
    rcases mem_qparams.mp hp with hp | hp | hp
    · obtain rfl := Option.some.inj hp
      exact ⟨by decide, .inl rfl⟩
    · cases hp
    · obtain rfl := Option.some.inj hp
      exact ⟨by decide, .inl rfl⟩
  · have hdec : decimal (100 : UInt32).toNat = [0x31, 0x30, 0x30] := by
      simp [decimal]
    have hmax : maxPart 100 = [(maxKeysKey, [0x31, 0x30, 0x30])] := by
      rw [maxPart, if_neg (by decide), hdec]
    rw [keysParts, hmax]
    decide +kernel

/-- With the prefix `a&b` the table has the prefix `a`. -/
theorem ampersand_cut :
    ∃ args, hstorKeysArgs (fun _ => true) (some ⟨[0x61, 0x26, 0x62], by decide⟩) none none 0 = some args ∧
      htabLookup (hreqQuery (huriQuery args)) prefixKey = some [0x61] ∧
      ¬ BindsStrings (htabLookup (hreqQuery (huriQuery args))) (some ⟨[0x61, 0x26, 0x62], by decide⟩)
        none none := by
  have hpair := @hreqQueryFrom_pair prefixKey [0x61] (ampersand :: [0x62]) (by decide) (by decide)
    (by decide) (.inr rfl)
  have hkey := (stringKeys_queryKey prefixKey (by decide)).queryKey_eq
  have hval : queryVal [0x61] = [0x61] := by
    rw [queryVal, huriFieldUnescape_short (by decide)]
    decide
  have hrest : hreqQueryFrom ((ampersand :: [0x62]).drop 1) = [] := hreqQueryFrom_nil (by decide)
  rw [hkey, hval, hrest] at hpair
  have hquery : hreqQuery (huriQuery (questionMark ::
      (prefixKey ++ equalsSign :: ([0x61] ++ ampersand :: [0x62])))) = [(prefixKey, [0x61])] := by
    rw [hreqQuery, ← hpair]
    exact congrArg hreqQueryFrom (by decide +kernel)
  have hlookup : htabLookup [(prefixKey, [0x61])] prefixKey = some [0x61] := by decide
  refine ⟨questionMark :: (prefixKey ++ equalsSign :: ([0x61] ++ ampersand :: [0x62])), by decide +kernel,
    by rw [hquery, hlookup], fun h => ?_⟩
  have hpfx := h.pfx
  rw [hquery, hlookup] at hpfx
  exact absurd hpfx (by decide)

end Hail.Lib
