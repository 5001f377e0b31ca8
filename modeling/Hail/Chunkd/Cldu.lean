import Hail.Cld.Grammar

/-!
# Directories for the record of a server

`cldu_make_path` of `cldu.c` makes the directories above a path in the CLD. It means to begin behind
the first slash, but `sizeof('/')` is the size of an `int`.
-/
namespace Hail.Chunkd

open Library Cld

/-- `sizeof('/')`. -/
def sizeofSlash : Nat := 4

/-- The byte at an offset in the memory of a string, of which the last is the NUL. -/
def charAt (s : Bytes) (i : Nat) : Option UInt8 := (s ++ [0])[i]?

/-- `strchr`, as an offset. -/
def strchr (c : UInt8) : Bytes → Option Nat
  | [] => none
  | b :: bs => if b = c then some 0 else (strchr c bs).map (· + 1)

theorem strchr_lt {c : UInt8} {s : Bytes} {i : Nat} (h : strchr c s = some i) : i < s.length := by
  induction s generalizing i with
  | nil => cases h
  | cons b s ih =>
    rw [strchr] at h
    split at h
    · cases h
      exact Nat.succ_pos _
    · obtain ⟨j, hj, rfl⟩ := Option.map_eq_some_iff.mp h
      exact Nat.succ_lt_succ (ih hj)

/-- The loop of `cldu_make_path` from the component at `compdir` on, of which this is the `i`-th round:
the directories opened and the result. What lies behind the string is not known. -/
def makePathFrom (dup opens : Nat → Bool) (path : Bytes) (compdir i : Nat) :
    Option (List Bytes × Int) :=
  match charAt path compdir with
  | none => none
  | some c =>
    if c = 0 then some ([], -1)
    else
      match hend : strchr slash (path.drop compdir) with
      | none => some ([], 0)
      | some k =>
        let compend := compdir + k
        if !dup i then some ([], -1)
        else if !opens i then some ([path.take compend], -1)
        else
          (makePathFrom dup opens path (compend + 1) (i + 1)).map fun r =>
            (path.take compend :: r.1, r.2)
termination_by path.length - compdir
decreasing_by
  have hlt := strchr_lt hend
  rw [List.length_drop] at hlt
  omega

/-- `cldu_make_path`; `dup` and `opens` say which calls of `strndup` and of `ncld_open` succeed. -/
def clduMakePath (dup opens : Nat → Bool) (path : Bytes) : Option (List Bytes × Int) :=
  if path.head? ≠ some slash then some ([], -1)
  else makePathFrom dup opens path sizeofSlash 0

/-- The directories above a path, from the outermost on, without the root. -/
def ancestors (comps : List Bytes) : List Bytes :=
  (List.range (comps.length - 1)).map fun k => pathOf (comps.take (k + 1))

/-! ## Rounds of the loop -/

theorem strchr_append {c : UInt8} {v : Bytes} (h : c ∉ v) (rest : Bytes) :
    strchr c (v ++ c :: rest) = some v.length := by
  induction v with
  | nil => simp [strchr]
  | cons b v ih =>
    rw [List.mem_cons, not_or] at h
    rw [List.cons_append, strchr, if_neg (Ne.symm h.1), ih h.2]
    rfl

theorem strchr_none {c : UInt8} {v : Bytes} (h : c ∉ v) : strchr c v = none := by
  induction v with
  | nil => rfl
  | cons b v ih =>
    rw [List.mem_cons, not_or] at h
    rw [strchr, if_neg (Ne.symm h.1), ih h.2]
    rfl

section

variable {dup opens : Nat → Bool} {path u v : Bytes}

/-- The round in the last component. -/
theorem makePathFrom_last (hpath : path = u ++ v) (hv : v ≠ []) (hnul : 0 ∉ v) (hslash : slash ∉ v)
    (i : Nat) : makePathFrom dup opens path u.length i = some ([], 0) := by
  obtain ⟨b, bs, rfl⟩ := List.exists_cons_of_ne_nil hv
  have hchar : charAt path u.length = some b := by simp [charAt, hpath]
  have hb : b ≠ 0 := fun h => hnul (by simp [h])
  have hdrop : path.drop u.length = b :: bs := by rw [hpath, List.drop_left]
  rw [makePathFrom, hchar]
  dsimp only
  rw [if_neg hb]
  split
  · rfl
  · next k hk =>
    rw [hdrop, strchr_none hslash] at hk
    cases hk

/-- A round in a component behind which there are more. -/
theorem makePathFrom_next {rest : Bytes} (hpath : path = u ++ v ++ slash :: rest) (hnul : 0 ∉ v)
    (hslash : slash ∉ v) (i : Nat) :
    makePathFrom dup opens path u.length i =
      if !dup i then some ([], -1)
      else if !opens i then some ([u ++ v], -1)
      else
        (makePathFrom dup opens path (u ++ v ++ [slash]).length (i + 1)).map fun r =>
          ((u ++ v) :: r.1, r.2) := by
  obtain ⟨b, hchar, hb⟩ : ∃ b, charAt path u.length = some b ∧ b ≠ 0 := by
    cases v with
    | nil => exact ⟨slash, by simp [charAt, hpath], slash_ne_zero⟩
    | cons b bs => exact ⟨b, by simp [charAt, hpath], fun h => hnul (by simp [h])⟩
  have hdrop : path.drop u.length = v ++ slash :: rest := by
    rw [hpath, List.append_assoc, List.drop_left]
  have htake : path.take (u.length + v.length) = u ++ v := by
    rw [hpath, ← List.length_append, List.take_left]
  have hlen : u.length + v.length + 1 = (u ++ v ++ [slash]).length := by
    rw [List.length_append, List.length_append]
    rfl
  rw [makePathFrom, hchar]
  dsimp only
  rw [if_neg hb]
  split
  · next hk =>
    rw [hdrop, strchr_append hslash] at hk
    cases hk
  · next k hk =>
    rw [hdrop, strchr_append hslash] at hk
    cases hk
    rw [htake, hlen]

/-- The rounds from a place in a component to the end of the path. -/
theorem makePathFrom_comps {post : List Bytes} (hpath : path = u ++ v ++ pathOf post)
    (hnul : 0 ∉ v) (hslash : slash ∉ v) (hmore : v ≠ [] ∨ post ≠ [])
    (hpost : ∀ c ∈ post, IsComponent c) (i : Nat) :
    ∃ dirs rc, makePathFrom dup (fun _ => true) path u.length i = some (dirs, rc) ∧
      (rc = 0 ↔ ∀ k < post.length, dup (i + k) = true) ∧
      (rc = 0 → dirs = (List.range post.length).map fun k => u ++ v ++ pathOf (post.take k)) := by
  induction post generalizing u v i with
  | nil =>
    have hv : v ≠ [] := hmore.resolve_right fun h => h rfl
    rw [show pathOf [] = [] from rfl, List.append_nil] at hpath
    refine ⟨[], 0, makePathFrom_last hpath hv hnul hslash i, ?_, fun _ => rfl⟩
    exact iff_of_true rfl fun k hk => absurd hk (Nat.not_lt_zero k)
  | cons c cs ih =>
    have hc := hpost c List.mem_cons_self
    have hround : path = u ++ v ++ slash :: (c ++ pathOf cs) := by rw [hpath, pathOf_cons]; rfl
    have hsplit : path = (u ++ v ++ [slash]) ++ c ++ pathOf cs := by rw [hround]; simp
    rw [makePathFrom_next hround hnul hslash i]
    obtain ⟨dirs, rc, hres, hrc, hdirs⟩ := ih hsplit hc.noNul hc.noSlash (.inl hc.ne_nil)
      (fun x hx => hpost x (List.mem_cons_of_mem c hx)) (i + 1)
    by_cases hdup : dup i = true
    · refine ⟨(u ++ v) :: dirs, rc, ?_, ?_, fun h0 => ?_⟩
      · rw [hres, hdup]
        rfl
      · rw [hrc]
        constructor
        · intro h k hk
          cases k with
          | zero => exact hdup
          | succ k =>
            rw [Nat.add_comm k 1, ← Nat.add_assoc]
            exact h k (Nat.lt_of_succ_lt_succ hk)
        · intro h k hk
          rw [Nat.add_assoc, Nat.add_comm 1 k]
          exact h (k + 1) (Nat.succ_lt_succ hk)
      · rw [hdirs h0, List.length_cons, List.range_succ_eq_map, List.map_cons, List.map_map]
        refine congrArg₂ List.cons ?_ (List.map_congr_left fun k _ => ?_)
        · simp [pathOf]
        · simp [pathOf_cons]
    · refine ⟨[], -1, ?_, ?_, fun h0 => by cases h0⟩
      · rw [Bool.not_eq_true] at hdup
        rw [hdup]
        rfl
      · exact iff_of_false (by decide) fun h => hdup (h 0 (Nat.succ_pos _))

/-- Every directory that is opened ends behind the place where the loop begins. -/
theorem makePathFrom_dirs_length {compdir i : Nat} {dirs : List Bytes} {rc : Int}
    (h : makePathFrom dup opens path compdir i = some (dirs, rc)) :
    ∀ dir ∈ dirs, compdir ≤ dir.length := by
  fun_induction makePathFrom dup opens path compdir i generalizing dirs rc with
  | case1 => cases h
  | case2 =>
    cases h
    exact fun dir hdir => by cases hdir
  | case3 =>
    cases h
    exact fun dir hdir => by cases hdir
  | case4 =>
    cases h
    exact fun dir hdir => by cases hdir
  | case5 compdir i c hchar hc k hend hdup hopen =>
    cases h
    have hlt := strchr_lt hend
    rw [List.length_drop] at hlt
    intro dir hdir
    rw [List.mem_singleton.mp hdir, List.length_take]
    omega
  | case6 compdir i c hchar hc k hend compend hdup hopen =>
    rename_i ih
    obtain ⟨⟨rest, rc'⟩, hrest, heq⟩ := Option.map_eq_some_iff.mp h
    cases heq
    have hlt := strchr_lt hend
    rw [List.length_drop] at hlt
    intro dir hdir
    rcases List.mem_cons.mp hdir with rfl | hdir
    · rw [List.length_take]
      omega
    · have hle := ih hrest dir hdir
      omega

/-- In a path that ends in a slash the loop ends with an error. -/
theorem makePathFrom_slash (hlast : path.getLast? = some slash) {compdir : Nat}
    (hle : compdir ≤ path.length) (i : Nat) :
    ∃ dirs, makePathFrom dup opens path compdir i = some (dirs, -1) := by
  fun_induction makePathFrom dup opens path compdir i with
  | case1 compdir i hchar =>
    rw [charAt, List.getElem?_eq_none_iff, List.length_append] at hchar
    simp at hchar
    omega
  | case2 => exact ⟨[], rfl⟩
  | case3 compdir i c hchar hc hend =>
    -- behind the place there is the last slash at least
    exfalso
    by_cases hlt : compdir < path.length
    · have hne : path.drop compdir ≠ [] := by
        rw [Ne, List.drop_eq_nil_iff]
        omega
      have hmem : slash ∈ path.drop compdir := by
        have h := @List.getLast?_drop _ compdir path
        rw [if_neg (by omega), hlast] at h
        exact List.mem_of_getLast? h
      obtain ⟨v, rest, hsplit, hv⟩ := List.eq_append_cons_of_mem hmem
      rw [hsplit, strchr_append hv] at hend
      cases hend
    · obtain rfl : compdir = path.length := by omega
      simp [charAt] at hchar
      exact hc hchar.symm
  | case4 => exact ⟨[], rfl⟩
  | case5 => exact ⟨_, rfl⟩
  | case6 compdir i c hchar hc k hend compend hdup hopen ih =>
    have hlt := strchr_lt hend
    rw [List.length_drop] at hlt
    obtain ⟨dirs, hdirs⟩ := ih (by omega)
    exact ⟨_, by rw [hdirs]; rfl⟩

end

/-! ## The paths it is right for -/

theorem pathOf_getElem {c : Bytes} {cs : List Bytes} (h : slash ∉ c) {i : Nat} (hi : 0 < i)
    (hslash : (pathOf (c :: cs))[i]? = some slash) : c.length < i := by
  by_contra hle
  obtain ⟨j, rfl⟩ : ∃ j, i = j + 1 := ⟨i - 1, by omega⟩
  rw [pathOf_cons, List.cons_append, List.getElem?_cons_succ,
    List.getElem?_append_left (by omega)] at hslash
  exact h (List.mem_of_getElem? hslash)

theorem pathOf_slash {c x : Bytes} {cs : List Bytes} :
    (pathOf (c :: x :: cs))[c.length + 1]? = some slash := by
  rw [pathOf_cons, List.cons_append, List.getElem?_cons_succ, List.getElem?_append_right le_rfl,
    Nat.sub_self, pathOf_cons]
  rfl

/-- The loop from the first component on, when that has three bytes at least. -/
theorem makePathFrom_first {dup : Nat → Bool} {c : Bytes} {cs : List Bytes}
    (hcomps : ∀ x ∈ c :: cs, IsComponent x) (hc : 3 ≤ c.length)
    (hlen : 5 ≤ (pathOf (c :: cs)).length) :
    ∃ dirs rc, makePathFrom dup (fun _ => true) (pathOf (c :: cs)) sizeofSlash 0 = some (dirs, rc) ∧
      (rc = 0 ↔ ∀ k < cs.length, dup k = true) ∧ (rc = 0 → dirs = ancestors (c :: cs)) := by
  have hcc := hcomps c List.mem_cons_self
  have hpath : pathOf (c :: cs) = (slash :: c.take 3) ++ c.drop 3 ++ pathOf cs := by
    rw [pathOf_cons, List.cons_append, List.cons_append, List.take_append_drop, List.cons_append]
  have hmore : c.drop 3 ≠ [] ∨ cs ≠ [] := by
    by_contra hnone
    rw [not_or, not_not, not_not, List.drop_eq_nil_iff] at hnone
    rw [hnone.2, pathOf_cons] at hlen
    simp [pathOf] at hlen
    omega
  have hu : (slash :: c.take 3).length = sizeofSlash := by
    rw [List.length_cons, List.length_take, sizeofSlash]
    omega
  obtain ⟨dirs, rc, hres, hrc, hdirs⟩ := @makePathFrom_comps dup (pathOf (c :: cs)) (slash :: c.take 3)
    (c.drop 3) cs hpath (fun h => hcc.noNul (List.mem_of_mem_drop h))
    (fun h => hcc.noSlash (List.mem_of_mem_drop h)) hmore
    (fun x hx => hcomps x (List.mem_cons_of_mem c hx)) 0
  rw [hu] at hres
  refine ⟨dirs, rc, hres, by simpa using hrc, fun h0 => ?_⟩
  rw [hdirs h0, ancestors, List.length_cons, Nat.add_sub_cancel]
  refine List.map_congr_left fun k _ => ?_
  rw [List.take_succ_cons, pathOf_cons, List.cons_append, List.take_append_drop, List.cons_append]

/-- The directories above a path of components are opened, each once and from the outermost on, if and
only if the first component has three bytes and the path five, and no string fails to be copied. A path
that ends in a slash is refused if it has four bytes or is not absolute. -/
theorem makePath_iff (dup : Nat → Bool) (path : Bytes) :
    (∀ comps, comps ≠ [] → (∀ c ∈ comps, IsComponent c) → path = pathOf comps →
      (clduMakePath dup (fun _ => true) path = some (ancestors comps, 0) ↔
        5 ≤ path.length ∧ path[2]? ≠ some slash ∧ path[3]? ≠ some slash ∧
          ∀ k < comps.length - 1, dup k = true)) ∧
    (path.getLast? = some slash →
      ((∃ dirs, clduMakePath dup (fun _ => true) path = some (dirs, -1)) ↔
        path.head? ≠ some slash ∨ 4 ≤ path.length)) := by
  constructor
  · rintro comps hne hcomps rfl
    obtain ⟨c, cs, rfl⟩ := List.exists_cons_of_ne_nil hne
    have hcc := hcomps c List.mem_cons_self
    have hhead : ¬ (pathOf (c :: cs)).head? ≠ some slash := by simp [pathOf_cons]
    have hlen : (pathOf (c :: cs)).length = c.length + 1 + (pathOf cs).length := by
      rw [pathOf_cons, List.length_append, List.length_cons]
    rw [clduMakePath, if_neg hhead, List.length_cons, Nat.add_sub_cancel]
    constructor
    · intro hres
      have hlong : 5 ≤ (pathOf (c :: cs)).length := by
        by_contra hshort
        rw [makePathFrom] at hres
        rcases Nat.lt_or_ge (pathOf (c :: cs)).length 4 with hlt | hge
        · have hchar : charAt (pathOf (c :: cs)) sizeofSlash = none := by
            rw [charAt, List.getElem?_eq_none_iff, List.length_append, sizeofSlash]
            simp
            omega
          rw [hchar] at hres
          cases hres
        · have hchar : charAt (pathOf (c :: cs)) sizeofSlash = some 0 := by
            rw [charAt, List.getElem?_append_right (by rw [sizeofSlash]; omega), sizeofSlash,
              show 4 - (pathOf (c :: cs)).length = 0 by omega]
            rfl
          rw [hchar] at hres
          simp at hres
      have hfirst : 3 ≤ c.length := by
        by_contra hshort
        cases cs with
        | nil =>
          rw [show pathOf [] = [] from rfl, List.length_nil] at hlen
          omega
        | cons x cs =>
          -- the directory of the first component is not opened
          have hmem : pathOf [c] ∈ ancestors (c :: x :: cs) := by
            refine List.mem_map.mpr ⟨0, ?_, rfl⟩
            simp
          have hle := makePathFrom_dirs_length hres _ hmem
          rw [pathOf_cons, sizeofSlash] at hle
          simp [pathOf] at hle
          omega
      obtain ⟨dirs, rc, hres', hrc, -⟩ := @makePathFrom_first dup c cs hcomps hfirst hlong
      rw [hres'] at hres
      cases hres
      refine ⟨hlong, fun h => ?_, fun h => ?_, hrc.mp rfl⟩
      · have := pathOf_getElem hcc.noSlash (by omega) h
        omega
      · have := pathOf_getElem hcc.noSlash (by omega) h
        omega
    · rintro ⟨hlong, htwo, hthree, hdup⟩
      have hfirst : 3 ≤ c.length := by
        by_contra hshort
        have hpos := List.length_pos_iff.mpr hcc.ne_nil
        cases cs with
        | nil =>
          rw [show pathOf [] = [] from rfl, List.length_nil] at hlen
          omega
        | cons x cs =>
          have hslash := @pathOf_slash c x cs
          rcases Nat.lt_or_ge c.length 2 with hlt | hge
          · rw [show c.length + 1 = 2 by omega] at hslash
            exact htwo hslash
          · rw [show c.length + 1 = 3 by omega] at hslash
            exact hthree hslash
      obtain ⟨dirs, rc, hres, hrc, hdirs⟩ := @makePathFrom_first dup c cs hcomps hfirst hlong
      have h0 := hrc.mpr hdup
      rw [hres, hdirs h0, h0]
  · intro hlast
    unfold clduMakePath
    by_cases hhead : path.head? ≠ some slash
    · rw [if_pos hhead]
      exact iff_of_true ⟨[], rfl⟩ (.inl hhead)
    · rw [if_neg hhead]
      by_cases hlen : 4 ≤ path.length
      · exact iff_of_true (makePathFrom_slash hlast hlen 0) (.inr hlen)
      · refine iff_of_false ?_ fun h => h.elim hhead hlen
        rintro ⟨dirs, hdirs⟩
        have hchar : charAt path sizeofSlash = none := by
          rw [charAt, List.getElem?_eq_none_iff, List.length_append, sizeofSlash]
          simp
          omega
        rw [makePathFrom, hchar] at hdirs
        cases hdirs

/-- `/abc/d`. -/
theorem makePath_abc :
    clduMakePath (fun _ => true) (fun _ => true) [0x2f, 0x61, 0x62, 0x63, 0x2f, 0x64] =
      some ([[0x2f, 0x61, 0x62, 0x63]], 0) :=
  ((makePath_iff (fun _ => true) [0x2f, 0x61, 0x62, 0x63, 0x2f, 0x64]).1
    [[0x61, 0x62, 0x63], [0x64]] (by decide)
    (by
      intro c hc
      rcases List.mem_pair.mp hc with rfl | rfl
      · exact ⟨by decide, by decide, by decide⟩
      · exact ⟨by decide, by decide, by decide⟩) rfl).mpr (by decide)

/-- Of `/a/bcd` the directory `/a` is not opened. -/
theorem makePath_skips :
    clduMakePath (fun _ => true) (fun _ => true) [0x2f, 0x61, 0x2f, 0x62, 0x63, 0x64] = some ([], 0) ∧
      [0x2f, 0x61, 0x2f, 0x62, 0x63, 0x64] = pathOf [[0x61], [0x62, 0x63, 0x64]] ∧
      ancestors [[0x61], [0x62, 0x63, 0x64]] = [[0x2f, 0x61]] := by
  refine ⟨?_, by decide, by decide⟩
  have h := @makePathFrom_last (fun _ => true) (fun _ => true) [0x2f, 0x61, 0x2f, 0x62, 0x63, 0x64]
    [0x2f, 0x61, 0x2f, 0x62] [0x63, 0x64] rfl (by decide) (by decide) (by decide) 0
  rw [clduMakePath, if_neg (by decide)]
  exact h

end Hail.Chunkd
