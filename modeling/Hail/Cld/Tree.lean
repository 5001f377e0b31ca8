import Hail.Cld.Path
import Mathlib.Logic.Function.Basic

/-!
# The namespace as a tree

The namespace seen as what numbers stand for: `node i` is the inode with number `i`, if there is
one, and `content i` its data. `Tree` says that every node but the root is in a directory and that
directories list what is in them. Writing to a file, adding a node to a directory and removing one
that is not a directory with something in it keep it.
-/
namespace Hail.Cld

open Library

structure Node where
  name : Bytes
  isDir : Bool
  deriving DecidableEq, Repr

/-- The node is the entry `base` of the directory named `dir`. -/
def Node.IsIn (nd : Node) (dir base : Bytes) : Prop :=
  nd.name ≠ [slash] ∧ pathnameParse nd.name = ⟨dir, base⟩

/-- The names listed are those of the nodes in the directory, each listed once. -/
structure Lists (node : ℕ → Option Node) (dir : Bytes) (names : List Bytes) : Prop where
  nodup : names.Nodup
  mem : ∀ b, b ∈ names ↔ ∃ i nd, node i = some nd ∧ nd.IsIn dir b

structure Tree (node : ℕ → Option Node) (content : ℕ → Bytes) : Prop where
  root : ∃ i, node i = some ⟨[slash], true⟩
  valid : ∀ i nd, node i = some nd → validInodeName nd.name = true ∧ nd.name.length < 65536
  unique : ∀ i j nd nd', node i = some nd → node j = some nd' → nd.name = nd'.name → i = j
  parent : ∀ i nd, node i = some nd → nd.name ≠ [slash] →
    ∃ j, node j = some ⟨(pathnameParse nd.name).dir, true⟩
  entries : ∀ i dir, node i = some ⟨dir, true⟩ →
    ∃ names, Lists node dir names ∧ content i = dirdataOf names
  unused : ∀ i, node i = none → content i = []

section

variable {node : ℕ → Option Node} {content : ℕ → Bytes}

theorem Tree.base_length (h : Tree node content) {i : ℕ} {nd : Node} (hi : node i = some nd)
    {dir base : Bytes} (hin : nd.IsIn dir base) : base.length < 65536 := by
  obtain ⟨hv, hl⟩ := h.valid i nd hi
  have hb := pathnameParse_base_length hv hin.1
  rw [hin.2] at hb
  exact hb.trans hl

theorem Tree.names_length (h : Tree node content) {dir : Bytes} {names : List Bytes}
    (hn : Lists node dir names) : ∀ x ∈ names, x.length < 65536 := by
  intro x hx
  obtain ⟨i, nd, hi, hin⟩ := (hn.mem x).mp hx
  exact h.base_length hi hin

/-- The entry of a directory is one node. -/
theorem Tree.eq_of_isIn (h : Tree node content) {i j : ℕ} {nd nd' : Node} (hi : node i = some nd)
    (hj : node j = some nd') {dir base : Bytes} (hin : nd.IsIn dir base)
    (hin' : nd'.IsIn dir base) : i = j := by
  refine h.unique i j nd nd' hi hj ?_
  exact pathnameParse_inj (h.valid i nd hi).1 (h.valid j nd' hj).1 hin.1 hin'.1
    (hin.2.trans hin'.2.symm)

theorem Tree.write (h : Tree node content) {i : ℕ} {nd : Node} (hi : node i = some nd)
    (hd : nd.isDir = false) (data : Bytes) : Tree node (Function.update content i data) where
  root := h.root
  valid := h.valid
  unique := h.unique
  parent := h.parent
  entries j dir hj := by
    have hne : j ≠ i := by
      rintro rfl
      rw [hi] at hj
      cases hj
      cases hd
    rw [Function.update_of_ne hne]
    exact h.entries j dir hj
  unused j hj := by
    have hne : j ≠ i := by
      rintro rfl
      simp [hi] at hj
    rw [Function.update_of_ne hne]
    exact h.unused j hj

/-! ## Adding a node -/

/-- What is in the directories when a node is added. -/
theorem Lists.link {names : List Bytes} {dir : Bytes} (h : Lists node dir names) {i : ℕ} {nd : Node}
    (hi : node i = none) (hne : ∀ b, ¬ nd.IsIn dir b) :
    Lists (Function.update node i (some nd)) dir names where
  nodup := h.nodup
  mem b := by
    rw [h.mem b]
    constructor
    · rintro ⟨j, nd', hj, hin⟩
      have hji : j ≠ i := by
        rintro rfl
        simp [hi] at hj
      exact ⟨j, nd', by rwa [Function.update_of_ne hji], hin⟩
    · rintro ⟨j, nd', hj, hin⟩
      by_cases hji : j = i
      · subst hji
        rw [Function.update_self] at hj
        cases hj
        exact absurd hin (hne b)
      · exact ⟨j, nd', by rwa [Function.update_of_ne hji] at hj, hin⟩

theorem Lists.append {names : List Bytes} {dir base : Bytes} (h : Lists node dir names) {i : ℕ}
    {nd : Node} (hi : node i = none) (hin : nd.IsIn dir base) (hnew : base ∉ names) :
    Lists (Function.update node i (some nd)) dir (names ++ [base]) where
  nodup := by
    refine List.nodup_append.mpr ⟨h.nodup, List.nodup_singleton base, ?_⟩
    rintro a ha b hb rfl
    exact hnew (List.mem_singleton.mp hb ▸ ha)
  mem b := by
    rw [List.mem_append, List.mem_singleton, h.mem b]
    constructor
    · rintro (⟨j, nd', hj, hb⟩ | rfl)
      · have hji : j ≠ i := by
          rintro rfl
          simp [hi] at hj
        exact ⟨j, nd', by rwa [Function.update_of_ne hji], hb⟩
      · exact ⟨i, nd, Function.update_self .., hin⟩
    · rintro ⟨j, nd', hj, hb⟩
      by_cases hji : j = i
      · subst hji
        rw [Function.update_self] at hj
        cases hj
        have heq := hin.2.symm.trans hb.2
        exact .inr (congrArg PathnameInfo.base heq).symm
      · exact .inl ⟨j, nd', by rwa [Function.update_of_ne hji] at hj, hb⟩

/-- A node is added to a directory. -/
theorem Tree.link (h : Tree node content) {i p : ℕ} {nd : Node} (hi : node i = none)
    (hv : validInodeName nd.name = true) (hl : nd.name.length < 65536) (hr : nd.name ≠ [slash])
    (habs : ∀ j nd', node j = some nd' → nd'.name ≠ nd.name)
    (hp : node p = some ⟨(pathnameParse nd.name).dir, true⟩) :
    Tree (Function.update node i (some nd))
      (Function.update content p (dirdataAppend (content p) (pathnameParse nd.name).base)) := by
  have hpi : p ≠ i := by
    rintro rfl
    simp [hi] at hp
  have hin : nd.IsIn (pathnameParse nd.name).dir (pathnameParse nd.name).base := ⟨hr, rfl⟩
  -- what the new numbers stand for
  have hcase : ∀ j nd', Function.update node i (some nd) j = some nd' →
      j = i ∧ nd' = nd ∨ j ≠ i ∧ node j = some nd' := by
    intro j nd' hj
    by_cases hji : j = i
    · subst hji
      rw [Function.update_self] at hj
      cases hj
      exact .inl ⟨rfl, rfl⟩
    · exact .inr ⟨hji, by rwa [Function.update_of_ne hji] at hj⟩
  have hkeep : ∀ j nd', node j = some nd' → Function.update node i (some nd) j = some nd' := by
    intro j nd' hj
    rw [Function.update_of_ne, hj]
    rintro rfl
    simp [hi] at hj
  constructor
  case root =>
    obtain ⟨r, hroot⟩ := h.root
    exact ⟨r, hkeep r _ hroot⟩
  case valid =>
    intro j nd' hj
    rcases hcase j nd' hj with ⟨-, rfl⟩ | ⟨-, hj⟩
    · exact ⟨hv, hl⟩
    · exact h.valid j nd' hj
  case unique =>
    intro j k a b hj hk hab
    rcases hcase j a hj with ⟨hji, ha⟩ | ⟨-, hj'⟩ <;> rcases hcase k b hk with ⟨hki, hb⟩ | ⟨-, hk'⟩
    · rw [hji, hki]
    · exact absurd (hab.symm.trans (by rw [ha])) (habs k b hk')
    · exact absurd (hab.trans (by rw [hb])) (habs j a hj')
    · exact h.unique j k a b hj' hk' hab
  case parent =>
    intro j nd' hj hne
    rcases hcase j nd' hj with ⟨-, rfl⟩ | ⟨-, hj⟩
    · exact ⟨p, hkeep p _ hp⟩
    · obtain ⟨k, hk⟩ := h.parent j nd' hj hne
      exact ⟨k, hkeep k _ hk⟩
  case entries =>
    intro j dir hj
    rcases hcase j _ hj with ⟨rfl, hnd⟩ | ⟨-, hj⟩
    · -- a new directory is empty: nothing of the old tree is in it, and it is not in itself
      refine ⟨[], ⟨List.nodup_nil, fun b => ?_⟩, ?_⟩
      · simp only [List.not_mem_nil, false_iff]
        rintro ⟨k, nd', hk, hkin⟩
        have hdir : nd.name = dir := by rw [← hnd]
        rcases hcase k nd' hk with ⟨-, rfl⟩ | ⟨-, hk⟩
        · exact pathnameParse_dir_ne hv hr (by rw [hkin.2, hdir])
        · obtain ⟨q, hq⟩ := h.parent k nd' hk hkin.1
          exact habs q _ hq (by rw [hkin.2, hdir])
      · rw [Function.update_of_ne (Ne.symm hpi), h.unused j hi]
        rfl
    · obtain ⟨names, hlist, hcont⟩ := h.entries j dir hj
      by_cases hjp : j = p
      · subst hjp
        rw [hj] at hp
        cases hp
        refine ⟨names ++ [(pathnameParse nd.name).base], hlist.append hi hin ?_, ?_⟩
        · intro hmem
          obtain ⟨k, nd', hk, hkin⟩ := (hlist.mem _).mp hmem
          exact habs k nd' hk (pathnameParse_inj (h.valid k nd' hk).1 hv hkin.1 hr hkin.2)
        · rw [Function.update_self, hcont, dirdataAppend_dirdataOf]
      · refine ⟨names, hlist.link hi ?_, by rw [Function.update_of_ne hjp, hcont]⟩
        intro b hb
        have hdir : (pathnameParse nd.name).dir = dir := by rw [hb.2]
        exact hjp (h.unique j p _ _ hj hp hdir.symm)
  case unused =>
    intro j hj
    have hji : j ≠ i := by
      rintro rfl
      simp at hj
    have hjp : j ≠ p := by
      rintro rfl
      simp [hkeep j _ hp] at hj
    rw [Function.update_of_ne hjp]
    rw [Function.update_of_ne hji] at hj
    exact h.unused j hj

/-! ## Removing a node -/

theorem Lists.unlink {names : List Bytes} {dir : Bytes} (h : Lists node dir names) {i : ℕ}
    {nd : Node} (hi : node i = some nd) (hne : ∀ b, ¬ nd.IsIn dir b) :
    Lists (Function.update node i none) dir names where
  nodup := h.nodup
  mem b := by
    rw [h.mem b]
    constructor
    · rintro ⟨j, nd', hj, hin⟩
      have hji : j ≠ i := by
        rintro rfl
        rw [hi] at hj
        cases hj
        exact hne b hin
      exact ⟨j, nd', by rwa [Function.update_of_ne hji], hin⟩
    · rintro ⟨j, nd', hj, hin⟩
      have hji : j ≠ i := by
        rintro rfl
        simp at hj
      exact ⟨j, nd', by rwa [Function.update_of_ne hji] at hj, hin⟩

/-- The entry removed is the only one of the node. -/
theorem Lists.remove (ht : Tree node content) {pre post : List Bytes} {dir base : Bytes}
    (h : Lists node dir (pre ++ base :: post)) {i : ℕ} {nd : Node} (hi : node i = some nd)
    (hin : nd.IsIn dir base) : Lists (Function.update node i none) dir (pre ++ post) where
  nodup := h.nodup.sublist ((List.sublist_cons_self base post).append_left pre)
  mem b := by
    have hmem : b ∈ pre ++ post ↔ b ∈ pre ++ base :: post ∧ b ≠ base := by
      have hnd := h.nodup
      rw [List.nodup_middle, List.nodup_cons] at hnd
      grind
    rw [hmem, h.mem b]
    constructor
    · rintro ⟨⟨j, nd', hj, hb⟩, hne⟩
      have hji : j ≠ i := by
        rintro rfl
        rw [hi] at hj
        cases hj
        have heq := hin.2.symm.trans hb.2
        exact hne (congrArg PathnameInfo.base heq).symm
      exact ⟨j, nd', by rwa [Function.update_of_ne hji], hb⟩
    · rintro ⟨j, nd', hj, hb⟩
      have hji : j ≠ i := by
        rintro rfl
        simp at hj
      rw [Function.update_of_ne hji] at hj
      refine ⟨⟨j, nd', hj, hb⟩, ?_⟩
      rintro rfl
      exact hji (ht.eq_of_isIn hj hi hb hin)

/-- A node is removed from its directory, where its entry stands below `2 ^ 31` bytes. -/
theorem Tree.unlink (h : Tree node content) {i p : ℕ} {nd : Node} {data : Bytes}
    (hi : node i = some nd) (hr : nd.name ≠ [slash])
    (hp : node p = some ⟨(pathnameParse nd.name).dir, true⟩)
    (hempty : nd.isDir = true → content i = [])
    (hpos : ∀ pos len, direntFind (content p) (pathnameParse nd.name).base = .found pos len →
      pos < 2 ^ 31)
    (hdel : dirdataDelete (content p) (pathnameParse nd.name).base = some data) :
    Tree (Function.update node i none)
      (Function.update (Function.update content i []) p data) := by
  have hin : nd.IsIn (pathnameParse nd.name).dir (pathnameParse nd.name).base := ⟨hr, rfl⟩
  have hpi : p ≠ i := by
    rintro rfl
    rw [hi] at hp
    exact pathnameParse_dir_ne (h.valid p nd hi).1 hr
      (congrArg Node.name (Option.some.inj hp)).symm
  have hold : ∀ j nd', Function.update node i none j = some nd' → j ≠ i ∧ node j = some nd' := by
    intro j nd' hj
    have hji : j ≠ i := by
      rintro rfl
      simp at hj
    exact ⟨hji, by rwa [Function.update_of_ne hji] at hj⟩
  -- nothing is in what is removed
  have hchild : ∀ j nd', node j = some nd' → nd'.name ≠ [slash] →
      (pathnameParse nd'.name).dir ≠ nd.name := by
    intro j nd' hj hne he
    obtain ⟨k, hk⟩ := h.parent j nd' hj hne
    obtain rfl := h.unique k i _ _ hk hi he
    rw [hi] at hk
    obtain rfl := Option.some.inj hk
    obtain ⟨names, hlist, hcont⟩ := h.entries k _ hi
    have hb : (pathnameParse nd'.name).base ∈ names := (hlist.mem _).mpr ⟨j, nd', hj, hne, rfl⟩
    rw [hempty rfl] at hcont
    obtain ⟨x, xs, rfl⟩ := List.exists_cons_of_ne_nil (List.ne_nil_of_mem hb)
    have hlen := congrArg List.length hcont
    have hx := direntRec_length_pos x
    simp only [dirdataOf, List.flatMap_cons, List.length_append, List.length_nil] at hlen
    omega
  constructor
  case root =>
    obtain ⟨r, hroot⟩ := h.root
    refine ⟨r, ?_⟩
    rwa [Function.update_of_ne]
    rintro rfl
    rw [hi] at hroot
    cases hroot
    exact hr rfl
  case valid => exact fun j nd' hj => h.valid j nd' (hold j nd' hj).2
  case unique =>
    exact fun j k a b hj hk => h.unique j k a b (hold j a hj).2 (hold k b hk).2
  case parent =>
    intro j nd' hj hne
    obtain ⟨hji, hj'⟩ := hold j nd' hj
    obtain ⟨k, hk⟩ := h.parent j nd' hj' hne
    refine ⟨k, ?_⟩
    rwa [Function.update_of_ne]
    rintro rfl
    rw [hi] at hk
    exact hchild j nd' hj' hne (congrArg Node.name (Option.some.inj hk)).symm
  case entries =>
    intro j dir hj
    obtain ⟨hji, hj⟩ := hold j _ hj
    obtain ⟨names, hlist, hcont⟩ := h.entries j dir hj
    by_cases hjp : j = p
    · subst hjp
      rw [hj] at hp
      obtain rfl : dir = (pathnameParse nd.name).dir := by
        simpa using Option.some.inj hp
      obtain ⟨pre, post, rfl⟩ := List.append_of_mem ((hlist.mem _).mpr ⟨i, nd, hi, hin⟩)
      have hlen := h.names_length hlist
      have hpre : (pathnameParse nd.name).base ∉ pre := by
        have hnd := hlist.nodup
        rw [List.nodup_middle, List.nodup_cons] at hnd
        exact fun hm => hnd.1 (List.mem_append_left post hm)
      have hfind := direntFind_dirdataOf hlen hpre
      rw [← hcont] at hfind
      rw [hcont, dirdataDelete_dirdataOf hlen hpre (hpos _ _ hfind)] at hdel
      refine ⟨pre ++ post, Lists.remove h hlist hi hin, ?_⟩
      rw [Function.update_self, Option.some.inj hdel]
    · refine ⟨names, hlist.unlink hi ?_, ?_⟩
      · intro b hb
        have hdir : (pathnameParse nd.name).dir = dir := by rw [hb.2]
        exact hjp (h.unique j p _ _ hj hp hdir.symm)
      · rw [Function.update_of_ne hjp, Function.update_of_ne hji, hcont]
  case unused =>
    intro j hj
    by_cases hji : j = i
    · rw [hji, Function.update_of_ne (Ne.symm hpi), Function.update_self]
    · have hjp : j ≠ p := by
        rintro rfl
        rw [Function.update_of_ne hji, hp] at hj
        cases hj
      rw [Function.update_of_ne hji] at hj
      rw [Function.update_of_ne hjp, Function.update_of_ne hji, h.unused j hj]

end

end Hail.Cld
