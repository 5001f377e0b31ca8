import Hail.Library.File

/-!
# Changes of one name

`Touches p fs fs'` says that nothing but the name `p` and its file has changed. Such changes compose,
and the contents of every other name are as before.
-/
namespace Hail.Library.FileSys

variable {Name : Type*} [DecidableEq Name] {p q : Name} {fs fs' fs'' : FileSys Name} {ino : Nat}

/-- The contents of the file of a name. -/
def content (fs : FileSys Name) (p : Name) : Option Bytes :=
  (fs.lookup p).map fun ino => (fs.file ino).data

structure Touches (p : Name) (fs fs' : FileSys Name) : Prop where
  lookup : ∀ q, q ≠ p → fs'.lookup q = fs.lookup q
  file : ∀ q, q ≠ p → ∀ ino, fs.lookup q = some ino → fs'.file ino = fs.file ino

theorem Touches.refl (p : Name) (fs : FileSys Name) : Touches p fs fs :=
  ⟨fun _ _ => rfl, fun _ _ _ _ => rfl⟩

theorem Touches.trans (h : Touches p fs fs') (h' : Touches p fs' fs'') : Touches p fs fs'' where
  lookup q hq := (h'.lookup q hq).trans (h.lookup q hq)
  file q hq ino hino := (h'.file q hq ino ((h.lookup q hq).trans hino)).trans (h.file q hq ino hino)

theorem Touches.content (h : Touches p fs fs') (hq : q ≠ p) : fs'.content q = fs.content q := by
  unfold FileSys.content
  rw [h.lookup q hq]
  cases hl : fs.lookup q with
  | none => rfl
  | some ino => simp only [Option.map_some, h.file q hq ino hl]

theorem mem_of_lookup (h : fs.lookup p = some ino) : (p, ino) ∈ fs.dir.rows := by
  obtain ⟨x, hx, rfl⟩ := Option.map_eq_some_iff.mp h
  obtain ⟨hmem, rfl⟩ := Table.mem_get.mp hx
  exact hmem

/-- A file has one name at most. -/
theorem lookup_inj (h : fs.lookup p = some ino) (h' : fs.lookup q = some ino) : p = q := by
  have heq := List.inj_on_of_nodup_map fs.ino_nodup (mem_of_lookup h) (mem_of_lookup h') rfl
  exact congrArg Prod.fst heq

theorem lookup_creat_of_ne (h : q ≠ p) (now : Nat) : (fs.creat p now).lookup q = fs.lookup q := by
  unfold lookup creat
  rw [Table.get_put_of_ne h]

theorem touches_creat (now : Nat) : Touches p fs (fs.creat p now) where
  lookup q hq := lookup_creat_of_ne hq now
  file q _ ino hino := by
    have hlt := fs.ino_lt _ (mem_of_lookup hino)
    exact Function.update_of_ne (Nat.ne_of_lt hlt) _ _

theorem touches_write (h : fs.lookup p = some ino) (pos : Nat) (bs : Bytes) (now : Nat) :
    Touches p fs (fs.write ino pos bs now) where
  lookup _ _ := rfl
  file q hq j hj := by
    have hne : j ≠ ino := by
      rintro rfl
      exact hq (lookup_inj hj h)
    exact Function.update_of_ne hne _ _

theorem content_of_lookup (h : fs.lookup p = some ino) : fs.content p = some (fs.file ino).data := by
  rw [content, h, Option.map_some]

theorem content_eq_none (h : fs.lookup p = none) : fs.content p = none := by
  rw [content, h, Option.map_none]

theorem lookup_of_content {bs : Bytes} (h : fs.content p = some bs) :
    ∃ ino, fs.lookup p = some ino ∧ (fs.file ino).data = bs :=
  Option.map_eq_some_iff.mp h

theorem lookup_unlink (fs : FileSys Name) (p q : Name) :
    (fs.unlink p).lookup q = if q = p then none else fs.lookup q := by
  unfold lookup unlink
  rw [Table.get_del]
  split <;> rfl

theorem content_unlink (fs : FileSys Name) (p : Name) : (fs.unlink p).content p = none :=
  content_eq_none (by rw [lookup_unlink, if_pos rfl])

theorem touches_unlink (fs : FileSys Name) (p : Name) : Touches p fs (fs.unlink p) where
  lookup q hq := by rw [lookup_unlink, if_neg hq]
  file _ _ _ _ := rfl

end Hail.Library.FileSys
