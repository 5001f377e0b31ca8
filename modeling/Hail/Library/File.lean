import Hail.Library.Bytes
import Hail.Library.Table

/-!
# Files

The contents of a file, written at offsets, and a directory of files. A file keeps its contents under
its inode number when its name is removed, so a descriptor still reads it.
-/
namespace Hail.Library

/-- The contents with `bs` written at `pos`. A gap before `pos` is filled with zeros. -/
def writeAt (data : Bytes) (pos : Nat) (bs : Bytes) : Bytes :=
  if bs = [] then data
  else data.take pos ++ List.replicate (pos - data.length) 0 ++ bs ++ data.drop (pos + bs.length)

/-- What lies behind an offset grows with writes at its end. -/
theorem drop_writeAt {data d : Bytes} {ofs : Nat} (h : data.drop ofs = d) (bs : Bytes) :
    (writeAt data (ofs + d.length) bs).drop ofs = d ++ bs := by
  unfold writeAt
  split
  · next hbs => rw [hbs, h, List.append_nil]
  · have hlen : data.length - ofs = d.length := by rw [← h, List.length_drop]
    have htake : data.take (ofs + d.length) = data := List.take_of_length_le (by omega)
    have hend : data.drop (ofs + d.length + bs.length) = [] := List.drop_eq_nil_of_le (by omega)
    rw [htake, hend, List.append_nil, List.append_assoc, List.drop_append, h]
    congr 1
    rw [List.drop_append_of_le_length (by simp; omega), List.drop_eq_nil_of_le (by simp; omega),
      List.nil_append]

theorem writeAt_zero {hdr : Bytes} (h : hdr ≠ []) (data : Bytes) :
    writeAt data 0 hdr = hdr ++ data.drop hdr.length := by
  simp [writeAt, h]

/-- `mtime` is the time of the last change. -/
structure File where
  data : Bytes
  mtime : Nat
  deriving DecidableEq

/-- A directory of names, and the files by inode number. -/
structure FileSys (Name : Type*) where
  dir : Table (Prod.fst : Name × Nat → Name)
  file : Nat → File
  next : Nat
  ino_nodup : (dir.rows.map Prod.snd).Nodup
  ino_lt : ∀ x ∈ dir.rows, x.2 < next

namespace FileSys

variable {Name : Type*}

def write (fs : FileSys Name) (ino pos : Nat) (bs : Bytes) (now : Nat) : FileSys Name :=
  { fs with file := Function.update fs.file ino ⟨writeAt (fs.file ino).data pos bs, now⟩ }

def read (fs : FileSys Name) (ino pos len : Nat) : Bytes := ((fs.file ino).data.drop pos).take len

@[simp] theorem data_write (fs : FileSys Name) (ino pos : Nat) (bs : Bytes) (now : Nat) :
    ((fs.write ino pos bs now).file ino).data = writeAt (fs.file ino).data pos bs := by
  simp [write]

variable [DecidableEq Name]

def lookup (fs : FileSys Name) (p : Name) : Option Nat := (fs.dir.get p).map Prod.snd

theorem mem_dir_creat {fs : FileSys Name} {p : Name} {x : Name × Nat}
    (h : x ∈ (fs.dir.put (fun _ _ => true) (p, fs.next)).rows) :
    x = (p, fs.next) ∨ x ∈ fs.dir.rows := by
  rw [Table.mem_put] at h
  exact h.imp id And.left

/-- A new empty file. -/
def creat (fs : FileSys Name) (p : Name) (now : Nat) : FileSys Name where
  dir := fs.dir.put (fun _ _ => true) (p, fs.next)
  file := Function.update fs.file fs.next ⟨[], now⟩
  next := fs.next + 1
  ino_nodup := by
    have hperm := (insertBy_perm (fun _ _ => true) (p, fs.next) (fs.dir.del p).rows).map Prod.snd
    rw [Table.put, hperm.nodup_iff, List.map_cons, List.nodup_cons]
    refine ⟨fun hm => ?_, fs.ino_nodup.sublist (List.filter_sublist.map Prod.snd)⟩
    obtain ⟨x, hx, he⟩ := List.mem_map.mp hm
    exact Nat.ne_of_lt (fs.ino_lt x (Table.mem_del.mp hx).1) he
  ino_lt x hx := by
    rcases mem_dir_creat hx with rfl | hx
    · exact Nat.lt_succ_self _
    · exact Nat.lt_succ_of_lt (fs.ino_lt x hx)

def unlink (fs : FileSys Name) (p : Name) : FileSys Name where
  dir := fs.dir.del p
  file := fs.file
  next := fs.next
  ino_nodup := fs.ino_nodup.sublist (List.filter_sublist.map Prod.snd)
  ino_lt x hx := fs.ino_lt x (Table.mem_del.mp hx).1

@[simp] theorem lookup_creat (fs : FileSys Name) (p : Name) (now : Nat) :
    (fs.creat p now).lookup p = some fs.next := by
  have h : (fs.dir.put (fun _ _ => true) (p, fs.next)).get p = some (p, fs.next) :=
    Table.get_put_self
  simp [lookup, creat, h]

@[simp] theorem lookup_write (fs : FileSys Name) (ino pos : Nat) (bs : Bytes) (now : Nat) (p : Name) :
    (fs.write ino pos bs now).lookup p = fs.lookup p := rfl

@[simp] theorem data_creat (fs : FileSys Name) (p : Name) (now : Nat) :
    ((fs.creat p now).file fs.next).data = [] := by
  simp [creat]

end FileSys
end Hail.Library
