import Cs537.Lib.File
import Cs537.Lib.CInt

/-!
# What `P5/linux/fs.h` puts on the disk

The five records of the image file, as values and as bytes: the checkpoint region,
the inode maps, the inodes and the directory blocks. Every record is an `int` or
two followed by an array, so decoding what was encoded gives the record back
without conditions.

C indexes these arrays with an `int`. `getAt` and `setAt` do the same; an index
outside the array is undefined in C and reads 0 or writes nothing here.
-/

namespace Cs537.Fs

open Lib

/-! ## Arrays indexed by an `int` -/

/-- Blocks of a file and slots of a block are written as numerals. -/
instance neZero_blocks : NeZero 14 := ⟨by decide⟩

instance neZero_slots : NeZero 64 := ⟨by decide⟩

/-- `a[i]`. -/
def getAt {n : Nat} (a : Fin n → Int32) (i : Int32) : Int32 :=
  if h : 0 ≤ i.toInt ∧ i.toInt < n then a ⟨i.toInt.toNat, by omega⟩ else 0

/-- `a[i] = x`. -/
def setAt {n : Nat} (a : Fin n → Int32) (i x : Int32) : Fin n → Int32 :=
  fun j => if i.toInt = j then x else a j

theorem getAt_of_toInt {n : Nat} {a : Fin n → Int32} {i : Int32} {j : Fin n} (h : i.toInt = j) :
    getAt a i = a j := by
  unfold getAt
  rw [dif_pos ⟨by omega, by omega⟩]
  congr 1
  exact Fin.ext (by simp [h])

theorem getAt_setAt_self {n : Nat} {a : Fin n → Int32} {i x : Int32} (h0 : 0 ≤ i.toInt)
    (hn : i.toInt < n) : getAt (setAt a i x) i = x := by
  unfold getAt
  rw [dif_pos ⟨h0, hn⟩]
  exact if_pos (Int.toNat_of_nonneg h0).symm

theorem getAt_setAt_of_ne {n : Nat} {a : Fin n → Int32} {i j x : Int32} (h : i ≠ j) :
    getAt (setAt a i x) j = getAt a j := by
  unfold getAt
  split
  · rename_i hj
    refine if_neg fun hij => h (Int32.toInt_inj.mp ?_)
    exact hij.trans (Int.toNat_of_nonneg hj.1)
  · rfl

/-! ## The records -/

/-- `FS_DIRECTORY`. -/
def fsDirectory : Int32 := 0

/-- `FS_REGULAR_FILE`. -/
def fsRegularFile : Int32 := 1

/-- `BUFFER_SIZE`. -/
def bufferSize : Nat := 4096

/-- `checkPoint`. -/
structure CheckPoint where
  endPtr : Int32
  mapPtrs : Fin 256 → Int32

/-- `iMap`. -/
structure IMap where
  ptr : Fin 16 → Int32

/-- `iNode`. -/
structure INode where
  size : Int32
  type : Int32
  dataPtrs : Fin 14 → Int32

/-- `fs_dir`. -/
structure FsDir where
  name : Fin 60 → UInt8
  pair : Int32

/-- `fs_dir_list`. -/
structure FsDirList where
  list : Fin 64 → FsDir

/-- `stat_t`. -/
structure StatT where
  type : Int32
  size : Int32
deriving DecidableEq

/-! ## As bytes -/

def CheckPoint.encode (cp : CheckPoint) : List UInt8 :=
  encodeInt cp.endPtr ++ encodeArray encodeInt cp.mapPtrs

def CheckPoint.decode (bs : List UInt8) : CheckPoint :=
  ⟨decodeInt (bs.take 4), fun i => decodeInt (chunk 4 (bs.drop 4) i)⟩

def IMap.encode (m : IMap) : List UInt8 := encodeArray encodeInt m.ptr

def IMap.decode (bs : List UInt8) : IMap := ⟨fun i => decodeInt (chunk 4 bs i)⟩

def INode.encode (n : INode) : List UInt8 :=
  encodeInt n.size ++ (encodeInt n.type ++ encodeArray encodeInt n.dataPtrs)

def INode.decode (bs : List UInt8) : INode :=
  ⟨decodeInt (bs.take 4), decodeInt ((bs.drop 4).take 4),
    fun i => decodeInt (chunk 4 ((bs.drop 4).drop 4) i)⟩

def FsDir.encode (d : FsDir) : List UInt8 := List.ofFn d.name ++ encodeInt d.pair

def FsDir.decode (bs : List UInt8) : FsDir := ⟨fun i => bs.getD i 0, decodeInt (bs.drop 60)⟩

def FsDirList.encode (l : FsDirList) : List UInt8 := encodeArray FsDir.encode l.list

def FsDirList.decode (bs : List UInt8) : FsDirList := ⟨fun i => FsDir.decode (chunk 64 bs i)⟩

@[simp] theorem CheckPoint.length_encode (cp : CheckPoint) : cp.encode.length = 1028 := by
  rw [encode, List.length_append, length_encodeArray length_encodeInt, length_encodeInt]

@[simp] theorem IMap.length_encode (m : IMap) : m.encode.length = 64 := by
  rw [encode, length_encodeArray length_encodeInt]

@[simp] theorem INode.length_encode (n : INode) : n.encode.length = 64 := by
  rw [encode, List.length_append, List.length_append, length_encodeArray length_encodeInt,
    length_encodeInt, length_encodeInt]

@[simp] theorem FsDir.length_encode (d : FsDir) : d.encode.length = 64 := by
  rw [encode, List.length_append, List.length_ofFn, length_encodeInt]

@[simp] theorem FsDirList.length_encode (l : FsDirList) : l.encode.length = 4096 := by
  rw [encode, length_encodeArray FsDir.length_encode]

theorem take_encodeInt (x : Int32) (bs : List UInt8) : (encodeInt x ++ bs).take 4 = encodeInt x :=
  List.take_left' (length_encodeInt x)

theorem drop_encodeInt (x : Int32) (bs : List UInt8) : (encodeInt x ++ bs).drop 4 = bs :=
  List.drop_left' (length_encodeInt x)

@[simp] theorem CheckPoint.decode_encode (cp : CheckPoint) : decode cp.encode = cp := by
  rw [decode, encode, take_encodeInt, drop_encodeInt, decodeInt_encodeInt]
  simp only [chunk_encodeArray length_encodeInt, decodeInt_encodeInt]

@[simp] theorem IMap.decode_encode (m : IMap) : decode m.encode = m := by
  rw [decode, encode]
  simp only [chunk_encodeArray length_encodeInt, decodeInt_encodeInt]

@[simp] theorem INode.decode_encode (n : INode) : decode n.encode = n := by
  rw [decode, encode, take_encodeInt, drop_encodeInt, take_encodeInt, drop_encodeInt,
    decodeInt_encodeInt, decodeInt_encodeInt]
  simp only [chunk_encodeArray length_encodeInt, decodeInt_encodeInt]

@[simp] theorem FsDir.decode_encode (d : FsDir) : decode d.encode = d := by
  have hname : (fun i : Fin 60 => d.encode.getD i 0) = d.name := by
    funext i
    rw [encode, List.getD_eq_getElem?_getD,
      List.getElem?_append_left (by rw [List.length_ofFn]; exact i.isLt),
      List.getElem?_ofFn, dif_pos i.isLt]
    rfl
  have hpair : d.encode.drop 60 = encodeInt d.pair := List.drop_left' List.length_ofFn
  rw [decode, hname, hpair, decodeInt_encodeInt]

@[simp] theorem FsDirList.decode_encode (l : FsDirList) : decode l.encode = l := by
  rw [decode, encode]
  simp only [chunk_encodeArray FsDir.length_encode, FsDir.decode_encode]

/-! ## Names -/

/-- A NUL-terminated string, without the NUL. -/
structure CStr where
  chars : List UInt8
  noNul : 0 ∉ chars
deriving DecidableEq

/-- `"."`. -/
def dot : CStr := ⟨[46], by decide⟩

/-- `".."`. -/
def dotdot : CStr := ⟨[46, 46], by decide⟩

/-- `""`. -/
def emptyStr : CStr := ⟨[], by decide⟩

/-- `strncpy(dest, src, 60)`: cut off at 60 bytes, padded with NULs. -/
def strncpy (src : CStr) : Fin 60 → UInt8 := fun i => src.chars.getD i 0

/-- `strncmp(a, b, n)`, where bytes past the end of a list are NULs. -/
def strncmp : List UInt8 → List UInt8 → Nat → Int
  | _, _, 0 => 0
  | a, b, n + 1 =>
      let x := a.headD 0
      let y := b.headD 0
      if x ≠ y then (x.toNat : Int) - y.toNat
      else if x = 0 then 0
      else strncmp a.tail b.tail n

/-- The string a directory entry holds: its bytes up to the first NUL. -/
def FsDir.text (d : FsDir) : List UInt8 := (List.ofFn d.name).takeWhile (· ≠ 0)

theorem strncmp_eq_zero_iff : ∀ (n : Nat) (a b : List UInt8), 0 ∉ a → b.length = n →
    (strncmp a b n = 0 ↔ b.takeWhile (· ≠ 0) = a.take n)
  | 0, a, b, _, hb => by
      rw [List.eq_nil_of_length_eq_zero hb, strncmp, List.take_zero]
      exact ⟨fun _ => rfl, fun _ => rfl⟩
  | n + 1, a, [], _, hb => by simp at hb
  | n + 1, [], y :: b, _, _ => by
      by_cases hy : y = 0
      · subst hy; simp [strncmp]
      · have hpos : y.toNat ≠ 0 := fun h => hy (UInt8.toNat_inj.mp h)
        simp [strncmp, hy, Ne.symm hy]
        exact hpos
  | n + 1, x :: a, y :: b, ha, hb => by
      have hx : x ≠ 0 := fun h => ha (by simp [h])
      have ha' : 0 ∉ a := fun h => ha (List.mem_cons_of_mem _ h)
      have ih := strncmp_eq_zero_iff n a b ha' (by simpa using hb)
      by_cases hxy : x = y
      · subst hxy
        simp [strncmp, hx, ih]
      · have hne : x.toNat ≠ y.toNat := fun h => hxy (UInt8.toNat_inj.mp h)
        have hdiff : (x.toNat : Int) - y.toNat ≠ 0 := by omega
        by_cases hy : y = 0
        · subst hy; simp [strncmp, hx]; exact hne
        · simp [strncmp, hxy, hdiff, hy, Ne.symm hxy]

/-- `strncmp` finds an entry by its text; both sides count 60 bytes only. -/
theorem strncmp_name_iff (name : CStr) (d : FsDir) :
    strncmp name.chars (List.ofFn d.name) 60 = 0 ↔ d.text = name.chars.take 60 :=
  strncmp_eq_zero_iff 60 _ _ name.noNul List.length_ofFn

theorem ofFn_getD (n : Nat) (l : List UInt8) :
    List.ofFn (fun i : Fin n => l.getD i 0) = l.take n ++ List.replicate (n - l.length) 0 := by
  refine List.ext_getElem? fun i => ?_
  rw [List.getElem?_ofFn]
  split
  · rename_i hi
    rcases Nat.lt_or_ge i l.length with hl | hl
    · rw [List.getElem?_append_left (by simp; omega), List.getElem?_take_of_lt hi]
      simp [hl]
    · rw [List.getElem?_append_right (by simp; omega), List.getElem?_replicate,
        if_pos (by simp; omega)]
      simp [hl]
  · rw [List.getElem?_eq_none (by simp; omega)]

/-- The text `strncpy` leaves in an entry. -/
@[simp] theorem text_strncpy (name : CStr) (pair : Int32) :
    FsDir.text ⟨strncpy name, pair⟩ = name.chars.take 60 := by
  have hne : ∀ c ∈ name.chars.take 60, decide (c ≠ 0) = true := by
    intro c hc
    have hmem := List.mem_of_mem_take hc
    exact decide_eq_true fun h => name.noNul (h ▸ hmem)
  show (List.ofFn fun i : Fin 60 => name.chars.getD i 0).takeWhile (fun c => decide (c ≠ 0)) = _
  rw [ofFn_getD, List.takeWhile_append_of_pos hne, List.takeWhile_replicate]
  simp

end Cs537.Fs
