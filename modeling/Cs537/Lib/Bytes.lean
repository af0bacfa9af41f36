import Mathlib.Data.List.OfFn
import Mathlib.Tactic.Ring

/-!
# Byte stores and the representation of C objects

A store is a total map from addresses to bytes. Both the memory an allocator
hands out and the contents of an image file are one of these; what differs is
only who writes to it.

On top of it sits the representation of the C objects that get written: `int` as
four little-endian bytes of a 32-bit word, a pointer as eight, an array as the
concatenation of its elements. The two facts everything above relies on are that
reading a range back after writing it returns what was written, and that a write
leaves every range disjoint from it alone.
-/

namespace Cs537.Lib

/-- A byte-addressed store. -/
abbrev Store := Nat → UInt8

/-- The `n` bytes from `a` on. -/
@[irreducible] def load (m : Store) (a n : Nat) : List UInt8 := (List.range n).map fun i => m (a + i)

/-- Overwrite the bytes from `a` on with `bs`. -/
def store (m : Store) (a : Nat) (bs : List UInt8) : Store :=
  fun x => if a ≤ x then (bs[x - a]?).getD (m x) else m x

/-! ## Loads and stores -/

@[simp] theorem length_load (m : Store) (a n : Nat) : (load m a n).length = n := by
  simp [load]

theorem getElem?_load {m : Store} {a n i : Nat} (h : i < n) :
    (load m a n)[i]? = some (m (a + i)) := by
  simp [load, h]

/-- A load depends only on the bytes it covers. -/
theorem load_congr {m m' : Store} {a n : Nat}
    (h : ∀ x, a ≤ x → x < a + n → m x = m' x) : load m a n = load m' a n := by
  unfold load
  refine List.map_congr_left fun i hi => ?_
  have := List.mem_range.mp hi
  exact h (a + i) (by omega) (by omega)

theorem take_load {m : Store} {a k n : Nat} (h : k ≤ n) : (load m a n).take k = load m a k := by
  unfold load
  rw [← List.map_take, List.take_range, Nat.min_eq_left h]

theorem store_of_lt {m : Store} {a x : Nat} {bs : List UInt8} (h : x < a) :
    store m a bs x = m x := by
  unfold store; rw [if_neg (by omega)]

theorem store_of_le {m : Store} {a x : Nat} {bs : List UInt8} (h : a + bs.length ≤ x) :
    store m a bs x = m x := by
  unfold store
  rw [if_pos (by omega), List.getElem?_eq_none (by omega)]; rfl

/-- A byte outside the written range is untouched. -/
theorem store_outside {m : Store} {a x : Nat} {bs : List UInt8}
    (h : ¬(a ≤ x ∧ x < a + bs.length)) : store m a bs x = m x := by
  rcases Nat.lt_or_ge x a with hx | hx
  · exact store_of_lt hx
  · exact store_of_le (by omega)

theorem load_store_same (m : Store) (a : Nat) (bs : List UInt8) :
    load (store m a bs) a bs.length = bs := by
  refine List.ext_getElem? fun i => ?_
  rcases Nat.lt_or_ge i bs.length with hi | hi
  · rw [getElem?_load hi]
    unfold store
    rw [if_pos (Nat.le_add_right a i), Nat.add_sub_cancel_left, List.getElem?_eq_getElem hi]; rfl
  · rw [List.getElem?_eq_none (by simpa using hi), List.getElem?_eq_none hi]

/-- A load from inside a store. -/
theorem load_store_part {m : Store} {a o n : Nat} {bs : List UInt8} (h : o + n ≤ bs.length) :
    load (store m a bs) (a + o) n = (bs.drop o).take n := by
  refine List.ext_getElem? fun i => ?_
  rcases Nat.lt_or_ge i n with hi | hi
  · have hlt : o + i < bs.length := by omega
    have hget : bs[o + i]? = some bs[o + i] := List.getElem?_eq_getElem hlt
    rw [getElem?_load hi, List.getElem?_take_of_lt hi, List.getElem?_drop]
    unfold store
    rw [if_pos (by omega), show a + o + i - a = o + i by omega, hget]; rfl
  · rw [List.getElem?_eq_none (by rw [length_load]; exact hi),
      List.getElem?_eq_none (by rw [List.length_take]; omega)]

@[simp] theorem store_nil (m : Store) (a : Nat) : store m a [] = m := by
  funext x
  exact store_outside (by rw [List.length_nil]; omega)

/-- Two stores, one after the other, are one. -/
theorem store_append (m : Store) (a : Nat) (bs cs : List UInt8) :
    store (store m a bs) (a + bs.length) cs = store m a (bs ++ cs) := by
  funext x
  rcases Nat.lt_or_ge x (a + bs.length) with hx | hx
  · rw [store_of_lt hx]
    unfold store
    split
    · rw [List.getElem?_append_left (by omega)]
    · rfl
  · rw [store, if_pos hx, store_of_le hx, store, if_pos (by omega), List.getElem?_append_right (by omega),
      Nat.sub_add_eq]

/-- Two loads, one after the other, are one. -/
theorem load_append (m : Store) (a k n : Nat) : load m a k ++ load m (a + k) n = load m a (k + n) := by
  unfold load
  rw [List.range_add, List.map_append, List.map_map]
  refine congrArg _ (List.map_congr_left fun i _ => ?_)
  rw [Function.comp, Nat.add_assoc]

theorem drop_load (m : Store) (a k n : Nat) : (load m a n).drop k = load m (a + k) (n - k) := by
  unfold load
  rw [← List.map_drop, List.range_eq_range', List.drop_range', List.range_eq_range', List.range'_eq_map_range,
    List.map_map, List.range_eq_range']
  refine List.map_congr_left fun i _ => ?_
  rw [Function.comp]
  congr 1
  omega

/-- A store into an array that begins inside it or where it ends. -/
theorem load_store_splice {m : Store} {o n : Nat} (bs : List UInt8) (h : o ≤ n) :
    load (store m o bs) 0 (max n (o + bs.length)) = (load m 0 n).take o ++ bs ++ (load m 0 n).drop (o + bs.length) := by
  have hsplit : max n (o + bs.length) = o + bs.length + (n - (o + bs.length)) := by omega
  rw [hsplit, ← load_append, ← load_append, take_load h, drop_load, Nat.zero_add, Nat.zero_add, load_store_same]
  congr 1
  · congr 1
    exact load_congr fun x _ hx => store_of_lt (by omega)
  · exact load_congr fun x hx _ => store_of_le hx

/-- Storing what is already there changes nothing. -/
theorem store_load (m : Store) (a n : Nat) : store m a (load m a n) = m := by
  funext x
  by_cases hx : a ≤ x ∧ x < a + n
  · unfold store
    rw [if_pos hx.1, getElem?_load (by omega), Nat.add_sub_of_le hx.1]; rfl
  · exact store_outside (by rw [length_load]; exact hx)

/-! ## Little-endian words -/

/-- The low `w` bytes of `n`, least significant first. -/
def encodeNat : Nat → Nat → List UInt8
  | 0, _ => []
  | w + 1, n => UInt8.ofNat n :: encodeNat w (n / 256)

/-- The number a little-endian byte string denotes. -/
def decodeNat : List UInt8 → Nat
  | [] => 0
  | b :: bs => b.toNat + 256 * decodeNat bs

@[simp] theorem length_encodeNat : ∀ (w n : Nat), (encodeNat w n).length = w
  | 0, _ => rfl
  | w + 1, n => by rw [encodeNat, List.length_cons, length_encodeNat w]

theorem decodeNat_encodeNat : ∀ (w n : Nat), decodeNat (encodeNat w n) = n % 256 ^ w
  | 0, n => by simp [encodeNat, decodeNat, Nat.mod_one]
  | w + 1, n => by
      have hb : (UInt8.ofNat n).toNat = n % 256 := UInt8.toNat_ofNat'
      rw [encodeNat, decodeNat, decodeNat_encodeNat w, hb, Nat.pow_succ',
        Nat.mod_mul]

theorem encodeNat_decodeNat : ∀ bs : List UInt8, encodeNat bs.length (decodeNat bs) = bs
  | [] => rfl
  | b :: bs => by
      have hb := b.toNat_lt
      have hlow : UInt8.ofNat (b.toNat + 256 * decodeNat bs) = b := by
        refine UInt8.toNat_inj.mp ?_
        rw [UInt8.toNat_ofNat']
        omega
      have hhigh : (b.toNat + 256 * decodeNat bs) / 256 = decodeNat bs := by omega
      rw [List.length_cons, decodeNat, encodeNat, hlow, hhigh, encodeNat_decodeNat bs]

theorem decodeNat_lt : ∀ bs : List UInt8, decodeNat bs < 256 ^ bs.length
  | [] => by simp [decodeNat]
  | b :: bs => by
      have hb := b.toNat_lt
      have := decodeNat_lt bs
      rw [decodeNat, List.length_cons, Nat.pow_succ]
      omega

/-- An `int` in memory. -/
def encodeInt (x : Int32) : List UInt8 := encodeNat 4 x.toBitVec.toNat

/-- The `int` four bytes denote. -/
def decodeInt (bs : List UInt8) : Int32 := Int32.ofBitVec (BitVec.ofNat 32 (decodeNat bs))

@[simp] theorem length_encodeInt (x : Int32) : (encodeInt x).length = 4 := length_encodeNat 4 _

@[simp] theorem decodeInt_encodeInt (x : Int32) : decodeInt (encodeInt x) = x := by
  have hx : x.toBitVec.toNat % 256 ^ 4 = x.toBitVec.toNat := Nat.mod_eq_of_lt x.toBitVec.isLt
  unfold decodeInt encodeInt
  rw [decodeNat_encodeNat, hx, BitVec.ofNat_toNat, BitVec.setWidth_eq, Int32.ofBitVec_toBitVec]

theorem encodeInt_decodeInt {bs : List UInt8} (h : bs.length = 4) :
    encodeInt (decodeInt bs) = bs := by
  have hlt := decodeNat_lt bs
  rw [h] at hlt
  have hmod : decodeNat bs % 2 ^ 32 = decodeNat bs := Nat.mod_eq_of_lt hlt
  have hround := encodeNat_decodeNat bs
  unfold encodeInt decodeInt
  rw [Int32.toBitVec_ofBitVec, BitVec.toNat_ofNat, hmod]
  rwa [h] at hround

/-- A 64-bit pointer in memory. -/
def encodePtr (p : Nat) : List UInt8 := encodeNat 8 p

@[simp] theorem length_encodePtr (p : Nat) : (encodePtr p).length = 8 := length_encodeNat 8 _

theorem decodeNat_encodePtr {p : Nat} (h : p < 2 ^ 64) : decodeNat (encodePtr p) = p := by
  unfold encodePtr
  rw [decodeNat_encodeNat]
  exact Nat.mod_eq_of_lt h

/-! ## Arrays of fixed-width elements -/

/-- The `i`-th group of `w` bytes. -/
def chunk (w : Nat) (bs : List UInt8) (i : Nat) : List UInt8 := (bs.drop (w * i)).take w

/-- An array in memory: its elements, one after the other. -/
def encodeArray {α : Type} {n : Nat} (enc : α → List UInt8) (f : Fin n → α) : List UInt8 :=
  (List.ofFn f).flatMap enc

theorem length_flatMap_of_width {α : Type} {enc : α → List UInt8} {w : Nat}
    (hw : ∀ x, (enc x).length = w) (l : List α) : (l.flatMap enc).length = w * l.length := by
  induction l with
  | nil => simp
  | cons x xs ih => rw [List.flatMap_cons, List.length_append, hw, ih, List.length_cons]; ring

theorem chunk_flatMap {α : Type} {enc : α → List UInt8} {w : Nat}
    (hw : ∀ x, (enc x).length = w) :
    ∀ (l : List α) (i : Nat) (x : α), l[i]? = some x → chunk w (l.flatMap enc) i = enc x := by
  intro l
  induction l with
  | nil => intro i x h; simp at h
  | cons y ys ih =>
    intro i x h
    cases i with
    | zero =>
        simp only [List.getElem?_cons_zero, Option.some.injEq] at h
        subst h
        simp [chunk, hw]
    | succ i =>
        rw [List.getElem?_cons_succ] at h
        rw [← ih i x h]
        unfold chunk
        have hsplit : w * (i + 1) = (enc y).length + w * i := by rw [hw]; ring
        rw [List.flatMap_cons, hsplit, List.drop_length_add_append]

@[simp] theorem length_encodeArray {α : Type} {n w : Nat} {enc : α → List UInt8}
    (hw : ∀ x, (enc x).length = w) (f : Fin n → α) : (encodeArray enc f).length = w * n := by
  unfold encodeArray; rw [length_flatMap_of_width hw, List.length_ofFn]

/-- Element `i` of an array sits in the `i`-th group of bytes. -/
theorem chunk_encodeArray {α : Type} {n w : Nat} {enc : α → List UInt8}
    (hw : ∀ x, (enc x).length = w) (f : Fin n → α) (i : Fin n) :
    chunk w (encodeArray enc f) i = enc (f i) :=
  chunk_flatMap hw _ _ _ (by simp)

end Cs537.Lib
