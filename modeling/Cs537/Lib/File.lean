import Cs537.Lib.Bytes

/-!
# Files as POSIX sees them

A file is a byte store with a length. Reading stops at the end of the file;
writing past the end moves it, and the gap in between reads as zeros.

A crash is a list of single bytes landing on top of an older file. All that is
ever needed about it is that bytes below every landing keep their value.
-/

namespace Cs537.Lib

/-- The bytes of a file and how many of them there are. -/
structure File where
  data : Store
  len : Nat

namespace File

/-- What `open` with `O_CREAT` makes. -/
def empty : File := ⟨fun _ => 0, 0⟩

/-- The bytes a read of `n` at `off` returns: fewer than `n` at the end of the file. -/
def pread (f : File) (off n : Nat) : List UInt8 := load f.data off (min n (f.len - off))

/-- Write `bs` at `off`. -/
def pwrite (f : File) (off : Nat) (bs : List UInt8) : File :=
  { data := store (fun x => if x < f.len then f.data x else 0) off bs
    len := max f.len (off + bs.length) }

/-- The bytes of `ws` land on the file, one by one. -/
def land (f : File) (ws : List (Nat × UInt8)) : File :=
  ws.foldl (fun g w => g.pwrite w.1 [w.2]) f

/-! ## Reading -/

theorem pread_of_le {f : File} {off n : Nat} (h : off + n ≤ f.len) :
    f.pread off n = load f.data off n := by
  unfold pread; rw [Nat.min_eq_left (by omega)]

/-! ## Writing -/

/-- What was written reads back. -/
theorem load_pwrite_same (f : File) (off : Nat) (bs : List UInt8) :
    load (f.pwrite off bs).data off bs.length = bs :=
  load_store_same _ _ _

/-- A byte of the file that lies below the write keeps its value. -/
theorem pwrite_below {f : File} {off x : Nat} {bs : List UInt8} (hx : x < f.len) (ho : x < off) :
    (f.pwrite off bs).data x = f.data x := by
  show store (fun y => if y < f.len then f.data y else 0) off bs x = f.data x
  rw [store_of_lt ho, if_pos hx]

/-- And so does one that lies above it. -/
theorem pwrite_above {f : File} {off x : Nat} {bs : List UInt8} (hx : x < f.len)
    (ho : off + bs.length ≤ x) : (f.pwrite off bs).data x = f.data x := by
  show store (fun y => if y < f.len then f.data y else 0) off bs x = f.data x
  rw [store_of_le ho, if_pos hx]

/-! ## Crashes -/

theorem len_le_land (ws : List (Nat × UInt8)) (f : File) : f.len ≤ (f.land ws).len := by
  induction ws generalizing f with
  | nil => exact Nat.le_refl _
  | cons w ws ih => exact Nat.le_trans (Nat.le_max_left _ _) (ih (f.pwrite w.1 [w.2]))

/-- Bytes below everything that lands are as before. -/
theorem land_below {b x : Nat} (hxb : x < b) : ∀ (ws : List (Nat × UInt8)) (f : File),
    (∀ w ∈ ws, b ≤ w.1) → x < f.len → (f.land ws).data x = f.data x := by
  intro ws
  induction ws with
  | nil => exact fun _ _ _ => rfl
  | cons w ws ih =>
      intro f hb hx
      have hw : b ≤ w.1 := hb w (List.mem_cons_self ..)
      have hx' : x < (f.pwrite w.1 [w.2]).len := Nat.lt_of_lt_of_le hx (Nat.le_max_left _ _)
      have hrest : ∀ v ∈ ws, b ≤ v.1 := fun v hv => hb v (List.mem_cons_of_mem _ hv)
      show ((f.pwrite w.1 [w.2]).land ws).data x = f.data x
      rw [ih _ hrest hx']
      exact pwrite_below hx (by omega)

/-- Below everything that lands a hole stays a hole. -/
theorem land_hole {b x : Nat} (hxb : x < b) : ∀ (ws : List (Nat × UInt8)) (f : File),
    (∀ w ∈ ws, b ≤ w.1) → f.data x = 0 → (f.land ws).data x = 0 := by
  intro ws
  induction ws with
  | nil => exact fun _ _ hx => hx
  | cons w ws ih =>
      intro f hb hx
      have hw : b ≤ w.1 := hb w (List.mem_cons_self ..)
      refine ih (f.pwrite w.1 [w.2]) (fun v hv => hb v (List.mem_cons_of_mem _ hv)) ?_
      show store (fun y => if y < f.len then f.data y else 0) w.1 [w.2] x = 0
      rw [store_of_lt (by omega), hx, ite_self]

/-- The file reaches as far as what landed. -/
theorem lt_len_land {w : Nat × UInt8} : ∀ (ws : List (Nat × UInt8)) (f : File),
    w ∈ ws → w.1 < (f.land ws).len := by
  intro ws
  induction ws with
  | nil => exact fun _ hw => absurd hw List.not_mem_nil
  | cons v ws ih =>
      intro f hw
      rcases List.mem_cons.mp hw with rfl | hw
      · have hle := len_le_land ws (f.pwrite w.1 [w.2])
        have hput : w.1 + 1 ≤ (f.pwrite w.1 [w.2]).len := Nat.le_max_right _ _
        show w.1 < ((f.pwrite w.1 [w.2]).land ws).len
        omega
      · exact ih (f.pwrite v.1 [v.2]) hw

end File

end Cs537.Lib
