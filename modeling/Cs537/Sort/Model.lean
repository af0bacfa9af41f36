import Cs537.Lib.Bytes

/-!
# `P1/Linux/fastsort.c`

The program allocates as many bytes as the input file has, loads the file record by
record, sorts the records with `qsort` and writes them out.

The loading loop takes whatever `read` returns for a whole record: it copies the
temporary record into the next 100 bytes of the allocated space, also when `read` has
filled only a part of it, and whether these bytes are there or not. So the model keeps
the list of the records stored, and the offset of each is 100 times its index.

`count` is an `int`, and its value decides how many records are sorted and written.
-/

namespace Cs537.Sort

open Lib

/-- `rec_t`: an unsigned key and 24 more words. -/
structure Rec where
  bytes : List UInt8
  size : bytes.length = 100
deriving DecidableEq

/-- `key`. -/
def Rec.key (r : Rec) : UInt32 := UInt32.ofNat (decodeNat (r.bytes.take 4))

/-- `compare`: a difference of unsigned keys, returned as an `int`. -/
def compare (p1 p2 : Rec) : Int32 := (p1.key - p2.key).toInt32

/-! ## Loading -/

theorem length_fill {bs : List UInt8} (r : Rec) (h : bs.length ≤ 100) :
    (bs ++ r.bytes.drop bs.length).length = 100 := by
  have hr := r.size
  rw [List.length_append, List.length_drop]
  omega

/-- The first bytes of `r` are overwritten, the others stay. -/
def Rec.fill (r : Rec) (bs : List UInt8) (h : bs.length ≤ 100) : Rec :=
  ⟨bs ++ r.bytes.drop bs.length, length_fill r h⟩

structure Loading where
  /-- What is left of the input file. -/
  rest : List UInt8
  temp : Rec
  /-- The records stored from `base` on. -/
  stored : List Rec
  count : Int32

theorem length_take_min (n : Nat) (bs : List UInt8) : (bs.take (min n 100)).length ≤ 100 := by
  rw [List.length_take]
  omega

/-- One round of the loop, in which `read` returns `n`. -/
def Loading.round (s : Loading) (n : Nat) : Loading :=
  let temp := s.temp.fill (s.rest.take (min n 100)) (length_take_min n s.rest)
  { rest := s.rest.drop (min n 100)
    temp := temp
    stored := s.stored ++ [temp]
    count := s.count + 1 }

/-- The loop, with what `read` returns until the end of the file; `temp` is uninitialised. -/
def load (file : List UInt8) (temp : Rec) (returns : List Nat) : Loading :=
  returns.foldl Loading.round ⟨file, temp, [], 0⟩

/-- What `read` may return for a file of `n` bytes: at least one byte, at most a record. -/
def Legal (n : Nat) (returns : List Nat) : Prop := (∀ k ∈ returns, 1 ≤ k ∧ k ≤ 100) ∧ returns.sum = n

/-! ## Sorting and writing -/

/-- The array of the first `count` records. -/
def Loading.array (s : Loading) : List Rec := s.stored.take s.count.toInt.toNat

/-- The output file. -/
def fastsort (qsort : (Rec → Rec → Int32) → List Rec → List Rec) (file : List UInt8) (temp : Rec)
    (returns : List Nat) : List UInt8 :=
  (qsort compare (load file temp returns).array).flatMap Rec.bytes

/-! ## What `qsort` does -/

/-- `compar` orders the records of `l`: its sign says which of two comes first. -/
structure TotalPreorderOn (compar : Rec → Rec → Int32) (l : List Rec) : Prop where
  total : ∀ a ∈ l, ∀ b ∈ l, compar a b ≤ 0 ∨ compar b a ≤ 0
  trans : ∀ a ∈ l, ∀ b ∈ l, ∀ c ∈ l, compar a b ≤ 0 → compar b c ≤ 0 → compar a c ≤ 0
  sign : ∀ a ∈ l, ∀ b ∈ l, compar a b < 0 ↔ 0 < compar b a

/-- It rearranges the array, in any case. -/
def Rearranges (qsort : (Rec → Rec → Int32) → List Rec → List Rec) : Prop :=
  ∀ compar l, (qsort compar l).Perm l

/-- And into the order of `compar`, if that is an order. -/
def Orders (qsort : (Rec → Rec → Int32) → List Rec → List Rec) : Prop :=
  ∀ compar l, TotalPreorderOn compar l →
    (qsort compar l).Perm l ∧ (qsort compar l).Pairwise fun a b => compar a b ≤ 0

/-- A `qsort`: merge sort. -/
def mergeSort (compar : Rec → Rec → Int32) (l : List Rec) : List Rec :=
  (l.attach.mergeSort fun a b => decide (compar a.1 b.1 ≤ 0)).map Subtype.val

theorem mergeSort_rearranges : Rearranges mergeSort := by
  intro compar l
  have hperm := (List.mergeSort_perm l.attach fun a b => decide (compar a.1 b.1 ≤ 0)).map Subtype.val
  rw [List.attach_map_subtype_val] at hperm
  exact hperm

theorem mergeSort_orders : Orders mergeSort := by
  intro compar l hc
  refine ⟨mergeSort_rearranges compar l, ?_⟩
  rw [mergeSort, List.pairwise_map]
  refine (List.pairwise_mergeSort ?_ ?_ l.attach).imp fun h => of_decide_eq_true h
  · intro a b c hab hbc
    exact decide_eq_true (hc.trans a.1 a.2 b.1 b.2 c.1 c.2 (of_decide_eq_true hab) (of_decide_eq_true hbc))
  · intro a b
    rw [Bool.or_eq_true, decide_eq_true_eq, decide_eq_true_eq]
    exact hc.total a.1 a.2 b.1 b.2

end Cs537.Sort
