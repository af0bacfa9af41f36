import Cs537.Lib.CInt
import Cs537.Sort.Loading

/-!
# Is `compare` an order?

It returns the difference of two unsigned keys as an `int`. The sign of that is right as
long as the keys are less than 2^31 apart. Two keys that are further apart compare the
wrong way round, and with two that are exactly 2^31 apart either comes before the other.

`generate.c` takes its keys from `rand`, which never returns more than 2^31 - 1, so the
files it makes are sorted.
-/

namespace Cs537.Sort

open Lib

variable {a b c r temp : Rec} {recs : List Rec}

/-! ## The comparison -/

/-- The keys are less than 2^31 apart. -/
def Near (a b : Rec) : Prop := a.key.toNat < b.key.toNat + 2 ^ 31 ∧ b.key.toNat < a.key.toNat + 2 ^ 31

theorem toInt_compare (a b : Rec) :
    (compare a b).toInt = ((a.key.toNat : Int) - b.key.toNat).bmod (2 ^ 32) :=
  toInt_toInt32_sub a.key b.key

theorem toInt_compare_of_near (h : Near a b) :
    (compare a b).toInt = (a.key.toNat : Int) - b.key.toNat := by
  obtain ⟨h1, h2⟩ := h
  rw [toInt_compare]
  exact Int.bmod_eq_of_le (by omega) (by omega)

theorem compare_lt_zero_iff (h : Near a b) : compare a b < 0 ↔ a.key < b.key := by
  rw [Int32.lt_iff_toInt_lt, toInt_compare_of_near h, UInt32.lt_iff_toNat_lt, Int32.toInt_zero]
  omega

theorem compare_eq_zero_iff (h : Near a b) : compare a b = 0 ↔ a.key = b.key := by
  rw [← Int32.toInt_inj, toInt_compare_of_near h, ← UInt32.toNat_inj, Int32.toInt_zero]
  omega

theorem compare_le_zero_iff (h : Near a b) : compare a b ≤ 0 ↔ a.key ≤ b.key := by
  rw [Int32.le_iff_toInt_le, toInt_compare_of_near h, UInt32.le_iff_toNat_le, Int32.toInt_zero]
  omega

/-- Of two keys that are far apart the larger one compares as the smaller one. -/
theorem compare_lt_zero_of_far (h : b.key.toNat + 2 ^ 31 ≤ a.key.toNat) : compare a b < 0 := by
  have hlt := a.key.toNat_lt
  rw [Int32.lt_iff_toInt_lt, toInt_compare, Int.bmod_def, Int32.toInt_zero]
  omega

/-- The comparison is an order of the records, and the one of their keys. -/
structure Consistent (l : List Rec) : Prop where
  preorder : TotalPreorderOn compare l
  less : ∀ a ∈ l, ∀ b ∈ l, compare a b < 0 ↔ a.key < b.key
  equal : ∀ a ∈ l, ∀ b ∈ l, compare a b = 0 ↔ a.key = b.key

theorem Near.symm (h : Near a b) : Near b a := ⟨h.2, h.1⟩

theorem consistent_of_near (h : ∀ a ∈ recs, ∀ b ∈ recs, Near a b) : Consistent recs where
  preorder :=
    { total := by
        intro a ha b hb
        rw [compare_le_zero_iff (h a ha b hb), compare_le_zero_iff (h b hb a ha)]
        exact UInt32.le_total ..
      trans := by
        intro a ha b hb c hc
        rw [compare_le_zero_iff (h a ha b hb), compare_le_zero_iff (h b hb c hc),
          compare_le_zero_iff (h a ha c hc)]
        exact UInt32.le_trans
      sign := by
        intro a ha b hb
        rw [Int32.lt_iff_toInt_lt, Int32.lt_iff_toInt_lt, toInt_compare_of_near (h a ha b hb),
          toInt_compare_of_near (h b hb a ha), Int32.toInt_zero]
        omega }
  less a ha b hb := compare_lt_zero_iff (h a ha b hb)
  equal a ha b hb := compare_eq_zero_iff (h a ha b hb)

theorem Consistent.near (h : Consistent recs) : ∀ a ∈ recs, ∀ b ∈ recs, Near a b := by
  have hless : ∀ a ∈ recs, ∀ b ∈ recs, a.key.toNat < b.key.toNat + 2 ^ 31 := by
    intro a ha b hb
    by_contra hfar
    have hlt := (h.less a ha b hb).mp (compare_lt_zero_of_far (by omega))
    rw [UInt32.lt_iff_toNat_lt] at hlt
    omega
  exact fun a ha b hb => ⟨hless a ha b hb, hless b hb a ha⟩

/-! ## Loading whole records -/

theorem foldl_round_count (returns : List Nat) (s : Loading) :
    (returns.foldl Loading.round s).count = s.count + Int32.ofNat returns.length := by
  induction returns generalizing s with
  | nil => exact (Int32.add_zero _).symm
  | cons n returns ih =>
      rw [List.foldl_cons, ih, Loading.round, List.length_cons, Int32.ofNat_add, Int32.add_assoc]
      exact congrArg (s.count + ·) (Int32.add_comm ..)

/-- What `read` returns for so many records, if it reads each as a whole. -/
def wholeReads (recs : List Rec) : List Nat := List.replicate recs.length 100

theorem round_whole {s : Loading} {rest : List UInt8} (h : s.rest = r.bytes ++ rest) :
    (s.round 100).stored = s.stored ++ [r] ∧ (s.round 100).rest = rest := by
  have htake : s.rest.take 100 = r.bytes := by rw [h, List.take_left' r.size]
  have hfill : s.temp.fill (s.rest.take 100) (length_take_min 100 s.rest) = r := by
    have hbytes : s.rest.take 100 ++ s.temp.bytes.drop (s.rest.take 100).length = r.bytes := by
      rw [htake, r.size, List.drop_of_length_le (Nat.le_of_eq s.temp.size), List.append_nil]
    cases r
    exact Rec.mk.injEq .. ▸ hbytes
  refine ⟨congrArg (s.stored ++ [·]) hfill, ?_⟩
  show s.rest.drop 100 = rest
  rw [h, List.drop_left' r.size]

theorem foldl_round_recs (recs : List Rec) (s : Loading) (h : s.rest = recs.flatMap Rec.bytes) :
    ((wholeReads recs).foldl Loading.round s).stored = s.stored ++ recs := by
  induction recs generalizing s with
  | nil => exact (List.append_nil _).symm
  | cons r recs ih =>
      obtain ⟨hstored, hrest⟩ := round_whole h
      show ((wholeReads recs).foldl Loading.round (s.round 100)).stored = _
      rw [ih (s.round 100) hrest, hstored, List.append_assoc]
      rfl

/-- The array that is sorted has all the records if `count` can count them. -/
theorem array_recs (recs : List Rec) (temp : Rec) :
    (load (recs.flatMap Rec.bytes) temp (wholeReads recs)).array
      = recs.take (Int32.ofNat recs.length).toInt.toNat := by
  have hstored := foldl_round_recs recs ⟨recs.flatMap Rec.bytes, temp, [], 0⟩ rfl
  have hcount := foldl_round_count (wholeReads recs) ⟨recs.flatMap Rec.bytes, temp, [], 0⟩
  rw [Loading.array, load, hstored, hcount, wholeReads, List.length_replicate, Int32.zero_add,
    List.nil_append]

/-! ## Sorting -/

/-- The comparison is an order, and the records are written in it. -/
structure Sorts (qsort : (Rec → Rec → Int32) → List Rec → List Rec) (recs : List Rec) (temp : Rec) :
    Prop where
  consistent : Consistent recs
  output : ∃ out : List Rec, fastsort qsort (recs.flatMap Rec.bytes) temp (wholeReads recs)
      = out.flatMap Rec.bytes ∧ out.Perm recs ∧ out.Pairwise fun a b => a.key ≤ b.key

theorem TotalPreorderOn.take {compar : Rec → Rec → Int32} (h : TotalPreorderOn compar recs) (n : Nat) :
    TotalPreorderOn compar (recs.take n) where
  total a ha b hb := h.total a (List.mem_of_mem_take ha) b (List.mem_of_mem_take hb)
  trans a ha b hb c hc :=
    h.trans a (List.mem_of_mem_take ha) b (List.mem_of_mem_take hb) c (List.mem_of_mem_take hc)
  sign a ha b hb := h.sign a (List.mem_of_mem_take ha) b (List.mem_of_mem_take hb)

theorem length_flatMap_bytes (l : List Rec) : (l.flatMap Rec.bytes).length = 100 * l.length := by
  induction l with
  | nil => rfl
  | cons r l ih =>
      rw [List.flatMap_cons, List.length_append, ih, r.size, List.length_cons]
      omega

/--
**Sorting.** A file of whole records is sorted by the unsigned keys, with `compare` an
order that agrees with them, exactly if there are fewer than 2^31 records and no two keys
are 2^31 or more apart.
-/
theorem sorts_iff (qsort : (Rec → Rec → Int32) → List Rec → List Rec) (hq : Orders qsort)
    (recs : List Rec) (temp : Rec) :
    Sorts qsort recs temp
      ↔ recs.length < 2 ^ 31 ∧ ∀ a ∈ recs, ∀ b ∈ recs, a.key.toNat < b.key.toNat + 2 ^ 31 := by
  constructor
  · rintro ⟨hcons, out, hout, hperm, -⟩
    refine ⟨?_, fun a ha b hb => (hcons.near a ha b hb).1⟩
    -- no more records come out than `count` says
    obtain ⟨hqperm, -⟩ := hq compare _ (hcons.preorder.take (Int32.ofNat recs.length).toInt.toNat)
    have hlen := congrArg List.length hout
    rw [fastsort, array_recs, length_flatMap_bytes, length_flatMap_bytes, hqperm.length_eq,
      hperm.length_eq, List.length_take] at hlen
    have hmax := (Int32.ofNat recs.length).toInt_lt
    omega
  · rintro ⟨hlen, hnear⟩
    have hcons := consistent_of_near fun a ha b hb => ⟨hnear a ha b hb, hnear b hb a ha⟩
    obtain ⟨hperm, hsorted⟩ := hq compare recs hcons.preorder
    have hall : recs.take (Int32.ofNat recs.length).toInt.toNat = recs := by
      rw [toInt_ofNat_of_range hlen]
      exact List.take_length
    refine ⟨hcons, qsort compare recs, ?_, hperm, ?_⟩
    · rw [fastsort, array_recs, hall]
    · refine hsorted.imp_of_mem fun {a b} ha hb hab => ?_
      exact (compare_le_zero_iff ⟨hnear a (hperm.mem_iff.mp ha) b (hperm.mem_iff.mp hb),
        hnear b (hperm.mem_iff.mp hb) a (hperm.mem_iff.mp ha)⟩).mp hab

theorem length_keyed (k : Nat) : (encodeNat 4 k ++ List.replicate 96 (0 : UInt8)).length = 100 := by
  rw [List.length_append, length_encodeNat, List.length_replicate]

/-- A record with this key. -/
def keyed (k : Nat) : Rec := ⟨encodeNat 4 k ++ List.replicate 96 0, length_keyed k⟩

/-- Two records in the wrong order, with keys that `generate` may take. -/
theorem sorts_two : Sorts mergeSort [keyed 2147483647, keyed 0] zeroRec :=
  (sorts_iff mergeSort mergeSort_orders [keyed 2147483647, keyed 0] zeroRec).mpr
    ⟨by decide, by decide⟩

/-- The keys 0 and 2^31 + 1. -/
theorem far_keys_unsorted : Orders mergeSort ∧ ¬Sorts mergeSort [keyed 0, keyed 2147483649] zeroRec := by
  refine ⟨mergeSort_orders, fun h => ?_⟩
  have hnear := h.consistent.near (keyed 2147483649) (by decide) (keyed 0) (by decide)
  exact absurd hnear.1 (by decide)

end Cs537.Sort
