import Cs537.Sort.Model

/-!
# Short reads

A record is stored for every positive return value of `read`. There are at least as many
of these as the file has whole records, and as many only if each of them is a whole
record. So one short read, or a file with a few bytes more than its records, is enough for
a store outside the allocated space; and after a short read in the middle no record is
where it was in the file.
-/

namespace Cs537.Sort

open Lib

variable {file : List UInt8} {temp : Rec} {returns : List Nat}

/-! ## The loop -/

theorem foldl_round_stored (returns : List Nat) (s : Loading) :
    (returns.foldl Loading.round s).stored.length = s.stored.length + returns.length := by
  induction returns generalizing s with
  | nil => rfl
  | cons n returns ih =>
      rw [List.foldl_cons, ih, Loading.round, List.length_append, List.length_singleton,
        List.length_cons]
      omega

theorem length_stored : (load file temp returns).stored.length = returns.length := by
  rw [load, foldl_round_stored, List.length_nil, Nat.zero_add]

/-- Whole reads store what is next in the file, record by record. -/
theorem foldl_round_whole (returns : List Nat) (s : Loading) (hwhole : ∀ k ∈ returns, k = 100)
    (hlen : 100 * returns.length ≤ s.rest.length) :
    (returns.foldl Loading.round s).stored.map Rec.bytes = s.stored.map Rec.bytes
      ++ (List.range returns.length).map fun i => (s.rest.drop (100 * i)).take 100 := by
  induction returns generalizing s with
  | nil => exact (List.append_nil _).symm
  | cons n returns ih =>
      rw [List.length_cons] at hlen
      obtain rfl : n = 100 := hwhole n (List.mem_cons_self ..)
      have htake : (s.rest.take 100).length = 100 := by
        rw [List.length_take]
        omega
      -- nothing of the temporary record is left
      have htemp : (s.round 100).stored.map Rec.bytes = s.stored.map Rec.bytes ++ [s.rest.take 100] := by
        have hdrop : s.temp.bytes.drop (s.rest.take 100).length = [] := by
          rw [htake]
          exact List.drop_of_length_le (Nat.le_of_eq s.temp.size)
        show (s.stored ++ [_]).map Rec.bytes = _
        rw [List.map_append, List.map_singleton]
        show _ ++ [s.rest.take 100 ++ s.temp.bytes.drop (s.rest.take 100).length] = _
        rw [hdrop, List.append_nil]
      have hrest : (s.round 100).rest = s.rest.drop 100 := rfl
      rw [List.foldl_cons, ih (s.round 100) (fun k hk => hwhole k (List.mem_cons_of_mem _ hk))
        (by rw [hrest, List.length_drop]; omega), htemp, hrest, List.length_cons, List.range_succ_eq_map,
        List.map_cons, List.map_map, List.append_assoc]
      refine congrArg (s.stored.map Rec.bytes ++ s.rest.take 100 :: ·) (List.map_congr_left fun i _ => ?_)
      rw [List.drop_drop, Function.comp_apply, Nat.mul_succ, Nat.add_comm]

/-- The records of the file. -/
theorem bytes_stored {i : Nat} {r : Rec} (hwhole : ∀ k ∈ returns, k = 100)
    (hlen : 100 * returns.length ≤ file.length) (hr : (load file temp returns).stored[i]? = some r) :
    r.bytes = (file.drop (100 * i)).take 100 := by
  have hmap := foldl_round_whole returns ⟨file, temp, [], 0⟩ hwhole hlen
  obtain ⟨hi, -⟩ := List.getElem?_eq_some_iff.mp hr
  rw [length_stored] at hi
  have hget : ((load file temp returns).stored.map Rec.bytes)[i]? = some r.bytes := by
    rw [List.getElem?_map, hr, Option.map_some]
  rw [load, hmap, List.map_nil, List.nil_append, List.getElem?_map, List.getElem?_range hi,
    Option.map_some] at hget
  exact (Option.some.inj hget).symm

/-! ## What may be returned -/

theorem sum_le_of_le {ns : List Nat} (h : ∀ k ∈ ns, k ≤ 100) : ns.sum ≤ 100 * ns.length := by
  induction ns with
  | nil => exact Nat.le_refl _
  | cons n ns ih =>
      have hn := h n (List.mem_cons_self ..)
      have hns := ih fun k hk => h k (List.mem_cons_of_mem n hk)
      rw [List.sum_cons, List.length_cons]
      omega

/-- As many bytes as so many whole reads return are returned only by these. -/
theorem whole_of_sum {ns : List Nat} (h : ∀ k ∈ ns, k ≤ 100) (hsum : 100 * ns.length ≤ ns.sum) :
    ∀ k ∈ ns, k = 100 := by
  induction ns with
  | nil => exact fun k hk => absurd hk List.not_mem_nil
  | cons n ns ih =>
      have hn := h n (List.mem_cons_self ..)
      have hns := fun k hk => h k (List.mem_cons_of_mem n hk)
      have hle := sum_le_of_le hns
      rw [List.length_cons, List.sum_cons] at hsum
      intro k hk
      rcases List.mem_cons.mp hk with rfl | hk
      · omega
      · exact ih hns (by omega) k hk

theorem sum_of_whole {ns : List Nat} (h : ∀ k ∈ ns, k = 100) : ns.sum = 100 * ns.length := by
  rw [List.eq_replicate_of_mem h, List.sum_replicate_nat, List.length_replicate, Nat.mul_comm]

/-! ## Framing -/

/-- The file is loaded as its records, into the space there is, and nothing else is written out. -/
structure Framed (file : List UInt8) (stored : List Rec) (output : List UInt8) : Prop where
  few : stored.length ≤ file.length / 100
  inside : ∀ i < stored.length, 100 * i + 100 ≤ file.length
  frame : ∀ i r, stored[i]? = some r → r.bytes = (file.drop (100 * i)).take 100
  output : ∀ b ∈ output, b ∈ file

theorem framed_of_whole {qsort : (Rec → Rec → Int32) → List Rec → List Rec} (hq : Rearranges qsort)
    (hwhole : ∀ k ∈ returns, k = 100) (hlen : 100 * returns.length = file.length) :
    Framed file (load file temp returns).stored (fastsort qsort file temp returns) where
  few := by
    rw [length_stored]
    omega
  inside i hi := by
    rw [length_stored] at hi
    omega
  frame i r hr := bytes_stored hwhole (Nat.le_of_eq hlen) hr
  output b hb := by
    obtain ⟨r, hr, hbr⟩ := List.mem_flatMap.mp hb
    have hmem : r ∈ (load file temp returns).stored :=
      List.mem_of_mem_take ((hq compare _).mem_iff.mp hr)
    obtain ⟨i, hi⟩ := List.mem_iff_getElem?.mp hmem
    rw [bytes_stored hwhole (Nat.le_of_eq hlen) hi] at hbr
    exact List.mem_of_mem_drop (List.mem_of_mem_take hbr)

/--
**Loading.** For every file and all that `read` may return on it, the file is loaded as
its records, in the space allocated for it, exactly if every `read` returns a whole record.
-/
theorem framed_iff (qsort : (Rec → Rec → Int32) → List Rec → List Rec) (hq : Rearranges qsort)
    (file : List UInt8) (temp : Rec) (returns : List Nat) (hlegal : Legal file.length returns) :
    Framed file (load file temp returns).stored (fastsort qsort file temp returns)
      ↔ ∀ k ∈ returns, k = 100 := by
  obtain ⟨hle, hsum⟩ := hlegal
  constructor
  · intro hf
    have hfew := hf.few
    rw [length_stored] at hfew
    exact whole_of_sum (fun k hk => (hle k hk).2) (by omega)
  · intro hwhole
    have hmul := sum_of_whole hwhole
    exact framed_of_whole hq hwhole (by omega)

/-- A record of zeros. -/
def zeroRec : Rec := ⟨List.replicate 100 0, List.length_replicate⟩

/-- A file of one record, in one `read`. -/
theorem framed_one : Framed zeroRec.bytes (load zeroRec.bytes zeroRec [100]).stored
    (fastsort mergeSort zeroRec.bytes zeroRec [100]) :=
  (framed_iff mergeSort mergeSort_rearranges zeroRec.bytes zeroRec [100] ⟨by decide, by decide⟩).mpr
    (by decide)

/-- The same file, when `read` returns 60 bytes first: two records are stored in the space for one. -/
theorem short_read_unframed : Legal zeroRec.bytes.length [60, 40]
    ∧ ¬Framed zeroRec.bytes (load zeroRec.bytes zeroRec [60, 40]).stored
      (fastsort mergeSort zeroRec.bytes zeroRec [60, 40]) := by
  refine ⟨⟨by decide, by decide⟩, fun hf => ?_⟩
  have hfew := hf.few
  rw [length_stored, zeroRec.size] at hfew
  exact absurd hfew (by decide)

end Cs537.Sort
