import Mathlib.Data.List.Sort

/-!
# Stable sorting

A list is a stable sort of another by a key if it is in order and has, for each key,
the same elements in the same places among themselves. Insertion sort makes one.
-/

namespace Cs537.Lib

variable {α κ : Type} [LinearOrder κ] {key : α → κ} {l l' : List α}

/-- `l'` is `l` in the order of `key`, equal keys in their old order. -/
structure IsStableSort (key : α → κ) (l l' : List α) : Prop where
  sorted : l'.Pairwise fun a b => key a ≤ key b
  stable : ∀ k, (l'.filter fun a => key a = k) = l.filter fun a => key a = k

namespace IsStableSort

theorem perm (h : IsStableSort key l l') : l'.Perm l := by
  classical
  rw [List.perm_iff_count]
  intro a
  have hcount := congrArg (List.count a) (h.stable (key a))
  rwa [List.count_filter (by simp), List.count_filter (by simp)] at hcount

/-- An element at the end that no other one exceeds stays there. -/
theorem getLast_eq {n : List α} {y z : α} (h : IsStableSort key l (n ++ [y]))
    (hlast : l.getLast? = some z) (hmax : ∀ x ∈ l, key x ≤ key z) : y = z := by
  obtain ⟨m, rfl⟩ := List.getLast?_eq_some_iff.mp hlast
  have hyz : key y ≤ key z := hmax y (h.perm.mem_iff.mp (by simp))
  have hzy : key z ≤ key y := by
    have hz : z ∈ n ++ [y] := h.perm.mem_iff.mpr (by simp)
    rcases List.mem_append.mp hz with hz | hz
    · exact (List.pairwise_append.mp h.sorted).2.2 z hz y (by simp)
    · rw [List.mem_singleton.mp hz]
  have heq : key y = key z := le_antisymm hyz hzy
  -- both are the last of their key
  have hf := h.stable (key z)
  rw [List.filter_append, List.filter_append, List.filter_singleton, List.filter_singleton,
    decide_eq_true heq, decide_eq_true rfl] at hf
  exact List.singleton_inj.mp (List.append_inj' hf rfl).2

end IsStableSort

theorem isStableSort_insertionSort (key : α → κ) (l : List α) :
    IsStableSort key l (l.insertionSort fun a b => key a ≤ key b) where
  sorted := by
    have : Std.Total fun a b : α => key a ≤ key b := ⟨fun a b => le_total _ _⟩
    have : IsTrans α fun a b : α => key a ≤ key b := ⟨fun a b c => le_trans⟩
    exact List.pairwise_insertionSort _ l
  stable k := by
    have hsub : (l.filter fun a => key a = k).Sublist
        (l.insertionSort fun a b => key a ≤ key b) := by
      refine List.sublist_insertionSort ?_ List.filter_sublist
      refine List.pairwise_iff_forall_sublist.mpr fun {a b} hab => ?_
      have ha := List.mem_filter.mp (hab.subset (by simp : a ∈ [a, b]))
      have hb := List.mem_filter.mp (hab.subset (by simp : b ∈ [a, b]))
      rw [of_decide_eq_true ha.2, of_decide_eq_true hb.2]
    have hfilter := hsub.filter fun a => decide (key a = k)
    rw [List.filter_filter] at hfilter
    simp only [Bool.and_self] at hfilter
    have hperm : ((l.insertionSort fun a b => key a ≤ key b).filter fun a => key a = k).Perm
        (l.filter fun a => key a = k) := (List.perm_insertionSort _ l).filter _
    exact (hfilter.eq_of_length hperm.length_eq.symm).symm

end Cs537.Lib
