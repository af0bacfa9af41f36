import Mathlib.Data.List.Basic

/-!
# Messages under way

A network is a list of messages, each of which belongs to one of several parties. The
message at any position may be the next to arrive or to be lost. Proofs look at one party
at a time: at the messages of that party, which others can neither add to nor take from.
-/

namespace Cs537.Lib

variable {α κ : Type} [DecidableEq κ] {key : α → κ} {l : List α} {a : α} {i : Nat} {k : κ}

/-- The messages of party `k`. -/
def own (key : α → κ) (l : List α) (k : κ) : List α := l.filter fun a => key a = k

theorem own_append {l' : List α} : own key (l ++ l') k = own key l k ++ own key l' k :=
  List.filter_append ..

theorem own_eq_self (h : ∀ a ∈ l, key a = k) : own key l k = l := by
  refine List.filter_eq_self.mpr fun a ha => ?_
  rw [decide_eq_true_eq]
  exact h a ha

theorem own_eq_nil : own key l k = [] ↔ ∀ a ∈ l, key a ≠ k := by
  rw [own, List.filter_eq_nil_iff]
  simp only [decide_eq_true_eq]

/-- A message that leaves the network, and its place. -/
theorem eraseIdx_of_getElem? (h : l[i]? = some a) :
    ∃ xs ys, l = xs ++ a :: ys ∧ l.eraseIdx i = xs ++ ys := by
  obtain ⟨hi, ha⟩ := List.getElem?_eq_some_iff.mp h
  refine ⟨l.take i, l.drop (i + 1), ?_, List.eraseIdx_eq_take_drop_succ ..⟩
  rw [← ha, List.getElem_cons_drop, List.take_append_drop]

/-- The messages of its own party are one less. -/
theorem own_eraseIdx_self (h : l[i]? = some a) :
    ∃ xs ys, own key l (key a) = xs ++ a :: ys ∧ own key (l.eraseIdx i) (key a) = xs ++ ys := by
  obtain ⟨xs, ys, hl, herase⟩ := eraseIdx_of_getElem? h
  have hself : own key [a] (key a) = [a] := own_eq_self (by simp)
  refine ⟨own key xs (key a), own key ys (key a), ?_, ?_⟩
  · rw [hl, own_append, ← List.singleton_append, own_append, hself]
    rfl
  · rw [herase, own_append]

/-- Those of the others stay. -/
theorem own_eraseIdx_ne (h : l[i]? = some a) (hk : key a ≠ k) :
    own key (l.eraseIdx i) k = own key l k := by
  obtain ⟨xs, ys, hl, herase⟩ := eraseIdx_of_getElem? h
  have hnil : own key [a] k = [] := own_eq_nil.mpr (by simpa using hk)
  rw [herase, hl, own_append, own_append, ← List.singleton_append, own_append, hnil]
  rfl

theorem eq_of_append_cons_eq_singleton {xs ys : List α} {b : α} (h : xs ++ a :: ys = [b]) :
    xs = [] ∧ ys = [] ∧ a = b := by
  cases xs with
  | nil =>
      cases h
      exact ⟨rfl, rfl, rfl⟩
  | cons x xs =>
      have htail := (List.cons.inj h).2
      exact absurd htail (by simp)

theorem mem_append_cons_of_mem {xs ys : List α} {b : α} (h : b ∈ xs ++ ys) : b ∈ xs ++ a :: ys := by
  rcases List.mem_append.mp h with h | h
  · exact List.mem_append_left _ h
  · exact List.mem_append_right _ (List.mem_cons_of_mem _ h)

theorem append_cons_ne_nil {xs ys : List α} : xs ++ a :: ys ≠ [] := by simp

end Cs537.Lib
