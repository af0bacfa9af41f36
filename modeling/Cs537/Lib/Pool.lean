import Mathlib.Logic.Function.Basic

/-!
# Things that are given out

Things of a kind are free, or somebody has them. Each is handed out to one holder and comes
back from it, so that at any time a thing is free if and only if nobody has it: nothing is
lost, and nothing is given to two.
-/

namespace Cs537.Lib

variable {ι α : Type} {free : α → Bool} {has has' : ι → α → Prop} {i : ι} {g : α}

structure Pool (free : α → Bool) (has : ι → α → Prop) : Prop where
  free : ∀ g, free g = true ↔ ∀ i, ¬has i g
  single : ∀ i j g, has i g → has j g → i = j

theorem Pool.congr (h : Pool free has) (heq : ∀ i g, has' i g ↔ has i g) : Pool free has' where
  free g := (h.free g).trans (forall_congr' fun i => not_congr (heq i g).symm)
  single i j g hi hj := h.single i j g ((heq i g).mp hi) ((heq j g).mp hj)

/-- All that some have comes back at once. -/
theorem Pool.release {free' : α → Bool} {S : ι → Prop} (h : Pool free has)
    (hfree : ∀ g, free' g = true ↔ free g = true ∨ ∃ i, S i ∧ has i g) (heq : ∀ i g, has' i g ↔ has i g ∧ ¬S i) :
    Pool free' has' where
  free g := by
    rw [hfree g]
    constructor
    · rintro (hg | ⟨i, hS, hi⟩) j hj
      · exact (h.free g).mp hg j ((heq j g).mp hj).1
      · obtain ⟨hj, hno⟩ := (heq j g).mp hj
        rw [h.single j i g hj hi] at hno
        exact hno hS
    · intro hnobody
      by_cases hsome : ∃ i, S i ∧ has i g
      · exact Or.inr hsome
      · refine Or.inl ((h.free g).mpr fun i hi => hnobody i ((heq i g).mpr ⟨hi, fun hS => hsome ⟨i, hS, hi⟩⟩))
  single i j g hi hj := h.single i j g ((heq i g).mp hi).1 ((heq j g).mp hj).1

variable [DecidableEq α]

/-- A free thing is given to `i`. -/
theorem Pool.take (h : Pool free has) (hg : free g = true) (heq : ∀ j x, has' j x ↔ has j x ∨ j = i ∧ x = g) :
    Pool (Function.update free g false) has' where
  free x := by
    by_cases hx : x = g
    · subst hx
      rw [Function.update_self]
      exact iff_of_false Bool.false_ne_true fun hno => hno i ((heq i x).mpr (Or.inr ⟨rfl, rfl⟩))
    · rw [Function.update_of_ne hx, h.free x]
      refine forall_congr' fun j => not_congr ?_
      rw [heq, or_iff_left fun hj => hx hj.2]
  single j k x hj hk := by
    have hnobody : ∀ l, ¬has l g := (h.free g).mp hg
    rcases (heq j x).mp hj with hj | ⟨rfl, rfl⟩
    · rcases (heq k x).mp hk with hk | ⟨rfl, rfl⟩
      · exact h.single j k x hj hk
      · exact absurd hj (hnobody j)
    · rcases (heq k x).mp hk with hk | ⟨rfl, -⟩
      · exact absurd hk (hnobody k)
      · rfl

/-- What `i` has comes back. -/
theorem Pool.drop (h : Pool free has) (hi : has i g) (heq : ∀ j x, has' j x ↔ has j x ∧ ¬(j = i ∧ x = g)) :
    Pool (Function.update free g true) has' where
  free x := by
    by_cases hx : x = g
    · subst hx
      rw [Function.update_self]
      refine iff_of_true rfl fun j hj => ?_
      obtain ⟨hj, hne⟩ := (heq j x).mp hj
      exact hne ⟨h.single j i x hj hi, rfl⟩
    · rw [Function.update_of_ne hx, h.free x]
      refine forall_congr' fun j => not_congr ?_
      rw [heq, and_iff_left fun hj => hx hj.2]
  single j k x hj hk := h.single j k x ((heq j x).mp hj).1 ((heq k x).mp hk).1

end Cs537.Lib
