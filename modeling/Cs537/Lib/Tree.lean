import Mathlib.Logic.Relation

/-!
# Trees as relations

A tree given by which nodes there are and which node hangs from which, at which place.
It grows by a new leaf and shrinks by an old one; a node that moves is not considered.
-/

namespace Cs537.Lib

open Relation

variable {α π : Type*} {root k p : α} {x : π} {node node' : α → Prop} {edge edge' : α → π → α → Prop}

/-- `c` hangs from `p`, at any place. -/
def Above (edge : α → π → α → Prop) (c p : α) : Prop := ∃ x, edge p x c

/-- Every node but the root hangs at exactly one place, and all of them under the root. -/
structure IsTree (root : α) (node : α → Prop) (edge : α → π → α → Prop) : Prop where
  root_mem : node root
  not_root : ∀ {p x}, ¬edge p x root
  target : ∀ {p x c}, edge p x c → node c
  named : ∀ {c}, node c → c ≠ root → ∃ p x, edge p x c
  once : ∀ {p p' x x' c}, edge p x c → edge p' x' c → p = p' ∧ x = x'
  climbs : ∀ {c}, node c → ReflTransGen (Above edge) c root

/-- The root alone. -/
theorem IsTree.single (hnode : ∀ c, node c ↔ c = root) (hedge : ∀ q y c, ¬edge q y c) :
    IsTree root node edge where
  root_mem := (hnode root).mpr rfl
  not_root := hedge _ _ _
  target h := absurd h (hedge _ _ _)
  named hc hne := absurd ((hnode _).mp hc) hne
  once h _ := absurd h (hedge _ _ _)
  climbs hc := by
    rw [(hnode _).mp hc]

/-- A new node is hung from an old one. -/
theorem IsTree.addLeaf (h : IsTree root node edge) (hk : ¬node k) (hp : node p)
    (hnode : ∀ c, node' c ↔ node c ∨ c = k)
    (hedge : ∀ q y c, edge' q y c ↔ edge q y c ∨ q = p ∧ y = x ∧ c = k) :
    IsTree root node' edge' where
  root_mem := (hnode root).mpr (Or.inl h.root_mem)
  not_root {q y} he := by
    rcases (hedge q y root).mp he with he | ⟨-, -, rfl⟩
    · exact h.not_root he
    · exact hk h.root_mem
  target {q y c} he := by
    rcases (hedge q y c).mp he with he | ⟨-, -, rfl⟩
    · exact (hnode c).mpr (Or.inl (h.target he))
    · exact (hnode c).mpr (Or.inr rfl)
  named {c} hc hne := by
    rcases (hnode c).mp hc with hc | rfl
    · obtain ⟨q, y, he⟩ := h.named hc hne
      exact ⟨q, y, (hedge q y c).mpr (Or.inl he)⟩
    · exact ⟨p, x, (hedge p x c).mpr (Or.inr ⟨rfl, rfl, rfl⟩)⟩
  once {q q' y y' c} he he' := by
    rcases (hedge q y c).mp he with he | ⟨rfl, rfl, rfl⟩
    · rcases (hedge q' y' c).mp he' with he' | ⟨-, -, rfl⟩
      · exact h.once he he'
      · exact absurd (h.target he) hk
    · rcases (hedge q' y' c).mp he' with he' | ⟨rfl, rfl, -⟩
      · exact absurd (h.target he') hk
      · exact ⟨rfl, rfl⟩
  climbs {c} hc := by
    have hmono : ∀ c q, Above edge c q → Above edge' c q := by
      rintro c q ⟨y, he⟩
      exact ⟨y, (hedge q y c).mpr (Or.inl he)⟩
    rcases (hnode c).mp hc with hc | rfl
    · exact ReflTransGen.mono hmono _ _ (h.climbs hc)
    · exact ReflTransGen.head ⟨x, (hedge p x c).mpr (Or.inr ⟨rfl, rfl, rfl⟩)⟩
        (ReflTransGen.mono hmono _ _ (h.climbs hp))

/-- A node from which nothing hangs is taken off. -/
theorem IsTree.removeLeaf (h : IsTree root node edge) (hk : k ≠ root) (hleaf : ∀ y c, ¬edge k y c)
    (hnode : ∀ c, node' c ↔ node c ∧ c ≠ k) (hedge : ∀ q y c, edge' q y c ↔ edge q y c ∧ c ≠ k) :
    IsTree root node' edge' where
  root_mem := (hnode root).mpr ⟨h.root_mem, hk.symm⟩
  not_root {q y} he := h.not_root ((hedge q y root).mp he).1
  target {q y c} he := by
    obtain ⟨he, hne⟩ := (hedge q y c).mp he
    exact (hnode c).mpr ⟨h.target he, hne⟩
  named {c} hc hne := by
    obtain ⟨hc, hck⟩ := (hnode c).mp hc
    obtain ⟨q, y, he⟩ := h.named hc hne
    exact ⟨q, y, (hedge q y c).mpr ⟨he, hck⟩⟩
  once {q q' y y' c} he he' := h.once ((hedge q y c).mp he).1 ((hedge q' y' c).mp he').1
  climbs {c} hc := by
    obtain ⟨hn, hck⟩ := (hnode c).mp hc
    have hclimb := h.climbs hn
    clear hn hc
    -- the way up does not lead over `k`, for nothing hangs from it
    induction hclimb using ReflTransGen.head_induction_on with
    | refl => exact ReflTransGen.refl
    | @head c q hup _ ih =>
        obtain ⟨y, he⟩ := hup
        have hqk : q ≠ k := fun hqk => hleaf y c (hqk ▸ he)
        exact ReflTransGen.head ⟨y, (hedge q y c).mpr ⟨he, hck⟩⟩ (ih hqk)

/-- Nothing hangs under itself. -/
theorem IsTree.acyclic (h : IsTree root node edge) {c : α} (hc : node c) :
    ¬TransGen (Above edge) c c := by
  have hclimb := h.climbs hc
  clear hc
  induction hclimb using ReflTransGen.head_induction_on with
  | refl =>
      intro hloop
      obtain ⟨q, ⟨y, he⟩, -⟩ := TransGen.head'_iff.mp hloop
      exact h.not_root he
  | @head c q hup _ ih =>
      intro hloop
      -- the loop starts with the same step, and can as well be walked from `q`
      obtain ⟨q', ⟨y', he'⟩, hrest⟩ := TransGen.head'_iff.mp hloop
      obtain ⟨y, he⟩ := hup
      obtain ⟨rfl, -⟩ := h.once he he'
      exact ih (TransGen.tail' hrest ⟨y, he⟩)

end Cs537.Lib
