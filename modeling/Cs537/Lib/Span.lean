import Mathlib.Data.List.Pairwise
import Mathlib.Data.List.Sort

/-!
# Partitions of an address range

An allocator carves one range of addresses into blocks. What has to stay true of
the carving is independent of how the blocks are linked: they are disjoint, they
leave no address out, and no two free ones touch. This file is the arithmetic of
that, over lists of spans.

Only two facts move a partition along: it does not care about the order its
blocks are listed in, and cutting a block in two (or gluing two touching ones)
leaves it a partition. Everything an allocator does is a sequence of those.

The last section says why the free blocks are worth keeping apart: a partition
whose free blocks never touch is determined by its used blocks alone, the free
ones being exactly the maximal gaps between them.
-/

namespace Cs537.Lib

/-- A range of addresses. -/
structure Span where
  addr : Nat
  size : Nat
deriving DecidableEq, Repr

namespace Span

/-- One past the last address. -/
def stop (b : Span) : Nat := b.addr + b.size

/-- The span covers an address. -/
def Covers (b : Span) (x : Nat) : Prop := b.addr ≤ x ∧ x < b.stop

/-- Two spans share no address. -/
def Apart (b c : Span) : Prop := b.stop ≤ c.addr ∨ c.stop ≤ b.addr

theorem Apart.symm {b c : Span} (h : Apart b c) : Apart c b := Or.symm h

instance : Std.Symm Apart := ⟨fun _ _ h => h.symm⟩

theorem Apart.not_covers {b c : Span} {x : Nat} (h : Apart b c) (hb : b.Covers x) :
    ¬c.Covers x := by
  intro hc
  have h1 := hb.1
  have h2 := hb.2
  have h3 := hc.1
  have h4 := hc.2
  rcases h with h | h <;> omega

end Span

open Cs537.Lib.Span

/-- The spans of `bs` are disjoint and make up exactly `[lo, hi)`. -/
structure Partition (lo hi : Nat) (bs : List Span) : Prop where
  /-- No span is empty. -/
  pos : ∀ b ∈ bs, 0 < b.size
  /-- No overlap. -/
  apart : bs.Pairwise Apart
  /-- No gap, and nothing outside. -/
  cover : ∀ x, (lo ≤ x ∧ x < hi) ↔ ∃ b ∈ bs, b.Covers x

namespace Partition

variable {lo hi : Nat} {bs cs : List Span} {b c : Span}

theorem perm (h : Partition lo hi bs) (hp : bs.Perm cs) : Partition lo hi cs := by
  refine ⟨fun b hb => h.pos b (hp.mem_iff.mpr hb), hp.pairwise h.apart (fun h => h.symm), ?_⟩
  intro x
  rw [h.cover x]
  exact ⟨fun ⟨b, hb, hx⟩ => ⟨b, hp.mem_iff.mp hb, hx⟩,
    fun ⟨b, hb, hx⟩ => ⟨b, hp.mem_iff.mpr hb, hx⟩⟩

/-- Every block lies inside the range. -/
theorem inside (h : Partition lo hi bs) (hb : b ∈ bs) : lo ≤ b.addr ∧ b.stop ≤ hi := by
  have hpos := h.pos b hb
  have h1 := (h.cover b.addr).mpr ⟨b, hb, Nat.le_refl _, by unfold stop; omega⟩
  have h2 := (h.cover (b.stop - 1)).mpr ⟨b, hb, by unfold stop; omega, by unfold stop; omega⟩
  unfold stop at *
  omega

/-- The whole range as one block. -/
theorem single (h : lo < hi) : Partition lo hi [⟨lo, hi - lo⟩] := by
  refine ⟨?_, List.pairwise_singleton _ _, ?_⟩
  · intro b hb
    rw [List.mem_singleton] at hb
    subst hb
    show 0 < hi - lo
    omega
  · intro x
    simp only [List.mem_singleton, exists_eq_left, Covers, stop]
    omega

/-- Gluing two touching blocks. -/
theorem glue {a n k : Nat} (h : Partition lo hi (⟨a, n⟩ :: ⟨a + n, k⟩ :: bs)) :
    Partition lo hi (⟨a, n + k⟩ :: bs) := by
  obtain ⟨hpos, hap, hcov⟩ := h
  rw [List.pairwise_cons, List.pairwise_cons] at hap
  obtain ⟨h1, h2, h3⟩ := hap
  have hn := hpos ⟨a, n⟩ (by simp)
  refine ⟨?_, List.pairwise_cons.mpr ⟨?_, h3⟩, ?_⟩
  · intro b hb
    rcases List.mem_cons.mp hb with rfl | hb
    · show 0 < n + k
      simp only at hn
      omega
    · exact hpos b (by simp [hb])
  · intro b hb
    have ha := h1 b (by simp [hb])
    have hc := h2 b hb
    have hp := hpos b (by simp [hb])
    simp only [Apart, stop] at *
    omega
  · intro x
    rw [hcov x]
    simp only [List.mem_cons, exists_eq_or_imp, Covers, stop]
    constructor
    · rintro (h | h | h)
      · left; omega
      · left; omega
      · right; exact h
    · rintro (h | h)
      · by_cases hx : x < a + n
        · left; omega
        · right; left; omega
      · right; right; exact h

/-- Cutting a block in two. -/
theorem cut {a n k : Nat} (hn : 0 < n) (hk : 0 < k)
    (h : Partition lo hi (⟨a, n + k⟩ :: bs)) :
    Partition lo hi (⟨a, n⟩ :: ⟨a + n, k⟩ :: bs) := by
  obtain ⟨hpos, hap, hcov⟩ := h
  rw [List.pairwise_cons] at hap
  obtain ⟨h1, h2⟩ := hap
  refine ⟨?_, List.pairwise_cons.mpr ⟨?_, List.pairwise_cons.mpr ⟨?_, h2⟩⟩, ?_⟩
  · intro b hb
    rcases List.mem_cons.mp hb with rfl | hb
    · exact hn
    · rcases List.mem_cons.mp hb with rfl | hb
      · exact hk
      · exact hpos b (by simp [hb])
  · intro b hb
    rcases List.mem_cons.mp hb with rfl | hb
    · left; exact Nat.le_refl _
    · have ha := h1 b hb
      simp only [Apart, stop] at *
      omega
  · intro b hb
    have ha := h1 b hb
    simp only [Apart, stop] at *
    omega
  · intro x
    rw [hcov x]
    simp only [List.mem_cons, exists_eq_or_imp, Covers, stop]
    constructor
    · rintro (h | h)
      · by_cases hx : x < a + n
        · left; omega
        · right; left; omega
      · right; right; exact h
    · rintro (h | h | h)
      · left; omega
      · left; omega
      · right; exact h

/-- Two blocks listed at different places share no address. -/
theorem apart_of_append (h : Partition lo hi (bs ++ cs)) (hb : b ∈ bs) (hc : c ∈ cs) :
    Apart b c := (List.pairwise_append.mp h.apart).2.2 b hb c hc

end Partition

/-! ## Free lists -/

/-- In address order, each span ending strictly before the next begins. -/
def Spaced (fs : List Span) : Prop := fs.Pairwise fun b c => b.stop < c.addr

theorem Spaced.increasing {fs : List Span} (h : Spaced fs) :
    fs.Pairwise fun b c => b.addr < c.addr :=
  h.imp fun {b c} hbc => by unfold Span.stop at hbc; omega

theorem Spaced.shrink {pre post : List Span} {b c : Span} (h : Spaced (pre ++ b :: post))
    (h1 : b.addr ≤ c.addr) (h2 : c.stop ≤ b.stop) : Spaced (pre ++ c :: post) := by
  obtain ⟨hp, hq, hr⟩ := List.pairwise_append.mp h
  obtain ⟨hq1, hq2⟩ := List.pairwise_cons.mp hq
  refine List.pairwise_append.mpr ⟨hp, List.pairwise_cons.mpr ⟨?_, hq2⟩, ?_⟩
  · intro d hd
    have := hq1 d hd
    omega
  · intro d hd e he
    rcases List.mem_cons.mp he with rfl | he
    · have := hr d hd b (by simp)
      omega
    · exact hr d hd e (by simp [he])

theorem Spaced.drop_middle {pre post : List Span} {b : Span} (h : Spaced (pre ++ b :: post)) :
    Spaced (pre ++ post) :=
  List.Pairwise.sublist (List.Sublist.append_left (List.sublist_cons_self b post) pre) h

/-- A maximal range of `[lo, hi)` that no span of `live` meets. -/
structure IsGap (lo hi : Nat) (live : List Span) (g : Span) : Prop where
  pos : 0 < g.size
  inside : lo ≤ g.addr ∧ g.stop ≤ hi
  unused : ∀ b ∈ live, Apart g b
  /-- It cannot be extended downwards. -/
  left : g.addr = lo ∨ ∃ b ∈ live, b.stop = g.addr
  /-- It cannot be extended upwards. -/
  right : g.stop = hi ∨ ∃ b ∈ live, b.addr = g.stop

section Gaps

variable {lo hi : Nat} {free free' live live' : List Span} {g : Span}

/-- Distinct spans of a spaced list lie strictly apart. -/
theorem Spaced.ne_apart {b c : Span} (h : Spaced free) (hb : b ∈ free) (hc : c ∈ free)
    (hne : b ≠ c) : b.stop < c.addr ∨ c.stop < b.addr := by
  have hs : free.Pairwise fun b c => b.stop < c.addr ∨ c.stop < b.addr :=
    h.imp fun hbc => Or.inl hbc
  have : Std.Symm fun b c : Span => b.stop < c.addr ∨ c.stop < b.addr := ⟨fun _ _ h => h.symm⟩
  exact hs.forall hb hc hne

/-- Every free block is a maximal gap between the used ones. -/
theorem isGap_of_mem (hp : Partition lo hi (free ++ live)) (hs : Spaced free) (hg : g ∈ free) :
    IsGap lo hi live g := by
  have hmem : g ∈ free ++ live := List.mem_append_left _ hg
  have hin := hp.inside hmem
  have hpos := hp.pos g hmem
  refine ⟨hpos, hin, fun b hb => hp.apart_of_append hg hb, ?_, ?_⟩
  · -- the address just below belongs to some block, and not to a free one
    by_cases hlo : g.addr = lo
    · exact Or.inl hlo
    refine Or.inr ?_
    obtain ⟨b, hb, hx⟩ := (hp.cover (g.addr - 1)).mp (by unfold stop at hin; omega)
    rcases List.mem_append.mp hb with hb | hb
    · exfalso
      by_cases hbg : b = g
      · subst hbg; exact absurd hx.1 (by omega)
      · rcases hs.ne_apart hb hg hbg with h | h
        · have := hx.2; omega
        · have := hx.1; unfold stop at h; omega
    · refine ⟨b, hb, ?_⟩
      have hap := hp.apart_of_append hg hb
      have h1 := hx.1
      have h2 := hx.2
      unfold Apart at hap
      unfold stop at *
      omega
  · by_cases hhi : g.stop = hi
    · exact Or.inl hhi
    refine Or.inr ?_
    obtain ⟨b, hb, hx⟩ := (hp.cover g.stop).mp (by unfold stop at *; omega)
    rcases List.mem_append.mp hb with hb | hb
    · exfalso
      by_cases hbg : b = g
      · subst hbg; exact absurd hx.2 (by omega)
      · rcases hs.ne_apart hb hg hbg with h | h
        · have := hx.2; unfold stop at *; omega
        · have := hx.1; omega
    · refine ⟨b, hb, ?_⟩
      have hap := hp.apart_of_append hg hb
      have h1 := hx.1
      have h2 := hx.2
      unfold Apart at hap
      unfold stop at *
      omega

/-- Every maximal gap between the used blocks is a free block. -/
theorem mem_of_isGap (hp : Partition lo hi (free ++ live)) (hs : Spaced free)
    (hg : IsGap lo hi live g) : g ∈ free := by
  obtain ⟨hpos, hin, hun, hleft, hright⟩ := hg
  obtain ⟨f, hf, hx⟩ := (hp.cover g.addr).mp (by unfold stop at hin; omega)
  have hf' : f ∈ free := by
    rcases List.mem_append.mp hf with h | h
    · exact h
    · exact absurd hx ((hun f h).not_covers ⟨Nat.le_refl _, by unfold stop; omega⟩)
  have hgap := isGap_of_mem hp hs hf'
  have h1 := hx.1
  have h2 := hx.2
  have hfin := hp.inside hf
  -- both are maximal around `g.addr`, so they have the same ends
  have haddr : f.addr = g.addr := by
    rcases hleft with h | ⟨b, hb, h⟩
    · omega
    · have hpb := hp.pos b (List.mem_append_right _ hb)
      rcases hgap.unused b hb with h' | h' <;> unfold stop at * <;> omega
  have hstop : f.stop = g.stop := by
    rcases Nat.lt_trichotomy f.stop g.stop with h | h | h
    · rcases hgap.right with h' | ⟨b, hb, h'⟩
      · omega
      · have hpb := hp.pos b (List.mem_append_right _ hb)
        rcases hun b hb with h'' | h'' <;> unfold stop at * <;> omega
    · exact h
    · rcases hright with h' | ⟨b, hb, h'⟩
      · omega
      · have hpb := hp.pos b (List.mem_append_right _ hb)
        rcases hgap.unused b hb with h'' | h'' <;> unfold stop at * <;> omega
  have hfg : f = g := by
    cases f; cases g
    simp only [stop, Span.mk.injEq] at *
    omega
  exact hfg ▸ hf'

theorem Spaced.nodup (h : Spaced free) : free.Nodup :=
  h.imp fun {b c} hbc he => by subst he; unfold Span.stop at hbc; omega

/-- **The used blocks determine the free list.** -/
theorem free_unique (hp : Partition lo hi (free ++ live)) (hs : Spaced free)
    (hp' : Partition lo hi (free' ++ live')) (hs' : Spaced free')
    (hl : ∀ b, b ∈ live ↔ b ∈ live') : free = free' := by
  have hgap : ∀ g, IsGap lo hi live g ↔ IsGap lo hi live' g := by
    intro g
    constructor
    · rintro ⟨h1, h2, h3, h4, h5⟩
      exact ⟨h1, h2, fun b hb => h3 b ((hl b).mpr hb),
        h4.imp_right fun ⟨b, hb, h⟩ => ⟨b, (hl b).mp hb, h⟩,
        h5.imp_right fun ⟨b, hb, h⟩ => ⟨b, (hl b).mp hb, h⟩⟩
    · rintro ⟨h1, h2, h3, h4, h5⟩
      exact ⟨h1, h2, fun b hb => h3 b ((hl b).mp hb),
        h4.imp_right fun ⟨b, hb, h⟩ => ⟨b, (hl b).mpr hb, h⟩,
        h5.imp_right fun ⟨b, hb, h⟩ => ⟨b, (hl b).mpr hb, h⟩⟩
  have hmem : ∀ g, g ∈ free ↔ g ∈ free' := fun g =>
    ⟨fun h => mem_of_isGap hp' hs' ((hgap g).mp (isGap_of_mem hp hs h)),
      fun h => mem_of_isGap hp hs ((hgap g).mpr (isGap_of_mem hp' hs' h))⟩
  have hperm : free.Perm free' := (List.perm_ext_iff_of_nodup hs.nodup hs'.nodup).mpr hmem
  refine hperm.eq_of_pairwise ?_ hs hs'
  intro b c _ _ h1 h2
  unfold stop at h1 h2
  omega

end Gaps

end Cs537.Lib
