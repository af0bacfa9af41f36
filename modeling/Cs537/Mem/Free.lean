import Cs537.Mem.Alloc

/-!
# What `Mem_Free` does to the heap

Freeing has four insertion cases and two coalescing tests. The insertion cases
are one: with the freed block's own link set first, each of them redirects the
link after `prev`, and `linkIn_eq` says so. The coalescing tests are one as well:
merging the freed block into the node before it is what merging that node with
its successor does (`coalescePrev_eq`). So the list after `Mem_Free` is

  `pre ++ b :: post`, with `glueNext` applied at `b` and then at the node before it.
-/

namespace Cs537.Mem

open Lib

/-! ## Where the block goes -/

theorem insertLoop_spec {m : Store} (fh : Nat) :
    ∀ (l : List Span) (fuel itr prev : Nat), Seg m itr l 0 → l.length < fuel →
      ∃ l₁ l₂, l = l₁ ++ l₂
        ∧ insertLoop m fh fuel itr prev = some (headAddr l₂, lastAddr prev l₁)
        ∧ (∀ c ∈ l₁, c.addr ≤ fh) ∧ (∀ c ∈ l₂.head?, fh < c.addr) := by
  intro l
  induction l with
  | nil =>
      intro fuel itr prev hseg hfuel
      obtain ⟨f, rfl⟩ : ∃ f, fuel = f + 1 := ⟨fuel - 1, by simp at hfuel; omega⟩
      have h0 : itr = 0 := hseg
      refine ⟨[], [], rfl, ?_, by simp, by simp⟩
      rw [insertLoop, if_pos h0, h0]; rfl
  | cons c cs ih =>
      intro fuel itr prev hseg hfuel
      obtain ⟨f, rfl⟩ : ∃ f, fuel = f + 1 := ⟨fuel - 1, by simp at hfuel; omega⟩
      obtain ⟨rfl, hc0, -, hrest⟩ := hseg
      rw [insertLoop, if_neg hc0]
      by_cases hlt : fh < c.addr
      · refine ⟨[], c :: cs, rfl, ?_, by simp, by simpa using hlt⟩
        rw [if_pos hlt]; rfl
      · obtain ⟨l₁, l₂, rfl, hloop, h1, h2⟩ := ih f (blockNext m c.addr) c.addr hrest
          (by simp at hfuel ⊢; omega)
        refine ⟨c :: l₁, l₂, rfl, ?_, ?_, h2⟩
        · rw [if_neg hlt, hloop]; rfl
        · intro d hd
          rcases List.mem_cons.mp hd with rfl | hd
          · omega
          · exact h1 d hd

theorem linkIn_eq {h : Heap} {pre post : List Span} {fh : Nat}
    (hseg : Seg h.mem h.head (pre ++ post) 0) (hsep : ∀ c ∈ pre, c.addr + 16 ≤ fh) :
    linkIn h fh (headAddr post) (lastAddr 0 pre)
      = setLink { h with mem := setNext h.mem fh (headAddr post) } (lastAddr 0 pre) fh := by
  have hne := hseg.ne_zero
  have hhead := hseg.head
  unfold linkIn setLink
  rcases List.eq_nil_or_concat' pre with rfl | ⟨pre, a, rfl⟩
  · -- no block before: the freed one becomes the head
    rw [List.nil_append] at hhead
    cases post with
    | nil => simp [show h.head = 0 from hhead]
    | cons c cs => simp [show h.head = c.addr from hhead, hne c (by simp)]
  · have ha : a.addr ≠ 0 := hne a (by simp)
    have h0 : h.head ≠ 0 := by
      rw [hhead]
      cases pre with
      | nil => exact ha
      | cons d ds => exact hne d (by simp)
    have hs := hsep a (by simp)
    rw [lastAddr_concat, if_neg h0]
    cases post with
    | nil => simp only [headAddr_nil, if_true, if_neg ha, setNext_comm (Or.inl (by omega : a.addr + 8 ≤ fh))]
    | cons c cs => simp only [headAddr_cons, if_neg (hne c (by simp)), if_neg ha]

/-! ## Coalescing -/

/-- `b` in front of `l`, merged with the first block of `l` if the two touch. -/
def glueNext (b : Span) : List Span → List Span
  | [] => [b]
  | c :: cs => if b.stop = c.addr then ⟨b.addr, b.size + c.size⟩ :: cs else b :: c :: cs

theorem mem_glueNext {b d : Span} {l : List Span} (h : d ∈ glueNext b l) :
    (d.addr = b.addr ∧ b.size ≤ d.size) ∨ d ∈ l := by
  cases l with
  | nil =>
      rw [glueNext, List.mem_singleton] at h
      subst h; exact Or.inl ⟨rfl, Nat.le_refl _⟩
  | cons c cs =>
      rw [glueNext] at h
      split at h
      · rcases List.mem_cons.mp h with rfl | h
        · exact Or.inl ⟨rfl, Nat.le_add_right _ _⟩
        · exact Or.inr (List.mem_cons_of_mem _ h)
      · rcases List.mem_cons.mp h with rfl | h
        · exact Or.inl ⟨rfl, Nat.le_refl _⟩
        · exact Or.inr h

theorem spaced_glueNext {b : Span} {l : List Span} (hs : Spaced l)
    (hb : ∀ c ∈ l, b.stop ≤ c.addr) : Spaced (glueNext b l) := by
  cases l with
  | nil => exact List.pairwise_singleton _ _
  | cons c cs =>
      obtain ⟨hc, hcs⟩ := List.pairwise_cons.mp hs
      rw [glueNext]
      split
      · rename_i heq
        refine List.pairwise_cons.mpr ⟨fun d hd => ?_, hcs⟩
        have := hc d hd
        unfold Span.stop at *
        dsimp only
        omega
      · rename_i hne
        have hbc := hb c (by simp)
        refine List.pairwise_cons.mpr ⟨fun d hd => ?_, hs⟩
        rcases List.mem_cons.mp hd with rfl | hd
        · omega
        · have := hc d hd
          unfold Span.stop at *
          omega

theorem partition_glueNext {lo hi : Nat} {b : Span} (pre : List Span) {l live : List Span}
    (hp : Partition lo hi ((pre ++ b :: l) ++ live)) :
    Partition lo hi ((pre ++ glueNext b l) ++ live) := by
  cases l with
  | nil => exact hp
  | cons c cs =>
      rw [glueNext]
      split
      · rename_i heq
        have hp1 := hp.perm ((perm_pull pre (c :: cs) live b).trans
          (List.Perm.cons b (perm_pull pre cs live c)))
        have hc : c = ⟨b.addr + b.size, c.size⟩ := by rw [← Span.stop, heq]
        rw [hc] at hp1
        exact hp1.glue.perm (perm_pull pre cs live _).symm
      · exact hp

/-- Coalescing writes the two fields of a `block_t`, never the padding between them. -/
theorem coalesceNext_outside {m : Store} {p x : Nat}
    (hx : ¬(p ≤ x ∧ x < p + 4 ∨ p + 8 ≤ x ∧ x < p + 16)) : coalesceNext m p x = m x := by
  unfold coalesceNext
  dsimp only
  split
  · rw [setNext_outside (by omega), setSize_outside (by omega)]
  · rfl

theorem coalescePrev_outside {m : Store} {fh p x : Nat}
    (hx : ¬(p ≤ x ∧ x < p + 4 ∨ p + 8 ≤ x ∧ x < p + 16)) : coalescePrev m fh p x = m x := by
  unfold coalescePrev
  split
  · dsimp only
    rw [setNext_outside (by omega), setSize_outside (by omega)]
  · rfl

theorem coalesceNext_seg {m : Store} {p : Nat} {pre post : List Span} {b : Span}
    (hseg : Seg m p (pre ++ b :: post) 0) (hh : Hdrs (pre ++ b :: post))
    (hb : b.stop < 2 ^ 64) (hpost : ∀ c ∈ post, c.addr < 2 ^ 64)
    (hsum : ∀ c ∈ post, b.stop = c.addr → b.size + c.size < 2 ^ 31) :
    Seg (coalesceNext m b.addr) p (pre ++ glueNext b post) 0 := by
  obtain ⟨r, hpre, hra, hb0, hbs, hrest⟩ := seg_append.mp hseg
  obtain ⟨_, hh2, hh3⟩ := List.pairwise_append.mp hh
  have hh4 := (List.pairwise_cons.mp hh2).1
  have hnext := hrest.head
  have hstop : ptrAdd b.addr (blockSize m b.addr) = b.stop := ptrAdd_of_toInt hbs hb
  cases post with
  | nil =>
      have h0 : blockNext m b.addr = 0 := hnext
      unfold coalesceNext
      dsimp only
      rw [if_neg (by rw [h0]; simp)]
      exact hseg
  | cons c cs =>
      have hn : blockNext m b.addr = c.addr := hnext
      have hc0 : c.addr ≠ 0 := hrest.2.1
      by_cases heq : b.stop = c.addr
      · -- the two touch: one header takes both sizes and the link of the second
        rw [glueNext, if_pos heq]
        have hcb := hh4 c (by simp)
        unfold coalesceNext
        dsimp only
        rw [if_pos ⟨by rw [hn]; exact hc0, by rw [hstop, hn, heq]⟩, hn, blockNext_setSize, hn]
        set m' := setSize m b.addr (blockSize m b.addr + blockSize m c.addr) with hm'
        have hnc : blockNext m' c.addr = blockNext m c.addr :=
          blockNext_congr fun x h1 h2 => setSize_outside (by omega)
        have hlast := hrest.2.2.2
        have hlt : blockNext m c.addr < 2 ^ 64 := by
          rw [hlast.head]
          cases cs with
          | nil => decide
          | cons d ds => exact hpost d (by simp)
        have hout : ∀ x, ¬(b.addr ≤ x ∧ x < b.addr + 16) →
            setNext m' b.addr (blockNext m' c.addr) x = m x := fun x hx => by
          rw [setNext_outside (by omega), hm', setSize_outside (by omega)]
        have hs := hsum c (by simp) heq
        have hbn : (0 : Int) ≤ b.size := by omega
        refine seg_append.mpr ⟨r, ?_, ?_⟩
        · refine hpre.congr fun d hd x h1 h2 => (hout x ?_).symm
          have := hh3 d hd b (by simp)
          omega
        · refine ⟨hra, hb0, ?_, ?_⟩
          · show (blockSize (setNext m' b.addr _) b.addr).toInt = (b.size + c.size : Nat)
            rw [blockSize_setNext, hm', blockSize_setSize,
              toInt_add_of_range (by rw [hbs, hrest.2.2.1]; omega)
                (by rw [hbs, hrest.2.2.1]; omega), hbs, hrest.2.2.1]
            push_cast; rfl
          · show Seg _ (blockNext (setNext m' b.addr _) b.addr) cs 0
            rw [blockNext_setNext (by rw [hnc]; exact hlt), hnc]
            refine hlast.congr fun d hd x h1 h2 => ?_
            have := hh4 d (by simp [hd])
            rw [← hnc]
            exact (hout x (by omega)).symm
      · rw [glueNext, if_neg heq]
        unfold coalesceNext
        dsimp only
        rw [if_neg (by rw [hstop, hn]; exact fun h => heq h.2)]
        exact hseg

/-- Merging into the node before is merging that node with its successor. -/
theorem coalescePrev_eq {m : Store} {fh prev : Nat} (hp : prev ≠ 0) (hf : fh ≠ 0)
    (hn : blockNext m prev = fh) : coalescePrev m fh prev = coalesceNext m prev := by
  unfold coalescePrev coalesceNext
  dsimp only
  rw [hn]
  by_cases h : ptrAdd prev (blockSize m prev) = fh
  · rw [if_pos ⟨hp, h⟩, if_pos ⟨hf, h⟩, blockNext_setSize, hn]
  · rw [if_neg fun hc => h hc.2, if_neg fun hc => h hc.2]

/-! ## `Mem_Free` as a whole -/

/-- The freed block lies between the blocks before and after it. -/
theorem freed_between {r : Region} {h : Heap} {pre post live : List Span} {b : Span}
    (hi : HeapInv r h (pre ++ post) (b :: live)) (h1 : ∀ c ∈ pre, c.addr ≤ b.addr)
    (h2 : ∀ c ∈ post.head?, b.addr < c.addr) :
    (∀ c ∈ pre, c.stop ≤ b.addr) ∧ ∀ c ∈ post, b.stop ≤ c.addr := by
  have hap : ∀ c ∈ pre ++ post, Span.Apart c b := fun c hc =>
    hi.part.apart_of_append hc (by simp)
  have hpos := hi.part.pos b (by simp)
  constructor
  · intro c hc
    have h := hap c (by simp [hc])
    have := h1 c hc
    unfold Span.Apart Span.stop at *
    omega
  · have hord : ∀ c ∈ post, b.addr < c.addr := by
      cases post with
      | nil => simp
      | cons d ds =>
          have hd := h2 d (by simp)
          have hs := (List.pairwise_append.mp hi.spaced.increasing).2.1
          intro c hc
          rcases List.mem_cons.mp hc with rfl | hc
          · exact hd
          · have := (List.pairwise_cons.mp hs).1 c hc
            omega
    intro c hc
    have h := hap c (by simp [hc])
    have := hord c hc
    have hcpos := hi.part.pos c (by simp [hc])
    unfold Span.Apart Span.stop at *
    omega

/-- The list `Mem_Free` leaves when the block goes between `pre` and `post`. -/
def freedList (pre : List Span) (b : Span) (post : List Span) : List Span :=
  match pre.getLast? with
  | none => glueNext b post
  | some a => pre.dropLast ++ glueNext a (glueNext b post)

theorem freedList_nil (b : Span) (post : List Span) : freedList [] b post = glueNext b post := rfl

theorem freedList_concat (pre : List Span) (a b : Span) (post : List Span) :
    freedList (pre ++ [a]) b post = pre ++ glueNext a (glueNext b post) := by
  simp [freedList]

/-- `freedList` lists the freed block among the others, up to merging. -/
theorem freedList_props {lo hi : Nat} {pre post live : List Span} {b : Span}
    (hp : Partition lo hi ((pre ++ post) ++ b :: live)) (hs : Spaced (pre ++ post))
    (hbtw : (∀ c ∈ pre, c.stop ≤ b.addr) ∧ ∀ c ∈ post, b.stop ≤ c.addr) :
    Partition lo hi (freedList pre b post ++ live) ∧ Spaced (freedList pre b post)
      ∧ ∀ d ∈ freedList pre b post, ∃ c ∈ b :: (pre ++ post), d.addr = c.addr ∧ c.size ≤ d.size := by
  obtain ⟨hpre, hpost⟩ := hbtw
  have hp1 : Partition lo hi ((pre ++ b :: post) ++ live) :=
    hp.perm (List.perm_middle.trans (perm_pull pre post live b).symm)
  obtain ⟨hs1, hs2, hs3⟩ := List.pairwise_append.mp hs
  have hg1 := spaced_glueNext hs2 hpost
  rcases List.eq_nil_or_concat' pre with rfl | ⟨pre, a, rfl⟩
  · rw [freedList_nil]
    refine ⟨partition_glueNext [] hp1, hg1, ?_⟩
    intro d hd
    rcases mem_glueNext hd with h | h
    · exact ⟨b, by simp, h.1, h.2⟩
    · exact ⟨d, by simp [h], rfl, Nat.le_refl _⟩
  · rw [freedList_concat]
    obtain ⟨hs4, -, hs5⟩ := List.pairwise_append.mp hs1
    have hab : a.stop ≤ b.addr := hpre a (by simp)
    have haddr : ∀ c ∈ glueNext b post, a.stop ≤ c.addr := by
      intro c hc
      rcases mem_glueNext hc with h | h
      · omega
      · exact Nat.le_of_lt (hs3 a (by simp) c h)
    have hp2 : Partition lo hi ((pre ++ a :: glueNext b post) ++ live) := by
      have := partition_glueNext (pre ++ [a]) hp1
      rwa [List.append_assoc pre] at this
    refine ⟨partition_glueNext pre hp2, ?_, ?_⟩
    · refine List.pairwise_append.mpr ⟨hs4, spaced_glueNext hg1 haddr, ?_⟩
      intro e he d hd
      have hea := hs5 e he a (by simp)
      rcases mem_glueNext hd with h | h
      · omega
      · have := haddr d h
        unfold Span.stop at *
        omega
    · intro d hd
      rcases List.mem_append.mp hd with hd | hd
      · exact ⟨d, by simp [hd], rfl, Nat.le_refl _⟩
      · rcases mem_glueNext hd with h | h
        · exact ⟨a, by simp, h.1, h.2⟩
        · rcases mem_glueNext h with h | h
          · exact ⟨b, by simp, h.1, h.2⟩
          · exact ⟨d, by simp [h], rfl, Nat.le_refl _⟩

/-! ## The memory after `Mem_Free` -/

theorem linkIn_seg {h : Heap} {pre post : List Span} {b : Span}
    (hseg : Seg h.mem h.head (pre ++ post) 0) (hh : Hdrs (pre ++ b :: post)) (hb0 : b.addr ≠ 0)
    (hbs : (blockSize h.mem b.addr).toInt = b.size)
    (hlt : ∀ c ∈ b :: post, c.addr < 2 ^ 64) :
    Seg (linkIn h b.addr (headAddr post) (lastAddr 0 pre)).mem
      (linkIn h b.addr (headAddr post) (lastAddr 0 pre)).head (pre ++ b :: post) 0 := by
  obtain ⟨-, hh2, hh3⟩ := List.pairwise_append.mp hh
  have hsep : ∀ c ∈ pre, c.addr + 16 ≤ b.addr := fun c hc => hh3 c hc b (by simp)
  have hab : ∀ c ∈ post, b.addr + 16 ≤ c.addr := (List.pairwise_cons.mp hh2).1
  have hpost : headAddr post < 2 ^ 64 := by
    cases post with
    | nil => decide
    | cons c cs => exact hlt c (by simp)
  have hout : ∀ x, ¬(b.addr ≤ x ∧ x < b.addr + 16) →
      setNext h.mem b.addr (headAddr post) x = h.mem x := fun x hx => setNext_outside (by omega)
  obtain ⟨q, hq1, hq2⟩ := seg_append.mp hseg
  rw [linkIn_eq hseg hsep]
  refine setLink_seg (r := q) (hlt b (by simp)) ?_ ⟨rfl, hb0, ?_, ?_⟩ hh
  · refine hq1.congr fun c hc x h1 h2 => (hout x ?_).symm
    have := hsep c hc
    omega
  · show (blockSize (setNext h.mem b.addr (headAddr post)) b.addr).toInt = b.size
    rw [blockSize_setNext]; exact hbs
  · show Seg (setNext h.mem b.addr (headAddr post))
      (blockNext (setNext h.mem b.addr (headAddr post)) b.addr) post 0
    rw [blockNext_setNext hpost, ← hq2.head]
    refine hq2.congr fun c hc x h1 h2 => ?_
    have := hab c hc
    rw [hq2.head]
    exact (hout x (by omega)).symm

theorem hdrs_glueNext {pre l : List Span} {b : Span} (h : Hdrs (pre ++ b :: l)) :
    Hdrs (pre ++ glueNext b l) := by
  cases l with
  | nil => exact h
  | cons c cs =>
      rw [glueNext]
      split
      · -- only addresses matter, and the merged block keeps the first one
        obtain ⟨h1, h2, h3⟩ := List.pairwise_append.mp h
        obtain ⟨h4, h5⟩ := List.pairwise_cons.mp h2
        refine List.pairwise_append.mpr ⟨h1, List.pairwise_cons.mpr ⟨?_, ?_⟩, ?_⟩
        · exact fun d hd => h4 d (by simp [hd])
        · exact (List.pairwise_cons.mp h5).2
        · intro d hd e he
          rcases List.mem_cons.mp he with rfl | he
          · exact h3 d hd b (by simp)
          · exact h3 d hd e (by simp [he])
      · exact h

theorem stop_glueNext {hi : Nat} {b d : Span} {l : List Span} (h : ∀ c ∈ b :: l, c.stop ≤ hi)
    (hd : d ∈ glueNext b l) : d.stop ≤ hi := by
  cases l with
  | nil =>
      rw [glueNext, List.mem_singleton] at hd
      exact hd ▸ h b (by simp)
  | cons c cs =>
      rw [glueNext] at hd
      split at hd
      · rename_i heq
        rcases List.mem_cons.mp hd with rfl | hd
        · have := h c (by simp)
          unfold Span.stop at *
          dsimp only
          omega
        · exact h d (by simp [hd])
      · exact h d hd

theorem headAddr_glueNext (b : Span) (l : List Span) : headAddr (glueNext b l) = b.addr := by
  cases l with
  | nil => rfl
  | cons c cs => rw [glueNext]; split <;> rfl

/-- Both coalescing tests, in a region of fewer than `2 ^ 31` bytes. -/
theorem coalesce_seg {m : Store} {p lo hi : Nat} {pre post : List Span} {b : Span}
    (hseg : Seg m p (pre ++ b :: post) 0) (hh : Hdrs (pre ++ b :: post))
    (hin : ∀ c ∈ pre ++ b :: post, lo ≤ c.addr ∧ c.stop ≤ hi) (hhi : hi < 2 ^ 64)
    (hsize : hi - lo < 2 ^ 31) :
    Seg (coalescePrev (coalesceNext m b.addr) b.addr (lastAddr 0 pre)) p
      (freedList pre b post) 0 := by
  have hb := hin b (by simp)
  have hb0 : b.addr ≠ 0 := hseg.ne_zero b (by simp)
  have hnext : Seg (coalesceNext m b.addr) p (pre ++ glueNext b post) 0 := by
    refine coalesceNext_seg hseg hh (by omega) ?_ ?_
    · intro c hc
      have := hin c (by simp [hc])
      unfold Span.stop at this
      omega
    · intro c hc heq
      have := hin c (by simp [hc])
      unfold Span.stop at *
      omega
  rcases List.eq_nil_or_concat' pre with rfl | ⟨pre, a, rfl⟩
  · rw [freedList_nil]
    unfold coalescePrev
    rw [if_neg (by simp)]
    exact hnext
  · rw [freedList_concat, lastAddr_concat]
    have ha := hin a (by simp)
    have hh' := hdrs_glueNext hh
    rw [List.append_assoc, List.singleton_append] at hnext hh'
    obtain ⟨q, -, hq⟩ := seg_append.mp hnext
    have hn : blockNext (coalesceNext m b.addr) a.addr = b.addr :=
      hq.2.2.2.head.trans (headAddr_glueNext b post)
    have hstop : ∀ c ∈ glueNext b post, c.stop ≤ hi := fun c hc =>
      stop_glueNext (fun d hd => (hin d (List.mem_append_right _ hd)).2) hc
    -- the node before `b` still points to it, merged or not
    rw [coalescePrev_eq hq.2.1 hb0 hn]
    refine coalesceNext_seg hnext hh' (by omega) ?_ ?_
    · intro c hc
      have := hstop c hc
      unfold Span.stop at this
      omega
    · intro c hc heq
      have := hstop c hc
      unfold Span.stop at *
      omega

/-- `Mem_Free` writes only to the fields of the freed block and the one before it. -/
theorem freed_outside {h : Heap} {pre post : List Span} {b : Span} {x : Nat}
    (hseg : Seg h.mem h.head (pre ++ post) 0) (hsep : ∀ c ∈ pre, c.addr + 16 ≤ b.addr)
    (hx : ∀ c ∈ b :: pre, ¬(c.addr ≤ x ∧ x < c.addr + 4 ∨ c.addr + 8 ≤ x ∧ x < c.addr + 16)) :
    coalescePrev (coalesceNext (linkIn h b.addr (headAddr post) (lastAddr 0 pre)).mem b.addr)
      b.addr (lastAddr 0 pre) x = h.mem x := by
  have hlast : coalescePrev (coalesceNext (linkIn h b.addr (headAddr post) (lastAddr 0 pre)).mem
      b.addr) b.addr (lastAddr 0 pre) x
      = coalesceNext (linkIn h b.addr (headAddr post) (lastAddr 0 pre)).mem b.addr x := by
    rcases List.eq_nil_or_concat' pre with rfl | ⟨pre, a, rfl⟩
    · unfold coalescePrev; rw [if_neg (by simp)]
    · rw [lastAddr_concat]
      exact coalescePrev_outside (hx a (by simp))
  have hb := hx b (by simp)
  rw [hlast, coalesceNext_outside hb, linkIn_eq hseg hsep, setLink_outside]
  · exact setNext_outside (by omega)
  · intro c hc
    have := hx c (by simp [hc])
    omega

/-! ## `Mem_Free` as a whole -/

/--
**`Mem_Free` on a well-formed heap.** With fuel to walk the list, it returns 0. The
magic number lies in the padding of the new `block_t` and stays where it is.
-/
theorem memFree_spec {r : Region} {h : Heap} {free live : List Span} {b : Span}
    (hi : HeapInv r h free (b :: live)) {fuel : Nat} (hfuel : free.length < fuel) :
    ∃ h' free', memFree fuel h (b.addr + 8) = some (0, h')
      ∧ HeapInv r h' free' live
      ∧ Within (b :: free) h.mem h'.mem
      ∧ h'.mError = h.mError
      ∧ usedMagic h'.mem b.addr = magicNum := by
  have hbm : b ∈ free ++ b :: live := by simp
  have hbase := r.base_pos
  have hstop := r.stop_lt
  have hszlt := r.size_lt
  obtain ⟨hb1, hb2⟩ := hi.inside hbm
  obtain ⟨hbs, hbmagic⟩ := hi.header b (by simp)
  have hheader : ptrAdd (b.addr + 8) (-sizeofUsed) = b.addr := by
    have h8 : (-sizeofUsed).toInt = -8 := rfl
    unfold ptrAdd; rw [h8]; omega
  -- the header is rewritten with the size it already has
  let h0 : Heap := { h with mem := setSize h.mem b.addr (blockSize h.mem b.addr) }
  have hout0 : ∀ x, ¬(b.addr ≤ x ∧ x < b.addr + 16) → h0.mem x = h.mem x := fun x hx =>
    setSize_outside (by omega)
  have hlist0 : Seg h0.mem h0.head free 0 := by
    refine hi.list.congr fun c hc x h1 h2 => (hout0 x ?_).symm
    have hap := hi.part.apart_of_append hc (c := b) (by simp)
    have := hi.roomy c (by simp [hc])
    have := hi.roomy b hbm
    unfold Span.Apart Span.stop at hap
    omega
  obtain ⟨pre, post, rfl, hloop, hpre, hpost⟩ := insertLoop_spec b.addr free fuel h0.head 0
    hlist0 hfuel
  have hbtw := freed_between hi hpre hpost
  have hmid : ∀ c ∈ pre ++ b :: post, c ∈ (pre ++ post) ++ b :: live := by
    intro c hc
    rcases List.mem_append.mp hc with hc | hc
    · simp [hc]
    · rcases List.mem_cons.mp hc with rfl | hc
      · simp
      · simp [hc]
  have hhdrs : Hdrs (pre ++ b :: post) := by
    obtain ⟨hd1, hd2, hd3⟩ := List.pairwise_append.mp hi.hdrs
    refine List.pairwise_append.mpr ⟨hd1, List.pairwise_cons.mpr ⟨?_, hd2⟩, ?_⟩
    · intro c hc
      have := hbtw.2 c hc
      have := hi.roomy b hbm
      unfold Span.stop at *
      omega
    · intro c hc d hd
      rcases List.mem_cons.mp hd with rfl | hd
      · have := hbtw.1 c hc
        have := hi.roomy c (by simp [hc])
        unfold Span.stop at *
        omega
      · exact hd3 c hc d hd
  have hsep : ∀ c ∈ pre, c.addr + 16 ≤ b.addr := fun c hc =>
    (List.pairwise_append.mp hhdrs).2.2 c hc b (by simp)
  have hin : ∀ c ∈ pre ++ b :: post, r.base ≤ c.addr ∧ c.stop ≤ r.base + r.size := fun c hc =>
    hi.part.inside (hmid c hc)
  have hlink := linkIn_seg hlist0 hhdrs (by omega) (by rw [blockSize_setSize]; exact hbs)
    (fun c hc => by
      have := hin c (List.mem_append_right _ hc)
      unfold Span.stop at this
      omega)
  obtain ⟨hP, hS, hmem⟩ := freedList_props hi.part hi.spaced hbtw
  let h' : Heap := { linkIn h0 b.addr (headAddr post) (lastAddr 0 pre) with
    mem := coalescePrev (coalesceNext (linkIn h0 b.addr (headAddr post) (lastAddr 0 pre)).mem b.addr)
      b.addr (lastAddr 0 pre) }
  -- all writes go to headers of the freed block and the block before it
  have hwithin : Within (b :: (pre ++ post)) h.mem h'.mem := by
    intro x hx
    have hx' : ∀ c ∈ b :: pre, ¬(c.addr ≤ x ∧ x < c.addr + 16) := by
      intro c hc hcov
      have hcm : c ∈ b :: (pre ++ post) := by
        rcases List.mem_cons.mp hc with rfl | hc
        · simp
        · simp [hc]
      have : 16 ≤ c.size := hi.roomy c (hmid c (by
        rcases List.mem_cons.mp hc with rfl | hc
        · simp
        · simp [hc]))
      exact hx c hcm ⟨hcov.1, by unfold Span.stop; omega⟩
    exact (freed_outside hlist0 hsep fun c hc hcov => hx' c hc (by omega)).trans
      (hout0 x (hx' b (by simp)))
  -- and none of them to the four bytes where the magic number is
  have hkept : ∀ x, b.addr + 4 ≤ x → x < b.addr + 8 → h'.mem x = h.mem x := by
    intro x h1 h2
    refine (freed_outside hlist0 hsep fun c hc hcov => ?_).trans (setSize_outside (by omega))
    rcases List.mem_cons.mp hc with rfl | hc
    · omega
    · have := hsep c hc
      omega
  have hap : ∀ d ∈ live, ∀ c ∈ b :: (pre ++ post), Span.Apart c d := by
    intro d hd c hc
    rcases List.mem_cons.mp hc with rfl | hc
    · exact (List.pairwise_cons.mp (List.pairwise_append.mp hi.part.apart).2.1).1 d hd
    · exact hi.part.apart_of_append hc (List.mem_cons_of_mem _ hd)
  have hfree : ∀ c ∈ b :: (pre ++ post), c ∈ (pre ++ post) ++ b :: live := by
    intro c hc
    rcases List.mem_cons.mp hc with rfl | hc
    · exact hbm
    · exact List.mem_append_left _ hc
  refine ⟨h', freedList pre b post, ?_, @HeapInv.rebuild _ _ _ _ h' _ _ [] live hi
    (coalesce_seg hlink hhdrs hin hstop (by omega)) hS hP hwithin hap
    (fun d hd => List.mem_cons_of_mem _ hd) ?_ ?_ (by simp), hwithin, ?_,
    (usedMagic_congr hkept).trans hbmagic⟩
  · unfold memFree
    rw [if_neg (by omega)]
    dsimp only
    rw [hheader, if_neg (by simpa using hbmagic), hloop]
  · intro d hd
    rw [List.append_nil] at hd
    obtain ⟨c, hc, -, hle⟩ := hmem d hd
    exact Nat.le_trans (hi.roomy c (hfree c hc)) hle
  · intro d hd
    rw [List.append_nil] at hd
    obtain ⟨c, hc, haddr, -⟩ := hmem d hd
    rw [haddr]
    exact hi.aligned c (hfree c hc)
  · show (linkIn h0 b.addr (headAddr post) (lastAddr 0 pre)).mError = h.mError
    unfold linkIn
    split
    · rfl
    · split
      · rfl
      · split <;> rfl

end Cs537.Mem
