import Cs537.Web.Fifo
import Cs537.Lib.CInt
import Mathlib.Data.Multiset.AddSub
import Mathlib.Data.Finset.Max

/-!
# The sorted modes and what a dequeue can lose

In `SFNF` and `SFF` a worker takes slot 0, copies the last request over it, sorts,
and only then drops the last slot. Between the copy and the drop the row holds the
last request twice, so the dequeue is right exactly when the slot dropped holds
that request. The sort puts a request with the largest key there. When the last
request is strictly the largest (among those after slot 0) that is one of its two
copies; when another one compares equal, or larger because a file has grown since
the last sort, `qsort` may drop the other one instead, which is then never served
while the last request is served twice.

`LastLargest` is that condition. Runs whose dequeues all meet it lose nothing, and
from such a run a dequeue that does not meet it can.
-/

namespace Cs537.Web

open Lib

variable {workers size : Nat} {w : World workers} {mode : Mode} {stat : Stat}

/-- Nothing is lost and nothing is duplicated. -/
def Conserved (w : World workers) : Prop :=
  (w.accepted : Multiset HttpInfo) = w.served + w.server.row

/-- The last request compares strictly above every other one behind slot 0. -/
def LastLargest (cmp : Comparator) (row : List HttpInfo) : Prop :=
  ∀ last, row.getLast? = some last → ∀ x ∈ row.tail, x ≠ last → ∃ c, cmp last x = some c ∧ 0 < c

/-- Runs in which the last request is strictly the largest whenever a worker dequeues. -/
inductive Orderly (mode : Mode) (size : Nat) : World workers → Prop where
  | init {buffer : List HttpInfo} : buffer.length = size → Orderly mode size (World.start mode buffer)
  | accept {w : World workers} {stat : Stat} {info : HttpInfo} {s : Server} :
      Orderly mode size w → Enqueue stat info w.server s →
      Orderly mode size { w with server := s, accepted := w.accepted ++ [info] }
  | serve {w : World workers} {stat : Stat} {info : HttpInfo} {s : Server} (k : Fin workers) :
      Orderly mode size w → LastLargest (comparator stat mode) w.server.row →
      Dequeue stat w.server info s →
      Orderly mode size { w with server := s, taken := w.taken ++ [(k, info)] }

/-- The counters of a sorted mode. -/
structure RowInv (mode : Mode) (size : Nat) (s : Server) : Prop where
  mode_eq : s.mode = mode
  size_eq : s.size = size
  length : s.buffer.length = size
  numfull_le : s.numfull ≤ size

theorem RowInv.row_length {s : Server} (h : RowInv mode size s) : s.row.length = s.numfull := by
  unfold Server.row
  rw [List.length_take, h.length]
  exact Nat.min_eq_left h.numfull_le

/-! ## What one critical section does to the row -/

theorem sortFirst_take {cmp : Comparator} {n : Nat} {buf buf' : List HttpInfo}
    (h : SortFirst cmp n buf buf') (hn : n ≤ buf.length) :
    Qsort cmp (buf.take n) (buf'.take n) ∧ buf'.length = buf.length := by
  obtain ⟨l', hq, rfl⟩ := h
  have hl : l'.length = n := by rw [hq.1.length_eq, List.length_take, Nat.min_eq_left hn]
  refine ⟨?_, by rw [List.length_append, hl, List.length_drop]; omega⟩
  have htake : (l' ++ buf.drop n).take n = l' := by
    rw [List.take_append_of_le_length (by omega), List.take_of_length_le (by omega)]
  rw [htake]
  exact hq

/-- `main` adds the request to the row. -/
theorem enqueue_row {info : HttpInfo} {s s' : Server} (h : RowInv mode size s) (hm : mode ≠ .fifo)
    (he : Enqueue stat info s s') : RowInv mode size s' ∧ s'.row.Perm (s.row ++ [info]) := by
  obtain ⟨hmode, hsz, hlen, hle⟩ := h
  cases he with
  | fifo hf => exact absurd (hmode.symm.trans hf) hm
  | @sorted buf _ hfull hsort =>
      rw [hsz] at hfull
      obtain ⟨⟨hperm, -⟩, hlen'⟩ := sortFirst_take hsort (by rw [List.length_set]; omega)
      refine ⟨⟨hmode, hsz, by rw [hlen', List.length_set]; exact hlen, ?_⟩, ?_⟩
      · show s.numfull + 1 ≤ size
        omega
      · show (buf.take (s.numfull + 1)).Perm (s.buffer.take s.numfull ++ [info])
        refine hperm.trans (List.Perm.of_eq ?_)
        rw [List.take_add_one, List.getElem?_set_self (by omega), List.take_set_of_le (Nat.le_refl _)]
        rfl

/-- With the last request copied over the first, the row starts with it. -/
theorem moveLast_take {s : Server} {first last : HttpInfo} (h : RowInv mode size s)
    (hfirst : s.buffer[0]? = some first) (hlast : s.buffer[s.numfull - 1]? = some last)
    (hne : s.numfull ≠ 0) :
    s.row = first :: s.row.tail ∧ s.row.getLast? = some last
      ∧ (moveLast s first last).take s.numfull = last :: s.row.tail
      ∧ (moveLast s first last).length = size := by
  have hlen := h.row_length
  have hrow0 : s.row[0]? = some first := by
    unfold Server.row; rw [List.getElem?_take_of_lt (by omega)]; exact hfirst
  have hrowL : s.row[s.numfull - 1]? = some last := by
    unfold Server.row; rw [List.getElem?_take_of_lt (by omega)]; exact hlast
  have hcons : s.row = first :: s.row.tail := by
    cases hr : s.row with
    | nil => rw [hr] at hrow0; simp at hrow0
    | cons a l => rw [hr] at hrow0; simp only [List.getElem?_cons_zero] at hrow0; cases hrow0; rfl
  refine ⟨hcons, by rw [List.getLast?_eq_getElem?, hlen]; exact hrowL, ?_, ?_⟩
  · unfold moveLast
    split
    · rw [copyInfo_eq, List.take_set]
      show s.row.set 0 last = _
      rw [hcons]; rfl
    · have h1 : s.numfull = 1 := by omega
      rw [h1, hfirst] at hlast
      show s.row = _
      rw [hcons, ← Option.some.inj hlast]; rfl
  · unfold moveLast
    split
    · rw [List.length_set]; exact h.length
    · exact h.length

/-- Dropping one copy of `last` from `last :: t` leaves `t`, and dropping anything else does not. -/
theorem perm_dropLast_iff {n t : List HttpInfo} {d last : HttpInfo}
    (h : (n ++ [d]).Perm (last :: t)) : n.Perm t ↔ d = last := by
  have hd : (d :: n).Perm (last :: t) := (List.perm_append_singleton d n).symm.trans h
  constructor
  · intro hn
    by_contra hne
    have hc := hd.count_eq d
    rw [List.count_cons_self, List.count_cons_of_ne (Ne.symm hne), hn.count_eq] at hc
    omega
  · rintro rfl
    exact (List.perm_cons d).mp hd

/-- A worker takes the first request; the row keeps the others iff the dropped slot held the last. -/
theorem dequeue_row {info : HttpInfo} {s s' : Server} (h : RowInv mode size s) (hm : mode ≠ .fifo)
    (hd : Dequeue stat s info s') :
    RowInv mode size s' ∧ s.row = info :: s.row.tail
      ∧ ∃ last d, s.row.getLast? = some last
        ∧ Qsort (comparator stat mode) (last :: s.row.tail) (s'.row ++ [d]) := by
  cases hd with
  | fifo hf => exact absurd (h.mode_eq.symm.trans hf) hm
  | @sorted first last garbage buf _ hempty hfirst hlast hsort =>
      obtain ⟨h1, h2, h3, h4⟩ := moveLast_take h hfirst hlast hempty
      have hle := h.numfull_le
      obtain ⟨hq, hlen'⟩ := sortFirst_take hsort (by omega)
      rw [h3, h.mode_eq] at hq
      refine ⟨⟨h.mode_eq, h.size_eq, by rw [← h4]; exact hlen', ?_⟩, by rw [copyInfo_eq]; exact h1,
        last, ?_⟩
      · show s.numfull - 1 ≤ size
        omega
      · have hbl : s.numfull - 1 < buf.length := by omega
        refine ⟨buf[s.numfull - 1], h2, ?_⟩
        show Qsort _ _ (buf.take (s.numfull - 1) ++ [buf[s.numfull - 1]])
        have hsucc : s.numfull - 1 + 1 = s.numfull := by omega
        rw [← List.take_succ_eq_append_getElem hbl, hsucc]
        exact hq

/-! ## Runs -/

/-- The dropped slot held the last request, if that one was strictly the largest. -/
theorem dropped_eq_last {cmp : Comparator} {row n : List HttpInfo} {d last : HttpInfo}
    (hl : LastLargest cmp row) (hlast : row.getLast? = some last)
    (hq : Qsort cmp (last :: row.tail) (n ++ [d])) : d = last := by
  by_contra hne
  have hd : d ∈ row.tail := by
    have : d ∈ last :: row.tail := hq.1.mem_iff.mp (by simp)
    exact (List.mem_cons.mp this).resolve_left hne
  -- one copy of `last` is kept, in front of `d`
  have hln : last ∈ n := by
    have : last ∈ n ++ [d] := hq.1.mem_iff.mpr (by simp)
    rcases List.mem_append.mp this with h | h
    · exact h
    · exact absurd (List.mem_singleton.mp h).symm hne
  obtain ⟨c, hc, hpos⟩ := hl last hlast d hd hne
  obtain ⟨c', hc', hle⟩ := (List.pairwise_append.mp hq.2).2.2 last hln d (by simp)
  rw [hc] at hc'
  cases hc'
  rw [Int32.lt_iff_toInt_lt] at hpos
  rw [Int32.le_iff_toInt_le] at hle
  omega

/-- After a dequeue, conservation says the row kept everything but the request taken. -/
theorem conserved_serve_iff {info : HttpInfo} {s : Server} {k : Fin workers} (hc : Conserved w)
    (hrow : w.server.row = info :: w.server.row.tail) :
    Conserved { w with server := s, taken := w.taken ++ [(k, info)] }
      ↔ s.row.Perm w.server.row.tail := by
  unfold Conserved at hc ⊢
  show (w.accepted : Multiset HttpInfo) = ((w.taken ++ [(k, info)]).map Prod.snd : List HttpInfo)
    + s.row ↔ _
  rw [hc, hrow, List.map_append, Multiset.coe_add, Multiset.coe_add, Multiset.coe_eq_coe]
  show (w.served ++ info :: w.server.row.tail).Perm (w.served ++ [info] ++ s.row) ↔ _
  rw [List.append_assoc, List.perm_append_left_iff, List.singleton_append, List.perm_cons]
  exact List.perm_comm

theorem orderly_inv (hm : mode ≠ .fifo) (h : Orderly mode size w) :
    RowInv mode size w.server ∧ Conserved w := by
  induction h with
  | init hl => exact ⟨⟨rfl, hl, hl, Nat.zero_le _⟩, rfl⟩
  | @accept w stat info s _ he ih =>
      obtain ⟨hinv, hc⟩ := ih
      obtain ⟨hinv', hrow⟩ := enqueue_row hinv hm he
      refine ⟨hinv', ?_⟩
      show ((w.accepted ++ [info] : List HttpInfo) : Multiset HttpInfo) = w.served + s.row
      have hc' : (w.accepted : Multiset HttpInfo) = w.served + w.server.row := hc
      rw [Multiset.coe_eq_coe.mpr hrow, ← Multiset.coe_add, ← Multiset.coe_add, hc', add_assoc]
  | @serve w stat info s k _ hl hd ih =>
      obtain ⟨hinv, hc⟩ := ih
      obtain ⟨hinv', hrow, last, d, hlast, hq⟩ := dequeue_row hinv hm hd
      -- the dropped slot held the second copy of the last request
      refine ⟨hinv', (conserved_serve_iff hc hrow).mpr ?_⟩
      exact (perm_dropLast_iff hq.1).mpr (dropped_eq_last hl hlast hq)

/-! ## The condition is exact -/

/-- On the requests of `l`, the comparator orders by `key`. -/
def OrdersBy (cmp : Comparator) (key : HttpInfo → Int) (l : List HttpInfo) : Prop :=
  ∀ a ∈ l, ∀ b ∈ l, ∃ c, cmp a b = some c ∧ (c ≤ 0 ↔ key a ≤ key b)

/-- File names are short, so `sfnfCompare` orders by their length. -/
theorem sfnfCompare_ordersBy (l : List HttpInfo) :
    OrdersBy sfnfCompare (fun x => x.filename.chars.length) l := by
  intro a _ b _
  refine ⟨_, rfl, ?_⟩
  have ha := a.filename.short
  have hb := b.filename.short
  unfold maxLine at ha hb
  rw [Int32.le_iff_toInt_le, Int32.toInt_ofInt_of_le (by omega) (by omega)]
  show (a.filename.chars.length : Int) - b.filename.chars.length ≤ 0
    ↔ (a.filename.chars.length : Int) ≤ b.filename.chars.length
  omega

/-- `qsort` may leave any request with the largest key in the last place. -/
theorem exists_qsort_last {cmp : Comparator} {key : HttpInfo → Int} {l : List HttpInfo}
    {y : HttpInfo} (ho : OrdersBy cmp key l) (hy : y ∈ l) (hmax : ∀ x ∈ l, key x ≤ key y) :
    ∃ n, Qsort cmp l (n ++ [y]) := by
  let le : HttpInfo → HttpInfo → Bool := fun a b => decide (key a ≤ key b)
  have hperm : (List.mergeSort (l.erase y) le).Perm (l.erase y) := List.mergeSort_perm _ _
  have hsort : (List.mergeSort (l.erase y) le).Pairwise fun a b => le a b = true :=
    List.pairwise_mergeSort
      (fun a b c h1 h2 => by simp only [le, decide_eq_true_eq] at *; omega)
      (fun a b => by simp only [le, Bool.or_eq_true, decide_eq_true_eq]; omega) _
  have hmem : ∀ x ∈ List.mergeSort (l.erase y) le, x ∈ l :=
    fun x hx => List.mem_of_mem_erase (hperm.mem_iff.mp hx)
  refine ⟨List.mergeSort (l.erase y) le, (List.perm_append_singleton y _).trans ((List.Perm.cons y hperm).trans
    (List.perm_cons_erase hy).symm), List.pairwise_append.mpr ⟨?_, List.pairwise_singleton _ _, ?_⟩⟩
  · refine List.Pairwise.imp_of_mem ?_ hsort
    intro a b ha hb hab
    obtain ⟨c, hc, hiff⟩ := ho a (hmem a ha) b (hmem b hb)
    exact ⟨c, hc, hiff.mpr (of_decide_eq_true hab)⟩
  · intro a ha b hb
    rw [List.mem_singleton] at hb
    subst hb
    obtain ⟨c, hc, hiff⟩ := ho a (hmem a ha) b hy
    exact ⟨c, hc, hiff.mpr (hmax a (hmem a ha))⟩

/-- Whatever order the sort leaves, the worker's critical section can be taken with it. -/
theorem exists_dequeue {s : Server} {first last d : HttpInfo} {n : List HttpInfo}
    (h : RowInv mode size s) (hm : mode ≠ .fifo) (hne : s.numfull ≠ 0)
    (hrow : s.row = first :: s.row.tail) (hlast : s.row.getLast? = some last)
    (hq : Qsort (comparator stat mode) (last :: s.row.tail) (n ++ [d])) :
    ∃ s', Dequeue stat s first s' ∧ s'.row = n := by
  have hlen := h.row_length
  have hle := h.numfull_le
  have hfirst : s.buffer[0]? = some first := by
    have h0 : s.row[0]? = some first := by rw [hrow]; rfl
    unfold Server.row at h0
    rwa [List.getElem?_take_of_lt (by omega)] at h0
  have hlast' : s.buffer[s.numfull - 1]? = some last := by
    rw [List.getLast?_eq_getElem?, hlen] at hlast
    unfold Server.row at hlast
    rwa [List.getElem?_take_of_lt (by omega)] at hlast
  obtain ⟨-, -, h3, -⟩ := moveLast_take h hfirst hlast' hne
  have hnlen : n.length + 1 = s.numfull := by
    have h1 := hq.1.length_eq
    have h2 := congrArg List.length hrow
    simp only [List.length_append, List.length_cons, List.length_nil] at h1 h2
    omega
  have hstep := @Dequeue.sorted stat s first last first _
    (by rw [h.mode_eq]; exact hm) hne hfirst hlast'
    ⟨n ++ [d], by rw [h3, h.mode_eq]; exact hq, rfl⟩
  rw [copyInfo_eq] at hstep
  refine ⟨_, hstep, ?_⟩
  show (n ++ [d] ++ (moveLast s first last).drop s.numfull).take (s.numfull - 1) = n
  rw [List.append_assoc, List.take_append_of_le_length (by omega), List.take_of_length_le (by omega)]

/-- If the last request is not strictly the largest, some outcome of `qsort` drops another. -/
theorem exists_drop {cmp : Comparator} {key : HttpInfo → Int} {row : List HttpInfo}
    {last : HttpInfo} (hlast : row.getLast? = some last) (ho : OrdersBy cmp key (last :: row.tail))
    (hnot : ¬LastLargest cmp row) : ∃ n d, Qsort cmp (last :: row.tail) (n ++ [d]) ∧ d ≠ last := by
  unfold LastLargest at hnot
  push Not at hnot
  obtain ⟨last', hlast', x, hx, hne, hcmp⟩ := hnot
  rw [hlast] at hlast'
  cases hlast'
  have hkey : key last ≤ key x := by
    obtain ⟨c, hc, hiff⟩ := ho last (by simp) x (by simp [hx])
    exact hiff.mp (Int32.not_lt.mp fun h => (hcmp c hc) h)
  -- the largest of the requests other than `last`
  have hnonempty : (row.tail.toFinset.filter (· ≠ last)).Nonempty :=
    ⟨x, by simp [hx, hne]⟩
  obtain ⟨y, hy, hmax⟩ := Finset.exists_max_image _ key hnonempty
  simp only [Finset.mem_filter, List.mem_toFinset] at hy hmax
  have hmax' : ∀ z ∈ last :: row.tail, key z ≤ key y := by
    intro z hz
    have hxy := hmax x ⟨hx, hne⟩
    rcases List.mem_cons.mp hz with rfl | hz
    · omega
    · by_cases hzl : z = last
      · rw [hzl]; omega
      · exact hmax z ⟨hz, hzl⟩
  obtain ⟨n, hn⟩ := exists_qsort_last ho (List.mem_cons_of_mem _ hy.1) hmax'
  exact ⟨n, y, hn, hy.2⟩

/--
**No request is lost or served twice, as long as the last request is strictly the
largest at every dequeue.** And the condition cannot be relaxed: where the
comparator orders the queued requests by some key, the next dequeue conserves
whatever `qsort` does exactly when it holds.
-/
theorem orderly_conserved {workers size : Nat} {mode : Mode} (hm : mode ≠ .fifo)
    {w : World workers} (h : Orderly mode size w) :
    Conserved w ∧ ∀ (stat : Stat) (key : HttpInfo → Int) (k : Fin workers),
      OrdersBy (comparator stat mode) key w.server.row →
      ((∀ info s, Dequeue stat w.server info s →
          Conserved { w with server := s, taken := w.taken ++ [(k, info)] })
        ↔ LastLargest (comparator stat mode) w.server.row) := by
  obtain ⟨hinv, hc⟩ := orderly_inv hm h
  refine ⟨hc, fun stat key k ho => ⟨fun hall => ?_, fun hl info s hd => ?_⟩⟩
  · by_contra hnot
    have hlen := hinv.row_length
    cases hrow : w.server.row with
    | nil =>
        refine hnot fun last hlast => ?_
        rw [hrow] at hlast
        simp at hlast
    | cons first rest =>
        have hcons : w.server.row = first :: w.server.row.tail := by rw [hrow]; rfl
        obtain ⟨last, hlast⟩ : ∃ last, w.server.row.getLast? = some last :=
          ⟨_, List.getLast?_eq_some_getLast (by rw [hrow]; simp)⟩
        have hsub : ∀ x ∈ last :: w.server.row.tail, x ∈ w.server.row := by
          intro x hx
          rcases List.mem_cons.mp hx with rfl | hx
          · exact List.mem_of_getLast? hlast
          · exact List.mem_of_mem_tail hx
        obtain ⟨n, d, hq, hd⟩ := exists_drop hlast (fun a ha b hb => ho a (hsub a ha) b (hsub b hb))
          hnot
        obtain ⟨s, hdeq, hs⟩ := exists_dequeue hinv hm (by rw [hrow, List.length_cons] at hlen; omega)
          hcons hlast hq
        have := (conserved_serve_iff hc hcons).mp (hall first s hdeq)
        rw [hs] at this
        exact hd ((perm_dropLast_iff hq.1).mp this)
  · obtain ⟨-, hrow, last, d, hlast, hq⟩ := dequeue_row hinv hm hd
    exact (conserved_serve_iff hc hrow).mpr
      ((perm_dropLast_iff hq.1).mpr (dropped_eq_last hl hlast hq))

/-! ## Three names of one length -/

/-- Any order of the sample requests is one `qsort` may return: their names are equally long. -/
theorem qsort_sample {l l' : List (UInt8 × Int32)} (h : l'.Perm l) :
    Qsort sfnfCompare (l.map fun r => sampleRequest r.1 r.2)
      (l'.map fun r => sampleRequest r.1 r.2) := by
  refine ⟨h.map _, ?_⟩
  rw [List.pairwise_map]
  exact List.pairwise_of_forall fun a b =>
    ⟨0, by simp [sfnfCompare, sampleRequest], Int32.le_refl 0⟩

/-- `main` accepts two requests for names of one length, with three buffers. -/
theorem orderly_accepts : Orderly .sfnf 3
    { server := ⟨.sfnf, 3, [sampleRequest 49 4, sampleRequest 50 5, sampleRequest 48 3], 0, 0, 2, 0⟩
      accepted := [sampleRequest 49 4, sampleRequest 50 5]
      taken := [] : World 1 } := by
  have h0 : Orderly .sfnf 3
      (World.start .sfnf [sampleRequest 48 3, sampleRequest 48 3, sampleRequest 48 3] : World 1) :=
    Orderly.init rfl
  have h1 := h0.accept (@Enqueue.sorted (fun _ => none) (sampleRequest 49 4) _ _ (by decide)
    (by decide) ⟨_, @qsort_sample [(49, 4)] _ (List.Perm.refl _), rfl⟩)
  exact h1.accept (@Enqueue.sorted (fun _ => none) (sampleRequest 50 5) _ _ (by decide)
    (by decide) ⟨_, @qsort_sample [(49, 4), (50, 5)] _ (List.Perm.refl _), rfl⟩)

/-- With two requests queued the last one is alone behind slot 0, so nothing is lost. -/
theorem orderly_sample : ∃ w : World 1, Orderly .sfnf 3 w ∧ w.served = [sampleRequest 49 4]
    ∧ w.server.row = [sampleRequest 50 5] ∧ Conserved w := by
  have hlast : LastLargest (comparator (fun _ => none) .sfnf)
      [sampleRequest 49 4, sampleRequest 50 5] := by
    intro last hlast x hx hne
    have hx' : x = sampleRequest 50 5 := List.mem_singleton.mp hx
    exact absurd (hx'.trans (Option.some.inj hlast)) hne
  have hserve := orderly_accepts.serve 0 hlast (@Dequeue.sorted (fun _ => none) _ (sampleRequest 49 4)
    (sampleRequest 50 5) (sampleRequest 48 3) _ (by decide) (by decide) rfl rfl
    ⟨_, @qsort_sample [(50, 5), (50, 5)] _ (List.Perm.refl _), rfl⟩)
  exact ⟨_, hserve, rfl, rfl, (orderly_conserved (by decide) hserve).1⟩

theorem Orderly.reachable (h : Orderly mode size w) : Reachable mode size w := by
  induction h with
  | init hl => exact Reachable.init hl
  | accept _ he ih => exact ih.tail (Step.accept he)
  | serve k _ _ hd ih => exact ih.tail (Step.serve k hd)

/--
With a third request queued, the worker takes 1 and copies 3 over it; `qsort` may
then leave 2 in the last of the three slots, where it is dropped.
-/
theorem sfnf_loses_request : ¬∀ (workers size : Nat) (mode : Mode) (w : World workers),
    1 ≤ size → mode ≠ .fifo → Reachable mode size w → Conserved w := by
  intro hall
  have hrun := orderly_accepts.reachable.tail (Step.accept
    (@Enqueue.sorted (fun _ => none) (sampleRequest 51 6) _ _ (by decide) (by decide)
      ⟨_, @qsort_sample [(49, 4), (50, 5), (51, 6)] _ (List.Perm.refl _), rfl⟩))
  have hserve := hrun.tail (Step.serve 0 (@Dequeue.sorted (fun _ => none) _ (sampleRequest 49 4)
    (sampleRequest 51 6) (sampleRequest 48 3) _ (by decide) (by decide) rfl rfl
    ⟨_, @qsort_sample [(51, 6), (50, 5), (51, 6)] [(51, 6), (51, 6), (50, 5)] (by decide), rfl⟩))
  have hc := hall 1 3 .sfnf _ (by decide) (by decide) hserve
  -- request 2 was accepted, but it is neither taken nor queued
  have hcount := congrArg (Multiset.count (sampleRequest 50 5)) hc
  revert hcount
  decide

end Cs537.Web
