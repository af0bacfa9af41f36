import Cs537.Web.Sorted
import Cs537.Lib.StableSort

/-!
# Which request a worker takes

The sorted modes promise an order of service: the shortest file name first, or the
smallest file first. Here `qsort` is a stable sort, as the merge sort of glibc is, and
with it a dequeue keeps every other request even where keys tie: of the two copies of
the last request, the one in the last slot is still last after the sort.

What a sort can be relied on for depends on the comparator. `sfnfCompare` subtracts two
short lengths and orders by them. `sffCompare` subtracts two `off_t` and returns the low
32 bits of the difference, so it orders by size only where these have the sign of the
whole difference. The rest of the argument is the same for both modes.
-/

namespace Cs537.Web

open Lib

variable {workers size : Nat} {w : World workers} {mode : Mode} {stat : Stat} {cmp : Comparator}
  {key : HttpInfo → Int}

/-! ## The critical sections with the library's sort -/

/-- A function that `qsort` may be. -/
abbrev QsortFn := Comparator → List HttpInfo → List HttpInfo

/-- On the requests of `l`, the comparator is consistent and orders by `key`. -/
def Ranks (cmp : Comparator) (key : HttpInfo → Int) (l : List HttpInfo) : Prop :=
  ∀ a ∈ l, ∀ b ∈ l, ∃ c, cmp a b = some c ∧ (c < 0 ↔ key a < key b) ∧ (0 < c ↔ key b < key a)

/-- Where the comparator is consistent, the sort is stable. Elsewhere nothing is promised. -/
def StableQsort (sort : QsortFn) : Prop :=
  ∀ cmp key l, Ranks cmp key l → IsStableSort key l (sort cmp l)

/-- `qsort(buffer, n, …)`. -/
def sortFirst (sort : QsortFn) (cmp : Comparator) (n : Nat) (buf : List HttpInfo) : List HttpInfo :=
  sort cmp (buf.take n) ++ buf.drop n

/-- The critical section of `main` in a sorted mode; `none` while it has to wait. -/
def enqueue (sort : QsortFn) (cmp : Comparator) (info : HttpInfo) (s : Server) : Option Server :=
  if s.numfull = s.size then none
  else
    some { s with
      buffer := sortFirst sort cmp (s.numfull + 1) (s.buffer.set s.numfull info)
      numfull := s.numfull + 1 }

/-- The critical section of `worker` in a sorted mode; `garbage` is what its local holds. -/
def dequeue (sort : QsortFn) (cmp : Comparator) (garbage : HttpInfo) (s : Server) :
    Option (HttpInfo × Server) :=
  if s.numfull = 0 then none
  else do
    let first ← s.buffer[0]?
    let last ← s.buffer[s.numfull - 1]?
    some (copyInfo first garbage,
      { s with
        buffer := sortFirst sort cmp s.numfull (moveLast s first last)
        numfull := s.numfull - 1
        request := s.request + 1 })

/-- What any interleaving can reach, where `main` accepts only requests that `ok` admits. -/
inductive Sorted (sort : QsortFn) (stat : Stat) (ok : World workers → HttpInfo → Prop) (mode : Mode)
    (size : Nat) : World workers → Prop where
  | init {buffer : List HttpInfo} : buffer.length = size →
      Sorted sort stat ok mode size (World.start mode buffer)
  | accept {w : World workers} {info : HttpInfo} {s : Server} :
      Sorted sort stat ok mode size w → ok w info →
      enqueue sort (comparator stat mode) info w.server = some s →
      Sorted sort stat ok mode size { w with server := s, accepted := w.accepted ++ [info] }
  | serve {w : World workers} {info garbage : HttpInfo} {s : Server} (k : Fin workers) :
      Sorted sort stat ok mode size w →
      dequeue sort (comparator stat mode) garbage w.server = some (info, s) →
      Sorted sort stat ok mode size { w with server := s, taken := w.taken ++ [(k, info)] }

/-- The requests accepted and not yet taken. -/
def World.pending (w : World workers) : Multiset HttpInfo := (w.accepted : Multiset HttpInfo) - w.served

/-- A worker that finds a request takes a pending one, and none that is pending has a smaller key. -/
def TakesLeast (sort : QsortFn) (cmp : Comparator) (key : HttpInfo → Int) (w : World workers) : Prop :=
  ∀ garbage info s, dequeue sort cmp garbage w.server = some (info, s) →
    info ∈ w.pending ∧ ∀ x ∈ w.pending, key info ≤ key x

/-! ## What one critical section does to the row -/

theorem Ranks.subset {l m : List HttpInfo} (h : Ranks cmp key l) (hs : ∀ x ∈ m, x ∈ l) :
    Ranks cmp key m :=
  fun a ha b hb => h a (hs a ha) b (hs b hb)

theorem sortFirst_spec {sort : QsortFn} (hsort : StableQsort sort) {n : Nat} {buf : List HttpInfo}
    (hn : n ≤ buf.length) (hr : Ranks cmp key (buf.take n)) :
    IsStableSort key (buf.take n) ((sortFirst sort cmp n buf).take n)
      ∧ (sortFirst sort cmp n buf).length = buf.length := by
  have hst := hsort cmp key _ hr
  have hl : (sort cmp (buf.take n)).length = n := by
    rw [hst.perm.length_eq, List.length_take, Nat.min_eq_left hn]
  constructor
  · have htake : (sortFirst sort cmp n buf).take n = sort cmp (buf.take n) := by
      rw [sortFirst, List.take_append_of_le_length (Nat.le_of_eq hl.symm),
        List.take_of_length_le (Nat.le_of_eq hl)]
    rw [htake]
    exact hst
  · rw [sortFirst, List.length_append, hl, List.length_drop]
    omega

theorem enqueue_spec {sort : QsortFn} (hsort : StableQsort sort) {info : HttpInfo} {s s' : Server}
    (h : RowInv mode size s) (hr : Ranks cmp key (s.row ++ [info]))
    (he : enqueue sort cmp info s = some s') :
    RowInv mode size s' ∧ IsStableSort key (s.row ++ [info]) s'.row := by
  obtain ⟨hmode, hsz, hlen, hle⟩ := h
  rw [enqueue] at he
  split at he
  · cases he
  · rename_i hfull
    cases he
    rw [hsz] at hfull
    have htake : (s.buffer.set s.numfull info).take (s.numfull + 1) = s.row ++ [info] := by
      rw [List.take_add_one, List.getElem?_set_self (by omega), List.take_set_of_le (Nat.le_refl _)]
      rfl
    rw [← htake] at hr
    obtain ⟨hst, hlen'⟩ := sortFirst_spec hsort (by rw [List.length_set]; omega) hr
    rw [htake] at hst
    refine ⟨⟨hmode, hsz, by rw [hlen', List.length_set]; exact hlen, ?_⟩, hst⟩
    show s.numfull + 1 ≤ size
    omega

/-- The worker's section in terms of the row, as `dequeue_row` has it for any sort. -/
theorem dequeue_spec {sort : QsortFn} (hsort : StableQsort sort) {info garbage : HttpInfo}
    {s s' : Server} (h : RowInv mode size s) (hr : Ranks cmp key s.row)
    (hd : dequeue sort cmp garbage s = some (info, s')) :
    RowInv mode size s' ∧ s.row = info :: s.row.tail
      ∧ ∃ last d, s.row.getLast? = some last ∧ IsStableSort key (last :: s.row.tail) (s'.row ++ [d]) := by
  rw [dequeue] at hd
  split at hd
  · cases hd
  · rename_i hne
    obtain ⟨first, hfirst, hd⟩ := Option.bind_eq_some_iff.mp hd
    obtain ⟨last, hlast, hd⟩ := Option.bind_eq_some_iff.mp hd
    cases hd
    obtain ⟨hrow, hgl, htake, hlen⟩ := moveLast_take h hfirst hlast hne
    have hle := h.numfull_le
    have hr' : Ranks cmp key ((moveLast s first last).take s.numfull) := by
      refine hr.subset fun x hx => ?_
      rw [htake] at hx
      rcases List.mem_cons.mp hx with rfl | hx
      · exact List.mem_of_getLast? hgl
      · exact List.mem_of_mem_tail hx
    obtain ⟨hst, hlen'⟩ := sortFirst_spec hsort (by omega) hr'
    rw [htake] at hst
    refine ⟨⟨h.mode_eq, h.size_eq, by rw [← hlen]; exact hlen', ?_⟩, by rw [copyInfo_eq]; exact hrow,
      last, ?_⟩
    · show s.numfull - 1 ≤ size
      omega
    · have hbl : s.numfull - 1 < (sortFirst sort cmp s.numfull (moveLast s first last)).length := by
        omega
      refine ⟨(sortFirst sort cmp s.numfull (moveLast s first last))[s.numfull - 1], hgl, ?_⟩
      show IsStableSort key _ ((sortFirst sort cmp s.numfull (moveLast s first last)).take (s.numfull - 1)
        ++ [(sortFirst sort cmp s.numfull (moveLast s first last))[s.numfull - 1]])
      have hsucc : s.numfull - 1 + 1 = s.numfull := by omega
      rw [← List.take_succ_eq_append_getElem hbl, hsucc]
      exact hst

/-! ## Runs -/

/-- The row is in order, and it is what is pending. -/
structure Policy (mode : Mode) (size : Nat) (cmp : Comparator) (key : HttpInfo → Int)
    (w : World workers) : Prop where
  inv : RowInv mode size w.server
  ranks : Ranks cmp key w.server.row
  sorted : w.server.row.Pairwise fun a b => key a ≤ key b
  conserved : Conserved w

theorem policy_accept {sort : QsortFn} (hsort : StableQsort sort) {info : HttpInfo} {s : Server}
    (h : Policy mode size cmp key w) (hr : Ranks cmp key (w.server.row ++ [info]))
    (he : enqueue sort cmp info w.server = some s) :
    Policy mode size cmp key { w with server := s, accepted := w.accepted ++ [info] } := by
  obtain ⟨hinv, hst⟩ := enqueue_spec hsort h.inv hr he
  refine ⟨hinv, hr.subset fun x hx => hst.perm.mem_iff.mp hx, hst.sorted, ?_⟩
  show ((w.accepted ++ [info] : List HttpInfo) : Multiset HttpInfo) = w.served + s.row
  have hc : (w.accepted : Multiset HttpInfo) = w.served + w.server.row := h.conserved
  rw [Multiset.coe_eq_coe.mpr hst.perm, ← Multiset.coe_add, ← Multiset.coe_add, hc, add_assoc]

/-- The request dropped with the last slot is the copy of the one that was there before. -/
theorem policy_serve {sort : QsortFn} (hsort : StableQsort sort) {info garbage : HttpInfo} {s : Server}
    {k : Fin workers} (h : Policy mode size cmp key w)
    (hd : dequeue sort cmp garbage w.server = some (info, s)) :
    Policy mode size cmp key { w with server := s, taken := w.taken ++ [(k, info)] } := by
  obtain ⟨hinv, hrow, last, d, hlast, hst⟩ := dequeue_spec hsort h.inv h.ranks hd
  have htail : ∀ x ∈ w.server.row.tail, key x ≤ key last := by
    intro x hx
    have hsorted := h.sorted
    obtain ⟨n, hn⟩ := List.getLast?_eq_some_iff.mp hlast
    rw [hn] at hsorted hx
    rcases List.mem_append.mp (List.mem_of_mem_tail hx) with hx | hx
    · exact (List.pairwise_append.mp hsorted).2.2 x hx last (by simp)
    · rw [List.mem_singleton.mp hx]
  have hdl : d = last := by
    refine hst.getLast_eq ?_ ?_
    · -- `last` ends the rest of the row, or there is no rest
      rw [hrow] at hlast
      cases ht : w.server.row.tail with
      | nil => rfl
      | cons a l => rw [ht, List.getLast?_cons_cons] at hlast; rw [List.getLast?_cons_cons, hlast]
    · intro x hx
      rcases List.mem_cons.mp hx with rfl | hx
      · exact Int.le_refl _
      · exact htail x hx
  have hperm : s.row.Perm w.server.row.tail := (perm_dropLast_iff hst.perm).mpr hdl
  exact ⟨hinv, h.ranks.subset fun x hx => List.mem_of_mem_tail (hperm.mem_iff.mp hx),
    (List.pairwise_append.mp hst.sorted).1, (conserved_serve_iff h.conserved hrow).mpr hperm⟩

theorem policy_sorted {sort : QsortFn} (hsort : StableQsort sort) {ok : World workers → HttpInfo → Prop}
    (hok : ∀ w info, ok w info → Ranks (comparator stat mode) key (w.server.row ++ [info]))
    (h : Sorted sort stat ok mode size w) : Policy mode size (comparator stat mode) key w := by
  induction h with
  | init hl =>
      exact ⟨⟨rfl, hl, hl, Nat.zero_le _⟩, fun a ha => absurd ha (by simp [World.start, Server.row]),
        List.Pairwise.nil, rfl⟩
  | accept _ hadm he ih => exact policy_accept hsort ih (hok _ _ hadm) he
  | serve k _ hd ih => exact policy_serve hsort ih hd

theorem Policy.pending (h : Policy mode size cmp key w) :
    w.pending = (w.server.row : Multiset HttpInfo) := by
  have hc : (w.accepted : Multiset HttpInfo) = w.served + w.server.row := h.conserved
  rw [World.pending, hc]
  exact add_tsub_cancel_left _ _

theorem Policy.takesLeast {sort : QsortFn} (hsort : StableQsort sort) (h : Policy mode size cmp key w) :
    TakesLeast sort cmp key w := by
  intro garbage info s hd
  obtain ⟨-, hrow, -⟩ := dequeue_spec hsort h.inv h.ranks hd
  have hsorted := h.sorted
  rw [hrow] at hsorted
  rw [h.pending, hrow]
  refine ⟨Multiset.mem_coe.mpr (List.mem_cons_self ..), fun x hx => ?_⟩
  rcases List.mem_cons.mp (Multiset.mem_coe.mp hx) with rfl | hx
  · exact Int.le_refl _
  · exact (List.pairwise_cons.mp hsorted).1 x hx

/-- While something is queued a worker can take it. -/
theorem exists_dequeue_some {s : Server} (sort : QsortFn) (cmp : Comparator) (garbage : HttpInfo)
    (h : RowInv mode size s) (hne : s.numfull ≠ 0) : ∃ r, dequeue sort cmp garbage s = some r := by
  have hlen := h.length
  have hle := h.numfull_le
  obtain ⟨first, hfirst⟩ : ∃ first, s.buffer[0]? = some first :=
    ⟨_, List.getElem?_eq_getElem (by omega)⟩
  obtain ⟨last, hlast⟩ : ∃ last, s.buffer[s.numfull - 1]? = some last :=
    ⟨_, List.getElem?_eq_getElem (by omega)⟩
  rw [dequeue, if_neg hne, hfirst, hlast]
  exact ⟨_, rfl⟩

/-! ## Shortest file name first -/

/-- `strlen(filename)`. -/
def nameLength (x : HttpInfo) : Int := x.filename.chars.length

theorem sfnfCompare_ranks (l : List HttpInfo) : Ranks sfnfCompare nameLength l := by
  intro a _ b _
  refine ⟨_, rfl, ?_⟩
  have ha := a.filename.short
  have hb := b.filename.short
  unfold maxLine at ha hb
  rw [Int32.lt_iff_toInt_lt, Int32.lt_iff_toInt_lt, Int32.toInt_ofInt_of_le (by omega) (by omega)]
  show ((a.filename.chars.length : Int) - b.filename.chars.length < 0
    ↔ (a.filename.chars.length : Int) < b.filename.chars.length)
    ∧ (0 < (a.filename.chars.length : Int) - b.filename.chars.length
      ↔ (b.filename.chars.length : Int) < a.filename.chars.length)
  omega

/--
**Shortest file name first.** In every reachable state the queue is in the order of the
lengths of the file names. A worker that finds a request can take one, and the one it
takes is pending and has a name no longer than any other that is pending.
-/
theorem sfnf_shortest_first {workers size : Nat} {sort : QsortFn} (hsort : StableQsort sort)
    {stat : Stat} {w : World workers} (h : Sorted sort stat (fun _ _ => True) .sfnf size w) :
    (w.server.row.Pairwise fun a b => nameLength a ≤ nameLength b)
      ∧ TakesLeast sort sfnfCompare nameLength w
      ∧ (w.server.numfull ≠ 0 → ∀ garbage, ∃ r, dequeue sort sfnfCompare garbage w.server = some r) := by
  have hp : Policy .sfnf size sfnfCompare nameLength w :=
    policy_sorted hsort (fun w info _ => sfnfCompare_ranks (w.server.row ++ [info])) h
  exact ⟨hp.sorted, hp.takesLeast hsort,
    fun hne garbage => exists_dequeue_some sort sfnfCompare garbage hp.inv hne⟩

/-- Insertion sort, as one sort that `qsort` may be. -/
def insertSort : QsortFn := fun cmp l => l.insertionSort fun a b => (cmp a b).any (· ≤ 0)

theorem stableQsort_insertSort : StableQsort insertSort := by
  intro cmp key l hr
  have hcmp : ∀ a ∈ l, ∀ b ∈ l, (cmp a b).any (· ≤ 0) = true ↔ key (id a) ≤ key (id b) := by
    intro a ha b hb
    obtain ⟨c, hc, -, hpos⟩ := hr a ha b hb
    rw [hc, Option.any_some, decide_eq_true_eq, ← Int32.not_lt, hpos, not_lt]
    rfl
  have heq := List.map_insertionSort (fun a b => (cmp a b).any (· ≤ 0) = true)
    (fun a b => key a ≤ key b) id l hcmp
  rw [List.map_id, List.map_id] at heq
  rw [insertSort, heq]
  exact isStableSort_insertionSort key l

/-- A request for the file `name`. -/
def requestFor (name : Line) (fd : Int32) : HttpInfo := { sampleRequest 0 fd with filename := name }

/-- `./ab` arrives first, `./c` second, and a worker takes `./c`. -/
theorem sfnf_takes_shorter : ∃ (w : World 1) (s : Server),
    Sorted insertSort (fun _ => none) (fun _ _ => True) .sfnf 2 w
      ∧ dequeue insertSort sfnfCompare (sampleRequest 0 0) w.server
        = some (requestFor ⟨[46, 47, 99], by decide⟩ 5, s)
      ∧ TakesLeast insertSort sfnfCompare nameLength w := by
  have h0 : Sorted insertSort (fun _ => none) (fun _ _ => True) .sfnf 2
      (World.start .sfnf [sampleRequest 0 0, sampleRequest 0 0] : World 1) := Sorted.init rfl
  have h1 := @Sorted.accept 1 _ _ _ _ _ _ (requestFor ⟨[46, 47, 97, 98], by decide⟩ 4) _ h0 trivial rfl
  have h2 := @Sorted.accept 1 _ _ _ _ _ _ (requestFor ⟨[46, 47, 99], by decide⟩ 5) _ h1 trivial rfl
  exact ⟨_, _, h2, rfl, (sfnf_shortest_first stableQsort_insertSort h2).2.1⟩

/-! ## Smallest file first -/

/-- Every file exists, with a size that does not change. -/
def fixedSizes (fileSize : Line → Int64) : Stat := fun name => some (fileSize name)

/-- The low 32 bits of `a - b` have the sign of `a - b`. -/
def SignKept (a b : Int64) : Prop :=
  ((a - b).toInt32 < 0 ↔ a < b) ∧ (0 < (a - b).toInt32 ↔ b < a)

/-- Sizes less than 2^31 bytes apart are fine. -/
theorem signKept_of_near {a b : Int64} (hlow : -2 ^ 31 < a.toInt - b.toInt)
    (hhigh : a.toInt - b.toInt < 2 ^ 31) : SignKept a b := by
  have hsub : (a - b).toInt = a.toInt - b.toInt := by
    rw [Int64.toInt_sub]
    exact Int.bmod_eq_of_le (by omega) (by omega)
  have hcut : (a - b).toInt32.toInt = a.toInt - b.toInt := by
    rw [Int64.toInt_toInt32, hsub]
    exact Int.bmod_eq_of_le (by omega) (by omega)
  rw [SignKept, Int32.lt_iff_toInt_lt, Int32.lt_iff_toInt_lt, Int64.lt_iff_toInt_lt,
    Int64.lt_iff_toInt_lt, hcut]
  show (a.toInt - b.toInt < 0 ↔ a.toInt < b.toInt) ∧ (0 < a.toInt - b.toInt ↔ b.toInt < a.toInt)
  omega

/-- `main` accepts a request when the sizes of all files then queued compare as they should. -/
def SizesCompare (fileSize : Line → Int64) (w : World workers) (info : HttpInfo) : Prop :=
  ∀ x ∈ w.server.row ++ [info], ∀ y ∈ w.server.row ++ [info],
    SignKept (fileSize x.filename) (fileSize y.filename)

theorem sffCompare_ranks {fileSize : Line → Int64} {info : HttpInfo}
    (h : SizesCompare fileSize w info) :
    Ranks (sffCompare (fixedSizes fileSize)) (fun x => (fileSize x.filename).toInt)
      (w.server.row ++ [info]) := by
  intro a ha b hb
  obtain ⟨hneg, hpos⟩ := h a ha b hb
  exact ⟨_, rfl, hneg.trans Int64.lt_iff_toInt_lt, hpos.trans Int64.lt_iff_toInt_lt⟩

/--
**Smallest file first, while the sizes compare as they should.** In every run in which
`main` accepts a request only when the difference of any two sizes then queued keeps its
sign in its low 32 bits, a worker takes a pending request, and no other that is pending
has a smaller file.
-/
theorem sff_smallest_first {workers size : Nat} {sort : QsortFn} (hsort : StableQsort sort)
    {fileSize : Line → Int64} {w : World workers}
    (h : Sorted sort (fixedSizes fileSize) (SizesCompare fileSize) .sff size w) :
    TakesLeast sort (sffCompare (fixedSizes fileSize)) (fun x => (fileSize x.filename).toInt) w :=
  (policy_sorted hsort (fun _ _ => sffCompare_ranks) h).takesLeast hsort

/-- `./a` has no bytes, every other file has `n`. -/
def sampleSize (n : Int64) (name : Line) : Int64 := if name.chars = [46, 47, 97] then 0 else n

/-- `./b` of 9 bytes arrives first, `./a` second, and a worker takes `./a`. -/
theorem sff_takes_smaller : ∃ (w : World 1) (s : Server),
    Sorted insertSort (fixedSizes (sampleSize 9)) (SizesCompare (sampleSize 9)) .sff 2 w
      ∧ dequeue insertSort (sffCompare (fixedSizes (sampleSize 9))) (sampleRequest 0 0) w.server
        = some (sampleRequest 97 5, s)
      ∧ TakesLeast insertSort (sffCompare (fixedSizes (sampleSize 9)))
        (fun x => (sampleSize 9 x.filename).toInt) w := by
  have hok : ∀ (w : World 1) info, SizesCompare (sampleSize 9) w info := by
    intro w info x _ y _
    have hsize : ∀ name, (sampleSize 9 name).toInt = 0 ∨ (sampleSize 9 name).toInt = 9 := by
      intro name
      unfold sampleSize
      split
      · exact Or.inl rfl
      · exact Or.inr rfl
    have hx := hsize x.filename
    have hy := hsize y.filename
    exact signKept_of_near (by omega) (by omega)
  have h0 : Sorted insertSort (fixedSizes (sampleSize 9)) (SizesCompare (sampleSize 9)) .sff 2
      (World.start .sff [sampleRequest 0 0, sampleRequest 0 0] : World 1) := Sorted.init rfl
  have h1 := @Sorted.accept 1 _ _ _ _ _ _ (sampleRequest 98 4) _ h0 (hok _ _) rfl
  have h2 := @Sorted.accept 1 _ _ _ _ _ _ (sampleRequest 97 5) _ h1 (hok _ _) rfl
  exact ⟨_, _, h2, rfl, sff_smallest_first stableQsort_insertSort h2⟩

/--
A file of 2^31 + 1 bytes is taken before an empty one: the difference of the sizes is
`-2147483649`, and its low 32 bits say `2147483647`.
-/
theorem sff_takes_larger : ¬∀ (workers size : Nat) (sort : QsortFn) (fileSize : Line → Int64)
    (w : World workers), 1 ≤ size → StableQsort sort → (∀ name, 0 ≤ fileSize name) →
      Sorted sort (fixedSizes fileSize) (fun _ _ => True) .sff size w →
      TakesLeast sort (sffCompare (fixedSizes fileSize)) (fun x => (fileSize x.filename).toInt) w := by
  intro hall
  have hpos : ∀ name, 0 ≤ sampleSize 2147483649 name := by
    intro name
    unfold sampleSize
    split
    · decide
    · decide
  have h0 : Sorted insertSort (fixedSizes (sampleSize 2147483649)) (fun _ _ => True) .sff 2
      (World.start .sff [sampleRequest 0 0, sampleRequest 0 0] : World 1) := Sorted.init rfl
  have h1 := @Sorted.accept 1 _ _ _ _ _ _ (sampleRequest 97 4) _ h0 trivial rfl
  have h2 := @Sorted.accept 1 _ _ _ _ _ _ (sampleRequest 98 5) _ h1 trivial rfl
  obtain ⟨-, hleast⟩ := hall 1 2 insertSort (sampleSize 2147483649) _ (by decide)
    stableQsort_insertSort hpos h2 (sampleRequest 0 0) (sampleRequest 98 5) _ rfl
  have hle := hleast (sampleRequest 97 4) (by decide)
  revert hle
  decide

end Cs537.Web
