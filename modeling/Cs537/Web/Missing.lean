import Cs537.Web.Sorted

/-!
# Requests for files that are not there

Whether a file exists is a question for `requestHandle`, which answers 404 if it does
not. In `SFF` mode the queue asks as well: `sffCompare` stats the two files it
compares through `Stat`, and `Stat` calls `exit` on a failure. So a request for a
missing file is harmless while it is alone, and ends the server as soon as it is
sorted together with another one.

Which pairs `qsort` compares is its own business. What can be relied on is that it
compares nothing where there is at most one element, and leaves no element out where
there are more; that is enough to say exactly which critical sections end the process.
-/

namespace Cs537.Web

variable {workers size : Nat} {w w' : World workers} {mode : Mode} {stat : Stat}

/-! ## `requestHandle` -/

/-- What `requestHandle` reads of a `struct stat`. -/
structure FileInfo where
  /-- `S_ISREG(st_mode)`. -/
  isReg : Bool
  /-- `S_IRUSR & st_mode`. -/
  rusr : Bool
  /-- `S_IXUSR & st_mode`. -/
  xusr : Bool
  size : Int64

/-- What is done with a connection in the end. -/
inductive Response where
  | requestError (fd : Int32) (cause : Line) (errnum shortmsg longmsg : String)
  | requestServeStatic (fd : Int32) (filename : Line) (filesize : Int32)
  | requestServeDynamic (fd : Int32) (filename cgiargs : Line)
deriving DecidableEq

/-- `tolower`, in the C locale. -/
def toLower (c : UInt8) : UInt8 := if 65 ≤ c ∧ c ≤ 90 then c + 32 else c

/-- `strcasecmp(a, b) == 0`. -/
def sameIgnoringCase (a b : List UInt8) : Bool := a.map toLower == b.map toLower

/-- `requestHandle`. -/
def requestHandle (stat : Line → Option FileInfo) (info : HttpInfo) : Response :=
  if !sameIgnoringCase info.method.chars [71, 69, 84] then
    .requestError info.connfd info.method "501" "Not Implemented"
      "CS537 Server does not implement this method"
  else
    match stat info.filename with
    | none =>
        .requestError info.connfd info.filename "404" "Not found"
          "CS537 Server could not find this file"
    | some sbuf =>
        if info.isStatic ≠ 0 then
          if !sbuf.isReg || !sbuf.rusr then
            .requestError info.connfd info.filename "403" "Forbidden"
              "CS537 Server could not read this file"
          else .requestServeStatic info.connfd info.filename sbuf.size.toInt32
        else
          if !sbuf.isReg || !sbuf.xusr then
            .requestError info.connfd info.filename "403" "Forbidden"
              "CS537 Server could not run this CGI program"
          else .requestServeDynamic info.connfd info.filename info.cgiargs

/-! ## Critical sections that end the process -/

/-- `calls` may be the pairs that `qsort` compares to sort `l`. -/
structure Compares (l : List HttpInfo) (calls : List (HttpInfo × HttpInfo)) : Prop where
  inside : ∀ c ∈ calls, c.1 ∈ l ∧ c.2 ∈ l
  /-- There is nothing to compare. -/
  single : l.length ≤ 1 → calls = []
  /-- An element that is never looked at cannot be put in its place. -/
  total : 2 ≤ l.length → ∀ x ∈ l, ∃ c ∈ calls, x = c.1 ∨ x = c.2

/-- One of the comparisons does not return. -/
def Ends (cmp : Comparator) (calls : List (HttpInfo × HttpInfo)) : Prop :=
  ∃ c ∈ calls, cmp c.1 c.2 = none

/-- What `main` sorts when it puts `info` into the buffer. -/
def Server.acceptSorts (s : Server) (info : HttpInfo) : List HttpInfo :=
  if s.mode = .fifo then [] else (s.buffer.set s.numfull info).take (s.numfull + 1)

/-- What a worker sorts after it took the first request. -/
def Server.serveSorts (s : Server) (first last : HttpInfo) : List HttpInfo :=
  if s.mode = .fifo then [] else (moveLast s first last).take s.numfull

/-- The files that `SFF` would compare are there. -/
def FilesThere (stat : Stat) (mode : Mode) (l : List HttpInfo) : Prop :=
  mode = .sff → ∀ x ∈ l, stat x.filename ≠ none

theorem sffCompare_eq_none {a b : HttpInfo} :
    sffCompare stat a b = none ↔ stat a.filename = none ∨ stat b.filename = none := by
  unfold sffCompare
  cases stat a.filename <;> cases stat b.filename <;> simp

/-- Whatever `qsort` compares, it does not return exactly if a file it must look at is missing. -/
theorem ends_iff {l : List HttpInfo} {calls : List (HttpInfo × HttpInfo)} (h : Compares l calls) :
    Ends (comparator stat mode) calls ↔ 2 ≤ l.length ∧ ¬FilesThere stat mode l := by
  constructor
  · rintro ⟨c, hc, hnone⟩
    have hlen : 2 ≤ l.length := by
      by_contra hlt
      rw [h.single (by omega)] at hc
      exact absurd hc (by simp)
    refine ⟨hlen, fun hthere => ?_⟩
    cases mode with
    | fifo => simp [comparator, sfnfCompare] at hnone
    | sfnf => simp [comparator, sfnfCompare] at hnone
    | sff =>
        obtain ⟨h1, h2⟩ := h.inside c hc
        rcases sffCompare_eq_none.mp hnone with hn | hn
        · exact hthere rfl c.1 h1 hn
        · exact hthere rfl c.2 h2 hn
  · rintro ⟨hlen, hmiss⟩
    unfold FilesThere at hmiss
    push Not at hmiss
    obtain ⟨rfl, x, hx, hnone⟩ := hmiss
    obtain ⟨c, hc, rfl | rfl⟩ := h.total hlen x hx
    · exact ⟨c, hc, sffCompare_eq_none.mpr (Or.inl hnone)⟩
    · exact ⟨c, hc, sffCompare_eq_none.mpr (Or.inr hnone)⟩

/-! ## Runs -/

theorem rowInv_step (hm : mode ≠ .fifo) (h : RowInv mode size w.server) (hs : Step w w') :
    RowInv mode size w'.server := by
  cases hs with
  | accept he => exact (enqueue_row h hm he).1
  | serve k hd => exact (dequeue_row h hm hd).1

theorem rowInv_reachable (hm : mode ≠ .fifo) (h : Reachable mode size w) :
    RowInv mode size w.server := by
  induction h with
  | init hl => exact ⟨rfl, hl, hl, Nat.zero_le _⟩
  | tail _ hs ih => exact rowInv_step hm ih hs

theorem mode_reachable (h : Reachable mode size w) : w.server.mode = mode := by
  induction h with
  | init => rfl
  | tail _ hs ih =>
      cases hs with
      | accept he => cases he <;> exact ih
      | serve k hd => cases hd <;> exact ih

theorem acceptSorts_eq {s : Server} {info : HttpInfo} (h : RowInv mode size s) (hm : mode ≠ .fifo)
    (hfull : s.numfull ≠ s.size) : s.acceptSorts info = s.row ++ [info] := by
  have hlen := h.length
  have hle := h.numfull_le
  have hsize := h.size_eq
  unfold Server.acceptSorts
  rw [if_neg (by rw [h.mode_eq]; exact hm), List.take_add_one, List.getElem?_set_self (by omega),
    List.take_set_of_le (Nat.le_refl _)]
  rfl

theorem serveSorts_eq {s : Server} {first last : HttpInfo} (h : RowInv mode size s)
    (hm : mode ≠ .fifo) (hne : s.numfull ≠ 0) (hfirst : s.buffer[0]? = some first)
    (hlast : s.buffer[s.numfull - 1]? = some last) :
    s.serveSorts first last = last :: s.row.tail ∧ s.row.getLast? = some last := by
  obtain ⟨-, hgl, htake, -⟩ := moveLast_take h hfirst hlast hne
  unfold Server.serveSorts
  rw [if_neg (by rw [h.mode_eq]; exact hm)]
  exact ⟨htake, hgl⟩

/-- With two requests queued, the last one is among those behind the first. -/
theorem getLast_mem_tail {l : List HttpInfo} {last : HttpInfo} (hlast : l.getLast? = some last)
    (hlen : 2 ≤ l.length) : last ∈ l.tail := by
  cases l with
  | nil => simp at hlen
  | cons a t =>
      cases t with
      | nil => simp at hlen
      | cons b t =>
          rw [List.getLast?_cons_cons] at hlast
          exact List.mem_of_getLast? hlast

/-- `main`: the files matter once the row holds a request already. -/
theorem accept_ends_iff (h : Reachable mode size w) {info : HttpInfo}
    {calls : List (HttpInfo × HttpInfo)} (hfull : w.server.numfull ≠ w.server.size)
    (hc : Compares (w.server.acceptSorts info) calls) :
    Ends (comparator stat mode) calls ↔
      ¬(w.server.row ≠ [] → FilesThere stat mode (w.server.row ++ [info])) := by
  rw [ends_iff hc]
  by_cases hm : mode = .fifo
  · subst hm
    refine ⟨fun ⟨_, hn⟩ => absurd (fun hf => by cases hf) hn, fun hn => absurd (fun _ hf => ?_) hn⟩
    cases hf
  · have hinv := rowInv_reachable hm h
    rw [acceptSorts_eq hinv hm hfull]
    constructor
    · rintro ⟨hlen, hn⟩ hall
      refine hn (hall ?_)
      rintro hnil
      rw [hnil] at hlen
      simp at hlen
    · intro hn
      push Not at hn
      refine ⟨?_, hn.2⟩
      have := List.length_pos_iff.mpr hn.1
      rw [List.length_append, List.length_singleton]
      omega

/-- A worker: the files of those that stay behind matter. -/
theorem serve_ends_iff (h : Reachable mode size w) {first last : HttpInfo}
    {calls : List (HttpInfo × HttpInfo)} (hne : w.server.numfull ≠ 0)
    (hfirst : w.server.buffer[0]? = some first)
    (hlast : w.server.buffer[w.server.numfull - 1]? = some last)
    (hc : Compares (w.server.serveSorts first last) calls) :
    Ends (comparator stat mode) calls ↔ ¬FilesThere stat mode w.server.row.tail := by
  rw [ends_iff hc]
  by_cases hm : mode = .fifo
  · subst hm
    exact ⟨fun ⟨_, hn⟩ => absurd (fun hf => by cases hf) hn, fun hn => absurd (fun hf => by cases hf) hn⟩
  · have hinv := rowInv_reachable hm h
    obtain ⟨hsorts, hgl⟩ := serveSorts_eq hinv hm hne hfirst hlast
    rw [hsorts]
    constructor
    · rintro ⟨hlen, hn⟩ hall
      refine hn fun hsff x hx => ?_
      rw [List.length_cons, List.length_tail] at hlen
      rcases List.mem_cons.mp hx with rfl | hx
      · exact hall hsff _ (getLast_mem_tail hgl (by omega))
      · exact hall hsff x hx
    · intro hn
      refine ⟨?_, fun hall => hn fun hsff x hx => hall hsff x (List.mem_cons_of_mem _ hx)⟩
      by_contra hlt
      refine hn fun _ x hx => absurd hx ?_
      rw [List.length_cons] at hlt
      rw [List.eq_nil_of_length_eq_zero (by omega : w.server.row.tail.length = 0)]
      simp

/-- With no buffer at all, nothing is ever accepted. -/
theorem fifo_bufferless (h : Reachable .fifo 0 w) :
    w.server.size = 0 ∧ w.server.numfull = 0 ∧ w.accepted = [] ∧ w.served = [] := by
  induction h with
  | init hl => exact ⟨hl, rfl, rfl, rfl⟩
  | tail _ hs ih =>
      obtain ⟨hsize, hempty, -, -⟩ := ih
      cases hs with
      | accept he =>
          cases he with
          | fifo _ hfull => exact absurd (hempty.trans hsize.symm) hfull
          | sorted _ hfull => exact absurd (hempty.trans hsize.symm) hfull
      | serve k hd =>
          cases hd with
          | fifo _ hne => exact absurd hempty hne
          | sorted _ hne => exact absurd hempty hne

theorem fifo_queue (h : Reachable .fifo size w) :
    ∃ q, w.accepted = w.served ++ q ∧ q.length = w.server.numfull := by
  rcases Nat.eq_zero_or_pos size with rfl | hpos
  · obtain ⟨-, h1, h2, h3⟩ := fifo_bufferless h
    exact ⟨[], by rw [h2, h3]; rfl, h1.symm⟩
  · obtain ⟨q, h1, h2, -⟩ := (fifoInv_reachable hpos h).queue
    exact ⟨q, h1, h2⟩

/-- A missing file is answered with 404, whoever asks for it with `GET`. -/
theorem requestHandle_missing {stat : Line → Option FileInfo} {info : HttpInfo}
    (hget : sameIgnoringCase info.method.chars [71, 69, 84] = true)
    (hmiss : stat info.filename = none) :
    requestHandle stat info = .requestError info.connfd info.filename "404" "Not found"
      "CS537 Server could not find this file" := by
  unfold requestHandle
  rw [hget, hmiss]
  rfl

/--
**When a missing file stops the server.** In every state that is reached, whatever
pairs `qsort` compares: `main` ends the process when it accepts a request exactly if
the row, not empty, and the request together name a missing file in `SFF` mode; a
worker does so exactly if one of the requests it leaves behind names one. Otherwise no
request is stopped on its way to `requestHandle`: it has been taken or is still
queued, in the sorted modes where no dequeue drops another one, and when it is taken
a missing file is answered with 404.
-/
theorem missing_file_ends_iff {workers size : Nat} {mode : Mode} {w : World workers}
    (h : Reachable mode size w) :
    (∀ stat info calls, w.server.numfull ≠ w.server.size →
        Compares (w.server.acceptSorts info) calls →
        (Ends (comparator stat mode) calls ↔
          ¬(w.server.row ≠ [] → FilesThere stat mode (w.server.row ++ [info]))))
      ∧ (∀ stat first last calls, w.server.numfull ≠ 0 → w.server.buffer[0]? = some first →
          w.server.buffer[w.server.numfull - 1]? = some last →
          Compares (w.server.serveSorts first last) calls →
          (Ends (comparator stat mode) calls ↔ ¬FilesThere stat mode w.server.row.tail))
      ∧ (mode = .fifo → ∃ q, w.accepted = w.served ++ q ∧ q.length = w.server.numfull)
      ∧ (mode ≠ .fifo → Orderly mode size w → Conserved w)
      ∧ ∀ info ∈ w.served, ∀ stat : Line → Option FileInfo,
          sameIgnoringCase info.method.chars [71, 69, 84] = true → stat info.filename = none →
          requestHandle stat info = .requestError info.connfd info.filename "404" "Not found"
            "CS537 Server could not find this file" := by
  refine ⟨fun stat info calls hfull hc => accept_ends_iff h hfull hc,
    fun stat first last calls hne hfirst hlast hc => serve_ends_iff h hne hfirst hlast hc,
    ?_, fun hm ho => (orderly_inv hm ho).2, fun info _ stat hget hmiss =>
      requestHandle_missing hget hmiss⟩
  rintro rfl
  exact fifo_queue h

/-! ## Two requests, one file missing -/

/-- `SFF`, two buffers, and a request for `./1` queued. -/
def oneQueued : World 1 :=
  { server :=
      { mode := .sff, size := 2, buffer := [sampleRequest 49 4, sampleRequest 48 3], useptr := 0,
        fillptr := 0, numfull := 1, request := 0 }
    accepted := [sampleRequest 49 4]
    taken := [] }

/-- It is reached whether or not `./1` exists: a single request is never compared. -/
theorem oneQueued_reachable : Reachable .sff 2 oneQueued :=
  (@Reachable.init 1 .sff 2 [sampleRequest 48 3, sampleRequest 48 3] rfl).tail
    (Step.accept (@Enqueue.sorted (fun _ => none) (sampleRequest 49 4) _ _ (by decide) (by decide)
      ⟨[sampleRequest 49 4], ⟨List.Perm.refl _, List.pairwise_singleton _ _⟩, rfl⟩))

theorem oneQueued_calls : Compares (oneQueued.server.acceptSorts (sampleRequest 50 5))
    [(sampleRequest 49 4, sampleRequest 50 5)] := by
  refine ⟨by decide, by decide, ?_⟩
  decide

/-- With `./2` missing, accepting a request for it ends the server; there is no 404. -/
theorem sff_missing_ends : ¬∀ (workers size : Nat) (mode : Mode) (w : World workers),
    Reachable mode size w → ∀ stat info calls, w.server.numfull ≠ w.server.size →
      Compares (w.server.acceptSorts info) calls → ¬Ends (comparator stat mode) calls := by
  intro hall
  refine hall 1 2 .sff oneQueued oneQueued_reachable
    (fun name => if name = (sampleRequest 49 4).filename then some 10 else none)
    (sampleRequest 50 5) _ (by decide) oneQueued_calls ?_
  exact ⟨_, List.mem_singleton.mpr rfl, by decide⟩

theorem missing_sample : Reachable .sff 2 oneQueued
    ∧ (Ends (comparator (fun _ => some 10) .sff) [(sampleRequest 49 4, sampleRequest 50 5)] ↔
        ¬(oneQueued.server.row ≠ [] →
          FilesThere (fun _ => some 10) .sff (oneQueued.server.row ++ [sampleRequest 50 5]))) :=
  ⟨oneQueued_reachable, (missing_file_ends_iff oneQueued_reachable).1 _ _ _ (by decide)
    oneQueued_calls⟩

end Cs537.Web
