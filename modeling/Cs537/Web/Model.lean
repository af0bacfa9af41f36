import Mathlib.Data.List.Basic

/-!
# The request queue of `P4/linux/server.c`

The main thread reads a request header and puts it into `buffer`; workers take
requests out. Both do so inside the mutex, so each critical section is one step.
The three scheduling modes share the counters but use the buffer differently:
`FIFO` as a ring between `useptr` and `fillptr`, `SFNF` and `SFF` as a row of
`numfull` requests that `qsort` puts in order after every change.

`qsort` is any function that returns its input rearranged so that no element
compares greater than a later one; the standard promises no stability. For `SFF`
the comparator asks the file system for sizes, and these may be different each
time, so every step comes with its own `stat`.
-/

namespace Cs537.Web

/-- `MAXLINE`. -/
def maxLine : Nat := 8192

/-- A NUL-terminated string in a `char[MAXLINE]`. -/
structure Line where
  chars : List UInt8
  short : chars.length < maxLine
deriving DecidableEq

/-- `http_info`. -/
structure HttpInfo where
  isStatic : Int32
  method : Line
  uri : Line
  version : Line
  filename : Line
  cgiargs : Line
  connfd : Int32
deriving DecidableEq

/-- `strncpy(dest, src, MAXLINE)`. -/
def strncpy (src : Line) : Line :=
  ⟨src.chars.take maxLine, Nat.lt_of_le_of_lt (List.length_take_le' _ _) src.short⟩

/-- `copyInfo`. -/
def copyInfo (src dest : HttpInfo) : HttpInfo :=
  { dest with
    isStatic := src.isStatic
    method := strncpy src.method
    uri := strncpy src.uri
    version := strncpy src.version
    filename := strncpy src.filename
    cgiargs := strncpy src.cgiargs
    connfd := src.connfd }

@[simp] theorem strncpy_eq (src : Line) : strncpy src = src := by
  cases src with
  | mk chars short => simp [strncpy, List.take_of_length_le (Nat.le_of_lt short)]

/-- `copyInfo` copies every field. -/
@[simp] theorem copyInfo_eq (src dest : HttpInfo) : copyInfo src dest = src := by
  simp [copyInfo]

/-- `schedalg`. -/
inductive Mode where
  | fifo
  | sfnf
  | sff
deriving DecidableEq

/-- The file sizes `stat` reports; `none` if the file is missing. -/
abbrev Stat := Line → Option Int64

/-- What `qsort` calls; `none` if the call does not return. -/
abbrev Comparator := HttpInfo → HttpInfo → Option Int32

/-- `sfnfCompare`. -/
def sfnfCompare : Comparator := fun p1 p2 =>
  some (Int32.ofInt ((p1.filename.chars.length : Int) - p2.filename.chars.length))

/-- `sffCompare`: a missing file ends the process in `Stat`. -/
def sffCompare (stat : Stat) : Comparator := fun p1 p2 =>
  match stat p1.filename, stat p2.filename with
  | some size1, some size2 => some (size1 - size2).toInt32
  | _, _ => none

/-- The comparator a sorted mode hands to `qsort`. -/
def comparator (stat : Stat) : Mode → Comparator
  | .sff => sffCompare stat
  | _ => sfnfCompare

/-- `qsort(l, …, cmp)` may return `l'`. -/
def Qsort (cmp : Comparator) (l l' : List HttpInfo) : Prop :=
  l'.Perm l ∧ l'.Pairwise fun a b => ∃ c, cmp a b = some c ∧ c ≤ 0

/-- The globals of `server.c`. -/
structure Server where
  mode : Mode
  size : Nat
  buffer : List HttpInfo
  useptr : Nat
  fillptr : Nat
  numfull : Nat
  request : Int32

/-- The requests of a sorted mode: `buffer[0 .. numfull)`. -/
def Server.row (s : Server) : List HttpInfo := s.buffer.take s.numfull

/-- `qsort(buffer, n, …)` on the first `n` slots. -/
def SortFirst (cmp : Comparator) (n : Nat) (buf buf' : List HttpInfo) : Prop :=
  ∃ l', Qsort cmp (buf.take n) l' ∧ buf' = l' ++ buf.drop n

/-- The critical section of `main`, past the wait for `numfull != size`. -/
inductive Enqueue (stat : Stat) (info : HttpInfo) : Server → Server → Prop where
  | fifo {s : Server} : s.mode = .fifo → s.numfull ≠ s.size →
      Enqueue stat info s
        { s with
          buffer := s.buffer.set s.fillptr info
          fillptr := (s.fillptr + 1) % s.size
          numfull := s.numfull + 1 }
  | sorted {s : Server} {buf : List HttpInfo} : s.mode ≠ .fifo → s.numfull ≠ s.size →
      SortFirst (comparator stat s.mode) (s.numfull + 1) (s.buffer.set s.numfull info) buf →
      Enqueue stat info s { s with buffer := buf, numfull := s.numfull + 1 }

/-- `if(numfull > 1) copyInfo(&buffer[numfull-1], &buffer[0])`. -/
def moveLast (s : Server) (first last : HttpInfo) : List HttpInfo :=
  if s.numfull > 1 then s.buffer.set 0 (copyInfo last first) else s.buffer

/-- The critical section of `worker`, past the wait for `numfull != 0`; it hands out `info`. -/
inductive Dequeue (stat : Stat) : Server → HttpInfo → Server → Prop where
  | fifo {s : Server} {used garbage : HttpInfo} : s.mode = .fifo → s.numfull ≠ 0 →
      s.buffer[s.useptr]? = some used →
      Dequeue stat s (copyInfo used garbage)
        { s with
          useptr := (s.useptr + 1) % s.size
          numfull := s.numfull - 1
          request := s.request + 1 }
  | sorted {s : Server} {first last garbage : HttpInfo} {buf : List HttpInfo} :
      s.mode ≠ .fifo → s.numfull ≠ 0 →
      s.buffer[0]? = some first → s.buffer[s.numfull - 1]? = some last →
      SortFirst (comparator stat s.mode) s.numfull (moveLast s first last) buf →
      Dequeue stat s (copyInfo first garbage)
        { s with buffer := buf, numfull := s.numfull - 1, request := s.request + 1 }

/-! ## The threads together -/

/-- The server, what `main` accepted so far, and what each worker took, in order. -/
structure World (workers : Nat) where
  server : Server
  accepted : List HttpInfo
  taken : List (Fin workers × HttpInfo)

/-- The requests taken, in the order of the critical sections. -/
def World.served {workers : Nat} (w : World workers) : List HttpInfo := w.taken.map Prod.snd

/-- One critical section, of `main` or of a worker. -/
inductive Step {workers : Nat} : World workers → World workers → Prop where
  | accept {w : World workers} {stat : Stat} {info : HttpInfo} {s : Server} :
      Enqueue stat info w.server s →
      Step w { w with server := s, accepted := w.accepted ++ [info] }
  | serve {w : World workers} {stat : Stat} {info : HttpInfo} {s : Server} (k : Fin workers) :
      Dequeue stat w.server info s →
      Step w { w with server := s, taken := w.taken ++ [(k, info)] }

/-- `main` before its loop; `malloc` leaves anything in the buffer. -/
def World.start {workers : Nat} (mode : Mode) (buffer : List HttpInfo) : World workers :=
  { server := ⟨mode, buffer.length, buffer, 0, 0, 0, 0⟩, accepted := [], taken := [] }

/-- What any interleaving can reach with `size` buffers. -/
inductive Reachable {workers : Nat} (mode : Mode) (size : Nat) : World workers → Prop where
  | init {buffer : List HttpInfo} : buffer.length = size → Reachable mode size (World.start mode buffer)
  | tail {w w' : World workers} : Reachable mode size w → Step w w' → Reachable mode size w'

/-- A request for the file `./<c>`, as `readHeader` would leave it. -/
def sampleRequest (c : UInt8) (fd : Int32) : HttpInfo :=
  { isStatic := 1
    method := ⟨[71, 69, 84], by decide⟩
    uri := ⟨[47, c], by simp [maxLine]⟩
    version := ⟨[72, 84, 84, 80], by decide⟩
    filename := ⟨[46, 47, c], by simp [maxLine]⟩
    cgiargs := ⟨[], by decide⟩
    connfd := fd }

end Cs537.Web
