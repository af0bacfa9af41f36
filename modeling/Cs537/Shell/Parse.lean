import Cs537.Shell.Model

/-!
# `parseArgv` of `P2/linux/mysh.c`

The line is cut into words with `strtok`, once in a copy to count them and once in place.
A final `&` is dropped, and then the words are searched for a `>`, which may stand alone,
at the start, at the end or in the middle of a word; in each case the word array is edited
in another way.

What is read out of range is `wild` here, and to follow a wild pointer has no meaning
(`undefined`). A store out of range is lost. `inBounds` says whether all accesses so far to
`list` in `parseArgv`, and to `array` and `newArray` in `arrayRemove`, were in range.

Two strings are not terminated by the source: the copy of the line, which is allocated
without room for the NUL, and what `substring` returns, where `ptr = '\0'` should have
been `*ptr = '\0'`. What follows them is in `Heap`.
-/

namespace Cs537.Shell

open Cs537.Lib

/-- `'&'`. -/
def amp : UInt8 := 38

/-- `'>'`. -/
def gt : UInt8 := 62

/-! ## Arrays of strings -/

/-- A `char*`. -/
inductive Ptr where
  | null
  | str (s : Text)
  /-- Uninitialised, or not from the array. -/
  | wild
deriving DecidableEq

/-- A `char**`, with as many elements as were allocated. -/
structure Argv where
  cells : List Ptr
deriving DecidableEq

def Argv.Inside (a : Argv) (i : Int) : Prop := 0 ≤ i ∧ i < a.cells.length

instance (a : Argv) (i : Int) : Decidable (a.Inside i) := inferInstanceAs (Decidable (_ ∧ _))

def Argv.get (a : Argv) (i : Int) : Ptr := if a.Inside i then a.cells.getD i.toNat .wild else .wild

def Argv.set (a : Argv) (i : Int) (p : Ptr) : Argv := if a.Inside i then ⟨a.cells.set i.toNat p⟩ else a

/-! ## Helper functions -/

/-- What the blocks that `malloc` returns hold behind the bytes that are stored in them, up to a NUL. -/
structure Heap where
  /-- Behind the copy of the line. -/
  copy : Text
  /-- Behind what `substring` returns, the first time and the second time. -/
  first : Text
  second : Text

/-- `substring`; `junk` is what follows in its block. -/
def substring (junk input : Text) (start stop : Nat) : Ptr :=
  if start ≥ stop then .null
  else if input.length < stop then .null
  else .str ((input.drop start).take (stop - start) ++ junk)

/-- `indexOf`; `none` for -1. -/
def indexOf (input : Text) (c : UInt8) : Option Nat := input.findIdx? (· = c)

/-- The variables of `parseArgv`, and the global ones that it sets. -/
structure Parser where
  list : Argv
  index : Int
  waitFlag : Bool
  redirectFlag : Bool
  redirectFileName : Ptr
  /-- All accesses so far were in range. -/
  inBounds : Bool

namespace Parser

/-- An access to `list[i]`. -/
def touch (s : Parser) (i : Int) : Parser := { s with inBounds := s.inBounds && decide (s.list.Inside i) }

/-- `list[i] = p`. -/
def store (s : Parser) (i : Int) (p : Ptr) : Parser := { s.touch i with list := s.list.set i p }

/-- `arrayRemove(&list, size, position)`. -/
def arrayRemove (s : Parser) (size position : Int) : Parser :=
  if position ≥ size then s
  else
    let kept : List Nat := (List.range size.toNat).filter fun i : Nat => decide ((i : Int) ≠ position)
    { s with
      list := ⟨(kept.map fun i : Nat => s.list.get i).take (size - 1).toNat⟩
      inBounds := s.inBounds && kept.all (fun i : Nat => decide (s.list.Inside i)) &&
        decide (kept.length ≤ size - 1) }

/-- The four cases for a word with a `>`, first at `c`: where the loop goes on, or an error. -/
def redirect (heap : Heap) (s : Parser) (i : Int) (word : Text) (c : Nat) : Parser × Option Int :=
  -- the `>` is by itself
  if word.length = 1 then
    if i + 1 ≠ s.index - 1 then (s, none)
    else
      let s := { s.touch (i + 1) with redirectFileName := s.list.get (i + 1) }
      let s := s.arrayRemove s.index (i + 1)
      let s := s.arrayRemove s.index i
      ({ s with index := s.index - 2 }, some (i - 2))
  -- it starts the file name
  else if c = 0 then
    let s := { s with redirectFileName := substring heap.first word 1 word.length }
    if i ≠ s.index - 1 then (s, none)
    else
      let s := s.arrayRemove s.index i
      ({ s with index := s.index - 1 }, some (i - 1))
  -- it is at the end
  else if c = word.length - 1 then
    if i + 1 = s.index ∨ i + 1 ≠ s.index - 1 then (s, none)
    else
      let s := s.store i (substring heap.first word 0 (word.length - 1))
      let s := { s.touch (i + 1) with redirectFileName := s.list.get (i + 1) }
      let s := s.arrayRemove s.index (i + 1)
      ({ s with index := s.index - 1 }, some (i - 1))
  -- it is in the middle
  else if i + 1 ≠ s.index then (s, none)
  else
    let s := s.store i (substring heap.first word 0 c)
    ({ s with redirectFileName := substring heap.second word (c + 1) word.length }, some i)

end Parser

/-! ## The parser -/

/-- How `parseArgv` ends. -/
inductive Ret where
  | undefined
  /-- It returns -1. -/
  | rejected
  | returned (num : Int)
deriving DecidableEq

/-- The loop that checks for the redirect flag, from `i` on, and the rest of the function. -/
def redirects (heap : Heap) (s : Parser) (i : Int) : Ret × Parser :=
  if i < s.index then
    match s.list.get i with
    | .str word =>
        match indexOf word gt with
        | none => redirects heap (s.touch i) (i + 1)
        | some c =>
            if s.redirectFlag then (.rejected, s.touch i)
            else
              match (s.touch i).redirect heap i word c with
              | (s', none) => (.rejected, s')
              | (s', some j) => redirects heap { s' with redirectFlag := true } (j + 1)
    | _ => (.undefined, s.touch i)
  else (.returned s.index, s.store s.index .null)
termination_by (if s.redirectFlag then 0 else 1, (s.index - i).toNat)
decreasing_by
  · refine Prod.Lex.right _ ?_
    show (s.index - (i + 1)).toNat < (s.index - i).toNat
    omega
  · refine Prod.Lex.left _ _ ?_
    show 0 < if s.redirectFlag = true then 0 else 1
    rw [if_neg (by assumption)]
    exact Nat.one_pos

/-- The check for a `&` with a command but still at the end, and the rest of the function. -/
def waitsEnd (heap : Heap) (s : Parser) : Ret × Parser :=
  match s.list.get (s.index - 1) with
  | .str last =>
      let s := s.touch (s.index - 1)
      if last.getLast? = some amp then
        redirects heap { s with waitFlag := true, list := s.list.set (s.index - 1) (.str last.dropLast) } 0
      else redirects heap s 0
  | _ => (.undefined, s.touch (s.index - 1))

/-- The check for a `&` by itself, and the rest of the function. -/
def waits (heap : Heap) (s : Parser) : Ret × Parser :=
  match s.list.get (s.index - 1) with
  | .str last =>
      let s := s.touch (s.index - 1)
      if last = [amp] then waitsEnd heap { s with waitFlag := true, index := s.index - 1 }
      else waitsEnd heap s
  | _ => (.undefined, s.touch (s.index - 1))

/-- `parseArgv`, on a line without a NUL. -/
def parseArgv (heap : Heap) (input : Text) : Ret × Parser :=
  let words := tokens space input
  -- the copy is counted together with what follows it
  let numArgvs := (tokens space (input ++ heap.copy)).length
  let list : Argv := ⟨words.map .str ++ List.replicate (numArgvs + 1 - words.length) .wild⟩
  waits heap ⟨list, words.length, false, false, .wild, decide (words.length ≤ numArgvs + 1)⟩

end Cs537.Shell
