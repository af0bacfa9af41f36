import Cs537.Lib.CString

/-!
# The two input loops of `P2/linux/mysh.c`

The shell reads commands from a file in batch mode and from `stdin` in interactive
mode. The loops were written apart, both around `fgets` with a buffer of `MAX_SIZE`
bytes. A run is modelled by its events: the calls of `execute`, and the error reports for
lines that are too long. What `execute` does is left open, except that it may not return:
`ends` says for which commands it ends the process, as it does for `exit`.

`prompt` moves the global `input` past leading spaces and never moves it back, and the
next `fgets` writes from there. So the interactive loop carries the offset of `input` in
its buffer, and a line that does not fit behind it is written past its end. The rest of
such a run has no meaning, and the event `overrun` ends it.
-/

namespace Cs537.Shell

open Cs537.Lib

abbrev Text := List UInt8

/-- `'\n'`. -/
def newline : UInt8 := 10

/-- `' '`. -/
def space : UInt8 := 32

/-- `MAX_SIZE`. -/
def maxSize : Nat := 514

/-! ## The standard library -/

/-- At most `n` characters, up to and with a newline; and what is left. -/
def readLine : Nat → Text → Text × Text
  | 0, text => ([], text)
  | _ + 1, [] => ([], [])
  | n + 1, c :: text =>
      if c = newline then ([c], text)
      else (c :: (readLine n text).1, (readLine n text).2)

/-- `fgets(buf, size, stream)`; `none` at the end of the file. -/
def fgets (size : Nat) : Text → Option (Text × Text)
  | [] => none
  | c :: text => some (readLine (size - 1) (c :: text))

/-- `while ((c = getc(stream)) != '\n' && c != EOF);` -/
def skipLine : Text → Text
  | [] => []
  | c :: text => if c = newline then text else skipLine text

theorem length_readLine (n : Nat) (text : Text) : (readLine n text).2.length ≤ text.length := by
  induction n generalizing text with
  | zero => exact Nat.le_refl _
  | succ n ih =>
      cases text with
      | nil => exact Nat.le_refl _
      | cons c text =>
          rw [readLine]
          split
          · exact Nat.le_succ _
          · exact Nat.le_succ_of_le (ih text)

theorem length_fgets {text line rest : Text} (h : fgets maxSize text = some (line, rest)) :
    rest.length < text.length := by
  cases text with
  | nil => cases h
  | cons c text =>
      rw [fgets, Option.some.injEq, maxSize, readLine] at h
      split at h
      · cases h
        exact Nat.lt_succ_self _
      · cases h
        exact Nat.lt_succ_of_le (length_readLine _ _)

theorem length_skipLine (text : Text) : (skipLine text).length ≤ text.length := by
  induction text with
  | nil => exact Nat.le_refl _
  | cons c text ih =>
      rw [skipLine]
      split
      · exact Nat.le_succ _
      · exact Nat.le_succ_of_le ih

/-! ## The loops -/

inductive Event where
  /-- `execute(cmd)`. -/
  | execute (cmd : Text)
  /-- `displayError()` for a line that is too long. -/
  | error
  /-- `fgets` writes past the end of the buffer. -/
  | overrun
deriving DecidableEq

/-- A command without its leading spaces. -/
def strip (cmd : Text) : Text := cmd.dropWhile (· = space)

/-- `execute(cmd)` does not return; a blank command does nothing. -/
def quits (ends : Text → Bool) (cmd : Text) : Bool := strip cmd ≠ [] && ends (strip cmd)

/-- The batch loop of `main`. -/
def batch (ends : Text → Bool) (text : Text) : List Event :=
  match h : fgets maxSize text with
  | none => []
  | some (line, rest) =>
      have := length_fgets h
      let input := cstr line
      if newline ∉ input then
        have := length_skipLine rest
        .error :: batch ends (skipLine rest)
      else
        let cmd := if input.getLast? = some newline then input.dropLast else input
        .execute cmd :: if quits ends cmd then [] else batch ends rest
termination_by text.length

/-- The interactive loop of `main` with `prompt`, where `input` is `off` bytes into its buffer. -/
def interactive (ends : Text → Bool) (off : Nat) (text : Text) : List Event :=
  match h : fgets maxSize text with
  | none => []
  | some (line, rest) =>
      have := length_fgets h
      if maxSize < off + line.length + 1 then [.overrun]
      else
        let input := cstr line
        if input.length = maxSize ∧ newline ∉ input ∧ (255 : UInt8) ∉ input then
          have := length_skipLine rest
          .error :: interactive ends off (skipLine rest)
        else
          let cmd := input.takeWhile (· ≠ newline)
          let lead := cmd.length - (strip cmd).length
          -- nothing but spaces: `prompt` returns NULL
          if lead ≠ 0 ∧ strip cmd = [] then interactive ends (off + lead) rest
          else
            .execute (strip cmd) ::
              if quits ends cmd then [] else interactive ends (off + lead) rest
termination_by text.length

end Cs537.Shell
