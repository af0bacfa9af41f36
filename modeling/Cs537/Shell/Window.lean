import Cs537.Shell.Modes

/-!
# Where `fgets` writes

`main` allocates `MAX_SIZE` bytes and points the global `input` to them. `prompt` reads
`MAX_SIZE` bytes to `input`, and then advances it over the leading spaces of the line.
Nobody moves it back. So after the first line that begins with a space, every `fgets` may
write past the end of the block.
-/

namespace Cs537.Shell

open Cs537.Lib

variable {ends : Text → Bool} {off : Nat} {text rest line : Text}

/-! ## `prompt` -/

/-- How `prompt` ends; `off` is then the offset of `input` in its block. -/
inductive Prompted where
  /-- `exit(0)` at the end of the file. -/
  | exits
  /-- `fgets` has written past the end of the block. -/
  | overrun
  /-- It returns NULL, after an error or not. -/
  | null (error : Bool) (off : Nat) (rest : Text)
  | command (cmd : Text) (off : Nat) (rest : Text)

/-- The command in a line: up to the newline, if there is one. -/
def cmdOf (line : Text) : Text := (cstr line).takeWhile (· ≠ newline)

def prompt (off : Nat) (text : Text) : Prompted :=
  match fgets maxSize text with
  | none => .exits
  | some (line, rest) =>
      if maxSize < off + line.length + 1 then .overrun
      else
        let input := cstr line
        if input.length = maxSize ∧ newline ∉ input ∧ (255 : UInt8) ∉ input then
          .null true off (skipLine rest)
        else
          let cmd := cmdOf line
          if lead cmd ≠ 0 ∧ strip cmd = [] then .null false (off + lead cmd) rest
          else .command (strip cmd) (off + lead cmd) rest

theorem prompt_some (h : fgets maxSize text = some (line, rest)) : prompt off text =
    if maxSize < off + line.length + 1 then .overrun
    else if (cstr line).length = maxSize ∧ newline ∉ cstr line ∧ (255 : UInt8) ∉ cstr line then
      .null true off (skipLine rest)
    else if lead (cmdOf line) ≠ 0 ∧ strip (cmdOf line) = []
    then .null false (off + lead (cmdOf line)) rest
    else .command (strip (cmdOf line))
      (off + lead (cmdOf line)) rest := by
  rw [prompt, h]

/-- What is left to read afterwards. -/
def Prompted.left : Prompted → Option Text
  | .exits | .overrun => none
  | .null _ _ rest | .command _ _ rest => some rest

theorem length_prompt (h : (prompt off text).left = some rest) : rest.length < text.length := by
  unfold prompt at h
  split at h
  · cases h
  · rename_i line rest' hget
    have hlt := length_fgets hget
    have hskip := length_skipLine rest'
    split at h
    · cases h
    · dsimp only at h
      split at h
      · cases h
        omega
      · split at h
        · cases h
          exact hlt
        · cases h
          exact hlt

theorem quits_strip (cmd : Text) : quits ends (strip cmd) = quits ends cmd := by
  rw [quits, quits, strip_strip]

/-- The interactive loop of `main` is a loop over `prompt`. -/
theorem interactive_prompt (ends : Text → Bool) (off : Nat) (text : Text) :
    interactive ends off text = match prompt off text with
      | .exits => []
      | .overrun => [.overrun]
      | .null error off rest => (if error then [.error] else []) ++ interactive ends off rest
      | .command cmd off rest => .execute cmd :: if quits ends cmd then [] else interactive ends off rest := by
  rw [interactive]
  split
  · rename_i hget
    have hexit : prompt off text = .exits := by rw [prompt, hget]
    rw [hexit]
  · rename_i line rest hget
    rw [prompt_some hget]
    dsimp only
    split
    · rfl
    · split
      · rfl
      · rw [← lead, ← cmdOf]
        split
        · rfl
        · dsimp only
          rw [quits_strip]

/-! ## The window -/

/-- The offsets of `input` at the calls of `fgets`. -/
def windows (ends : Text → Bool) (off : Nat) (text : Text) : List Nat :=
  off :: match h : prompt off text with
    | .exits | .overrun => []
    | .null _ off' rest =>
        have := @length_prompt off text rest (by rw [h]; rfl)
        windows ends off' rest
    | .command cmd off' rest =>
        have := @length_prompt off text rest (by rw [h]; rfl)
        if quits ends cmd then [] else windows ends off' rest
termination_by text.length

/-- The lines that are typed before `prompt` is called again: without the one that ends the shell. -/
def typed (ends : Text → Bool) (text : Text) : List Text :=
  match h : fgets maxSize text with
  | none => []
  | some (line, rest) =>
      have := length_fgets h
      if quits ends (cmdOf line) then [] else line :: typed ends rest
termination_by text.length

theorem windows_eq (ends : Text → Bool) (off : Nat) (text : Text) :
    windows ends off text = off :: match prompt off text with
      | .exits | .overrun => []
      | .null _ off' rest => windows ends off' rest
      | .command cmd off' rest => if quits ends cmd then [] else windows ends off' rest := by
  rw [windows]
  refine congrArg (off :: ·) ?_
  split
  · rename_i h; rw [h]
  · rename_i h; rw [h]
  · rename_i h; dsimp only; rw [h]
  · rename_i h; dsimp only; rw [h]

theorem mem_windows (ends : Text → Bool) (off : Nat) (text : Text) : off ∈ windows ends off text := by
  rw [windows]
  exact List.mem_cons_self ..

theorem length_fgets_line (h : fgets maxSize text = some (line, rest)) : line.length ≤ 513 := by
  cases text with
  | nil => cases h
  | cons c text =>
      have hread : readLine 513 (c :: text) = (line, rest) := Option.some.inj h
      have hlen := length_readLine_line 513 (c :: text)
      rw [hread] at hlen
      exact hlen

/-- A command moves `input` exactly if its line begins with a space. -/
theorem lead_eq_zero_iff : lead (cmdOf line) = 0 ↔ line.head? ≠ some space := by
  have hlead : ∀ cmd : Text, lead (space :: cmd) ≠ 0 := by
    intro cmd
    have hle : (strip cmd).length ≤ cmd.length := (List.dropWhile_suffix _).length_le
    have hstrip : strip (space :: cmd) = strip cmd := List.dropWhile_cons_of_pos (by decide)
    rw [lead, hstrip, List.length_cons]
    omega
  cases line with
  | nil => exact ⟨fun _ => by simp, fun _ => rfl⟩
  | cons c line =>
      rw [List.head?_cons, ne_eq, Option.some.injEq]
      by_cases hc : c = space
      · -- a space is neither the end of the string nor of the line
        have hcmd : cmdOf (c :: line) = space :: cmdOf line := by
          rw [cmdOf, cstr, hc, List.takeWhile_cons_of_pos (by decide),
            List.takeWhile_cons_of_pos (by decide)]
          rfl
        rw [hcmd]
        exact ⟨fun h => absurd h (hlead _), fun h => absurd hc h⟩
      · refine ⟨fun _ => hc, fun _ => ?_⟩
        have hhead : ∀ p : UInt8 → Bool, ∀ l : Text, l.head? ≠ some space →
            (l.takeWhile p).head? ≠ some space := by
          intro p l hl
          cases l with
          | nil => exact hl
          | cons d l =>
              rw [List.takeWhile_cons]
              split
              · exact hl
              · simp
        have hcmd : (cmdOf (c :: line)).head? ≠ some space :=
          hhead _ _ (hhead _ _ (by simpa using hc))
        have hstrip : strip (cmdOf (c :: line)) = cmdOf (c :: line) := by
          cases hl : cmdOf (c :: line) with
          | nil => rfl
          | cons d l =>
              rw [hl] at hcmd
              exact List.dropWhile_cons_of_neg (by simpa using hcmd)
        rw [lead, hstrip, Nat.sub_self]

/-- A blank command does not end the shell. -/
theorem quits_blank {cmd : Text} (h : strip cmd = []) : quits ends cmd = false := by
  rw [quits, h]
  rfl

/-- One line, read to a window that is inside its block. -/
theorem windows_zero (h : fgets maxSize text = some (line, rest)) : windows ends 0 text
    = 0 :: if quits ends (cmdOf line) then [] else windows ends (lead (cmdOf line)) rest := by
  have hroom : ¬maxSize < 0 + line.length + 1 := by
    have hle := length_fgets_line h
    rw [maxSize]
    omega
  have hshort : ¬((cstr line).length = maxSize ∧ newline ∉ cstr line ∧ (255 : UInt8) ∉ cstr line) :=
    fun hlong => absurd hlong.1 (Nat.ne_of_lt (length_cstr_fgets h))
  have hp := @prompt_some 0 text rest line h
  rw [if_neg hroom, if_neg hshort, Nat.zero_add] at hp
  rw [windows_eq]
  by_cases hblank : lead (cmdOf line) ≠ 0 ∧ strip (cmdOf line) = []
  · rw [hp, if_pos hblank, quits_blank hblank.2]
    rfl
  · rw [hp, if_neg hblank]
    dsimp only
    rw [quits_strip]

theorem typed_some (h : fgets maxSize text = some (line, rest)) :
    typed ends text = if quits ends (cmdOf line) then [] else line :: typed ends rest := by
  rw [typed]
  split
  · rename_i h'
    rw [h] at h'
    cases h'
  · rename_i h'
    rw [h] at h'
    cases h'
    rfl

end Cs537.Shell
