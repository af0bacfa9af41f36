import Cs537.Shell.Words
import Cs537.Shell.Modes

/-!
# Which lines keep the word array in range

`parseArgv` looks at the last word without asking whether there is one. And where it takes a
`>` out of the array with `arrayRemove`, the array it goes on with has as many elements as it
has words, with no room for the `NULL`; where it takes out two words, it copies the second
time with the old size. Only the `>` in the middle of the last word is handled in place.
-/

namespace Cs537.Shell

open Cs537.Lib

variable {ws pre post : List Text} {x t : Text}

/-- `exec_args[0]`, where `execute` calls `buildIn`. -/
def commandOf (r : Ret × Parser) : Option Ptr :=
  match r.1 with
  | .returned _ => some (r.2.list.get 0)
  | _ => none

/-- No access to the word arrays is out of range for this line, and `execute` passes on a command. -/
def WordsInside (input : Text) : Prop :=
  ∀ heap, (parseArgv heap input).2.inBounds = true ∧ commandOf (parseArgv heap input) ≠ some .null

/-- The `>` is in the last word, with something on both sides. -/
def Middle (x t : Text) (post : List Text) : Prop := x ≠ [] ∧ t ≠ [] ∧ post = []

theorem get_zero_ne_null (h : ws ≠ []) (extra : List Ptr) : (⟨ws.map .str ++ extra⟩ : Argv).get 0 ≠ .null := by
  obtain ⟨w, ws, rfl⟩ := List.exists_cons_of_ne_nil h
  have hget := get_append [] (ws.map .str ++ extra) (.str w)
  rw [List.nil_append, List.length_nil, Int.natCast_zero] at hget
  rw [List.map_cons, List.cons_append, hget]
  exact fun h => by cases h

/-- A `>` with one piece behind it, that is not in the middle of the last word. -/
theorem inBounds_false {s : Parser} {extra : List Ptr} (h : FirstRedirect ws pre x t post) (hs : s.Holds ws extra)
    (hflag : s.redirectFlag = false) (hafter : after t post = 1) (hmid : ¬Middle x t post) :
    (redirects .clean s 0).2.inBounds = false := by
  obtain ⟨rfl, hpre, hx⟩ := h
  rcases after_eq_one hafter with ⟨rfl, name, rfl⟩ | ⟨ht, rfl⟩
  · by_cases hx0 : x = []
    · subst hx0
      by_cases hpre0 : pre = []
      · subst hpre0
        obtain ⟨s', heq, hs'⟩ := redirects_alone_nil .clean hflag hs
        rw [heq]
        exact hs'
      · rw [redirects_alone .clean hpre hpre0 hflag hs]
    · have hclean : gt ∉ Heap.clean.first := List.not_mem_nil
      rw [redirects_stop .clean hpre hx hx0 hflag hs, if_neg hclean]
  · by_cases hx0 : x = []
    · subst hx0
      rw [redirects_start .clean hpre ht hflag hs]
    · exact absurd ⟨hx0, ht, rfl⟩ hmid

/--
**The word array.** On a line every access to the word arrays is in range, and a command that
is executed is not `NULL`, exactly if a word is left when a `&` has been dropped, and the first
`>`, if there is one, is followed by not exactly one piece, which is an error, or is in the
middle of the last word.
-/
theorem words_inside_iff (input : Text) :
    WordsInside input ↔ dropWord (tokens space input) ≠ []
      ∧ ∀ pre x t post, FirstRedirect (command (tokens space input)) pre x t post →
        after t post ≠ 1 ∨ Middle x t post := by
  constructor
  · intro hin
    have hws : dropWord (tokens space input) ≠ [] := by
      intro hws
      obtain ⟨s, heq, hs⟩ := parseArgv_undefined .clean hws
      have hok := (hin .clean).1
      rw [heq, hs] at hok
      cases hok
    refine ⟨hws, fun pre x t post hfirst => ?_⟩
    by_contra hnot
    rw [not_or, not_not] at hnot
    obtain ⟨s, p, extra, heq, hs, -, hflag, -⟩ := parseArgv_redirects .clean hws
    have hok := (hin .clean).1
    rw [heq, inBounds_false hfirst hs hflag hnot.1 hnot.2] at hok
    cases hok
  · rintro ⟨hws, hfirst⟩ heap
    obtain ⟨s, p, extra, heq, hs, -, hflag, hok⟩ := parseArgv_redirects heap hws
    have hne := command_ne_nil hws
    rw [heq]
    rcases firstRedirect_or_none (command (tokens space input)) with hall | ⟨pre, x, t, post, hredir⟩
    · rw [redirects_plain heap hall hs]
      exact ⟨hok, fun hnull => get_zero_ne_null hne _ (Option.some.inj hnull)⟩
    · obtain ⟨hword, hpre, hx⟩ := id hredir
      rw [hword] at hs
      rcases hfirst pre x t post hredir with hafter | ⟨hx0, ht, rfl⟩
      · obtain ⟨s', heq', -, hok'⟩ := redirects_rejected heap hpre hx hflag hs hafter
        rw [heq']
        exact ⟨hok'.trans hok, fun hnull => by cases hnull⟩
      · rw [redirects_middle heap hpre hx hx0 ht hflag hs]
        exact ⟨hok, fun hnull => get_zero_ne_null (List.append_ne_nil_of_right_ne_nil _ (List.cons_ne_nil _ _)) _
          (Option.some.inj hnull)⟩

/-- An empty line of a batch file. -/
theorem empty_line_outside :
    Event.execute [] ∈ batch (fun _ => false) [newline] ∧ ¬WordsInside [] := by
  constructor
  · have hline := @batch_short (fun _ => false) [] [] List.not_mem_nil List.not_mem_nil (Nat.zero_le _)
    rw [List.nil_append] at hline
    rw [hline]
    exact List.mem_cons_self ..
  · intro hin
    obtain ⟨s, heq, hs⟩ := @parseArgv_undefined .clean []
      (by rw [tokens_none fun c hc => absurd hc List.not_mem_nil]; rfl)
    have hok := (hin .clean).1
    rw [heq, hs] at hok
    cases hok

end Cs537.Shell
