import Cs537.Shell.Words

/-!
# The language of the shell, and the lines that `parseArgv` gets right

A line is words, then perhaps a `>` and the name of a file, then perhaps a `&`. The words
are what stands between spaces, and a `>` is a symbol of its own wherever it stands.
`parseArgv` accepts more than that, and of what it should accept it stores some commands
without the `NULL` at their end, and others with strings that are not terminated.
-/

namespace Cs537.Shell

open Cs537.Lib

variable {ws ws' pre post : List Text} {w x t name : Text} {file file' : Option Text} {line : Text}

/-! ## The language -/

/-- The maximal words without a space. -/
def wordsOf (line : Text) : List Text := (line.splitOn space).filter (· ≠ [])

/-- The words without a final `&`, which is a word of its own or the end of the last word. -/
def withoutAmp (ws : List Text) : List Text :=
  if ws.getLast? = some [amp] then ws.dropLast else dropChar ws

inductive Symbol where
  | word (w : Text)
  | redirect
deriving DecidableEq

/-- A word, split around its `>`. -/
def symbols : Text → List Symbol
  | [] => []
  | c :: w =>
      if c = gt then .redirect :: symbols w
      else
        match symbols w with
        | .word v :: vs => .word (c :: v) :: vs
        | vs => .word [c] :: vs

/-- A command and the file for its output. -/
inductive Accepts : List Symbol → List Text → Option Text → Prop
  | plain (ws : List Text) (h : ws ≠ []) : Accepts (ws.map .word) ws none
  | redirect (ws : List Text) (h : ws ≠ []) (name : Text) : Accepts (ws.map .word ++ [.redirect, .word name]) ws (some name)

/-- The symbols of a line, without a final `&`. -/
def lineSymbols (line : Text) : List Symbol := (withoutAmp (wordsOf line)).flatMap symbols

/-- `parseArgv` returns this command. -/
def Gives (r : Ret × Parser) (ws : List Text) (file : Option Text) : Prop :=
  r.1 = .returned ws.length ∧ r.2.list.cells.take (ws.length + 1) = ws.map .str ++ [.null]
    ∧ match file with
      | none => r.2.redirectFlag = false
      | some name => r.2.redirectFlag = true ∧ r.2.redirectFileName = .str name

/-- `parseArgv` accepts the line as the language says, whatever the new blocks hold. -/
structure Parses (line : Text) : Prop where
  accepts : ∀ heap ws file, Accepts (lineSymbols line) ws file → Gives (parseArgv heap line) ws file
  rejects : ∀ heap, (¬∃ ws file, Accepts (lineSymbols line) ws file) → (parseArgv heap line).1 = .rejected
  waits : ∀ heap, (parseArgv heap line).2.waitFlag = background (wordsOf line)

/-! ## Symbols -/

theorem symbols_word (hne : w ≠ []) (h : gt ∉ w) : symbols w = [.word w] := by
  induction w with
  | nil => exact absurd rfl hne
  | cons c w ih =>
      have hc : c ≠ gt := fun hc => h (by rw [hc]; exact List.mem_cons_self ..)
      rw [symbols, if_neg hc]
      by_cases hw : w = []
      · subst hw
        rfl
      · rw [ih hw (List.not_mem_of_not_mem_cons h)]

theorem symbols_append (h : gt ∉ x) : symbols (x ++ gt :: t) = symbols x ++ .redirect :: symbols t := by
  by_cases hx : x = []
  · subst hx
    rfl
  · rw [symbols_word hx h]
    induction x with
    | nil => exact absurd rfl hx
    | cons c x ih =>
        have hc : c ≠ gt := fun hc => h (by rw [hc]; exact List.mem_cons_self ..)
        rw [List.cons_append, symbols, if_neg hc]
        by_cases hx0 : x = []
        · subst hx0
          rfl
        · rw [ih (List.not_mem_of_not_mem_cons h) hx0]
          rfl

theorem redirect_mem_symbols (h : gt ∈ w) : .redirect ∈ symbols w := by
  obtain ⟨x, t, rfl, hx⟩ := List.eq_append_cons_of_mem h
  rw [symbols_append hx]
  exact List.mem_append_right _ (List.mem_cons_self ..)

theorem flatMap_symbols (hne : ∀ w ∈ ws, w ≠ []) (h : ∀ w ∈ ws, gt ∉ w) :
    ws.flatMap symbols = ws.map .word := by
  induction ws with
  | nil => rfl
  | cons w ws ih =>
      rw [List.forall_mem_cons] at hne h
      rw [List.flatMap_cons, symbols_word hne.1 h.1, ih hne.2 h.2]
      rfl

theorem flatMap_symbols_redirect (hne : ∀ w ∈ pre, w ≠ []) (h : FirstRedirect ws pre x t post) :
    ws.flatMap symbols = pre.map .word ++ symbols x ++ .redirect :: (symbols t ++ post.flatMap symbols) := by
  rw [h.eq, List.flatMap_append, flatMap_symbols hne h.pre, List.flatMap_cons, symbols_append h.word]
  simp

theorem length_symbols_pos (h : w ≠ []) : 0 < (symbols w).length := by
  by_cases hw : gt ∈ w
  · exact List.length_pos_of_mem (redirect_mem_symbols hw)
  · rw [symbols_word h hw]
    exact Nat.one_pos

theorem length_flatMap_symbols (hne : ∀ w ∈ ws, w ≠ []) : ws.length ≤ (ws.flatMap symbols).length := by
  induction ws with
  | nil => exact Nat.zero_le _
  | cons w ws ih =>
      rw [List.forall_mem_cons] at hne
      have hw := length_symbols_pos hne.1
      have hws := ih hne.2
      rw [List.flatMap_cons, List.length_append, List.length_cons]
      omega

/-- There is one symbol behind the `>` only if there is one piece. -/
theorem after_of_length (hne : ∀ w ∈ post, w ≠ []) (h : (symbols t ++ post.flatMap symbols).length = 1) :
    after t post = 1 := by
  have hpost := length_flatMap_symbols hne
  rw [List.length_append] at h
  rw [after]
  by_cases ht : t = []
  · subst ht
    cases post with
    | nil => cases h
    | cons w post =>
        rw [if_pos rfl]
        rw [List.length_cons] at hpost ⊢
        rw [symbols, List.length_nil] at h
        omega
  · have hpos := length_symbols_pos ht
    rw [if_neg ht]
    omega

theorem redirect_notMem_words (ws : List Text) : Symbol.redirect ∉ ws.map .word := by simp

theorem word_injective : Function.Injective Symbol.word := fun _ _ h => Symbol.word.inj h

theorem accepts_words (h : Accepts (ws.map .word) ws' file) : ws' = ws ∧ file = none := by
  generalize hvs : ws.map Symbol.word = vs at h
  cases h with
  | plain _ h => exact ⟨(List.map_injective_iff.mpr word_injective hvs).symm, rfl⟩
  | redirect ws' h name =>
      refine absurd ?_ (redirect_notMem_words ws)
      rw [hvs]
      simp

/-- What is accepted with a `>` has no other one, and one word behind it. -/
theorem accepts_redirect {vs vs' : List Symbol} (h : Accepts (vs ++ .redirect :: vs') ws file) :
    ws ≠ [] ∧ vs = ws.map .word ∧ ∃ name, file = some name ∧ vs' = [.word name] := by
  generalize hall : vs ++ Symbol.redirect :: vs' = all at h
  cases h with
  | plain _ h =>
      refine absurd ?_ (redirect_notMem_words ws)
      rw [← hall]
      simp
  | redirect _ h name =>
      obtain ⟨hvs, -, hvs'⟩ := (List.append_cons_inj_of_notMem (redirect_notMem_words ws)
        (redirect_notMem_words [name])).mp hall.symm
      exact ⟨h, hvs.symm, name, rfl, hvs'.symm⟩

/-! ## The `&` -/

theorem trim_eq (w : Text) : trim w = w ∨ w = trim w ++ [amp] := by
  rw [trim]
  split_ifs with h
  · exact Or.inr (List.dropLast_append_getLast? amp h).symm
  · exact Or.inl rfl

theorem wordsOf_eq (line : Text) : wordsOf line = tokens space line := (tokens_eq_splitOn space line).symm

theorem withoutAmp_append (ws : List Text) (w : Text) :
    withoutAmp (ws ++ [w]) = if w = [amp] then ws else ws ++ [trim w] := by
  rw [withoutAmp, List.getLast?_concat, List.dropLast_concat, dropChar_append]
  simp only [Option.some.injEq]

theorem withoutAmp_ne_nil (hne : ∀ w ∈ ws, w ≠ []) : ∀ w ∈ withoutAmp ws, w ≠ [] := by
  rcases List.eq_nil_or_concat ws with rfl | ⟨front, last, rfl⟩
  · exact hne
  · rw [List.concat_eq_append] at hne ⊢
    rw [withoutAmp_append]
    split_ifs with hlast
    · exact fun w hw => hne w (List.mem_append_left _ hw)
    · intro w hw
      rcases List.mem_append.mp hw with hw | hw
      · exact hne w (List.mem_append_left _ hw)
      · obtain rfl := List.mem_singleton.mp hw
        intro hnil
        rcases trim_eq last with h | h
        · exact hne last (List.mem_append_right _ (List.mem_singleton_self _)) (h.symm.trans hnil)
        · exact hlast (by rw [h, hnil]; rfl)

/-- `parseArgv` drops one `&`, or two, of which the language drops the last. -/
theorem command_eq (h : dropWord ws ≠ []) :
    command ws = withoutAmp ws ∨ ∃ front w, command ws = front ++ [w] ∧ withoutAmp ws = front ++ [w ++ [amp]] := by
  rcases List.eq_nil_or_concat ws with rfl | ⟨front, last, rfl⟩
  · exact absurd rfl h
  rw [List.concat_eq_append] at h ⊢
  rw [dropWord_append] at h
  rw [command, dropWord_append, withoutAmp_append]
  split_ifs at h ⊢ with hlast
  · obtain ⟨front, w, rfl⟩ := (List.eq_nil_or_concat front).resolve_left h
    rw [List.concat_eq_append, dropChar_append]
    rcases trim_eq w with hw | hw
    · exact Or.inl (by rw [hw])
    · exact Or.inr ⟨front, trim w, rfl, by rw [← hw]⟩
  · exact Or.inl (dropChar_append front last)

theorem wordsOf_ne_nil (h : w ∈ wordsOf line) : w ≠ [] := by
  rw [wordsOf_eq] at h
  exact (mem_tokens h).1

/-- `parseArgv` on a line with a word. -/
theorem parseArgv_command (heap : Heap) (h : dropWord (wordsOf line) ≠ []) :
    ∃ s p extra, parseArgv heap line = redirects heap s 0 ∧ s.Holds (command (wordsOf line)) (p :: extra)
      ∧ s.waitFlag = background (wordsOf line) ∧ s.redirectFlag = false := by
  rw [wordsOf_eq] at h ⊢
  obtain ⟨s, p, extra, heq, hs, hwait, hflag, -⟩ := parseArgv_redirects heap h
  exact ⟨s, p, extra, heq, hs, hwait, hflag⟩

/-! ## The lines that are not parsed -/

namespace Parses

theorem not_undefined (h : Parses line) (heap : Heap) : (parseArgv heap line).1 ≠ .undefined := by
  intro hund
  by_cases hacc : ∃ ws file, Accepts (lineSymbols line) ws file
  · obtain ⟨ws, file, hacc⟩ := hacc
    have hret := (h.accepts heap ws file hacc).1
    rw [hund] at hret
    cases hret
  · have hrej := h.rejects heap hacc
    rw [hund] at hrej
    cases hrej

theorem gives (h : Parses line) {heap : Heap} {num : Int} (hret : (parseArgv heap line).1 = .returned num) :
    ∃ ws file, Accepts (lineSymbols line) ws file ∧ Gives (parseArgv heap line) ws file := by
  by_cases hacc : ∃ ws file, Accepts (lineSymbols line) ws file
  · obtain ⟨ws, file, hacc⟩ := hacc
    exact ⟨ws, file, hacc, h.accepts heap ws file hacc⟩
  · have hrej := h.rejects heap hacc
    rw [hret] at hrej
    cases hrej

theorem not_accepts (h : Parses line) {heap : Heap} (hrej : (parseArgv heap line).1 = .rejected) :
    ¬Accepts (lineSymbols line) ws file := by
  intro hacc
  have hret := (h.accepts heap ws file hacc).1
  rw [hrej] at hret
  cases hret

/-- What is returned ends with a `NULL`. -/
theorem null_mem (h : Parses line) {heap : Heap} {num : Int} (hret : (parseArgv heap line).1 = .returned num) :
    .null ∈ (parseArgv heap line).2.list.cells := by
  obtain ⟨ws, file, -, -, hcells, -⟩ := h.gives hret
  refine List.mem_of_mem_take (i := ws.length + 1) ?_
  rw [hcells]
  exact List.mem_append_right _ (List.mem_singleton_self _)

end Parses

theorem take_words (ws : List Text) (extra : List Ptr) :
    (ws.map Ptr.str ++ .null :: extra).take (ws.length + 1) = ws.map .str ++ [.null] := by
  have hlen : (ws.map Ptr.str).length = ws.length := List.length_map ..
  rw [← hlen, List.take_length_add_append]
  rfl

/-- The command that is returned. -/
theorem Gives.words_eq {r : Ret × Parser} {extra : List Ptr} (h : Gives r ws file)
    (hret : r.1 = .returned ws'.length) (hcells : r.2.list.cells = ws'.map .str ++ .null :: extra) : ws = ws' := by
  obtain ⟨hret', hcells', -⟩ := h
  rw [hret, Ret.returned.injEq, Int.natCast_inj] at hret'
  rw [hcells, ← hret', take_words] at hcells'
  have hmap := List.append_cancel_right hcells'
  exact (List.map_injective_iff.mpr (fun _ _ h => Ptr.str.inj h) hmap).symm

theorem null_notMem (ws : List Text) : Ptr.null ∉ ws.map .str := by simp

namespace Parses

theorem word_left (h : Parses line) : dropWord (wordsOf line) ≠ [] := by
  intro hws
  rw [wordsOf_eq] at hws
  obtain ⟨s, heq, -⟩ := parseArgv_undefined .clean hws
  exact h.not_undefined .clean (by rw [heq])

/-- Without a `>`, one `&` has been dropped at most. -/
theorem plain (h : Parses line) (hall : ∀ w ∈ command (wordsOf line), gt ∉ w) :
    command (wordsOf line) = withoutAmp (wordsOf line) := by
  obtain ⟨s, p, extra, heq, hs, -, -⟩ := parseArgv_command .clean h.word_left
  rw [redirects_plain .clean hall hs] at heq
  obtain ⟨ws, file, hacc, hgives⟩ := h.gives (by rw [heq])
  have hws := hgives.words_eq (by rw [heq]) (by rw [heq])
  have hamp : ∀ w ∈ withoutAmp (wordsOf line), gt ∉ w := by
    rcases command_eq h.word_left with hsame | ⟨front, w, hcmd, hwithout⟩
    · rwa [← hsame]
    · rw [hcmd, List.forall_mem_append, List.forall_mem_singleton] at hall
      rw [hwithout, List.forall_mem_append, List.forall_mem_singleton]
      refine ⟨hall.1, fun hmem => ?_⟩
      rcases List.mem_append.mp hmem with hmem | hmem
      · exact hall.2 hmem
      · exact absurd (List.mem_singleton.mp hmem) (by decide)
  rw [lineSymbols, flatMap_symbols (withoutAmp_ne_nil fun w hw => wordsOf_ne_nil hw) hamp] at hacc
  exact hws.symm.trans (accepts_words hacc).1

/-- A `>` by itself stands between a command and a file name, which is all that follows it. -/
theorem alone (h : Parses line) (hpre : ∀ w ∈ pre, gt ∉ w) (hcmd : command (wordsOf line) = pre ++ [[gt], name]) :
    pre ≠ [] ∧ gt ∉ name ∧ command (wordsOf line) = withoutAmp (wordsOf line) := by
  obtain ⟨s, p, extra, heq, hs, -, hflag⟩ := parseArgv_command .clean h.word_left
  rw [hcmd] at hs
  have hne : pre ≠ [] := by
    rintro rfl
    obtain ⟨s', hund, -⟩ := redirects_alone_nil .clean hflag hs
    exact h.not_undefined .clean (by rw [heq, hund])
  rw [redirects_alone .clean hpre hne hflag hs] at heq
  obtain ⟨ws, file, hacc, hgives⟩ := h.gives (by rw [heq])
  obtain rfl := @Gives.words_eq _ _ _ _ [] hgives (by rw [heq]) (by rw [heq])
  have hfile := hgives.2.2
  rw [heq] at hfile
  -- what is left of the last word in the language
  obtain ⟨name', hname', hwithout⟩ : ∃ name', (name' = name ∨ name' = name ++ [amp])
      ∧ withoutAmp (wordsOf line) = ws ++ [[gt], name'] := by
    rcases command_eq h.word_left with hsame | ⟨front, w, hfront, hwithout⟩
    · exact ⟨name, Or.inl rfl, by rw [← hsame, hcmd]⟩
    · have hsplit : front ++ [w] = (ws ++ [[gt]]) ++ [name] := by
        rw [← hfront, hcmd, List.append_assoc]
        rfl
      obtain ⟨rfl, hw⟩ := List.append_inj' hsplit rfl
      obtain rfl := List.singleton_injective hw
      exact ⟨_, Or.inr rfl, by rw [hwithout, List.append_assoc]; rfl⟩
  have hnonempty := withoutAmp_ne_nil fun w (hw : w ∈ wordsOf line) => wordsOf_ne_nil hw
  rw [hwithout] at hnonempty
  have hredir : FirstRedirect (withoutAmp (wordsOf line)) ws [] [] [name'] := ⟨hwithout, hpre, List.not_mem_nil⟩
  rw [lineSymbols, flatMap_symbols_redirect (fun w hw => hnonempty w (List.mem_append_left _ hw)) hredir] at hacc
  obtain ⟨-, -, file', rfl, hsymbols⟩ := accepts_redirect hacc
  obtain rfl : name = file' := Ptr.str.inj hfile.2
  have hsymbols' : symbols name' = [.word name] := by simpa [symbols] using hsymbols
  have hgt : gt ∉ name' := fun hmem => by
    have hredirect := redirect_mem_symbols hmem
    rw [hsymbols'] at hredirect
    exact redirect_notMem_words [name] hredirect
  rw [symbols_word (hnonempty name' (by simp)) hgt] at hsymbols'
  obtain rfl : name' = name := by simpa using hsymbols'
  exact ⟨hne, hgt, by rw [hcmd, hwithout]⟩

/-- A `>` does not start the last word. -/
theorem not_start (h : Parses line) (hpre : ∀ w ∈ pre, gt ∉ w) (ht : t ≠ []) :
    command (wordsOf line) ≠ pre ++ [gt :: t] := by
  intro hcmd
  obtain ⟨s, p, extra, heq, hs, -, hflag⟩ := parseArgv_command .clean h.word_left
  rw [hcmd] at hs
  rw [redirects_start .clean hpre ht hflag hs] at heq
  have hnull := h.null_mem (by rw [heq])
  rw [heq] at hnull
  exact null_notMem pre hnull

/-- A `>` does not end the word before the last one. -/
theorem not_stop (h : Parses line) (hpre : ∀ w ∈ pre, gt ∉ w) (hx : gt ∉ x) (hne : x ≠ []) :
    command (wordsOf line) ≠ pre ++ [x ++ [gt], name] := by
  intro hcmd
  obtain ⟨s, p, extra, heq, hs, -, hflag⟩ := parseArgv_command .clean h.word_left
  have hclean : gt ∉ Heap.clean.first := List.not_mem_nil
  rw [hcmd] at hs
  rw [redirects_stop .clean hpre hx hne hflag hs, if_neg hclean] at heq
  have hnull := h.null_mem (by rw [heq])
  rw [heq] at hnull
  exact null_notMem (pre ++ [x ++ Heap.clean.first]) hnull

/-- A `>` is not in the middle of the last word: what the command is depends on the junk behind it. -/
theorem not_middle (h : Parses line) (hpre : ∀ w ∈ pre, gt ∉ w) (hx : gt ∉ x) (hne : x ≠ []) (ht : t ≠ []) :
    command (wordsOf line) ≠ pre ++ [x ++ gt :: t] := by
  intro hcmd
  have hret : ∀ heap, ∃ s extra, parseArgv heap line = (.returned (pre ++ [x ++ heap.first]).length, s)
      ∧ s.list.cells = (pre ++ [x ++ heap.first]).map .str ++ .null :: extra := by
    intro heap
    obtain ⟨s, p, extra, heq, hs, -, hflag⟩ := parseArgv_command heap h.word_left
    rw [hcmd] at hs
    rw [redirects_middle heap hpre hx hne ht hflag hs] at heq
    have hlen : (pre.length : Int) + 1 = (pre ++ [x ++ heap.first]).length := by
      rw [List.length_append, List.length_singleton]
      omega
    rw [hlen] at heq
    exact ⟨_, extra, heq, rfl⟩
  obtain ⟨s, extra, heq, hcells⟩ := hret ⟨[], [1], []⟩
  obtain ⟨ws, file, hacc, hgives⟩ := h.gives (by rw [heq])
  obtain ⟨s', extra', heq', hcells'⟩ := hret ⟨[], [2], []⟩
  have hws := hgives.words_eq (by rw [heq]) (by rw [heq]; exact hcells)
  have hws' := (h.accepts ⟨[], [2], []⟩ ws file hacc).words_eq (by rw [heq']) (by rw [heq']; exact hcells')
  have hjunk := hws.symm.trans hws'
  simp at hjunk

end Parses

/-! ## The lines that are parsed -/

/-- The words of a line that `parseArgv` gets right, if one is left when a `&` is dropped. -/
inductive Handled (ws : List Text) : Prop
  /-- There is no `>`. -/
  | plain (hamp : command ws = withoutAmp ws) (h : ∀ w ∈ command ws, gt ∉ w)
  /-- The only `>` is by itself, behind the command and before the file name. -/
  | alone (hamp : command ws = withoutAmp ws) (pre : List Text) (name : Text) (hne : pre ≠ [])
      (heq : command ws = pre ++ [[gt], name]) (hpre : ∀ w ∈ pre, gt ∉ w) (hname : gt ∉ name)
  /-- Not exactly one piece follows the first `>`, nor has it been taken for a `&`. -/
  | error (pre : List Text) (x t : Text) (post : List Text) (h : FirstRedirect (command ws) pre x t post)
      (hafter : after t post ≠ 1) (hamp : command ws = withoutAmp ws ∨ post ≠ [] ∨ pre = [] ∧ x = [])

theorem symbols_command (h : gt ∉ x) : ∃ xs : List Text, symbols x = xs.map .word ∧ (xs = [] → x = []) := by
  by_cases hx : x = []
  · exact ⟨[], by rw [hx]; rfl, fun _ => hx⟩
  · exact ⟨[x], symbols_word hx h, fun hnil => absurd hnil (List.cons_ne_nil _ _)⟩

/-- The first `>` of the words that the language has. -/
theorem firstRedirect_withoutAmp (hws : dropWord ws ≠ []) (h : FirstRedirect (command ws) pre x t post) :
    ∃ t' post', FirstRedirect (withoutAmp ws) pre x t' post'
      ∧ (command ws = withoutAmp ws ∨ post ≠ [] → after t' post' = after t post)
      ∧ (command ws ≠ withoutAmp ws → post = [] → t' = t ++ [amp] ∧ post' = []) := by
  obtain ⟨hcmd, hpre, hx⟩ := id h
  rcases command_eq hws with hsame | ⟨front, w, hfront, hwithout⟩
  · exact ⟨t, post, hsame ▸ h, fun _ => rfl, fun hdiff => absurd hsame hdiff⟩
  · have hdiff : command ws ≠ withoutAmp ws := by
      rw [hfront, hwithout]
      simp
    rw [hfront] at hcmd
    rcases List.eq_nil_or_concat post with rfl | ⟨post, last, rfl⟩
    · obtain ⟨rfl, hw⟩ := List.append_inj' hcmd rfl
      obtain rfl := List.singleton_injective hw
      refine ⟨t ++ [amp], [], ⟨?_, hpre, hx⟩, fun hor => ?_, fun _ _ => ⟨rfl, rfl⟩⟩
      · rw [hwithout, List.append_assoc, List.cons_append]
      · exact hor.elim (fun hsame => absurd hsame hdiff) fun hpost => absurd rfl hpost
    · rw [List.concat_eq_append] at hcmd ⊢
      have hsplit : front ++ [w] = (pre ++ (x ++ gt :: t) :: post) ++ [last] := by
        rw [hcmd, List.append_assoc, List.cons_append]
      obtain ⟨rfl, hw⟩ := List.append_inj' hsplit rfl
      obtain rfl := List.singleton_injective hw
      refine ⟨t, post ++ [w ++ [amp]], ⟨?_, hpre, hx⟩, fun _ => ?_, fun _ hpost => ?_⟩
      · rw [hwithout, List.append_assoc, List.cons_append]
      · rw [after, after, List.length_append, List.length_append, List.length_singleton, List.length_singleton]
      · exact absurd hpost (by simp)

/-- What is not one piece behind a `>` stays an error for the language, unless a `&` was taken for the file. -/
theorem Parses.error (h : Parses line) (hredir : FirstRedirect (command (wordsOf line)) pre x t post)
    (hafter : after t post ≠ 1) :
    command (wordsOf line) = withoutAmp (wordsOf line) ∨ post ≠ [] ∨ pre = [] ∧ x = [] := by
  by_contra hnot
  rw [not_or, not_or, not_not] at hnot
  obtain ⟨hdiff, rfl, hne⟩ := hnot
  obtain ⟨s, p, extra, heq, hs, -, hflag⟩ := parseArgv_command .clean h.word_left
  rw [hredir.eq] at hs
  obtain ⟨s', hrej, -⟩ := redirects_rejected .clean hredir.pre hredir.word hflag hs hafter
  have ht : t = [] := by
    by_contra ht
    rw [after, if_neg ht] at hafter
    exact hafter rfl
  obtain ⟨t', post', hredir', -, hlast⟩ := firstRedirect_withoutAmp h.word_left hredir
  obtain ⟨rfl, rfl⟩ := hlast hdiff rfl
  have hnonempty := withoutAmp_ne_nil fun w (hw : w ∈ wordsOf line) => wordsOf_ne_nil hw
  rw [hredir'.eq] at hnonempty
  have hsymbols := flatMap_symbols_redirect (fun w hw => hnonempty w (List.mem_append_left _ hw)) hredir'
  obtain ⟨xs, hxs, hxnil⟩ := symbols_command hredir.word
  have hacc : Accepts (lineSymbols line) (pre ++ xs) (some [amp]) := by
    rw [lineSymbols, hsymbols, hxs, ← List.map_append, ht]
    refine .redirect _ (fun hnil => ?_) [amp]
    obtain ⟨hpre, hxs⟩ := List.append_eq_nil_iff.mp hnil
    exact hne ⟨hpre, hxnil hxs⟩
  exact h.not_accepts (by rw [heq, hrej]) hacc

theorem Parses.handled (h : Parses line) : Handled (wordsOf line) := by
  rcases firstRedirect_or_none (command (wordsOf line)) with hall | ⟨pre, x, t, post, hredir⟩
  · exact .plain (h.plain hall) hall
  · obtain ⟨hcmd, hpre, hx⟩ := id hredir
    by_cases hafter : after t post = 1
    · rcases after_eq_one hafter with ⟨rfl, name, rfl⟩ | ⟨ht, rfl⟩
      · by_cases hne : x = []
        · subst hne
          obtain ⟨hne, hname, hamp⟩ := h.alone hpre hcmd
          exact .alone hamp pre name hne hcmd hpre hname
        · exact absurd hcmd (h.not_stop hpre hx hne)
      · by_cases hne : x = []
        · subst hne
          exact absurd hcmd (h.not_start hpre ht)
        · exact absurd hcmd (h.not_middle hpre hx hne ht)
    · exact .error pre x t post hredir hafter (h.error hredir hafter)

theorem parses_plain (hws : dropWord (wordsOf line) ≠ [])
    (hamp : command (wordsOf line) = withoutAmp (wordsOf line)) (hall : ∀ w ∈ command (wordsOf line), gt ∉ w) :
    Parses line := by
  have hnonempty := withoutAmp_ne_nil fun w (hw : w ∈ wordsOf line) => wordsOf_ne_nil hw
  have hsymbols : lineSymbols line = (command (wordsOf line)).map .word := by
    rw [← hamp] at hnonempty
    rw [lineSymbols, ← hamp, flatMap_symbols hnonempty hall]
  refine ⟨fun heap ws file hacc => ?_, fun heap hno => ?_, fun heap => ?_⟩
  · obtain ⟨s, p, extra, heq, hs, -, hflag⟩ := parseArgv_command heap hws
    rw [hsymbols] at hacc
    obtain ⟨rfl, rfl⟩ := accepts_words hacc
    rw [heq, redirects_plain heap hall hs]
    exact ⟨rfl, take_words _ extra, hflag⟩
  · refine absurd ⟨command (wordsOf line), none, ?_⟩ hno
    rw [hsymbols]
    exact .plain _ (command_ne_nil hws)
  · obtain ⟨s, p, extra, heq, hs, hwait, -⟩ := parseArgv_command heap hws
    rw [heq, redirects_plain heap hall hs]
    exact hwait

theorem parses_alone (hws : dropWord (wordsOf line) ≠ [])
    (hamp : command (wordsOf line) = withoutAmp (wordsOf line)) (hne : pre ≠ [])
    (hcmd : command (wordsOf line) = pre ++ [[gt], name]) (hpre : ∀ w ∈ pre, gt ∉ w) (hname : gt ∉ name) :
    Parses line := by
  have hnonempty := withoutAmp_ne_nil fun w (hw : w ∈ wordsOf line) => wordsOf_ne_nil hw
  rw [← hamp, hcmd] at hnonempty
  have hsymbols : lineSymbols line = pre.map .word ++ .redirect :: [.word name] := by
    have hredir : FirstRedirect (withoutAmp (wordsOf line)) pre [] [] [name] :=
      ⟨by rw [← hamp, hcmd]; rfl, hpre, List.not_mem_nil⟩
    rw [lineSymbols, flatMap_symbols_redirect (fun w hw => hnonempty w (List.mem_append_left _ hw)) hredir,
      List.flatMap_singleton, symbols_word (hnonempty name (by simp)) hname]
    simp [symbols]
  refine ⟨fun heap ws file hacc => ?_, fun heap hno => ?_, fun heap => ?_⟩
  · obtain ⟨s, p, extra, heq, hs, -, hflag⟩ := parseArgv_command heap hws
    rw [hcmd] at hs
    rw [hsymbols] at hacc
    obtain ⟨-, hwords, name', rfl, hname'⟩ := accepts_redirect hacc
    obtain rfl := List.map_injective_iff.mpr word_injective hwords
    obtain rfl : name = name' := by simpa using hname'
    rw [heq, redirects_alone heap hpre hne hflag hs]
    exact ⟨rfl, take_words pre [], rfl, rfl⟩
  · refine absurd ⟨pre, some name, ?_⟩ hno
    rw [hsymbols]
    exact .redirect pre hne name
  · obtain ⟨s, p, extra, heq, hs, hwait, hflag⟩ := parseArgv_command heap hws
    rw [hcmd] at hs
    rw [heq, redirects_alone heap hpre hne hflag hs]
    exact hwait

theorem parses_error (hws : dropWord (wordsOf line) ≠ [])
    (hredir : FirstRedirect (command (wordsOf line)) pre x t post) (hafter : after t post ≠ 1)
    (hamp : command (wordsOf line) = withoutAmp (wordsOf line) ∨ post ≠ [] ∨ pre = [] ∧ x = []) :
    Parses line := by
  have hnonempty := withoutAmp_ne_nil fun w (hw : w ∈ wordsOf line) => wordsOf_ne_nil hw
  obtain ⟨t', post', hredir', hsame, -⟩ := firstRedirect_withoutAmp hws hredir
  rw [hredir'.eq] at hnonempty
  have hsymbols := flatMap_symbols_redirect (fun w hw => hnonempty w (List.mem_append_left _ hw)) hredir'
  have hno : ∀ ws file, ¬Accepts (lineSymbols line) ws file := by
    intro ws file hacc
    rw [lineSymbols, hsymbols] at hacc
    obtain ⟨hne, hwords, name, -, hname⟩ := accepts_redirect hacc
    have hafter' : after t' post' = 1 := by
      refine after_of_length (fun w hw => hnonempty w ?_) (by rw [hname]; rfl)
      exact List.mem_append_right _ (List.mem_cons_of_mem _ hw)
    rcases hamp with hamp | hpost | ⟨rfl, rfl⟩
    · exact hafter ((hsame (Or.inl hamp)).symm.trans hafter')
    · exact hafter ((hsame (Or.inr hpost)).symm.trans hafter')
    · exact hne (List.map_eq_nil_iff.mp hwords.symm)
  refine ⟨fun heap ws file hacc => absurd hacc (hno ws file), fun heap _ => ?_, fun heap => ?_⟩
  all_goals
    obtain ⟨s, p, extra, heq, hs, hwait, hflag⟩ := parseArgv_command heap hws
    rw [hredir.eq] at hs
    obtain ⟨s', hrej, hwait', -⟩ := redirects_rejected heap hredir.pre hredir.word hflag hs hafter
    rw [heq, hrej]
  exact hwait'.trans hwait

/--
**The parser.** `parseArgv` accepts a line as the language says, whatever is in the memory that
it gets, exactly if a word is left when a `&` is dropped, and then: no second `&` is dropped, and
there is no `>`, or one by itself with a command before it and one file name behind it; or not
exactly one piece follows the first `>`, which is an error, and this is not because the second
`&` was the file name.
-/
theorem parses_iff (line : Text) : Parses line ↔ dropWord (wordsOf line) ≠ [] ∧ Handled (wordsOf line) := by
  constructor
  · exact fun h => ⟨h.word_left, h.handled⟩
  · rintro ⟨hws, h⟩
    cases h with
    | plain hamp hall => exact parses_plain hws hamp hall
    | alone hamp pre name hne hcmd hpre hname => exact parses_alone hws hamp hne hcmd hpre hname
    | error pre x t post hredir hafter hamp => exact parses_error hws hredir hafter hamp

/-- `a>b`: the new string `a` is not terminated. -/
theorem middle_not_parsed : ¬Parses [97, 62, 98] := by
  intro h
  have hcmd : command (wordsOf [97, 62, 98]) = [] ++ [[97] ++ gt :: [98]] := by decide
  exact h.not_middle (by decide) (by decide) (by decide) (by decide) hcmd

end Cs537.Shell
