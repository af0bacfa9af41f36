import Cs537.Shell.Model
import Mathlib.Data.List.DropRight

/-!
# Do the two modes agree?

They should execute the same lines and report the same errors, up to leading spaces and
blank lines. They part in three ways.

* A last line without a newline is executed in interactive mode and reported as too long
  in batch mode, where "no newline in the buffer" is taken to mean that.
* `prompt` looks for `strlen(input) == MAX_SIZE`, but `fgets` stores at most
  `MAX_SIZE - 1` characters. A line that is too long is never noticed; its pieces are
  executed one after the other.
* `prompt` gives up the leading spaces of every line for good, and sooner or later a line
  does not fit.

Where none of this happens the modes agree, and do what they should.
-/

namespace Cs537.Shell

open Cs537.Lib

variable {ends : Text → Bool} {off : Nat} {text rest l last : Text} {ls : List Text}

/-! ## Lines -/

/-- The lines of a text, and what follows the last newline. -/
def lines : Text → List Text × Text
  | [] => ([], [])
  | c :: text =>
      if c = newline then ([] :: (lines text).1, (lines text).2)
      else
        match (lines text).1 with
        | [] => ([], c :: (lines text).2)
        | l :: ls => ((c :: l) :: ls, (lines text).2)

/-- The text with these lines. -/
def unlines (ls : List Text) (last : Text) : Text := ls.flatMap (· ++ [newline]) ++ last

theorem unlines_cons : unlines (l :: ls) last = l ++ newline :: unlines ls last := by
  simp [unlines]

theorem unlines_lines (text : Text) : unlines (lines text).1 (lines text).2 = text := by
  induction text with
  | nil => rfl
  | cons c text ih =>
      rw [lines]
      split
      · rename_i hc
        dsimp only
        rw [unlines_cons, ih, hc]
        rfl
      · cases hl : (lines text).1 with
        | nil =>
            rw [hl] at ih
            dsimp only
            exact congrArg (c :: ·) ih
        | cons l ls =>
            rw [hl, unlines_cons] at ih
            dsimp only
            rw [unlines_cons, List.cons_append, ih]

theorem newline_notMem_lines (text : Text) :
    (∀ l ∈ (lines text).1, newline ∉ l) ∧ newline ∉ (lines text).2 := by
  induction text with
  | nil => exact ⟨by simp [lines], by simp [lines]⟩
  | cons c text ih =>
      obtain ⟨hls, hlast⟩ := ih
      rw [lines]
      split
      · refine ⟨fun l hl => ?_, hlast⟩
        rcases List.mem_cons.mp hl with rfl | hl
        · exact List.not_mem_nil
        · exact hls l hl
      · rename_i hc
        -- the character goes to the front of the line that follows
        cases hl : (lines text).1 with
        | nil =>
            refine ⟨fun l hl => absurd hl List.not_mem_nil, ?_⟩
            exact List.not_mem_cons_of_ne_of_not_mem (Ne.symm hc) hlast
        | cons l ls =>
            rw [hl] at hls
            refine ⟨fun l' hl' => ?_, hlast⟩
            rcases List.mem_cons.mp hl' with rfl | hl'
            · exact List.not_mem_cons_of_ne_of_not_mem (Ne.symm hc)
                (hls l (List.mem_cons_self ..))
            · exact hls l' (List.mem_cons_of_mem _ hl')

/-! ## What should happen -/

/-- A line, executed if it is not too long, with leading spaces removed and blank lines skipped. -/
def spec (ends : Text → Bool) : List Text → List Event
  | [] => []
  | l :: ls =>
      if 512 < l.length then .error :: spec ends ls
      else if strip l = [] then spec ends ls
      else .execute (strip l) :: if quits ends l then [] else spec ends ls

/-- The lines to execute: a last one without a newline counts. -/
def allLines (text : Text) : List Text :=
  (lines text).1 ++ if (lines text).2 = [] then [] else [(lines text).2]

/-- What is compared of an event. -/
def Event.shown : Event → Option Event
  | .execute cmd => if strip cmd = [] then none else some (.execute (strip cmd))
  | e => some e

/-- The events up to leading spaces and blank lines. -/
def observed (es : List Event) : List Event := es.filterMap Event.shown

/-- Both modes do what they should. -/
def Agree (ends : Text → Bool) (text : Text) : Prop :=
  observed (interactive ends 0 text) = observed (batch ends text)
    ∧ observed (batch ends text) = spec ends (allLines text)

/-- The spaces that `prompt` skips. -/
def lead (l : Text) : Nat := l.length - (strip l).length

/--
As long as the shell runs, every line ends in a newline, and is no longer than 512
characters together with the leading spaces of the lines before it.
-/
def Fits (ends : Text → Bool) : Nat → List Text → Text → Prop
  | _, [], last => last = []
  | off, l :: ls, last =>
      off + l.length ≤ 512 ∧ (quits ends l = false → Fits ends (off + lead l) ls last)

def Fits.dec (ends : Text → Bool) : ∀ (off : Nat) (ls : List Text) (last : Text),
    Decidable (Fits ends off ls last)
  | _, [], last => inferInstanceAs (Decidable (last = []))
  | off, l :: ls, last =>
      have := Fits.dec ends (off + lead l) ls last
      inferInstanceAs (Decidable (off + l.length ≤ 512
        ∧ (quits ends l = false → Fits ends (off + lead l) ls last)))

instance : Decidable (Fits ends off ls last) := Fits.dec ends off ls last

theorem observed_cons (e : Event) (es : List Event) : observed (e :: es) = e.shown.toList ++ observed es := by
  unfold observed
  cases h : e.shown with
  | none => rw [List.filterMap_cons_none h]; rfl
  | some x => rw [List.filterMap_cons_some h]; rfl

theorem strip_strip (cmd : Text) : strip (strip cmd) = strip cmd :=
  List.dropWhile_idempotent ..

theorem shown_strip (cmd : Text) : (Event.execute (strip cmd)).shown = (Event.execute cmd).shown := by
  rw [Event.shown, Event.shown, strip_strip]

/-- What must show shows. -/
theorem mem_observed {e : Event} {es : List Event} (he : ∀ cmd, e ≠ .execute cmd) :
    e ∈ observed es ↔ e ∈ es := by
  rw [observed, List.mem_filterMap]
  constructor
  · rintro ⟨x, hx, hshow⟩
    cases x with
    | execute cmd =>
        rw [Event.shown] at hshow
        split at hshow
        · cases hshow
        · exact absurd (Option.some.inj hshow).symm (he _)
    | error => cases hshow; exact hx
    | overrun => cases hshow; exact hx
  · intro hmem
    refine ⟨e, hmem, ?_⟩
    cases e with
    | execute cmd => exact absurd rfl (he cmd)
    | error => rfl
    | overrun => rfl

/-! ## `fgets` and a line -/

theorem readLine_short {n : Nat} (hl : newline ∉ l) (hn : l.length < n) :
    readLine n (l ++ newline :: rest) = (l ++ [newline], rest) := by
  induction l generalizing n with
  | nil =>
      cases n with
      | zero => cases hn
      | succ n =>
          rw [List.nil_append, readLine, if_pos rfl]
          rfl
  | cons c l ih =>
      cases n with
      | zero => cases hn
      | succ n =>
          rw [List.cons_append, readLine, if_neg (List.ne_of_not_mem_cons hl).symm,
            ih (List.not_mem_of_not_mem_cons hl) (Nat.lt_of_succ_lt_succ hn)]
          rfl

/-- Without a newline in reach, `n` characters are read. -/
theorem readLine_long {n : Nat} (hl : newline ∉ l) (hr : rest = [] ∨ n ≤ l.length) :
    readLine n (l ++ rest) = (l.take n, l.drop n ++ rest) := by
  induction l generalizing n with
  | nil =>
      cases n with
      | zero => rw [readLine]; rfl
      | succ n =>
          rcases hr with rfl | hr
          · rfl
          · cases hr
  | cons c l ih =>
      cases n with
      | zero => rw [readLine]; rfl
      | succ n =>
          rw [List.cons_append, readLine, if_neg (List.ne_of_not_mem_cons hl).symm,
            ih (List.not_mem_of_not_mem_cons hl) (hr.imp_right Nat.le_of_succ_le_succ)]
          rfl

theorem fgets_short (hl : newline ∉ l) (hn : l.length ≤ 512) :
    fgets maxSize (l ++ newline :: rest) = some (l ++ [newline], rest) := by
  have hread := @readLine_short rest l 513 hl (by omega)
  cases l with
  | nil => exact congrArg some hread
  | cons c l => exact congrArg some hread

theorem fgets_long (hl : newline ∉ l) (hne : l ≠ []) (hn : rest = [] ∨ 512 < l.length) :
    fgets maxSize (l ++ rest) = some (l.take 513, l.drop 513 ++ rest) := by
  have hread := @readLine_long rest l 513 hl hn
  cases l with
  | nil => exact absurd rfl hne
  | cons c l => exact congrArg some hread

/-! ## One line of batch mode -/

theorem batch_nil : batch ends [] = [] := by
  rw [batch]
  rfl

theorem batch_short (hz : (0 : UInt8) ∉ l) (hl : newline ∉ l) (hn : l.length ≤ 512) :
    batch ends (l ++ newline :: rest)
      = .execute l :: if quits ends l then [] else batch ends rest := by
  have hcstr : cstr (l ++ [newline]) = l ++ [newline] := cstr_eq (by simp [hz, newline])
  rw [batch]
  split
  · rename_i h
    rw [fgets_short hl hn] at h
    cases h
  · rename_i line rest' h
    rw [fgets_short hl hn] at h
    cases h
    simp only [hcstr, List.mem_append, List.mem_singleton, or_true, not_true_eq_false, if_false,
      List.getLast?_concat, if_true, List.dropLast_concat]

/-- A line that is too long, or that does not end. -/
theorem batch_error (hz : (0 : UInt8) ∉ l) (hl : newline ∉ l) (hne : l ≠ [])
    (hn : rest = [] ∨ 512 < l.length) :
    batch ends (l ++ rest) = .error :: batch ends (skipLine (l.drop 513 ++ rest)) := by
  have hcstr : cstr (l.take 513) = l.take 513 := cstr_eq fun h => hz (List.mem_of_mem_take h)
  have hno : newline ∉ l.take 513 := fun h => hl (List.mem_of_mem_take h)
  rw [batch]
  split
  · rename_i h
    rw [fgets_long hl hne hn] at h
    cases h
  · rename_i line rest' h
    rw [fgets_long hl hne hn] at h
    cases h
    simp only [hcstr, hno, not_false_eq_true, if_true]

/-- Batch mode does not overrun its buffer. -/
theorem overrun_notMem_batch (ends : Text → Bool) (text : Text) : Event.overrun ∉ batch ends text := by
  fun_induction batch ends text with
  | case1 => exact List.not_mem_nil
  | case2 text line rest h h' input hno _ ih =>
      intro hmem
      rcases List.mem_cons.mp hmem with heq | hmem
      · cases heq
      · exact ih hmem
  | case3 text line rest h h' input hin cmd ih =>
      intro hmem
      rcases List.mem_cons.mp hmem with heq | hmem
      · cases heq
      · split at hmem
        · exact absurd hmem List.not_mem_nil
        · exact ih hmem

/-! ## One line of interactive mode -/

theorem interactive_nil : interactive ends off [] = [] := by
  rw [interactive]
  rfl

/-- A line that fits is executed, and `input` moves past its leading spaces. -/
theorem interactive_short (hz : (0 : UInt8) ∉ l) (hl : newline ∉ l) (hfit : off + l.length ≤ 512) :
    observed (interactive ends off (l ++ newline :: rest))
      = (Event.execute l).shown.toList ++
        if quits ends l then [] else observed (interactive ends (off + lead l) rest) := by
  have hcstr : cstr (l ++ [newline]) = l ++ [newline] := cstr_eq (by simp [hz, newline])
  have hroom : ¬maxSize < off + (l ++ [newline]).length + 1 := by
    rw [List.length_append, maxSize]
    show ¬514 < off + (l.length + 1) + 1
    omega
  rw [interactive]
  split
  · rename_i h
    rw [fgets_short hl (by omega)] at h
    cases h
  · rename_i line rest' h
    rw [fgets_short hl (by omega)] at h
    cases h
    dsimp only
    rw [if_neg hroom, hcstr, if_neg (by simp), (takeWhile_sep hl (Or.inr ⟨[], rfl⟩)).1]
    by_cases hblank : lead l ≠ 0 ∧ strip l = []
    · -- `prompt` returns NULL; such a line shows nothing and ends nothing
      have hq : quits ends l = false := by rw [quits, hblank.2]; rfl
      rw [← lead, if_pos hblank, hq, Event.shown, if_pos hblank.2]
      rfl
    · rw [← lead, if_neg hblank, observed_cons, shown_strip]
      cases quits ends l with
      | true => rfl
      | false => rfl

/-- A line that does not fit ends all meaning. -/
theorem interactive_overrun (hl : newline ∉ l) (hn : l.length ≤ 512) (hfit : 512 < off + l.length) :
    interactive ends off (l ++ newline :: rest) = [.overrun] := by
  have hroom : maxSize < off + (l ++ [newline]).length + 1 := by
    rw [List.length_append, maxSize]
    show 514 < off + (l.length + 1) + 1
    omega
  rw [interactive]
  split
  · rename_i h
    rw [fgets_short hl hn] at h
    cases h
  · rename_i line rest' h
    rw [fgets_short hl hn] at h
    cases h
    rw [if_pos hroom]

theorem length_readLine_line (n : Nat) (text : Text) : (readLine n text).1.length ≤ n := by
  induction n generalizing text with
  | zero => exact Nat.le_refl _
  | succ n ih =>
      cases text with
      | nil => exact Nat.zero_le _
      | cons c text =>
          rw [readLine]
          split
          · exact Nat.succ_le_succ (Nat.zero_le n)
          · exact Nat.succ_le_succ (ih text)

/-- `strlen(input)` is never `MAX_SIZE`. -/
theorem length_cstr_fgets {line : Text} (h : fgets maxSize text = some (line, rest)) :
    (cstr line).length < maxSize := by
  have hline : line.length ≤ 513 := by
    cases text with
    | nil => cases h
    | cons c text =>
        have heq : readLine 513 (c :: text) = (line, rest) := Option.some.inj h
        have hlen := length_readLine_line 513 (c :: text)
        rw [heq] at hlen
        exact hlen
  have hle : (cstr line).length ≤ line.length := (List.takeWhile_prefix _).length_le
  rw [maxSize]
  omega

/-- So interactive mode reports no line as too long. -/
theorem error_notMem_interactive (ends : Text → Bool) (off : Nat) (text : Text) :
    Event.error ∉ interactive ends off text := by
  fun_induction interactive ends off text with
  | case1 => exact List.not_mem_nil
  | case2 => simp
  | case3 off text line rest h h' hroom input hlong =>
      have hlt := length_cstr_fgets h
      exact absurd hlong.1 (Nat.ne_of_lt hlt)
  | case4 off text line rest h h' hroom input hlong cmd lead hblank ih => exact ih
  | case5 off text line rest h h' hroom input hlong cmd lead hblank ih =>
      intro hmem
      rcases List.mem_cons.mp hmem with heq | hmem
      · cases heq
      · split at hmem
        · exact absurd hmem List.not_mem_nil
        · exact ih hmem

/-! ## When they agree -/

theorem spec_short (hn : l.length ≤ 512) :
    spec ends (l :: ls)
      = (Event.execute l).shown.toList ++ if quits ends l then [] else spec ends ls := by
  rw [spec, if_neg (Nat.not_lt.mpr hn), Event.shown]
  by_cases hblank : strip l = []
  · have hq : quits ends l = false := by rw [quits, hblank]; rfl
    rw [if_pos hblank, if_pos hblank, hq]
    rfl
  · rw [if_neg hblank, if_neg hblank]
    rfl

theorem zero_notMem_unlines (hz : (0 : UInt8) ∉ l ++ newline :: unlines ls last) :
    (0 : UInt8) ∉ l ∧ (0 : UInt8) ∉ unlines ls last :=
  ⟨fun h => hz (List.mem_append_left _ h),
    fun h => hz (List.mem_append_right _ (List.mem_cons_of_mem _ h))⟩

/-- Where every line fits, both modes do what they should. Lines that follow an `exit` do not count. -/
theorem fits_spec {tail : List Text} (htail : last = [] → tail = []) (hnl : ∀ l ∈ ls, newline ∉ l)
    (hz : (0 : UInt8) ∉ unlines ls last) (hfit : Fits ends off ls last) :
    observed (interactive ends off (unlines ls last)) = spec ends (ls ++ tail)
      ∧ observed (batch ends (unlines ls last)) = spec ends (ls ++ tail) := by
  induction ls generalizing off with
  | nil =>
      have hlast : last = [] := hfit
      rw [htail hlast, hlast]
      show observed (interactive ends off []) = [] ∧ observed (batch ends []) = []
      rw [interactive_nil, batch_nil]
      exact ⟨rfl, rfl⟩
  | cons l ls ih =>
      obtain ⟨hroom, hrest⟩ := hfit
      have hl : newline ∉ l := hnl l (List.mem_cons_self ..)
      rw [unlines_cons] at hz ⊢
      obtain ⟨hzl, hzs⟩ := zero_notMem_unlines hz
      rw [interactive_short hzl hl hroom, batch_short hzl hl (by omega), observed_cons,
        List.cons_append, spec_short (by omega)]
      cases hq : quits ends l with
      | true => exact ⟨rfl, rfl⟩
      | false =>
          obtain ⟨hi, hb⟩ := ih (fun l' h => hnl l' (List.mem_cons_of_mem _ h)) hzs (hrest hq)
          exact ⟨congrArg _ hi, congrArg _ hb⟩

/-- An error that only batch mode reports. -/
theorem observed_ne_of_error (h : Event.error ∈ batch ends text) :
    observed (interactive ends off text) ≠ observed (batch ends text) := by
  intro heq
  have hmem := (mem_observed (by simp)).mpr h
  rw [← heq, mem_observed (by simp)] at hmem
  exact error_notMem_interactive ends off text hmem

/-- Where the modes show the same, every line fits. -/
theorem fits_of_observed (hnl : ∀ l ∈ ls, newline ∉ l) (hlast : newline ∉ last)
    (hz : (0 : UInt8) ∉ unlines ls last)
    (heq : observed (interactive ends off (unlines ls last)) = observed (batch ends (unlines ls last))) :
    Fits ends off ls last := by
  induction ls generalizing off with
  | nil =>
      by_contra hne
      refine observed_ne_of_error ?_ heq
      have herr := @batch_error ends [] last hz hlast hne (Or.inl rfl)
      rw [List.append_nil] at herr
      show Event.error ∈ batch ends last
      rw [herr]
      exact List.mem_cons_self ..
  | cons l ls ih =>
      have hl : newline ∉ l := hnl l (List.mem_cons_self ..)
      rw [unlines_cons] at hz heq
      obtain ⟨hzl, hzs⟩ := zero_notMem_unlines hz
      -- a line that is too long is an error in batch mode only
      have hshort : l.length ≤ 512 := by
        by_contra hlong
        rw [Nat.not_le] at hlong
        refine observed_ne_of_error ?_ heq
        rw [batch_error hzl hl (by rintro rfl; cases hlong) (Or.inr hlong)]
        exact List.mem_cons_self ..
      -- and one that does not fit overruns the buffer in interactive mode only
      have hroom : off + l.length ≤ 512 := by
        by_contra hover
        rw [Nat.not_le] at hover
        refine overrun_notMem_batch ends (l ++ newline :: unlines ls last) ?_
        rw [← mem_observed (by simp), ← heq, interactive_overrun hl hshort hover]
        exact List.mem_cons_self ..
      refine ⟨hroom, fun hq => ?_⟩
      rw [interactive_short hzl hl hroom, batch_short hzl hl hshort, observed_cons, hq] at heq
      exact ih (fun l' h => hnl l' (List.mem_cons_of_mem _ h)) hzs (List.append_cancel_left heq)

end Cs537.Shell
