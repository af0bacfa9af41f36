import Mathlib.Data.List.TakeWhile
import Mathlib.Data.Nat.Digits.Lemmas

/-!
# C strings: numbers and tokens

What `printf`, `atoi` and `strtok` do with a string, over its bytes without the NUL at its
end. `%d` and `atoi` are inverse to each other; `strtok` finds the pieces that were joined
with a separator, provided that none of them is empty or holds one itself.
-/

namespace Cs537.Lib

variable {sep : UInt8} {s tok rest : List UInt8}

/-- What comes before a separator, and what comes from it on. -/
theorem takeWhile_sep (h : sep ∉ tok) (hrest : rest = [] ∨ ∃ r, rest = sep :: r) :
    (tok ++ rest).takeWhile (· ≠ sep) = tok ∧ (tok ++ rest).dropWhile (· ≠ sep) = rest := by
  have hall : ∀ c ∈ tok, decide (c ≠ sep) = true := by
    intro c hc
    rw [decide_eq_true_eq]
    exact fun heq => h (heq ▸ hc)
  rw [List.takeWhile_append_of_pos hall, List.dropWhile_append_of_pos hall]
  rcases hrest with rfl | ⟨r, rfl⟩
  · exact ⟨List.append_nil _, rfl⟩
  · rw [List.takeWhile_cons_of_neg (by simp), List.dropWhile_cons_of_neg (by simp)]
    exact ⟨List.append_nil _, rfl⟩

/-- The string that a buffer holds: up to the first NUL. -/
def cstr (buf : List UInt8) : List UInt8 := buf.takeWhile (· ≠ 0)

theorem cstr_append (h : (0 : UInt8) ∉ s) : cstr (s ++ 0 :: rest) = s :=
  (takeWhile_sep h (Or.inr ⟨rest, rfl⟩)).1

theorem cstr_eq (h : (0 : UInt8) ∉ s) : cstr s = s := by
  have hnil := (takeWhile_sep h (Or.inl rfl)).1
  rwa [List.append_nil] at hnil

/-- Writing a NUL behind a string leaves the string that it was. -/
theorem cstr_append_zero (s rest : List UInt8) : cstr (s ++ 0 :: rest) = cstr s := by
  induction s with
  | nil => rfl
  | cons c s ih =>
      by_cases hc : c = 0
      · subst hc
        rfl
      · rw [cstr, cstr, List.cons_append, List.takeWhile_cons_of_pos (by simpa using hc),
          List.takeWhile_cons_of_pos (by simpa using hc)]
        exact congrArg (List.cons c) ih

theorem zero_notMem_cstr (buf : List UInt8) : (0 : UInt8) ∉ cstr buf := fun hmem => by
  simpa using List.mem_takeWhile_imp hmem

theorem length_cstr_le (buf : List UInt8) : (cstr buf).length ≤ buf.length :=
  (List.takeWhile_prefix _).length_le

/-- `snprintf(buf, n, "%s", text)`. -/
def snprintf (buf : List UInt8) (n : Nat) (text : List UInt8) : List UInt8 :=
  text.take (n - 1) ++ 0 :: buf.drop ((text.take (n - 1)).length + 1)

theorem length_snprintf {buf : List UInt8} {n : Nat} (hn : 0 < n) (hbuf : buf.length = n) :
    (snprintf buf n s).length = n := by
  rw [snprintf, List.length_append, List.length_cons, List.length_drop, List.length_take]
  omega

theorem cstr_snprintf {buf : List UInt8} {n : Nat} (h : (0 : UInt8) ∉ s) (hn : s.length < n) :
    cstr (snprintf buf n s) = s := by
  rw [snprintf, List.take_of_length_le (by omega), cstr_append h]

/-! ## Decimal numbers -/

/-- The digit `d`. -/
def digit (d : Nat) : UInt8 := UInt8.ofNat (48 + d)

/-- A number without a sign. -/
def decimal (n : Nat) : List UInt8 :=
  if n = 0 then [48] else ((Nat.digits 10 n).map digit).reverse

/-- `%d`. -/
def printInt (x : Int32) : List UInt8 :=
  if x.toInt < 0 then 45 :: decimal x.toInt.natAbs else decimal x.toInt.natAbs

def isDigit (c : UInt8) : Bool := 48 ≤ c && c ≤ 57

/-- `isspace` of the C locale. -/
def isSpace (c : UInt8) : Bool := c = 32 || 9 ≤ c && c ≤ 13

/-- The number that a string starts with. -/
def number (s : List UInt8) : Nat :=
  (s.takeWhile isDigit).foldl (fun n c => 10 * n + (c.toNat - 48)) 0

/-- `atoi`. What does not fit into an `int` is undefined in C; here it wraps. -/
def atoi (s : List UInt8) : Int32 :=
  match s.dropWhile isSpace with
  | [] => 0
  | c :: s =>
      if c = 45 then Int32.ofInt (-number s)
      else if c = 43 then Int32.ofInt (number s)
      else Int32.ofInt (number (c :: s))

theorem toNat_digit {d : Nat} (h : d < 10) : (digit d).toNat = 48 + d := by
  rw [digit, UInt8.toNat_ofNat']
  omega

theorem isDigit_iff {c : UInt8} : isDigit c = true ↔ 48 ≤ c.toNat ∧ c.toNat ≤ 57 := by
  rw [isDigit, Bool.and_eq_true, decide_eq_true_eq, decide_eq_true_eq]
  exact Iff.rfl

theorem isDigit_decimal {n : Nat} {c : UInt8} (h : c ∈ decimal n) : isDigit c = true := by
  rw [decimal] at h
  split at h
  · rw [List.mem_singleton] at h
    rw [h]
    rfl
  · obtain ⟨d, hd, rfl⟩ := List.mem_map.mp (List.mem_reverse.mp h)
    have hlt := Nat.digits_lt_base (by decide) hd
    rw [isDigit_iff, toNat_digit hlt]
    omega

theorem decimal_ne_nil (n : Nat) : decimal n ≠ [] := by
  rw [decimal]
  split
  · exact List.cons_ne_nil _ _
  · rename_i hn
    rw [ne_eq, List.reverse_eq_nil_iff, List.map_eq_nil_iff]
    exact Nat.digits_ne_nil_iff_ne_zero.mpr hn

theorem length_decimal {n k : Nat} (hk : 0 < k) (h : n < 10 ^ k) : (decimal n).length ≤ k := by
  rw [decimal]
  split
  · exact hk
  · rw [List.length_reverse, List.length_map]
    exact (Nat.digits_length_le_iff (by decide) n).mpr h

theorem number_decimal (n : Nat) : number (decimal n) = n := by
  have hall : (decimal n).takeWhile isDigit = decimal n :=
    List.takeWhile_eq_self_iff.mpr fun c hc => isDigit_decimal hc
  rw [number, hall, decimal]
  split
  · rename_i hn
    rw [hn]
    rfl
  · rw [List.foldl_reverse, List.foldr_map]
    have hfold : ∀ ds : List Nat, (∀ d ∈ ds, d < 10) →
        ds.foldr (fun d n => 10 * n + ((digit d).toNat - 48)) 0 = Nat.ofDigits 10 ds := by
      intro ds hds
      induction ds with
      | nil => rfl
      | cons d ds ih =>
          have hd := hds d (List.mem_cons_self ..)
          rw [List.foldr_cons, Nat.ofDigits_cons, ih fun d' h => hds d' (List.mem_cons_of_mem _ h),
            toNat_digit hd, Nat.add_sub_cancel_left, Nat.add_comm]
    rw [hfold _ fun d hd => Nat.digits_lt_base (by decide) hd, Nat.ofDigits_digits]

/-- A number starts with a digit: with no space, and no sign. -/
theorem atoi_decimal (n : Nat) : atoi (decimal n) = Int32.ofInt n := by
  cases hs : decimal n with
  | nil => exact absurd hs (decimal_ne_nil n)
  | cons c s =>
      have hc := isDigit_iff.mp (@isDigit_decimal n c (by rw [hs]; exact List.mem_cons_self ..))
      have hspace : isSpace c = false := by
        rw [isSpace, Bool.or_eq_false_iff, Bool.and_eq_false_iff, decide_eq_false_iff_not,
          decide_eq_false_iff_not, decide_eq_false_iff_not]
        refine ⟨?_, Or.inr ?_⟩
        · rintro rfl
          exact absurd hc.1 (by decide)
        · rw [UInt8.le_iff_toNat_le]
          show ¬c.toNat ≤ 13
          omega
      have hminus : c ≠ 45 := by
        rintro rfl
        exact absurd hc.1 (by decide)
      have hplus : c ≠ 43 := by
        rintro rfl
        exact absurd hc.1 (by decide)
      rw [atoi, List.dropWhile_cons_of_neg (by rw [hspace]; exact Bool.false_ne_true)]
      dsimp only
      rw [if_neg hminus, if_neg hplus, ← hs, number_decimal]

theorem atoi_printInt (x : Int32) : atoi (printInt x) = x := by
  rw [printInt]
  split
  · rename_i hneg
    have hminus : atoi (45 :: decimal x.toInt.natAbs)
        = Int32.ofInt (-number (decimal x.toInt.natAbs)) := rfl
    rw [hminus, number_decimal, Int.ofNat_natAbs_of_nonpos (by omega), Int.neg_neg, Int32.ofInt_toInt]
  · rw [atoi_decimal, Int.natAbs_of_nonneg (by omega), Int32.ofInt_toInt]

theorem printInt_ne_nil (x : Int32) : printInt x ≠ [] := by
  rw [printInt]
  split
  · exact List.cons_ne_nil _ _
  · exact decimal_ne_nil _

theorem mem_printInt {x : Int32} {c : UInt8} (h : c ∈ printInt x) : c = 45 ∨ isDigit c = true := by
  rw [printInt] at h
  split at h
  · rcases List.mem_cons.mp h with h | h
    · exact Or.inl h
    · exact Or.inr (isDigit_decimal h)
  · exact Or.inr (isDigit_decimal h)

theorem length_printInt (x : Int32) : (printInt x).length ≤ 11 := by
  have hlow := x.minValue_le_toInt
  have hhigh := x.toInt_le
  have hlen : (decimal x.toInt.natAbs).length ≤ 10 := by
    refine length_decimal (by decide) ?_
    have hmin : Int32.minValue.toInt = -2 ^ 31 := by decide
    have hmax : Int32.maxValue.toInt = 2 ^ 31 - 1 := by decide
    omega
  rw [printInt]
  split
  · rw [List.length_cons]
    omega
  · omega

/-! ## Tokens -/

/-- `strtok` with one separator: the next token, `none` for NULL, and the string it goes on with. -/
def strtok (sep : UInt8) (s : List UInt8) : Option (List UInt8) × List UInt8 :=
  match s.dropWhile (· = sep) with
  | [] => (none, [])
  | c :: s => (some ((c :: s).takeWhile (· ≠ sep)), ((c :: s).dropWhile (· ≠ sep)).tail)

/-- A token that is there is found. -/
theorem strtok_append (hne : tok ≠ []) (h : sep ∉ tok) (hrest : rest = [] ∨ ∃ r, rest = sep :: r) :
    strtok sep (tok ++ rest) = (some tok, rest.tail) := by
  obtain ⟨htake, hdrop⟩ := takeWhile_sep h hrest
  cases tok with
  | nil => exact absurd rfl hne
  | cons c tok =>
      have hc : c ≠ sep := fun heq => h (by rw [heq]; exact List.mem_cons_self ..)
      rw [List.cons_append] at htake hdrop ⊢
      rw [strtok, List.dropWhile_cons_of_neg (by simpa using hc)]
      dsimp only
      rw [htake, hdrop]

/-- A token is not empty and holds no separator. -/
theorem strtok_some (h : (strtok sep s).1 = some tok) : tok ≠ [] ∧ sep ∉ tok := by
  rw [strtok] at h
  split at h
  · cases h
  · rename_i c s' hs
    have hc : c ≠ sep := by
      have hhead := List.head?_dropWhile_not (· = sep) s
      rw [hs] at hhead
      simpa using hhead
    dsimp only at h
    rw [← Option.some.inj h]
    refine ⟨?_, fun hmem => ?_⟩
    · rw [List.takeWhile_cons_of_pos (by simpa using hc)]
      exact List.cons_ne_nil _ _
    · simpa using List.mem_takeWhile_imp hmem

/-- A string is one token exactly if it is not empty and holds no separator. -/
theorem strtok_eq_self_iff : (strtok sep s).1 = some s ↔ s ≠ [] ∧ sep ∉ s := by
  constructor
  · exact strtok_some
  · intro ⟨hne, hsep⟩
    have happ := @strtok_append sep s [] hne hsep (Or.inl rfl)
    rw [List.append_nil] at happ
    rw [happ]

theorem strtok_cons_sep (sep : UInt8) (s : List UInt8) : strtok sep (sep :: s) = strtok sep s := by
  rw [strtok, strtok, List.dropWhile_cons_of_pos (by simp)]

/-- Either there is no token, or separators, a token, and then the end or a separator. -/
theorem strtok_cases (sep : UInt8) (s : List UInt8) :
    (strtok sep s = (none, []) ∧ ∀ c ∈ s, c = sep)
      ∨ ∃ n tok rest, s = List.replicate n sep ++ (tok ++ rest) ∧ tok ≠ [] ∧ sep ∉ tok
        ∧ (rest = [] ∨ ∃ r, rest = sep :: r) ∧ strtok sep s = (some tok, rest.tail) := by
  induction s with
  | nil => exact Or.inl ⟨rfl, fun c hc => absurd hc List.not_mem_nil⟩
  | cons c s ih =>
      by_cases hc : c = sep
      · subst hc
        rw [strtok_cons_sep]
        rcases ih with ⟨h, hall⟩ | ⟨n, tok, rest, rfl, h⟩
        · refine Or.inl ⟨h, fun d hd => ?_⟩
          rcases List.mem_cons.mp hd with rfl | hd
          · rfl
          · exact hall d hd
        · exact Or.inr ⟨n + 1, tok, rest, rfl, h⟩
      · refine Or.inr ⟨0, (c :: s).takeWhile (· ≠ sep), (c :: s).dropWhile (· ≠ sep), ?_, ?_, ?_, ?_, ?_⟩
        · exact (List.takeWhile_append_dropWhile ..).symm
        · rw [List.takeWhile_cons_of_pos (by simpa using hc)]
          exact List.cons_ne_nil _ _
        · exact fun hmem => by simpa using List.mem_takeWhile_imp hmem
        · cases hd : (c :: s).dropWhile (· ≠ sep) with
          | nil => exact Or.inl rfl
          | cons d r =>
              have hhead := List.head?_dropWhile_not (· ≠ sep) (c :: s)
              rw [hd] at hhead
              exact Or.inr ⟨r, by rw [show d = sep by simpa using hhead]⟩
        · rw [strtok, List.dropWhile_cons_of_neg (by simpa using hc)]

theorem length_strtok (h : strtok sep s = (some tok, rest)) : rest.length < s.length := by
  rcases strtok_cases sep s with ⟨h', -⟩ | ⟨n, tok', rest', rfl, hne, -, -, h'⟩
  · rw [h] at h'
    cases h'
  · rw [h] at h'
    cases h'
    have hpos := List.length_pos_iff.mpr hne
    rw [List.length_append, List.length_append, List.length_tail]
    omega

/-- The tokens that `strtok` finds, one after the other. -/
def tokens (sep : UInt8) (s : List UInt8) : List (List UInt8) :=
  match h : strtok sep s with
  | (none, _) => []
  | (some tok, rest) =>
      have := length_strtok h
      tok :: tokens sep rest
termination_by s.length

theorem tokens_none (h : ∀ c ∈ s, c = sep) : tokens sep s = [] := by
  rw [tokens]
  split
  · rfl
  · rename_i tok rest htok
    rcases strtok_cases sep s with ⟨h', -⟩ | ⟨n, tok', rest', hs, hne, hsep, -⟩
    · rw [htok] at h'
      cases h'
    · obtain ⟨c, hc⟩ := List.exists_mem_of_ne_nil _ hne
      have hcs : c ∈ s := by
        rw [hs]
        exact List.mem_append_right _ (List.mem_append_left _ hc)
      exact absurd (h c hcs ▸ hc) hsep

theorem tokens_append {n : Nat} (hne : tok ≠ []) (h : sep ∉ tok) (hrest : rest = [] ∨ ∃ r, rest = sep :: r) :
    tokens sep (List.replicate n sep ++ (tok ++ rest)) = tok :: tokens sep rest.tail := by
  have htok : strtok sep (List.replicate n sep ++ (tok ++ rest)) = (some tok, rest.tail) := by
    induction n with
    | zero => exact strtok_append hne h hrest
    | succ n ih => exact (strtok_cons_sep sep _).trans ih
  rw [tokens]
  split
  · rename_i h'
    rw [htok] at h'
    cases h'
  · rename_i h'
    rw [htok] at h'
    cases h'
    rfl

/-- The next token is the first one of those that are left. -/
theorem strtok_tokens (sep : UInt8) (s : List UInt8) :
    (strtok sep s = (none, []) ∧ tokens sep s = [])
      ∨ ∃ tok rest, strtok sep s = (some tok, rest) ∧ tokens sep s = tok :: tokens sep rest := by
  rcases strtok_cases sep s with ⟨h, hall⟩ | ⟨n, tok, rest, rfl, hne, hsep, hrest, h⟩
  · exact Or.inl ⟨h, tokens_none hall⟩
  · exact Or.inr ⟨tok, rest.tail, h, tokens_append hne hsep hrest⟩

/-- A longer string has no fewer tokens. -/
theorem length_tokens_append (sep : UInt8) (s t : List UInt8) :
    (tokens sep s).length ≤ (tokens sep (s ++ t)).length := by
  induction hn : s.length using Nat.strong_induction_on generalizing s with
  | _ n ih =>
      rcases strtok_cases sep s with ⟨-, hall⟩ | ⟨m, tok, rest, rfl, hne, hsep, hrest, -⟩
      · rw [tokens_none hall]
        exact Nat.zero_le _
      · rw [tokens_append hne hsep hrest]
        rcases hrest with rfl | ⟨r, rfl⟩
        · -- the last token may have become longer
          obtain ⟨m', tok', rest', hs, hne', hsep', hrest', -⟩ :=
            (strtok_cases sep (List.replicate m sep ++ (tok ++ []) ++ t)).resolve_left fun h => by
              obtain ⟨c, hc⟩ := List.exists_mem_of_ne_nil _ hne
              have hmem : c ∈ List.replicate m sep ++ (tok ++ []) ++ t := by simp [hc]
              exact hsep (h.2 c hmem ▸ hc)
          rw [hs, tokens_append hne' hsep' hrest', List.tail_nil, tokens_none (fun c hc => absurd hc
            List.not_mem_nil)]
          simp
        · have happ : List.replicate m sep ++ (tok ++ sep :: r) ++ t
              = List.replicate m sep ++ (tok ++ sep :: (r ++ t)) := by simp
          rw [happ, tokens_append hne hsep (Or.inr ⟨_, rfl⟩), List.length_cons, List.length_cons,
            List.tail_cons, List.tail_cons]
          refine Nat.succ_le_succ (ih r.length ?_ r rfl)
          rw [← hn]
          simp
          omega

theorem mem_tokens (h : tok ∈ tokens sep s) : tok ≠ [] ∧ sep ∉ tok := by
  induction hn : s.length using Nat.strong_induction_on generalizing s with
  | _ n ih =>
      rcases strtok_cases sep s with ⟨-, hall⟩ | ⟨m, tok', rest, rfl, hne, hsep, hrest, -⟩
      · rw [tokens_none hall] at h
        exact absurd h List.not_mem_nil
      · rw [tokens_append hne hsep hrest] at h
        rcases List.mem_cons.mp h with rfl | h
        · exact ⟨hne, hsep⟩
        · have hpos := List.length_pos_iff.mpr hne
          refine ih rest.tail.length ?_ h rfl
          rw [← hn, List.length_append, List.length_append, List.length_tail]
          omega

theorem filter_splitOn_replicate (sep : UInt8) (n : Nat) (s : List UInt8) :
    ((List.replicate n sep ++ s).splitOn sep).filter (· ≠ []) = (s.splitOn sep).filter (· ≠ []) := by
  induction n with
  | zero => rfl
  | succ n ih =>
      rw [List.replicate_succ, List.cons_append, List.splitOn_cons_eq_if_modifyHead, if_pos (by simp)]
      exact ih

/-- The tokens are the maximal pieces without a separator. -/
theorem tokens_eq_splitOn (sep : UInt8) (s : List UInt8) : tokens sep s = (s.splitOn sep).filter (· ≠ []) := by
  induction hn : s.length using Nat.strong_induction_on generalizing s with
  | _ n ih =>
      rcases strtok_cases sep s with ⟨-, hall⟩ | ⟨m, tok, rest, rfl, hne, hsep, hrest, -⟩
      · have hs : s = List.replicate s.length sep ++ [] := by
          rw [List.append_nil]
          exact List.eq_replicate_iff.mpr ⟨rfl, hall⟩
        rw [tokens_none hall, hs, filter_splitOn_replicate]
        simp
      · rw [tokens_append hne hsep hrest, filter_splitOn_replicate]
        rcases hrest with rfl | ⟨r, rfl⟩
        · rw [List.append_nil, List.splitOn_eq_singleton hsep, List.tail_nil,
            tokens_none fun c hc => absurd hc List.not_mem_nil]
          simp [hne]
        · have hlen : r.length < n := by
            rw [← hn]
            simp
            omega
          rw [List.splitOn_append_cons_self_of_not_mem hsep, List.tail_cons, ih r.length hlen r rfl,
            List.filter_cons_of_pos (by simpa using hne)]

/-! ## Words -/

/-- `%s` of `sscanf`: white space is skipped, and what comes before the next is read. `none` at the end. -/
def scanWord (s : List UInt8) : Option (List UInt8 × List UInt8) :=
  match s.dropWhile isSpace with
  | [] => none
  | c :: s => some ((c :: s).takeWhile fun c => !isSpace c, (c :: s).dropWhile fun c => !isSpace c)

/-- The maximal pieces without white space. -/
def words (s : List UInt8) : List (List UInt8) := (s.splitOnP isSpace).filter (· ≠ [])

theorem words_cons_space {c : UInt8} (hc : isSpace c = true) (s : List UInt8) : words (c :: s) = words s := by
  rw [words, List.splitOnP_cons_eq_if_modifyHead, if_pos hc, List.filter_cons_of_neg (by simp)]
  rfl

theorem words_append {w : List UInt8} (hne : w ≠ []) (hw : ∀ c ∈ w, isSpace c = false)
    (hrest : rest = [] ∨ ∃ c r, rest = c :: r ∧ isSpace c = true) : words (w ++ rest) = w :: words rest := by
  rcases hrest with rfl | ⟨c, r, rfl, hc⟩
  · rw [List.append_nil, words, List.splitOnP_eq_singleton hw, List.filter_cons_of_pos (by simpa using hne)]
    rfl
  · rw [words, List.splitOnP_append_cons_of_forall_mem hw c hc, List.filter_cons_of_pos (by simpa using hne),
      words_cons_space hc]
    rfl

/-- Either there is no word left, or `sscanf` reads the next one, and goes on with what is behind it. -/
theorem scanWord_words (s : List UInt8) : (scanWord s = none ∧ words s = [])
    ∨ ∃ w rest, scanWord s = some (w, rest) ∧ words s = w :: words rest ∧ w ≠ []
      ∧ w ++ rest <:+ s ∧ (rest = [] ∨ ∃ c r, rest = c :: r ∧ isSpace c = true) := by
  induction s with
  | nil => exact Or.inl ⟨rfl, rfl⟩
  | cons c s ih =>
      by_cases hc : isSpace c = true
      · have hscan : scanWord (c :: s) = scanWord s := by
          rw [scanWord, scanWord, List.dropWhile_cons_of_pos hc]
        rw [hscan, words_cons_space hc]
        rcases ih with h | ⟨w, rest, h, hwords, hne, hsuffix, hrest⟩
        · exact Or.inl h
        · exact Or.inr ⟨w, rest, h, hwords, hne, hsuffix.trans (List.suffix_cons c s), hrest⟩
      · have hscan : scanWord (c :: s) = some ((c :: s).takeWhile fun c => !isSpace c,
            (c :: s).dropWhile fun c => !isSpace c) := by
          rw [scanWord, List.dropWhile_cons_of_neg hc]
        have hsplit := @List.takeWhile_append_dropWhile _ (fun c => !isSpace c) (c :: s)
        have hne : (c :: s).takeWhile (fun c => !isSpace c) ≠ [] := by
          rw [List.takeWhile_cons_of_pos (by simpa using hc)]
          exact List.cons_ne_nil _ _
        have hrest : (c :: s).dropWhile (fun c => !isSpace c) = []
            ∨ ∃ d r, (c :: s).dropWhile (fun c => !isSpace c) = d :: r ∧ isSpace d = true := by
          cases hd : (c :: s).dropWhile fun c => !isSpace c with
          | nil => exact Or.inl rfl
          | cons d r =>
              have hhead := List.head?_dropWhile_not (fun c => !isSpace c) (c :: s)
              rw [hd] at hhead
              exact Or.inr ⟨d, r, rfl, by simpa using hhead⟩
        refine Or.inr ⟨_, _, hscan, ?_, hne, by rw [hsplit], hrest⟩
        have happ := words_append hne (fun d hd => by simpa using List.mem_takeWhile_imp hd) hrest
        rwa [hsplit] at happ

theorem ne_nil_of_mem_words {w : List UInt8} (h : w ∈ words s) : w ≠ [] := by
  simpa using (List.mem_filter.mp h).2

theorem scanWord_nil (h : words s = []) : scanWord s = none := by
  rcases scanWord_words s with ⟨hscan, -⟩ | ⟨w, rest, -, hwords, -⟩
  · exact hscan
  · rw [h] at hwords
    cases hwords

theorem scanWord_cons {w : List UInt8} {ws : List (List UInt8)} (h : words s = w :: ws) :
    ∃ rest, scanWord s = some (w, rest) ∧ words rest = ws ∧ w ++ rest <:+ s
      ∧ (rest = [] ∨ ∃ c r, rest = c :: r ∧ isSpace c = true) := by
  rcases scanWord_words s with ⟨-, hnil⟩ | ⟨w', rest, hscan, hwords, -, hsuffix, hrest⟩
  · rw [hnil] at h
    cases h
  · rw [h] at hwords
    obtain ⟨rfl, rfl⟩ := List.cons.inj hwords
    exact ⟨rest, hscan, rfl, hsuffix, hrest⟩

/-- Two words, and white space between them. -/
theorem length_words {w x : List UInt8} {ws : List (List UInt8)} (h : words s = w :: x :: ws) :
    w.length + 1 + x.length ≤ s.length := by
  obtain ⟨rest, -, hwords, hsuffix, hrest⟩ := scanWord_cons h
  have hlen := hsuffix.length_le
  rw [List.length_append] at hlen
  rcases hrest with rfl | ⟨c, r, rfl, hc⟩
  · cases hwords
  · rw [words_cons_space hc] at hwords
    obtain ⟨rest', -, -, hsuffix', -⟩ := scanWord_cons hwords
    have hlen' := hsuffix'.length_le
    rw [List.length_append] at hlen'
    rw [List.length_cons] at hlen
    omega

end Cs537.Lib
