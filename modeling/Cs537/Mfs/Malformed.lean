import Cs537.Mfs.Model

/-!
# Datagrams with fields missing

`processConnection` asks `strtok` for one field after the other, and hands what it gets to
`atoi`, to `strncmp` or to the file system without asking whether there was one. So a
datagram that is no request is ignored, but one that breaks off is not.
-/

namespace Cs537.Mfs

open Lib

variable {s : List UInt8} {k : Int32 → List UInt8 → Parsed} {letter : UInt8} {m : Nat}

/-- How many fields a request has behind its letter. -/
def fieldCount (letter : UInt8) : Option Nat :=
  if letter = 73 then some 0
  else if letter = 76 then some 2
  else if letter = 67 then some 3
  else if letter = 82 then some 3
  else if letter = 87 then some 2
  else if letter = 83 then some 1
  else if letter = 69 then some 0
  else if letter = 85 then some 2
  else none

/-- The fields of a datagram. -/
def fieldsOf (input : Packet) : List (List UInt8) := tokens colon (cstr input.bytes)

/-- It is a request with all its fields. -/
def WellFormed (input : Packet) : Prop :=
  ∃ letter fields n, fieldsOf input = [letter] :: fields ∧ fieldCount letter = some n ∧ n ≤ fields.length

/-- A field that is not there is given to `atoi` or to the file system. -/
inductive Absent : Parsed → Prop where
  | atoi : Absent .fault
  | name {c : Call (Option Name) Unit} (h : c.name = some none) : Absent (.call c)

/-- What the server should do with a datagram, and with the one that `udp_wait` returns, if it returns one. -/
structure Tolerated {σ : Type} (F : Files σ) (fs : σ) (input : Packet) (second : Option Packet) : Prop where
  request : WellFormed input ∨ parse input.bytes = .ignored
  fields : ¬Absent (parse input.bytes)
  answer : ∀ inum block p, parse input.bytes = .call (.read inum block) → 0 ≤ (F.fsRead inum block fs).1 →
    second = some p → checkSecond p.bytes ≠ none

/-- The fields that are asked for are there. -/
def Complete : List (List UInt8) → Prop
  | [letter] :: fields =>
      if letter = 82 then ∃ part rest, fields = part :: rest ∧ (atoi part = 1 → 2 ≤ rest.length)
      else ∀ n ∈ fieldCount letter, n ≤ fields.length
  | _ => True

/-- The fields of the second datagram of a read. -/
def CompleteSecond (fields : List (List UInt8)) : Prop :=
  ∃ st rest, fields = st :: rest ∧ (st.head? = some 82 → rest ≠ [])

/-! ## One field after the other -/

theorem nextInt_tokens (s : List UInt8) (k : Int32 → List UInt8 → Parsed) :
    (tokens colon s = [] ∧ nextInt s k = .fault)
      ∨ ∃ tok rest, tokens colon s = tok :: tokens colon rest ∧ nextInt s k = k (atoi tok) rest := by
  rcases strtok_tokens colon s with ⟨h, htok⟩ | ⟨tok, rest, h, htok⟩
  · exact Or.inl ⟨htok, by rw [nextInt, h]⟩
  · exact Or.inr ⟨tok, rest, htok, by rw [nextInt, h]⟩

/-- One field more. -/
theorem absent_nextInt (hk : ∀ x rest, Absent (k x rest) ↔ (tokens colon rest).length < m) :
    Absent (nextInt s k) ↔ (tokens colon s).length < m + 1 := by
  rcases nextInt_tokens s k with ⟨htok, h⟩ | ⟨tok, rest, htok, h⟩
  · rw [h, htok]
    exact iff_of_true .atoi (Nat.succ_pos m)
  · rw [h, htok, hk, List.length_cons, Nat.add_lt_add_iff_right]

/-- A request that ends with a name. -/
theorem absent_nextName {c : Call (Option Name) Unit} (hc : c.name = some (nextName s)) :
    Absent (.call c) ↔ (tokens colon s).length < 1 := by
  have habsent : Absent (.call c) ↔ nextName s = none := by
    constructor
    · rintro (_ | h)
      exact Option.some.inj (hc.symm.trans h)
    · exact fun h => .name (by rw [hc, h])
  rw [habsent, nextName]
  rcases strtok_tokens colon s with ⟨h, htok⟩ | ⟨tok, rest, h, htok⟩
  · rw [h, htok]
    exact iff_of_true rfl Nat.one_pos
  · rw [h, htok]
    simp

theorem not_absent_call {c : Call (Option Name) Unit} (hc : c.name = none) (n : Nat) :
    Absent (.call c) ↔ n < 0 := by
  refine iff_of_false ?_ (Nat.not_lt_zero n)
  rintro (_ | h)
  rw [hc] at h
  cases h

/-- All the cases but `'R'`. -/
theorem absent_parseCall (hletter : letter ≠ 82) :
    Absent (parseCall letter s) ↔ ∃ n ∈ fieldCount letter, (tokens colon s).length < n := by
  have hsome : ∀ m, (∃ n ∈ some m, (tokens colon s).length < n) ↔ (tokens colon s).length < m := by simp
  rw [parseCall, fieldCount]
  split_ifs
  · rw [hsome]
    exact not_absent_call rfl _
  · rw [hsome]
    exact absent_nextInt fun pinum rest => absent_nextName rfl
  · rw [hsome]
    exact absent_nextInt fun pinum rest => absent_nextInt fun type rest => absent_nextName rfl
  · rw [hsome]
    exact absent_nextInt fun inum rest => absent_nextInt fun block rest => not_absent_call rfl _
  · rw [hsome]
    exact absent_nextInt fun inum rest => not_absent_call rfl _
  · rw [hsome]
    exact not_absent_call rfl _
  · rw [hsome]
    exact absent_nextInt fun inum rest => absent_nextName rfl
  · refine iff_of_false (fun h => by cases h) ?_
    rintro ⟨n, hn, -⟩
    cases hn

/-- `'R'`, which looks at its first field before it asks for the others. -/
theorem absent_parseCall_read :
    Absent (parseCall 82 s)
      ↔ ¬∃ part rest, tokens colon s = part :: rest ∧ (atoi part = 1 → 2 ≤ rest.length) := by
  have hcall : parseCall 82 s = nextInt s fun part s =>
      if part ≠ 1 then .ignored
      else nextInt s fun inum s => nextInt s fun block _ => .call (.read inum block) := rfl
  rw [hcall]
  rcases nextInt_tokens s _ with ⟨htok, h⟩ | ⟨tok, rest, htok, h⟩
  · rw [h, htok]
    refine iff_of_true .atoi ?_
    rintro ⟨part, rest, hnil, -⟩
    cases hnil
  · rw [h, htok]
    by_cases hpart : atoi tok = 1
    · have habsent : Absent (nextInt rest fun inum s => nextInt s fun block _ => .call (.read inum block))
          ↔ (tokens colon rest).length < 2 :=
        absent_nextInt fun inum rest => absent_nextInt fun block rest => not_absent_call rfl _
      rw [if_neg (not_not.mpr hpart), habsent]
      constructor
      · rintro hlt ⟨part, rest', heq, hlen⟩
        obtain ⟨rfl, rfl⟩ := List.cons.inj heq
        have hle := hlen hpart
        omega
      · intro hno
        by_contra hle
        exact hno ⟨tok, _, rfl, fun _ => by omega⟩
    · rw [if_pos hpart]
      exact iff_of_false (fun h => by cases h) (not_not.mpr ⟨tok, _, rfl, fun h => absurd h hpart⟩)

theorem nextInt_of_tokens {tok : List UInt8} {fields : List (List UInt8)} (htok : tokens colon s = tok :: fields) :
    ∃ rest, tokens colon rest = fields ∧ ∀ k, nextInt s k = k (atoi tok) rest := by
  rcases strtok_tokens colon s with ⟨-, hnil⟩ | ⟨tok', rest, h, hcons⟩
  · rw [hnil] at htok
    cases htok
  · obtain ⟨rfl, hrest⟩ := List.cons.inj (hcons.symm.trans htok)
    exact ⟨rest, hrest, fun k => by rw [nextInt, h]⟩

theorem nextInt_call {c : Call (Option Name) Unit} (h : nextInt s k = .call c) :
    ∃ tok rest, tokens colon s = tok :: tokens colon rest ∧ k (atoi tok) rest = .call c := by
  rcases nextInt_tokens s k with ⟨-, h'⟩ | ⟨tok, rest, htok, h'⟩
  · rw [h'] at h
    cases h
  · exact ⟨tok, rest, htok, h'.symm.trans h⟩

/-- Only `'R'` reads. -/
theorem letter_of_read {inum block : Int32} (h : parseCall letter s = .call (.read inum block)) : letter = 82 := by
  rw [parseCall] at h
  split_ifs at h with hI hL hC hR hW hS hE hU
  · cases h
  · obtain ⟨tok, rest, -, h⟩ := nextInt_call h
    cases h
  · obtain ⟨tok, rest, -, h⟩ := nextInt_call h
    obtain ⟨tok', rest', -, h⟩ := nextInt_call h
    cases h
  · exact hR
  · obtain ⟨tok, rest, -, h⟩ := nextInt_call h
    obtain ⟨tok', rest', -, h⟩ := nextInt_call h
    cases h
  · obtain ⟨tok, rest, -, h⟩ := nextInt_call h
    cases h
  · cases h
  · obtain ⟨tok, rest, -, h⟩ := nextInt_call h
    cases h

theorem parseCall_read {inum block : Int32} :
    parseCall 82 s = .call (.read inum block)
      ↔ ∃ part st st' rest, tokens colon s = part :: st :: st' :: rest ∧ atoi part = 1
        ∧ inum = atoi st ∧ block = atoi st' := by
  have hcall : parseCall 82 s = nextInt s fun part s =>
      if part ≠ 1 then .ignored
      else nextInt s fun inum s => nextInt s fun block _ => .call (.read inum block) := rfl
  rw [hcall]
  constructor
  · intro h
    obtain ⟨part, rest, htok, h⟩ := nextInt_call h
    split_ifs at h with hpart
    obtain ⟨st, rest', htok', h⟩ := nextInt_call h
    obtain ⟨st', rest'', htok'', h⟩ := nextInt_call h
    cases h
    exact ⟨part, st, st', _, by rw [htok, htok', htok''], not_not.mp hpart, rfl, rfl⟩
  · rintro ⟨part, st, st', fields, htok, hpart, rfl, rfl⟩
    obtain ⟨rest, hrest, h⟩ := nextInt_of_tokens htok
    obtain ⟨rest', hrest', h'⟩ := nextInt_of_tokens hrest
    obtain ⟨rest'', -, h''⟩ := nextInt_of_tokens hrest'
    rw [h, if_neg (not_not.mpr hpart), h', h'']

/-- A read that does not begin with its first part. -/
theorem parseCall_part {part : List UInt8} {fields : List (List UInt8)} (htok : tokens colon s = part :: fields)
    (hpart : atoi part ≠ 1) : parseCall 82 s = .ignored := by
  have hcall : parseCall 82 s = nextInt s fun part s =>
      if part ≠ 1 then .ignored
      else nextInt s fun inum s => nextInt s fun block _ => .call (.read inum block) := rfl
  obtain ⟨rest, -, h⟩ := nextInt_of_tokens htok
  rw [hcall, h, if_pos hpart]

/-- Not a letter of a request. -/
theorem parseCall_none (h : fieldCount letter = none) : parseCall letter s = .ignored := by
  rw [fieldCount] at h
  rw [parseCall]
  split_ifs at h ⊢
  rfl

/-! ## The whole datagram -/

variable {σ : Type} {input : Packet}

/-- A letter and its fields, or no request. -/
theorem parse_cases (input : Packet) :
    (∃ letter rest, fieldsOf input = [letter] :: tokens colon rest ∧ parse input.bytes = parseCall letter rest)
      ∨ parse input.bytes = .ignored ∧ ∀ letter fields, fieldsOf input ≠ [letter] :: fields := by
  rw [parse, fieldsOf]
  rcases strtok_tokens colon (cstr input.bytes) with ⟨h, htok⟩ | ⟨tok, rest, h, htok⟩
  · rw [h, htok]
    exact Or.inr ⟨rfl, fun letter fields hnil => by cases hnil⟩
  · rw [h, htok]
    by_cases hlen : ∃ letter, tok = [letter]
    · obtain ⟨letter, rfl⟩ := hlen
      exact Or.inl ⟨letter, rest, rfl, rfl⟩
    · refine Or.inr ⟨?_, fun letter fields heq => hlen ⟨letter, (List.cons.inj heq).1⟩⟩
      split
      · rename_i heq
        cases heq
        exact absurd ⟨_, rfl⟩ hlen
      · rfl

theorem absent_parse (input : Packet) : Absent (parse input.bytes) ↔ ¬Complete (fieldsOf input) := by
  rcases parse_cases input with ⟨letter, rest, hfields, h⟩ | ⟨h, hno⟩
  · rw [h, hfields, Complete]
    split_ifs with hletter
    · rw [hletter]
      exact absent_parseCall_read
    · rw [absent_parseCall hletter]
      simp only [not_forall, not_le, exists_prop]
  · rw [h, Complete]
    · exact iff_of_false (fun h => by cases h) (not_not.mpr trivial)
    · exact hno

/-- What has all the fields that are asked for is a request, or ignored. -/
theorem wellFormed_or_ignored (h : Complete (fieldsOf input)) :
    WellFormed input ∨ parse input.bytes = .ignored := by
  rcases parse_cases input with ⟨letter, rest, hfields, hparse⟩ | ⟨hignored, -⟩
  · rw [hfields, Complete] at h
    split_ifs at h with hletter
    · obtain ⟨part, fields, htok, hlen⟩ := h
      subst hletter
      by_cases hpart : atoi part = 1
      · have hle := hlen hpart
        refine Or.inl ⟨82, tokens colon rest, 3, hfields, rfl, ?_⟩
        rw [htok, List.length_cons]
        omega
      · exact Or.inr (hparse.trans (parseCall_part htok hpart))
    · cases hcount : fieldCount letter with
      | some n => exact Or.inl ⟨letter, _, n, hfields, hcount, h n hcount⟩
      | none => exact Or.inr (hparse.trans (parseCall_none hcount))
  · exact Or.inr hignored

theorem parse_read {inum block : Int32} (input : Packet) :
    parse input.bytes = .call (.read inum block)
      ↔ ∃ part st st' rest, fieldsOf input = [82] :: part :: st :: st' :: rest ∧ atoi part = 1
        ∧ inum = atoi st ∧ block = atoi st' := by
  rcases parse_cases input with ⟨letter, rest, hfields, hparse⟩ | ⟨hignored, hno⟩
  · rw [hparse, hfields]
    constructor
    · intro h
      obtain rfl := letter_of_read h
      obtain ⟨part, st, st', rest', htok, hargs⟩ := parseCall_read.mp h
      exact ⟨part, st, st', rest', by rw [htok], hargs⟩
    · rintro ⟨part, st, st', rest', heq, hargs⟩
      obtain ⟨hletter, htok⟩ := List.cons.inj heq
      obtain rfl := List.singleton_injective hletter
      exact parseCall_read.mpr ⟨part, st, st', rest', htok, hargs⟩
  · rw [hignored]
    refine iff_of_false (fun h => by cases h) ?_
    rintro ⟨part, st, st', rest, heq, -⟩
    exact hno _ _ heq

theorem checkSecond_none (input : List UInt8) :
    checkSecond input = none ↔ ¬CompleteSecond (tokens colon (cstr input)) := by
  rw [checkSecond]
  rcases strtok_tokens colon (cstr input) with ⟨h, htok⟩ | ⟨st, rest, h, htok⟩
  · rw [h, htok]
    refine iff_of_true rfl ?_
    rintro ⟨st, rest, hnil, -⟩
    cases hnil
  · rw [h, htok]
    dsimp only
    have hcomplete : CompleteSecond (st :: tokens colon rest) ↔ (st.head? = some 82 → tokens colon rest ≠ []) := by
      constructor
      · rintro ⟨st', rest', heq, hrest⟩
        obtain ⟨rfl, rfl⟩ := List.cons.inj heq
        exact hrest
      · exact fun hrest => ⟨st, _, rfl, hrest⟩
    rw [hcomplete]
    split_ifs with hst
    · exact iff_of_false (fun h => by cases h) (not_not.mpr fun h => absurd h hst)
    · rcases strtok_tokens colon rest with ⟨h', htok'⟩ | ⟨tok, rest', h', htok'⟩
      · rw [h', htok']
        exact iff_of_true rfl fun hrest => hrest (not_not.mp hst) rfl
      · rw [h', htok']
        exact iff_of_false (fun h => by cases h) (not_not.mpr fun _ => List.cons_ne_nil _ _)

/-- It asks for a read that `fs_read` has done. -/
def Reads (F : Files σ) (fs : σ) (input : Packet) : Prop :=
  ∃ part inum block rest, fieldsOf input = [82] :: part :: inum :: block :: rest ∧ atoi part = 1
    ∧ 0 ≤ (F.fsRead (atoi inum) (atoi block) fs).1

/--
**Malformed datagrams.** A datagram is a request with all its fields or ignored, and no field
that is not there is used, not in the second datagram of a read either, exactly if all the
fields are there that are asked for.
-/
theorem tolerated_iff (F : Files σ) (fs : σ) (input : Packet) (second : Option Packet) :
    Tolerated F fs input second
      ↔ Complete (fieldsOf input)
        ∧ (Reads F fs input → ∀ p, second = some p → CompleteSecond (fieldsOf p)) := by
  constructor
  · intro h
    refine ⟨not_not.mp (mt (absent_parse input).mpr h.fields), ?_⟩
    rintro ⟨part, st, st', rest, hfields, hpart, hrtn⟩ p hp
    have hsecond := h.answer _ _ p ((parse_read input).mpr ⟨part, st, st', rest, hfields, hpart, rfl, rfl⟩) hrtn hp
    exact not_not.mp (mt (checkSecond_none p.bytes).mpr hsecond)
  · rintro ⟨hcomplete, hsecond⟩
    refine ⟨wellFormed_or_ignored hcomplete, fun h => (absent_parse input).mp h hcomplete, ?_⟩
    intro inum block p hparse hrtn hp h
    obtain ⟨part, st, st', rest, hfields, hpart, rfl, rfl⟩ := (parse_read input).mp hparse
    exact (checkSecond_none p.bytes).mp h (hsecond ⟨part, st, st', rest, hfields, hpart, hrtn⟩ p hp)

/-- `"L"`: the server calls `atoi(NULL)`. -/
theorem letter_not_tolerated : (0 : UInt8) ∈ (Packet.zero.print [76]).bytes
    ∧ ¬Tolerated refusing () (Packet.zero.print [76]) none := by
  constructor
  · exact List.mem_append_right _ (List.mem_cons_self ..)
  · intro h
    have hcstr : cstr (Packet.zero.print [76]).bytes = [76] := cstr_snprintf (by decide) (by decide)
    have hfields : fieldsOf (Packet.zero.print [76]) = [[76]] := by
      rw [fieldsOf, hcstr, tokens_eq_splitOn]
      decide
    refine h.fields ((absent_parse _).mpr ?_)
    rw [hfields, Complete, if_neg (by decide)]
    exact fun hcount => absurd (hcount 2 rfl) (by decide)

end Cs537.Mfs
