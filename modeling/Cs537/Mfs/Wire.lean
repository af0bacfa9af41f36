import Cs537.Lib.CString

/-!
# The datagrams of `P5/linux/mfs.c` and `P5/linux/server.c`

A request is a text: a letter for the operation and its arguments, separated by colons,
which the client prints with `snprintf` and the server takes apart with `strtok` and
`atoi`. It is sent in a datagram of 4096 bytes; what follows the NUL is what was on the
client's stack.

The numbers always arrive. A name arrives only if it is not empty and holds no colon:
`strtok` skips empty fields and cuts a name at the first colon in it.
-/

namespace Cs537.Mfs

open Lib

abbrev Name := List UInt8

/-- `':'`. -/
def colon : UInt8 := 58

/-- The contents of a `char[BUFFER_SIZE]`. -/
structure Packet where
  bytes : List UInt8
  size : bytes.length = 4096

theorem length_print (buf : Packet) (text : List UInt8) :
    (snprintf buf.bytes 4096 text).length = 4096 := length_snprintf (by decide) buf.size

/-- `snprintf(buf, BUFFER_SIZE, …)`, with the text that it prints. -/
def Packet.print (buf : Packet) (text : List UInt8) : Packet :=
  ⟨snprintf buf.bytes 4096 text, length_print buf text⟩

/--
The calls of the client library, with names of type `N` and, for `MFS_Write`, a buffer of type `B`.
The client has the arguments it was given. The server has a pointer that may be NULL for a
name, and of the buffer nothing.
-/
inductive Call (N B : Type) where
  | init
  | lookup (pinum : Int32) (name : N)
  | stat (inum : Int32)
  | write (inum : Int32) (buffer : B) (block : Int32)
  | read (inum block : Int32)
  | creat (pinum type : Int32) (name : N)
  | unlink (pinum : Int32) (name : N)
  | shutdown

namespace Call

variable {N N' B B' : Type}

def map (f : N → N') (g : B → B') : Call N B → Call N' B'
  | init => init
  | lookup pinum name => lookup pinum (f name)
  | stat inum => stat inum
  | write inum buffer block => write inum (g buffer) block
  | read inum block => read inum block
  | creat pinum type name => creat pinum type (f name)
  | unlink pinum name => unlink pinum (f name)
  | shutdown => shutdown

/-- The name among the arguments. -/
def name : Call N B → Option N
  | lookup _ name => some name
  | creat _ _ name => some name
  | unlink _ name => some name
  | _ => none

theorem map_congr_iff {f f' : N → N'} {g : B → B'} {c : Call N B} :
    c.map f g = c.map f' g ↔ ∀ n, c.name = some n → f n = f' n := by
  cases c <;> simp [map, name]

end Call

/-! ## The client -/

/-- The text of a request. -/
def Call.message {B : Type} : Call Name B → List UInt8
  | init => [73]
  | lookup pinum name => 76 :: colon :: (printInt pinum ++ colon :: name)
  | stat inum => 83 :: colon :: printInt inum
  | write inum _ block => 87 :: colon :: (printInt inum ++ colon :: printInt block)
  | read inum block => 82 :: colon :: 49 :: colon :: (printInt inum ++ colon :: printInt block)
  | creat pinum type name =>
      67 :: colon :: (printInt pinum ++ colon :: (printInt type ++ colon :: name))
  | unlink pinum name => 85 :: colon :: (printInt pinum ++ colon :: name)
  | shutdown => [69, colon]

/-- The checks that a call makes of its arguments; a name is a C string. -/
def Call.Accepted {B : Type} : Call Name B → Prop
  | init | shutdown => True
  | lookup pinum name | unlink pinum name => 0 ≤ pinum ∧ (0 : UInt8) ∉ name ∧ name.length < 60
  | stat inum => 0 ≤ inum
  | write inum _ block | read inum block => 0 ≤ inum ∧ 0 ≤ block ∧ block < 14
  | creat pinum type name =>
      0 ≤ pinum ∧ ((0 : UInt8) ∉ name ∧ name.length < 60) ∧ 0 ≤ type ∧ type ≤ 1

instance {B : Type} : ∀ c : Call Name B, Decidable c.Accepted
  | .init | .shutdown => inferInstanceAs (Decidable True)
  | .lookup pinum name | .unlink pinum name =>
      inferInstanceAs (Decidable (0 ≤ pinum ∧ (0 : UInt8) ∉ name ∧ name.length < 60))
  | .stat inum => inferInstanceAs (Decidable (0 ≤ inum))
  | .write inum _ block | .read inum block =>
      inferInstanceAs (Decidable (0 ≤ inum ∧ 0 ≤ block ∧ block < 14))
  | .creat pinum type name =>
      inferInstanceAs (Decidable
        (0 ≤ pinum ∧ ((0 : UInt8) ∉ name ∧ name.length < 60) ∧ 0 ≤ type ∧ type ≤ 1))

/-! ## The server -/

/-- What `processConnection` makes of a datagram. -/
inductive Parsed where
  /-- It returns -1. -/
  | ignored
  /-- `atoi(NULL)`. -/
  | fault
  | call (c : Call (Option Name) Unit)

/-- `atoi(strtok(NULL, ":"))`, and what follows it. -/
def nextInt (s : List UInt8) (k : Int32 → List UInt8 → Parsed) : Parsed :=
  match strtok colon s with
  | (none, _) => .fault
  | (some tok, s) => k (atoi tok) s

/-- `strtok(NULL, ":")` for a name. -/
def nextName (s : List UInt8) : Option Name := (strtok colon s).1

/-- The cases of `processConnection`. -/
def parseCall (letter : UInt8) (s : List UInt8) : Parsed :=
  if letter = 73 then .call .init
  else if letter = 76 then nextInt s fun pinum s => .call (.lookup pinum (nextName s))
  else if letter = 67 then
    nextInt s fun pinum s => nextInt s fun type s => .call (.creat pinum type (nextName s))
  else if letter = 82 then
    nextInt s fun part s =>
      if part ≠ 1 then .ignored
      else nextInt s fun inum s => nextInt s fun block _ => .call (.read inum block)
  else if letter = 87 then
    nextInt s fun inum s => nextInt s fun block _ => .call (.write inum () block)
  else if letter = 83 then nextInt s fun inum _ => .call (.stat inum)
  else if letter = 69 then .call .shutdown
  else if letter = 85 then nextInt s fun inum s => .call (.unlink inum (nextName s))
  else .ignored

/-- The operation and the arguments that `processConnection` finds in a datagram. -/
def parse (input : List UInt8) : Parsed :=
  match strtok colon (cstr input) with
  | (some [letter], s) => parseCall letter s
  | _ => .ignored

/-! ## There and back -/

variable {B : Type} {c : Call Name B}

theorem colon_notMem_printInt (x : Int32) : colon ∉ printInt x := by
  intro h
  rcases mem_printInt h with h | h
  · exact absurd h (by decide)
  · exact absurd h (by decide)

theorem zero_notMem_printInt (x : Int32) : (0 : UInt8) ∉ printInt x := by
  intro h
  rcases mem_printInt h with h | h
  · exact absurd h (by decide)
  · exact absurd h (by decide)

theorem nextInt_printInt (x : Int32) (s : List UInt8) (k : Int32 → List UInt8 → Parsed) :
    nextInt (printInt x ++ colon :: s) k = k x s := by
  rw [nextInt, strtok_append (printInt_ne_nil x) (colon_notMem_printInt x) (Or.inr ⟨s, rfl⟩)]
  dsimp only
  rw [atoi_printInt]
  rfl

theorem nextInt_printInt_last (x : Int32) (k : Int32 → List UInt8 → Parsed) :
    nextInt (printInt x) k = k x [] := by
  have htok := strtok_append (printInt_ne_nil x) (colon_notMem_printInt x) (Or.inl rfl)
  rw [List.append_nil] at htok
  rw [nextInt, htok]
  dsimp only
  rw [atoi_printInt]
  rfl

theorem length_message (hc : c.Accepted) : c.message.length < 4096 := by
  have hlen := length_printInt
  cases c with
  | init => exact of_decide_eq_true rfl
  | shutdown => exact of_decide_eq_true rfl
  | lookup pinum name =>
      have h1 := hlen pinum
      have h2 : name.length < 60 := hc.2.2
      simp only [Call.message, List.length_cons, List.length_append]
      omega
  | unlink pinum name =>
      have h1 := hlen pinum
      have h2 : name.length < 60 := hc.2.2
      simp only [Call.message, List.length_cons, List.length_append]
      omega
  | stat inum =>
      have h1 := hlen inum
      simp only [Call.message, List.length_cons]
      omega
  | write inum buffer block =>
      have h1 := hlen inum
      have h2 := hlen block
      simp only [Call.message, List.length_cons, List.length_append]
      omega
  | read inum block =>
      have h1 := hlen inum
      have h2 := hlen block
      simp only [Call.message, List.length_cons, List.length_append]
      omega
  | creat pinum type name =>
      have h1 := hlen pinum
      have h2 := hlen type
      have h3 : name.length < 60 := hc.2.1.2
      simp only [Call.message, List.length_cons, List.length_append]
      omega

theorem zero_notMem_message (hc : c.Accepted) : (0 : UInt8) ∉ c.message := by
  have hcolon : (0 : UInt8) ≠ colon := by decide
  cases c with
  | init => simp [Call.message]
  | shutdown => simp [Call.message, hcolon]
  | lookup pinum name => simp [Call.message, zero_notMem_printInt, hcolon, hc.2.1]
  | unlink pinum name => simp [Call.message, zero_notMem_printInt, hcolon, hc.2.1]
  | stat inum => simp [Call.message, zero_notMem_printInt, hcolon]
  | write inum buffer block => simp [Call.message, zero_notMem_printInt, hcolon]
  | read inum block => simp [Call.message, zero_notMem_printInt, hcolon]
  | creat pinum type name => simp [Call.message, zero_notMem_printInt, hcolon, hc.2.1.1]

/-- A text that starts with one letter. -/
theorem parse_letter {input : List UInt8} {letter : UInt8} {s : List UInt8} (hne : letter ≠ colon)
    (h : cstr input = letter :: colon :: s) : parse input = parseCall letter s := by
  have htok := @strtok_append colon [letter] (colon :: s) (List.cons_ne_nil _ _)
    (by simpa using Ne.symm hne) (Or.inr ⟨s, rfl⟩)
  rw [List.singleton_append] at htok
  rw [parse, h, htok]
  rfl

/-- The server finds the first nonempty part of a name, and everything else as it was sent. -/
theorem parse_message (hc : c.Accepted) (buf : Packet) :
    parse (buf.print c.message).bytes = .call (c.map nextName fun _ => ()) := by
  have hcstr : cstr (buf.print c.message).bytes = c.message :=
    cstr_snprintf (zero_notMem_message hc) (length_message hc)
  cases c with
  | init =>
      rw [parse, hcstr]
      rfl
  | shutdown =>
      rw [parse, hcstr]
      rfl
  | lookup pinum name =>
      rw [parse_letter (by decide) hcstr]
      simp [parseCall, nextInt_printInt, Call.map]
  | unlink pinum name =>
      rw [parse_letter (by decide) hcstr]
      simp [parseCall, nextInt_printInt, Call.map]
  | stat inum =>
      rw [parse_letter (by decide) hcstr]
      simp [parseCall, nextInt_printInt_last, Call.map]
  | write inum buffer block =>
      rw [parse_letter (by decide) hcstr]
      simp [parseCall, nextInt_printInt, nextInt_printInt_last, Call.map]
  | read inum block =>
      -- the first field is the constant `1`
      have hone : ∀ (s : List UInt8) (k : Int32 → List UInt8 → Parsed),
          nextInt (49 :: colon :: s) k = k 1 s := nextInt_printInt 1
      rw [parse_letter (by decide) hcstr]
      simp [parseCall, hone, nextInt_printInt, nextInt_printInt_last, Call.map]
  | creat pinum type name =>
      rw [parse_letter (by decide) hcstr]
      simp [parseCall, nextInt_printInt, Call.map]

/--
The server finds what the client was given exactly if the name, where there is one, is not empty
and holds no colon.
-/
theorem request_round_trip (c : Call Name B) (hc : c.Accepted) (buf : Packet) :
    parse (buf.print c.message).bytes = .call (c.map some fun _ => ())
      ↔ ∀ name, c.name = some name → name ≠ [] ∧ colon ∉ name := by
  rw [parse_message hc buf, Parsed.call.injEq, Call.map_congr_iff]
  constructor
  · intro h name hname
    exact strtok_eq_self_iff.mp (h name hname)
  · intro h name hname
    exact strtok_eq_self_iff.mpr (h name hname)

theorem length_zeros : (List.replicate 4096 (0 : UInt8)).length = 4096 := List.length_replicate

/-- A buffer of zeros. -/
def Packet.zero : Packet := ⟨List.replicate 4096 0, length_zeros⟩

/-- `MFS_Creat(0, 1, "a b")`. -/
theorem request_round_trip_creat :
    (Call.creat 0 1 [97, 32, 98] : Call Name Packet).Accepted
      ∧ parse (Packet.zero.print (Call.creat 0 1 [97, 32, 98] : Call Name Packet).message).bytes
        = .call (.creat 0 1 (some [97, 32, 98])) :=
  ⟨by decide, (request_round_trip (Call.creat 0 1 [97, 32, 98] : Call Name Packet) (by decide)
    Packet.zero).mpr (by decide)⟩

/-- `MFS_Lookup(0, "a:b")` arrives as a lookup of `"a"`. -/
theorem lookup_colon_cut :
    (Call.lookup 0 [97, colon, 98] : Call Name Packet).Accepted
      ∧ parse (Packet.zero.print (Call.lookup 0 [97, colon, 98] : Call Name Packet).message).bytes
        = .call (.lookup 0 (some [97]))
      ∧ parse (Packet.zero.print (Call.lookup 0 [97, colon, 98] : Call Name Packet).message).bytes
        ≠ .call (.lookup 0 (some [97, colon, 98])) := by
  have hparse := @parse_message Packet (.lookup 0 [97, colon, 98]) (by decide) Packet.zero
  have hmap : (Call.lookup 0 [97, colon, 98] : Call Name Packet).map nextName (fun _ => ())
      = .lookup 0 (some [97]) := rfl
  rw [hparse, hmap]
  refine ⟨by decide, rfl, fun h => ?_⟩
  simp at h

end Cs537.Mfs
