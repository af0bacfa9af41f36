import Cs537.Mfs.Exchange

/-!
# What `MFS_Read` sends when it starts again

`MFS_Read` keeps both halves of its exchange in one buffer. The first half is repeated in
`udp_Send` until there is a reply. If the second half gets none, the loop starts over, and
by then the buffer holds `"R:2"`. The server ignores that as a first datagram, and so the
call never returns unless somebody else's reply comes along.

The network is whatever answers: a run is an infinite sequence of outcomes, one for each
time that a datagram has been sent. A finite pattern is the start of such a run.
-/

namespace Cs537.Mfs

open Lib

/-- What `udp_Send` sees after it has sent a datagram. -/
inductive Outcome where
  | timeout
  /-- `UDP_Read` does not return `BUFFER_SIZE` bytes. -/
  | short
  | reply (p : Packet)

/-- A short reply is as good as none. -/
def ClientAt.after (at' : ClientAt) : Outcome → ClientAt
  | .timeout => at'.onTimeout
  | .short => at'.onTimeout
  | .reply p => at'.onReply p

/-- `MFS_Read(inum, buffer, block)` has sent its first datagram. -/
def readStart (inum block : Int32) (message : Packet) : ClientAt :=
  .waiting (.read inum block) .first (message.print (Call.read inum block : Call Name Packet).message)

/-- It has sent its first datagram, and `n` outcomes have been seen. -/
def readRun (inum block : Int32) (message : Packet) (outcomes : Nat → Outcome) : Nat → ClientAt
  | 0 => readStart inum block message
  | n + 1 => (readRun inum block message outcomes n).after (outcomes n)

/-- `"R:1:%d:%d"`. -/
def readFirst (inum block : Int32) : List UInt8 :=
  [82, colon, 49, colon] ++ printInt inum ++ [colon] ++ printInt block

/-- What has been sent last belongs to the half that the call is in. -/
def SendsOwn (inum block : Int32) : ClientAt → Prop
  | .idle => True
  | .waiting _ .first message => cstr message.bytes = readFirst inum block
  | .waiting _ .second message => cstr message.bytes = readSecond

def Outcome.isReply : Outcome → Bool
  | .reply _ => true
  | _ => false

variable {inum block : Int32} {message p : Packet} {outcomes : Nat → Outcome} {n : Nat}

/-- The first half goes on while there is no reply. -/
theorem readRun_first (h : ∀ k < n, (outcomes k).isReply = false) :
    readRun inum block message outcomes n = readStart inum block message := by
  induction n with
  | zero => rfl
  | succ n ih =>
      have hlast := h n (Nat.lt_succ_self n)
      rw [readRun, ih fun k hk => h k (Nat.lt_succ_of_lt hk)]
      cases hout : outcomes n with
      | timeout => rfl
      | short => rfl
      | reply p =>
          rw [hout] at hlast
          cases hlast

/-- The call has returned. -/
theorem readRun_idle (h : readRun inum block message outcomes n = .idle) (k : Nat) :
    readRun inum block message outcomes (n + k) = .idle := by
  induction k with
  | zero => exact h
  | succ k ih =>
      rw [← Nat.add_assoc, readRun, ih]
      cases outcomes (n + k) <;> rfl

/-- The first reply is 0: the second half begins. -/
theorem readRun_second (h : ∀ k < n, (outcomes k).isReply = false) (hout : outcomes n = .reply p)
    (hp : atoi (cstr p.bytes) = 0) :
    readRun inum block message outcomes (n + 1) = .waiting (.read inum block) .second
      ((message.print (Call.read inum block : Call Name Packet).message).print readSecond) := by
  rw [readRun, readRun_first h, hout, ClientAt.after, readStart, ClientAt.onReply, if_neg (not_not.mpr hp)]

/-- The first reply is not 0: the call has failed. -/
theorem readRun_failed (h : ∀ k < n, (outcomes k).isReply = false) (hout : outcomes n = .reply p)
    (hp : atoi (cstr p.bytes) ≠ 0) : readRun inum block message outcomes (n + 1) = .idle := by
  rw [readRun, readRun_first h, hout, ClientAt.after, readStart, ClientAt.onReply, if_pos hp]

theorem readFirst_eq (inum block : Int32) :
    readFirst inum block = (Call.read inum block : Call Name Packet).message := by
  simp [readFirst, Call.message]

theorem sendsOwn_start (hacc : (Call.read inum block : Call Name Packet).Accepted) (message : Packet) :
    SendsOwn inum block (readStart inum block message) := by
  show cstr (message.print _).bytes = _
  rw [readFirst_eq]
  exact cstr_snprintf (zero_notMem_message hacc) (length_message hacc)

theorem cstr_readSecond (message : Packet) : cstr (message.print readSecond).bytes = readSecond :=
  cstr_snprintf (by decide) (by decide)

theorem readFirst_ne_readSecond (inum block : Int32) : readSecond ≠ readFirst inum block := by
  intro h
  have hpart := congrArg (fun text => text[2]?) h
  simp [readFirst, readSecond] at hpart

/-- From the first reply on, if the second half is not started over. -/
theorem sendsOwn_after (h : ∀ k < n, (outcomes k).isReply = false) (hout : outcomes n = .reply p)
    (hnext : atoi (cstr p.bytes) = 0 → (outcomes (n + 1)).isReply = true) (j : Nat) :
    SendsOwn inum block (readRun inum block message outcomes (n + 1 + j)) := by
  by_cases hp : atoi (cstr p.bytes) = 0
  · have hsecond := @readRun_second inum block message p outcomes n h hout hp
    cases j with
    | zero =>
        rw [Nat.add_zero, hsecond]
        exact cstr_readSecond _
    | succ j =>
        have hidle : readRun inum block message outcomes (n + 1 + 1) = .idle := by
          rw [readRun, hsecond]
          cases hout' : outcomes (n + 1) with
          | reply q => rw [ClientAt.after, onReply_second]
          | timeout =>
              have hreply := hnext hp
              rw [hout'] at hreply
              cases hreply
          | short =>
              have hreply := hnext hp
              rw [hout'] at hreply
              cases hreply
        rw [Nat.add_comm j 1, ← Nat.add_assoc, readRun_idle hidle]
        trivial
  · rw [readRun_idle (readRun_failed h hout hp)]
    trivial

/--
**Starting again.** Whatever the network does, each time that `MFS_Read` enters its loop it
sends its own `"R:1:%d:%d"` first and `"R:2"` second, exactly if the first reply, when it is
0, is followed at once by another one.
-/
theorem sends_own_iff {inum block : Int32} (hinum : 0 ≤ inum) (hblock : 0 ≤ block ∧ block < 14)
    (message : Packet) (outcomes : Nat → Outcome) :
    (∀ n, SendsOwn inum block (readRun inum block message outcomes n))
      ↔ ∀ n p, (∀ k < n, (outcomes k).isReply = false) → outcomes n = .reply p → atoi (cstr p.bytes) = 0 →
        (outcomes (n + 1)).isReply = true := by
  have hacc : (Call.read inum block : Call Name Packet).Accepted := ⟨hinum, hblock⟩
  constructor
  · intro hown n p hfirst hout hp
    by_contra hno
    have hagain := hown (n + 1 + 1)
    rw [readRun, readRun_second hfirst hout hp] at hagain
    cases hnext : outcomes (n + 1) with
    | reply q => exact hno (by rw [hnext]; rfl)
    | timeout =>
        rw [hnext] at hagain
        exact readFirst_ne_readSecond inum block ((cstr_readSecond _).symm.trans hagain)
    | short =>
        rw [hnext] at hagain
        exact readFirst_ne_readSecond inum block ((cstr_readSecond _).symm.trans hagain)
  · intro hcond n
    by_cases hany : ∃ k < n, (outcomes k).isReply = true
    · obtain ⟨k, hk, hreply⟩ := hany
      -- the first reply
      have hfind : ∃ k, (outcomes k).isReply = true := ⟨k, hreply⟩
      have hle : Nat.find hfind ≤ k := Nat.find_min' hfind hreply
      have hfirst : ∀ k < Nat.find hfind, (outcomes k).isReply = false := fun k hk =>
        Bool.eq_false_iff.mpr (Nat.find_min hfind hk)
      obtain ⟨p, hout⟩ : ∃ p, outcomes (Nat.find hfind) = .reply p := by
        have hspec := Nat.find_spec hfind
        cases hout : outcomes (Nat.find hfind) with
        | reply p => exact ⟨p, rfl⟩
        | timeout =>
            rw [hout] at hspec
            cases hspec
        | short =>
            rw [hout] at hspec
            cases hspec
      obtain ⟨j, hj⟩ := Nat.exists_eq_add_of_lt (Nat.lt_of_le_of_lt hle hk)
      have hn : n = Nat.find hfind + 1 + j := by omega
      rw [hn]
      exact sendsOwn_after hfirst hout (hcond _ p hfirst hout) j
    · rw [readRun_first fun k hk => Bool.eq_false_iff.mpr fun h => hany ⟨k, hk, h⟩]
      exact sendsOwn_start hacc message

/-- Everything is answered with 0. -/
theorem sends_own_answered : SendsOwn 1 0 (readRun 1 0 .zero (fun _ => .reply .zero) 1) :=
  (sends_own_iff (by decide) (by decide) .zero fun _ => .reply .zero).mpr (fun _ _ _ _ _ => rfl) 1

/-- The second half times out once. -/
theorem restart_sends_second : ¬∀ n, SendsOwn 1 0 (readRun 1 0 .zero
    (fun n => if n = 0 then .reply .zero else .timeout) n) := by
  intro hown
  have hagain := hown 2
  exact readFirst_ne_readSecond 1 0 ((cstr_readSecond _).symm.trans hagain)

end Cs537.Mfs
