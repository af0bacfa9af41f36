import Cs537.Mfs.Wire
import Mathlib.Logic.Function.Basic

/-!
# Clients, server and network

Any number of client processes call the library of `mfs.c`, one call after the other, and
the server runs the loop of `server.c`. They exchange datagrams over a network that
delays, reorders and loses them. A client whose `select` times out in `udp_Send` sends
again; a server that times out in `udp_wait` forgets what it was doing.

`MFS_Write` and `MFS_Read` take two datagrams. The server answers the first and waits for
the second in `udp_wait`, which takes whatever arrives next, from whomever. (It is given
the sender's address by value, so the reply still goes to the one who sent the first.)

Every datagram carries, for the proofs only, where it comes from: the client, the number
of its call, and whether it is a message that the library printed or the caller's buffer.
A reply carries the origin of the datagram it answers. A client is a socket: `MFS_Init`
opens one, and is the first call on it. The file system is a parameter; the protocol
depends on it in one point only.
-/

namespace Cs537.Mfs

open Lib

/-! ## The file system -/

/-- The functions of `fs.h`; `none` where a NULL name crashes them. -/
structure Files (σ : Type) where
  fsLookup : Int32 → Option Name → σ → Option (Int32 × σ)
  fsCreate : Int32 → Int32 → Option Name → σ → Option (Int32 × σ)
  fsUnlink : Int32 → Option Name → σ → Option (Int32 × σ)
  fsRead : Int32 → Int32 → σ → Int32 × Packet × σ
  fsWrite : Int32 → Packet → Int32 → σ → Int32 × σ
  /-- With the 4096 bytes from `stat` on that are copied into the reply. -/
  fsStat : Int32 → σ → Packet × σ
  fsFsync : σ → σ
  fsClose : σ → σ
  /-- `fs_read` returns 0, or -1. -/
  fsRead_rtn : ∀ inum block fs, (fsRead inum block fs).1 = 0 ∨ (fsRead inum block fs).1 = -1

/-! ## Datagrams -/

inductive Kind where
  /-- A message printed by the library. -/
  | request
  /-- The buffer given to `MFS_Write`. -/
  | data
deriving DecidableEq

structure Origin where
  client : Nat
  /-- How many calls the client has made, this one included. -/
  call : Nat
  kind : Kind
deriving DecidableEq

structure Datagram where
  packet : Packet
  origin : Origin

/-- Whose datagram it is. -/
def Datagram.client (d : Datagram) : Nat := d.origin.client

/-! ## The client -/

/-- Which of the two `udp_Send`s of `MFS_Write` and `MFS_Read`. -/
inductive Stage where
  | first
  | second
deriving DecidableEq

inductive ClientAt where
  /-- Between two calls. -/
  | idle
  /-- In `select`, with the contents of the local `message`. -/
  | waiting (call : Call Name Packet) (stage : Stage) (message : Packet)

def Call.isInit {N B : Type} : Call N B → Bool
  | init => true
  | _ => false

/-- `"R:2"`. -/
def readSecond : List UInt8 := [82, colon, 50]

/-- What `udp_Send` sends. -/
def ClientAt.sends : ClientAt → Option (Packet × Kind)
  | .idle => none
  | .waiting (.write _ buffer _) .second _ => some (buffer, .data)
  | .waiting _ _ message => some (message, .request)

/-- `udp_Send` has read a reply. -/
def ClientAt.onReply (reply : Packet) : ClientAt → ClientAt
  | .waiting (.write inum buffer block) .first message =>
      if atoi (cstr reply.bytes) ≠ 0 then .idle
      else .waiting (.write inum buffer block) .second message
  | .waiting (.read inum block) .first message =>
      if atoi (cstr reply.bytes) ≠ 0 then .idle
      else .waiting (.read inum block) .second (message.print readSecond)
  | _ => .idle

/-- `select` has timed out; `MFS_Shutdown` does not try again. -/
def ClientAt.onTimeout : ClientAt → ClientAt
  | .idle => .idle
  | .waiting .shutdown _ _ => .idle
  | .waiting call _ message => .waiting call .first message

/-! ## The server -/

inductive ServerAt where
  /-- In the `UDP_Read` of `main`. -/
  | loop
  /-- In the `udp_wait` of `case 'W'`; `s` is the datagram that is to be answered. -/
  | write (s : Origin) (inum block : Int32)
  /-- In the `udp_wait` of `case 'R'`. -/
  | read (s : Origin) (data : Packet)
  /-- Has crashed or exited. -/
  | dead

/-- The datagram that is to be answered after `udp_wait`. -/
def ServerAt.sender : ServerAt → Option Origin
  | .write s _ _ => some s
  | .read s _ => some s
  | _ => none

/-- The client that the server waits for. -/
def ServerAt.peer (server : ServerAt) : Option Nat := server.sender.map Origin.client

section
variable {σ : Type} (F : Files σ) (s : Origin) (buf : Packet)

/-- `sprintf(output, "%d", rtn)`, unless the file system has crashed. -/
def finish : Option (Int32 × σ) → σ → Option Packet × ServerAt × σ
  | none, fs => (none, .dead, fs)
  | some (rtn, fs), _ => (some (buf.print (printInt rtn)), .loop, fs)

/-- `"Initalized"`. -/
def initalized : List UInt8 := [73, 110, 105, 116, 97, 108, 105, 122, 101, 100]

/-- `processConnection` up to its end or to `udp_wait`, with the datagram that it sends. -/
def processConnection (input : Packet) (fs : σ) : Option Packet × ServerAt × σ :=
  match parse input.bytes with
  | .ignored => (none, .loop, fs)
  | .fault => (none, .dead, fs)
  | .call .init => (some (buf.print initalized), .loop, fs)
  | .call (.lookup pinum name) => finish buf (F.fsLookup pinum name fs) fs
  | .call (.creat pinum type name) =>
      finish buf ((F.fsCreate pinum type name fs).map fun r => (r.1, F.fsFsync r.2)) fs
  | .call (.read inum block) =>
      let (rtn, data, fs) := F.fsRead inum block fs
      if 0 ≤ rtn then (some (buf.print (printInt rtn)), .read s data, fs)
      else (some (buf.print (printInt rtn)), .loop, fs)
  | .call (.write inum _ block) => (some (buf.print [48]), .write s inum block, fs)
  | .call (.stat inum) =>
      let (stat, fs) := F.fsStat inum fs
      (some stat, .loop, fs)
  | .call .shutdown => (some (buf.print [48]), .dead, F.fsClose fs)
  | .call (.unlink inum name) =>
      finish buf ((F.fsUnlink inum name fs).map fun r => (r.1, F.fsFsync r.2)) fs

/-- "Make sure the second string is correct"; `none` where `strtok` returns NULL. -/
def checkSecond (input : List UInt8) : Option Bool :=
  match strtok colon (cstr input) with
  | (none, _) => none
  | (some st, rest) =>
      if st.head? ≠ some 82 then some false
      else
        match strtok colon rest with
        | (none, _) => none
        | (some tok, _) => some (decide (atoi tok = 2))

/-- The rest of `case 'W'`, after `udp_wait`. -/
def finishWrite (inum block : Int32) (input : Packet) (fs : σ) : Packet × σ :=
  let (rtn, fs) := F.fsWrite inum input block fs
  (buf.print (printInt rtn), F.fsFsync fs)

/-- The rest of `case 'R'`. -/
def finishRead (data input : Packet) : Option Packet × ServerAt :=
  match checkSecond input.bytes with
  | none => (none, .dead)
  | some false => (none, .loop)
  | some true => (some data, .loop)

end

/-! ## All together -/

structure World (σ : Type) where
  fs : σ
  server : ServerAt
  clients : Nat → ClientAt
  /-- `server_stat` of each client. -/
  serverStat : Nat → Bool
  /-- Under way to the server. -/
  up : List Datagram
  /-- Under way to the clients. -/
  down : List Datagram
  /-- The calls that each client has made. -/
  calls : Nat → List (Call Name Packet)
  /-- The calls of `fs_write`. -/
  written : List (Int32 × Packet × Int32)
  /-- The datagrams given to `processConnection` by `main`. -/
  dispatched : List Datagram
  /-- The client and the number of each call that has returned, with the reply it has read last. -/
  returned : List (Nat × Nat × Datagram)

inductive Event where
  /-- Client `c` makes a call; `buf` is what was in `message`. -/
  | call (c : Nat) (call : Call Name Packet) (buf : Packet)
  | timeout (c : Nat)
  /-- Client `c` reads a reply. -/
  | reply (c i : Nat)
  /-- `main` reads a datagram. -/
  | dispatch (i : Nat) (buf : Packet)
  /-- `udp_wait` reads a datagram. -/
  | answer (i : Nat) (buf : Packet)
  /-- `udp_wait` times out. -/
  | expire
  | loseUp (i : Nat)
  | loseDown (i : Nat)

namespace World

variable {σ : Type}

def init (fs : σ) : World σ where
  fs := fs
  server := .loop
  clients _ := .idle
  serverStat _ := false
  up := []
  down := []
  calls _ := []
  written := []
  dispatched := []
  returned := []

/-- What client `c` sends when it gets to `at'`. -/
def sent (w : World σ) (c : Nat) (at' : ClientAt) : List Datagram :=
  (at'.sends.map fun p => ⟨p.1, c, (w.calls c).length, p.2⟩).toList

/-- Client `c` gets to `at'`. -/
def move (w : World σ) (c : Nat) (at' : ClientAt) : World σ :=
  { w with
    clients := Function.update w.clients c at'
    up := w.up ++ w.sent c at' }

/-- Client `c` has read `d`; if it gets to `at'` by returning from its call, that is recorded. -/
def ret (w : World σ) (c : Nat) (d : Datagram) (at' : ClientAt) : World σ :=
  { w with
    returned := w.returned ++
      match at' with
      | .idle => [(c, (w.calls c).length, d)]
      | .waiting .. => [] }

/-- The server sends `reply`, if there is one, to the client behind `s`. -/
def respond (w : World σ) (s : Origin) (reply : Option Packet) : World σ :=
  { w with down := w.down ++ (reply.map fun p => ⟨p, s⟩).toList }

/-- One step, if it is possible. -/
def exec (F : Files σ) (w : World σ) : Event → Option (World σ)
  | .call c call buf =>
      match w.clients c with
      | .waiting .. => none
      | .idle =>
          if call.Accepted ∧ call.isInit = !w.serverStat c then
            some (move { w with calls := Function.update w.calls c (w.calls c ++ [call]) } c
              (.waiting call .first (buf.print call.message)))
          else none
  | .timeout c =>
      match w.clients c with
      | .idle => none
      | at' => some (w.move c at'.onTimeout)
  | .reply c i =>
      match w.clients c, w.down[i]? with
      | .waiting call stage message, some d =>
          if d.client = c then
            let at' := (ClientAt.waiting call stage message).onReply d.packet
            some ((ret { w with
              down := w.down.eraseIdx i
              serverStat := Function.update w.serverStat c (w.serverStat c || call.isInit) } c d
                at').move c at')
          else none
      | _, _ => none
  | .dispatch i buf =>
      match w.server, w.up[i]? with
      | .loop, some d =>
          let (reply, server, fs) := processConnection F d.origin buf d.packet w.fs
          some (respond { w with
            up := w.up.eraseIdx i
            dispatched := w.dispatched ++ [d]
            server := server
            fs := fs } d.origin reply)
      | _, _ => none
  | .answer i buf =>
      match w.server, w.up[i]? with
      | .write s inum block, some d =>
          let (reply, fs) := finishWrite F buf inum block d.packet w.fs
          some (respond { w with
            up := w.up.eraseIdx i
            written := w.written ++ [(inum, d.packet, block)]
            server := .loop
            fs := fs } s (some reply))
      | .read s data, some d =>
          let (reply, server) := finishRead data d.packet
          some (respond { w with up := w.up.eraseIdx i, server := server } s reply)
      | _, _ => none
  | .expire =>
      match w.server with
      | .write .. | .read .. => some { w with server := .loop }
      | _ => none
  | .loseUp i => if i < w.up.length then some { w with up := w.up.eraseIdx i } else none
  | .loseDown i => if i < w.down.length then some { w with down := w.down.eraseIdx i } else none

end World

/-! ## What is under way -/

namespace World

variable {σ : Type}

/-- Nothing of client `c` is under way. -/
def Clear (w : World σ) (c : Nat) : Prop :=
  (∀ d ∈ w.up, d.client ≠ c) ∧ ∀ d ∈ w.down, d.client ≠ c

/-- And the server does not wait for it. -/
def Quiet (w : World σ) (c : Nat) : Prop := w.Clear c ∧ w.server.peer ≠ some c

instance (w : World σ) (c : Nat) : Decidable (w.Clear c) :=
  inferInstanceAs (Decidable ((∀ d ∈ w.up, d.client ≠ c) ∧ ∀ d ∈ w.down, d.client ≠ c))

instance (w : World σ) (c : Nat) : Decidable (w.Quiet c) :=
  inferInstanceAs (Decidable (w.Clear c ∧ w.server.peer ≠ some c))

end World

/-! ## What a step does -/

namespace World

variable {σ : Type} {F : Files σ} {w w' : World σ} {c i : Nat} {buf : Packet}

theorem exec_call {call : Call Name Packet} (h : w.exec F (.call c call buf) = some w') :
    w.clients c = .idle ∧ call.Accepted ∧
      w' = move { w with calls := Function.update w.calls c (w.calls c ++ [call]) } c
        (.waiting call .first (buf.print call.message)) := by
  rw [exec] at h
  split at h
  · cases h
  · rename_i hidle
    split at h
    · rename_i hacc
      exact ⟨hidle, hacc.1, (Option.some.inj h).symm⟩
    · cases h

theorem exec_timeout (h : w.exec F (.timeout c) = some w') :
    ∃ call stage m, w.clients c = .waiting call stage m ∧
      w' = w.move c (ClientAt.waiting call stage m).onTimeout := by
  rw [exec] at h
  cases hat : w.clients c with
  | idle =>
      rw [hat] at h
      cases h
  | waiting call stage m =>
      rw [hat] at h
      exact ⟨call, stage, m, rfl, (Option.some.inj h).symm⟩

theorem exec_reply (h : w.exec F (.reply c i) = some w') :
    ∃ call stage m d, w.clients c = .waiting call stage m ∧ w.down[i]? = some d ∧ d.client = c ∧
      ∃ w₀ : World σ, w₀ = { w with
          down := w.down.eraseIdx i
          serverStat := Function.update w.serverStat c (w.serverStat c || call.isInit) } ∧
        w' = (w₀.ret c d ((ClientAt.waiting call stage m).onReply d.packet)).move c
          ((ClientAt.waiting call stage m).onReply d.packet) := by
  rw [exec] at h
  split at h
  · rename_i call stage m d hat hd
    split at h
    · rename_i hc
      exact ⟨call, stage, m, d, hat, hd, hc, _, rfl, (Option.some.inj h).symm⟩
    · cases h
  · cases h

theorem exec_dispatch (h : w.exec F (.dispatch i buf) = some w') :
    ∃ d, w.server = .loop ∧ w.up[i]? = some d ∧
      ∃ reply server fs, processConnection F d.origin buf d.packet w.fs = (reply, server, fs) ∧
        w' = respond { w with
          up := w.up.eraseIdx i
          dispatched := w.dispatched ++ [d]
          server := server
          fs := fs } d.origin reply := by
  rw [exec] at h
  split at h
  · rename_i d hserver hd
    exact ⟨d, hserver, hd, _, _, _, rfl, (Option.some.inj h).symm⟩
  · cases h

theorem finishRead_server (data input : Packet) :
    (finishRead data input).2 = .loop ∨ (finishRead data input).2 = .dead := by
  unfold finishRead
  split
  · exact Or.inr rfl
  · exact Or.inl rfl
  · exact Or.inl rfl

/-- `udp_wait` comes back with a datagram; only `case 'W'` writes. -/
theorem exec_answer (h : w.exec F (.answer i buf) = some w') :
    ∃ d s reply server fs written, w.up[i]? = some d ∧
      ((∃ inum block, w.server = .write s inum block ∧
          written = w.written ++ [(inum, d.packet, block)])
        ∨ ((∃ data, w.server = .read s data) ∧ written = w.written)) ∧
      (server = .loop ∨ server = .dead) ∧
      w' = respond { w with
        up := w.up.eraseIdx i
        written := written
        server := server
        fs := fs } s reply := by
  rw [exec] at h
  split at h
  · rename_i s inum block d hserver hd
    exact ⟨d, s, _, .loop, _, _, hd, Or.inl ⟨inum, block, hserver, rfl⟩, Or.inl rfl,
      (Option.some.inj h).symm⟩
  · rename_i s data d hserver hd
    refine ⟨d, s, _, _, w.fs, w.written, hd, Or.inr ⟨⟨data, hserver⟩, rfl⟩, ?_,
      (Option.some.inj h).symm⟩
    exact finishRead_server data d.packet
  · cases h

theorem exec_expire (h : w.exec F .expire = some w') :
    w' = { w with server := .loop } := by
  rw [exec] at h
  split at h
  · exact (Option.some.inj h).symm
  · exact (Option.some.inj h).symm
  · cases h

theorem exec_loseUp (h : w.exec F (.loseUp i) = some w') :
    ∃ d, w.up[i]? = some d ∧ w' = { w with up := w.up.eraseIdx i } := by
  rw [exec] at h
  split at h
  · rename_i hi
    exact ⟨w.up[i], List.getElem?_eq_getElem hi, (Option.some.inj h).symm⟩
  · cases h

theorem exec_loseDown (h : w.exec F (.loseDown i) = some w') :
    ∃ d, w.down[i]? = some d ∧ w' = { w with down := w.down.eraseIdx i } := by
  rw [exec] at h
  split at h
  · rename_i hi
    exact ⟨w.down[i], List.getElem?_eq_getElem hi, (Option.some.inj h).symm⟩
  · cases h

end World

/-- The worlds that are reached in steps that all meet `ok`. -/
inductive Reaches {σ : Type} (F : Files σ) (ok : World σ → Event → Prop) : World σ → Prop where
  | init (fs : σ) : Reaches F ok (World.init fs)
  | step {w w' : World σ} {e : Event} : Reaches F ok w → ok w e → w.exec F e = some w' →
      Reaches F ok w'

/-- A run of these steps. -/
def runIf {σ : Type} (F : Files σ) (ok : World σ → Event → Prop) [∀ w e, Decidable (ok w e)] :
    World σ → List Event → Option (World σ)
  | w, [] => some w
  | w, e :: es => if ok w e then (w.exec F e).bind fun w' => runIf F ok w' es else none

theorem Reaches.run {σ : Type} {F : Files σ} {ok : World σ → Event → Prop}
    [∀ w e, Decidable (ok w e)] {w w' : World σ} {es : List Event} (h : Reaches F ok w)
    (hrun : runIf F ok w es = some w') : Reaches F ok w' := by
  induction es generalizing w with
  | nil =>
      cases hrun
      exact h
  | cons e es ih =>
      rw [runIf] at hrun
      split at hrun
      · rename_i hok
        obtain ⟨w₁, hexec, hrest⟩ := Option.bind_eq_some_iff.mp hrun
        exact ih (.step h hok hexec) hrest
      · cases hrun

/-- What holds at first and is kept by every such step holds throughout. -/
theorem Reaches.induct {σ : Type} {F : Files σ} {ok : World σ → Event → Prop} {P : World σ → Prop}
    (hinit : ∀ fs, P (World.init fs))
    (hstep : ∀ {w w' : World σ} {e : Event}, P w → ok w e → w.exec F e = some w' → P w')
    {w : World σ} (h : Reaches F ok w) : P w := by
  induction h with
  | init fs => exact hinit fs
  | step _ hok hexec ih => exact hstep ih hok hexec

/-- A file system that refuses everything, for sample runs. -/
def refusing : Files Unit where
  fsLookup _ _ fs := some (-1, fs)
  fsCreate _ _ _ fs := some (-1, fs)
  fsUnlink _ _ fs := some (-1, fs)
  fsRead _ _ fs := (-1, Packet.zero, fs)
  fsWrite _ _ _ fs := (-1, fs)
  fsStat _ fs := (Packet.zero, fs)
  fsFsync fs := fs
  fsClose fs := fs
  fsRead_rtn _ _ _ := Or.inr rfl

/-- Client `c` connects, while nothing else happens. -/
def connect (c : Nat) : List Event := [.call c .init .zero, .dispatch 0 .zero, .reply c 0]

end Cs537.Mfs
