import Cs537.Lib.Net
import Cs537.Mfs.Tags

/-!
# Exchanges of two datagrams

Does the server write what the writer gave it, and does it ever take such data for a
command? Nothing in a datagram says what it is for, so everything depends on who sends
what when. The server and a client stay in step as long as

* `MFS_Write` and `MFS_Read` send their request, at first or again, only while nothing of
  that client is under way and the server is not waiting for it;
* the server, while it waits for a client, reads only that client's datagrams; and
* it gives up only when nothing of that client is under way.

The other calls may be made and repeated at any time: they are answered in one step.

The argument looks at one client at a time. While the rules are kept, the client, its
datagrams under way and what the server is doing for it are in one of a few phases.
-/

namespace Cs537.Mfs

open Lib

/-- An exchange of two datagrams. -/
inductive Exchange where
  | write (inum block : Int32)
  | read
deriving DecidableEq

def Call.exchange : Call Name Packet → Option Exchange
  | .write inum _ block => some (.write inum block)
  | .read _ _ => some .read
  | _ => none

def ClientAt.exchange : ClientAt → Option Exchange
  | .idle => none
  | .waiting call _ _ => call.exchange

/-- The exchange in which the server waits for client `c`. -/
def ServerAt.exchange (c : Nat) : ServerAt → Option Exchange
  | .write s inum block => if s.client = c then some (.write inum block) else none
  | .read s _ => if s.client = c then some .read else none
  | _ => none

/-! ## The rules -/

section
variable {σ : Type}

/-- The rules, as a condition on a step and the world before it. -/
def Calm (w : World σ) : Event → Prop
  | .call c call _ => call.exchange ≠ none → w.Quiet c
  | .timeout c => (w.clients c).exchange ≠ none → w.Quiet c
  | .answer i _ => ∀ d ∈ w.up[i]?, w.server.peer = some d.client
  | .expire => ∀ c ∈ w.server.peer, w.Clear c
  | _ => True

instance (w : World σ) : ∀ e, Decidable (Calm w e)
  | .call c call _ => inferInstanceAs (Decidable (call.exchange ≠ none → w.Quiet c))
  | .timeout c => inferInstanceAs (Decidable ((w.clients c).exchange ≠ none → w.Quiet c))
  | .answer i _ => inferInstanceAs (Decidable (∀ d ∈ w.up[i]?, w.server.peer = some d.client))
  | .expire => inferInstanceAs (Decidable (∀ c ∈ w.server.peer, w.Clear c))
  | .reply _ _ | .dispatch _ _ | .loseUp _ | .loseDown _ => inferInstanceAs (Decidable True)

end

/-! ## The phases -/

/-- `main` takes the message for this call, or ignores it. -/
def Parses (call : Call Name Packet) (m : Packet) : Prop :=
  parse m.bytes = .ignored ∨ parse m.bytes = .call (call.map nextName fun _ => ())

/-- The message of an exchange. -/
def Asks (call : Call Name Packet) (m : Packet) : Prop := call.exchange ≠ none ∧ Parses call m

/-- A request that is answered in one step. -/
def Simple (d : Datagram) : Prop :=
  d.origin.kind = .request
    ∧ ∃ call : Call Name Packet, call.exchange = none ∧ Parses call d.packet

/--
Where a client is, what is under way to the server and back, and what the server is
waiting for.
-/
inductive Phase : ClientAt → List Datagram → List Datagram → Option Exchange → Prop where
  /-- In no exchange. -/
  | simple {a : ClientAt} {up down : List Datagram} (ha : a.exchange = none)
      (hup : ∀ d ∈ up, Simple d) : Phase a up down none
  /-- Something was lost. -/
  | lost {call : Call Name Packet} {stage : Stage} {m : Packet} {x : Option Exchange}
      (hm : Asks call m) (hx : x = none ∨ x = call.exchange) :
      Phase (.waiting call stage m) [] [] x
  | asked {call : Call Name Packet} {m : Packet} {d : Datagram}
      (hm : Asks call m) (hd : d.packet = m) (hk : d.origin.kind = .request) :
      Phase (.waiting call .first m) [d] [] none
  /-- The server waits for the second datagram, which the client does not know yet. -/
  | acked {call : Call Name Packet} {m : Packet} {d : Datagram} {x : Option Exchange}
      (hm : Asks call m) (hd : atoi (cstr d.packet.bytes) = 0) (hx : x = call.exchange) :
      Phase (.waiting call .first m) [] [d] x
  | sent {call : Call Name Packet} {m : Packet} {d : Datagram} {x : Option Exchange}
      (hm : Asks call m)
      (hd : (ClientAt.waiting call .second m).sends = some (d.packet, d.origin.kind))
      (hx : x = call.exchange) : Phase (.waiting call .second m) [d] [] x
  /-- The server is done, or has nothing to read. -/
  | done {call : Call Name Packet} {stage : Stage} {m : Packet} {d : Datagram} (hm : Asks call m)
      (hd : stage = .first → call.exchange = some .read ∧ atoi (cstr d.packet.bytes) ≠ 0) :
      Phase (.waiting call stage m) [] [d] none

variable {a : ClientAt} {up down xs ys : List Datagram} {d : Datagram} {x : Option Exchange}
variable {call : Call Name Packet} {stage : Stage} {m : Packet}

theorem parse_readSecond (buf : Packet) : parse (buf.print readSecond).bytes = .ignored := by
  have hcstr : cstr (buf.print readSecond).bytes = readSecond :=
    cstr_snprintf (by decide) (by decide)
  have hpart : nextInt [50] = fun k => k 2 [] := funext (nextInt_printInt_last 2)
  rw [parse_letter (by decide) hcstr]
  simp [parseCall, hpart]

theorem parses_of_prints (hacc : call.Accepted) (h : call.Prints m) : Parses call m := by
  obtain ⟨buf, rfl | ⟨_, rfl⟩⟩ := h
  · exact Or.inr (parse_message hacc buf)
  · exact Or.inl (parse_readSecond buf)

theorem atoi_print (buf : Packet) (rtn : Int32) :
    atoi (cstr (buf.print (printInt rtn)).bytes) = rtn := by
  have hlen := length_printInt rtn
  have hcstr : cstr (buf.print (printInt rtn)).bytes = printInt rtn :=
    cstr_snprintf (zero_notMem_printInt rtn) (by omega)
  rw [hcstr, atoi_printInt]

/-! ## What `processConnection` does in each -/

section
variable {σ : Type} {F : Files σ} {s : Origin} {buf input : Packet} {fs : σ}

theorem exchange_finish (r : Option (Int32 × σ)) (c : Nat) :
    (finish buf r fs).2.1.exchange c = none := by
  cases r with
  | none => rfl
  | some r => rfl

theorem processConnection_simple (hx : call.exchange = none) (hm : Parses call input) (c : Nat) :
    (processConnection F s buf input fs).2.1.exchange c = none := by
  rcases hm with hignored | hparse
  · rw [processConnection, hignored]
    rfl
  · rw [processConnection, hparse]
    cases call with
    | init => rfl
    | lookup pinum name => exact exchange_finish ..
    | stat inum => rfl
    | write inum buffer block => cases hx
    | read inum block => cases hx
    | creat pinum type name => exact exchange_finish ..
    | unlink pinum name => exact exchange_finish ..
    | shutdown => rfl

/-- The request of an exchange is ignored, or refused, or the server goes on to wait. -/
theorem processConnection_asks (hm : Asks call input) {reply : Option Packet} {server : ServerAt}
    {fs' : σ} (h : processConnection F s buf input fs = (reply, server, fs')) :
    ((∀ c, server.exchange c = none) ∧ ∀ p, reply = some p →
        call.exchange = some .read ∧ atoi (cstr p.bytes) ≠ 0)
      ∨ (∀ c, server.exchange c = if s.client = c then call.exchange else none)
        ∧ ∃ p, reply = some p ∧ atoi (cstr p.bytes) = 0 := by
  obtain ⟨hx, hignored | hparse⟩ := hm
  · rw [processConnection, hignored] at h
    cases h
    exact Or.inl ⟨fun c => rfl, fun p hp => by cases hp⟩
  · rw [processConnection, hparse] at h
    cases call with
    | write inum buffer block =>
        cases h
        exact Or.inr ⟨fun c => rfl, _, rfl, atoi_print buf 0⟩
    | read inum block =>
        dsimp only [Call.map] at h
        rcases F.fsRead_rtn inum block fs with hrtn | hrtn
        · rw [hrtn, if_pos (by decide)] at h
          cases h
          exact Or.inr ⟨fun c => rfl, _, rfl, atoi_print buf 0⟩
        · rw [hrtn, if_neg (by decide)] at h
          cases h
          refine Or.inl ⟨fun c => rfl, fun p hp => ?_⟩
          rw [← Option.some.inj hp, atoi_print]
          exact ⟨rfl, by decide⟩
    | init => exact absurd rfl hx
    | lookup pinum name => exact absurd rfl hx
    | stat inum => exact absurd rfl hx
    | creat pinum type name => exact absurd rfl hx
    | unlink pinum name => exact absurd rfl hx
    | shutdown => exact absurd rfl hx

end

theorem onReply_simple (r : Packet) (hx : call.exchange = none) :
    (ClientAt.waiting call stage m).onReply r = .idle := by
  cases call with
  | write inum buffer block => cases hx
  | read inum block => cases hx
  | _ => rfl

theorem onReply_second (r : Packet) : (ClientAt.waiting call .second m).onReply r = .idle := by
  cases call <;> rfl

theorem onTimeout_eq (h : call ≠ .shutdown) :
    (ClientAt.waiting call stage m).onTimeout = .waiting call .first m := by
  cases call with
  | shutdown => exact absurd rfl h
  | _ => rfl

/-! ## From phase to phase -/

namespace Phase

theorem loseUp (h : Phase a (xs ++ d :: ys) down x) : Phase a (xs ++ ys) down x := by
  generalize hl : xs ++ d :: ys = up at h
  cases h with
  | simple ha hup =>
      subst hl
      exact .simple ha fun d' hd' => hup d' (mem_append_cons_of_mem hd')
  | lost => exact absurd hl append_cons_ne_nil
  | asked hm hd hk =>
      obtain ⟨rfl, rfl, rfl⟩ := eq_of_append_cons_eq_singleton hl
      exact .lost hm (Or.inl rfl)
  | acked => exact absurd hl append_cons_ne_nil
  | sent hm hd hx =>
      obtain ⟨rfl, rfl, rfl⟩ := eq_of_append_cons_eq_singleton hl
      exact .lost hm (Or.inr hx)
  | done => exact absurd hl append_cons_ne_nil

theorem loseDown (h : Phase a up (xs ++ d :: ys) x) : Phase a up (xs ++ ys) x := by
  generalize hl : xs ++ d :: ys = down at h
  cases h with
  | simple ha hup => exact .simple ha hup
  | lost => exact absurd hl append_cons_ne_nil
  | asked => exact absurd hl append_cons_ne_nil
  | acked hm hd hx =>
      obtain ⟨rfl, rfl, rfl⟩ := eq_of_append_cons_eq_singleton hl
      exact .lost hm (Or.inr hx)
  | sent => exact absurd hl append_cons_ne_nil
  | done hm hd =>
      obtain ⟨rfl, rfl, rfl⟩ := eq_of_append_cons_eq_singleton hl
      exact .lost hm (Or.inl rfl)

/-- The server gives up. -/
theorem expire (h : Phase a [] [] x) : Phase a [] [] none := by
  cases h with
  | simple ha hup => exact .simple ha hup
  | lost hm hx => exact .lost hm (Or.inl rfl)

/-- A client in no exchange. -/
theorem of_simple (h : Phase a up down x) (ha : a.exchange = none) :
    x = none ∧ ∀ d ∈ up, Simple d := by
  cases h with
  | simple _ hup => exact ⟨rfl, hup⟩
  | lost hm => exact absurd ha hm.1
  | asked hm => exact absurd ha hm.1
  | acked hm => exact absurd ha hm.1
  | sent hm => exact absurd ha hm.1
  | done hm => exact absurd ha hm.1

/-- The client sends its message, at first or again. -/
theorem ask (h : Phase a up down x) (hm : Parses call m)
    (hsimple : call.exchange = none → a.exchange = none)
    (hquiet : call.exchange ≠ none → up = [] ∧ down = [] ∧ x = none)
    (hd : d.packet = m) (hk : d.origin.kind = .request) :
    Phase (.waiting call .first m) (up ++ [d]) down x := by
  by_cases hx : call.exchange = none
  · obtain ⟨rfl, hup⟩ := h.of_simple (hsimple hx)
    refine .simple hx fun d' hd' => ?_
    rcases List.mem_append.mp hd' with hd' | hd'
    · exact hup d' hd'
    · rw [List.mem_singleton.mp hd']
      exact ⟨hk, call, hx, hd ▸ hm⟩
  · obtain ⟨rfl, rfl, rfl⟩ := hquiet hx
    exact .asked ⟨hx, hm⟩ hd hk

/-- The client reads a reply. -/
theorem reply (c n : Nat) (h : Phase (.waiting call stage m) up (xs ++ d :: ys) x) :
    Phase ((ClientAt.waiting call stage m).onReply d.packet)
      (up ++ (((ClientAt.waiting call stage m).onReply d.packet).sends.map
        fun p => (⟨p.1, c, n, p.2⟩ : Datagram)).toList) (xs ++ ys) x := by
  generalize hl : xs ++ d :: ys = down at h
  cases h with
  | simple ha hup =>
      rw [onReply_simple d.packet ha]
      refine .simple rfl ?_
      show ∀ d' ∈ up ++ [], Simple d'
      rwa [List.append_nil]
  | lost => exact absurd hl append_cons_ne_nil
  | asked => exact absurd hl append_cons_ne_nil
  | sent => exact absurd hl append_cons_ne_nil
  | acked hm hd hx =>
      obtain ⟨rfl, rfl, rfl⟩ := eq_of_append_cons_eq_singleton hl
      cases call with
      | write inum buffer block =>
          rw [ClientAt.onReply, if_neg (not_not_intro hd)]
          exact .sent hm rfl hx
      | read inum block =>
          rw [ClientAt.onReply, if_neg (not_not_intro hd)]
          exact .sent ⟨hm.1, Or.inl (parse_readSecond m)⟩ rfl hx
      | _ => exact absurd rfl hm.1
  | done hm hd =>
      obtain ⟨rfl, rfl, rfl⟩ := eq_of_append_cons_eq_singleton hl
      have hidle : (ClientAt.waiting call stage m).onReply d.packet = .idle := by
        cases stage with
        | second => exact onReply_second d.packet
        | first =>
            obtain ⟨hread, hne⟩ := hd rfl
            cases call with
            | read inum block => rw [ClientAt.onReply, if_pos hne]
            | _ => cases hread
      rw [hidle]
      exact .simple rfl fun d' hd' => absurd hd' List.not_mem_nil

/-- The server's loop reads a datagram. -/
theorem dispatch {σ : Type} {F : Files σ} {buf : Packet} {fs fs' : σ} {reply : Option Packet}
    {server : ServerAt} (h : Phase a (xs ++ d :: ys) down none)
    (hproc : processConnection F d.origin buf d.packet fs = (reply, server, fs')) :
    d.origin.kind = .request
      ∧ Phase a (xs ++ ys) (down ++ (reply.map fun p => (⟨p, d.origin⟩ : Datagram)).toList)
        (server.exchange d.client)
      ∧ ∀ c, c ≠ d.client → server.exchange c = none := by
  generalize hl : xs ++ d :: ys = up at h
  cases h with
  | simple ha hup =>
      subst hl
      obtain ⟨hk, call, hx, hparse⟩ := hup d (List.mem_append_right _ (List.mem_cons_self ..))
      have hserver := @processConnection_simple call σ F d.origin buf d.packet fs hx hparse
      rw [hproc] at hserver
      refine ⟨hk, ?_, fun c _ => hserver c⟩
      rw [hserver d.client]
      exact .simple ha fun d' hd' => hup d' (mem_append_cons_of_mem hd')
  | lost => exact absurd hl append_cons_ne_nil
  | acked => exact absurd hl append_cons_ne_nil
  | done => exact absurd hl append_cons_ne_nil
  | sent hm hd hx => exact absurd hx.symm hm.1
  | asked hm hd hk =>
      obtain ⟨rfl, rfl, rfl⟩ := eq_of_append_cons_eq_singleton hl
      rw [hd] at hproc
      rcases processConnection_asks hm hproc with ⟨hserver, hreply⟩ | ⟨hserver, p, hp, hzero⟩
      · refine ⟨hk, ?_, fun c _ => hserver c⟩
        rw [hserver d.client]
        cases reply with
        | none => exact .lost hm (Or.inl rfl)
        | some p => exact .done hm fun _ => hreply p rfl
      · refine ⟨hk, ?_, fun c hc => ?_⟩
        · rw [hp]
          exact .acked hm hzero (by rw [hserver]; exact if_pos rfl)
        · rw [hserver]
          exact if_neg (Ne.symm hc)

/-- The server, waiting for this client, reads a datagram of it: its second. -/
theorem answer (h : Phase a (xs ++ d :: ys) down x) (hx : x ≠ none) :
    (∃ call m, a = .waiting call .second m ∧ call.exchange = x
        ∧ a.sends = some (d.packet, d.origin.kind))
      ∧ ∀ reply : Option Datagram, Phase a (xs ++ ys) (down ++ reply.toList) none := by
  generalize hl : xs ++ d :: ys = up at h
  cases h with
  | simple => exact absurd rfl hx
  | lost => exact absurd hl append_cons_ne_nil
  | acked => exact absurd hl append_cons_ne_nil
  | done => exact absurd rfl hx
  | asked => exact absurd rfl hx
  | sent hm hd hcall =>
      obtain ⟨rfl, rfl, rfl⟩ := eq_of_append_cons_eq_singleton hl
      refine ⟨⟨_, _, rfl, hcall.symm, hd⟩, fun reply => ?_⟩
      cases reply with
      | none => exact .lost hm (Or.inl rfl)
      | some r => exact .done hm fun hfirst => by cases hfirst

end Phase

/-! ## All clients at once -/

section
variable {σ : Type} {F : Files σ} {w w' : World σ} {c i : Nat} {buf : Packet}

/-- Every client is in one of the phases. -/
def InStep (w : World σ) : Prop :=
  ∀ c, Phase (w.clients c) (own Datagram.client w.up c) (own Datagram.client w.down c)
    (w.server.exchange c)

theorem own_sent_self (w : World σ) (c : Nat) (a : ClientAt) :
    own Datagram.client (w.sent c a) c = w.sent c a := by
  refine own_eq_self fun d hd => ?_
  obtain ⟨p, _, rfl⟩ := Option.map_eq_some_iff.mp (Option.mem_toList.mp hd)
  rfl

theorem own_sent_ne {c' : Nat} (w : World σ) (a : ClientAt) (hc : c' ≠ c) :
    own Datagram.client (w.sent c a) c' = [] := by
  refine own_eq_nil.mpr fun d hd => ?_
  obtain ⟨p, _, rfl⟩ := Option.map_eq_some_iff.mp (Option.mem_toList.mp hd)
  exact Ne.symm hc

/-- A step of client `c` leaves the others alone. -/
theorem phase_move {a : ClientAt}
    (h : ∀ c', c' ≠ c → Phase (w.clients c') (own Datagram.client w.up c')
      (own Datagram.client w.down c') (w.server.exchange c'))
    (hc : Phase a (own Datagram.client w.up c ++ w.sent c a) (own Datagram.client w.down c)
      (w.server.exchange c)) :
    InStep (w.move c a) := by
  intro c'
  show Phase (Function.update w.clients c a c') (own Datagram.client (w.up ++ w.sent c a) c')
    (own Datagram.client w.down c') (w.server.exchange c')
  rw [own_append]
  by_cases hcc : c' = c
  · subst hcc
    rw [Function.update_self, own_sent_self]
    exact hc
  · rw [Function.update_of_ne hcc, own_sent_ne w a hcc, List.append_nil]
    exact h c' hcc

theorem sent_first (w : World σ) (c : Nat) (call : Call Name Packet) (m : Packet) :
    w.sent c (.waiting call .first m) = [⟨m, c, (w.calls c).length, .request⟩] := by
  cases call <;> rfl

theorem exchange_eq_none {server : ServerAt} : server.exchange c = none ↔ server.peer ≠ some c := by
  cases server with
  | loop => exact ⟨fun _ h => (by cases h), fun _ => rfl⟩
  | dead => exact ⟨fun _ h => (by cases h), fun _ => rfl⟩
  | write s inum block => simp [ServerAt.exchange, ServerAt.peer, ServerAt.sender]
  | read s data => simp [ServerAt.exchange, ServerAt.peer, ServerAt.sender]

theorem own_of_clear (h : w.Clear c) :
    own Datagram.client w.up c = [] ∧ own Datagram.client w.down c = [] :=
  ⟨own_eq_nil.mpr h.1, own_eq_nil.mpr h.2⟩

theorem own_of_quiet (h : w.Quiet c) :
    own Datagram.client w.up c = [] ∧ own Datagram.client w.down c = []
      ∧ w.server.exchange c = none :=
  ⟨(own_of_clear h.1).1, (own_of_clear h.1).2, exchange_eq_none.mpr h.2⟩

theorem inStep_call {call : Call Name Packet} (h : InStep w)
    (hcalm : call.exchange ≠ none → w.Quiet c)
    (hexec : w.exec F (.call c call buf) = some w') : InStep w' := by
  obtain ⟨hidle, hacc, rfl⟩ := World.exec_call hexec
  refine phase_move (fun c' _ => h c') ?_
  rw [sent_first]
  exact (h c).ask (Or.inr (parse_message hacc buf)) (fun _ => by rw [hidle]; rfl)
    (fun hx => own_of_quiet (hcalm hx)) rfl rfl

theorem inStep_timeout (h : InStep w) (ht : Tagged w)
    (hcalm : (w.clients c).exchange ≠ none → w.Quiet c)
    (hexec : w.exec F (.timeout c) = some w') : InStep w' := by
  obtain ⟨call, stage, m, hat, rfl⟩ := World.exec_timeout hexec
  obtain ⟨_, hacc, hm⟩ := ht.waiting c call stage m hat
  have hphase := h c
  rw [hat] at hphase hcalm
  refine phase_move (fun c' _ => h c') ?_
  by_cases hshut : call = .shutdown
  · -- `MFS_Shutdown` returns
    subst hshut
    obtain ⟨hx, hup⟩ := hphase.of_simple rfl
    rw [hx]
    refine .simple rfl fun d hd => hup d ?_
    rcases List.mem_append.mp hd with hd | hd
    · exact hd
    · exact absurd hd List.not_mem_nil
  · rw [onTimeout_eq hshut, sent_first]
    exact hphase.ask (parses_of_prints hacc hm) (fun hx => hx) (fun hx => own_of_quiet (hcalm hx))
      rfl rfl

theorem inStep_reply (h : InStep w) (hexec : w.exec F (.reply c i) = some w') : InStep w' := by
  obtain ⟨call, stage, m, d, hat, hd, rfl, w₀, rfl, rfl⟩ := World.exec_reply hexec
  have hphase := h d.client
  obtain ⟨xs, ys, hown, herase⟩ := @own_eraseIdx_self _ _ _ Datagram.client _ _ _ hd
  rw [hat, hown] at hphase
  refine phase_move (fun c' hc' => ?_) ?_
  · show Phase (w.clients c') (own Datagram.client w.up c')
      (own Datagram.client (w.down.eraseIdx i) c') (w.server.exchange c')
    rw [own_eraseIdx_ne hd (Ne.symm hc')]
    exact h c'
  · show Phase _ _ (own Datagram.client (w.down.eraseIdx i) d.client) _
    rw [herase]
    exact hphase.reply d.client (w.calls d.client).length

/-- The replies of the server, as those of one client. -/
theorem own_reply (reply : Option Packet) (s : Origin) (c : Nat) :
    own Datagram.client (reply.map fun p => (⟨p, s⟩ : Datagram)).toList c
      = if s.client = c then (reply.map fun p => (⟨p, s⟩ : Datagram)).toList else [] := by
  cases reply with
  | none => exact (ite_self _).symm
  | some p =>
      split
      · rename_i hc
        exact own_eq_self fun d hd => by rw [List.mem_singleton.mp hd]; exact hc
      · rename_i hc
        exact own_eq_nil.mpr fun d hd => by rw [List.mem_singleton.mp hd]; exact hc

/-- The server reads a datagram of client `s.client` and may reply to it; the others notice nothing. -/
theorem phase_respond {server : ServerAt} {reply : Option Packet} {s : Origin} {d : Datagram}
    (h : InStep w) (hd : w.up[i]? = some d) (hs : d.client = s.client)
    (hother : ∀ c, c ≠ s.client → server.exchange c = w.server.exchange c)
    (hself : Phase (w.clients s.client) (own Datagram.client (w.up.eraseIdx i) s.client)
      (own Datagram.client w.down s.client ++ (reply.map fun p => (⟨p, s⟩ : Datagram)).toList)
      (server.exchange s.client)) (c : Nat) :
    Phase (w.clients c) (own Datagram.client (w.up.eraseIdx i) c)
      (own Datagram.client (w.down ++ (reply.map fun p => (⟨p, s⟩ : Datagram)).toList) c)
      (server.exchange c) := by
  rw [own_append, own_reply]
  by_cases hc : c = s.client
  · rw [hc, if_pos rfl]
    exact hself
  · rw [own_eraseIdx_ne hd (by rw [hs]; exact Ne.symm hc), if_neg (Ne.symm hc), List.append_nil,
      hother c hc]
    exact h c

theorem inStep_dispatch (h : InStep w) (hexec : w.exec F (.dispatch i buf) = some w') :
    InStep w' ∧ ∃ d, w'.dispatched = w.dispatched ++ [d] ∧ d.origin.kind = .request := by
  obtain ⟨d, hloop, hd, reply, server, fs, hproc, rfl⟩ := World.exec_dispatch hexec
  obtain ⟨xs, ys, hown, herase⟩ := @own_eraseIdx_self _ _ _ Datagram.client _ _ _ hd
  have hphase := h d.client
  rw [hloop, hown] at hphase
  obtain ⟨hkind, hself, hother⟩ := hphase.dispatch hproc
  rw [← herase] at hself
  have hothers : ∀ c, c ≠ d.client → server.exchange c = w.server.exchange c := by
    intro c hc
    rw [hother c hc, hloop]
    rfl
  exact ⟨phase_respond h hd rfl hothers hself, d, rfl, hkind⟩

/-- What is written is the buffer of a call that the client has made. -/
theorem inStep_answer (h : InStep w) (ht : Tagged w)
    (hcalm : ∀ d ∈ w.up[i]?, w.server.peer = some d.client)
    (hexec : w.exec F (.answer i buf) = some w') :
    InStep w' ∧ ∀ x ∈ w'.written, x ∈ w.written ∨ ∃ c, .write x.1 x.2.1 x.2.2 ∈ w.calls c := by
  obtain ⟨d, s, reply, server, fs, written, hd, hserver, hfree, rfl⟩ := World.exec_answer hexec
  have hpeer := hcalm d hd
  have hx : w.server.exchange d.client ≠ none := fun h => exchange_eq_none.mp h hpeer
  have hs : d.client = s.client := by
    rcases hserver with ⟨inum, block, hwait, _⟩ | ⟨⟨data, hwait⟩, _⟩
    · rw [hwait] at hpeer
      exact (Option.some.inj hpeer).symm
    · rw [hwait] at hpeer
      exact (Option.some.inj hpeer).symm
  have hnone : ∀ c, server.exchange c = none := by
    intro c
    rcases hfree with rfl | rfl
    · rfl
    · rfl
  obtain ⟨xs, ys, hown, herase⟩ := @own_eraseIdx_self _ _ _ Datagram.client _ _ _ hd
  have hphase := h d.client
  rw [hown] at hphase
  obtain ⟨⟨call, m, hat, hcall, hsends⟩, hself⟩ := hphase.answer hx
  have hothers : ∀ c, c ≠ s.client → server.exchange c = w.server.exchange c := by
    intro c hc
    rw [hnone, exchange_eq_none.mpr]
    rw [hpeer, hs]
    exact fun h => hc (Option.some.inj h).symm
  have hdone := hself (reply.map fun p => ⟨p, s⟩)
  rw [← herase, hs, ← hnone s.client] at hdone
  refine ⟨phase_respond h hd hs hothers hdone, fun x hmem => ?_⟩
  change x ∈ written at hmem
  rcases hserver with ⟨inum, block, hwait, hwritten⟩ | ⟨_, hwritten⟩
  · rw [hwritten] at hmem
    rcases List.mem_append.mp hmem with hmem | hmem
    · exact Or.inl hmem
    · -- the server waits for the data of just this call
      right
      rw [List.mem_singleton.mp hmem]
      have hexchange : call.exchange = some (.write inum block) := by
        rw [hcall, hwait]
        exact if_pos hs.symm
      cases call with
      | write inum' buffer block' =>
          cases hexchange
          rw [hat] at hsends
          have hdata : buffer = d.packet := congrArg Prod.fst (Option.some.inj hsends)
          refine ⟨d.client, ?_⟩
          rw [← hdata]
          exact List.mem_of_getElem? (ht.waiting d.client _ _ _ hat).1
      | _ => cases hexchange
  · rw [hwritten] at hmem
    exact Or.inl hmem

theorem inStep_expire (h : InStep w) (hcalm : ∀ c ∈ w.server.peer, w.Clear c)
    (hexec : w.exec F .expire = some w') : InStep w' := by
  rw [World.exec_expire hexec]
  intro c
  have hphase := h c
  show Phase (w.clients c) (own Datagram.client w.up c) (own Datagram.client w.down c) none
  by_cases hx : w.server.exchange c = none
  · rwa [hx] at hphase
  · rw [exchange_eq_none, not_not] at hx
    obtain ⟨hup, hdown⟩ := own_of_clear (hcalm c hx)
    rw [hup, hdown] at hphase ⊢
    exact hphase.expire

theorem inStep_loseUp (h : InStep w) (hexec : w.exec F (.loseUp i) = some w') : InStep w' := by
  obtain ⟨d, hd, rfl⟩ := World.exec_loseUp hexec
  intro c
  show Phase (w.clients c) (own Datagram.client (w.up.eraseIdx i) c)
    (own Datagram.client w.down c) (w.server.exchange c)
  by_cases hc : d.client = c
  · subst hc
    obtain ⟨xs, ys, hown, herase⟩ := @own_eraseIdx_self _ _ _ Datagram.client _ _ _ hd
    have hphase := h d.client
    rw [hown] at hphase
    rw [herase]
    exact hphase.loseUp
  · rw [own_eraseIdx_ne hd hc]
    exact h c

theorem inStep_loseDown (h : InStep w) (hexec : w.exec F (.loseDown i) = some w') : InStep w' := by
  obtain ⟨d, hd, rfl⟩ := World.exec_loseDown hexec
  intro c
  show Phase (w.clients c) (own Datagram.client w.up c)
    (own Datagram.client (w.down.eraseIdx i) c) (w.server.exchange c)
  by_cases hc : d.client = c
  · subst hc
    obtain ⟨xs, ys, hown, herase⟩ := @own_eraseIdx_self _ _ _ Datagram.client _ _ _ hd
    have hphase := h d.client
    rw [hown] at hphase
    rw [herase]
    exact hphase.loseDown
  · rw [own_eraseIdx_ne hd hc]
    exact h c

/-! ## What is written, and what is executed -/

/-- What the server has written is the buffer of a call with the same arguments. -/
def World.Genuine (w : World σ) : Prop :=
  ∀ x ∈ w.written, ∃ c, .write x.1 x.2.1 x.2.2 ∈ w.calls c

/-- What the server has taken for a command is a message that the library printed for a call. -/
def World.Commands (w : World σ) : Prop :=
  ∀ d ∈ w.dispatched, d.origin.kind = .request
    ∧ ∃ call, w.callOf d.origin = some call ∧ call.Prints d.packet

structure Good (w : World σ) : Prop where
  tagged : Tagged w
  inStep : InStep w
  genuine : w.Genuine
  requests : ∀ d ∈ w.dispatched, d.origin.kind = .request

theorem good_init (fs : σ) : Good (World.init fs) where
  tagged := tagged_init fs
  inStep := fun _ => .simple rfl fun _ hd => absurd hd List.not_mem_nil
  genuine := fun _ hx => absurd hx List.not_mem_nil
  requests := fun _ hd => absurd hd List.not_mem_nil

theorem good_step {e : Event} (h : Good w) (hcalm : Calm w e) (hexec : w.exec F e = some w') :
    Good w' := by
  have ht := tagged_step h.tagged hexec
  cases e with
  | call c call buf =>
      have hin := inStep_call h.inStep hcalm hexec
      obtain ⟨_, _, rfl⟩ := World.exec_call hexec
      refine ⟨ht, hin, fun x hx => ?_, h.requests⟩
      obtain ⟨c', hmem⟩ := h.genuine x hx
      obtain ⟨n, hn⟩ := List.mem_iff_getElem?.mp hmem
      exact ⟨c', List.mem_of_getElem? (calls_kept hn)⟩
  | timeout c =>
      have hin := inStep_timeout h.inStep h.tagged hcalm hexec
      obtain ⟨_, _, _, _, rfl⟩ := World.exec_timeout hexec
      exact ⟨ht, hin, h.genuine, h.requests⟩
  | reply c i =>
      have hin := inStep_reply h.inStep hexec
      obtain ⟨_, _, _, _, _, _, _, _, rfl, rfl⟩ := World.exec_reply hexec
      exact ⟨ht, hin, h.genuine, h.requests⟩
  | dispatch i buf =>
      obtain ⟨hin, d, hdispatched, hkind⟩ := inStep_dispatch h.inStep hexec
      refine ⟨ht, hin, ?_, fun d' hd' => ?_⟩
      · obtain ⟨_, _, _, _, _, _, _, rfl⟩ := World.exec_dispatch hexec
        exact h.genuine
      · rw [hdispatched] at hd'
        rcases List.mem_append.mp hd' with hd' | hd'
        · exact h.requests d' hd'
        · rw [List.mem_singleton.mp hd']
          exact hkind
  | answer i buf =>
      obtain ⟨hin, hwritten⟩ := inStep_answer h.inStep h.tagged hcalm hexec
      obtain ⟨_, _, _, _, _, _, _, _, _, rfl⟩ := World.exec_answer hexec
      refine ⟨ht, hin, fun x hx => ?_, h.requests⟩
      rcases hwritten x hx with hold | hnew
      · exact h.genuine x hold
      · exact hnew
  | expire =>
      have hin := inStep_expire h.inStep hcalm hexec
      rw [World.exec_expire hexec] at ht hin ⊢
      exact ⟨ht, hin, h.genuine, h.requests⟩
  | loseUp i =>
      have hin := inStep_loseUp h.inStep hexec
      obtain ⟨_, _, rfl⟩ := World.exec_loseUp hexec
      exact ⟨ht, hin, h.genuine, h.requests⟩
  | loseDown i =>
      have hin := inStep_loseDown h.inStep hexec
      obtain ⟨_, _, rfl⟩ := World.exec_loseDown hexec
      exact ⟨ht, hin, h.genuine, h.requests⟩

theorem good_of_reaches (h : Reaches F Calm w) : Good w := h.induct good_init good_step

/-- While the rules are kept, the server writes what the writer gave it. -/
theorem written_genuine (F : Files σ) (w : World σ) (h : Reaches F Calm w) : w.Genuine :=
  (good_of_reaches h).genuine

/-- One `MFS_Write`, undisturbed. -/
def writeOnce : List Event :=
  connect 0 ++ [.call 0 (.write 0 .zero 0) .zero, .dispatch 0 .zero, .reply 0 0, .answer 0 .zero,
    .reply 0 0]

theorem written_genuine_once :
    ∃ w, Reaches refusing Calm w ∧ w.written = [(0, Packet.zero, 0)] ∧ w.Genuine := by
  have hrun : (runIf refusing Calm (World.init ()) writeOnce).map (·.written)
      = some [(0, Packet.zero, 0)] := rfl
  obtain ⟨w, hw, hwritten⟩ := Option.map_eq_some_iff.mp hrun
  have hreach := (Reaches.init ()).run hw
  exact ⟨w, hreach, hwritten, written_genuine refusing w hreach⟩

/-- A request of client 1 arrives while the server waits for the data of client 0. -/
def writeDisturbed : List Event :=
  connect 0 ++ connect 1 ++ [.call 0 (.write 0 .zero 0) .zero, .dispatch 0 .zero,
    .call 1 (.lookup 0 [97]) .zero, .answer 0 .zero]

/-- It is written to the file. -/
theorem written_not_genuine :
    ∃ w, Reaches refusing (fun _ _ => True) w
      ∧ w.written = [(0, Packet.zero.print [76, colon, 48, colon, 97], 0)] ∧ ¬w.Genuine := by
  have hrun : (runIf refusing (fun _ _ => True) (World.init ()) writeDisturbed).map
        (fun w => (w.written, w.calls))
      = some ([(0, Packet.zero.print [76, colon, 48, colon, 97], 0)],
        Function.update (Function.update (Function.update (Function.update (fun _ => [])
          0 [.init]) 1 [.init]) 0 [.init, .write 0 .zero 0]) 1 [.init, .lookup 0 [97]]) := rfl
  obtain ⟨w, hw, heq⟩ := Option.map_eq_some_iff.mp hrun
  obtain ⟨hwritten, hcalls⟩ := Prod.mk.inj heq
  refine ⟨w, (Reaches.init ()).run hw, hwritten, fun hgenuine => ?_⟩
  rw [World.Genuine, hwritten] at hgenuine
  obtain ⟨c, hc⟩ := hgenuine _ (List.mem_singleton_self _)
  have hdata : Packet.zero ≠ Packet.zero.print [76, colon, 48, colon, 97] := by
    intro h
    have hhead := congrArg (fun p => p.bytes.head?) h
    revert hhead
    decide
  rw [hcalls] at hc
  by_cases h1 : c = 1
  · subst h1
    rw [Function.update_self] at hc
    simp at hc
  · rw [Function.update_of_ne h1] at hc
    by_cases h0 : c = 0
    · subst h0
      rw [Function.update_self] at hc
      simp [hdata.symm] at hc
    · simp [Function.update_of_ne, h0, h1] at hc

/-- And while they are kept, it executes no data. -/
theorem data_not_executed (F : Files σ) (w : World σ) (h : Reaches F Calm w) : w.Commands := by
  intro d hd
  have hgood := good_of_reaches h
  have hkind := hgood.requests d hd
  obtain ⟨call, hcall, hsends⟩ := hgood.tagged.dispatched d hd
  rw [hkind] at hsends
  exact ⟨hkind, call, hcall, hsends⟩

theorem data_not_executed_once :
    ∃ w, Reaches refusing Calm w ∧ w.dispatched.length = 2 ∧ w.Commands := by
  have hrun : (runIf refusing Calm (World.init ()) writeOnce).map (·.dispatched.length)
      = some 2 := rfl
  obtain ⟨w, hw, hlen⟩ := Option.map_eq_some_iff.mp hrun
  have hreach := (Reaches.init ()).run hw
  exact ⟨w, hreach, hlen, data_not_executed refusing w hreach⟩

/--
The server times out while its acknowledgement is under way, and the data comes too late. It
spells `"E:"`.
-/
def writeLate : List Event :=
  connect 0 ++ [.call 0 (.write 0 (Packet.zero.print [69, colon]) 0) .zero, .dispatch 0 .zero,
    .expire, .reply 0 0, .dispatch 0 .zero]

/-- The server shuts down. -/
theorem data_executed :
    ∃ w, Reaches refusing (fun _ _ => True) w ∧ w.server = .dead
      ∧ w.dispatched.map (·.origin.kind) = [.request, .request, .data] ∧ ¬w.Commands := by
  have hrun : (runIf refusing (fun _ _ => True) (World.init ()) writeLate).map
      (fun w => (w.server, w.dispatched.map (·.origin.kind)))
      = some (.dead, [.request, .request, .data]) := rfl
  obtain ⟨w, hw, heq⟩ := Option.map_eq_some_iff.mp hrun
  obtain ⟨hserver, hkinds⟩ := Prod.mk.inj heq
  refine ⟨w, (Reaches.init ()).run hw, hserver, hkinds, fun hcommands => ?_⟩
  have hdata : Kind.data ∈ w.dispatched.map (·.origin.kind) := by
    rw [hkinds]
    decide
  obtain ⟨d, hd, hkind⟩ := List.mem_map.mp hdata
  rw [(hcommands d hd).1] at hkind
  cases hkind

end

end Cs537.Mfs
