import Cs537.Mfs.Model

/-!
# What the tags mean

A datagram carries the client, the call and the kind it was sent as. The code knows
nothing of this, so it had better be true: in every run, whatever happens in it, a
datagram tagged as a request holds a message that the library printed for that call of
that client, and one tagged as data holds the buffer that the call gave to `MFS_Write`.
-/

namespace Cs537.Mfs

variable {call : Call Name Packet} {stage : Stage} {m : Packet}

/-- `m` is a message that the library prints for the call. -/
def Call.Prints (call : Call Name Packet) (m : Packet) : Prop :=
  ∃ buf : Packet, m = buf.print call.message
    ∨ (∃ inum block, call = .read inum block) ∧ m = buf.print readSecond

/-- The call sends `p` as a datagram of this kind. -/
def Call.Sends (call : Call Name Packet) (p : Packet) : Kind → Prop
  | .request => call.Prints p
  | .data => ∃ inum block, call = .write inum p block

theorem sends_of_waiting {p : Packet} {k : Kind} (hm : call.Prints m)
    (h : (ClientAt.waiting call stage m).sends = some (p, k)) : call.Sends p k := by
  have hrequest : some (m, Kind.request) = some (p, k) → call.Sends p k := by
    intro heq
    cases heq
    exact hm
  cases call with
  | write inum buffer block =>
      cases stage with
      | first => exact hrequest h
      | second =>
          cases h
          exact ⟨inum, block, rfl⟩
  | _ => exact hrequest h

/-- A client that goes on after a reply does so with the same call. -/
theorem onReply_waiting {r m' : Packet} {call' : Call Name Packet} {stage' : Stage}
    (hm : call.Prints m)
    (h : (ClientAt.waiting call stage m).onReply r = .waiting call' stage' m') :
    call' = call ∧ call.Prints m' := by
  cases call with
  | write inum buffer block =>
      cases stage with
      | second => cases h
      | first =>
          rw [ClientAt.onReply] at h
          split at h
          · cases h
          · cases h
            exact ⟨rfl, hm⟩
  | read inum block =>
      cases stage with
      | second => cases h
      | first =>
          rw [ClientAt.onReply] at h
          split at h
          · cases h
          · cases h
            exact ⟨rfl, m, Or.inr ⟨⟨inum, block, rfl⟩, rfl⟩⟩
  | _ => cases h

theorem onTimeout_waiting {m' : Packet} {call' : Call Name Packet} {stage' : Stage}
    (h : (ClientAt.waiting call stage m).onTimeout = .waiting call' stage' m') :
    call' = call ∧ m' = m := by
  cases call with
  | shutdown => cases h
  | _ =>
      cases h
      exact ⟨rfl, rfl⟩

/-! ## In every run -/

section
variable {σ : Type} {F : Files σ} {w w' : World σ} {c : Nat}

/-- The call with this number. -/
def World.callOf (w : World σ) (s : Origin) : Option (Call Name Packet) :=
  (w.calls s.client)[s.call - 1]?

/-- The call named by the tag sends such a datagram. -/
def World.Truthful (w : World σ) (d : Datagram) : Prop :=
  ∃ call, w.callOf d.origin = some call ∧ call.Sends d.packet d.origin.kind

structure Tagged (w : World σ) : Prop where
  waiting : ∀ c call stage m, w.clients c = .waiting call stage m →
    (w.calls c)[(w.calls c).length - 1]? = some call ∧ call.Accepted ∧ call.Prints m
  up : ∀ d ∈ w.up, w.Truthful d
  dispatched : ∀ d ∈ w.dispatched, w.Truthful d

theorem tagged_init (fs : σ) : Tagged (World.init fs) where
  waiting := fun _ _ _ _ hat => by cases hat
  up := fun _ hd => absurd hd List.not_mem_nil
  dispatched := fun _ hd => absurd hd List.not_mem_nil

/-- A new call does not change the numbers of the old ones. -/
theorem calls_kept {calls : Nat → List (Call Name Packet)} {call call' : Call Name Packet}
    {c' n : Nat} (h : (calls c')[n]? = some call') :
    (Function.update calls c (calls c ++ [call]) c')[n]? = some call' := by
  by_cases hcc : c' = c
  · subst hcc
    rw [Function.update_self, List.getElem?_append_left (List.getElem?_eq_some_iff.mp h).1]
    exact h
  · rwa [Function.update_of_ne hcc]

/-- What is true stays true when client `c`, which is in no call, makes one. -/
theorem tagged_calls (h : Tagged w) (hidle : w.clients c = .idle) :
    Tagged { w with calls := Function.update w.calls c (w.calls c ++ [call]) } where
  waiting := fun c' call' stage m hat => by
    have hne : c' ≠ c := by
      intro heq
      subst heq
      change w.clients c' = _ at hat
      rw [hidle] at hat
      cases hat
    show (Function.update w.calls c (w.calls c ++ [call]) c')[
      (Function.update w.calls c (w.calls c ++ [call]) c').length - 1]? = some call' ∧ _
    rw [Function.update_of_ne hne]
    exact h.waiting c' call' stage m hat
  up := fun d hd => by
    obtain ⟨call', hcall, hsends⟩ := h.up d hd
    exact ⟨call', calls_kept hcall, hsends⟩
  dispatched := fun d hd => by
    obtain ⟨call', hcall, hsends⟩ := h.dispatched d hd
    exact ⟨call', calls_kept hcall, hsends⟩

theorem tagged_move {a : ClientAt} (h : Tagged w)
    (ha : ∀ call stage m, a = .waiting call stage m →
      (w.calls c)[(w.calls c).length - 1]? = some call ∧ call.Accepted ∧ call.Prints m) :
    Tagged (w.move c a) where
  waiting := fun c' call stage m hat => by
    change Function.update w.clients c a c' = _ at hat
    by_cases hcc : c' = c
    · subst hcc
      rw [Function.update_self] at hat
      exact ha call stage m hat
    · rw [Function.update_of_ne hcc] at hat
      exact h.waiting c' call stage m hat
  up := fun d hd => by
    rcases List.mem_append.mp hd with hd | hd
    · exact h.up d hd
    · obtain ⟨⟨p, k⟩, hsends, rfl⟩ := Option.map_eq_some_iff.mp (Option.mem_toList.mp hd)
      cases a with
      | idle => cases hsends
      | waiting call stage m =>
          obtain ⟨hcall, _, hm⟩ := ha call stage m rfl
          exact ⟨call, hcall, sends_of_waiting hm hsends⟩
  dispatched := h.dispatched

theorem tagged_step {e : Event} (h : Tagged w) (hexec : w.exec F e = some w') : Tagged w' := by
  cases e with
  | call c call buf =>
      obtain ⟨hidle, hacc, rfl⟩ := World.exec_call hexec
      refine tagged_move (tagged_calls h hidle) fun call' stage m heq => ?_
      cases heq
      refine ⟨?_, hacc, buf, Or.inl rfl⟩
      show (Function.update w.calls c (w.calls c ++ [call]) c)[
        (Function.update w.calls c (w.calls c ++ [call]) c).length - 1]? = some call
      rw [Function.update_self, List.length_append]
      exact List.getElem?_concat_length
  | timeout c =>
      obtain ⟨call, stage, m, hat, rfl⟩ := World.exec_timeout hexec
      refine tagged_move h fun call' stage' m' heq => ?_
      obtain ⟨rfl, rfl⟩ := onTimeout_waiting heq
      exact h.waiting c call' stage m' hat
  | reply c i =>
      obtain ⟨call, stage, m, d, hat, _, rfl, w₀, rfl, rfl⟩ := World.exec_reply hexec
      obtain ⟨hcall, hacc, hm⟩ := h.waiting d.client call stage m hat
      refine tagged_move ⟨h.waiting, h.up, h.dispatched⟩ fun call' stage' m' heq => ?_
      obtain ⟨rfl, hm'⟩ := onReply_waiting hm heq
      exact ⟨hcall, hacc, hm'⟩
  | dispatch i buf =>
      obtain ⟨d, _, hd, _, _, _, _, rfl⟩ := World.exec_dispatch hexec
      refine ⟨h.waiting, fun d' hd' => h.up d' (List.mem_of_mem_eraseIdx hd'), fun d' hd' => ?_⟩
      rcases List.mem_append.mp hd' with hd' | hd'
      · exact h.dispatched d' hd'
      · rw [List.mem_singleton.mp hd']
        exact h.up d (List.mem_of_getElem? hd)
  | answer i buf =>
      obtain ⟨_, _, _, _, _, _, _, _, _, rfl⟩ := World.exec_answer hexec
      exact ⟨h.waiting, fun d' hd' => h.up d' (List.mem_of_mem_eraseIdx hd'), h.dispatched⟩
  | expire =>
      rw [World.exec_expire hexec]
      exact ⟨h.waiting, h.up, h.dispatched⟩
  | loseUp i =>
      obtain ⟨_, _, rfl⟩ := World.exec_loseUp hexec
      exact ⟨h.waiting, fun d' hd' => h.up d' (List.mem_of_mem_eraseIdx hd'), h.dispatched⟩
  | loseDown i =>
      obtain ⟨_, _, rfl⟩ := World.exec_loseDown hexec
      exact ⟨h.waiting, h.up, h.dispatched⟩

theorem tagged_of_reaches {ok : World σ → Event → Prop} (h : Reaches F ok w) : Tagged w :=
  h.induct tagged_init fun hw _ hexec => tagged_step hw hexec

end

end Cs537.Mfs
