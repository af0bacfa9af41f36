import Cs537.Mfs.Model

/-!
# Replies and calls

A client takes the next datagram that arrives for the reply to what it has sent last.
It may have sent the same message several times, and then several replies come back, all
but the first of which are left for later calls. What a call returns is the reply to
itself if nothing of an earlier call is under way when it starts; within a call, messages
may be repeated at will.
-/

namespace Cs537.Mfs

variable {σ : Type} {F : Files σ} {w w' : World σ} {e : Event}

/-- A call starts when nothing of the client is under way and the server does not wait for it. -/
def Fresh (w : World σ) : Event → Prop
  | .call c _ _ => w.Quiet c
  | _ => True

instance (w : World σ) : ∀ e, Decidable (Fresh w e)
  | .call c _ _ => inferInstanceAs (Decidable (w.Quiet c))
  | .timeout _ | .reply _ _ | .dispatch _ _ | .answer _ _ | .expire | .loseUp _ | .loseDown _ =>
      inferInstanceAs (Decidable True)

/-- Every call that has returned has read the reply to a datagram that it has sent itself. -/
def World.Matched (w : World σ) : Prop :=
  ∀ c n d, (c, n, d) ∈ w.returned → d.client = c ∧ d.origin.call = n

/-- The call is the last one its client has made. -/
def World.Last (w : World σ) (s : Origin) : Prop := s.call = (w.calls s.client).length

/-- Nothing is left of earlier calls. -/
structure Current (w : World σ) : Prop where
  up : ∀ d ∈ w.up, w.Last d.origin
  down : ∀ d ∈ w.down, w.Last d.origin
  server : ∀ s ∈ w.server.sender, w.Last s
  matched : w.Matched

theorem last_sent (w : World σ) (c : Nat) (a : ClientAt) : ∀ d ∈ w.sent c a, w.Last d.origin := by
  intro d hd
  obtain ⟨p, _, rfl⟩ := Option.map_eq_some_iff.mp (Option.mem_toList.mp hd)
  rfl

theorem current_move {c : Nat} {a : ClientAt} (h : Current w) : Current (w.move c a) where
  up := fun d hd => by
    rcases List.mem_append.mp hd with hd | hd
    · exact h.up d hd
    · exact last_sent w c a d hd
  down := h.down
  server := h.server
  matched := h.matched

/-- A new call makes everything of its client old, but there is nothing. -/
theorem current_call {c : Nat} {call : Call Name Packet} (h : Current w) (hquiet : w.Quiet c) :
    Current { w with calls := Function.update w.calls c (w.calls c ++ [call]) } := by
  have hlast : ∀ s : Origin, s.client ≠ c → w.Last s →
      s.call = (Function.update w.calls c (w.calls c ++ [call]) s.client).length := by
    intro s hne hs
    rw [Function.update_of_ne hne]
    exact hs
  refine ⟨fun d hd => ?_, fun d hd => ?_, fun s hs => ?_, h.matched⟩
  · exact hlast d.origin (hquiet.1.1 d hd) (h.up d hd)
  · exact hlast d.origin (hquiet.1.2 d hd) (h.down d hd)
  · refine hlast s (fun heq => hquiet.2 ?_) (h.server s hs)
    rw [ServerAt.peer, Option.mem_def.mp hs, ← heq]
    rfl

theorem current_respond {s : Origin} {reply : Option Packet} (h : Current w) (hs : w.Last s) :
    Current (w.respond s reply) where
  up := h.up
  down := fun d hd => by
    rcases List.mem_append.mp hd with hd | hd
    · exact h.down d hd
    · obtain ⟨p, _, rfl⟩ := Option.map_eq_some_iff.mp (Option.mem_toList.mp hd)
      exact hs
  server := h.server
  matched := h.matched

/-- The server answers the datagram it was given, whatever it does. -/
theorem sender_processConnection {s : Origin} {buf input : Packet} {fs fs' : σ}
    {reply : Option Packet} {server : ServerAt}
    (h : processConnection F s buf input fs = (reply, server, fs')) :
    ∀ s' ∈ server.sender, s' = s := by
  have hfinish : ∀ (r : Option (Int32 × σ)), (finish buf r fs).2.1.sender = none := by
    intro r
    cases r with
    | none => rfl
    | some r => rfl
  have hsender : server.sender = none ∨ server.sender = some s := by
    have hserver : server = (processConnection F s buf input fs).2.1 := by rw [h]
    rw [hserver, processConnection]
    split
    all_goals first
      | exact Or.inl rfl
      | exact Or.inr rfl
      | exact Or.inl (hfinish _)
      | skip
    dsimp only
    split
    · exact Or.inr rfl
    · exact Or.inl rfl
  intro s' hs'
  rcases hsender with hnone | hsome
  · rw [hnone] at hs'
    cases hs'
  · rw [hsome] at hs'
    exact (Option.some.inj hs').symm

theorem current_step (h : Current w) (hfresh : Fresh w e) (hexec : w.exec F e = some w') :
    Current w' := by
  cases e with
  | call c call buf =>
      obtain ⟨_, _, rfl⟩ := World.exec_call hexec
      exact current_move (current_call h hfresh)
  | timeout c =>
      obtain ⟨_, _, _, _, rfl⟩ := World.exec_timeout hexec
      exact current_move h
  | reply c i =>
      obtain ⟨call, stage, m, d, _, hd, rfl, w₀, rfl, rfl⟩ := World.exec_reply hexec
      refine current_move ⟨h.up, fun d' hd' => h.down d' (List.mem_of_mem_eraseIdx hd'), h.server, ?_⟩
      intro c n d' hmem
      rcases List.mem_append.mp hmem with hmem | hmem
      · exact h.matched c n d' hmem
      · -- the call returns, with a reply to something it has sent
        split at hmem
        · cases List.mem_singleton.mp hmem
          exact ⟨rfl, h.down d (List.mem_of_getElem? hd)⟩
        · exact absurd hmem List.not_mem_nil
  | dispatch i buf =>
      obtain ⟨d, _, hd, reply, server, fs, hproc, rfl⟩ := World.exec_dispatch hexec
      have hlast := h.up d (List.mem_of_getElem? hd)
      refine current_respond ⟨fun d' hd' => h.up d' (List.mem_of_mem_eraseIdx hd'), h.down, ?_,
        h.matched⟩ hlast
      intro s hs
      rw [sender_processConnection hproc s hs]
      exact hlast
  | answer i buf =>
      obtain ⟨d, s, reply, server, fs, written, hd, hserver, hfree, rfl⟩ := World.exec_answer hexec
      have hs : w.Last s := by
        refine h.server s ?_
        rcases hserver with ⟨inum, block, hwait, _⟩ | ⟨⟨data, hwait⟩, _⟩
        · rw [hwait]
          rfl
        · rw [hwait]
          rfl
      refine current_respond ⟨fun d' hd' => h.up d' (List.mem_of_mem_eraseIdx hd'), h.down, ?_,
        h.matched⟩ hs
      intro s' hs'
      rcases hfree with rfl | rfl
      · cases hs'
      · cases hs'
  | expire =>
      rw [World.exec_expire hexec]
      exact ⟨h.up, h.down, fun s hs => (by cases hs), h.matched⟩
  | loseUp i =>
      obtain ⟨_, _, rfl⟩ := World.exec_loseUp hexec
      exact ⟨fun d hd => h.up d (List.mem_of_mem_eraseIdx hd), h.down, h.server, h.matched⟩
  | loseDown i =>
      obtain ⟨_, _, rfl⟩ := World.exec_loseDown hexec
      exact ⟨h.up, fun d hd => h.down d (List.mem_of_mem_eraseIdx hd), h.server, h.matched⟩

theorem current_init (fs : σ) : Current (World.init fs) where
  up := fun _ hd => absurd hd List.not_mem_nil
  down := fun _ hd => absurd hd List.not_mem_nil
  server := fun _ hs => by cases hs
  matched := fun _ _ _ hd => absurd hd List.not_mem_nil

/-- Calls that start fresh return the replies to themselves. -/
theorem replies_matched (F : Files σ) (w : World σ) (h : Reaches F Fresh w) : w.Matched :=
  (h.induct current_init current_step).matched

/-- A lookup whose first reply is lost. -/
def lookupAgain : List Event :=
  connect 0 ++ [.call 0 (.lookup 0 [97]) .zero, .dispatch 0 .zero, .loseDown 0, .timeout 0,
    .dispatch 0 .zero, .reply 0 0]

theorem replies_matched_again :
    ∃ w, Reaches refusing Fresh w ∧ w.returned.length = 2 ∧ w.Matched := by
  have hrun : (runIf refusing Fresh (World.init ()) lookupAgain).map (·.returned.length)
      = some 2 := rfl
  obtain ⟨w, hw, hlen⟩ := Option.map_eq_some_iff.mp hrun
  have hreach := (Reaches.init ()).run hw
  exact ⟨w, hreach, hlen, replies_matched refusing w hreach⟩

/-- A lookup whose first reply is late, and then a call of `MFS_Stat`. -/
def lookupLate : List Event :=
  connect 0 ++ [.call 0 (.lookup 0 [97]) .zero, .timeout 0, .dispatch 0 .zero, .dispatch 0 .zero,
    .reply 0 0, .call 0 (.stat 0) .zero, .reply 0 0]

/-- The third call returns the second reply to the second. -/
theorem replies_not_matched :
    ∃ w, Reaches refusing (fun _ _ => True) w
      ∧ w.returned.map (fun r => (r.2.1, r.2.2.origin.call)) = [(1, 1), (2, 2), (3, 2)]
      ∧ ¬w.Matched := by
  have hrun : (runIf refusing (fun _ _ => True) (World.init ()) lookupLate).map
      (fun w => w.returned.map fun r => (r.2.1, r.2.2.origin.call))
      = some [(1, 1), (2, 2), (3, 2)] := rfl
  obtain ⟨w, hw, hreturned⟩ := Option.map_eq_some_iff.mp hrun
  refine ⟨w, (Reaches.init ()).run hw, hreturned, fun hmatched => ?_⟩
  have hlate : (3, 2) ∈ w.returned.map fun r => (r.2.1, r.2.2.origin.call) := by
    rw [hreturned]
    decide
  obtain ⟨⟨c, n, d⟩, hr, heq⟩ := List.mem_map.mp hlate
  obtain ⟨rfl, hcall⟩ := Prod.mk.inj heq
  rw [(hmatched c 3 d hr).2] at hcall
  cases hcall

end Cs537.Mfs
