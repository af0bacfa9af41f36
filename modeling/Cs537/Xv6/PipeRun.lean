import Cs537.Xv6.Pipe

/-!
# Runs of a pipe

The bytes come out of a pipe in the order in which they went in, none twice and none left
out, however the counters wrap around and whoever reads and writes. Four invariants, each
kept by every step: who has the lock, what is in the buffer, what each call has done so far,
and why the sleeping processes sleep.
-/

namespace Cs537.Xv6

open Lib

variable {P : Type} {p q : P} {kills : Bool}

/-! ## The buffer -/

/-- The pipe holds the bytes `q`. -/
structure Pipe.Buffers (p : Pipe) (q : List UInt8) : Prop where
  holds : Holds p.data.toList p.nread.toNat q
  count : p.nwrite = p.nread + UInt32.ofNat q.length
  le : q.length ≤ pipesize

variable {pipe : Pipe} {bytes : List UInt8}

theorem ofNat_toNat_of_le {n : Nat} (h : n ≤ pipesize) : (UInt32.ofNat n).toNat = n := by
  rw [UInt32.toNat_ofNat']
  exact Nat.mod_eq_of_lt (Nat.lt_of_le_of_lt h (by decide))

theorem Pipe.Buffers.full_iff (h : pipe.Buffers bytes) : pipe.Full ↔ bytes.length = pipesize := by
  rw [Pipe.Full, h.count, UInt32.add_right_inj]
  constructor
  · intro heq
    have hnat := congrArg UInt32.toNat heq
    rwa [ofNat_toNat_of_le h.le, ofNat_toNat_of_le (Nat.le_refl _)] at hnat
  · intro heq
    rw [heq]

theorem Pipe.Buffers.empty_iff (h : pipe.Buffers bytes) : pipe.Empty ↔ bytes = [] := by
  rw [Pipe.Empty, h.count]
  constructor
  · intro heq
    have hzero : UInt32.ofNat bytes.length = 0 := (UInt32.add_right_inj pipe.nread).mp (heq.symm.trans (UInt32.add_zero _).symm)
    have hnat := congrArg UInt32.toNat hzero
    rw [ofNat_toNat_of_le h.le] at hnat
    exact List.length_eq_zero_iff.mp hnat
  · rintro rfl
    exact (UInt32.add_zero _).symm

/-- The counters wrap around, at a multiple of the size of the buffer. -/
theorem counter_mod (a : UInt32) (n : Nat) : (a + UInt32.ofNat n).toNat ≡ a.toNat + n [MOD pipesize] := by
  have hdvd : pipesize ∣ 2 ^ 32 := by decide
  rw [UInt32.toNat_add, UInt32.toNat_ofNat', Nat.add_mod_mod]
  exact (Nat.mod_modEq _ _).of_dvd hdvd

theorem Pipe.Buffers.put (h : pipe.Buffers bytes) (hfull : ¬pipe.Full) (x : UInt8) :
    (pipe.put x).Buffers (bytes ++ [x]) := by
  have hlt : bytes.length < pipesize := Nat.lt_of_le_of_ne h.le fun heq => hfull (h.full_iff.mpr heq)
  have hlen : pipe.data.toList.length = pipesize := Vector.length_toList
  have hslot : (cell pipe.nwrite).val = slot pipe.data.toList pipe.nread.toNat bytes.length := by
    rw [slot, hlen, h.count]
    exact counter_mod pipe.nread bytes.length
  refine ⟨?_, ?_, ?_⟩
  · show Holds (pipe.data.set (cell pipe.nwrite) x).toList pipe.nread.toNat (bytes ++ [x])
    rw [Vector.toList_set, hslot]
    exact h.holds.push (by rw [hlen]; exact hlt)
  · show pipe.nwrite + 1 = _
    rw [h.count, List.length_append, List.length_singleton, UInt32.ofNat_add, UInt32.add_assoc]
    rfl
  · rw [List.length_append, List.length_singleton]
    exact hlt

theorem Pipe.Buffers.get (h : pipe.Buffers bytes) (hempty : ¬pipe.Empty) :
    ∃ rest, bytes = pipe.get.1 :: rest ∧ pipe.get.2.Buffers rest := by
  cases bytes with
  | nil => exact absurd (h.empty_iff.mpr rfl) hempty
  | cons x rest =>
      have hlen : pipe.data.toList.length = pipesize := Vector.length_toList
      obtain ⟨hhead, hrest⟩ := h.holds.pop
      have hx : pipe.get.1 = x := by
        have hslot : slot pipe.data.toList pipe.nread.toNat 0 = (cell pipe.nread).val := by
          rw [slot, hlen]
          rfl
        rw [hslot, List.getElem?_eq_getElem (by rw [hlen]; exact (cell pipe.nread).isLt)] at hhead
        exact Option.some.inj hhead
      refine ⟨rest, by rw [hx], hrest.congr ?_, ?_, ?_⟩
      · rw [hlen]
        exact (counter_mod pipe.nread 1).trans (Nat.mod_modEq _ _).symm
      · show pipe.nwrite = pipe.nread + 1 + _
        rw [h.count, List.length_cons, Nat.add_comm, UInt32.ofNat_add, UInt32.add_assoc]
        rfl
      · exact Nat.le_of_succ_le h.le

/-! ## The lock -/

/-- It has `p->lock`. -/
def PipeAt.locked : PipeAt → Bool
  | .write _ _ | .full _ _ | .read _ | .empty _ | .copy _ _ => true
  | _ => false

@[simp] theorem PipeAt.wakeR_locked (a : PipeAt) : a.wakeR.locked = a.locked := by cases a <;> rfl

@[simp] theorem PipeAt.wakeW_locked (a : PipeAt) : a.wakeW.locked = a.locked := by cases a <;> rfl

/-- Who is at a place that needs the lock is the one that has it. -/
def Locked (w : Piped P) : Prop := ∀ p, (w.proc p).locked = true ↔ w.lock = some p

variable {w w' : Piped P} {a : PipeAt}

theorem Locked.eq (h : Locked w) (hp : (w.proc p).locked = true) (hq : (w.proc q).locked = true) : q = p :=
  Option.some.inj (((h q).mp hq).symm.trans ((h p).mp hp))

theorem Locked.none (h : Locked w) (hlock : w.lock = none) (p : P) : (w.proc p).locked = false := by
  rw [Bool.eq_false_iff]
  intro hp
  rw [(h p).mp hp] at hlock
  cases hlock

theorem Locked.wakeR (h : Locked w) : Locked w.wakeR := fun p => by
  show (w.proc p).wakeR.locked = true ↔ _
  rw [PipeAt.wakeR_locked]
  exact h p

theorem Locked.wakeW (h : Locked w) : Locked w.wakeW := fun p => by
  show (w.proc p).wakeW.locked = true ↔ _
  rw [PipeAt.wakeW_locked]
  exact h p

/-! ## The open ends -/

@[simp] theorem PipeAt.wakeR_writes (a : PipeAt) : a.wakeR.writes = a.writes := by cases a <;> rfl

@[simp] theorem PipeAt.wakeW_writes (a : PipeAt) : a.wakeW.writes = a.writes := by cases a <;> rfl

@[simp] theorem PipeAt.wakeR_reads (a : PipeAt) : a.wakeR.reads = a.reads := by cases a <;> rfl

@[simp] theorem PipeAt.wakeW_reads (a : PipeAt) : a.wakeW.reads = a.reads := by cases a <;> rfl

/-- Nobody is inside the pipe at an end that is closed. -/
structure Ends (w : Piped P) : Prop where
  writes : ∀ p, (w.proc p).writes = true → w.pipe.writeopen = true
  reads : ∀ p, (w.proc p).reads = true → w.pipe.readopen = true

theorem Ends.wakeR (h : Ends w) : Ends w.wakeR where
  writes q hq := h.writes q ((PipeAt.wakeR_writes _).symm.trans hq)
  reads q hq := h.reads q ((PipeAt.wakeR_reads _).symm.trans hq)

theorem Ends.wakeW (h : Ends w) : Ends w.wakeW where
  writes q hq := h.writes q ((PipeAt.wakeW_writes _).symm.trans hq)
  reads q hq := h.reads q ((PipeAt.wakeW_reads _).symm.trans hq)

/-! ## The sleepers -/

/-- It puts bytes into the pipe, and will wake the readers. -/
def PipeAt.writing : PipeAt → Bool
  | .write _ _ | .full _ _ => true
  | _ => false

/-- It takes bytes out of the pipe, and will wake the writers. -/
def PipeAt.copying : PipeAt → Bool
  | .copy _ _ => true
  | _ => false

@[simp] theorem PipeAt.wakeR_writing (a : PipeAt) : a.wakeR.writing = a.writing := by cases a <;> rfl

@[simp] theorem PipeAt.wakeW_writing (a : PipeAt) : a.wakeW.writing = a.writing := by cases a <;> rfl

@[simp] theorem PipeAt.wakeR_copying (a : PipeAt) : a.wakeR.copying = a.copying := by cases a <;> rfl

@[simp] theorem PipeAt.wakeW_copying (a : PipeAt) : a.wakeW.copying = a.copying := by cases a <;> rfl

theorem PipeAt.writing_locked {a : PipeAt} (h : a.writing = true) : a.locked = true := by
  cases a with
  | write addr i | full addr i => rfl
  | out | sleepsW addr i | wokenW addr i | wrote addr ok | read n | empty n | sleepsR n | wokenR n | copy n addr
  | got n r => cases h

theorem PipeAt.copying_locked {a : PipeAt} (h : a.copying = true) : a.locked = true := by
  cases a with
  | copy n addr => rfl
  | out | write addr i | full addr i | sleepsW addr i | wokenW addr i | wrote addr ok | read n | empty n | sleepsR n
  | wokenR n | got n r => cases h

/-- Why the sleeping processes sleep: the pipe is full, or empty, or somebody has the lock who is going to wake them. -/
structure Awake (kills : Bool) (w : Piped P) : Prop where
  full : ∀ p addr i, w.proc p = .full addr i → w.pipe.Full ∧ w.pipe.readopen = true
  empty : ∀ p n, w.proc p = .empty n → w.pipe.Empty ∧ w.pipe.writeopen = true
  writers : ∀ p addr i, w.proc p = .sleepsW addr i →
    w.pipe.readopen = true ∧ (w.pipe.Full ∨ ∃ q, (w.proc q).copying = true)
  readers : kills = false → ∀ p n, w.proc p = .sleepsR n →
    w.pipe.writeopen = true ∧ (w.pipe.Empty ∨ ∃ q, (w.proc q).writing = true)
  killed : kills = false → ∀ p, w.killed p = false

theorem PipeAt.wakeR_ne (a : PipeAt) (n : Nat) : a.wakeR ≠ .sleepsR n := by cases a <;> nofun

theorem PipeAt.wakeW_ne (a : PipeAt) (addr : List UInt8) (i : Nat) : a.wakeW ≠ .sleepsW addr i := by
  cases a <;> nofun

theorem PipeAt.wakeR_eq {a b : PipeAt} (h : a.wakeR = b) (hb : ∀ n, b ≠ .wokenR n) : a = b := by
  cases a with
  | sleepsR n => exact absurd h.symm (hb n)
  | out | write addr i | full addr i | sleepsW addr i | wokenW addr i | wrote addr ok | read n | empty n | wokenR n
  | copy n addr | got n r => exact h

theorem PipeAt.wakeW_eq {a b : PipeAt} (h : a.wakeW = b) (hb : ∀ addr i, b ≠ .wokenW addr i) : a = b := by
  cases a with
  | sleepsW addr i => exact absurd h.symm (hb addr i)
  | out | write addr i | full addr i | sleepsR n | wokenW addr i | wrote addr ok | read n | empty n | wokenR n
  | copy n addr | got n r => exact h

theorem Awake.wakeR (h : Awake kills w) : Awake kills w.wakeR where
  full q addr i hq := h.full q addr i (PipeAt.wakeR_eq hq nofun)
  empty q n hq := h.empty q n (PipeAt.wakeR_eq hq nofun)
  writers q addr i hq := by
    obtain ⟨hopen, hwhy⟩ := h.writers q addr i (PipeAt.wakeR_eq hq nofun)
    refine ⟨hopen, hwhy.imp_right fun ⟨r, hr⟩ => ⟨r, ?_⟩⟩
    exact (PipeAt.wakeR_copying _).trans hr
  readers _ q n hq := absurd hq (PipeAt.wakeR_ne _ n)
  killed := h.killed

theorem Awake.wakeW (h : Awake kills w) : Awake kills w.wakeW where
  full q addr i hq := h.full q addr i (PipeAt.wakeW_eq hq nofun)
  empty q n hq := h.empty q n (PipeAt.wakeW_eq hq nofun)
  writers q addr i hq := absurd hq (PipeAt.wakeW_ne _ addr i)
  readers hkills q n hq := by
    obtain ⟨hopen, hwhy⟩ := h.readers hkills q n (PipeAt.wakeW_eq hq nofun)
    refine ⟨hopen, hwhy.imp_right fun ⟨r, hr⟩ => ⟨r, ?_⟩⟩
    exact (PipeAt.wakeW_writing _).trans hr
  killed := h.killed

/-! ## The lock, step by step -/

variable [DecidableEq P]

theorem Locked.acquire (h : Locked w) (hlock : w.lock = Option.none) (ha : a.locked = true) :
    Locked (w.acquire p a) := by
  intro q
  show (Function.update w.proc p a q).locked = true ↔ some p = some q
  by_cases hqp : q = p
  · subst hqp
    rw [Function.update_self]
    exact iff_of_true ha rfl
  · rw [Function.update_of_ne hqp, h.none hlock q]
    exact iff_of_false Bool.false_ne_true fun heq => hqp (Option.some.inj heq).symm

theorem Locked.goto (h : Locked w) (ha : a.locked = (w.proc p).locked) : Locked (w.goto p a) := by
  intro q
  show (Function.update w.proc p a q).locked = true ↔ w.lock = some q
  by_cases hqp : q = p
  · subst hqp
    rw [Function.update_self, ha]
    exact h q
  · rw [Function.update_of_ne hqp]
    exact h q

theorem Locked.release (h : Locked w) (hp : (w.proc p).locked = true) (ha : a.locked = false) :
    Locked (w.release p a) := by
  intro q
  show (Function.update w.proc p a q).locked = true ↔ Option.none = some q
  refine iff_of_false ?_ nofun
  by_cases hqp : q = p
  · subst hqp
    rw [Function.update_self, ha]
    exact Bool.false_ne_true
  · rw [Function.update_of_ne hqp]
    exact fun hq => hqp (h.eq hp hq)

theorem locked_step (h : Locked w) (hstep : w.Step kills w') : Locked w' := by
  cases hstep with
  | pipewrite p addr hp hopen hlock => exact h.acquire hlock rfl
  | put p hi hp hfull => exact h.goto (congrArg PipeAt.locked hp).symm
  | fail p hp hi hfull hwhy => exact h.release (congrArg PipeAt.locked hp) rfl
  | full p hp hi hfull hopen hkilled => exact h.goto (congrArg PipeAt.locked hp).symm
  | sleepW p hp => exact h.wakeR.release ((PipeAt.wakeR_locked _).trans (congrArg PipeAt.locked hp)) rfl
  | finish p hp hi => exact h.wakeR.release ((PipeAt.wakeR_locked _).trans (congrArg PipeAt.locked hp)) rfl
  | againW p hp hlock => exact h.acquire hlock rfl
  | piperead p n hp hopen hlock => exact h.acquire hlock rfl
  | dies p hp hempty hopen hkilled => exact h.release (congrArg PipeAt.locked hp) rfl
  | empty p hp hempty hopen hkilled => exact h.goto (congrArg PipeAt.locked hp).symm
  | sleepR p hp => exact h.release (congrArg PipeAt.locked hp) rfl
  | againR p hp hlock => exact h.acquire hlock rfl
  | copy p hp hnot => exact h.goto (congrArg PipeAt.locked hp).symm
  | get p hp hlt hempty => exact h.goto (congrArg PipeAt.locked hp).symm
  | done p hp hend => exact h.wakeW.release ((PipeAt.wakeW_locked _).trans (congrArg PipeAt.locked hp)) rfl
  | wrote p hp => exact h.goto (congrArg PipeAt.locked hp).symm
  | got p hp => exact h.goto (congrArg PipeAt.locked hp).symm
  | closeW hopen hlock hnobody => exact h.wakeR
  | closeR hopen hlock hnobody => exact h.wakeW
  | kill p hkills => exact h.goto ((PipeAt.wakeW_locked _).trans (PipeAt.wakeR_locked _))

/-! ## The stream -/

/-- What has been put into the pipe and not taken out is in the buffer, in that order. -/
structure Streams (w : Piped P) (bytes : List UInt8) : Prop where
  stream : w.sent.map Prod.snd = w.taken.map Prod.snd ++ bytes
  buffers : w.pipe.Buffers bytes
  nread : w.pipe.nread = UInt32.ofNat w.taken.length

theorem streams_step (h : Streams w bytes) (hstep : w.Step kills w') : ∃ bytes', Streams w' bytes' := by
  cases hstep with
  | pipewrite | fail | full | sleepW | finish | againW | piperead | dies | empty | sleepR | againR | copy | done
  | wrote | got | kill => exact ⟨bytes, h.stream, h.buffers, h.nread⟩
  | closeW | closeR => exact ⟨bytes, h.stream, ⟨h.buffers.holds, h.buffers.count, h.buffers.le⟩, h.nread⟩
  | @put p addr i hi hp hfull =>
      refine ⟨bytes ++ [addr[i]], ?_, h.buffers.put hfull _, h.nread⟩
      rw [List.map_append, h.stream, List.append_assoc]
      rfl
  | @get p n addr hp hlt hempty =>
      obtain ⟨rest, hbytes, hrest⟩ := h.buffers.get hempty
      refine ⟨rest, ?_, hrest, ?_⟩
      · rw [List.map_append, List.append_assoc]
        exact h.stream.trans (congrArg (_ ++ ·) hbytes)
      · show w.pipe.nread + 1 = UInt32.ofNat (w.taken ++ [_]).length
        rw [h.nread, List.length_append, UInt32.ofNat_add]
        rfl

/-! ## Processes at the two ends -/

theorem Ends.update (h : Ends w) (hproc : w'.proc = Function.update w.proc p a)
    (hwo : w'.pipe.writeopen = w.pipe.writeopen) (hro : w'.pipe.readopen = w.pipe.readopen)
    (hw : a.writes = true → w.pipe.writeopen = true) (hr : a.reads = true → w.pipe.readopen = true) : Ends w' := by
  refine ⟨fun q hq => ?_, fun q hq => ?_⟩
  · rw [hwo]
    by_cases hqp : q = p
    · rw [hproc, hqp, Function.update_self] at hq
      exact hw hq
    · rw [hproc, Function.update_of_ne hqp] at hq
      exact h.writes q hq
  · rw [hro]
    by_cases hqp : q = p
    · rw [hproc, hqp, Function.update_self] at hq
      exact hr hq
    · rw [hproc, Function.update_of_ne hqp] at hq
      exact h.reads q hq

/-- It stays at its end, or leaves it. -/
theorem Ends.within (h : Ends w) (hproc : w'.proc = Function.update w.proc p a)
    (hwo : w'.pipe.writeopen = w.pipe.writeopen) (hro : w'.pipe.readopen = w.pipe.readopen)
    (hw : a.writes = true → (w.proc p).writes = true) (hr : a.reads = true → (w.proc p).reads = true) : Ends w' :=
  h.update hproc hwo hro (fun ha => h.writes p (hw ha)) (fun ha => h.reads p (hr ha))

theorem ends_step (h : Ends w) (hstep : w.Step kills w') : Ends w' := by
  cases hstep with
  | pipewrite p addr hp hopen hlock => exact h.update rfl rfl rfl (fun _ => hopen) nofun
  | piperead p n hp hopen hlock => exact h.update rfl rfl rfl nofun (fun _ => hopen)
  | put p hi hp hfull => exact h.within rfl rfl rfl (fun _ => congrArg PipeAt.writes hp) nofun
  | full p hp hi hfull hopen hkilled => exact h.within rfl rfl rfl (fun _ => congrArg PipeAt.writes hp) nofun
  | sleepW p hp =>
      exact h.wakeR.within rfl rfl rfl (fun _ => (PipeAt.wakeR_writes _).trans (congrArg PipeAt.writes hp)) nofun
  | againW p hp hlock => exact h.within rfl rfl rfl (fun _ => congrArg PipeAt.writes hp) nofun
  | empty p hp hempty hopen hkilled => exact h.within rfl rfl rfl nofun (fun _ => congrArg PipeAt.reads hp)
  | sleepR p hp => exact h.within rfl rfl rfl nofun (fun _ => congrArg PipeAt.reads hp)
  | againR p hp hlock => exact h.within rfl rfl rfl nofun (fun _ => congrArg PipeAt.reads hp)
  | copy p hp hnot => exact h.within rfl rfl rfl nofun (fun _ => congrArg PipeAt.reads hp)
  | get p hp hlt hempty => exact h.within rfl rfl rfl nofun (fun _ => congrArg PipeAt.reads hp)
  | finish p hp hi => exact h.wakeR.within rfl rfl rfl nofun nofun
  | done p hp hend => exact h.wakeW.within rfl rfl rfl nofun nofun
  | fail p hp hi hfull hwhy => exact h.within rfl rfl rfl nofun nofun
  | dies p hp hempty hopen hkilled => exact h.within rfl rfl rfl nofun nofun
  | wrote p hp => exact h.within rfl rfl rfl nofun nofun
  | got p hp => exact h.within rfl rfl rfl nofun nofun
  | closeW hopen hlock hnobody =>
      refine ⟨fun q hq => ?_, h.wakeR.reads⟩
      have hq' := (PipeAt.wakeR_writes _).symm.trans hq
      rw [hnobody q] at hq'
      cases hq'
  | closeR hopen hlock hnobody =>
      refine ⟨h.wakeW.writes, fun q hq => ?_⟩
      have hq' := (PipeAt.wakeW_reads _).symm.trans hq
      rw [hnobody q] at hq'
      cases hq'
  | kill p hkills =>
      refine h.within rfl rfl rfl (fun ha => ?_) (fun ha => ?_)
      · rwa [PipeAt.wakeW_writes, PipeAt.wakeR_writes] at ha
      · rwa [PipeAt.wakeW_reads, PipeAt.wakeR_reads] at ha

/-! ## The calls -/

/-- The list `l` goes on with `x` after its first `n`. -/
def Since (l : List UInt8) (n : Nat) (x : List UInt8) : Prop := n ≤ l.length ∧ l.drop n = x

theorem since_length (l : List UInt8) : Since l l.length [] := ⟨Nat.le_refl _, List.drop_length⟩

theorem Since.push {l x : List UInt8} {n : Nat} (h : Since l n x) (y : UInt8) : Since (l ++ [y]) n (x ++ [y]) := by
  refine ⟨?_, ?_⟩
  · rw [List.length_append]
    exact Nat.le_add_right_of_le h.1
  · rw [List.drop_append_of_le_length h.1, h.2]

/-- Since it called `pipewrite`, `p` has written `x`. -/
def Piped.Written (w : Piped P) (p : P) (x : List UInt8) : Prop := Since (bytesOf p w.sent) (w.mark p) x

/-- Since it called `piperead`, `p` has read `x`. -/
def Piped.Copied (w : Piped P) (p : P) (x : List UInt8) : Prop := Since (bytesOf p w.taken) (w.mark p) x

/-- No byte is in the pipe, and none can come. -/
def Pipe.Ended (p : Pipe) : Prop := p.Empty ∧ p.writeopen = false

/-- How far the call of a process is. -/
def Call (w : Piped P) (p : P) : PipeAt → Prop
  | .out => True
  | .write addr i => i ≤ addr.length ∧ w.Written p (addr.take i)
  | .full addr i | .sleepsW addr i | .wokenW addr i => i < addr.length ∧ w.Written p (addr.take i)
  | .wrote addr true => w.Written p addr
  | .wrote addr false => (∃ i < addr.length, w.Written p (addr.take i))
      ∧ (w.pipe.readopen = false ∨ w.killed p = true)
  | .read _ | .empty _ | .sleepsR _ | .wokenR _ => w.Copied p []
  | .copy n addr => addr.length ≤ n ∧ w.Copied p addr ∧ addr <:+ w.taken.map Prod.snd
      ∧ (addr = [] → w.pipe.Empty → w.pipe.writeopen = false)
  | .got n (some addr) => addr.length ≤ n ∧ w.Copied p addr ∧ addr <:+: w.taken.map Prod.snd
      ∧ (addr = [] → n = 0 ∨ w.pipe.Ended)
  | .got _ none => w.Copied p [] ∧ w.killed p = true

/-- What happens elsewhere does not undo what a call has done. -/
theorem Call.mono (h : Call w p a) (hsent : bytesOf p w'.sent = bytesOf p w.sent)
    (htook : bytesOf p w'.taken = bytesOf p w.taken) (hmark : w'.mark p = w.mark p)
    (hcopy : ∀ n addr, a = .copy n addr → w'.taken = w.taken ∧ w'.pipe = w.pipe) (htaken : w.taken <+: w'.taken)
    (hopen : w.pipe.readopen = false → w'.pipe.readopen = false)
    (hkilled : w.killed p = true → w'.killed p = true) (hended : w.pipe.Ended → w'.pipe.Ended) :
    Call w' p a := by
  have hwritten : ∀ x, w.Written p x → w'.Written p x := by
    intro x hx
    rw [Piped.Written, hsent, hmark]
    exact hx
  have hcopied : ∀ x, w.Copied p x → w'.Copied p x := by
    intro x hx
    rw [Piped.Copied, htook, hmark]
    exact hx
  cases a with
  | out => trivial
  | write addr i | full addr i | sleepsW addr i | wokenW addr i => exact ⟨h.1, hwritten _ h.2⟩
  | wrote addr ok =>
      cases ok with
      | true => exact hwritten _ h
      | false =>
          obtain ⟨⟨i, hi, hw⟩, hwhy⟩ := h
          exact ⟨⟨i, hi, hwritten _ hw⟩, hwhy.imp hopen hkilled⟩
  | read n | empty n | sleepsR n | wokenR n => exact hcopied _ h
  | copy n addr =>
      obtain ⟨htaken', hpipe⟩ := hcopy n addr rfl
      obtain ⟨hlen, hcop, hsuffix, hnil⟩ := h
      refine ⟨hlen, hcopied _ hcop, ?_, ?_⟩
      · rw [htaken']
        exact hsuffix
      · rw [hpipe]
        exact hnil
  | got n r =>
      cases r with
      | none => exact ⟨hcopied _ h.1, hkilled h.2⟩
      | some addr =>
          obtain ⟨hlen, hcop, hinfix, hnil⟩ := h
          exact ⟨hlen, hcopied _ hcop, hinfix.trans (htaken.map Prod.snd).isInfix,
            fun hn => (hnil hn).imp_right hended⟩

theorem Call.wakeR (h : Call w p a) : Call w p a.wakeR := by cases a <;> exact h

theorem Call.wakeW (h : Call w p a) : Call w p a.wakeW := by cases a <;> exact h

@[simp] theorem bytesOf_append_self (p : P) (l : List (P × UInt8)) (x : UInt8) :
    bytesOf p (l ++ [(p, x)]) = bytesOf p l ++ [x] := by
  rw [bytesOf, bytesOf, List.filter_append, List.map_append]
  simp

theorem bytesOf_append_ne (l : List (P × UInt8)) (x : UInt8) (h : q ≠ p) :
    bytesOf q (l ++ [(p, x)]) = bytesOf q l := by
  rw [bytesOf, bytesOf, List.filter_append, List.map_append]
  simp [h.symm]

theorem calls_update {f : P → PipeAt} (hproc : w'.proc = Function.update f p a) (hnew : Call w' p a)
    (hold : ∀ q, q ≠ p → Call w' q (f q)) : ∀ q, Call w' q (w'.proc q) := by
  intro q
  rw [hproc]
  by_cases hqp : q = p
  · rw [hqp, Function.update_self]
    exact hnew
  · rw [Function.update_of_ne hqp]
    exact hold q hqp

/-- The pipe and its history stay. -/
theorem Call.quiet (h : Call w q a) (hsent : w'.sent = w.sent) (htaken : w'.taken = w.taken)
    (hmark : w'.mark q = w.mark q) (hpipe : w'.pipe = w.pipe) (hkilled : w.killed q = true → w'.killed q = true) :
    Call w' q a := by
  refine h.mono ?_ ?_ hmark (fun _ _ _ => ⟨htaken, hpipe⟩) ?_ (fun ho => ?_) hkilled (fun he => ?_)
  · rw [hsent]
  · rw [htaken]
  · exact htaken ▸ List.prefix_refl _
  · rw [hpipe]
    exact ho
  · rw [hpipe]
    exact he

theorem calls_step (hl : Locked w) (he : Ends w) (h : ∀ p, Call w p (w.proc p)) (hstep : w.Step kills w') :
    ∀ p, Call w' p (w'.proc p) := by
  cases hstep with
  | pipewrite p addr hp hopen hlock =>
      refine calls_update rfl ⟨Nat.zero_le _, ?_⟩ fun q hqp => (h q).quiet rfl rfl (Function.update_of_ne hqp ..) rfl id
      show Since (bytesOf p w.sent) (Function.update w.mark p (bytesOf p w.sent).length p) []
      rw [Function.update_self]
      exact since_length _
  | piperead p n hp hopen hlock =>
      refine calls_update rfl ?_ fun q hqp => (h q).quiet rfl rfl (Function.update_of_ne hqp ..) rfl id
      show Since (bytesOf p w.taken) (Function.update w.mark p (bytesOf p w.taken).length p) []
      rw [Function.update_self]
      exact since_length _
  | @put p addr i hi hp hfull =>
      have hcall := h p
      rw [hp] at hcall
      refine calls_update rfl ⟨hi, ?_⟩ fun q hqp => (h q).mono (bytesOf_append_ne _ _ hqp) rfl rfl ?_ (List.prefix_refl _)
        id id ?_
      · show Since (bytesOf p (w.sent ++ [(p, addr[i])])) (w.mark p) (addr.take (i + 1))
        rw [bytesOf_append_self, List.take_succ_eq_append_getElem hi]
        exact hcall.2.push _
      · intro n addr' hq
        exact absurd (hl.eq (congrArg PipeAt.locked hp) (congrArg PipeAt.locked hq)) hqp
      · intro hended
        have hopen := he.writes p (congrArg PipeAt.writes hp)
        rw [hended.2] at hopen
        cases hopen
  | fail p hp hi hfull hwhy =>
      have hcall := h p
      rw [hp] at hcall
      exact calls_update rfl ⟨⟨_, hi, hcall.2⟩, hwhy⟩ fun q _ => (h q).quiet rfl rfl rfl rfl id
  | full p hp hi hfull hopen hkilled =>
      have hcall := h p
      rw [hp] at hcall
      exact calls_update rfl ⟨hi, hcall.2⟩ fun q _ => (h q).quiet rfl rfl rfl rfl id
  | sleepW p hp =>
      have hcall := h p
      rw [hp] at hcall
      exact calls_update rfl hcall fun q _ => (h q).wakeR.quiet rfl rfl rfl rfl id
  | @finish p addr i hp hi =>
      have hcall := h p
      rw [hp] at hcall
      refine calls_update rfl ?_ fun q _ => (h q).wakeR.quiet rfl rfl rfl rfl id
      have hall := hcall.2
      rw [List.take_of_length_le (Nat.le_of_not_lt hi)] at hall
      exact hall
  | againW p hp hlock =>
      have hcall := h p
      rw [hp] at hcall
      exact calls_update rfl ⟨Nat.le_of_lt hcall.1, hcall.2⟩ fun q _ => (h q).quiet rfl rfl rfl rfl id
  | dies p hp hempty hopen hkilled =>
      have hcall := h p
      rw [hp] at hcall
      exact calls_update rfl ⟨hcall, hkilled⟩ fun q _ => (h q).quiet rfl rfl rfl rfl id
  | empty p hp hempty hopen hkilled =>
      have hcall := h p
      rw [hp] at hcall
      exact calls_update rfl hcall fun q _ => (h q).quiet rfl rfl rfl rfl id
  | sleepR p hp =>
      have hcall := h p
      rw [hp] at hcall
      exact calls_update rfl hcall fun q _ => (h q).quiet rfl rfl rfl rfl id
  | againR p hp hlock =>
      have hcall := h p
      rw [hp] at hcall
      exact calls_update rfl hcall fun q _ => (h q).quiet rfl rfl rfl rfl id
  | copy p hp hnot =>
      have hcall := h p
      rw [hp] at hcall
      refine calls_update rfl ⟨Nat.zero_le _, hcall, List.nil_suffix, fun _ hempty => ?_⟩
        fun q _ => (h q).quiet rfl rfl rfl rfl id
      exact Bool.eq_false_iff.mpr fun hopen => hnot ⟨hempty, hopen⟩
  | @get p n addr hp hlt hempty =>
      have hcall := h p
      rw [hp] at hcall
      obtain ⟨hlen, hcop, hsuffix, -⟩ := hcall
      refine calls_update rfl ⟨?_, ?_, ?_, fun hnil => ?_⟩ fun q hqp =>
        (h q).mono rfl (bytesOf_append_ne _ _ hqp) rfl ?_ (List.prefix_append ..) id id
          fun hended => absurd hended.1 hempty
      · rw [List.length_append]
        exact hlt
      · show Since (bytesOf p (w.taken ++ [(p, w.pipe.get.1)])) (w.mark p) _
        rw [bytesOf_append_self]
        exact hcop.push _
      · obtain ⟨pre, hpre⟩ := hsuffix
        refine ⟨pre, ?_⟩
        rw [List.map_append, ← hpre, List.append_assoc]
        rfl
      · exact absurd hnil (List.append_ne_nil_of_right_ne_nil _ (List.cons_ne_nil _ _))
      · intro n' addr' hq
        exact absurd (hl.eq (congrArg PipeAt.locked hp) (congrArg PipeAt.locked hq)) hqp
  | done p hp hend =>
      have hcall := h p
      rw [hp] at hcall
      obtain ⟨hlen, hcop, hsuffix, hnil⟩ := hcall
      refine calls_update rfl ⟨hlen, hcop, hsuffix.isInfix, fun haddr => ?_⟩
        fun q _ => (h q).wakeW.quiet rfl rfl rfl rfl id
      rcases hend with hn | hempty
      · rw [haddr] at hn
        exact Or.inl hn.symm
      · exact Or.inr ⟨hempty, hnil haddr hempty⟩
  | wrote p hp => exact calls_update rfl trivial fun q _ => (h q).quiet rfl rfl rfl rfl id
  | got p hp => exact calls_update rfl trivial fun q _ => (h q).quiet rfl rfl rfl rfl id
  | closeW hopen hlock hnobody =>
      intro q
      refine (h q).wakeR.mono rfl rfl rfl (fun n addr hq => ?_) (List.prefix_refl _) id id fun hended => ⟨hended.1, rfl⟩
      have hlocked := congrArg PipeAt.locked hq
      rw [PipeAt.wakeR_locked, hl.none hlock q] at hlocked
      cases hlocked
  | closeR hopen hlock hnobody =>
      intro q
      refine (h q).wakeW.mono rfl rfl rfl (fun n addr hq => ?_) (List.prefix_refl _) (fun _ => rfl) id id
      have hlocked := congrArg PipeAt.locked hq
      rw [PipeAt.wakeW_locked, hl.none hlock q] at hlocked
      cases hlocked
  | kill p hkills =>
      have hkilled : ∀ q, w.killed q = true → Function.update w.killed p true q = true := by
        intro q hq
        by_cases hqp : q = p
        · rw [hqp, Function.update_self]
        · rw [Function.update_of_ne hqp]
          exact hq
      exact calls_update rfl ((h p).wakeR.wakeW.quiet rfl rfl rfl rfl (hkilled p))
        fun q _ => (h q).quiet rfl rfl rfl rfl (hkilled q)

/-! ## Why the sleeping processes sleep -/

/-- A process moves, and leaves nobody asleep whom it was going to wake. -/
theorem Awake.update (h : Awake kills w) (hproc : w'.proc = Function.update w.proc p a) (hpipe : w'.pipe = w.pipe)
    (hkilled : kills = false → ∀ q, w'.killed q = false)
    (hfull : ∀ addr i, a = .full addr i → w.pipe.Full ∧ w.pipe.readopen = true)
    (hempty : ∀ n, a = .empty n → w.pipe.Empty ∧ w.pipe.writeopen = true)
    (hsleepsW : ∀ addr i, a = .sleepsW addr i → w.pipe.Full ∧ w.pipe.readopen = true)
    (hsleepsR : ∀ n, a = .sleepsR n → w.pipe.Empty ∧ w.pipe.writeopen = true)
    (hcopying : (w.proc p).copying = true → a.copying = true ∨ ∀ q addr i, w.proc q ≠ .sleepsW addr i)
    (hwriting : kills = false → (w.proc p).writing = true → a.writing = true ∨ ∀ q n, w.proc q ≠ .sleepsR n) :
    Awake kills w' := by
  have hat : ∀ q b, w'.proc q = b → q = p ∧ a = b ∨ q ≠ p ∧ w.proc q = b := by
    intro q b hq
    by_cases hqp : q = p
    · rw [hproc, hqp, Function.update_self] at hq
      exact Or.inl ⟨hqp, hq⟩
    · rw [hproc, Function.update_of_ne hqp] at hq
      exact Or.inr ⟨hqp, hq⟩
  have hstays : ∀ r, r ≠ p → w'.proc r = w.proc r := by
    intro r hr
    rw [hproc, Function.update_of_ne hr]
  have hself : w'.proc p = a := by
    rw [hproc, Function.update_self]
  refine ⟨fun q addr i hq => ?_, fun q n hq => ?_, fun q addr i hq => ?_, fun hkills q n hq => ?_, hkilled⟩
  · rw [hpipe]
    rcases hat q _ hq with ⟨-, ha⟩ | ⟨-, hq⟩
    · exact hfull addr i ha
    · exact h.full q addr i hq
  · rw [hpipe]
    rcases hat q _ hq with ⟨-, ha⟩ | ⟨-, hq⟩
    · exact hempty n ha
    · exact h.empty q n hq
  · rw [hpipe]
    rcases hat q _ hq with ⟨-, ha⟩ | ⟨-, hq⟩
    · exact ⟨(hsleepsW addr i ha).2, Or.inl (hsleepsW addr i ha).1⟩
    · obtain ⟨hopen, hwhy⟩ := h.writers q addr i hq
      refine ⟨hopen, hwhy.imp_right fun ⟨r, hr⟩ => ?_⟩
      by_cases hrp : r = p
      · rw [hrp] at hr
        exact ⟨p, by rw [hself]; exact (hcopying hr).resolve_right fun hnone => hnone q addr i hq⟩
      · exact ⟨r, by rw [hstays r hrp]; exact hr⟩
  · rw [hpipe]
    rcases hat q _ hq with ⟨-, ha⟩ | ⟨-, hq⟩
    · exact ⟨(hsleepsR n ha).2, Or.inl (hsleepsR n ha).1⟩
    · obtain ⟨hopen, hwhy⟩ := h.readers hkills q n hq
      refine ⟨hopen, hwhy.imp_right fun ⟨r, hr⟩ => ?_⟩
      by_cases hrp : r = p
      · rw [hrp] at hr
        exact ⟨p, by rw [hself]; exact (hwriting hkills hr).resolve_right fun hnone => hnone q n hq⟩
      · exact ⟨r, by rw [hstays r hrp]; exact hr⟩

theorem awake_step (hl : Locked w) (he : Ends w) (h : Awake kills w) (hstep : w.Step kills w') : Awake kills w' := by
  -- what a process at `b` is not doing
  have hidle : ∀ {p b}, w.proc p = b → b.copying = false → (w.proc p).copying = true →
      ∀ {r : Prop}, r := fun hp hb hc => by
    rw [hp, hb] at hc
    cases hc
  have hidle' : ∀ {p b}, w.proc p = b → b.writing = false → (w.proc p).writing = true →
      ∀ {r : Prop}, r := fun hp hb hc => by
    rw [hp, hb] at hc
    cases hc
  cases hstep with
  | pipewrite p addr hp hopen hlock =>
      exact h.update rfl rfl h.killed nofun nofun nofun nofun (fun hc => hidle hp rfl hc) fun _ _ => Or.inl rfl
  | piperead p n hp hopen hlock =>
      exact h.update rfl rfl h.killed nofun nofun nofun nofun (fun hc => hidle hp rfl hc) fun _ hc => hidle' hp rfl hc
  | @put p addr i hi hp hfull =>
      have hlocked := congrArg PipeAt.locked hp
      have hself : Function.update w.proc p (.write addr (i + 1)) p = .write addr (i + 1) := Function.update_self ..
      have hother : ∀ q b, Function.update w.proc p (.write addr (i + 1)) q = b → b ≠ .write addr (i + 1) →
          q ≠ p ∧ w.proc q = b := by
        intro q b hq hb
        by_cases hqp : q = p
        · rw [hqp, hself] at hq
          exact absurd hq.symm hb
        · rw [Function.update_of_ne hqp] at hq
          exact ⟨hqp, hq⟩
      refine ⟨fun q addr' i' hq => ?_, fun q n hq => ?_, fun q addr' i' hq => ?_, fun hkills q n hq => ?_, h.killed⟩
      · obtain ⟨hqp, hq⟩ := hother q _ hq nofun
        exact absurd (hl.eq hlocked (congrArg PipeAt.locked hq)) hqp
      · obtain ⟨hqp, hq⟩ := hother q _ hq nofun
        exact absurd (hl.eq hlocked (congrArg PipeAt.locked hq)) hqp
      · obtain ⟨-, hq⟩ := hother q _ hq nofun
        obtain ⟨hopen, hfull' | ⟨r, hr⟩⟩ := h.writers q addr' i' hq
        · exact absurd hfull' hfull
        · rw [hl.eq hlocked (PipeAt.copying_locked hr), hp] at hr
          cases hr
      · obtain ⟨-, hq⟩ := hother q _ hq nofun
        exact ⟨(h.readers hkills q n hq).1, Or.inr ⟨p, congrArg PipeAt.writing hself⟩⟩
  | fail p hp hi hfull hwhy =>
      refine h.update rfl rfl h.killed nofun nofun nofun nofun (fun hc => hidle hp rfl hc) fun hkills _ =>
        Or.inr fun q n hq => ?_
      -- a reader would have the other end open
      have hopen := he.reads q (congrArg PipeAt.reads hq)
      rcases hwhy with hwhy | hwhy
      · rw [hopen] at hwhy
        cases hwhy
      · rw [h.killed hkills p] at hwhy
        cases hwhy
  | full p hp hi hfull hopen hkilled =>
      exact h.update rfl rfl h.killed (fun _ _ _ => ⟨hfull, hopen⟩) nofun nofun nofun (fun hc => hidle hp rfl hc)
        fun _ _ => Or.inl rfl
  | sleepW p hp =>
      have hfull := h.full p _ _ hp
      have hp' : w.wakeR.proc p = .full _ _ := congrArg PipeAt.wakeR hp
      refine h.wakeR.update rfl rfl h.killed nofun nofun (fun _ _ _ => hfull) nofun (fun hc => ?_)
        fun _ _ => Or.inr fun _ => PipeAt.wakeR_ne _
      rw [hp'] at hc
      cases hc
  | finish p hp hi =>
      have hp' : w.wakeR.proc p = .write _ _ := congrArg PipeAt.wakeR hp
      refine h.wakeR.update rfl rfl h.killed nofun nofun nofun nofun (fun hc => ?_) fun _ _ => Or.inr fun _ => PipeAt.wakeR_ne _
      rw [hp'] at hc
      cases hc
  | againW p hp hlock =>
      exact h.update rfl rfl h.killed nofun nofun nofun nofun (fun hc => hidle hp rfl hc) fun _ _ => Or.inl rfl
  | dies p hp hempty hopen hkilled =>
      exact h.update rfl rfl h.killed nofun nofun nofun nofun (fun hc => hidle hp rfl hc) fun _ hc => hidle' hp rfl hc
  | empty p hp hempty hopen hkilled =>
      exact h.update rfl rfl h.killed nofun (fun _ _ => ⟨hempty, hopen⟩) nofun nofun (fun hc => hidle hp rfl hc)
        fun _ hc => hidle' hp rfl hc
  | sleepR p hp =>
      have hempty := h.empty p _ hp
      exact h.update rfl rfl h.killed nofun nofun nofun (fun _ _ => hempty) (fun hc => hidle hp rfl hc)
        fun _ hc => hidle' hp rfl hc
  | againR p hp hlock =>
      exact h.update rfl rfl h.killed nofun nofun nofun nofun (fun hc => hidle hp rfl hc) fun _ hc => hidle' hp rfl hc
  | copy p hp hnot =>
      exact h.update rfl rfl h.killed nofun nofun nofun nofun (fun _ => Or.inl rfl) fun _ hc => hidle' hp rfl hc
  | @get p n addr hp hlt hempty =>
      have hlocked := congrArg PipeAt.locked hp
      have hself : Function.update w.proc p (.copy n (addr ++ [w.pipe.get.1])) p = .copy n (addr ++ [w.pipe.get.1]) :=
        Function.update_self ..
      have hother : ∀ q b, Function.update w.proc p (.copy n (addr ++ [w.pipe.get.1])) q = b → b.copying = false →
          q ≠ p ∧ w.proc q = b := by
        intro q b hq hb
        by_cases hqp : q = p
        · rw [hqp, hself] at hq
          rw [← hq] at hb
          cases hb
        · rw [Function.update_of_ne hqp] at hq
          exact ⟨hqp, hq⟩
      refine ⟨fun q addr' i' hq => ?_, fun q n' hq => ?_, fun q addr' i' hq => ?_, fun hkills q n' hq => ?_, h.killed⟩
      · obtain ⟨hqp, hq⟩ := hother q _ hq rfl
        exact absurd (hl.eq hlocked (congrArg PipeAt.locked hq)) hqp
      · obtain ⟨hqp, hq⟩ := hother q _ hq rfl
        exact absurd (hl.eq hlocked (congrArg PipeAt.locked hq)) hqp
      · obtain ⟨-, hq⟩ := hother q _ hq rfl
        exact ⟨(h.writers q addr' i' hq).1, Or.inr ⟨p, congrArg PipeAt.copying hself⟩⟩
      · obtain ⟨-, hq⟩ := hother q _ hq rfl
        obtain ⟨hopen, hempty' | ⟨r, hr⟩⟩ := h.readers hkills q n' hq
        · exact absurd hempty' hempty
        · rw [hl.eq hlocked (PipeAt.writing_locked hr), hp] at hr
          cases hr
  | done p hp hend =>
      have hp' : w.wakeW.proc p = .copy _ _ := congrArg PipeAt.wakeW hp
      refine h.wakeW.update rfl rfl h.killed nofun nofun nofun nofun (fun _ => Or.inr fun _ => PipeAt.wakeW_ne _) fun _ hc => ?_
      rw [hp'] at hc
      cases hc
  | wrote p hp =>
      exact h.update rfl rfl h.killed nofun nofun nofun nofun (fun hc => hidle hp rfl hc) fun _ hc => hidle' hp rfl hc
  | got p hp =>
      exact h.update rfl rfl h.killed nofun nofun nofun nofun (fun hc => hidle hp rfl hc) fun _ hc => hidle' hp rfl hc
  | closeW hopen hlock hnobody =>
      refine ⟨fun q addr i hq => ?_, fun q n hq => ?_, fun q addr i hq => ?_, fun _ q n hq => absurd hq (PipeAt.wakeR_ne _ n),
        h.killed⟩
      · have hlocked := congrArg PipeAt.locked (PipeAt.wakeR_eq hq nofun)
        rw [hl.none hlock q] at hlocked
        cases hlocked
      · have hlocked := congrArg PipeAt.locked (PipeAt.wakeR_eq hq nofun)
        rw [hl.none hlock q] at hlocked
        cases hlocked
      · have hwrites := congrArg PipeAt.writes (PipeAt.wakeR_eq hq nofun)
        rw [hnobody q] at hwrites
        cases hwrites
  | closeR hopen hlock hnobody =>
      refine ⟨fun q addr i hq => ?_, fun q n hq => ?_, fun q addr i hq => absurd hq (PipeAt.wakeW_ne _ addr i),
        fun _ q n hq => ?_, h.killed⟩
      · have hlocked := congrArg PipeAt.locked (PipeAt.wakeW_eq hq nofun)
        rw [hl.none hlock q] at hlocked
        cases hlocked
      · have hlocked := congrArg PipeAt.locked (PipeAt.wakeW_eq hq nofun)
        rw [hl.none hlock q] at hlocked
        cases hlocked
      · have hreads := congrArg PipeAt.reads (PipeAt.wakeW_eq hq nofun)
        rw [hnobody q] at hreads
        cases hreads
  | kill p hkills =>
      have hno : ∀ {r : Prop}, kills = false → r := fun hk => by
        rw [hk] at hkills
        cases hkills
      refine h.update rfl rfl hno (fun addr i ha => ?_) (fun n ha => ?_) (fun addr i ha => ?_)
        (fun n ha => ?_) (fun hc => Or.inl ?_) hno
      · exact h.full p addr i (PipeAt.wakeR_eq (PipeAt.wakeW_eq ha nofun) nofun)
      · exact h.empty p n (PipeAt.wakeR_eq (PipeAt.wakeW_eq ha nofun) nofun)
      · exact absurd ha (PipeAt.wakeW_ne _ addr i)
      · exact absurd (PipeAt.wakeW_eq ha nofun) (PipeAt.wakeR_ne _ n)
      · rw [PipeAt.wakeW_copying, PipeAt.wakeR_copying]
        exact hc

/-! ## All runs -/

/-- What every schedule keeps. -/
structure PipeInv (kills : Bool) (w : Piped P) : Prop where
  locked : Locked w
  ends : Ends w
  streams : ∃ bytes, Streams w bytes
  calls : ∀ p, Call w p (w.proc p)
  awake : Awake kills w

theorem pipeInv_start (data : Vector UInt8 pipesize) : PipeInv kills (Piped.start data : Piped P) where
  locked _ := iff_of_false Bool.false_ne_true nofun
  ends := ⟨nofun, nofun⟩
  streams := ⟨[], rfl, ⟨nofun, rfl, Nat.zero_le _⟩, rfl⟩
  calls _ := trivial
  awake := ⟨nofun, nofun, nofun, nofun, fun _ _ => rfl⟩

theorem pipeInv_step (h : PipeInv kills w) (hstep : w.Step kills w') : PipeInv kills w' where
  locked := locked_step h.locked hstep
  ends := ends_step h.ends hstep
  streams := by
    obtain ⟨bytes, hbytes⟩ := h.streams
    exact streams_step hbytes hstep
  calls := calls_step h.locked h.ends h.calls hstep
  awake := awake_step h.locked h.ends h.awake hstep

theorem pipeInv_reachable (h : w.Reachable kills) : PipeInv kills w := by
  induction h with
  | init data => exact pipeInv_start data
  | tail _ hstep ih => exact pipeInv_step ih hstep

/-- A reader sleeps, and a writer has put `k` bytes into the pipe. -/
theorem exists_writing (hpq : p ≠ q) (addr : List UInt8) (n k : Nat) (hk : k ≤ pipesize)
    (haddr : k ≤ addr.length) : ∃ w : Piped P, w.Reachable kills ∧ w.proc q = .sleepsR n
      ∧ w.proc p = .write addr k ∧ w.lock = some p ∧ w.pipe.readopen = true ∧ w.taken = [] ∧ w.sent.length = k := by
  induction k with
  | zero =>
      have h0 : (Piped.start (Vector.replicate pipesize 0) : Piped P).Reachable kills := .init _
      have h1 := h0.tail (.piperead q n rfl rfl rfl)
      have h2 := h1.tail (.empty q (Function.update_self ..) rfl rfl rfl)
      have h3 := h2.tail (.sleepR q (Function.update_self ..))
      have h4 := h3.tail (.pipewrite p addr ?_ rfl rfl)
      · refine ⟨_, h4, ?_, Function.update_self .., rfl, rfl, rfl, rfl⟩
        exact (Function.update_of_ne hpq.symm ..).trans (Function.update_self ..)
      · exact (Function.update_of_ne hpq ..).trans ((Function.update_of_ne hpq ..).trans
          (Function.update_of_ne hpq ..))
  | succ k ih =>
      obtain ⟨w, h, hq, hp, hlock, hopen, htaken, hsent⟩ := ih (Nat.le_of_succ_le hk) (Nat.le_of_succ_le haddr)
      have hfull : ¬w.pipe.Full := by
        obtain ⟨bytes, hbytes⟩ := (pipeInv_reachable h).streams
        have hlen := congrArg List.length hbytes.stream
        rw [List.length_map, htaken, List.map_nil, List.nil_append, hsent] at hlen
        rw [hbytes.buffers.full_iff, ← hlen]
        exact Nat.ne_of_lt hk
      refine ⟨_, h.tail (.put p haddr hp hfull), ?_, Function.update_self .., hlock, hopen, htaken, ?_⟩
      · exact (Function.update_of_ne hpq.symm ..).trans hq
      · rw [List.length_append, hsent]
        rfl

/-! ## What the processes can rely on -/

/-- The pipe is a queue: what came out is the beginning of what went in, the rest is in the buffer,
and there are never more than `PIPESIZE` bytes of it. -/
theorem pipe_fifo (h : w.Reachable kills) :
    ∃ bytes, w.sent.map Prod.snd = w.taken.map Prod.snd ++ bytes ∧ bytes.length ≤ pipesize
      ∧ w.pipe.nread = UInt32.ofNat w.taken.length ∧ w.pipe.nwrite = UInt32.ofNat w.sent.length
      ∧ Holds w.pipe.data.toList w.pipe.nread.toNat bytes := by
  obtain ⟨bytes, hbytes⟩ := (pipeInv_reachable h).streams
  refine ⟨bytes, hbytes.stream, hbytes.buffers.le, hbytes.nread, ?_, hbytes.buffers.holds⟩
  have hlen := congrArg List.length hbytes.stream
  rw [List.length_append, List.length_map, List.length_map] at hlen
  rw [hbytes.buffers.count, hbytes.nread, hlen, UInt32.ofNat_add]

theorem three_in_pipe : ∃ (w : Piped Bool) (bytes : List UInt8), w.sent.length = 3
    ∧ w.sent.map Prod.snd = w.taken.map Prod.snd ++ bytes := by
  obtain ⟨w, h, -, -, -, -, -, hsent⟩ := exists_writing (p := true) (q := false) nofun [1, 2, 3, 4] 5 3 (by decide)
    (by decide)
  obtain ⟨bytes, hbytes, -⟩ := pipe_fifo (h : w.Reachable false)
  exact ⟨w, bytes, hsent, hbytes⟩

/-- What the results say: `n` bytes written are all of them, in order, -1 is a part of them and only for a
killed process or a pipe that nobody reads; bytes read are bytes in a row that nobody else gets, and none
of them means the end. -/
theorem pipe_calls (h : w.Reachable kills) (p : P) :
    (∀ addr, w.proc p = .wrote addr true → w.Written p addr)
      ∧ (∀ addr, w.proc p = .wrote addr false → (∃ i < addr.length, w.Written p (addr.take i))
        ∧ (w.pipe.readopen = false ∨ w.killed p = true))
      ∧ (∀ n addr, w.proc p = .got n (some addr) → addr.length ≤ n ∧ w.Copied p addr
        ∧ addr <:+: w.taken.map Prod.snd ∧ (addr = [] → n = 0 ∨ w.pipe.Ended))
      ∧ ∀ n, w.proc p = .got n none → w.Copied p [] ∧ w.killed p = true := by
  have hcall := (pipeInv_reachable h).calls p
  refine ⟨fun addr hp => ?_, fun addr hp => ?_, fun n addr hp => ?_, fun n hp => ?_⟩
  · rwa [hp] at hcall
  · rwa [hp] at hcall
  · rwa [hp] at hcall
  · rwa [hp] at hcall

theorem three_written : ∃ w : Piped Bool, w.proc true = .wrote [1, 2, 3] true ∧ w.Written true [1, 2, 3] := by
  obtain ⟨w, h, -, hp, -⟩ := exists_writing (p := true) (q := false) nofun [1, 2, 3] 5 3 (by decide) (by decide)
  have h1 := (h : w.Reachable false).tail (.finish true hp (by decide))
  have hp1 : (w.wakeR.release true (.wrote [1, 2, 3] true)).proc true = .wrote [1, 2, 3] true := rfl
  exact ⟨_, hp1, (pipe_calls h1 true).1 [1, 2, 3] hp1⟩

/-- When nobody is killed, nobody sleeps at a pipe that has something for it, unless the process that
has the lock is about to wake it; and the two sides never sleep at once. -/
theorem pipe_no_lost_wakeup (h : w.Reachable false) :
    (∀ p addr i, w.proc p = .sleepsW addr i →
        w.pipe.readopen = true ∧ (w.pipe.Full ∨ ∃ q, (w.proc q).copying = true))
      ∧ (∀ p n, w.proc p = .sleepsR n →
        w.pipe.writeopen = true ∧ (w.pipe.Empty ∨ ∃ q, (w.proc q).writing = true))
      ∧ (w.lock = none → ∀ p q addr i n, w.proc p = .sleepsW addr i → w.proc q ≠ .sleepsR n) := by
  have hinv := pipeInv_reachable h
  refine ⟨hinv.awake.writers, hinv.awake.readers rfl, fun hlock p q addr i n hp hq => ?_⟩
  obtain ⟨bytes, hbytes⟩ := hinv.streams
  obtain ⟨-, hfull | ⟨r, hr⟩⟩ := hinv.awake.writers p addr i hp
  · obtain ⟨-, hempty | ⟨r, hr⟩⟩ := hinv.awake.readers rfl q n hq
    · have hlen := hbytes.buffers.full_iff.mp hfull
      rw [hbytes.buffers.empty_iff.mp hempty] at hlen
      cases hlen
    · have hlocked := hinv.locked.none hlock r
      rw [PipeAt.writing_locked hr] at hlocked
      cases hlocked
  · have hlocked := hinv.locked.none hlock r
    rw [PipeAt.copying_locked hr] at hlocked
    cases hlocked

theorem reader_awaited : ∃ w : Piped Bool, w.proc false = .sleepsR 5
    ∧ (w.pipe.Empty ∨ ∃ q, (w.proc q).writing = true) := by
  obtain ⟨w, h, hq, -⟩ := exists_writing (p := true) (q := false) nofun [1, 2, 3] 5 2 (by decide) (by decide)
  exact ⟨w, hq, ((pipe_no_lost_wakeup h).2.1 false 5 hq).2⟩

/-! ## A killed writer -/

end Cs537.Xv6
