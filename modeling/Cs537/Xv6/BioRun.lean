import Cs537.Xv6.Coherence

/-!
# Runs of the buffer cache and the drive

Who is where: a process in `bread` or `iderw` is at one buffer, which it has; the queue of
the drive is made of such buffers, each once, and the drive works on the first. Each step
keeps that, so in every run a process finds in its buffers what was last written to their
sectors, and nobody sleeps for good because of a wake-up that came too early.
-/

namespace Cs537.Xv6

open Lib

variable {P : Type} {faulty : Bool} {w w' : Bio P} {p q : P} {b c : Fin nbuf}
  {dev sector : UInt32} {cache cache' : Bcache} {xs : List (Fin nbuf)}
  {buf : Fin nbuf → Buf} {x : Buf} {key : UInt32 × UInt32}

/-! ## Where the processes are -/

/-- The buffer that a process is at, in `bread` or `iderw`. -/
def BioAt.op : BioAt → Option (Fin nbuf)
  | .bread b | .iderw b | .check b | .waits b => some b
  | .out | .bget _ _ | .sleeps _ _ _ => none

/-- What is true where a process is. -/
def Stage (buf : Fin nbuf → Buf) (queue : List (Fin nbuf)) (mine : Fin nbuf → Option (UInt32 × UInt32)) :
    BioAt → Prop
  | .out => True
  | .bget dev sector => Present dev sector
  | .sleeps b dev sector => Present dev sector ∧ (buf b).busy = true ∧ (buf b).key = (dev, sector)
  | .bread b => (∃ key, mine b = some key) ∧ (buf b).dirty = false
  | .iderw b => (∃ key, mine b = some key) ∧ ¬(buf b).Synced ∧ b ∉ queue
  | .check b => (∃ key, mine b = some key) ∧ (b ∈ queue ↔ ¬(buf b).Synced)
  | .waits b => (∃ key, mine b = some key) ∧ b ∈ queue

variable {queue queue' : List (Fin nbuf)} {buf' : Fin nbuf → Buf} {mine mine' : Fin nbuf → Option (UInt32 × UInt32)}
  {a : BioAt}

/-- Whoever is at a buffer has it. -/
theorem Stage.owned (h : Stage buf queue mine a) (ha : a.op = some b) : ∃ key, mine b = some key := by
  cases a with
  | out => cases ha
  | bget dev sector => cases ha
  | sleeps c dev sector => cases ha
  | bread c =>
      cases ha
      exact h.1
  | iderw c =>
      cases ha
      exact h.1
  | check c =>
      cases ha
      exact h.1
  | waits c =>
      cases ha
      exact h.1

/-- A process does not notice what happens to buffers that it does not have. -/
theorem Stage.congr (h : Stage buf queue mine a)
    (hmine : ∀ c key, mine c = some key → mine' c = some key ∧ buf' c = buf c ∧ (c ∈ queue' ↔ c ∈ queue))
    (hsleeps : ∀ c dev sector, a = .sleeps c dev sector → (buf c).busy = true →
      (buf' c).busy = true ∧ (buf' c).key = (buf c).key) :
    Stage buf' queue' mine' a := by
  cases a with
  | out => trivial
  | bget dev sector => exact h
  | sleeps c dev sector =>
      obtain ⟨hpresent, hbusy, hkey⟩ := h
      obtain ⟨hbusy', hkey'⟩ := hsleeps c dev sector rfl hbusy
      exact ⟨hpresent, hbusy', hkey'.trans hkey⟩
  | bread c =>
      obtain ⟨⟨key, hkey⟩, hrest⟩ := h
      obtain ⟨h1, h2, -⟩ := hmine c key hkey
      exact ⟨⟨key, h1⟩, by rw [h2]; exact hrest⟩
  | iderw c =>
      obtain ⟨⟨key, hkey⟩, hrest⟩ := h
      obtain ⟨h1, h2, h3⟩ := hmine c key hkey
      exact ⟨⟨key, h1⟩, by rw [h2, h3]; exact hrest⟩
  | check c =>
      obtain ⟨⟨key, hkey⟩, hrest⟩ := h
      obtain ⟨h1, h2, h3⟩ := hmine c key hkey
      exact ⟨⟨key, h1⟩, by rw [h2, h3]; exact hrest⟩
  | waits c =>
      obtain ⟨⟨key, hkey⟩, hrest⟩ := h
      obtain ⟨h1, -, h3⟩ := hmine c key hkey
      exact ⟨⟨key, h1⟩, h3.mpr hrest⟩

/-! ## The invariant -/

structure BioInv (faulty : Bool) (w : Bio P) : Prop where
  /-- The ring lists the buffers by when they were last released. -/
  listed : ∃ xs, Listed w.cache xs ∧ xs.Pairwise fun a b => w.released b ≤ w.released a
  clock : ∀ b, w.released b ≤ w.clock
  keys : Keys w.cache.buf
  owners : Owners w.cache.buf w.holds
  contents : Contents faulty w.cache.buf w.written w.disk
  idle : ∀ b, (w.cache.buf b).busy = false → (w.cache.buf b).dirty = false
  /-- The buffers of a process but the one it is at are in step with the disk. -/
  settled : ∀ p b key, w.holds p b = some key → (w.proc p).op ≠ some b → (w.cache.buf b).Synced
  stage : ∀ p, Stage w.cache.buf w.queue (w.holds p) (w.proc p)
  nodup : w.queue.Nodup
  queued : ∀ b ∈ w.queue, ¬(w.cache.buf b).Synced ∧ ∃ p, w.proc p = .check b ∨ w.proc p = .waits b
  drive : w.drive = w.queue.head?.map fun b => idestart (w.cache.buf b)

/-- Only the process that has a buffer can be at it. -/
theorem BioInv.op_eq (h : BioInv faulty w) (hp : w.holds p b = some key) (hq : (w.proc q).op = some b) : q = p := by
  obtain ⟨key', hkey'⟩ := (h.stage q).owned hq
  exact h.owners.single q p b key' key hkey' hp

theorem BioInv.of_holds {key' : UInt32 × UInt32} (h : BioInv faulty w) (hp : w.holds p b = some key)
    (hq : w.holds q b = some key') : q = p := h.owners.single q p b key' key hq hp

theorem BioInv.queued_op (h : BioInv faulty w) (hb : b ∈ w.queue) : ∃ q, (w.proc q).op = some b
    ∧ (w.proc q = .check b ∨ w.proc q = .waits b) := by
  obtain ⟨-, q, hq⟩ := h.queued b hb
  refine ⟨q, ?_, hq⟩
  rcases hq with hq | hq
  · rw [hq]
    rfl
  · rw [hq]
    rfl

/-- A queued buffer is the one that its process is at. -/
theorem BioInv.op_queued (h : BioInv faulty w) (hp : w.holds p b = some key) (hb : b ∈ w.queue) :
    w.proc p = .check b ∨ w.proc p = .waits b := by
  obtain ⟨q, hop, hq⟩ := h.queued_op hb
  rw [h.op_eq hp hop] at hq
  exact hq

/-- Nobody's buffer is not queued. -/
theorem BioInv.not_queued (h : BioInv faulty w) (hidle : (w.cache.buf b).busy = false) : b ∉ w.queue := by
  intro hb
  obtain ⟨q, hop, -⟩ := h.queued_op hb
  obtain ⟨key, hkey⟩ := (h.stage q).owned hop
  rw [h.owners.free hidle q] at hkey
  cases hkey

/-- What the owner of a buffer does with it, and the drive for it, is not noticed by the others. -/
theorem BioInv.others (h : BioInv faulty w) (hp : w.holds p b = some key) (hqp : q ≠ p)
    (hbusy : x.busy = (w.cache.buf b).busy) (hkey : x.key = (w.cache.buf b).key)
    (hqueue : ∀ c, c ≠ b → (c ∈ queue' ↔ c ∈ w.queue)) :
    Stage (w.cache.set b x).buf queue' (w.holds q) (w.proc q) := by
  have hnot : ∀ c key, w.holds q c = some key → c ≠ b := by
    rintro c key hq rfl
    exact hqp (h.of_holds hp hq)
  refine (h.stage q).congr (fun c key hq => ⟨hq, Function.update_of_ne (hnot c key hq) .., hqueue c (hnot c key hq)⟩)
    (fun c dev sector _ hc => ⟨?_, key_update hkey c⟩)
  by_cases hcb : c = b
  · subst hcb
    exact (congrArg Buf.busy (Function.update_self ..)).trans (hbusy.trans hc)
  · exact (congrArg Buf.busy (Function.update_of_ne hcb ..)).trans hc

/-! ## The start -/

theorem binit_fold {bs : List (Fin nbuf)} {c : Bcache} (h : Ring c.links xs) (hnd : bs.Nodup)
    (hdisj : ∀ b ∈ bs, b ∉ xs) :
    let c' := bs.foldl (fun c b =>
      { c.set b { c.buf b with dev := -1 } with links := c.links.insertHead b }) c
    Ring c'.links (bs.reverse ++ xs)
      ∧ ∀ b, c'.buf b = if b ∈ bs then { c.buf b with dev := -1 } else c.buf b := by
  induction bs generalizing c xs with
  | nil => exact ⟨h, fun b => (if_neg (List.not_mem_nil)).symm⟩
  | cons d ds ih =>
      obtain ⟨hd, hds⟩ := List.nodup_cons.mp hnd
      have hnew := h.insertHead (hdisj d (List.mem_cons_self ..))
      obtain ⟨hring, hbuf⟩ := @ih (d :: xs)
        { c.set d { c.buf d with dev := -1 } with links := c.links.insertHead d } hnew hds fun b hb => by
          rw [List.mem_cons, not_or]
          refine ⟨?_, hdisj b (List.mem_cons_of_mem _ hb)⟩
          rintro rfl
          exact hd hb
      refine ⟨?_, fun b => ?_⟩
      · rw [List.reverse_cons, List.append_assoc]
        exact hring
      · rw [List.foldl_cons, hbuf]
        show (if b ∈ ds then { Function.update c.buf d _ b with dev := -1 } else Function.update c.buf d _ b) = _
        by_cases hbd : b = d
        · subst hbd
          rw [if_neg hd, if_pos (List.mem_cons_self ..), Function.update_self]
        · rw [Function.update_of_ne hbd]
          simp only [List.mem_cons, hbd, false_or]

/-- `binit` lists the buffers, and none is for a sector. -/
theorem binit_spec (buf : Fin nbuf → Buf) :
    Listed (binit buf) (List.finRange nbuf).reverse ∧ ∀ b, (binit buf).buf b = { buf b with dev := -1 } := by
  obtain ⟨hring, hbuf⟩ := @binit_fold [] (List.finRange nbuf) ⟨buf, Links.head⟩ ring_head (List.nodup_finRange nbuf)
    fun _ _ => List.not_mem_nil
  refine ⟨⟨?_, fun b => List.mem_reverse.mpr (List.mem_finRange b)⟩, fun b => ?_⟩
  · rw [List.append_nil] at hring
    exact hring
  · exact (hbuf b).trans (if_pos (List.mem_finRange b))

theorem bioInv_start (disk : Address → Sector) : BioInv faulty (Bio.start disk : Bio P) := by
  obtain ⟨hlisted, hbuf⟩ := binit_spec fun _ => zeroBuf
  have hunused : ∀ b, ¬((binit fun _ => zeroBuf).buf b).Used := by
    intro b hb
    rw [hbuf] at hb
    exact absurd hb.1 (by decide)
  have hflags : ∀ b, ((binit fun _ => zeroBuf).buf b).busy = false ∧ ((binit fun _ => zeroBuf).buf b).dirty = false := by
    intro b
    rw [hbuf]
    exact ⟨rfl, rfl⟩
  refine ⟨⟨_, hlisted, List.pairwise_of_forall fun _ _ => Nat.le_refl 0⟩, fun _ => Nat.le_refl 0, ⟨fun b => ?_, ?_⟩,
    ⟨fun b hb => ?_, nofun, nofun⟩, ⟨fun b hb _ => absurd hb (hunused b), fun _ b hb _ => absurd hb (hunused b),
      fun _ => Or.inl rfl⟩, fun b _ => (hflags b).2, nofun, fun _ => trivial, List.nodup_nil, nofun, rfl⟩
  · exact Or.inl (congrArg Buf.dev (hbuf b))
  · exact fun b c hb _ => absurd hb (hunused b)
  · rw [show (Bio.start disk : Bio P).cache = binit fun _ => zeroBuf from rfl, (hflags b).1] at hb
    cases hb

/-! ## One step -/

variable [DecidableEq P]

@[simp] theorem Bio.move_self (w : Bio P) (p : P) (a : BioAt) : (w.move p a).proc p = a :=
  Function.update_self ..

theorem Bio.move_ne (w : Bio P) {p q : P} (a : BioAt) (h : q ≠ p) : (w.move p a).proc q = w.proc q :=
  Function.update_of_ne h ..

/-- A process that moves takes nothing with it. -/
theorem BioInv.move (h : BioInv faulty w) {a : BioAt} (hstage : Stage w.cache.buf w.queue (w.holds p) a)
    (hsettled : ∀ b key, w.holds p b = some key → a.op ≠ some b → (w.cache.buf b).Synced)
    (hqueued : ∀ b, w.proc p = .check b ∨ w.proc p = .waits b → b ∈ w.queue → a = .check b ∨ a = .waits b) :
    BioInv faulty (w.move p a) where
  listed := h.listed
  clock := h.clock
  keys := h.keys
  owners := h.owners
  contents := h.contents
  idle := h.idle
  settled q b key hq hop := by
    by_cases hqp : q = p
    · subst hqp
      rw [Bio.move_self] at hop
      exact hsettled b key hq hop
    · rw [Bio.move_ne w a hqp] at hop
      exact h.settled q b key hq hop
  stage q := by
    by_cases hqp : q = p
    · subst hqp
      rw [Bio.move_self]
      exact hstage
    · rw [Bio.move_ne w a hqp]
      exact h.stage q
  nodup := h.nodup
  queued b hb := by
    obtain ⟨hnot, q, hq⟩ := h.queued b hb
    refine ⟨hnot, q, ?_⟩
    by_cases hqp : q = p
    · subst hqp
      rw [Bio.move_self]
      exact hqueued b hq hb
    · rw [Bio.move_ne w a hqp]
      exact hq
  drive := h.drive

theorem bioInv_bread (h : BioInv faulty w) (hp : w.proc p = .out) (hkey : Present dev sector) :
    BioInv faulty (w.move p (.bget dev sector)) := by
  refine h.move hkey (fun b key hb _ => h.settled p b key hb ?_) (fun b hb _ => ?_)
  · rw [hp]
    exact nofun
  · rw [hp] at hb
    rcases hb with hb | hb <;> cases hb

theorem bioInv_sleep (h : BioInv faulty w) (hp : w.proc p = .bget dev sector)
    (hget : bget w.cache dev sector = (.sleeps b, cache')) :
    BioInv faulty { w.move p (.sleeps b dev sector) with cache := cache' } := by
  obtain ⟨xs, hlisted, -⟩ := h.listed
  obtain ⟨rfl, hbusy, hdev, hsector⟩ := bget_sleeps hlisted hget
  have hstage := h.stage p
  rw [hp] at hstage
  refine h.move ⟨hstage, hbusy, Prod.ext hdev hsector⟩ (fun b key hb _ => h.settled p b key hb ?_) (fun b hb _ => ?_)
  · rw [hp]
    exact nofun
  · rw [hp] at hb
    rcases hb with hb | hb <;> cases hb

theorem bioInv_hit (h : BioInv faulty w) (hp : w.proc p = .bread b) (hvalid : (w.cache.buf b).valid = true) :
    BioInv faulty (w.move p .out) := by
  have hstage := h.stage p
  rw [hp] at hstage
  refine h.move trivial (fun c key hc _ => ?_) (fun c hc _ => ?_)
  · by_cases hcb : c = b
    · rw [hcb]
      exact ⟨hvalid, hstage.2⟩
    · refine h.settled p c key hc ?_
      rw [hp]
      exact fun heq => hcb (Option.some.inj heq).symm
  · rw [hp] at hc
    rcases hc with hc | hc <;> cases hc

theorem bioInv_miss (h : BioInv faulty w) (hp : w.proc p = .bread b) (hvalid : (w.cache.buf b).valid = false) :
    BioInv faulty (w.move p (.iderw b)) := by
  have hstage := h.stage p
  rw [hp] at hstage
  obtain ⟨⟨key, hkey⟩, -⟩ := hstage
  refine h.move ⟨⟨key, hkey⟩, fun hs => ?_, fun hb => ?_⟩ (fun c key' hc hop => ?_) (fun c hc _ => ?_)
  · rw [hs.1] at hvalid
    cases hvalid
  · have hq := h.op_queued hkey hb
    rw [hp] at hq
    rcases hq with hq | hq <;> cases hq
  · refine h.settled p c key' hc ?_
    rw [hp]
    exact hop
  · rw [hp] at hc
    rcases hc with hc | hc <;> cases hc

theorem bioInv_wait (h : BioInv faulty w) (hp : w.proc p = .check b) (hnot : ¬(w.cache.buf b).Synced) :
    BioInv faulty (w.move p (.waits b)) := by
  have hstage := h.stage p
  rw [hp] at hstage
  refine h.move ⟨hstage.1, hstage.2.mpr hnot⟩ (fun c key hc hop => ?_) (fun c hc _ => ?_)
  · refine h.settled p c key hc ?_
    rw [hp]
    exact hop
  · rw [hp] at hc
    rcases hc with hc | hc
    · cases hc
      exact Or.inr rfl
    · cases hc

theorem bioInv_done (h : BioInv faulty w) (hp : w.proc p = .check b) (hdone : (w.cache.buf b).Synced) :
    BioInv faulty (w.move p .out) := by
  refine h.move trivial (fun c key hc _ => ?_) (fun c hc hcq => ?_)
  · by_cases hcb : c = b
    · rw [hcb]
      exact hdone
    · refine h.settled p c key hc ?_
      rw [hp]
      exact fun heq => hcb (Option.some.inj heq).symm
  · rw [hp] at hc
    rcases hc with hc | hc
    · cases hc
      exact absurd hdone (h.queued _ hcq).1
    · cases hc

theorem bioInv_kill (h : BioInv faulty w) (hchan : (w.proc p).chan = some b) :
    BioInv faulty (w.move p (w.proc p).woken) := by
  have hstage := h.stage p
  cases hp : w.proc p with
  | out | bget dev sector | bread c | iderw c | check c =>
      rw [hp] at hchan
      cases hchan
  | sleeps c dev sector =>
      rw [hp] at hstage
      refine h.move hstage.1 (fun c key hc _ => h.settled p c key hc ?_) (fun c hc _ => ?_)
      · rw [hp]
        exact nofun
      · rw [hp] at hc
        rcases hc with hc | hc <;> cases hc
  | waits c =>
      rw [hp] at hstage
      refine h.move ⟨hstage.1, iff_of_true hstage.2 (h.queued c hstage.2).1⟩ (fun d key hd hop => ?_)
        (fun d hd _ => ?_)
      · refine h.settled p d key hd ?_
        rw [hp]
        exact hop
      · rw [hp] at hd
        rcases hd with hd | hd
        · cases hd
        · cases hd
          exact Or.inl rfl

/-- The head of the queue is the same buffer as before. -/
theorem drive_congr (hsame : ∀ c ∈ queue, buf' c = buf c) :
    (queue.head?.map fun c => idestart (buf' c)) = queue.head?.map fun c => idestart (buf c) := by
  cases queue with
  | nil => rfl
  | cons c rest =>
      show some (idestart (buf' c)) = some (idestart (buf c))
      rw [hsame c (List.mem_cons_self ..)]

/-- `bget` gives a buffer away that nobody had. -/
theorem bioInv_got (h : BioInv faulty w) (hp : w.proc p = .bget dev sector)
    (hget : bget w.cache dev sector = (.got b, cache')) :
    BioInv faulty { w.move p (.bread b) with cache := cache', holds := give w.holds p b (some (dev, sector)) } := by
  obtain ⟨xs, hlisted, hsorted⟩ := h.listed
  obtain ⟨hidle, hgot⟩ := bget_got hlisted hget
  have hpresent : Present dev sector := by
    have hstage := h.stage p
    rwa [hp] at hstage
  have hclean := h.idle b hidle
  -- in both cases the others stay, and `b` is for the sector, busy and clean
  obtain ⟨x, rfl, hbusy, hkey, hdirty, hkeys, hdata⟩ : ∃ x, cache' = w.cache.set b x ∧ x.busy = true
      ∧ x.key = (dev, sector) ∧ x.dirty = false ∧ Keys (Function.update w.cache.buf b x)
      ∧ (x.valid = true → (w.cache.buf b).valid = true ∧ x.key = (w.cache.buf b).key
          ∧ x.data = (w.cache.buf b).data) := by
    rcases hgot with ⟨rfl, rfl, rfl⟩ | ⟨hmiss, -, rfl⟩
    · exact ⟨_, rfl, rfl, rfl, hclean, h.keys.same rfl, fun hv => ⟨hv, rfl, rfl⟩⟩
    · exact ⟨_, rfl, rfl, rfl, rfl, h.keys.set hpresent fun c _ heq => hmiss c (Prod.mk.inj heq), nofun⟩
  have hmine : ∀ q c key, w.holds q c = some key → c ≠ b := by
    rintro q c key hq rfl
    rw [h.owners.free hidle q] at hq
    cases hq
  have hsame : ∀ c, c ≠ b → (w.cache.set b x).buf c = w.cache.buf c := fun c hc => Function.update_of_ne hc ..
  have hqueue : ∀ c ∈ w.queue, c ≠ b := by
    rintro c hc rfl
    exact h.not_queued hidle hc
  refine ⟨⟨xs, ⟨hlisted.ring, hlisted.all⟩, hsorted⟩, h.clock, hkeys, h.owners.take hidle hbusy hkey hpresent,
    h.contents.clean hclean hdirty hdata, fun c hc => ?_, fun q c key hq hop => ?_, fun q => ?_, h.nodup,
    fun c hc => ?_, ?_⟩
  · change ((w.cache.set b x).buf c).busy = false at hc
    show ((w.cache.set b x).buf c).dirty = false
    by_cases hcb : c = b
    · subst hcb
      exact (congrArg Buf.dirty (Function.update_self ..)).trans hdirty
    · rw [hsame c hcb] at hc ⊢
      exact h.idle c hc
  · change give w.holds p b (some (dev, sector)) q c = some key at hq
    change ((w.move p (.bread b)).proc q).op ≠ some c at hop
    show ((w.cache.set b x).buf c).Synced
    by_cases hqc : q = p ∧ c = b
    · obtain ⟨rfl, rfl⟩ := hqc
      rw [Bio.move_self] at hop
      exact absurd rfl hop
    · rw [give_ne hqc] at hq
      rw [hsame c (hmine q c key hq)]
      refine h.settled q c key hq ?_
      by_cases hqp : q = p
      · rw [hqp, hp]
        exact nofun
      · rwa [Bio.move_ne _ _ hqp] at hop
  · show Stage (w.cache.set b x).buf w.queue (give w.holds p b (some (dev, sector)) q) ((w.move p (.bread b)).proc q)
    by_cases hqp : q = p
    · subst hqp
      rw [Bio.move_self]
      exact ⟨⟨_, give_self ..⟩, (congrArg Buf.dirty (Function.update_self ..)).trans hdirty⟩
    · rw [Bio.move_ne _ _ hqp]
      refine (h.stage q).congr (fun c key hq => ⟨(give_ne fun hqc => hqp hqc.1).trans hq, hsame c (hmine q c key hq),
        Iff.rfl⟩) (fun c dev' sector' _ hbusy' => ?_)
      have hcb : c ≠ b := by
        rintro rfl
        rw [hidle] at hbusy'
        cases hbusy'
      rw [hsame c hcb]
      exact ⟨hbusy', rfl⟩
  · obtain ⟨hnot, q, hq⟩ := h.queued c hc
    refine ⟨?_, q, ?_⟩
    · show ¬((w.cache.set b x).buf c).Synced
      rw [hsame c (hqueue c hc)]
      exact hnot
    · show (w.move p (.bread b)).proc q = _ ∨ (w.move p (.bread b)).proc q = _
      rw [Bio.move_ne]
      · exact hq
      · rintro rfl
        rw [hp] at hq
        rcases hq with hq | hq <;> cases hq
  · exact h.drive.trans (drive_congr fun c hc => hsame c (hqueue c hc)).symm

/-! ## A process changes a buffer that it has -/

theorem bioInv_bwrite {data : Sector} (h : BioInv faulty w) (hp : w.proc p = .out)
    (hb : w.holds p b = some (dev, sector)) (hw : bwrite w.cache b data = some cache') :
    BioInv faulty { w.move p (.iderw b) with
      cache := cache', written := Function.update w.written (addressOf dev sector) data } := by
  obtain ⟨hbusy, hpresent, hkey⟩ := h.owners.held p b _ hb
  have hcheck : ¬(w.cache.buf b).busy = false := by
    intro hidle
    rw [hbusy] at hidle
    cases hidle
  rw [bwrite, if_neg hcheck] at hw
  cases hw
  have haddr : addressOf dev sector = (w.cache.buf b).address := by
    obtain ⟨hdev, hsector⟩ := Prod.mk.inj hkey
    rw [Buf.address, hdev, hsector]
  have hself : (w.cache.set b { w.cache.buf b with data := data, dirty := true }).buf b
      = { w.cache.buf b with data := data, dirty := true } := Function.update_self ..
  have hsame : ∀ c, c ≠ b → (w.cache.set b { w.cache.buf b with data := data, dirty := true }).buf c
      = w.cache.buf c := fun c hc => Function.update_of_ne hc ..
  have hnot : b ∉ w.queue := by
    intro hq
    have hat := h.op_queued hb hq
    rw [hp] at hat
    rcases hat with hat | hat <;> cases hat
  obtain ⟨xs, hlisted, hsorted⟩ := h.listed
  refine ⟨⟨xs, ⟨hlisted.ring, hlisted.all⟩, hsorted⟩, h.clock, h.keys.same rfl, h.owners.same rfl rfl, ?_,
    fun c hc => ?_, fun q c key hq hop => ?_, fun q => ?_, h.nodup, fun c hc => ?_, ?_⟩
  · rw [haddr]
    exact h.contents.write h.keys (h.owners.used hb) rfl rfl
  · change ((w.cache.set b _).buf c).busy = false at hc
    show ((w.cache.set b _).buf c).dirty = false
    by_cases hcb : c = b
    · rw [hcb, hself] at hc
      rw [hbusy] at hc
      cases hc
    · rw [hsame c hcb] at hc ⊢
      exact h.idle c hc
  · change ((w.move p (.iderw b)).proc q).op ≠ some c at hop
    show ((w.cache.set b _).buf c).Synced
    have hcb : c ≠ b := by
      rintro rfl
      have hqp := h.of_holds hb hq
      subst hqp
      rw [Bio.move_self] at hop
      exact hop rfl
    rw [hsame c hcb]
    refine h.settled q c key hq ?_
    by_cases hqp : q = p
    · rw [hqp, hp]
      intro hno
      cases hno
    · rwa [Bio.move_ne _ _ hqp] at hop
  · show Stage (w.cache.set b _).buf w.queue (w.holds q) ((w.move p (.iderw b)).proc q)
    by_cases hqp : q = p
    · subst hqp
      rw [Bio.move_self]
      refine ⟨⟨_, hb⟩, fun hs => ?_, hnot⟩
      rw [hself] at hs
      cases hs.2
    · rw [Bio.move_ne _ _ hqp]
      exact h.others hb hqp rfl rfl fun _ _ => Iff.rfl
  · obtain ⟨hnew, q, hq⟩ := h.queued c hc
    refine ⟨?_, q, ?_⟩
    · show ¬((w.cache.set b _).buf c).Synced
      rw [hsame c (by rintro rfl; exact hnot hc)]
      exact hnew
    · show (w.move p (.iderw b)).proc q = _ ∨ (w.move p (.iderw b)).proc q = _
      rw [Bio.move_ne]
      · exact hq
      · rintro rfl
        rw [hp] at hq
        rcases hq with hq | hq <;> cases hq
  · refine h.drive.trans (drive_congr fun c hc => hsame c ?_).symm
    rintro rfl
    exact hnot hc

theorem bioInv_iderw (h : BioInv faulty w) (hp : w.proc p = .iderw b) :
    BioInv faulty ((w.move p (.check b)).append b) := by
  have hstage := h.stage p
  rw [hp] at hstage
  obtain ⟨⟨key, hb⟩, hnot, hfresh⟩ := hstage
  have hmem : ∀ c, c ∈ w.queue ++ [b] ↔ c ∈ w.queue ∨ c = b := fun c => by rw [List.mem_append, List.mem_singleton]
  refine ⟨h.listed, h.clock, h.keys, h.owners, h.contents, h.idle, fun q c key' hq hop => ?_, fun q => ?_, ?_,
    fun c hc => ?_, ?_⟩
  · refine h.settled q c key' hq ?_
    change ((w.move p (.check b)).proc q).op ≠ some c at hop
    by_cases hqp : q = p
    · subst hqp
      rw [hp]
      rwa [Bio.move_self] at hop
    · rwa [Bio.move_ne _ _ hqp] at hop
  · show Stage w.cache.buf (w.queue ++ [b]) (w.holds q) ((w.move p (.check b)).proc q)
    by_cases hqp : q = p
    · subst hqp
      rw [Bio.move_self]
      exact ⟨⟨key, hb⟩, iff_of_true ((hmem b).mpr (Or.inr rfl)) hnot⟩
    · rw [Bio.move_ne _ _ hqp]
      refine (h.stage q).congr (fun c key' hq => ⟨hq, rfl, ?_⟩) (fun c _ _ _ hc => ⟨hc, rfl⟩)
      rw [hmem]
      refine ⟨fun hc => hc.resolve_right ?_, Or.inl⟩
      rintro rfl
      exact hqp (h.of_holds hb hq)
  · refine List.nodup_append.mpr ⟨h.nodup, List.nodup_singleton b, fun c hc d hd heq => ?_⟩
    rw [heq, List.mem_singleton.mp hd] at hc
    exact hfresh hc
  · rcases (hmem c).mp hc with hc | rfl
    · obtain ⟨hnew, q, hq⟩ := h.queued c hc
      refine ⟨hnew, q, ?_⟩
      show (w.move p (.check b)).proc q = _ ∨ (w.move p (.check b)).proc q = _
      rw [Bio.move_ne]
      · exact hq
      · rintro rfl
        rw [hp] at hq
        rcases hq with hq | hq <;> cases hq
    · exact ⟨hnot, p, Or.inl (Bio.move_self ..)⟩
  · show (if w.queue = [] then some (idestart (w.cache.buf b)) else w.drive)
      = (w.queue ++ [b]).head?.map fun c => idestart (w.cache.buf c)
    cases hqueue : w.queue with
    | nil => exact if_pos rfl
    | cons c rest =>
        rw [if_neg (List.cons_ne_nil c rest), h.drive, hqueue]
        rfl

/-! ## Waking -/

@[simp] theorem BioAt.wakeup_op (b : Fin nbuf) (a : BioAt) : (a.wakeup b).op = a.op := by
  rw [BioAt.wakeup]
  split
  · cases a with
    | out | bget dev sector | sleeps c dev sector | bread c | iderw c | check c | waits c => rfl
  · rfl

theorem BioAt.wakeup_sleeps {b c : Fin nbuf} {a : BioAt} (h : a.wakeup b = .sleeps c dev sector) :
    a = .sleeps c dev sector ∧ c ≠ b := by
  rw [BioAt.wakeup] at h
  split at h
  · cases a with
    | out | bget dev sector | sleeps c dev sector | bread c | iderw c | check c | waits c => cases h
  · rename_i hchan
    subst h
    exact ⟨rfl, fun hcb => hchan (congrArg some hcb)⟩

theorem BioAt.wakeup_ne (hcb : c ≠ b) (ha : a = .check c ∨ a = .waits c) : a.wakeup b = a := by
  rcases ha with rfl | rfl
  · rfl
  · exact if_neg fun heq => hcb (Option.some.inj heq)

/-- Whoever waits for a buffer that is not its own can be woken at any time. -/
theorem Stage.wakeup (h : Stage buf queue mine a) (ha : a.op ≠ some b) : Stage buf queue mine (a.wakeup b) := by
  rw [BioAt.wakeup]
  split
  · rename_i hchan
    cases a with
    | out | bget dev sector | bread c | iderw c | check c => cases hchan
    | sleeps c dev sector => exact h.1
    | waits c => exact absurd hchan ha
  · exact h

/-- The interrupt for the first buffer of the queue. -/
theorem bioInv_ideintr {rest : List (Fin nbuf)} {cmd : Command} {ok : Bool} (h : BioInv faulty w)
    (hqueue : w.queue = b :: rest) (hdrive : w.drive = some cmd) (hok : ok = true ∨ faulty = true) :
    BioInv faulty (w.ideintr b rest cmd ok) := by
  have hbq : b ∈ w.queue := by
    rw [hqueue]
    exact List.mem_cons_self ..
  obtain ⟨p, hop, hat⟩ := h.queued_op hbq
  obtain ⟨key, hb⟩ := (h.stage p).owned hop
  have hnd := h.nodup
  rw [hqueue, List.nodup_cons] at hnd
  have hcmd : cmd = idestart (w.cache.buf b) := by
    have hd := h.drive
    rw [hdrive, hqueue] at hd
    exact Option.some.inj hd
  obtain ⟨x, hx, hbusy, hkey, hvalid, hdirty, hdata⟩ : ∃ x, (w.ideintr b rest cmd ok).cache = w.cache.set b x
      ∧ x.busy = (w.cache.buf b).busy ∧ x.key = (w.cache.buf b).key ∧ x.valid = true ∧ x.dirty = false
      ∧ ((w.cache.buf b).dirty = true ∧ x.data = (w.cache.buf b).data
        ∨ (w.cache.buf b).dirty = false ∧ (faulty = false → x.data = w.disk (w.cache.buf b).address)) := by
    refine ⟨_, rfl, rfl, rfl, rfl, rfl, ?_⟩
    cases hd : (w.cache.buf b).dirty with
    | true => exact Or.inl ⟨rfl, rfl⟩
    | false =>
        refine Or.inr ⟨rfl, fun hf => ?_⟩
        have hok : ok = true := hok.resolve_right (by rw [hf]; exact Bool.false_ne_true)
        rw [hcmd, hok, idestart, hd]
        rfl
  have hself : (w.cache.set b x).buf b = x := Function.update_self ..
  have hsame : ∀ c, c ≠ b → (w.cache.set b x).buf c = w.cache.buf c := fun c hc => Function.update_of_ne hc ..
  have hmem : ∀ c, c ≠ b → (c ∈ rest ↔ c ∈ w.queue) := by
    intro c hc
    rw [hqueue, List.mem_cons, or_iff_right hc]
  have hrest : ∀ c ∈ rest, c ≠ b := by
    rintro c hc rfl
    exact hnd.1 hc
  obtain ⟨xs, hlisted, hsorted⟩ := h.listed
  refine ⟨⟨xs, ⟨hlisted.ring, hlisted.all⟩, hsorted⟩, h.clock, ?_, ?_, ?_, fun c hc => ?_, fun q c key' hq hop' => ?_,
    fun q => ?_, hnd.2, fun c hc => ?_, ?_⟩
  · rw [hx]
    exact h.keys.same hkey
  · rw [hx]
    exact h.owners.same hbusy hkey
  · rw [hx]
    show Contents faulty _ w.written (cmd.disk w.disk)
    rw [hcmd]
    exact h.contents.intr h.keys (h.owners.used hb) hkey hdirty hdata
  · rw [hx] at hc ⊢
    by_cases hcb : c = b
    · rw [hcb, hself]
      exact hdirty
    · rw [hsame c hcb] at hc ⊢
      exact h.idle c hc
  · rw [hx]
    change ((w.proc q).wakeup b).op ≠ some c at hop'
    rw [BioAt.wakeup_op] at hop'
    by_cases hcb : c = b
    · rw [hcb, hself]
      exact ⟨hvalid, hdirty⟩
    · rw [hsame c hcb]
      exact h.settled q c key' hq hop'
  · rw [hx]
    show Stage (w.cache.set b x).buf rest (w.holds q) ((w.proc q).wakeup b)
    by_cases hqp : q = p
    · subst hqp
      -- the process itself finds its request finished
      have hcheck : (w.proc q).wakeup b = .check b := by
        rcases hat with hat | hat
        · rw [hat]
          rfl
        · rw [hat]
          exact if_pos rfl
      rw [hcheck]
      refine ⟨⟨key, hb⟩, iff_of_false hnd.1 (not_not.mpr ?_)⟩
      rw [hself]
      exact ⟨hvalid, hdirty⟩
    · refine (h.others hb hqp hbusy hkey hmem).wakeup fun hq => hqp ?_
      exact h.op_eq hb hq
  · rw [hx]
    have hcq := (hmem c (hrest c hc)).mp hc
    obtain ⟨hnew, q, hq⟩ := h.queued c hcq
    refine ⟨?_, q, ?_⟩
    · rw [hsame c (hrest c hc)]
      exact hnew
    · show (w.proc q).wakeup b = _ ∨ (w.proc q).wakeup b = _
      rw [BioAt.wakeup_ne (hrest c hc) hq]
      exact hq
  · rfl

/-! ## A buffer is given back -/

theorem Listed.split (h : Listed cache xs) (b : Fin nbuf) : ∃ ys zs, xs = ys ++ b :: zs :=
  List.append_of_mem (h.all b)

theorem bioInv_brelse (h : BioInv faulty w) (hp : w.proc p = .out) (hb : w.holds p b = some key)
    (hrel : brelse w.cache b = some cache') :
    BioInv faulty { w with
      cache := cache'
      holds := give w.holds p b none
      proc := fun q => (w.proc q).wakeup b
      released := Function.update w.released b (w.clock + 1)
      clock := w.clock + 1 } := by
  have hbusy := (h.owners.held p b _ hb).1
  rw [brelse, if_neg (by rw [hbusy]; exact nofun)] at hrel
  cases hrel
  have hsynced : (w.cache.buf b).Synced := by
    refine h.settled p b key hb ?_
    rw [hp]
    exact nofun
  have hnot : b ∉ w.queue := by
    intro hq
    have hat := h.op_queued hb hq
    rw [hp] at hat
    rcases hat with hat | hat <;> cases hat
  have hop : ∀ q, (w.proc q).op ≠ some b := by
    intro q hq
    rw [h.op_eq hb hq, hp] at hq
    cases hq
  have hself : (w.cache.set b { w.cache.buf b with busy := false }).buf b = { w.cache.buf b with busy := false } :=
    Function.update_self ..
  have hsame : ∀ c, c ≠ b → (w.cache.set b { w.cache.buf b with busy := false }).buf c = w.cache.buf c :=
    fun c hc => Function.update_of_ne hc ..
  have hmine : ∀ q c key', give w.holds p b none q c = some key' → c ≠ b ∧ w.holds q c = some key' := by
    intro q c key' hq
    by_cases hqc : q = p ∧ c = b
    · obtain ⟨rfl, rfl⟩ := hqc
      rw [give_self] at hq
      cases hq
    · rw [give_ne hqc] at hq
      refine ⟨?_, hq⟩
      rintro rfl
      exact hqc ⟨h.of_holds hb hq, rfl⟩
  refine ⟨?_, fun c => ?_, h.keys.same rfl, h.owners.drop hb rfl, ?_, fun c hc => ?_, fun q c key' hq hop' => ?_,
    fun q => ?_, h.nodup, fun c hc => ?_, ?_⟩
  · obtain ⟨xs, hlisted, hsorted⟩ := h.listed
    obtain ⟨ys, zs, rfl⟩ := hlisted.split b
    have hnd := hlisted.ring.nodup
    have hout : b ∉ ys ++ zs := (List.nodup_middle.mp hnd |> List.nodup_cons.mp).1
    refine ⟨b :: (ys ++ zs), ⟨hlisted.ring.unlink.insertHead hout, fun c => ?_⟩, List.pairwise_cons.mpr ⟨?_, ?_⟩⟩
    · have hc := hlisted.all c
      rw [List.mem_append, List.mem_cons] at hc
      rw [List.mem_cons, List.mem_append]
      rcases hc with hc | hc | hc
      · exact Or.inr (Or.inl hc)
      · exact Or.inl hc
      · exact Or.inr (Or.inr hc)
    · intro c hc
      have hcb : c ≠ b := by
        rintro rfl
        exact hout hc
      show Function.update w.released b (w.clock + 1) c ≤ Function.update w.released b (w.clock + 1) b
      rw [Function.update_self, Function.update_of_ne hcb]
      exact Nat.le_succ_of_le (h.clock c)
    · have hsub : (ys ++ zs).Sublist (ys ++ b :: zs) := List.Sublist.append_left (List.sublist_cons_self ..) ys
      refine (hsorted.sublist hsub).imp_of_mem fun {c d} hc hd hle => ?_
      show Function.update w.released b (w.clock + 1) d ≤ Function.update w.released b (w.clock + 1) c
      rw [Function.update_of_ne (by rintro rfl; exact hout hd), Function.update_of_ne (by rintro rfl; exact hout hc)]
      exact hle
  · show Function.update w.released b (w.clock + 1) c ≤ w.clock + 1
    by_cases hcb : c = b
    · rw [hcb, Function.update_self]
    · rw [Function.update_of_ne hcb]
      exact Nat.le_succ_of_le (h.clock c)
  · exact h.contents.clean hsynced.2 hsynced.2 fun hv => ⟨hv, rfl, rfl⟩
  · change ((w.cache.set b _).buf c).busy = false at hc
    show ((w.cache.set b _).buf c).dirty = false
    by_cases hcb : c = b
    · rw [hcb, hself]
      exact hsynced.2
    · rw [hsame c hcb] at hc ⊢
      exact h.idle c hc
  · show ((w.cache.set b _).buf c).Synced
    change ((w.proc q).wakeup b).op ≠ some c at hop'
    rw [BioAt.wakeup_op] at hop'
    obtain ⟨hcb, hq⟩ := hmine q c key' hq
    rw [hsame c hcb]
    exact h.settled q c key' hq hop'
  · show Stage (w.cache.set b _).buf w.queue (give w.holds p b none q) ((w.proc q).wakeup b)
    by_cases hqp : q = p
    · rw [hqp, hp]
      trivial
    · refine ((h.stage q).wakeup (hop q)).congr (fun c key' hq => ?_) (fun c dev' sector' ha hc => ?_)
      · have hcb : c ≠ b := by
          rintro rfl
          exact hqp (h.of_holds hb hq)
        exact ⟨(give_ne fun hqc => hcb hqc.2).trans hq, hsame c hcb, Iff.rfl⟩
      · rw [hsame c (BioAt.wakeup_sleeps ha).2]
        exact ⟨hc, rfl⟩
  · obtain ⟨hnew, q, hq⟩ := h.queued c hc
    refine ⟨?_, q, ?_⟩
    · show ¬((w.cache.set b _).buf c).Synced
      rw [hsame c (by rintro rfl; exact hnot hc)]
      exact hnew
    · show (w.proc q).wakeup b = _ ∨ (w.proc q).wakeup b = _
      rw [BioAt.wakeup_ne (by rintro rfl; exact hnot hc) hq]
      exact hq
  · refine h.drive.trans (drive_congr fun c hc => hsame c ?_).symm
    rintro rfl
    exact hnot hc

/-! ## All runs -/

theorem bioInv_step (h : BioInv faulty w) (hstep : w.Step faulty w') : BioInv faulty w' := by
  cases hstep with
  | bread p hp hkey => exact bioInv_bread h hp hkey
  | got p hp hget => exact bioInv_got h hp hget
  | sleep p hp hget => exact bioInv_sleep h hp hget
  | hit p hp hvalid => exact bioInv_hit h hp hvalid
  | miss p hp hvalid => exact bioInv_miss h hp hvalid
  | bwrite p hp hb hw => exact bioInv_bwrite h hp hb hw
  | iderw p hp _ _ => exact bioInv_iderw h hp
  | wait p hp hnot => exact bioInv_wait h hp hnot
  | done p hp hdone => exact bioInv_done h hp hdone
  | ideintr hqueue hdrive hok => exact bioInv_ideintr h hqueue hdrive hok
  | kill p hchan => exact bioInv_kill h hchan
  | brelse p hp hb hrel => exact bioInv_brelse h hp hb hrel

theorem bioInv_reachable (h : w.Reachable faulty) : BioInv faulty w := by
  induction h with
  | init disk => exact bioInv_start disk
  | tail _ hstep ih => exact bioInv_step ih hstep

/-! ## What the users of the cache can rely on -/

/-- A process reads a sector, and waits for the drive. -/
theorem exists_waits : ∃ w : Bio Unit, w.Reachable false ∧ w.proc () = .waits 0 ∧ w.holds () 0 = some (1, 7)
    ∧ (w.cache.buf 0).busy = true ∧ w.queue = [0] ∧ w.drive = some (.read (1, 7))
    ∧ w.disk = fun _ => Vector.replicate 512 0 := by
  have h0 : (Bio.start fun _ => Vector.replicate 512 0 : Bio Unit).Reachable false := .init _
  have h1 := h0.tail (.bread () rfl (show Present 1 7 from ⟨by decide, by decide⟩))
  have h2 := h1.tail (.got () (b := 0) rfl rfl)
  have h3 := h2.tail (.miss () rfl rfl)
  have h4 := h3.tail (.iderw () rfl rfl (by decide))
  have h5 := h4.tail (.wait () rfl (by decide))
  exact ⟨_, h5, rfl, rfl, rfl, rfl, rfl, rfl⟩

/-- The drive has read it. -/
theorem exists_read : ∃ w : Bio Unit, w.Reachable false ∧ w.proc () = .out ∧ w.holds () 0 = some (1, 7)
    ∧ (w.cache.buf 0).busy = true ∧ w.disk = fun _ => Vector.replicate 512 0 := by
  obtain ⟨w, h, hp, hb, hbusy, hqueue, hdrive, hdisk⟩ := exists_waits
  have h1 := h.tail (.ideintr (b := 0) hqueue hdrive (Or.inl (rfl : true = true)))
  have hp1 : (w.ideintr 0 [] (.read (1, 7)) true).proc () = .check 0 := by
    show (w.proc ()).wakeup 0 = .check 0
    rw [hp]
    rfl
  have hsynced : ((w.ideintr 0 [] (.read (1, 7)) true).cache.buf 0).Synced := ⟨rfl, rfl⟩
  exact ⟨_, h1.tail (.done () hp1 hsynced), Bio.move_self .., hb, hbusy, hdisk⟩

/-- Who has a buffer that `bread` or `bwrite` has returned has the only one for its sector, and in it
what was last written there. -/
theorem bread_coherent (h : w.Reachable false) (hout : w.proc p = .out) (hb : w.holds p b = some (dev, sector)) :
    (w.cache.buf b).key = (dev, sector) ∧ (w.cache.buf b).Synced
      ∧ (w.cache.buf b).data = w.written (addressOf dev sector)
      ∧ ∀ q c, w.holds q c = some (dev, sector) → q = p ∧ c = b := by
  have hinv := bioInv_reachable h
  obtain ⟨-, hpresent, hkey⟩ := hinv.owners.held p b _ hb
  have hsynced : (w.cache.buf b).Synced := by
    refine hinv.settled p b _ hb ?_
    rw [hout]
    exact nofun
  have hdata := hinv.contents.valid rfl b (hinv.owners.used hb) hsynced.1
  refine ⟨hkey, hsynced, ?_, fun q c hc => ?_⟩
  · obtain ⟨hdev, hsector⟩ := Prod.mk.inj hkey
    rw [hdata, Buf.address, hdev, hsector]
  · obtain ⟨-, -, hkey'⟩ := hinv.owners.held q c _ hc
    have hcb : c = b := hinv.keys.unique c b (hinv.owners.used hc) (hkey'.trans hkey.symm)
    subst hcb
    exact ⟨hinv.of_holds hb hc, rfl⟩

theorem read_coherent : ∃ w : Bio Unit, w.proc () = .out
    ∧ (w.cache.buf 0).data = w.written (1, 7) := by
  obtain ⟨w, h, hp, hb, -⟩ := exists_read
  exact ⟨w, hp, (bread_coherent h hp hb).2.2.1⟩

/-- A sector that is not in the cache gets the buffer that was released first, of those that nobody has;
only when every buffer belongs to a process does `bget` panic. -/
theorem bget_recycles (h : w.Reachable faulty)
    (hmiss : ∀ c, ¬((w.cache.buf c).dev = dev ∧ (w.cache.buf c).sector = sector)) :
    (∃ b cache', bget w.cache dev sector = (.got b, cache') ∧ (w.cache.buf b).busy = false
        ∧ ∀ c, (w.cache.buf c).busy = false → w.released b ≤ w.released c)
      ∨ bget w.cache dev sector = (.panic, w.cache) ∧ ∀ c, ∃ q key, w.holds q c = some key := by
  have hinv := bioInv_reachable h
  obtain ⟨xs, hlisted, hsorted⟩ := hinv.listed
  have hno : xs.find? (fun b => (w.cache.buf b).dev == dev && (w.cache.buf b).sector == sector) = none := by
    refine List.find?_eq_none.mpr fun c _ hc => hmiss c ?_
    rwa [Bool.and_eq_true, beq_iff_eq, beq_iff_eq] at hc
  have hnext := hlisted.ring.scan_next (p := fun b => (w.cache.buf b).dev == dev && (w.cache.buf b).sector == sector)
    hlisted.length_lt
  have hprev := hlisted.ring.scan_prev (p := fun b => !(w.cache.buf b).busy) hlisted.length_lt
  rw [hno] at hnext
  cases hfind : xs.reverse.find? (fun b => !(w.cache.buf b).busy) with
  | none =>
      rw [hfind] at hprev
      have hget : bget w.cache dev sector = (.panic, w.cache) := by simp only [bget, hnext, hprev]
      refine Or.inr ⟨hget, fun c => hinv.owners.busy c ?_⟩
      have hc := List.find?_eq_none.mp hfind c (List.mem_reverse.mpr (hlisted.all c))
      rwa [Bool.not_eq_true', Bool.not_eq_false] at hc
  | some b =>
      rw [hfind] at hprev
      have hget : bget w.cache dev sector = (.got b, w.cache.set b { w.cache.buf b with
          dev := dev, sector := sector, busy := true, valid := false, dirty := false }) := by
        simp only [bget, hnext, hprev]
      obtain ⟨hidle, ys, zs, hsplit, hbefore⟩ := List.find?_eq_some_iff_append.mp hfind
      rw [Bool.not_eq_true'] at hidle
      refine Or.inl ⟨b, _, hget, hidle, fun c hc => ?_⟩
      -- `c` is not among the busy ones behind `b`, so it was released later
      have hsorted' := List.pairwise_reverse.mpr hsorted
      rw [hsplit, List.pairwise_append] at hsorted'
      have hmem : c ∈ ys ++ b :: zs := hsplit ▸ List.mem_reverse.mpr (hlisted.all c)
      rcases List.mem_append.mp hmem with hys | hys
      · have hbusy := hbefore c hys
        rw [hc] at hbusy
        cases hbusy
      · rcases List.mem_cons.mp hys with rfl | hzs
        · exact Nat.le_refl _
        · exact (List.pairwise_cons.mp hsorted'.2.1).1 c hzs

theorem first_recycled : ∃ w : Bio Unit,
    (∃ b cache', bget w.cache 1 7 = (.got b, cache')) ∨ bget w.cache 1 7 = (.panic, w.cache) := by
  have h0 : (Bio.start fun _ => Vector.replicate 512 0 : Bio Unit).Reachable false := .init _
  rcases bget_recycles h0 (by decide : ∀ c, ¬(((binit fun _ => zeroBuf).buf c).dev = 1
    ∧ ((binit fun _ => zeroBuf).buf c).sector = 7)) with ⟨b, cache', h, -⟩ | ⟨h, -⟩
  · exact ⟨_, Or.inl ⟨b, cache', h⟩⟩
  · exact ⟨_, Or.inr h⟩

/-- Nobody sleeps without somebody to wake it: who waits for the drive has its buffer in the queue, and the
drive is at the first of the queue; who waits for a buffer waits for one that a process has, for that sector. -/
theorem bio_no_lost_wakeup (h : w.Reachable faulty) (p : P) :
    (∀ b, w.proc p = .waits b → b ∈ w.queue ∧ (∃ c ∈ w.queue.head?, w.drive = some (idestart (w.cache.buf c)))
        ∧ ¬(w.cache.buf b).Synced)
      ∧ ∀ b dev sector, w.proc p = .sleeps b dev sector → ∃ q, w.holds q b = some (dev, sector) := by
  have hinv := bioInv_reachable h
  refine ⟨fun b hp => ?_, fun b dev sector hp => ?_⟩
  · have hstage := hinv.stage p
    rw [hp] at hstage
    refine ⟨hstage.2, ?_, (hinv.queued b hstage.2).1⟩
    cases hqueue : w.queue with
    | nil =>
        have hb := hstage.2
        rw [hqueue] at hb
        cases hb
    | cons c rest =>
        refine ⟨c, rfl, ?_⟩
        rw [hinv.drive, hqueue]
        rfl
  · have hstage := hinv.stage p
    rw [hp] at hstage
    obtain ⟨q, key, hq⟩ := hinv.owners.busy b hstage.2.1
    refine ⟨q, ?_⟩
    rw [hq, ← (hinv.owners.held q b key hq).2.2, hstage.2.2]

theorem waiting_queued : ∃ w : Bio Unit, w.proc () = .waits 0 ∧ 0 ∈ w.queue := by
  obtain ⟨w, h, hp, -⟩ := exists_waits
  exact ⟨w, hp, ((bio_no_lost_wakeup h ()).1 0 hp).1⟩

/-! ## The cache as a store of sectors with locks -/

/-- What a store of sectors is: who has which, and what is in them. -/
structure Sectors (P : Type) where
  has : P → UInt32 × UInt32 → Prop
  data : Address → Sector

inductive Sectors.Step : Sectors P → Sectors P → Prop where
  | lock {s : Sectors P} (p : P) (key : UInt32 × UInt32) : (∀ q, ¬s.has q key) →
      Step s { s with has := fun q k => s.has q k ∨ q = p ∧ k = key }
  | write {s : Sectors P} (p : P) (key : UInt32 × UInt32) (data : Sector) : s.has p key →
      Step s { s with data := Function.update s.data (addressOf key.1 key.2) data }
  | unlock {s : Sectors P} (p : P) (key : UInt32 × UInt32) : s.has p key →
      Step s { s with has := fun q k => s.has q k ∧ ¬(q = p ∧ k = key) }

/-- The store that the buffers, the queue and the drive are together. -/
def Bio.sectors (w : Bio P) : Sectors P := ⟨fun p key => ∃ b, w.holds p b = some key, w.written⟩

end Cs537.Xv6
