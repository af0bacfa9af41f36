import Cs537.Fs.Data

/-!
# What a crash can leave behind

After `fs_fsync` the image holds the checkpoint of that moment, and everything it
reaches lies below its `endPtr`. Calls after that only append, so whatever part of
what they wrote is on the disk when the server is killed lies above. `fs_init` then
reads the old checkpoint and shows the view of the last `fs_fsync`.

A crash is modelled byte by byte: any of the bytes in the journal may have reached the
file, in any order, and the others not.
-/

namespace Cs537.Fs

open Lib

variable {env : Env} {s s₀ s₁ : State}

/-- Any call but `fs_fsync`. -/
def NoSync (_ : State) (op : Op) : Prop := op ≠ .fsync

/-- Without `fs_fsync` the log only grows. -/
theorem run_grows (h : Inv s₀) (hrun : Run NoSync s₀ s₁) : Inv s₁ ∧ Grows s₀ s₁ := by
  induction hrun with
  | refl => exact ⟨h, Grows.refl _⟩
  | tail _ hst ih =>
      obtain ⟨hinv, hg⟩ := ih
      obtain ⟨op, -, hok, heff⟩ := step_effect hinv hst
      exact ⟨heff.inv, hg.trans (heff.grows hok)⟩

/-- The state `fs_init` makes of an image whose checkpoint region is that of `s₀`. -/
def State.restored (s₀ : State) (f : File) : State := ⟨s₀.cp, ⟨f, 1028, [], []⟩⟩

/-- `fs_init` finds the checkpoint. -/
theorem fsInit_restored {f : File} (hlen : 1028 ≤ f.len) (hcp : load f.data 0 1028 = s₀.cp.encode) :
    fsInit env (some f) true [] = some (s₀.restored f) := by
  have hread : read 1028 (CheckPoint.encode ⟨0, fun _ => 0⟩) ⟨f, 0, [], []⟩
      = (((1028 : Nat) : Int), s₀.cp.encode, ⟨f, 1028, [], []⟩) := by
    rw [read]
    dsimp only
    rw [File.pread_of_le (by omega), hcp, s₀.cp.length_encode,
      List.drop_of_length_le (by rw [CheckPoint.length_encode]), List.append_nil]
  rw [fsInit, if_neg (by decide)]
  dsimp only
  rw [lseek_done rfl (by decide)]
  show (if (read 1028 (CheckPoint.encode ⟨0, fun _ => 0⟩) ⟨f, 0, [], []⟩).1 ≠ 1028 then none else
    some (⟨CheckPoint.decode (read 1028 (CheckPoint.encode ⟨0, fun _ => 0⟩) ⟨f, 0, [], []⟩).2.1,
      (read 1028 (CheckPoint.encode ⟨0, fun _ => 0⟩) ⟨f, 0, [], []⟩).2.2⟩ : State)) = _
  rw [hread, if_neg fun hne => hne rfl, CheckPoint.decode_encode]
  rfl

/-- The checkpoint region of a synced image. -/
theorem synced_region (s : State) :
    1028 ≤ s.synced.disk.file.len ∧ load s.synced.disk.file.data 0 1028 = s.cp.encode := by
  have hload := File.load_pwrite_same s.disk.file 0 s.cp.encode
  have hlen : 0 + s.cp.encode.length ≤ s.synced.disk.file.len := Nat.le_max_right _ _
  rw [s.cp.length_encode] at hload hlen
  exact ⟨by omega, hload⟩

/-- The file of `s₀` holds its checkpoint, and nothing was written since. -/
structure Anchored (s₀ : State) : Prop where
  journal : s₀.disk.journal = []
  len : 1028 ≤ s₀.disk.file.len
  region : load s₀.disk.file.data 0 1028 = s₀.cp.encode

theorem synced_anchored (s : State) : Anchored s.synced :=
  ⟨rfl, (synced_region s).1, (synced_region s).2⟩

/--
After a crash `fs_init` succeeds, and what it makes of the image is sound, shows the
view of the last checkpoint, and has it in place for the next crash.
-/
theorem restored_spec {ws : List (Nat × UInt8)} (h : Inv s₀) (ha : Anchored s₀)
    (hrun : Run NoSync s₀ s₁) (hws : ∀ w ∈ ws, w ∈ s₁.disk.journal) :
    fsInit env (some (s₀.disk.file.land ws)) true [] = some (s₀.restored (s₀.disk.file.land ws))
      ∧ LogInv (s₀.restored (s₀.disk.file.land ws))
      ∧ (s₀.restored (s₀.disk.file.land ws)).view = s₀.view
      ∧ Anchored (s₀.restored (s₀.disk.file.land ws)) := by
  obtain ⟨-, hg⟩ := run_grows h hrun
  obtain ⟨js, hjs, hjb⟩ := hg.journal
  have hstart := h.log.start
  -- everything that can land lies at or above the end of the log
  have hland : ∀ w ∈ ws, s₀.cp.endPtr.toInt.toNat ≤ w.1 := by
    intro w hw
    have hmem := hws w hw
    rw [hjs, ha.journal, List.nil_append] at hmem
    have := hjb w hmem
    omega
  have hbelow : ∀ x, x < s₀.cp.endPtr.toInt.toNat → x < s₀.disk.file.len →
      (s₀.disk.file.land ws).data x = s₀.disk.file.data x :=
    fun x hx hx' => File.land_below hx ws _ hland hx'
  have hle := File.len_le_land ws s₀.disk.file
  have hlen := ha.len
  have hk : Keeps s₀ (s₀.restored (s₀.disk.file.land ws)) :=
    keeps_of_agree rfl hle fun x _ hx hx' => hbelow x (by omega) hx'
  obtain ⟨hinv', hin⟩ := h.log.of_keeps hk h.log.done.symm hstart rfl
  have hregion : load (s₀.disk.file.land ws).data 0 1028 = s₀.cp.encode := by
    rw [load_congr fun x _ hx => hbelow x (by omega) (by omega), ha.region]
  exact ⟨fsInit_restored (by omega) hregion, hinv', hk.view h.log hin, rfl, by
    show 1028 ≤ (s₀.disk.file.land ws).len
    omega, hregion⟩

/-- The state after `fs_fsync`. -/
theorem inv_synced (h : Inv s) : Inv s.synced := by
  obtain ⟨hlog, hview⟩ := synced_spec h.log
  exact ⟨hlog, by rw [hview]; exact h.sound⟩

/--
**Crash recovery.** Take any reachable state, a completed `fs_fsync`, any calls after
it that do not complete another one, and any subset `ws` of the bytes they wrote. If the
server is killed with these bytes on the disk, `fs_init` on the image succeeds, and
every lookup, every stat and every written block is as right after the `fs_fsync`.
-/
theorem crash_recovery {s s₀ : State} (hr : Reachable (fun _ _ => True) s)
    (hsync : fsFsync s = (0, s₀)) {s₁ : State} (hrun : Run NoSync s₀ s₁) {ws : List (Nat × UInt8)}
    (hws : ∀ w ∈ ws, w ∈ s₁.disk.journal) (env : Env) :
    ∃ s₂, fsInit env (some (s₀.disk.file.land ws)) true [] = some s₂
      ∧ ∀ e e' : Env, e.dest = .caller → e'.dest = .caller →
        (∀ p, Inum p → ∀ name, (fsLookup e p name s₂).1 = (fsLookup e' p name s₀).1)
        ∧ (∀ i, Inum i → ∀ m, (fsStat e i m s₂).1 = (fsStat e' i m s₀).1
          ∧ (fsStat e i m s₂).2.1 = (fsStat e' i m s₀).2.1)
        ∧ (∀ i b, s₀.Written i b → ∀ old : Buffer,
          (fsRead e i old.bytes (Int32.ofNat b) s₂).1 = (fsRead e' i old.bytes (Int32.ofNat b) s₀).1
          ∧ (fsRead e i old.bytes (Int32.ofNat b) s₂).2.1
            = (fsRead e' i old.bytes (Int32.ofNat b) s₀).2.1) := by
  have h := inv_reachable hr
  rw [fsFsync_eq h.log.done] at hsync
  cases hsync
  obtain ⟨hinit, hinv, hv, -⟩ := @restored_spec env s.synced s₁ ws (inv_synced h) (synced_anchored s)
    hrun hws
  have hlog := (synced_spec h.log).1
  refine ⟨_, hinit, fun e e' he he' => ⟨?_, ?_, ?_⟩⟩
  · intro p hp name
    obtain ⟨q, hq⟩ := @fsLookup_spec e _ p name hinv he hp
    obtain ⟨q', hq'⟩ := @fsLookup_spec e' _ p name hlog he' hp
    rw [hq, hq', hv]
  · intro i hi m
    obtain ⟨q, hq⟩ := @fsStat_spec e _ i hinv he hi m
    obtain ⟨q', hq'⟩ := @fsStat_spec e' _ i hlog he' hi m
    rw [hq, hq', hv]
    exact ⟨rfl, rfl⟩
  · intro i b hw old
    obtain ⟨bs, hbs⟩ := hw.block
    obtain ⟨q', hq'⟩ := fsRead_spec hlog he' (toInt_block b) old.len hbs
    rw [← hv] at hbs
    obtain ⟨q, hq⟩ := fsRead_spec hinv he (toInt_block b) old.len hbs
    rw [hq, hq']
    exact ⟨rfl, rfl⟩

/-- A file made after `fs_fsync` is lost, and nothing else, even if all of it reached the disk. -/
theorem crash_recovery_sample : ∃ s₀ s₁ s₂ : State, Step NoSync s₀ s₁
    ∧ fsInit sampleEnv (some (s₀.disk.file.land s₁.disk.journal)) true [] = some s₂
    ∧ (fsLookup sampleEnv 0 sampleName s₂).1 = (fsLookup sampleEnv 0 sampleName s₀).1 := by
  obtain ⟨s, e, hr, he, he', hl, -⟩ := @reachable_start sampleEnv (fun _ _ => True) rfl
  have hsync := fsFsync_eq (inv_reachable hr).log.done
  obtain ⟨e0, hle, hle', hl0⟩ := @exec_level sampleEnv s e hl he (by omega) .fsync
  rw [exec, hsync] at hl0
  obtain ⟨hst, -⟩ := @step_of_level sampleEnv s.synced NoSync e0 hl0 (by omega) (by omega) rfl
    (.create 0 1 sampleName) (show Inum 0 by decide) (by intro h; cases h)
  obtain ⟨s₂, hinit, hsame⟩ := crash_recovery hr hsync (Run.tail Run.refl hst)
    (fun _ hw => hw) sampleEnv
  obtain ⟨hlook, -, -⟩ := hsame sampleEnv sampleEnv rfl rfl
  exact ⟨s.synced, _, s₂, hst, hinit, hlook 0 (by decide) sampleName⟩

end Cs537.Fs
