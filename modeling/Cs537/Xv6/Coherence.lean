import Cs537.Xv6.Bio
import Mathlib.Data.Fintype.Card

/-!
# The buffer cache cannot be told from the disk

Whoever gets a buffer gets what was last written to its sector, and nobody else has that
sector until the buffer is released. The invariant says for each buffer who may change it:
a buffer that is not busy is clean, a busy one belongs to the one process that `bget` gave
it to, and while the drive works on it that process is in `iderw`.

That nothing is written behind the back of the cache rests on two things: no two buffers
are for the same sector, and different sectors that the drives have get different addresses.
-/

namespace Cs537.Xv6

open Lib

variable {P : Type} {faulty : Bool} {w w' : Bio P} {p q : P} {b c : Fin nbuf}
  {dev sector : UInt32} {cache cache' : Bcache} {xs : List (Fin nbuf)}

/-! ## `bget` by its list -/

/-- The ring lists every buffer, and has no more nodes than `bget` looks at. -/
structure Listed (cache : Bcache) (xs : List (Fin nbuf)) : Prop where
  ring : Ring cache.links xs
  all : ∀ b, b ∈ xs

theorem Listed.length_lt (h : Listed cache xs) : xs.length < nbuf + 1 := by
  have hle := List.Nodup.length_le_card h.ring.nodup
  rw [Fintype.card_fin] at hle
  omega

/-- What it means that `bget` returns `b`. -/
theorem bget_got (h : Listed cache xs) (hget : bget cache dev sector = (.got b, cache')) :
    (cache.buf b).busy = false
      ∧ ((cache.buf b).dev = dev ∧ (cache.buf b).sector = sector
          ∧ cache' = cache.set b { cache.buf b with busy := true }
        ∨ (∀ c, ¬((cache.buf c).dev = dev ∧ (cache.buf c).sector = sector))
          ∧ xs.reverse.find? (fun c => !(cache.buf c).busy) = some b
          ∧ cache' = cache.set b { cache.buf b with
              dev := dev, sector := sector, busy := true, valid := false, dirty := false }) := by
  rw [bget, h.ring.scan_next h.length_lt, h.ring.scan_prev h.length_lt] at hget
  split at hget
  · rename_i b' hfind
    have hkey := List.find?_some hfind
    rw [Bool.and_eq_true, beq_iff_eq, beq_iff_eq] at hkey
    split at hget
    · cases hget
    · rename_i hbusy
      cases hget
      exact ⟨Bool.eq_false_iff.mpr hbusy, Or.inl ⟨hkey.1, hkey.2, rfl⟩⟩
  · rename_i hnone
    split at hget
    · rename_i b' hfind
      cases hget
      have hbusy := List.find?_some hfind
      rw [Bool.not_eq_true'] at hbusy
      refine ⟨hbusy, Or.inr ⟨fun c hc => ?_, hfind, rfl⟩⟩
      have hno := List.find?_eq_none.mp hnone c (h.all c)
      rw [hc.1, hc.2, beq_self_eq_true, beq_self_eq_true] at hno
      exact hno rfl
    · cases hget

theorem bget_sleeps (h : Listed cache xs) (hget : bget cache dev sector = (.sleeps b, cache')) :
    cache' = cache ∧ (cache.buf b).busy = true ∧ (cache.buf b).dev = dev ∧ (cache.buf b).sector = sector := by
  rw [bget, h.ring.scan_next h.length_lt, h.ring.scan_prev h.length_lt] at hget
  split at hget
  · rename_i b' hfind
    have hkey := List.find?_some hfind
    rw [Bool.and_eq_true, beq_iff_eq, beq_iff_eq] at hkey
    split at hget
    · rename_i hbusy
      cases hget
      exact ⟨rfl, hbusy, hkey.1, hkey.2⟩
    · cases hget
  · split at hget
    · cases hget
    · cases hget

/-- The panic: the sector is not in the cache, and every buffer is busy. -/
theorem bget_panic (h : Listed cache xs) (hget : bget cache dev sector = (.panic, cache')) :
    ∀ b, (cache.buf b).busy = true := by
  rw [bget, h.ring.scan_next h.length_lt, h.ring.scan_prev h.length_lt] at hget
  split at hget
  · split at hget
    · cases hget
    · cases hget
  · split at hget
    · cases hget
    · rename_i hnone
      intro b
      have hno := List.find?_eq_none.mp hnone b (List.mem_reverse.mpr (h.all b))
      rwa [Bool.not_eq_true', Bool.not_eq_false] at hno

/-! ## Addresses -/

theorem and_low_one {x : UInt32} (h : x < 2) : x &&& 1 = x := by
  apply UInt32.toNat_inj.mp
  rw [UInt32.toNat_and]
  have hx : x.toNat < 2 := h
  show x.toNat &&& 1 = x.toNat
  exact (Nat.and_two_pow_sub_one_eq_mod x.toNat 1).trans (Nat.mod_eq_of_lt hx)

theorem and_low_28 {x : UInt32} (h : x < 0x10000000) : x &&& 0x0fffffff = x := by
  apply UInt32.toNat_inj.mp
  rw [UInt32.toNat_and]
  have hx : x.toNat < 2 ^ 28 := h
  show x.toNat &&& (2 ^ 28 - 1) = x.toNat
  exact (Nat.and_two_pow_sub_one_eq_mod x.toNat 28).trans (Nat.mod_eq_of_lt hx)

/-- Of the sectors that are there, each has its own address. -/
theorem addressOf_eq (h : Present dev sector) : addressOf dev sector = (dev, sector) := by
  rw [addressOf, and_low_one h.1, and_low_28 h.2]

/-! ## Which buffer is for which sector -/

def Buf.key (x : Buf) : UInt32 × UInt32 := (x.dev, x.sector)

def Buf.address (x : Buf) : Address := addressOf x.dev x.sector

/-- The buffer is for a sector: it is not as `binit` left it. -/
def Buf.Used (x : Buf) : Prop := Present x.dev x.sector

theorem Buf.Used.of_key {x y : Buf} (h : y.Used) (hkey : x.key = y.key) : x.Used := by
  obtain ⟨hdev, hsector⟩ := Prod.mk.inj hkey
  rw [Buf.Used, hdev, hsector]
  exact h

theorem address_of_key {x y : Buf} (hkey : x.key = y.key) : x.address = y.address := by
  obtain ⟨hdev, hsector⟩ := Prod.mk.inj hkey
  rw [Buf.address, Buf.address, hdev, hsector]

variable {buf : Fin nbuf → Buf} {x : Buf}

/-- No two buffers are for one sector. -/
structure Keys (buf : Fin nbuf → Buf) : Prop where
  unused : ∀ b, (buf b).dev = -1 ∨ (buf b).Used
  unique : ∀ b c, (buf b).Used → (buf b).key = (buf c).key → b = c

theorem Keys.set (h : Keys buf) (hx : x.Used) (hnew : ∀ c, c ≠ b → (buf c).key ≠ x.key) :
    Keys (Function.update buf b x) where
  unused c := by
    by_cases hcb : c = b
    · rw [hcb, Function.update_self]
      exact Or.inr hx
    · rw [Function.update_of_ne hcb]
      exact h.unused c
  unique c d hc hkey := by
    by_cases hcb : c = b
    · by_cases hdb : d = b
      · rw [hcb, hdb]
      · rw [hcb, Function.update_self, Function.update_of_ne hdb] at hkey
        exact absurd hkey.symm (hnew d hdb)
    · rw [Function.update_of_ne hcb] at hc hkey
      by_cases hdb : d = b
      · rw [hdb, Function.update_self] at hkey
        exact absurd hkey (hnew c hcb)
      · rw [Function.update_of_ne hdb] at hkey
        exact h.unique c d hc hkey

theorem key_update (hkey : x.key = (buf b).key) (c : Fin nbuf) :
    (Function.update buf b x c).key = (buf c).key := by
  by_cases hcb : c = b
  · rw [hcb, Function.update_self, hkey]
  · rw [Function.update_of_ne hcb]

theorem Keys.same (h : Keys buf) (hkey : x.key = (buf b).key) : Keys (Function.update buf b x) where
  unused c := by
    have hc := key_update hkey c
    rcases h.unused c with hdev | hused
    · exact Or.inl ((Prod.mk.inj hc).1.trans hdev)
    · exact Or.inr (hused.of_key hc)
  unique c d hc hcd := by
    rw [key_update hkey, key_update hkey] at hcd
    exact h.unique c d (hc.of_key (key_update hkey c).symm) hcd

/-- Different sectors have different addresses. -/
theorem Keys.address_ne (h : Keys buf) (hb : (buf b).Used) (hc : (buf c).Used) (hne : c ≠ b) :
    (buf c).address ≠ (buf b).address := by
  rw [Buf.address, Buf.address, addressOf_eq hb, addressOf_eq hc]
  exact fun heq => hne (h.unique c b hc heq)

/-! ## Who has which buffer -/

variable {holds : P → Fin nbuf → Option (UInt32 × UInt32)} {key : UInt32 × UInt32}

structure Owners (buf : Fin nbuf → Buf) (holds : P → Fin nbuf → Option (UInt32 × UInt32)) : Prop where
  busy : ∀ b, (buf b).busy = true → ∃ p key, holds p b = some key
  held : ∀ p b key, holds p b = some key → (buf b).busy = true ∧ Present key.1 key.2 ∧ (buf b).key = key
  /-- A buffer belongs to one process. -/
  single : ∀ p q b key key', holds p b = some key → holds q b = some key' → p = q

theorem Owners.free (h : Owners buf holds) (hidle : (buf b).busy = false) (q : P) : holds q b = none := by
  cases hq : holds q b with
  | none => rfl
  | some key =>
      have hbusy := (h.held q b key hq).1
      rw [hidle] at hbusy
      cases hbusy

theorem Owners.used (h : Owners buf holds) (hp : holds p b = some key) : (buf b).Used := by
  obtain ⟨-, hpresent, rfl⟩ := h.held p b key hp
  exact hpresent

theorem Owners.same (h : Owners buf holds) (hbusy : x.busy = (buf b).busy) (hkey : x.key = (buf b).key) :
    Owners (Function.update buf b x) holds := by
  have hsame : ∀ c, (Function.update buf b x c).busy = (buf c).busy := by
    intro c
    by_cases hcb : c = b
    · rw [hcb, Function.update_self, hbusy]
    · rw [Function.update_of_ne hcb]
  refine ⟨fun c hc => h.busy c ((hsame c).symm.trans hc), fun q c k hq => ?_, h.single⟩
  rw [hsame, key_update hkey]
  exact h.held q c k hq

section

variable [DecidableEq P]

theorem give_self (holds : P → Fin nbuf → Option (UInt32 × UInt32)) (p : P) (b : Fin nbuf)
    (k : Option (UInt32 × UInt32)) : give holds p b k p b = k := by
  rw [give, Function.update_self, Function.update_self]

theorem give_ne {k : Option (UInt32 × UInt32)} (h : ¬(q = p ∧ c = b)) : give holds p b k q c = holds q c := by
  rw [give]
  by_cases hqp : q = p
  · subst hqp
    rw [Function.update_self, Function.update_of_ne fun hc => h ⟨rfl, hc⟩]
  · rw [Function.update_of_ne hqp]

/-- Nobody had it. -/
theorem Owners.take (h : Owners buf holds) (hidle : (buf b).busy = false) (hbusy : x.busy = true)
    (hkey : x.key = key) (hpresent : Present key.1 key.2) :
    Owners (Function.update buf b x) (give holds p b (some key)) := by
  have hold : ∀ q c k, ¬(q = p ∧ c = b) → give holds p b (some key) q c = some k →
      c ≠ b ∧ holds q c = some k := by
    intro q c k hqc hq
    rw [give_ne hqc] at hq
    refine ⟨?_, hq⟩
    rintro rfl
    rw [h.free hidle q] at hq
    cases hq
  refine ⟨fun c hc => ?_, fun q c k hq => ?_, fun q r c k k' hq hr => ?_⟩
  · by_cases hcb : c = b
    · rw [hcb]
      exact ⟨p, key, give_self ..⟩
    · rw [Function.update_of_ne hcb] at hc
      obtain ⟨q, k, hq⟩ := h.busy c hc
      exact ⟨q, k, (give_ne fun hqc => hcb hqc.2).trans hq⟩
  · by_cases hqc : q = p ∧ c = b
    · obtain ⟨rfl, rfl⟩ := hqc
      rw [give_self] at hq
      cases hq
      rw [Function.update_self]
      exact ⟨hbusy, hpresent, hkey⟩
    · obtain ⟨hcb, hq⟩ := hold q c k hqc hq
      rw [Function.update_of_ne hcb]
      exact h.held q c k hq
  · by_cases hcb : c = b
    · have howner : ∀ r k, give holds p b (some key) r c = some k → r = p := by
        intro r k hr
        by_contra hrp
        exact (hold r c k (fun hrc => hrp hrc.1) hr).1 hcb
      rw [howner q k hq, howner r k' hr]
    · exact h.single q r c k k' (hold q c k (fun hqc => hcb hqc.2) hq).2 (hold r c k' (fun hrc => hcb hrc.2) hr).2

/-- Its owner gives it back. -/
theorem Owners.drop (h : Owners buf holds) (hp : holds p b = some key) (hidle : x.busy = false) :
    Owners (Function.update buf b x) (give holds p b none) := by
  have hold : ∀ q c k, give holds p b none q c = some k → c ≠ b ∧ holds q c = some k := by
    intro q c k hq
    by_cases hqc : q = p ∧ c = b
    · obtain ⟨rfl, rfl⟩ := hqc
      rw [give_self] at hq
      cases hq
    · rw [give_ne hqc] at hq
      refine ⟨?_, hq⟩
      rintro rfl
      exact hqc ⟨h.single q p c k key hq hp, rfl⟩
  refine ⟨fun c hc => ?_, fun q c k hq => ?_, fun q r c k k' hq hr => ?_⟩
  · by_cases hcb : c = b
    · rw [hcb, Function.update_self, hidle] at hc
      cases hc
    · rw [Function.update_of_ne hcb] at hc
      obtain ⟨q, k, hq⟩ := h.busy c hc
      exact ⟨q, k, (give_ne fun hqc => hcb hqc.2).trans hq⟩
  · obtain ⟨hcb, hq⟩ := hold q c k hq
    rw [Function.update_of_ne hcb]
    exact h.held q c k hq
  · exact h.single q r c k k' (hold q c k hq).2 (hold r c k' hr).2

end

/-! ## What the buffers and the disk hold -/

variable {written disk : Address → Sector}

/-- The buffers hold what was last written, and what the disk does not have yet is in a dirty one. -/
structure Contents (faulty : Bool) (buf : Fin nbuf → Buf) (written disk : Address → Sector) : Prop where
  dirty : ∀ b, (buf b).Used → (buf b).dirty = true → (buf b).data = written (buf b).address
  valid : faulty = false → ∀ b, (buf b).Used → (buf b).valid = true → (buf b).data = written (buf b).address
  disk : ∀ a, disk a = written a ∨ ∃ b, (buf b).Used ∧ (buf b).address = a ∧ (buf b).dirty = true

/-- A clean buffer changes its owner, or its sector. -/
theorem Contents.clean (h : Contents faulty buf written disk) (hb : (buf b).dirty = false) (hx : x.dirty = false)
    (hv : x.valid = true → (buf b).valid = true ∧ x.key = (buf b).key ∧ x.data = (buf b).data) :
    Contents faulty (Function.update buf b x) written disk := by
  refine ⟨fun c hc hd => ?_, fun hf c hc hvalid => ?_, fun a => ?_⟩
  · by_cases hcb : c = b
    · rw [hcb, Function.update_self, hx] at hd
      cases hd
    · rw [Function.update_of_ne hcb] at hc hd ⊢
      exact h.dirty c hc hd
  · by_cases hcb : c = b
    · rw [hcb, Function.update_self] at hc hvalid ⊢
      obtain ⟨hbv, hkey, hdata⟩ := hv hvalid
      rw [hdata, address_of_key hkey]
      exact h.valid hf b (hc.of_key hkey.symm) hbv
    · rw [Function.update_of_ne hcb] at hc hvalid ⊢
      exact h.valid hf c hc hvalid
  · rcases h.disk a with hd | ⟨c, hc, ha, hd⟩
    · exact Or.inl hd
    · refine Or.inr ⟨c, ?_⟩
      have hcb : c ≠ b := by
        rintro rfl
        rw [hb] at hd
        cases hd
      rw [Function.update_of_ne hcb]
      exact ⟨hc, ha, hd⟩

/-- `bwrite`. -/
theorem Contents.write (h : Contents faulty buf written disk) (hk : Keys buf) (hb : (buf b).Used)
    (hkey : x.key = (buf b).key) (hx : x.dirty = true) :
    Contents faulty (Function.update buf b x) (Function.update written (buf b).address x.data) disk := by
  have hself : Function.update written (buf b).address x.data x.address = x.data := by
    rw [address_of_key hkey, Function.update_self]
  refine ⟨fun c hc hd => ?_, fun hf c hc hvalid => ?_, fun a => ?_⟩
  · by_cases hcb : c = b
    · rw [hcb, Function.update_self, hself]
    · rw [Function.update_of_ne hcb] at hc hd ⊢
      rw [Function.update_of_ne (hk.address_ne hb hc hcb)]
      exact h.dirty c hc hd
  · by_cases hcb : c = b
    · rw [hcb, Function.update_self, hself]
    · rw [Function.update_of_ne hcb] at hc hvalid ⊢
      rw [Function.update_of_ne (hk.address_ne hb hc hcb)]
      exact h.valid hf c hc hvalid
  · by_cases ha : a = (buf b).address
    · refine Or.inr ⟨b, ?_⟩
      rw [Function.update_self]
      exact ⟨hb.of_key hkey, (address_of_key hkey).trans ha.symm, hx⟩
    · rw [Function.update_of_ne ha]
      rcases h.disk a with hd | ⟨c, hc, hca, hd⟩
      · exact Or.inl hd
      · refine Or.inr ⟨c, ?_⟩
        have hcb : c ≠ b := by
          rintro rfl
          exact ha hca.symm
        rw [Function.update_of_ne hcb]
        exact ⟨hc, hca, hd⟩

/-- The drive has carried out the command for `b`. -/
theorem Contents.intr (h : Contents faulty buf written disk) (hk : Keys buf) (hb : (buf b).Used)
    (hkey : x.key = (buf b).key) (hx : x.dirty = false)
    (hdata : (buf b).dirty = true ∧ x.data = (buf b).data
      ∨ (buf b).dirty = false ∧ (faulty = false → x.data = disk (buf b).address)) :
    Contents faulty (Function.update buf b x) written ((idestart (buf b)).disk disk) := by
  refine ⟨fun c hc hd => ?_, fun hf c hc hvalid => ?_, fun a => ?_⟩
  · by_cases hcb : c = b
    · rw [hcb, Function.update_self, hx] at hd
      cases hd
    · rw [Function.update_of_ne hcb] at hc hd ⊢
      exact h.dirty c hc hd
  · by_cases hcb : c = b
    · rw [hcb, Function.update_self, address_of_key hkey]
      rcases hdata with ⟨hd, hxd⟩ | ⟨hd, hxd⟩
      · rw [hxd]
        exact h.dirty b hb hd
      · rw [hxd hf]
        rcases h.disk (buf b).address with heq | ⟨d, hdu, hda, hdd⟩
        · exact heq
        · by_cases hdb : d = b
          · rw [hdb, hd] at hdd
            cases hdd
          · exact absurd hda (hk.address_ne hb hdu hdb)
    · rw [Function.update_of_ne hcb] at hc hvalid ⊢
      exact h.valid hf c hc hvalid
  · have hother : ∀ c, c ≠ b → (buf c).Used → (buf c).address = a → (buf c).dirty = true →
        ∃ c, (Function.update buf b x c).Used ∧ (Function.update buf b x c).address = a
          ∧ (Function.update buf b x c).dirty = true := by
      intro c hcb hc hca hcd
      refine ⟨c, ?_⟩
      rw [Function.update_of_ne hcb]
      exact ⟨hc, hca, hcd⟩
    rcases hdata with ⟨hd, -⟩ | ⟨hd, -⟩
    · rw [idestart, if_pos hd]
      show Function.update disk (buf b).address (buf b).data a = _ ∨ _
      by_cases ha : a = (buf b).address
      · rw [ha, Function.update_self]
        exact Or.inl (h.dirty b hb hd)
      · rw [Function.update_of_ne ha]
        rcases h.disk a with heq | ⟨c, hc, hca, hcd⟩
        · exact Or.inl heq
        · exact Or.inr (hother c (fun hcb => ha (hcb ▸ hca.symm)) hc hca hcd)
    · rw [idestart, if_neg (by rw [hd]; exact Bool.false_ne_true)]
      rcases h.disk a with heq | ⟨c, hc, hca, hcd⟩
      · exact Or.inl heq
      · refine Or.inr (hother c ?_ hc hca hcd)
        rintro rfl
        rw [hd] at hcd
        cases hcd

end Cs537.Xv6
