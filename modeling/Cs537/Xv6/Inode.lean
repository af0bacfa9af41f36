import Cs537.Lib.Bytes

/-!
# `fs.c`: blocks and the contents of files

The disk is one store of bytes, block `b` at `BSIZE * b`: the superblock, the inodes, the
bitmap, and the blocks of the files. A buffer that is read, changed and written back is a
store into its block, since nobody else gets the buffer in between; a block that the disk
does not have cannot be read, and the functions have no result then, as after a `panic`.

An inode in use is a copy of the one on the disk, which `bmap` changes and `iupdate` writes.
Files of the type `T_DEV` have no contents here.
-/

namespace Cs537.Xv6

open Lib

abbrev Disk := Store

def bsize : Nat := 512
def ndirect : Nat := 12
/-- `BSIZE / sizeof(uint)`. -/
def nindirect : Nat := 128
def maxfile : Nat := ndirect + nindirect
/-- `BSIZE / sizeof(struct dinode)`. -/
def ipb : Nat := 8
/-- `BSIZE*8`. -/
def bpb : Nat := 4096

/-- A `uint` of the disk. -/
def uint (d : Disk) (a : Nat) : UInt32 := UInt32.ofNat (decodeNat (load d a 4))

def setUint (d : Disk) (a : Nat) (x : UInt32) : Disk := store d a (encodeNat 4 x.toNat)

/-- A `short`. -/
def short (d : Disk) (a : Nat) : UInt16 := UInt16.ofNat (decodeNat (load d a 2))

def setShort (d : Disk) (a : Nat) (x : UInt16) : Disk := store d a (encodeNat 2 x.toNat)

structure Superblock where
  size : UInt32
  nblocks : UInt32
  ninodes : UInt32

/-- `readsb`. -/
def readsb (d : Disk) : Superblock := ⟨uint d bsize, uint d (bsize + 4), uint d (bsize + 8)⟩

/-- `bread` finds the block. -/
def OnDisk (d : Disk) (b : UInt32) : Prop := b < (readsb d).size

instance (d : Disk) (b : UInt32) : Decidable (OnDisk d b) := inferInstanceAs (Decidable (_ < _))

/-! ## Blocks -/

/-- `BBLOCK`. -/
def bblock (b ninodes : Nat) : Nat := b / bpb + ninodes / ipb + 3

/-- `&bp->data[bi/8]`, for the bit of block `b`. -/
def mapByte (d : Disk) (b : Nat) : Nat := bsize * bblock b (readsb d).ninodes.toNat + b % bpb / 8

/-- `1 << (bi % 8)`. -/
def mask (b : Nat) : UInt8 := 1 <<< UInt8.ofNat (b % bpb % 8)

/-- `(bp->data[bi/8] & m) == 0`. -/
def isFree (d : Disk) (b : Nat) : Bool := d (mapByte d b) &&& mask b == 0

/-- `bzero`. -/
def bzero (d : Disk) (b : Nat) : Disk := store d (bsize * b) (List.replicate bsize 0)

/-- `balloc`; `none` for the panic. -/
def balloc (d : Disk) : Option (UInt32 × Disk) :=
  let found := (List.range (((readsb d).size.toNat + bpb - 1) / bpb)).findSome? fun i =>
    ((List.range bpb).find? fun bi => isFree d (bpb * i + bi)).map (bpb * i + ·)
  match found with
  | some b => some (UInt32.ofNat b, store d (mapByte d b) [d (mapByte d b) ||| mask b])
  | none => none

/-- `bfree`. -/
def bfree (d : Disk) (b : UInt32) : Option Disk :=
  if OnDisk d b then
    let d := bzero d b.toNat
    if isFree d b.toNat then none
    else some (store d (mapByte d b.toNat) [d (mapByte d b.toNat) &&& ~~~mask b.toNat])
  else none

/-! ## Inodes -/

structure Inode where
  type : UInt16
  major : UInt16
  minor : UInt16
  nlink : UInt16
  size : UInt32
  addrs : Vector UInt32 13

/-- `(struct dinode*)bp->data + inum%IPB`. -/
def inodeAt (inum : Nat) : Nat := bsize * (inum / ipb + 2) + inum % ipb * 64

/-- What `ilock` reads. -/
def dinode (d : Disk) (inum : Nat) : Inode :=
  let a := inodeAt inum
  ⟨short d a, short d (a + 2), short d (a + 4), short d (a + 6), uint d (a + 8),
    Vector.ofFn fun i => uint d (a + 12 + 4 * i)⟩

/-- `iupdate`. -/
def iupdate (d : Disk) (inum : Nat) (ip : Inode) : Disk :=
  let a := inodeAt inum
  let d := setShort d a ip.type
  let d := setShort d (a + 2) ip.major
  let d := setShort d (a + 4) ip.minor
  let d := setShort d (a + 6) ip.nlink
  let d := setUint d (a + 8) ip.size
  store d (a + 12) (ip.addrs.toList.flatMap fun x => encodeNat 4 x.toNat)

/-- `ip->addrs[i]`. -/
def Inode.addr (ip : Inode) (i : Fin 13) : UInt32 := ip.addrs[i]

/-- `ip->addrs[NDIRECT]`. -/
def Inode.indirect (ip : Inode) : UInt32 := ip.addr (Fin.last 12)

/-- `a[bn]`, where `a` is the block `addr`. -/
def entry (addr : UInt32) (bn : Nat) : Nat := bsize * addr.toNat + 4 * bn

/-- `ip->addrs[i]`, allocated if it is 0. -/
def allocAddr (d : Disk) (ip : Inode) (i : Fin 13) : Option (UInt32 × Disk × Inode) :=
  if ip.addr i = 0 then
    match balloc d with
    | some (addr, d) => some (addr, d, { ip with addrs := ip.addrs.set i addr })
    | none => none
  else some (ip.addr i, d, ip)

theorem lt_of_direct {bn : Nat} (h : bn < ndirect) : bn < 13 := Nat.lt_succ_of_lt h

/-- `bmap`. -/
def bmap (d : Disk) (ip : Inode) (bn : Nat) : Option (UInt32 × Disk × Inode) :=
  if h : bn < ndirect then allocAddr d ip ⟨bn, lt_of_direct h⟩
  else if bn - ndirect < nindirect then
    match allocAddr d ip (Fin.last 12) with
    | none => none
    | some (addr, d, ip) =>
        if OnDisk d addr then
          if uint d (entry addr (bn - ndirect)) = 0 then
            match balloc d with
            | some (b, d) => some (b, setUint d (entry addr (bn - ndirect)) b, ip)
            | none => none
          else some (uint d (entry addr (bn - ndirect)), d, ip)
        else none
  else none

/-- `m`, the bytes of one turn. -/
def turn (off n : Nat) : Nat := min n (bsize - off % bsize)

theorem turn_pos (off : Nat) {n : Nat} (h : n ≠ 0) : 0 < turn off n := by
  have hlt : off % bsize < bsize := Nat.mod_lt _ (by decide)
  exact Nat.lt_min.mpr ⟨Nat.pos_of_ne_zero h, Nat.sub_pos_of_lt hlt⟩

/-- The loop of `readi`. -/
def readLoop (d : Disk) (ip : Inode) (off n : Nat) : Option (List UInt8 × Disk × Inode) :=
  if h : n = 0 then some ([], d, ip)
  else
    match bmap d ip (off / bsize) with
    | none => none
    | some (b, d, ip) =>
        if OnDisk d b then
          have := turn_pos off h
          match readLoop d ip (off + turn off n) (n - turn off n) with
          | none => none
          | some (rest, d', ip') => some (load d (bsize * b.toNat + off % bsize) (turn off n) ++ rest, d', ip')
        else none
termination_by n
decreasing_by omega

/-- `readi`; -1 is `none` in the result. -/
def readi (d : Disk) (ip : Inode) (off n : UInt32) : Option (Option (List UInt8) × Disk × Inode) :=
  if off > ip.size ∨ off + n < off then some (none, d, ip)
  else
    let n := if off + n > ip.size then ip.size - off else n
    match readLoop d ip off.toNat n.toNat with
    | none => none
    | some (dst, d, ip) => some (some dst, d, ip)

/-- The loop of `writei`. -/
def writeLoop (d : Disk) (ip : Inode) (off : Nat) (src : List UInt8) : Option (Disk × Inode) :=
  if h : src.length = 0 then some (d, ip)
  else
    match bmap d ip (off / bsize) with
    | none => none
    | some (b, d, ip) =>
        if OnDisk d b then
          have := turn_pos off h
          let m := turn off src.length
          writeLoop (store d (bsize * b.toNat + off % bsize) (src.take m)) ip (off + m) (src.drop m)
        else none
termination_by src.length
decreasing_by
  rw [List.length_drop]
  omega

/-- `writei` of all of `src`. -/
def writei (d : Disk) (inum : Nat) (ip : Inode) (src : List UInt8) (off : UInt32) : Option (Option Nat × Disk × Inode) :=
  let n := UInt32.ofNat src.length
  if off > ip.size ∨ off + n < off then some (none, d, ip)
  else
    let n := if off + n > UInt32.ofNat (maxfile * bsize) then UInt32.ofNat (maxfile * bsize) - off else n
    match writeLoop d ip off.toNat (src.take n.toNat) with
    | none => none
    | some (d, ip) =>
        if n > 0 ∧ off + n > ip.size then
          let ip := { ip with size := off + n }
          some (some n.toNat, iupdate d inum ip, ip)
        else some (some n.toNat, d, ip)

/-! ## Truncation -/

/-- A loop of `itrunc`: the blocks of `addrs` that there are. -/
def freeAll (d : Disk) : List UInt32 → Option Disk
  | [] => some d
  | addr :: addrs =>
      if addr = 0 then freeAll d addrs
      else
        match bfree d addr with
        | none => none
        | some d => freeAll d addrs

/-- `itrunc`. The buffer of the indirect block keeps what was in it. -/
def itrunc (d : Disk) (inum : Nat) (ip : Inode) : Option (Disk × Inode) :=
  match freeAll d (ip.addrs.toList.take ndirect) with
  | none => none
  | some d =>
      let freed := if ip.indirect = 0 then some d
        else if OnDisk d ip.indirect then
          match freeAll d ((List.range nindirect).map fun j => uint d (entry ip.indirect j)) with
          | none => none
          | some d => bfree d ip.indirect
        else none
      match freed with
      | none => none
      | some d =>
          let ip := { ip with addrs := Vector.replicate 13 0, size := 0 }
          some (iupdate d inum ip, ip)

end Cs537.Xv6
