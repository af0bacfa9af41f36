import Cs537.Fs.Model
import Cs537.Mfs.Model

/-!
# The server's file system

The parameter of the protocol, with the functions of `fs.c` in it.
-/

namespace Cs537.Mfs

open Lib Fs

/-- The first 4096 bytes. -/
def Packet.ofBytes (bs : List UInt8) : Packet where
  bytes := (bs ++ List.replicate 4096 0).take 4096
  size := by
    rw [List.length_take, List.length_append, List.length_replicate]
    omega

/-- `pinum` is a directory. -/
def isDirectory (env : Env) (pinum : Int32) (s : State) : Bool :=
  let (r, node, _) := getINode env pinum env.node s
  r ≠ -1 && node.type = fsDirectory

/-- A function that reads its name only in a directory, where it has at least the dots to compare it with. -/
def withName (env : Env) (pinum : Int32) (call : CStr → State → Int32 × State) :
    Option Name → State → Option (Int32 × State)
  | some name, s => some (call ⟨cstr name, zero_notMem_cstr name⟩ s)
  | none, s => if isDirectory env pinum s then none else some (call emptyStr s)

theorem readParentEntry_rtn (env : Env) (inum : Int32) (node : INode) (buffer : List UInt8) (s : State) :
    (readParentEntry env inum node buffer s).1 = 0
      ∨ (readParentEntry env inum node buffer s).1 = -1 := by
  unfold readParentEntry
  generalize readDirList (node.dataPtrs 0) env.dirList s = child
  dsimp only
  generalize getINode env (child.1.list 1).pair env.node child.2 = parent
  generalize readDirList (parent.2.1.dataPtrs 0) env.dirList parent.2.2 = entries
  cases hfind : (List.finRange 64).find? fun i =>
      !decide ((entries.1.list i).pair < 0) && decide ((entries.1.list i).pair = inum) with
  | some i => exact Or.inl rfl
  | none => exact Or.inr rfl

theorem fsRead_rtn (env : Env) (inum : Int32) (buffer : List UInt8) (block : Int32) (s : State) :
    (fsRead env inum buffer block s).1 = 0 ∨ (fsRead env inum buffer block s).1 = -1 := by
  unfold fsRead
  generalize getINode env inum env.node s = got
  dsimp only
  split
  · exact Or.inr rfl
  · split
    · exact Or.inl rfl
    · exact readParentEntry_rtn ..

/-- `fs.c`, with `buf` and `stat` for the uninitialised locals of `processConnection`. -/
def files (env : Env) (buf : Packet) (stat : StatT) : Files State where
  fsLookup pinum := withName env pinum (fsLookup env pinum)
  fsCreate pinum type := withName env pinum (fsCreate env pinum type)
  fsUnlink pinum := withName env pinum (fsUnlink env pinum)
  fsRead inum block s :=
    let r := fsRead env inum buf.bytes block s
    (r.1, Packet.ofBytes r.2.1, r.2.2)
  fsWrite inum data block := fsWrite env inum data.bytes block
  fsStat inum s :=
    let r := fsStat env inum stat s
    (Packet.ofBytes (encodeInt r.2.1.type ++ encodeInt r.2.1.size ++ buf.bytes), r.2.2)
  fsFsync s := (fsFsync s).2
  fsClose s := (fsFsync s).2
  fsRead_rtn inum block s := by
    dsimp only
    exact fsRead_rtn env inum buf.bytes block s

end Cs537.Mfs
