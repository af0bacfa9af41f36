import Cs537.Fs.Growth
import Cs537.Mfs.Disk
import Cs537.Mfs.Exchange

/-!
# What a call of the library returns

One client, and nothing lost: a call is then one request and one reply, or two of each.
What comes back is a code printed as a number for most calls, the data itself for
`MFS_Read`, and for `MFS_Stat` the record, from which the client has to guess whether
there was one. The server ignores what `fs_stat` returns and sends its local `stat_t`
as it is, so for an inode that does not exist the client sees whatever was on the
server's stack.

`Returns` follows a call through such a run to its return. The run is the same for all
calls of a kind, whatever the file system is; only the last section is about `fs.c`.
-/

namespace Cs537.Mfs

open Lib Fs

/-! ## Results -/

/-- What a call returns, together with what it leaves where its caller told it to. -/
inductive Result where
  | code (rtn : Int32)
  /-- 0, and `*m`. -/
  | stat (m : StatT)
  /-- 0, and the contents of `buffer`. -/
  | data (buffer : Packet)

/-- The `MFS_Stat_t` at the start of a reply. -/
def Packet.stat (reply : Packet) : StatT :=
  ⟨decodeInt (reply.bytes.take 4), decodeInt ((reply.bytes.drop 4).take 4)⟩

/-- "State is incorrect": what `MFS_Stat` makes of the record. -/
def statResult (r_stat : StatT) : Result :=
  if r_stat.type > 1 ∨ r_stat.type < 0 then .code (-1) else .stat r_stat

/-- The result of a call whose `udp_Send` has read `reply`, if that is the end of it. -/
def ClientAt.result (reply : Packet) : ClientAt → Option Result
  | .idle => none
  | .waiting .init _ _ | .waiting .shutdown _ _ => some (.code 0)
  | .waiting (.lookup ..) _ _ | .waiting (.creat ..) _ _ | .waiting (.unlink ..) _ _ =>
      some (.code (atoi (cstr reply.bytes)))
  | .waiting (.stat _) _ _ => some (statResult reply.stat)
  | .waiting (.write ..) .first _ =>
      if atoi (cstr reply.bytes) ≠ 0 then some (.code (-1)) else none
  | .waiting (.write ..) .second _ =>
      if atoi (cstr reply.bytes) ≠ 0 then some (.code (-1)) else some (.code 0)
  | .waiting (.read ..) .first _ =>
      if atoi (cstr reply.bytes) ≠ 0 then some (.code (-1)) else none
  | .waiting (.read ..) .second _ => some (.data reply)

/-- Nothing is lost and nobody gives up waiting. -/
def LossFree : Event → Prop
  | .dispatch .. | .answer .. | .reply .. => True
  | _ => False

/-- A run without losses to the point where the call of client `c` returns `r`. -/
inductive Returns {σ : Type} (F : Files σ) (c : Nat) : World σ → Result → World σ → Prop where
  | ends {w w' : World σ} {i : Nat} {d : Datagram} {r : Result} : w.down[i]? = some d →
      (w.clients c).result d.packet = some r → w.exec F (.reply c i) = some w' → Returns F c w r w'
  | goesOn {w w₁ w' : World σ} {e : Event} {r : Result} : LossFree e →
      (∀ i d, e = .reply c i → w.down[i]? = some d → (w.clients c).result d.packet = none) →
      w.exec F e = some w₁ → Returns F c w₁ r w' → Returns F c w r w'

section

variable {σ : Type} {F : Files σ} {c : Nat} {w w₁ w' : World σ} {a : ClientAt} {d : Datagram}
  {server : ServerAt} {fs : σ} {r r' : Result}

/-- Every such run returns `r`, and there is one. -/
def Yields (F : Files σ) (c : Nat) (w : World σ) (r : Result) : Prop :=
  (∃ w', Returns F c w r w') ∧ ∀ r' w', Returns F c w r' w' → r' = r

/-- Where a client, the network and the server stand. -/
structure Scene (w : World σ) (c : Nat) (a : ClientAt) (up down : List Datagram)
    (server : ServerAt) (fs : σ) : Prop where
  client : w.clients c = a
  up : w.up = up
  down : w.down = down
  server : w.server = server
  fs : w.fs = fs

/-! ## One step at a time -/

/-- It is enough to look at every step that may come next, if the call does not return with it. -/
theorem yields_of_step
    (hno : ∀ (i : Nat) (d : Datagram), w.down[i]? = some d →
      (w.clients c).result d.packet = none)
    (hall : ∀ e w₁, LossFree e → w.exec F e = some w₁ → Yields F c w₁ r)
    (hex : ∃ e w₁, LossFree e ∧ w.exec F e = some w₁) : Yields F c w r := by
  constructor
  · obtain ⟨e, w₁, hfree, hexec⟩ := hex
    obtain ⟨w', hret⟩ := (hall e w₁ hfree hexec).1
    exact ⟨w', .goesOn hfree (fun i d _ hd => hno i d hd) hexec hret⟩
  · intro r' w' hret
    cases hret with
    | ends hd hres =>
        rw [hno _ _ hd] at hres
        cases hres
    | goesOn hfree _ hexec hrest => exact (hall _ _ hfree hexec).2 r' w' hrest

theorem getElem?_single {α : Type} {x y : α} {i : Nat} (h : [x][i]? = some y) : i = 0 ∧ x = y := by
  cases i with
  | zero => exact ⟨rfl, Option.some.inj h⟩
  | succ i => simp at h

/-- With a request under way, `main` reads it. -/
theorem yields_dispatch (h : Scene w c a [d] [] .loop fs)
    (hnext : ∀ buf w₁ reply server fs', processConnection F d.origin buf d.packet fs
        = (reply, server, fs') →
      Scene w₁ c a [] (reply.map fun p => ⟨p, d.origin⟩).toList server fs' → Yields F c w₁ r) :
    Yields F c w r := by
  refine yields_of_step (fun i d' hd => by rw [h.down] at hd; simp at hd) ?_ ?_
  · intro e w₁ hfree hexec
    cases e with
    | dispatch i buf =>
        obtain ⟨d', -, hd', reply, server, fs', hpc, rfl⟩ := World.exec_dispatch hexec
        rw [h.up] at hd'
        obtain ⟨rfl, rfl⟩ := getElem?_single hd'
        rw [h.fs] at hpc
        refine hnext buf _ reply server fs' hpc ⟨h.client, ?_, ?_, rfl, rfl⟩
        · show w.up.eraseIdx 0 = []
          rw [h.up]; rfl
        · show w.down ++ _ = _
          rw [h.down]; rfl
    | answer i buf =>
        rw [World.exec, h.server] at hexec
        cases hexec
    | reply c' i =>
        obtain ⟨_, _, _, d', -, hd', -⟩ := World.exec_reply hexec
        rw [h.down] at hd'
        simp at hd'
    | _ => cases hfree
  · exact ⟨.dispatch 0 .zero, _, trivial, by
      rw [World.exec]
      simp only [h.server, h.up, List.getElem?_cons_zero]
      rfl⟩

/-- With a reply under way, the client reads it; here the call returns. -/
theorem yields_reply {call : Call Name Packet} {stage : Stage} {m : Packet}
    (h : Scene w c (.waiting call stage m) [] [d] server fs) (hd : d.client = c)
    (hres : (ClientAt.waiting call stage m).result d.packet = some r) : Yields F c w r := by
  have hdown : w.down[0]? = some d := by rw [h.down]; rfl
  constructor
  · refine ⟨_, .ends hdown (by rw [h.client]; exact hres) (by
      rw [World.exec]
      simp only [h.client, hdown, hd, if_true]
      rfl)⟩
  · intro r' w' hret
    cases hret with
    | ends hd' hres' =>
        rw [h.down] at hd'
        obtain ⟨-, rfl⟩ := getElem?_single hd'
        rw [h.client, hres] at hres'
        exact (Option.some.inj hres').symm
    | @goesOn _ _ _ e _ hfree hgo hexec _ =>
        exfalso
        cases e with
        | dispatch i buf =>
            obtain ⟨d', -, hd', -⟩ := World.exec_dispatch hexec
            rw [h.up] at hd'
            simp at hd'
        | answer i buf =>
            obtain ⟨d', _, _, _, _, _, hd', -⟩ := World.exec_answer hexec
            rw [h.up] at hd'
            simp at hd'
        | reply c' i =>
            obtain ⟨_, _, _, d', -, hd', hc', -⟩ := World.exec_reply hexec
            rw [h.down] at hd'
            obtain ⟨rfl, rfl⟩ := getElem?_single hd'
            have hcc : c' = c := hc'.symm.trans hd
            subst hcc
            have hnone := hgo 0 d rfl hdown
            rw [h.client, hres] at hnone
            cases hnone
        | _ => cases hfree

/-- Here it sends a second datagram. -/
theorem yields_second {call : Call Name Packet} {m m' p : Packet} {kind : Kind}
    (h : Scene w c (.waiting call .first m) [] [d] server fs) (hd : d.client = c)
    (hres : (ClientAt.waiting call .first m).result d.packet = none)
    (hon : (ClientAt.waiting call .first m).onReply d.packet = .waiting call .second m')
    (hsends : (ClientAt.waiting call .second m').sends = some (p, kind))
    (hnext : ∀ w₁ n, Scene w₁ c (.waiting call .second m') [⟨p, c, n, kind⟩] [] server fs →
      Yields F c w₁ r) : Yields F c w r := by
  have hdown : w.down[0]? = some d := by rw [h.down]; rfl
  refine yields_of_step ?_ ?_ ?_
  · intro i d' hd'
    rw [h.down] at hd'
    obtain ⟨-, rfl⟩ := getElem?_single hd'
    rw [h.client]
    exact hres
  · intro e w₁ hfree hexec
    cases e with
    | dispatch i buf =>
        obtain ⟨d', -, hd', -⟩ := World.exec_dispatch hexec
        rw [h.up] at hd'
        simp at hd'
    | answer i buf =>
        obtain ⟨d', _, _, _, _, _, hd', -⟩ := World.exec_answer hexec
        rw [h.up] at hd'
        simp at hd'
    | reply c' i =>
        obtain ⟨call', stage', m'', d', hat, hd', hc', w₀, rfl, rfl⟩ := World.exec_reply hexec
        rw [h.down] at hd'
        obtain ⟨rfl, rfl⟩ := getElem?_single hd'
        have hcc : c' = c := hc'.symm.trans hd
        subst hcc
        rw [h.client] at hat
        cases hat
        rw [hon]
        refine hnext _ (w.calls c').length ⟨Function.update_self .., ?_, ?_, h.server, h.fs⟩
        · show w.up ++ World.sent _ c' _ = _
          rw [h.up, World.sent, hsends]; rfl
        · show w.down.eraseIdx 0 = []
          rw [h.down]; rfl
    | _ => cases hfree
  · exact ⟨.reply c 0, _, trivial, by
      rw [World.exec]
      simp only [h.client, hdown, hd, if_true]
      rfl⟩

/-- With a second datagram under way, `udp_wait` reads it. -/
theorem yields_answerWrite {s : Origin} {inum block : Int32}
    (h : Scene w c a [d] [] (.write s inum block) fs)
    (hnext : ∀ buf w₁ fs', Scene w₁ c a []
        [⟨(finishWrite F buf inum block d.packet fs).1, s⟩] .loop fs' → Yields F c w₁ r) :
    Yields F c w r := by
  refine yields_of_step (fun i d' hd => by rw [h.down] at hd; simp at hd) ?_ ?_
  · intro e w₁ hfree hexec
    cases e with
    | dispatch i buf =>
        rw [World.exec, h.server] at hexec
        cases hexec
    | answer i buf =>
        rw [World.exec, h.server, h.up] at hexec
        split at hexec
        · rename_i s' inum' block' d' hs hd'
          cases hs
          obtain ⟨rfl, rfl⟩ := getElem?_single hd'
          cases hexec
          refine hnext buf _ (finishWrite F buf inum block d.packet w.fs).2
            ⟨h.client, ?_, ?_, rfl, rfl⟩
          · rfl
          · show w.down ++ _ = _
            rw [h.down, h.fs]; rfl
        · rename_i hs _
          cases hs
        · cases hexec
    | reply c' i =>
        obtain ⟨_, _, _, d', -, hd', -⟩ := World.exec_reply hexec
        rw [h.down] at hd'
        simp at hd'
    | _ => cases hfree
  · exact ⟨.answer 0 .zero, _, trivial, by
      rw [World.exec]
      simp only [h.server, h.up, List.getElem?_cons_zero]
      rfl⟩

theorem yields_answerRead {s : Origin} {data : Packet}
    (h : Scene w c a [d] [] (.read s data) fs) (hcheck : checkSecond d.packet.bytes = some true)
    (hnext : ∀ w₁, Scene w₁ c a [] [⟨data, s⟩] .loop fs → Yields F c w₁ r) :
    Yields F c w r := by
  have hfinish : finishRead data d.packet = (some data, .loop) := by
    unfold finishRead
    rw [hcheck]
  refine yields_of_step (fun i d' hd => by rw [h.down] at hd; simp at hd) ?_ ?_
  · intro e w₁ hfree hexec
    cases e with
    | dispatch i buf =>
        rw [World.exec, h.server] at hexec
        cases hexec
    | answer i buf =>
        rw [World.exec, h.server, h.up] at hexec
        split at hexec
        · rename_i hs _
          cases hs
        · rename_i s' data' d' hs hd'
          cases hs
          obtain ⟨rfl, rfl⟩ := getElem?_single hd'
          rw [hfinish] at hexec
          cases hexec
          refine hnext _ ⟨h.client, rfl, ?_, rfl, h.fs⟩
          show w.down ++ _ = _
          rw [h.down]; rfl
        · cases hexec
    | reply c' i =>
        obtain ⟨_, _, _, d', -, hd', -⟩ := World.exec_reply hexec
        rw [h.down] at hd'
        simp at hd'
    | _ => cases hfree
  · exact ⟨.answer 0 .zero, _, trivial, by
      rw [World.exec]
      simp only [h.server, h.up, List.getElem?_cons_zero]
      rfl⟩

end

/-! ## Each call -/

theorem checkSecond_print (buf : Packet) : checkSecond (buf.print readSecond).bytes = some true := by
  have hcstr : cstr (buf.print readSecond).bytes = readSecond :=
    cstr_snprintf (by decide) (by decide)
  unfold checkSecond
  rw [hcstr]
  decide

section

variable {σ : Type} {F : Files σ} {w : World σ} {c : Nat} {d : Datagram} {fs fs' : σ}

/-- The call is under way, and the server will find in the request what the client was given. -/
structure Asked (w : World σ) (c : Nat) (call : Call Name Packet) (d : Datagram) (fs : σ) : Prop where
  scene : Scene w c (.waiting call .first d.packet) [d] [] .loop fs
  client : d.client = c
  parsed : parse d.packet.bytes = .call (call.map some fun _ => ())

/-- The calls that are answered with a code. -/
theorem yields_code {call : Call Name Packet} {rtn : Int32} (h : Asked w c call d fs)
    (hpc : ∀ b, processConnection F d.origin b d.packet fs
      = (some (b.print (printInt rtn)), .loop, fs'))
    (hres : ∀ reply, (ClientAt.waiting call .first d.packet).result reply
      = some (.code (atoi (cstr reply.bytes)))) : Yields F c w (.code rtn) := by
  refine yields_dispatch h.scene fun b w₁ reply server fs'' hpc' hscene => ?_
  rw [hpc b] at hpc'
  cases hpc'
  refine yields_reply hscene h.client ?_
  rw [hres, atoi_print]

theorem yields_lookup {pinum : Int32} {name : Name} {out : Int32 × σ}
    (h : Asked w c (.lookup pinum name) d fs) (hF : F.fsLookup pinum (some name) fs = some out) :
    Yields F c w (.code out.1) := by
  refine @yields_code _ _ _ _ _ _ out.2 _ _ h (fun b => ?_) fun _ => rfl
  rw [processConnection, h.parsed]
  show finish b (F.fsLookup pinum (some name) fs) fs = _
  rw [hF]
  rfl

theorem yields_creat {pinum type : Int32} {name : Name} {out : Int32 × σ}
    (h : Asked w c (.creat pinum type name) d fs)
    (hF : F.fsCreate pinum type (some name) fs = some out) : Yields F c w (.code out.1) := by
  refine @yields_code _ _ _ _ _ _ (F.fsFsync out.2) _ _ h (fun b => ?_) fun _ => rfl
  rw [processConnection, h.parsed]
  show finish b ((F.fsCreate pinum type (some name) fs).map _) fs = _
  rw [hF]
  rfl

theorem yields_unlink {pinum : Int32} {name : Name} {out : Int32 × σ}
    (h : Asked w c (.unlink pinum name) d fs) (hF : F.fsUnlink pinum (some name) fs = some out) :
    Yields F c w (.code out.1) := by
  refine @yields_code _ _ _ _ _ _ (F.fsFsync out.2) _ _ h (fun b => ?_) fun _ => rfl
  rw [processConnection, h.parsed]
  show finish b ((F.fsUnlink pinum (some name) fs).map _) fs = _
  rw [hF]
  rfl

theorem yields_init (h : Asked w c .init d fs) : Yields F c w (.code 0) := by
  refine yields_dispatch h.scene fun b w₁ reply server fs' hpc hscene => ?_
  rw [processConnection, h.parsed] at hpc
  cases hpc
  exact yields_reply hscene h.client rfl

theorem yields_shutdown (h : Asked w c .shutdown d fs) : Yields F c w (.code 0) := by
  refine yields_dispatch h.scene fun b w₁ reply server fs' hpc hscene => ?_
  rw [processConnection, h.parsed] at hpc
  cases hpc
  exact yields_reply hscene h.client rfl

/-- The two datagrams of `MFS_Write`: the first is always answered with 0. -/
theorem yields_write {inum block rtn : Int32} {buffer : Packet}
    (h : Asked w c (.write inum buffer block) d fs)
    (hF : (F.fsWrite inum buffer block fs).1 = rtn) (hrtn : rtn = 0 ∨ rtn = -1) :
    Yields F c w (.code rtn) := by
  refine yields_dispatch h.scene fun b w₁ reply server fs' hpc hscene => ?_
  rw [processConnection, h.parsed] at hpc
  cases hpc
  have hzero : atoi (cstr (b.print [48]).bytes) = 0 := atoi_print b 0
  refine @yields_second _ _ _ _ _ _ _ _ _ _ d.packet buffer .data hscene h.client ?_ ?_ rfl
    fun w₂ n hscene₂ => ?_
  · rw [ClientAt.result, hzero, if_neg (by decide)]
  · rw [ClientAt.onReply, hzero, if_neg (by decide)]
  · refine yields_answerWrite hscene₂ fun b' w₃ fs'' hscene₃ => yields_reply hscene₃ h.client ?_
    rw [ClientAt.result, finishWrite, atoi_print, hF]
    rcases hrtn with rfl | rfl
    · exact if_neg (by decide)
    · exact if_pos (by decide)

/-- `MFS_Read` asks a second time for what the server has read. -/
theorem yields_read {inum block : Int32} {data : Packet} (h : Asked w c (.read inum block) d fs)
    (hF : F.fsRead inum block fs = (0, data, fs')) : Yields F c w (.data data) := by
  refine yields_dispatch h.scene fun b w₁ reply server fs'' hpc hscene => ?_
  rw [processConnection, h.parsed] at hpc
  simp only [Call.map, hF, if_pos (show (0 : Int32) ≤ 0 by decide)] at hpc
  cases hpc
  have hzero : atoi (cstr (b.print (printInt 0)).bytes) = 0 := atoi_print b 0
  refine @yields_second _ _ _ _ _ _ _ _ _ _ (d.packet.print readSecond) (d.packet.print readSecond)
    .request hscene h.client ?_ ?_ rfl fun w₂ n hscene₂ => ?_
  · rw [ClientAt.result, hzero, if_neg (by decide)]
  · rw [ClientAt.onReply, hzero, if_neg (by decide)]
  · exact yields_answerRead hscene₂ (checkSecond_print d.packet) fun w₃ hscene₃ =>
      yields_reply hscene₃ h.client rfl

theorem yields_read_fails {inum block : Int32} {data : Packet}
    (h : Asked w c (.read inum block) d fs) (hF : F.fsRead inum block fs = (-1, data, fs')) :
    Yields F c w (.code (-1)) := by
  refine yields_dispatch h.scene fun b w₁ reply server fs'' hpc hscene => ?_
  rw [processConnection, h.parsed] at hpc
  simp only [Call.map, hF, if_neg (show ¬(0 : Int32) ≤ -1 by decide)] at hpc
  cases hpc
  refine yields_reply hscene h.client ?_
  rw [ClientAt.result, atoi_print, if_pos (by decide)]

/-- `MFS_Stat` goes by the type it finds. -/
theorem yields_stat {inum : Int32} (h : Asked w c (.stat inum) d fs) :
    Yields F c w (statResult (F.fsStat inum fs).1.stat) := by
  refine yields_dispatch h.scene fun b w₁ reply server fs' hpc hscene => ?_
  rw [processConnection, h.parsed] at hpc
  cases hpc
  exact yields_reply hscene h.client rfl

end

/-! ## The server with `fs.c` -/

/-- A name as the server finds it. -/
def ofName (name : Name) : CStr := ⟨cstr name, zero_notMem_cstr name⟩

/--
The call reports what the file system answered. `buf` and `stat` are the uninitialised
locals of `processConnection`.
-/
def Reports (env : Env) (buf : Packet) (stat : StatT) (fs : State) (r : Result) :
    Call Name Packet → Prop
  | .init | .shutdown => True
  | .lookup pinum name => r = .code (fsLookup env pinum (ofName name) fs).1
  | .creat pinum type name => r = .code (fsCreate env pinum type (ofName name) fs).1
  | .unlink pinum name => r = .code (fsUnlink env pinum (ofName name) fs).1
  | .write inum buffer block => r = .code (fsWrite env inum buffer.bytes block fs).1
  | .read inum block =>
      ((fsRead env inum buf.bytes block fs).1 = 0 →
          ∃ data, r = .data data ∧ data.bytes = (fsRead env inum buf.bytes block fs).2.1)
        ∧ ((fsRead env inum buf.bytes block fs).1 = -1 → r = .code (-1))
  | .stat inum =>
      ((fsStat env inum stat fs).1 = 0 → r = .stat (fsStat env inum stat fs).2.1)
        ∧ ((fsStat env inum stat fs).1 = -1 → r = .code (-1))

/-- What `MFS_Stat` takes for the type of an inode. -/
def isType (type : Int32) : Prop := type = fsDirectory ∨ type = fsRegularFile

/--
For `MFS_Stat` only: an inode that exists has one of the two types, and for one that
does not, the server's local does not look as if it had.
-/
def StatTells (env : Env) (stat : StatT) (fs : State) : Call Name Packet → Prop
  | .stat inum =>
      if (getINode env inum env.node fs).1 = -1 then ¬isType stat.type
      else isType (getINode env inum env.node fs).2.1.type
  | _ => True

theorem isType_iff (type : Int32) : isType type ↔ ¬(type > 1 ∨ type < 0) := by
  have h0 : (0 : Int32).toInt = 0 := rfl
  have h1 : (1 : Int32).toInt = 1 := rfl
  unfold isType fsDirectory fsRegularFile
  rw [gt_iff_lt, Int32.lt_iff_toInt_lt, Int32.lt_iff_toInt_lt, ← Int32.toInt_inj, ← Int32.toInt_inj,
    h0, h1]
  omega

theorem statResult_isType {m : StatT} (h : isType m.type) : statResult m = .stat m :=
  if_neg ((isType_iff _).mp h)

theorem statResult_not {m : StatT} (h : ¬isType m.type) : statResult m = .code (-1) :=
  if_pos (not_not.mp (mt (isType_iff _).mpr h))

theorem fsWrite_rtn (env : Env) (inum : Int32) (buffer : List UInt8) (block : Int32) (s : State) :
    (fsWrite env inum buffer block s).1 = 0 ∨ (fsWrite env inum buffer block s).1 = -1 := by
  unfold fsWrite
  generalize getINode env inum env.node s = got
  dsimp only
  split
  · exact Or.inr rfl
  · split
    · exact Or.inr rfl
    · exact Or.inl rfl

theorem Packet.ofBytes_bytes {bs : List UInt8} (h : bs.length = 4096) : (ofBytes bs).bytes = bs := by
  show (bs ++ List.replicate 4096 0).take 4096 = bs
  rw [List.take_append_of_le_length (Nat.le_of_eq h.symm), List.take_of_length_le (Nat.le_of_eq h)]

theorem length_fsRead (env : Env) (inum : Int32) (buf : Packet) (block : Int32) (s : State) :
    (fsRead env inum buf.bytes block s).2.1.length = 4096 := by
  unfold fsRead
  generalize getINode env inum env.node s = got
  dsimp only
  split
  · exact buf.size
  · split
    · exact length_read _ buf.size
    · unfold readParentEntry
      generalize readDirList (got.2.1.dataPtrs 0) env.dirList got.2.2 = child
      dsimp only
      generalize getINode env (child.1.list 1).pair env.node child.2 = parent
      generalize readDirList (parent.2.1.dataPtrs 0) env.dirList parent.2.2 = entries
      cases hfind : (List.finRange 64).find? fun i =>
          !decide ((entries.1.list i).pair < 0) && decide ((entries.1.list i).pair = inum) with
      | none => exact buf.size
      | some i =>
          show ((entries.1.list i).encode ++ buf.bytes.drop 64).length = 4096
          rw [List.length_append, FsDir.length_encode, List.length_drop, buf.size]

/-- The record that `MFS_Stat` finds at the start of the reply. -/
theorem stat_ofBytes (m : StatT) (rest : List UInt8) :
    (Packet.ofBytes (encodeInt m.type ++ encodeInt m.size ++ rest)).stat = m := by
  obtain ⟨rest', hbytes⟩ : ∃ rest', (Packet.ofBytes (encodeInt m.type ++ encodeInt m.size ++ rest)).bytes
      = encodeInt m.type ++ (encodeInt m.size ++ rest') := by
    refine ⟨(rest ++ List.replicate 4096 0).take 4088, ?_⟩
    show (encodeInt m.type ++ encodeInt m.size ++ rest ++ List.replicate 4096 0).take 4096 = _
    rw [List.append_assoc, List.append_assoc, List.take_append, List.take_append,
      List.take_of_length_le (by simp), List.take_of_length_le (by simp), length_encodeInt,
      length_encodeInt]
  unfold Packet.stat
  rw [hbytes, take_encodeInt, drop_encodeInt, take_encodeInt, decodeInt_encodeInt,
    decodeInt_encodeInt]

section

variable {env : Env} {buf : Packet} {stat : StatT} {w w₀ : World State} {c : Nat} {d : Datagram}
  {fs : State} {call : Call Name Packet} {msg : Packet}

/-- The request of a call made while nothing is under way. -/
theorem asked_call {F : Files State} (hserver : w.server = .loop) (hup : w.up = [])
    (hdown : w.down = []) (hcall : w.exec F (.call c call msg) = some w₀)
    (hdecode : parse (msg.print call.message).bytes = .call (call.map some fun _ => ())) :
    ∃ d, Asked w₀ c call d w.fs := by
  obtain ⟨-, -, rfl⟩ := World.exec_call hcall
  refine ⟨⟨msg.print call.message, c, (Function.update w.calls c (w.calls c ++ [call]) c).length,
    .request⟩, ⟨Function.update_self .., ?_, hdown, hserver, rfl⟩, rfl, hdecode⟩
  show w.up ++ World.sent _ c _ = _
  rw [hup, sent_first]
  rfl

theorem fsStat_none {inum : Int32} (m : StatT) (h : (getINode env inum env.node fs).1 = -1) :
    (fsStat env inum m fs).1 = -1 ∧ (fsStat env inum m fs).2.1 = m := by
  unfold fsStat
  dsimp only
  rw [if_pos h]
  exact ⟨rfl, rfl⟩

theorem fsStat_some {inum : Int32} (m : StatT) (h : (getINode env inum env.node fs).1 ≠ -1) :
    (fsStat env inum m fs).1 = 0 ∧ (fsStat env inum m fs).2.1.type
      = (getINode env inum env.node fs).2.1.type := by
  unfold fsStat
  generalize getINode env inum env.node fs = x at h ⊢
  obtain ⟨r, node, fs'⟩ := x
  dsimp only at h ⊢
  rw [if_neg h]
  exact ⟨rfl, rfl⟩

theorem reports_stat {inum : Int32} :
    Reports env buf stat fs (statResult (fsStat env inum stat fs).2.1) (.stat inum) ↔
      StatTells env stat fs (.stat inum) := by
  unfold Reports StatTells
  dsimp only
  by_cases hr : (getINode env inum env.node fs).1 = -1
  · -- no inode: the record is what was there before
    obtain ⟨hcode, hm⟩ := fsStat_none stat hr
    rw [hcode, hm, if_pos hr]
    by_cases htype : isType stat.type
    · rw [statResult_isType htype]
      exact ⟨fun h => absurd (h.2 rfl) (by simp), fun h => absurd htype h⟩
    · rw [statResult_not htype]
      exact ⟨fun _ => htype, fun _ => ⟨fun h => absurd h (by decide), fun _ => rfl⟩⟩
  · obtain ⟨hcode, htypes⟩ := fsStat_some stat hr
    rw [hcode, if_neg hr, ← htypes]
    generalize (fsStat env inum stat fs).2.1 = m
    by_cases htype : isType m.type
    · rw [statResult_isType htype]
      exact ⟨fun _ => htype, fun _ => ⟨fun _ => rfl, fun h => absurd h (by decide)⟩⟩
    · rw [statResult_not htype]
      exact ⟨fun h => absurd (h.1 rfl) (by simp), fun h => absurd h htype⟩

theorem yields_fsRead {inum block : Int32} (h : Asked w₀ c (.read inum block) d fs) :
    ∃ r, Yields (files env buf stat) c w₀ r ∧ Reports env buf stat fs r (.read inum block) := by
  have hlen := length_fsRead env inum buf block fs
  have hrtn := fsRead_rtn env inum buf.bytes block fs
  have hF : (files env buf stat).fsRead inum block fs = ((fsRead env inum buf.bytes block fs).1,
      Packet.ofBytes (fsRead env inum buf.bytes block fs).2.1,
      (fsRead env inum buf.bytes block fs).2.2) := rfl
  unfold Reports
  dsimp only
  generalize fsRead env inum buf.bytes block fs = out at hlen hrtn hF ⊢
  obtain ⟨rtn, bytes, fs'⟩ := out
  rcases hrtn with rfl | rfl
  · exact ⟨_, yields_read h hF, fun _ => ⟨_, rfl, Packet.ofBytes_bytes hlen⟩,
      fun hne => absurd hne (show (0 : Int32) ≠ -1 by decide)⟩
  · exact ⟨_, yields_read_fails h hF, fun hne => absurd hne (show (-1 : Int32) ≠ 0 by decide),
      fun _ => rfl⟩

/--
**What the client is told.** One client calls while nothing is under way and nothing
gets lost, and the server finds in the request what the client was given. Whatever the
file system is and whatever is in the server's locals, the call returns, in every such
run with the same result, and that reports what the file system answered exactly if
`StatTells`: for every call but `MFS_Stat` always.
-/
theorem client_reports_iff (env : Env) (buf : Packet) (stat : StatT) {w w₀ : World State} {c : Nat}
    {call : Call Name Packet} {msg : Packet} (hserver : w.server = .loop) (hup : w.up = [])
    (hdown : w.down = []) (hcall : w.exec (files env buf stat) (.call c call msg) = some w₀)
    (hdecode : parse (msg.print call.message).bytes = .call (call.map some fun _ => ())) :
    ∃ r, Yields (files env buf stat) c w₀ r
      ∧ (Reports env buf stat w.fs r call ↔ StatTells env stat w.fs call) := by
  obtain ⟨d, h⟩ := asked_call hserver hup hdown hcall hdecode
  cases call with
  | init => exact ⟨_, yields_init h, Iff.rfl⟩
  | shutdown => exact ⟨_, yields_shutdown h, Iff.rfl⟩
  | lookup pinum name =>
      have hy := @yields_lookup _ (files env buf stat) _ _ _ _ _ _ (fsLookup env pinum (ofName name) w.fs) h rfl
      exact ⟨_, hy, fun _ => trivial, fun _ => rfl⟩
  | creat pinum type name =>
      have hy := @yields_creat _ (files env buf stat) _ _ _ _ _ _ _ (fsCreate env pinum type (ofName name) w.fs) h rfl
      exact ⟨_, hy, fun _ => trivial, fun _ => rfl⟩
  | unlink pinum name =>
      have hy := @yields_unlink _ (files env buf stat) _ _ _ _ _ _ (fsUnlink env pinum (ofName name) w.fs) h rfl
      exact ⟨_, hy, fun _ => trivial, fun _ => rfl⟩
  | write inum buffer block =>
      have hy := @yields_write _ (files env buf stat) _ _ _ _ _ _
        (fsWrite env inum buffer.bytes block w.fs).1 _ h rfl (fsWrite_rtn ..)
      exact ⟨_, hy, fun _ => trivial, fun _ => rfl⟩
  | read inum block =>
      obtain ⟨r, hy, hreports⟩ := yields_fsRead h
      exact ⟨r, hy, fun _ => trivial, fun _ => hreports⟩
  | stat inum =>
      have hpacket : ((files env buf stat).fsStat inum w.fs).1.stat = (fsStat env inum stat w.fs).2.1 :=
        stat_ofBytes _ _
      have hy := yields_stat (F := files env buf stat) h
      rw [hpacket] at hy
      exact ⟨_, hy, reports_stat⟩

end

/-- A server whose clients have called `MFS_Init`. -/
def connected (fs : State) : World State := { World.init fs with serverStat := fun _ => true }

theorem connected_stat (F : Files State) (fs : State) :
    ∃ w₀, (connected fs).exec F (.call 0 (.stat 16) .zero) = some w₀ := by
  have hgate : (Call.stat 16 : Call Name Packet).Accepted
      ∧ (Call.stat 16 : Call Name Packet).isInit = !(connected fs).serverStat 0 :=
    ⟨by decide, rfl⟩
  have hexec : ((connected fs).exec F (.call 0 (.stat 16) .zero)).isSome := by
    rw [World.exec]
    show Option.isSome (if _ then _ else _) = true
    rw [if_pos hgate]
    rfl
  exact Option.isSome_iff_exists.mp hexec

theorem parse_stat : parse (Packet.zero.print (Call.stat 16 : Call Name Packet).message).bytes
    = .call ((Call.stat 16 : Call Name Packet).map some fun _ => ()) :=
  @parse_message Packet (.stat 16) (by decide) Packet.zero

/-- A new image has no inode 16. -/
theorem fsStat_fresh (m : StatT) : ∃ s, fsInit sampleEnv none true [] = some s
    ∧ (fsStat sampleEnv 16 m s).1 = -1 ∧ (fsStat sampleEnv 16 m s).2.1 = m := by
  obtain ⟨s, e, hinit, -, he, hl, hv⟩ := @fsInit_level sampleEnv rfl
  have hlen := hl.len
  have hinv := @inv_init sampleEnv s rfl hinit (by omega)
  obtain ⟨q, hq⟩ := @fsStat_spec sampleEnv s 16 hinv.log rfl (by decide) m
  have hnone : s.view.stat 16 = none := by
    rw [View.stat, hv, Function.update_of_ne (by decide)]
    rfl
  rw [hnone] at hq
  exact ⟨s, hinit, by rw [hq]; rfl, by rw [hq]; rfl⟩

theorem reports_sample : ∃ s w₀ r, fsInit sampleEnv none true [] = some s
    ∧ (connected s).exec (files sampleEnv .zero ⟨-1, 0⟩) (.call 0 (.stat 16) .zero) = some w₀
    ∧ Yields (files sampleEnv .zero ⟨-1, 0⟩) 0 w₀ r
    ∧ (Reports sampleEnv .zero ⟨-1, 0⟩ s r (.stat 16) ↔ StatTells sampleEnv ⟨-1, 0⟩ s (.stat 16))
    ∧ StatTells sampleEnv ⟨-1, 0⟩ s (.stat 16) := by
  obtain ⟨s, hinit, hcode, hm⟩ := fsStat_fresh ⟨-1, 0⟩
  obtain ⟨w₀, hcall⟩ := connected_stat (files sampleEnv .zero ⟨-1, 0⟩) s
  obtain ⟨r, hy, hiff⟩ := client_reports_iff sampleEnv .zero ⟨-1, 0⟩ rfl rfl rfl hcall parse_stat
  refine ⟨s, w₀, r, hinit, hcall, hy, hiff, (@reports_stat sampleEnv .zero ⟨-1, 0⟩ s 16).mp ?_⟩
  have hno : ¬isType (⟨-1, 0⟩ : StatT).type := show ¬((-1 : Int32) = 0 ∨ (-1 : Int32) = 1) by decide
  rw [hm, statResult_not hno]
  exact ⟨fun h => absurd (hcode.symm.trans h) (by decide), fun _ => rfl⟩

/-- The server's local looks like a file of 77 bytes, and so does inode 16 of a new image. -/
theorem stat_finds_missing : ∃ s w₀, fsInit sampleEnv none true [] = some s
    ∧ (fsStat sampleEnv 16 ⟨1, 77⟩ s).1 = -1
    ∧ (connected s).exec (files sampleEnv .zero ⟨1, 77⟩) (.call 0 (.stat 16) .zero) = some w₀
    ∧ Yields (files sampleEnv .zero ⟨1, 77⟩) 0 w₀ (.stat ⟨1, 77⟩)
    ∧ ¬Reports sampleEnv .zero ⟨1, 77⟩ s (.stat ⟨1, 77⟩) (.stat 16) := by
  obtain ⟨s, hinit, hcode, hm⟩ := fsStat_fresh ⟨1, 77⟩
  obtain ⟨w₀, hcall⟩ := connected_stat (files sampleEnv .zero ⟨1, 77⟩) s
  obtain ⟨d, hasked⟩ := asked_call rfl rfl rfl hcall parse_stat
  have hy := @yields_stat _ (files sampleEnv .zero ⟨1, 77⟩) _ _ _ _ _ hasked
  have hpacket : ((files sampleEnv .zero ⟨1, 77⟩).fsStat 16 s).1.stat
      = (fsStat sampleEnv 16 ⟨1, 77⟩ s).2.1 := stat_ofBytes _ _
  rw [show (connected s).fs = s from rfl, hpacket, hm, statResult_isType (Or.inr rfl)] at hy
  refine ⟨s, w₀, hinit, hcode, hcall, hy, fun h => ?_⟩
  have hcontra := h.2 hcode
  simp at hcontra

end Cs537.Mfs
