import Cs537.Lib.CString
import Cs537.Web.Model

/-!
# The header of a request

`readHeader` reads the first line that a client sends, takes it apart with `sscanf`, and makes a
file name out of the second word. Here the arrays are arrays: what was on the stack is in them until
something is written, and who reads past their end, or writes there, is lost. Neither what
`Rio_readlineb` returns nor what `sscanf` does is looked at, so with fewer than two words the
arrays are used as they were. And `home.html` is put behind a name that may have filled its
array already.

The connection is the list of what `read` returns: the bytes come in pieces, and a signal may
interrupt it. A line is the same however the stream was cut into pieces.
-/

namespace Cs537.Web

open Lib

/-! ## Arrays -/

/-- `char[MAXLINE]`. -/
structure Chars where
  bytes : List UInt8
  full : bytes.length = maxLine

/-- Why a call does not return. -/
inductive Fault where
  /-- It leaves an array. -/
  | undefined
  /-- `unix_error` ends the process. -/
  | exits
deriving DecidableEq

/-- The string in it. Without a NUL, who looks for the end of it leaves the array. -/
def Chars.text (a : Chars) : Except Fault (List UInt8) :=
  if (0 : UInt8) ∈ a.bytes then .ok (cstr a.bytes) else .error .undefined

theorem length_store {s bytes : List UInt8} (hs : s.length < maxLine) (hfull : bytes.length = maxLine) :
    (s ++ 0 :: bytes.drop (s.length + 1)).length = maxLine := by
  rw [List.length_append, List.length_cons, List.length_drop]
  omega

/-- `strcpy(a, s)`; `sprintf` and `sscanf` write a string in the same way. -/
def Chars.strcpy (a : Chars) (s : List UInt8) : Except Fault Chars :=
  if h : s.length < maxLine then .ok ⟨s ++ 0 :: a.bytes.drop (s.length + 1), length_store h a.full⟩
  else .error .undefined

/-- `strcat(a, s)`. -/
def Chars.strcat (a : Chars) (s : List UInt8) : Except Fault Chars :=
  match a.text with
  | .error fault => .error fault
  | .ok text => a.strcpy (text ++ s)

/-- The bytes of `s` are written, and nothing behind them. -/
def Chars.fill (a : Chars) (s : List UInt8) : Chars where
  bytes := (s ++ a.bytes.drop s.length).take maxLine
  full := by
    have hfull := a.full
    rw [List.length_take, List.length_append, List.length_drop]
    omega

/-- `a[k] = '\0'`. -/
def Chars.cut (a : Chars) (k : Nat) : Chars := ⟨a.bytes.set k 0, List.length_set.trans a.full⟩

/-- `http_info`, as it lies on the stack. -/
structure RawInfo where
  isStatic : Int32
  method : Chars
  uri : Chars
  version : Chars
  filename : Chars
  cgiargs : Chars
  connfd : Int32

/-! ## `rio_t` -/

/-- What one `read` on the connection returns, if not 0. -/
inductive ReadCall where
  | bytes (c : UInt8) (cs : List UInt8)
  /-- `EINTR`. -/
  | interrupted
  | fails

/-- `rio_t`: the bytes from `rio_bufptr` on, and the connection. After the calls listed the client has closed. -/
structure Rio where
  unread : List UInt8
  fd : List ReadCall

/-- The loop of `rio_read` that fills the buffer, and `rio_cnt` after it. -/
def refill : List ReadCall → Int × Rio
  | [] => (0, ⟨[], []⟩)
  | .bytes c cs :: fd => ((c :: cs).length, ⟨c :: cs, fd⟩)
  | .interrupted :: fd => refill fd
  | .fails :: fd => (-1, ⟨[], fd⟩)

/-- `rio_read`, with the bytes that go to `usrbuf`. -/
def rioRead (rp : Rio) (n : Nat) : Int × List UInt8 × Rio :=
  let (cnt, rp) := if rp.unread = [] then refill rp.fd else ((rp.unread.length : Int), rp)
  if cnt ≤ 0 then (cnt, [], rp)
  else (((min n rp.unread.length : Nat) : Int), rp.unread.take n, ⟨rp.unread.drop n, rp.fd⟩)

/-- The loop of `rio_readlineb` with `k` rounds left. The bytes of `line` are in `usrbuf` already. -/
def readLoop : Nat → List UInt8 → Rio → Int × List UInt8 × Rio
  | 0, line, rp => (line.length + 1, line, rp)
  | k + 1, line, rp =>
      let (rc, bs, rp) := rioRead rp 1
      if rc = 1 then
        if bs = [10] then (line.length + 1, line ++ bs, rp) else readLoop k (line ++ bs) rp
      else if rc = 0 then
        -- the end of the file, without or with some data before it
        if line = [] then (0, line, rp) else (line.length + 1, line, rp)
      else (-1, line, rp)

/-- `rio_readlineb(rp, usrbuf, MAXLINE)`. It returns early at an empty file, without a NUL. -/
def rioReadlineb (rp : Rio) (usrbuf : Chars) : Int × Chars × Rio :=
  let (n, line, rp) := readLoop (maxLine - 1) [] rp
  if n ≤ 0 then (n, usrbuf.fill line, rp) else (n, (usrbuf.fill line).cut line.length, rp)

/-- `Rio_readlineb`. -/
def rioReadlinebW (rp : Rio) (usrbuf : Chars) : Except Fault (Int × Chars × Rio) :=
  let (rc, usrbuf, rp) := rioReadlineb rp usrbuf
  if rc < 0 then .error .exits else .ok (rc, usrbuf, rp)

/-! ## `readHeader` -/

/-- `sscanf(buf, "%s %s %s", info.method, info.uri, info.version)`: a word that is not there is not written. -/
def sscanf (buf : List UInt8) (info : RawInfo) : Except Fault RawInfo := do
  match scanWord buf with
  | none => pure info
  | some (w, buf) =>
      let method ← info.method.strcpy w
      let info := { info with method := method }
      match scanWord buf with
      | none => pure info
      | some (w, buf) =>
          let uri ← info.uri.strcpy w
          let info := { info with uri := uri }
          match scanWord buf with
          | none => pure info
          | some (w, _) =>
              let version ← info.version.strcpy w
              pure { info with version := version }

/-- `"cgi"`. -/
def cgi : List UInt8 := [99, 103, 105]

/-- `"home.html"`. -/
def homeHtml : List UInt8 := [104, 111, 109, 101, 46, 104, 116, 109, 108]

/-- `strstr(s, t)` is not NULL. -/
def strstr (s t : List UInt8) : Bool := decide (t <:+: s)

/-- `index(s, c) - s`. -/
def index (s : List UInt8) (c : UInt8) : Option Nat := s.findIdx? (· = c)

/-- `serverParseURI`. -/
def serverParseURI (info : RawInfo) : Except Fault RawInfo := do
  let uri ← info.uri.text
  if strstr uri cgi = false then
    let cgiargs ← info.cgiargs.strcpy []
    let filename ← info.filename.strcpy (46 :: uri)
    match uri.getLast? with
    -- `info->uri[strlen(info->uri)-1]`
    | none => throw .undefined
    | some c =>
        let filename ← if c = 47 then filename.strcat homeHtml else pure filename
        pure { info with cgiargs := cgiargs, filename := filename, isStatic := 1 }
  else
    match index uri 63 with
    | some ptr =>
        let cgiargs ← info.cgiargs.strcpy (uri.drop (ptr + 1))
        let uri ← (info.uri.cut ptr).text
        let filename ← info.filename.strcpy (46 :: uri)
        pure { info with cgiargs := cgiargs, uri := info.uri.cut ptr, filename := filename, isStatic := 0 }
    | none =>
        let cgiargs ← info.cgiargs.strcpy []
        let filename ← info.filename.strcpy (46 :: uri)
        pure { info with cgiargs := cgiargs, filename := filename, isStatic := 0 }

/-- The locals of `readHeader` before anything is written to them. -/
structure Stack where
  buf : Chars
  info : RawInfo

/-- `readHeader`. -/
def readHeader (fd : Int32) (calls : List ReadCall) (stack : Stack) : Except Fault RawInfo := do
  let (_, buf, _) ← rioReadlinebW ⟨[], calls⟩ stack.buf
  let line ← buf.text
  let info ← sscanf line { stack.info with connfd := fd }
  serverParseURI info

/-! ## Strings in arrays -/

variable {a b : Chars} {s t : List UInt8} {k : Nat}

theorem text_of_bytes {rest : List UInt8} (h : a.bytes = s ++ 0 :: rest) (hs : (0 : UInt8) ∉ s) :
    a.text = .ok s := by
  rw [Chars.text, h, if_pos (List.mem_append_right _ (List.mem_cons_self ..)), cstr_append hs]

theorem text_ok (h : a.text = .ok s) : (0 : UInt8) ∉ s ∧ ∃ rest, a.bytes = s ++ 0 :: rest := by
  rw [Chars.text] at h
  split at h
  · rename_i hmem
    cases h
    obtain ⟨s, rest, heq, hs⟩ := List.eq_append_cons_of_mem hmem
    rw [heq, cstr_append hs]
    exact ⟨hs, rest, rfl⟩
  · cases h

theorem text_cut (h : a.text = .ok s) (hk : k < s.length) : (a.cut k).text = .ok (s.take k) := by
  obtain ⟨hs, rest, heq⟩ := text_ok h
  refine @text_of_bytes (a.cut k) _ ((s ++ 0 :: rest).drop (k + 1)) ?_ fun hmem => hs (List.mem_of_mem_take hmem)
  show a.bytes.set k 0 = _
  rw [heq, List.set_eq_take_append_cons_drop, if_pos (by rw [List.length_append]; omega),
    List.take_append_of_le_length (Nat.le_of_lt hk)]

theorem strcpy_spec (a : Chars) (hs : (0 : UInt8) ∉ s) (hlen : s.length < maxLine) :
    ∃ b, a.strcpy s = .ok b ∧ b.text = .ok s := by
  rw [Chars.strcpy, dif_pos hlen]
  exact ⟨_, rfl, text_of_bytes rfl hs⟩

theorem strcat_spec (h : a.text = .ok t) (hs : (0 : UInt8) ∉ s) (hlen : (t ++ s).length < maxLine) :
    ∃ b, a.strcat s = .ok b ∧ b.text = .ok (t ++ s) := by
  rw [Chars.strcat, h]
  exact strcpy_spec a (fun hmem => (List.mem_append.mp hmem).elim (text_ok h).1 hs) hlen

theorem strcat_long (h : a.text = .ok t) (hlen : maxLine ≤ (t ++ s).length) :
    a.strcat s = .error .undefined := by
  rw [Chars.strcat, h]
  exact dif_neg (by omega)

/-! ## The line that is read -/

/-- The calls hand over the bytes of the stream, in any pieces, and then the client has closed. -/
inductive Delivers : List ReadCall → List UInt8 → Prop where
  | close : Delivers [] []
  | bytes {c : UInt8} {cs stream : List UInt8} {calls : List ReadCall} : Delivers calls stream →
      Delivers (.bytes c cs :: calls) (c :: cs ++ stream)
  | interrupted {stream : List UInt8} {calls : List ReadCall} : Delivers calls stream →
      Delivers (.interrupted :: calls) stream

/-- What is still to come. -/
def Rio.Holds (rp : Rio) (stream : List UInt8) : Prop :=
  ∃ later, Delivers rp.fd later ∧ stream = rp.unread ++ later

/-- At most `k` bytes, up to and with a newline. -/
def firstLine : Nat → List UInt8 → List UInt8
  | 0, _ => []
  | _ + 1, [] => []
  | k + 1, c :: s => if c = 10 then [c] else c :: firstLine k s

theorem length_firstLine (k : Nat) (s : List UInt8) : (firstLine k s).length ≤ k := by
  induction k generalizing s with
  | zero => exact Nat.le_refl _
  | succ k ih =>
      cases s with
      | nil => exact Nat.zero_le _
      | cons c s =>
          have hle := ih s
          rw [firstLine]
          split
          · exact Nat.succ_le_succ (Nat.zero_le _)
          · rw [List.length_cons]
            omega

theorem refill_spec {calls : List ReadCall} (h : Delivers calls s) :
    (s = [] ∧ refill calls = (0, ⟨[], []⟩))
      ∨ ∃ c cs rp, refill calls = (((c :: cs).length : Int), rp) ∧ rp.unread = c :: cs ∧ rp.Holds s := by
  induction h with
  | close => exact Or.inl ⟨rfl, rfl⟩
  | bytes h _ => exact Or.inr ⟨_, _, _, rfl, rfl, _, h, rfl⟩
  | interrupted _ ih => exact ih

theorem rioRead_end {rp : Rio} (h : rp.Holds []) : ∃ rp', rioRead rp 1 = (0, [], rp') := by
  obtain ⟨later, hd, heq⟩ := h
  obtain ⟨hunread, rfl⟩ := List.append_eq_nil_iff.mp heq.symm
  rw [rioRead, if_pos hunread]
  rcases refill_spec hd with ⟨-, hr⟩ | ⟨c, cs, rp', -, hunread', later', -, heq'⟩
  · rw [hr]
    exact ⟨_, rfl⟩
  · rw [hunread'] at heq'
    cases heq'

theorem rioRead_holds {rp rp' : Rio} (h : rp.Holds []) (hread : rioRead rp 1 = (0, [], rp')) : rp'.Holds [] := by
  obtain ⟨later, hd, heq⟩ := h
  obtain ⟨hunread, rfl⟩ := List.append_eq_nil_iff.mp heq.symm
  rw [rioRead, if_pos hunread] at hread
  rcases refill_spec hd with ⟨-, hr⟩ | ⟨c, cs, rp'', -, hunread', later', -, heq'⟩
  · rw [hr] at hread
    cases hread
    exact ⟨[], Delivers.close, rfl⟩
  · rw [hunread'] at heq'
    cases heq'

/-- A byte is taken out of a buffer that holds some. -/
theorem rioRead_buffered {rp : Rio} {c : UInt8} {cs later : List UInt8} (hunread : rp.unread = c :: cs)
    (hd : Delivers rp.fd later) :
    (if ((c :: cs).length : Int) ≤ 0 then (((c :: cs).length : Int), [], rp)
      else (((min 1 rp.unread.length : Nat) : Int), rp.unread.take 1, ⟨rp.unread.drop 1, rp.fd⟩))
      = (1, [c], ⟨cs, rp.fd⟩) ∧ Rio.Holds ⟨cs, rp.fd⟩ (cs ++ later) := by
  refine ⟨?_, later, hd, rfl⟩
  rw [if_neg (by rw [List.length_cons]; omega), hunread, List.length_cons, Nat.min_eq_left (by omega)]
  rfl

theorem rioRead_next {rp : Rio} {c : UInt8} (h : rp.Holds (c :: s)) :
    ∃ rp', rioRead rp 1 = (1, [c], rp') ∧ rp'.Holds s := by
  obtain ⟨later, hd, heq⟩ := h
  cases hunread : rp.unread with
  | cons c' cs =>
      rw [hunread] at heq
      cases heq
      obtain ⟨hread, hholds⟩ := rioRead_buffered hunread hd
      refine ⟨_, ?_, hholds⟩
      rw [rioRead, if_neg (by rw [hunread]; exact List.cons_ne_nil _ _)]
      dsimp only
      rw [hunread] at hread ⊢
      exact hread
  | nil =>
      rw [hunread, List.nil_append] at heq
      subst heq
      rcases refill_spec hd with ⟨hnil, -⟩ | ⟨c', cs, rp', hr, hunread', later', hd', heq'⟩
      · cases hnil
      · rw [hunread'] at heq'
        cases heq'
        obtain ⟨hread, hholds⟩ := rioRead_buffered hunread' hd'
        refine ⟨_, ?_, hholds⟩
        rw [rioRead, if_pos hunread, hr]
        exact hread

/-- The line is the first one of the stream, however the stream was cut, and the rest is still to come. -/
theorem readLoop_rest : ∀ (k : Nat) (line : List UInt8) (rp : Rio) (s : List UInt8), rp.Holds s →
    ∃ n rp', readLoop k line rp = (n, line ++ firstLine k s, rp') ∧ (line ++ s ≠ [] → 0 < n)
      ∧ rp'.Holds (s.drop (firstLine k s).length) := by
  intro k
  induction k with
  | zero =>
      intro line rp s h
      refine ⟨_, rp, by rw [readLoop, firstLine, List.append_nil], fun _ => ?_, h⟩
      omega
  | succ k ih =>
      intro line rp s h
      cases s with
      | nil =>
          obtain ⟨rp', hread⟩ := rioRead_end h
          have hholds := rioRead_holds h hread
          rw [readLoop, hread, firstLine, List.append_nil]
          dsimp only
          rw [if_neg (by decide), if_pos rfl]
          by_cases hline : line = []
          · rw [if_pos hline]
            exact ⟨0, rp', rfl, fun hne => absurd hline hne, hholds⟩
          · rw [if_neg hline]
            exact ⟨_, rp', rfl, fun _ => by omega, hholds⟩
      | cons c s =>
          obtain ⟨rp', hread, hnext⟩ := rioRead_next h
          rw [readLoop, hread, firstLine]
          dsimp only
          rw [if_pos rfl]
          by_cases hc : c = 10
          · rw [hc, if_pos rfl, if_pos rfl]
            exact ⟨_, rp', rfl, fun _ => by omega, hnext⟩
          · obtain ⟨n, rp'', hloop, hn, hholds⟩ := ih (line ++ [c]) rp' s hnext
            rw [if_neg fun heq => hc (List.cons.inj heq).1, if_neg hc, hloop, List.append_assoc]
            exact ⟨n, rp'', rfl, fun _ => hn (by simp), hholds⟩

/-- The line alone. -/
theorem readLoop_spec (k : Nat) (line : List UInt8) (rp : Rio) (s : List UInt8) (h : rp.Holds s) :
    ∃ n rp', readLoop k line rp = (n, line ++ firstLine k s, rp') ∧ (line ++ s ≠ [] → 0 < n) := by
  obtain ⟨n, rp', hloop, hn, -⟩ := readLoop_rest k line rp s h
  exact ⟨n, rp', hloop, hn⟩

theorem readLoop_end {rp : Rio} (h : rp.Holds []) (hk : 0 < k) : ∃ rp', readLoop k [] rp = (0, [], rp') := by
  obtain ⟨rp', hread⟩ := rioRead_end h
  refine ⟨rp', ?_⟩
  obtain ⟨k, rfl⟩ := Nat.exists_eq_succ_of_ne_zero (Nat.ne_of_gt hk)
  rw [readLoop, hread]
  rfl

theorem bytes_fill (a : Chars) (hs : s.length ≤ maxLine) : (a.fill s).bytes = s ++ a.bytes.drop s.length := by
  have hfull := a.full
  refine List.take_of_length_le ?_
  rw [List.length_append, List.length_drop]
  omega

/-- What `sscanf` is given: the first line, up to a NUL that the client sent. -/
def headerLine (stream : List UInt8) : List UInt8 := cstr (firstLine (maxLine - 1) stream)

/-- A client that sends nothing leaves the array as it was. -/
theorem readlineb_end {rp : Rio} (h : rp.Holds []) (a : Chars) :
    ∃ b rp', rioReadlinebW rp a = .ok (0, b, rp') ∧ b.bytes = a.bytes := by
  obtain ⟨rp', hloop⟩ := @readLoop_end (maxLine - 1) rp h (by decide)
  refine ⟨a.fill [], rp', ?_, bytes_fill a (Nat.zero_le _)⟩
  rw [rioReadlinebW, rioReadlineb, hloop]
  rfl

/-- Otherwise the line is in it, and no longer to come. -/
theorem readlineb_next {rp : Rio} (h : rp.Holds s) (hs : s ≠ []) (a : Chars) :
    ∃ n b rp', rioReadlinebW rp a = .ok (n, b, rp') ∧ b.text = .ok (headerLine s) ∧ 0 < n
      ∧ rp'.Holds (s.drop (firstLine (maxLine - 1) s).length) := by
  obtain ⟨n, rp', hloop, hn, hholds⟩ := readLoop_rest (maxLine - 1) [] rp s h
  have hpos : 0 < n := hn hs
  have hlen := length_firstLine (maxLine - 1) s
  have hmax : maxLine = 8192 := rfl
  have hfull := a.full
  have hbytes : ((a.fill (firstLine (maxLine - 1) s)).cut (firstLine (maxLine - 1) s).length).bytes
      = firstLine (maxLine - 1) s ++ 0 :: a.bytes.drop ((firstLine (maxLine - 1) s).length + 1) := by
    show (a.fill (firstLine (maxLine - 1) s)).bytes.set _ 0 = _
    rw [bytes_fill a (by omega), List.set_append_right _ _ (Nat.le_refl _), Nat.sub_self,
      List.drop_eq_getElem_cons (by omega)]
    rfl
  refine ⟨n, (a.fill (firstLine (maxLine - 1) s)).cut (firstLine (maxLine - 1) s).length, rp', ?_, ?_, hpos, hholds⟩
  · have hread : rioReadlineb rp a = (n, (a.fill (firstLine (maxLine - 1) s)).cut
        (firstLine (maxLine - 1) s).length, rp') := by
      rw [rioReadlineb, hloop]
      exact if_neg (by omega)
    rw [rioReadlinebW, hread]
    exact if_neg (by omega)
  · rw [Chars.text, hbytes, if_pos (List.mem_append_right _ (List.mem_cons_self ..)), cstr_append_zero]
    rfl

theorem readlineb_spec {rp : Rio} (h : rp.Holds s) (hs : s ≠ []) (a : Chars) :
    ∃ n b rp', rioReadlinebW rp a = .ok (n, b, rp') ∧ b.text = .ok (headerLine s) := by
  obtain ⟨n, b, rp', hread, htext, -⟩ := readlineb_next h hs a
  exact ⟨n, b, rp', hread, htext⟩

/-! ## The words, and what is made of the second -/

variable {info : RawInfo} {line uri w x : List UInt8} {ws : List (List UInt8)}

theorem ok_bind {α β : Type} (v : α) (f : α → Except Fault β) : (Except.ok v >>= f) = f v := rfl

theorem sscanf_none (h : words line = []) : sscanf line info = .ok info := by
  rw [sscanf, scanWord_nil h]
  rfl

/-- A word of a string without a NUL fits into an array that is long enough for the string. -/
theorem strcpy_word {rest : List UInt8} (h : w ++ rest <:+ line) (hzero : (0 : UInt8) ∉ line)
    (hlen : line.length < maxLine) (a : Chars) :
    (∃ b, a.strcpy w = .ok b ∧ b.text = .ok w) ∧ (0 : UInt8) ∉ rest ∧ rest.length < maxLine := by
  have hle := h.length_le
  rw [List.length_append] at hle
  refine ⟨strcpy_spec a (fun hmem => hzero (h.subset (List.mem_append_left _ hmem))) (by omega),
    fun hmem => hzero (h.subset (List.mem_append_right _ hmem)), by omega⟩

/-- One word is the method. -/
theorem sscanf_one (h : words line = [w]) (hzero : (0 : UInt8) ∉ line) (hlen : line.length < maxLine) :
    ∃ method, sscanf line info = .ok { info with method := method } := by
  obtain ⟨rest, hscan, hrest, hsuffix, -⟩ := scanWord_cons h
  obtain ⟨⟨method, hstore, -⟩, -, -⟩ := strcpy_word hsuffix hzero hlen info.method
  refine ⟨method, ?_⟩
  rw [sscanf, hscan]
  dsimp only
  rw [hstore, ok_bind, scanWord_nil hrest]
  rfl

/-- Two words are the method and the URI, and a third one is the version. -/
theorem sscanf_two (h : words line = w :: x :: ws) (hzero : (0 : UInt8) ∉ line) (hlen : line.length < maxLine) :
    ∃ info', sscanf line info = .ok info' ∧ info'.method.text = .ok w ∧ info'.uri.text = .ok x := by
  obtain ⟨rest, hscan, hrest, hsuffix, -⟩ := scanWord_cons h
  obtain ⟨⟨method, hstore, hmethod⟩, hzero', hlen'⟩ := strcpy_word hsuffix hzero hlen info.method
  obtain ⟨rest', hscan', hrest', hsuffix', -⟩ := scanWord_cons hrest
  obtain ⟨⟨uri, hstore', huri⟩, hzero'', hlen''⟩ := strcpy_word hsuffix' hzero' hlen' info.uri
  rw [sscanf, hscan]
  dsimp only
  rw [hstore, ok_bind, hscan']
  dsimp only
  rw [hstore', ok_bind]
  cases ws with
  | nil =>
      rw [scanWord_nil hrest']
      exact ⟨_, rfl, hmethod, huri⟩
  | cons v ws =>
      obtain ⟨rest'', hscan'', -, hsuffix'', -⟩ := scanWord_cons hrest'
      obtain ⟨⟨version, hstore'', -⟩, -, -⟩ := strcpy_word hsuffix'' hzero'' hlen'' info.version
      rw [hscan'']
      dsimp only
      rw [hstore'', ok_bind]
      exact ⟨_, rfl, hmethod, huri⟩

/-- The strings behind the method. -/
structure Parts where
  uri : List UInt8
  filename : List UInt8
  cgiargs : List UInt8

/-- What a URI stands for. -/
def parts (uri : List UInt8) : Parts :=
  if strstr uri cgi = false then
    ⟨uri, 46 :: uri ++ if uri.getLast? = some 47 then homeHtml else [], []⟩
  else
    match index uri 63 with
    | some ptr => ⟨uri.take ptr, 46 :: uri.take ptr, uri.drop (ptr + 1)⟩
    | none => ⟨uri, 46 :: uri, []⟩

theorem serverParseURI_static (h : info.uri.text = .ok uri) (hne : uri ≠ []) (hcgi : strstr uri cgi = false)
    (hfit : (46 :: uri ++ if uri.getLast? = some 47 then homeHtml else []).length < maxLine) :
    ∃ info', serverParseURI info = .ok info' ∧ info'.method = info.method ∧ info'.uri.text = .ok uri
      ∧ info'.filename.text = .ok (46 :: uri ++ if uri.getLast? = some 47 then homeHtml else [])
      ∧ info'.cgiargs.text = .ok [] := by
  have hzero : (0 : UInt8) ∉ 46 :: uri := fun hmem =>
    (List.mem_cons.mp hmem).elim (by decide) (text_ok h).1
  have hshort : (46 :: uri).length < maxLine := by
    rw [List.length_append] at hfit
    omega
  obtain ⟨cgiargs, hargs, hargs'⟩ := @strcpy_spec [] info.cgiargs List.not_mem_nil (by decide)
  obtain ⟨filename, hname, hname'⟩ := strcpy_spec info.filename hzero hshort
  obtain ⟨c, hc⟩ := Option.ne_none_iff_exists'.mp (mt List.getLast?_eq_none_iff.mp hne)
  rw [serverParseURI, h, ok_bind, if_pos hcgi, hargs, ok_bind, hname, ok_bind, hc]
  dsimp only
  rw [hc] at hfit
  by_cases hslash : c = 47
  · rw [if_pos (by rw [hslash])] at hfit
    obtain ⟨home, hcat, hhome⟩ := @strcat_spec filename homeHtml _ hname' (by decide) hfit
    rw [if_pos hslash, if_pos (by rw [hslash]), hcat, ok_bind]
    exact ⟨_, rfl, rfl, h, hhome, hargs'⟩
  · rw [if_neg hslash, if_neg fun heq => hslash (Option.some.inj heq), List.append_nil]
    exact ⟨_, rfl, rfl, h, hname', hargs'⟩

theorem serverParseURI_dynamic (h : info.uri.text = .ok uri) (hcgi : strstr uri cgi = true)
    (hfit : (46 :: uri).length < maxLine) : ∃ info', serverParseURI info = .ok info'
      ∧ info'.method = info.method ∧ info'.uri.text = .ok (parts uri).uri
      ∧ info'.filename.text = .ok (parts uri).filename ∧ info'.cgiargs.text = .ok (parts uri).cgiargs := by
  have hzero := (text_ok h).1
  have hcgi' : ¬strstr uri cgi = false := by
    rw [hcgi]
    exact Bool.true_eq_false.mp
  have hdot : ∀ s, (0 : UInt8) ∉ s → (0 : UInt8) ∉ 46 :: s := fun s hs hmem =>
    (List.mem_cons.mp hmem).elim (by decide) hs
  rw [serverParseURI, h, ok_bind, if_neg hcgi', parts, if_neg hcgi']
  cases hptr : index uri 63 with
  | none =>
      obtain ⟨cgiargs, hargs, hargs'⟩ := @strcpy_spec [] info.cgiargs List.not_mem_nil (by decide)
      obtain ⟨filename, hname, hname'⟩ := strcpy_spec info.filename (hdot uri hzero) hfit
      dsimp only
      rw [hargs, ok_bind, hname, ok_bind]
      exact ⟨_, rfl, rfl, h, hname', hargs'⟩
  | some ptr =>
      -- the URI is cut off at the question mark
      have hlt : ptr < uri.length := (List.findIdx?_eq_some_iff_findIdx_eq.mp hptr).1
      have hcut := text_cut h hlt
      have htake := List.length_take_le ptr uri
      rw [List.length_cons] at hfit
      obtain ⟨cgiargs, hargs, hargs'⟩ := @strcpy_spec (uri.drop (ptr + 1)) info.cgiargs
        (fun hmem => hzero (List.mem_of_mem_drop hmem)) (by rw [List.length_drop]; omega)
      obtain ⟨filename, hname, hname'⟩ := @strcpy_spec (46 :: uri.take ptr) info.filename
        (hdot _ fun hmem => hzero (List.mem_of_mem_take hmem)) (by rw [List.length_cons, List.length_take]; omega)
      dsimp only
      rw [hargs, ok_bind, hcut, ok_bind, hname, ok_bind]
      exact ⟨_, rfl, rfl, hcut, hname', hargs'⟩

/-- `home.html` is put behind the name of a directory. -/
def Home (uri : List UInt8) : Prop := strstr uri cgi = false ∧ uri.getLast? = some 47

theorem serverParseURI_spec (h : info.uri.text = .ok uri) (hne : uri ≠ []) (hshort : (46 :: uri).length < maxLine)
    (hhome : Home uri → (46 :: uri ++ homeHtml).length < maxLine) : ∃ info', serverParseURI info = .ok info'
      ∧ info'.method = info.method ∧ info'.uri.text = .ok (parts uri).uri
      ∧ info'.filename.text = .ok (parts uri).filename ∧ info'.cgiargs.text = .ok (parts uri).cgiargs := by
  cases hcgi : strstr uri cgi with
  | true => exact serverParseURI_dynamic h hcgi hshort
  | false =>
      rw [parts, if_pos hcgi]
      refine serverParseURI_static h hne hcgi ?_
      by_cases hlast : uri.getLast? = some 47
      · rw [if_pos hlast]
        exact hhome ⟨hcgi, hlast⟩
      · rw [if_neg hlast, List.append_nil]
        exact hshort

/-- There is no room for it. -/
theorem serverParseURI_long (h : info.uri.text = .ok uri) (hhome : Home uri)
    (hlong : maxLine ≤ (46 :: uri ++ homeHtml).length) : serverParseURI info = .error .undefined := by
  obtain ⟨hcgi, hlast⟩ := hhome
  obtain ⟨cgiargs, hargs, -⟩ := @strcpy_spec [] info.cgiargs List.not_mem_nil (by decide)
  rw [serverParseURI, h, ok_bind, if_pos hcgi, hargs, ok_bind, hlast]
  by_cases hshort : (46 :: uri).length < maxLine
  · have hzero : (0 : UInt8) ∉ 46 :: uri := fun hmem =>
      (List.mem_cons.mp hmem).elim (by decide) (text_ok h).1
    obtain ⟨filename, hname, hname'⟩ := strcpy_spec info.filename hzero hshort
    rw [hname, ok_bind]
    dsimp only
    rw [if_pos rfl, strcat_long hname' hlong]
    rfl
  · rw [Chars.strcpy, dif_neg hshort]
    rfl

theorem parts_short (hshort : (46 :: uri).length < maxLine)
    (hhome : Home uri → (46 :: uri ++ homeHtml).length < maxLine) : (parts uri).uri.length < maxLine
      ∧ (parts uri).filename.length < maxLine ∧ (parts uri).cgiargs.length < maxLine := by
  have hlen : uri.length < maxLine := by
    rw [List.length_cons] at hshort
    omega
  have hempty : ([] : List UInt8).length < maxLine := by decide
  rw [parts]
  split
  · rename_i hcgi
    refine ⟨hlen, ?_, hempty⟩
    dsimp only
    split
    · rename_i hlast
      exact hhome ⟨hcgi, hlast⟩
    · rw [List.append_nil]
      exact hshort
  · split
    · rename_i ptr _
      have htake := List.length_take_le' ptr uri
      rw [List.length_cons] at hshort
      refine ⟨Nat.lt_of_le_of_lt htake hlen, ?_, ?_⟩
      · rw [List.length_cons]
        omega
      · rw [List.length_drop]
        omega
    · exact ⟨hlen, hshort, hempty⟩

/-! ## The whole header -/

/-- The four strings are in their arrays. -/
structure Leaves (info : RawInfo) (method uri filename cgiargs : Line) : Prop where
  method : info.method.text = .ok method.chars
  uri : info.uri.text = .ok uri.chars
  filename : info.filename.text = .ok filename.chars
  cgiargs : info.cgiargs.text = .ok cgiargs.chars

/-- The strings are those of the stream, whatever was on the stack, and however the stream was cut. -/
def Defined (stream : List UInt8) : Prop :=
  ∃ method uri filename cgiargs : Line, ∀ (fd : Int32) (calls : List ReadCall) (stack : Stack),
    Delivers calls stream → ∃ info, readHeader fd calls stack = .ok info ∧ Leaves info method uri filename cgiargs

/-- The line has two words, and if `home.html` goes behind the second there is room for it. -/
def Complete (stream : List UInt8) : Prop :=
  ∃ method uri ws, words (headerLine stream) = method :: uri :: ws ∧ (Home uri → uri.length ≤ 8181)

variable {stream : List UInt8} {fd : Int32} {calls : List ReadCall}

theorem length_headerLine (stream : List UInt8) : (headerLine stream).length < maxLine := by
  have hle := length_cstr_le (firstLine (maxLine - 1) stream)
  have hline := length_firstLine (maxLine - 1) stream
  have hmax : maxLine = 8192 := rfl
  rw [headerLine]
  omega

theorem readHeader_line (hd : Delivers calls stream) (hs : stream ≠ []) (stack : Stack) :
    readHeader fd calls stack
      = (sscanf (headerLine stream) { stack.info with connfd := fd } >>= serverParseURI) := by
  obtain ⟨n, buf, rp, hread, htext⟩ := @readlineb_spec stream ⟨[], calls⟩ ⟨stream, hd, rfl⟩ hs stack.buf
  rw [readHeader, hread, ok_bind]
  dsimp only
  rw [htext]
  rfl

theorem defined_of_complete (h : Complete stream) : Defined stream := by
  obtain ⟨method, uri, ws, hwords, hfit⟩ := h
  have hline := length_headerLine stream
  have hlen := length_words hwords
  have hmax : maxLine = 8192 := rfl
  have hs : stream ≠ [] := by
    rintro rfl
    cases hwords
  have hne : uri ≠ [] := @ne_nil_of_mem_words (headerLine stream) uri (by rw [hwords]; simp)
  have hshort : (46 :: uri).length < maxLine := by
    rw [List.length_cons]
    omega
  have hhome : Home uri → (46 :: uri ++ homeHtml).length < maxLine := by
    intro hh
    have hle := hfit hh
    have hnine : homeHtml.length = 9 := rfl
    rw [List.length_append, List.length_cons]
    omega
  obtain ⟨huri, hfilename, hcgiargs⟩ := parts_short hshort hhome
  refine ⟨⟨method, by omega⟩, ⟨_, huri⟩, ⟨_, hfilename⟩, ⟨_, hcgiargs⟩, fun fd calls stack hd => ?_⟩
  obtain ⟨info, hscan, hm, hu⟩ := @sscanf_two { stack.info with connfd := fd } _ _ _ _ hwords
    (zero_notMem_cstr _) hline
  obtain ⟨info', hparse, hm', hu', hf', hc'⟩ := serverParseURI_spec hu hne hshort hhome
  refine ⟨info', ?_, ⟨by rw [hm', hm], hu', hf', hc'⟩⟩
  rw [readHeader_line hd hs, hscan, ok_bind, hparse]

/-- An array without a NUL. -/
def ones : Chars := ⟨List.replicate maxLine 1, List.length_replicate⟩

theorem text_ones : ones.text = .error .undefined := if_neg fun hmem =>
  absurd (List.eq_of_mem_replicate hmem) (by decide)

def onesStack : Stack := ⟨ones, ⟨0, ones, ones, ones, ones, ones, 0⟩⟩

/-- The stream byte by byte. -/
theorem delivers_bytes (stream : List UInt8) : Delivers (stream.map fun c => .bytes c []) stream := by
  induction stream with
  | nil => exact Delivers.close
  | cons c s ih => exact Delivers.bytes ih

theorem serverParseURI_ones {info : RawInfo} (h : info.uri = ones) : serverParseURI info = .error .undefined := by
  rw [serverParseURI, h, text_ones]
  rfl

theorem complete_of_defined (h : Defined stream) : Complete stream := by
  obtain ⟨method, uri, filename, cgiargs, hall⟩ := h
  obtain ⟨info, hread, -⟩ := hall 0 _ onesStack (delivers_bytes stream)
  have hline := length_headerLine stream
  by_cases hs : stream = []
  · -- nothing was written to `buf`
    subst hs
    obtain ⟨buf, rp, hend, hbytes⟩ := @readlineb_end ⟨[], []⟩ ⟨[], Delivers.close, rfl⟩ onesStack.buf
    have htext : buf.text = .error .undefined := by
      rw [Chars.text, hbytes]
      exact text_ones
    rw [readHeader, List.map_nil, hend, ok_bind] at hread
    dsimp only at hread
    rw [htext] at hread
    cases hread
  · rw [readHeader_line (delivers_bytes stream) hs] at hread
    cases hwords : words (headerLine stream) with
    | nil =>
        rw [sscanf_none hwords, ok_bind, serverParseURI_ones rfl] at hread
        cases hread
    | cons w ws =>
        cases ws with
        | nil =>
            obtain ⟨method', hscan⟩ := @sscanf_one { onesStack.info with connfd := 0 } _ _ hwords
              (zero_notMem_cstr _) hline
            rw [hscan, ok_bind, serverParseURI_ones rfl] at hread
            cases hread
        | cons x ws =>
            refine ⟨w, x, ws, hwords, fun hhome => ?_⟩
            by_contra hlong
            obtain ⟨info', hscan, -, hu⟩ := @sscanf_two { onesStack.info with connfd := 0 } _ _ _ _ hwords
              (zero_notMem_cstr _) hline
            have hmax : maxLine = 8192 := rfl
            have hnine : homeHtml.length = 9 := rfl
            have hfull : maxLine ≤ (46 :: x ++ homeHtml).length := by
              rw [List.length_append, List.length_cons]
              omega
            rw [hscan, ok_bind, serverParseURI_long hu hhome hfull] at hread
            cases hread

/--
**The header.** The strings that `readHeader` leaves are strings of fewer than `MAXLINE` bytes, and
determined by the stream, exactly if the first line of the stream has two words, and the second of
them has at most 8181 bytes where `home.html` is put behind it.
-/
theorem header_defined_iff (stream : List UInt8) : Defined stream ↔ Complete stream :=
  ⟨complete_of_defined, defined_of_complete⟩

/-- A blank line: the URI is what was on the stack. -/
theorem blank_line_not_defined : ¬Defined [10] := by
  intro h
  obtain ⟨method, uri, ws, hwords, -⟩ := complete_of_defined h
  have hnone : words (headerLine [10]) = [] := words_cons_space rfl []
  rw [hnone] at hwords
  cases hwords

end Cs537.Web
