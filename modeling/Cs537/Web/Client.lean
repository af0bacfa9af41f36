import Cs537.Web.Reply

/-!
# A client and the server

`client.c` sends one request and prints what comes back, line by line, with the same
`rio_readlineb`. Here both ends are put together: what `clientSend` writes is what `readHeader`
reads, and what the worker writes is what `clientPrint` reads, each cut into pieces in any way.

Lines are printed as strings, so of a line with a NUL only the front is shown. The loops end when
the server has closed the connection; `none` is a loop that is not done after the rounds it was
given.
-/

namespace Cs537.Web

open Lib

/-! ## `client.c` -/

/-- `clientSend`: the bytes that go to the server. -/
def clientSend (filename hostname : List UInt8) (buf : Chars) : Except Fault (List UInt8) := do
  let buf ← buf.strcpy (ascii "GET " ++ filename ++ ascii " HTTP/1.1\n")
  let buf ← buf.strcat (ascii "host: " ++ hostname ++ ascii "\n\r\n")
  buf.text

/--
`sscanf(buf, "Content-Length: %d ", &length)`, if it returns 1. The blanks match any white space,
and none as well.
-/
def scanLength (buf : List UInt8) : Option Int32 :=
  let tag := ascii "Content-Length:"
  if tag <+: buf then
    let s := (buf.drop tag.length).dropWhile isSpace
    let digits := match s with
      | c :: s => if c = 45 ∨ c = 43 then s else c :: s
      | [] => []
    if (digits.head?.map isDigit) = some true then some (atoi s) else none
  else none

/-- What is printed for the length. -/
def printLength (buf : List UInt8) : List UInt8 :=
  match scanLength buf with
  | some length => ascii "Length = " ++ printInt length ++ ascii "\n"
  | none => []

/-- The header loop of `clientPrint`, and what it prints. `strcmp` stays inside an array without a NUL as well. -/
def printHeader : Nat → Int → Chars → Rio → List UInt8 → Option (Except Fault (Chars × Rio × List UInt8))
  | 0, _, _, _, _ => none
  | k + 1, n, buf, rp, out =>
      if cstr buf.bytes ≠ ascii "\r\n" ∧ n > 0 then
        match buf.text with
        | .error fault => some (.error fault)
        | .ok line =>
            match rioReadlinebW rp buf with
            | .error fault => some (.error fault)
            | .ok (n, buf, rp) =>
                match buf.text with
                | .error fault => some (.error fault)
                | .ok next => printHeader k n buf rp (out ++ (ascii "Header: " ++ line ++ printLength next))
      else some (.ok (buf, rp, out))

/-- The body loop. -/
def printBody : Nat → Int → Chars → Rio → List UInt8 → Option (Except Fault (List UInt8))
  | 0, _, _, _, _ => none
  | k + 1, n, buf, rp, out =>
      if n > 0 then
        match buf.text with
        | .error fault => some (.error fault)
        | .ok line =>
            match rioReadlinebW rp buf with
            | .error fault => some (.error fault)
            | .ok (n, buf, rp) => printBody k n buf rp (out ++ line)
      else some (.ok out)

/-- `clientPrint`, with `k` rounds for each loop: what it prints. -/
def clientPrint (k : Nat) (calls : List ReadCall) (buf : Chars) : Option (Except Fault (List UInt8)) :=
  match rioReadlinebW ⟨[], calls⟩ buf with
  | .error fault => some (.error fault)
  | .ok (n, buf, rp) =>
      match printHeader k n buf rp [] with
      | none => none
      | some (.error fault) => some (.error fault)
      | some (.ok (buf, rp, out)) =>
          match rioReadlinebW rp buf with
          | .error fault => some (.error fault)
          | .ok (n, buf, rp) => printBody k n buf rp out

/-! ## One connection -/

/-- The array as a string. -/
def Chars.line (a : Chars) : Line where
  chars := cstr (a.bytes.take (maxLine - 1))
  short := by
    have hle := length_cstr_le (a.bytes.take (maxLine - 1))
    have htake := List.length_take_le (maxLine - 1) a.bytes
    have hmax : maxLine = 8192 := rfl
    omega

/-- What a worker has after `copyInfo`. Nobody reads the version, which may be in an array without a NUL. -/
def RawInfo.copied (raw : RawInfo) : Except Fault HttpInfo := do
  let _ ← raw.method.text
  let _ ← raw.uri.text
  let _ ← raw.filename.text
  let _ ← raw.cgiargs.text
  pure ⟨raw.isStatic, raw.method.line, raw.uri.line, raw.version.line, raw.filename.line, raw.cgiargs.line, raw.connfd⟩

/-- All that may differ from one connection to the next: what was in the arrays, and how the two streams are cut. -/
structure Wire where
  sendBuf : Chars
  stack : Stack
  scratch : Scratch
  printBuf : Chars
  connfd : Int32
  request : List UInt8 → List ReadCall
  reply : List UInt8 → List ReadCall
  request_delivers : ∀ s, Delivers (request s) s
  reply_delivers : ∀ s, Delivers (reply s) s

/-- What the worker writes for what the client sent. -/
def serve (w : Wire) (d : Disk) (sent : List UInt8) : Except Fault (List UInt8) := do
  let raw ← readHeader w.connfd (w.request sent) w.stack
  let info ← raw.copied
  respond d w.scratch (requestHandle d.stat info)

/-- `clientSend`, the server, and `clientPrint`: what the client prints. -/
def exchange (w : Wire) (d : Disk) (path host : List UInt8) (k : Nat) : Option (Except Fault (List UInt8)) :=
  match (clientSend path host w.sendBuf >>= serve w d) with
  | .error fault => some (.error fault)
  | .ok written => clientPrint k (w.reply written) w.printBuf

/-! ## Lines -/

variable {s t line rest : List UInt8} {rp : Rio}

theorem firstLine_line (h : (10 : UInt8) ∉ line) : ∀ {k : Nat}, line.length < k →
    firstLine k (line ++ 10 :: rest) = line ++ [10] := by
  induction line with
  | nil =>
      intro k hk
      cases k with
      | zero => exact absurd hk (Nat.not_lt_zero _)
      | succ k => exact if_pos rfl
  | cons c line ih =>
      intro k hk
      rw [List.mem_cons, not_or] at h
      cases k with
      | zero => exact absurd hk (Nat.not_lt_zero _)
      | succ k =>
          rw [List.length_cons] at hk
          rw [List.cons_append, firstLine, if_neg (Ne.symm h.1), ih h.2 (by omega)]
          rfl

/-- A line of visible characters is read as it is. -/
theorem readlineb_line (h : rp.Holds (line ++ 10 :: rest)) (hline : ∀ c ∈ line, c ≠ 0 ∧ c ≠ 10)
    (hlen : line.length < maxLine - 1) (a : Chars) : ∃ n b rp', rioReadlinebW rp a = .ok (n, b, rp')
      ∧ b.text = .ok (line ++ [10]) ∧ 0 < n ∧ rp'.Holds rest := by
  have hfirst : firstLine (maxLine - 1) (line ++ 10 :: rest) = line ++ [10] :=
    firstLine_line (fun hmem => (hline 10 hmem).2 rfl) hlen
  obtain ⟨n, b, rp', hread, htext, hn, hholds⟩ := readlineb_next h (by simp) a
  refine ⟨n, b, rp', hread, ?_, hn, ?_⟩
  · rw [htext, headerLine, hfirst, cstr_eq]
    rw [List.mem_append, not_or]
    exact ⟨fun hmem => (hline 0 hmem).1 rfl, by decide⟩
  · rw [hfirst, List.length_append] at hholds
    have hdrop : (line ++ 10 :: rest).drop (line.length + 1) = rest := by
      rw [← List.drop_drop, List.drop_left]
      rfl
    rwa [List.length_singleton, hdrop] at hholds

theorem firstLine_front (k : Nat) (s : List UInt8) : firstLine k s <+: s := by
  induction k generalizing s with
  | zero => exact List.nil_prefix
  | succ k ih =>
      cases s with
      | nil => exact List.nil_prefix
      | cons c s =>
          rw [firstLine]
          split
          · exact ⟨s, rfl⟩
          · exact List.prefix_cons_inj c |>.mpr (ih s)

theorem firstLine_ne_nil (hs : s ≠ []) : firstLine (maxLine - 1) s ≠ [] := by
  cases s with
  | nil => exact absurd rfl hs
  | cons c s =>
      have hk : maxLine - 1 = 8190 + 1 := rfl
      rw [hk, firstLine]
      split
      · exact List.cons_ne_nil _ _
      · exact List.cons_ne_nil _ _

/-- The stream behind its first line. -/
def restOf (s : List UInt8) : List UInt8 := s.drop (firstLine (maxLine - 1) s).length

theorem length_restOf (hs : s ≠ []) : (restOf s).length < s.length := by
  have hpos := List.length_pos_iff.mpr (firstLine_ne_nil hs)
  have hpos' := List.length_pos_iff.mpr hs
  rw [restOf, List.length_drop]
  omega

/-- What is printed of a stream: of each line the part before its first NUL. -/
def shown (s : List UInt8) : List UInt8 :=
  if s = [] then [] else headerLine s ++ shown (restOf s)
termination_by s.length
decreasing_by
  rename_i h
  exact length_restOf h

theorem shown_nil : shown [] = [] := by
  rw [shown, if_pos rfl]

theorem shown_eq (hs : s ≠ []) : shown s = headerLine s ++ shown (restOf s) := by
  rw [shown, if_neg hs]

theorem firstLine_append_restOf (s : List UInt8) : firstLine (maxLine - 1) s ++ restOf s = s :=
  (List.prefix_iff_eq_append.mp (firstLine_front (maxLine - 1) s))

/-- Without a NUL the stream itself is printed. -/
theorem shown_self : ∀ (n : Nat) (s : List UInt8), s.length ≤ n → (0 : UInt8) ∉ s → shown s = s := by
  intro n
  induction n with
  | zero =>
      intro s hn hs
      rw [List.length_eq_zero_iff.mp (Nat.le_zero.mp hn), shown_nil]
  | succ n ih =>
      intro s hn hs
      by_cases hnil : s = []
      · rw [hnil, shown_nil]
      · have hlt := length_restOf hnil
        have hsplit := firstLine_append_restOf s
        rw [← hsplit, List.mem_append, not_or] at hs
        rw [shown_eq hnil, ih (restOf s) (by omega) hs.2, headerLine, cstr_eq hs.1, hsplit]

theorem length_shown : ∀ (n : Nat) (s : List UInt8), s.length ≤ n → (shown s).length ≤ s.length := by
  intro n
  induction n with
  | zero =>
      intro s hn
      rw [List.length_eq_zero_iff.mp (Nat.le_zero.mp hn), shown_nil]
  | succ n ih =>
      intro s hn
      by_cases hnil : s = []
      · rw [hnil, shown_nil]
      · have hlt := length_restOf hnil
        have hrest := ih (restOf s) (by omega)
        have hline := length_cstr_le (firstLine (maxLine - 1) s)
        have hsplit := congrArg List.length (firstLine_append_restOf s)
        rw [List.length_append] at hsplit
        rw [shown_eq hnil, List.length_append, headerLine]
        omega

/-- With one, less is printed than there is. -/
theorem shown_eq_iff (s : List UInt8) : shown s = s ↔ (0 : UInt8) ∉ s := by
  refine ⟨?_, shown_self s.length s (Nat.le_refl _)⟩
  induction hn : s.length using Nat.strongRecOn generalizing s with
  | ind n ih =>
      intro heq hmem
      have hnil : s ≠ [] := List.ne_nil_of_mem hmem
      have hlt := length_restOf hnil
      have hsplit := firstLine_append_restOf s
      have hlen := congrArg List.length hsplit
      rw [List.length_append] at hlen
      have hrest := length_shown _ (restOf s) (Nat.le_refl _)
      have hline := length_cstr_le (firstLine (maxLine - 1) s)
      rw [shown_eq hnil] at heq
      have hlen' := congrArg List.length heq
      rw [List.length_append, headerLine] at hlen'
      -- nothing is missing of the first line, nor of the rest
      have hfull : (cstr (firstLine (maxLine - 1) s)).length = (firstLine (maxLine - 1) s).length := by omega
      have hself : cstr (firstLine (maxLine - 1) s) = firstLine (maxLine - 1) s :=
        (List.takeWhile_prefix _).eq_of_length hfull
      have hzero : (0 : UInt8) ∉ firstLine (maxLine - 1) s := by
        rw [← hself]
        exact zero_notMem_cstr _
      rw [headerLine, hself] at heq
      have heq' : shown (restOf s) = restOf s := List.append_cancel_left (heq.trans hsplit.symm)
      rw [← hsplit] at hmem
      exact (List.mem_append.mp hmem).elim hzero (ih _ (by omega) (restOf s) rfl heq')

/-! ## The loops of the client -/

/-- The body, from the line that was read last. -/
theorem printBody_spec : ∀ (k : Nat) (n : Int) (buf : Chars) (rp : Rio) (line s out : List UInt8),
    s.length + 1 < k → 0 < n → buf.text = .ok line → rp.Holds s →
    printBody k n buf rp out = some (.ok (out ++ line ++ shown s)) := by
  intro k
  induction k with
  | zero =>
      intro n buf rp line s out hk
      omega
  | succ k ih =>
      intro n buf rp line s out hk hn htext hholds
      rw [printBody, if_pos hn, htext]
      dsimp only
      by_cases hs : s = []
      · subst hs
        obtain ⟨buf', rp', hread, -⟩ := readlineb_end hholds buf
        rw [hread]
        dsimp only
        obtain ⟨k, rfl⟩ := Nat.exists_eq_succ_of_ne_zero (by omega : k ≠ 0)
        rw [printBody, if_neg (by decide), shown_nil, List.append_nil]
      · obtain ⟨n', buf', rp', hread, htext', hn', hholds'⟩ := readlineb_next hholds hs buf
        have hlt := length_restOf hs
        rw [hread]
        dsimp only
        rw [ih n' buf' rp' (headerLine s) (restOf s) (out ++ line) (by omega) hn' htext' hholds', shown_eq hs]
        simp only [List.append_assoc]

/-- The body, with the read before its loop. -/
theorem printBody_first (hholds : rp.Holds s) {k : Nat} (hk : s.length + 1 < k) (buf : Chars) (out : List UInt8) :
    ∃ n buf' rp', rioReadlinebW rp buf = .ok (n, buf', rp')
      ∧ printBody k n buf' rp' out = some (.ok (out ++ shown s)) := by
  by_cases hs : s = []
  · subst hs
    obtain ⟨buf', rp', hread, -⟩ := readlineb_end hholds buf
    refine ⟨0, buf', rp', hread, ?_⟩
    obtain ⟨k, rfl⟩ := Nat.exists_eq_succ_of_ne_zero (by omega : k ≠ 0)
    rw [printBody, if_neg (by decide), shown_nil, List.append_nil]
  · obtain ⟨n', buf', rp', hread, htext', hn', hholds'⟩ := readlineb_next hholds hs buf
    have hlt := length_restOf hs
    refine ⟨n', buf', rp', hread, ?_⟩
    rw [printBody_spec k n' buf' rp' (headerLine s) (restOf s) out (by omega) hn' htext' hholds', shown_eq hs,
      List.append_assoc]

/-- The first line of a header, without its newline: the last one is blank. -/
def topLine : List (List UInt8) → List UInt8
  | [] => [13]
  | line :: _ => line

/-- A header as it is sent. -/
def headerBytes : List (List UInt8) → List UInt8
  | [] => ascii "\r\n"
  | line :: lines => line ++ 10 :: headerBytes lines

/-- The header behind its first line. -/
def headerTail : List (List UInt8) → List UInt8
  | [] => []
  | _ :: lines => headerBytes lines

/-- A header as it is printed. -/
def headerShown : List (List UInt8) → List UInt8
  | [] => []
  | line :: lines => ascii "Header: " ++ (line ++ [10]) ++ printLength (topLine lines ++ [10]) ++ headerShown lines

theorem headerBytes_eq (lines : List (List UInt8)) : headerBytes lines = topLine lines ++ 10 :: headerTail lines := by
  cases lines with
  | nil => rfl
  | cons line lines => rfl

/-- The lines of a header: short ones of visible characters, and none of them blank. -/
structure HeaderLine (line : List UInt8) : Prop where
  visible : ∀ c ∈ line, c ≠ 0 ∧ c ≠ 10
  short : line.length < maxLine - 1
  notBlank : line ≠ [13]

theorem topLine_visible {lines : List (List UInt8)} (h : ∀ line ∈ lines, HeaderLine line) :
    (∀ c ∈ topLine lines, c ≠ 0 ∧ c ≠ 10) ∧ (topLine lines).length < maxLine - 1 := by
  cases lines with
  | nil => exact ⟨by simp [topLine], by decide⟩
  | cons line lines =>
      have hline := h line (List.mem_cons_self ..)
      exact ⟨hline.visible, hline.short⟩

theorem cstr_of_text {a : Chars} (h : a.text = .ok s) : cstr a.bytes = s := by
  obtain ⟨hs, rest, heq⟩ := text_ok h
  rw [heq, cstr_append hs]

/-- The header loop, from the line that was read last. -/
theorem printHeader_spec {body : List UInt8} : ∀ (lines : List (List UInt8)) (k : Nat) (n : Int) (buf : Chars)
    (rp : Rio) (out : List UInt8), (∀ line ∈ lines, HeaderLine line) → lines.length < k → 0 < n →
    buf.text = .ok (topLine lines ++ [10]) → rp.Holds (headerTail lines ++ body) →
    ∃ buf' rp', printHeader k n buf rp out = some (.ok (buf', rp', out ++ headerShown lines)) ∧ rp'.Holds body := by
  intro lines
  induction lines with
  | nil =>
      intro k n buf rp out _ hk hn htext hholds
      obtain ⟨k, rfl⟩ := Nat.exists_eq_succ_of_ne_zero (Nat.ne_of_gt hk)
      have hblank : ¬(cstr buf.bytes ≠ ascii "\r\n" ∧ n > 0) := fun h => h.1 (cstr_of_text htext)
      rw [printHeader, if_neg hblank, headerShown, List.append_nil]
      exact ⟨buf, rp, rfl, hholds⟩
  | cons line lines ih =>
      intro k n buf rp out hlines hk hn htext hholds
      obtain ⟨k, rfl⟩ := Nat.exists_eq_succ_of_ne_zero (Nat.ne_of_gt (Nat.lt_of_le_of_lt (Nat.zero_le _) hk))
      have hline := hlines line (List.mem_cons_self ..)
      have hrest : ∀ l ∈ lines, HeaderLine l := fun l hl => hlines l (List.mem_cons_of_mem _ hl)
      obtain ⟨hvisible, hshort⟩ := topLine_visible hrest
      have hnext : rp.Holds (topLine lines ++ 10 :: (headerTail lines ++ body)) := by
        have heq : headerTail (line :: lines) ++ body = topLine lines ++ 10 :: (headerTail lines ++ body) := by
          rw [headerTail, headerBytes_eq, List.append_assoc, List.cons_append]
        rwa [heq] at hholds
      obtain ⟨n', buf', rp', hread, htext', hn', hholds'⟩ := readlineb_line hnext hvisible hshort buf
      have hgo : cstr buf.bytes ≠ ascii "\r\n" ∧ n > 0 := by
        refine ⟨fun heq => hline.notBlank ?_, hn⟩
        rw [cstr_of_text htext] at heq
        exact @List.append_cancel_right _ line [10] [13] heq
      rw [printHeader, if_pos hgo, htext]
      dsimp only
      rw [hread]
      dsimp only
      rw [htext']
      dsimp only
      rw [List.length_cons] at hk
      obtain ⟨buf'', rp'', hloop, hbody⟩ := ih k n' buf' rp'
        (out ++ (ascii "Header: " ++ (topLine (line :: lines) ++ [10]) ++ printLength (topLine lines ++ [10])))
        hrest (by omega) hn' htext' hholds'
      refine ⟨buf'', rp'', ?_, hbody⟩
      rw [hloop, headerShown, List.append_assoc]
      rfl

/-- What the client prints of a header and a body, however they were cut. -/
theorem clientPrint_spec {lines : List (List UInt8)} {body : List UInt8} {calls : List ReadCall}
    (hlines : ∀ line ∈ lines, HeaderLine line) (hd : Delivers calls (headerBytes lines ++ body)) (buf : Chars)
    {k : Nat} (hk : lines.length < k) (hk' : body.length + 1 < k) :
    clientPrint k calls buf = some (.ok (headerShown lines ++ shown body)) := by
  obtain ⟨hvisible, hshort⟩ := topLine_visible hlines
  have hholds : Rio.Holds ⟨[], calls⟩ (topLine lines ++ 10 :: (headerTail lines ++ body)) := by
    refine ⟨_, hd, ?_⟩
    rw [headerBytes_eq, List.append_assoc, List.cons_append]
    rfl
  obtain ⟨n, buf1, rp1, hread, htext, hn, hholds1⟩ := readlineb_line hholds hvisible hshort buf
  obtain ⟨buf2, rp2, hheader, hholds2⟩ := printHeader_spec lines k n buf1 rp1 [] hlines hk hn htext hholds1
  obtain ⟨n3, buf3, rp3, hread3, hbody⟩ := printBody_first hholds2 hk' buf2 (headerShown lines)
  rw [clientPrint, hread]
  dsimp only
  rw [hheader]
  dsimp only
  rw [List.nil_append, hread3]
  exact hbody

/-! ## The length that is printed -/

theorem digit_unsigned {c : UInt8} (h : isDigit c = true) : ¬(c = 45 ∨ c = 43) := by
  have hlow := (isDigit_iff.mp h).1
  rintro (rfl | rfl)
  · exact absurd hlow (by decide)
  · exact absurd hlow (by decide)

theorem dropWhile_digit {c : UInt8} (hc : isDigit c = true) (s : List UInt8) : (c :: s).dropWhile isSpace = c :: s := by
  have hdigit := isDigit_iff.mp hc
  refine List.dropWhile_cons_of_neg ?_
  rw [isSpace, Bool.or_eq_true, Bool.and_eq_true, decide_eq_true_eq, decide_eq_true_eq, decide_eq_true_eq, not_or,
    not_and]
  refine ⟨?_, fun _ => ?_⟩
  · rintro rfl
    exact absurd hdigit.1 (by decide)
  · rw [UInt8.le_iff_toNat_le]
    show ¬c.toNat ≤ 13
    omega

theorem number_decimal_append (n : Nat) {c : UInt8} (hc : isDigit c = false) (s : List UInt8) :
    number (decimal n ++ c :: s) = n := by
  have htake : (decimal n ++ c :: s).takeWhile isDigit = (decimal n).takeWhile isDigit := by
    rw [List.takeWhile_append_of_pos fun d hd => isDigit_decimal hd, List.takeWhile_cons_of_neg (by rw [hc]; decide),
      List.append_nil]
    exact (List.takeWhile_eq_self_iff.mpr fun d hd => isDigit_decimal hd).symm
  rw [number, htake]
  exact number_decimal n

/-- The line with the length of what follows is understood. -/
theorem scanLength_line (n : Nat) : scanLength (ascii "Content-Length: " ++ decimal n ++ [13] ++ [10])
    = some (Int32.ofInt n) := by
  have hsplit : ascii "Content-Length: " ++ decimal n ++ [13] ++ [10]
      = ascii "Content-Length:" ++ 32 :: (decimal n ++ [13, 10]) := by
    have htag : ascii "Content-Length: " = ascii "Content-Length:" ++ [32] := rfl
    rw [htag]
    simp only [List.append_assoc]
    rfl
  have hspace : (32 :: (decimal n ++ [13, 10])).dropWhile isSpace = (decimal n ++ [13, 10]).dropWhile isSpace :=
    List.dropWhile_cons_of_pos (by decide)
  cases hs : decimal n with
  | nil => exact absurd hs (decimal_ne_nil n)
  | cons c s =>
      have hc : isDigit c = true := @isDigit_decimal n c (by rw [hs]; exact List.mem_cons_self ..)
      have hsign := digit_unsigned hc
      obtain ⟨hminus, hplus⟩ := not_or.mp hsign
      have hatoi : atoi (c :: (s ++ [13, 10])) = Int32.ofInt n := by
        rw [atoi, dropWhile_digit hc]
        dsimp only
        rw [if_neg hminus, if_neg hplus, ← List.cons_append, ← hs, number_decimal_append n (by decide)]
      rw [← hs, hsplit, scanLength, if_pos (List.prefix_append _ _), List.drop_left, hspace, hs, List.cons_append,
        dropWhile_digit hc]
      dsimp only
      rw [if_pos, hatoi]
      rw [if_neg hsign, List.head?_cons, Option.map_some, hc]

theorem printLength_line {n : Nat} (hn : n < 2 ^ 31) :
    printLength (ascii "Content-Length: " ++ decimal n ++ [13] ++ [10])
      = ascii "Length = " ++ decimal n ++ ascii "\n" := by
  have htoInt : (Int32.ofInt n).toInt = n := by
    rw [Int32.toInt_ofInt_of_le] <;> omega
  rw [printLength, scanLength_line]
  dsimp only
  rw [printInt, htoInt, if_neg (by omega), Int.natAbs_natCast]

theorem printLength_other {line : List UInt8} (h : ¬ascii "Content-Length:" <+: line) : printLength line = [] := by
  rw [printLength, scanLength, if_neg h]

/-! ## The request -/

variable {w : Wire} {d : Disk} {path host : List UInt8} {info raw : RawInfo}

/-- A name that the server reads as it was sent: one word, short enough for the arrays of the client. -/
structure Sendable (path host : List UInt8) : Prop where
  ne_nil : path ≠ []
  word : ∀ c ∈ path, isSpace c = false ∧ c ≠ 0
  host_string : (0 : UInt8) ∉ host
  fits : path.length + host.length + 23 < maxLine

/-- The two texts of the request. -/
def requestText (path host : List UInt8) : List UInt8 :=
  ascii "GET " ++ path ++ ascii " HTTP/1.1\n" ++ (ascii "host: " ++ host ++ ascii "\n\r\n")

theorem clientSend_spec (h : Sendable path host) (buf : Chars) :
    clientSend path host buf = .ok (requestText path host) := by
  have hfits := h.fits
  have h4 : (ascii "GET ").length = 4 := rfl
  have h10 : (ascii " HTTP/1.1\n").length = 10 := rfl
  have h6 : (ascii "host: ").length = 6 := rfl
  have h3 : (ascii "\n\r\n").length = 3 := rfl
  have hzero : (0 : UInt8) ∉ path := fun hmem => (h.word 0 hmem).2 rfl
  obtain ⟨buf1, hcpy, htext⟩ := @strcpy_spec (ascii "GET " ++ path ++ ascii " HTTP/1.1\n") buf
    (string_between (by simp [ascii]) hzero (by simp [ascii])) (by
      simp only [List.length_append]
      omega)
  obtain ⟨buf2, hcat, htext2⟩ := @strcat_spec buf1 (ascii "host: " ++ host ++ ascii "\n\r\n") _ htext
    (string_between (by simp [ascii]) h.host_string (by simp [ascii])) (by
      simp only [List.length_append]
      omega)
  rw [clientSend, hcpy, ok_bind, hcat, ok_bind, htext2]
  rfl

theorem words_request (h : Sendable path host) :
    words (ascii "GET " ++ path ++ ascii " HTTP/1.1" ++ [10]) = [ascii "GET", path, ascii "HTTP/1.1"] := by
  have hsplit : ascii "GET " ++ path ++ ascii " HTTP/1.1" ++ [10]
      = ascii "GET" ++ 32 :: (path ++ 32 :: (ascii "HTTP/1.1" ++ [10])) := by
    have hget : ascii "GET " = ascii "GET" ++ [32] := rfl
    have hversion : ascii " HTTP/1.1" = 32 :: ascii "HTTP/1.1" := rfl
    rw [hget, hversion]
    simp only [List.append_assoc]
    rfl
  rw [hsplit, words_append (by simp [ascii]) (by simp [ascii, isSpace]) (Or.inr ⟨32, _, rfl, rfl⟩),
    words_cons_space rfl, words_append h.ne_nil (fun c hc => (h.word c hc).1) (Or.inr ⟨32, _, rfl, rfl⟩),
    words_cons_space rfl]
  rfl

/-- The line that the server reads. -/
theorem headerLine_request (h : Sendable path host) :
    headerLine (requestText path host) = ascii "GET " ++ path ++ ascii " HTTP/1.1" ++ [10] := by
  have hfits := h.fits
  have hsplit : requestText path host = (ascii "GET " ++ path ++ ascii " HTTP/1.1")
      ++ 10 :: (ascii "host: " ++ host ++ ascii "\n\r\n") := by
    have hversion : ascii " HTTP/1.1\n" = ascii " HTTP/1.1" ++ [10] := rfl
    rw [requestText, hversion]
    simp only [List.append_assoc]
    rfl
  have hword : (10 : UInt8) ∉ path := fun hmem => absurd (h.word 10 hmem).1 (by decide)
  have hzero : (0 : UInt8) ∉ path := fun hmem => (h.word 0 hmem).2 rfl
  rw [headerLine, hsplit, firstLine_line, cstr_eq]
  · rw [List.mem_append, List.mem_append, List.mem_append, not_or, not_or, not_or]
    exact ⟨⟨⟨by simp [ascii], hzero⟩, by simp [ascii]⟩, by simp⟩
  · rw [List.mem_append, List.mem_append, not_or, not_or]
    exact ⟨⟨by simp [ascii], hword⟩, by simp [ascii]⟩
  · have h4 : (ascii "GET ").length = 4 := rfl
    have h9 : (ascii " HTTP/1.1").length = 9 := rfl
    rw [List.length_append, List.length_append]
    omega

theorem ok_of_bind {α β : Type} {x : Except Fault α} {f : α → Except Fault β} {b : β} (h : (x >>= f) = .ok b) :
    ∃ a, x = .ok a ∧ f a = .ok b := by
  cases x with
  | error fault => cases h
  | ok a => exact ⟨a, rfl, h⟩

theorem serverParseURI_isStatic {uri : List UInt8} (h : info.uri.text = .ok uri) (hok : serverParseURI info = .ok raw) :
    raw.isStatic = if strstr uri cgi = false then 1 else 0 := by
  rw [serverParseURI, h, ok_bind] at hok
  split at hok
  · rename_i hcgi
    rw [if_pos hcgi]
    obtain ⟨cgiargs, -, hok⟩ := ok_of_bind hok
    obtain ⟨filename, -, hok⟩ := ok_of_bind hok
    split at hok
    · cases hok
    · dsimp only at hok
      split at hok
      · obtain ⟨filename', -, hok⟩ := ok_of_bind hok
        cases hok
        rfl
      · obtain ⟨filename', -, hok⟩ := ok_of_bind hok
        cases hok
        rfl
  · rename_i hcgi
    rw [if_neg hcgi]
    split at hok
    · obtain ⟨cgiargs, -, hok⟩ := ok_of_bind hok
      obtain ⟨uri', -, hok⟩ := ok_of_bind hok
      obtain ⟨filename, -, hok⟩ := ok_of_bind hok
      cases hok
      rfl
    · obtain ⟨cgiargs, -, hok⟩ := ok_of_bind hok
      obtain ⟨filename, -, hok⟩ := ok_of_bind hok
      cases hok
      rfl

theorem line_of_text {a : Chars} (h : a.text = .ok s) : a.line.chars = s := by
  obtain ⟨hs, rest, heq⟩ := text_ok h
  have hfull := a.full
  have hmax : maxLine = 8192 := rfl
  rw [heq, List.length_append, List.length_cons] at hfull
  have hlen : s.length ≤ maxLine - 1 := by omega
  show cstr (a.bytes.take (maxLine - 1)) = s
  rw [heq, List.take_append, List.take_of_length_le hlen]
  cases hk : maxLine - 1 - s.length with
  | zero => rw [List.take_zero, List.append_nil, cstr_eq hs]
  | succ k => rw [List.take_succ_cons, cstr_append hs]

/-- The words of the request are what the worker has, whatever was in the arrays. -/
theorem serve_request (h : Sendable path host) : ∃ info : HttpInfo, info.method.chars = ascii "GET"
    ∧ info.isStatic = (if strstr path cgi = false then 1 else 0) ∧ info.filename.chars = (parts path).filename
    ∧ info.cgiargs.chars = (parts path).cgiargs
    ∧ serve w d (requestText path host) = respond d w.scratch (requestHandle d.stat info) := by
  have hfits := h.fits
  have hmax : maxLine = 8192 := rfl
  have hnine : homeHtml.length = 9 := rfl
  have hline := headerLine_request h
  have hne : requestText path host ≠ [] := List.cons_ne_nil 71 _
  obtain ⟨info1, hscan, hmethod, huri⟩ := @sscanf_two { w.stack.info with connfd := w.connfd }
    (headerLine (requestText path host)) _ _ [ascii "HTTP/1.1"] (by rw [hline]; exact words_request h)
    (zero_notMem_cstr _) (length_headerLine _)
  obtain ⟨raw, hparse, hmethod', huri', hname, hargs⟩ := serverParseURI_spec huri h.ne_nil
    (by rw [List.length_cons]; omega) (fun _ => by rw [List.length_append, List.length_cons]; omega)
  have hread : readHeader w.connfd (w.request (requestText path host)) w.stack = .ok raw := by
    rw [readHeader_line (w.request_delivers _) hne, hscan, ok_bind, hparse]
  refine ⟨⟨raw.isStatic, raw.method.line, raw.uri.line, raw.version.line, raw.filename.line, raw.cgiargs.line,
    raw.connfd⟩, ?_, serverParseURI_isStatic huri hparse, line_of_text hname, line_of_text hargs, ?_⟩
  · refine line_of_text ?_
    rw [hmethod', hmethod]
  · rw [serve, hread, ok_bind, RawInfo.copied, hmethod', hmethod, ok_bind, huri', ok_bind, hname, ok_bind, hargs,
      ok_bind]
    rfl

theorem exchange_ok (h : Sendable path host) {written : List UInt8}
    (hserve : serve w d (requestText path host) = .ok written) (k : Nat) :
    exchange w d path host k = clientPrint k (w.reply written) w.printBuf := by
  rw [exchange, clientSend_spec h, ok_bind, hserve]

theorem exchange_error (h : Sendable path host) {fault : Fault}
    (hserve : serve w d (requestText path host) = .error fault) (k : Nat) :
    exchange w d path host k = some (.error fault) := by
  rw [exchange, clientSend_spec h, ok_bind, hserve]

/-! ## What the client prints -/

variable {sbuf : FileInfo} {bytes : List UInt8} {name : Line}

/-- The header of a file. -/
def fileLines (n : Nat) (filetype : List UInt8) : List (List UInt8) :=
  [ascii "HTTP/1.0 200 OK\r", ascii "Server: CS537 Web Server\r", ascii "Content-Length: " ++ decimal n ++ [13],
    ascii "Content-Type: " ++ filetype ++ [13]]

/-- What is printed of it. -/
def fileShown (n : Nat) (filetype : List UInt8) : List UInt8 :=
  ascii "Header: HTTP/1.0 200 OK\r\n" ++ ascii "Header: Server: CS537 Web Server\r\n"
    ++ (ascii "Length = " ++ decimal n ++ ascii "\n") ++ (ascii "Header: Content-Length: " ++ decimal n ++ ascii "\r\n")
    ++ (ascii "Header: Content-Type: " ++ filetype ++ ascii "\r\n")

/-- A tag, and what it says. -/
theorem headerLine_tag {tag value : List UInt8} (htag : ∀ c ∈ tag, c ≠ 0 ∧ c ≠ 10)
    (hvalue : ∀ c ∈ value, c ≠ 0 ∧ c ≠ 10) (hne : tag ≠ []) (hlen : tag.length + value.length < 8190) :
    HeaderLine (tag ++ value ++ [13]) where
  visible := by
    intro c hc
    rcases List.mem_append.mp hc with hc | hc
    · exact (List.mem_append.mp hc).elim (htag c) (hvalue c)
    · rw [List.mem_singleton.mp hc]
      decide
  short := by
    have hmax : maxLine = 8192 := rfl
    rw [List.length_append, List.length_append, List.length_singleton]
    omega
  notBlank := by
    intro heq
    have hpos := List.length_pos_iff.mpr hne
    have hlen' := congrArg List.length heq
    rw [List.length_append, List.length_append, List.length_singleton] at hlen'
    omega

theorem headerLine_length {n : Nat} (hn : n < 2 ^ 31) : HeaderLine (ascii "Content-Length: " ++ decimal n ++ [13]) := by
  have hlen := @length_decimal n 10 (by decide) (by omega)
  have h16 : (ascii "Content-Length: ").length = 16 := rfl
  exact headerLine_tag (by simp [ascii]) (fun c hc => digit_visible (isDigit_decimal hc)) (by simp [ascii])
    (by omega)

theorem fileLines_header {n : Nat} (hn : n < 2 ^ 31) (filename : List UInt8) :
    ∀ line ∈ fileLines n (requestGetFiletype filename), HeaderLine line := by
  obtain ⟨htype, hlen⟩ := filetype_line filename
  have h14 : (ascii "Content-Type: ").length = 14 := rfl
  intro line hline
  rcases List.mem_cons.mp hline with rfl | hline
  · exact ⟨by simp [ascii], by simp [ascii, maxLine], by simp [ascii]⟩
  rcases List.mem_cons.mp hline with rfl | hline
  · exact ⟨by simp [ascii], by simp [ascii, maxLine], by simp [ascii]⟩
  rcases List.mem_cons.mp hline with rfl | hline
  · exact headerLine_length hn
  rw [List.mem_singleton.mp hline]
  exact headerLine_tag (by simp [ascii]) htype (by simp [ascii]) (by omega)

theorem printLength_type (filename : List UInt8) :
    printLength (ascii "Content-Type: " ++ requestGetFiletype filename ++ [13] ++ [10]) = [] := by
  refine printLength_other ?_
  rcases filetype_cases filename with h | h | h | h
  · rw [h]
    simp [ascii]
  · rw [h]
    simp [ascii]
  · rw [h]
    simp [ascii]
  · rw [h]
    simp [ascii]

theorem newline_eq : ascii "\r\n" = [13] ++ [10] := by simp [ascii]

theorem blank_eq : ascii "\r\n\r\n" = [13] ++ [10] ++ ([13] ++ [10]) := by simp [ascii]

theorem lengthTag_eq : ascii "Header: Content-Length: " = ascii "Header: " ++ ascii "Content-Length: " := by
  simp [ascii]

theorem fileLines_shown {n : Nat} (hn : n < 2 ^ 31) (filename : List UInt8) :
    headerShown (fileLines n (requestGetFiletype filename)) = fileShown n (requestGetFiletype filename) := by
  have hline1 : ascii "Header: HTTP/1.0 200 OK\r\n" = ascii "Header: " ++ (ascii "HTTP/1.0 200 OK\r" ++ [10]) := by
    simp [ascii]
  have hline2 : ascii "Header: Server: CS537 Web Server\r\n"
      = ascii "Header: " ++ (ascii "Server: CS537 Web Server\r" ++ [10]) := by simp [ascii]
  have htag : ascii "Header: Content-Type: " = ascii "Header: " ++ ascii "Content-Type: " := by simp [ascii]
  have hserver : printLength (ascii "Server: CS537 Web Server\r" ++ [10]) = [] := printLength_other (by simp [ascii])
  have hblank : printLength ([13] ++ [10]) = [] := printLength_other (by decide)
  rw [fileLines, headerShown, headerShown, headerShown, headerShown, headerShown, topLine, topLine, topLine, topLine,
    hserver, hblank, printLength_line hn, printLength_type, fileShown, hline1, hline2, lengthTag_eq, htag, newline_eq]
  simp only [List.append_assoc, List.append_nil]

theorem fileHeader_eq (filesize : Int32) (hpos : 0 < filesize) (filetype : List UInt8) :
    fileHeader filesize filetype = headerBytes (fileLines filesize.toInt.toNat filetype) := by
  have hint : printInt filesize = decimal filesize.toInt.toNat := by
    have hlt : 0 < filesize.toInt := Int32.lt_iff_toInt_lt.mp hpos
    rw [printInt, if_neg (by omega)]
    congr 1
    omega
  have hline1 : ascii "HTTP/1.0 200 OK\r\n" = ascii "HTTP/1.0 200 OK\r" ++ [10] := by simp [ascii]
  have hline2 : ascii "Server: CS537 Web Server\r\n" = ascii "Server: CS537 Web Server\r" ++ [10] := by simp [ascii]
  rw [fileHeader, hint, hline1, hline2, blank_eq, newline_eq]
  simp only [fileLines, headerBytes, newline_eq, List.append_assoc, List.cons_append, List.nil_append]

/-- What an `int` makes of the size of a file. -/
theorem filesize_eq {n : Nat} (h : sbuf.size.toInt = n) :
    (0 < n % 2 ^ 32 ∧ n % 2 ^ 32 < 2 ^ 31 ∧ 0 < sbuf.size.toInt32 ∧ sbuf.size.toInt32.toInt.toNat = n % 2 ^ 32)
      ∨ (¬(0 < n % 2 ^ 32 ∧ n % 2 ^ 32 < 2 ^ 31) ∧ sbuf.size.toInt32 ≤ 0) := by
  have hint : sbuf.size.toInt32.toInt = (n : Int).bmod (2 ^ 32) := by rw [Int64.toInt_toInt32, h]
  rw [Int.bmod_def] at hint
  rw [Int32.lt_iff_toInt_lt, Int32.le_iff_toInt_le, Int32.toInt_zero]
  split at hint
  · by_cases hpos : 0 < n % 2 ^ 32
    · exact Or.inl ⟨hpos, by omega, by omega, by omega⟩
    · exact Or.inr ⟨fun h => hpos h.1, by omega⟩
  · exact Or.inr ⟨by omega, by omega⟩

theorem line_ext {a b : Line} (h : a.chars = b.chars) : a = b := by
  cases a
  cases b
  cases h
  rfl

/-- A file that the server may read. -/
structure Readable (d : Disk) (path : List UInt8) (bytes : List UInt8) : Prop where
  static : strstr path cgi = false
  found : ∃ name sbuf, name.chars = (parts path).filename ∧ d.stat name = some sbuf ∧ sbuf.isReg = true
    ∧ sbuf.rusr = true ∧ d.contents name = some bytes

theorem serve_file (h : Sendable path host) (hfile : Readable d path bytes) : serve w d (requestText path host)
    = if 0 < bytes.length % 2 ^ 32 ∧ bytes.length % 2 ^ 32 < 2 ^ 31 then
        .ok (headerBytes (fileLines (bytes.length % 2 ^ 32) (requestGetFiletype (parts path).filename))
          ++ bytes.take (bytes.length % 2 ^ 32))
      else .error .exits := by
  obtain ⟨name, sbuf, hname, hstat, hreg, hrusr, hopen⟩ := hfile.found
  obtain ⟨info, hmethod, hstatic, hfilename, -, hserve⟩ := @serve_request w d path host h
  have hsame : info.filename = name := line_ext (hfilename.trans hname.symm)
  have hhandle : requestHandle d.stat info = .requestServeStatic info.connfd name sbuf.size.toInt32 := by
    have hget : sameIgnoringCase (ascii "GET") [71, 69, 84] = true := by decide
    rw [requestHandle, hmethod, hsame, hstat, hstatic, if_pos hfile.static, hget]
    simp [hreg, hrusr]
  rw [hserve, hhandle, respond]
  rcases filesize_eq (d.size_eq name sbuf bytes hstat hreg hopen) with ⟨hpos, hlt, hsize, hnat⟩ | ⟨hnot, hsize⟩
  · rw [if_pos ⟨hpos, hlt⟩, requestServeStatic_spec hopen hsize, fileHeader_eq _ hsize, hnat, hname]
  · rw [if_neg hnot, requestServeStatic_exits (Or.inr hsize)]

theorem file_shown_iff (bytes : List UInt8) :
    shown (bytes.take (bytes.length % 2 ^ 32)) = bytes ↔ bytes.length < 2 ^ 32 ∧ (0 : UInt8) ∉ bytes := by
  constructor
  · intro heq
    have hle := length_shown _ (bytes.take (bytes.length % 2 ^ 32)) (Nat.le_refl _)
    rw [heq, List.length_take] at hle
    have hlt : bytes.length < 2 ^ 32 := by omega
    rw [Nat.mod_eq_of_lt hlt, List.take_length] at heq
    exact ⟨hlt, (shown_eq_iff bytes).mp heq⟩
  · rintro ⟨hlt, hzero⟩
    rw [Nat.mod_eq_of_lt hlt, List.take_length]
    exact (shown_eq_iff bytes).mpr hzero

/--
**A file over the wire.** Whatever was in the arrays and however the streams are cut, the client
prints the header and then the file line by line, if the low 32 bits of its length are a positive
`int`, and only as many bytes as they say. Else, as for an empty file, the server ends. What is
printed behind the header is the file exactly if it is shorter than 4 GiB and has no NUL.
-/
theorem exchange_file (h : Sendable path host) (hfile : Readable d path bytes) {k : Nat} (hk : bytes.length + 6 ≤ k) :
    exchange w d path host k = some (if 0 < bytes.length % 2 ^ 32 ∧ bytes.length % 2 ^ 32 < 2 ^ 31 then
        .ok (fileShown (bytes.length % 2 ^ 32) (requestGetFiletype (parts path).filename)
          ++ shown (bytes.take (bytes.length % 2 ^ 32)))
      else .error .exits)
    ∧ (shown (bytes.take (bytes.length % 2 ^ 32)) = bytes ↔ bytes.length < 2 ^ 32 ∧ (0 : UInt8) ∉ bytes) := by
  refine ⟨?_, file_shown_iff bytes⟩
  have hserve := @serve_file w d path host bytes h hfile
  split
  · rename_i hlen
    rw [if_pos hlen] at hserve
    have htake := List.length_take_le' (bytes.length % 2 ^ 32) bytes
    rw [exchange_ok h hserve, clientPrint_spec (fileLines_header hlen.2 _) (w.reply_delivers _) w.printBuf
      (show 4 < k by omega) (by omega), fileLines_shown hlen.2]
  · rename_i hlen
    rw [if_neg hlen] at hserve
    exact exchange_error h hserve k

/-- No array is initialised, and every byte comes alone. -/
def slowWire : Wire where
  sendBuf := ones
  stack := onesStack
  scratch := ⟨ones, ones, ones⟩
  printBuf := ones
  connfd := 4
  request := fun s => s.map fun c => .bytes c []
  reply := fun s => s.map fun c => .bytes c []
  request_delivers := delivers_bytes
  reply_delivers := delivers_bytes

/-- A disk with one file, `./a`. -/
def smallDisk : Disk where
  stat := fun name => if name.chars = ascii "./a" then some ⟨true, true, false, 3⟩ else none
  contents := fun name => if name.chars = ascii "./a" then some (ascii "hi\n") else none
  output := fun _ _ => []
  size_eq := by
    intro name sbuf bytes hstat _ hopen
    split at hstat
    · rename_i hname
      rw [if_pos hname] at hopen
      cases hstat
      cases hopen
      rfl
    · cases hstat

theorem sendable_a : Sendable (ascii "/a") (ascii "h") :=
  ⟨by simp [ascii], by simp [ascii, isSpace], by simp [ascii], by simp [ascii, maxLine]⟩

theorem small_file_fetched : exchange slowWire smallDisk (ascii "/a") (ascii "h") 9
    = some (.ok (fileShown 3 (ascii "text/plain") ++ ascii "hi\n")) := by
  obtain ⟨hprinted, hshown⟩ := @exchange_file slowWire smallDisk (ascii "/a") (ascii "h") (ascii "hi\n") sendable_a
    ⟨by decide, ⟨ascii "./a", by decide⟩, ⟨true, true, false, 3⟩, by decide, rfl, rfl, rfl, rfl⟩
    9 (by decide)
  rw [hprinted, hshown.mpr ⟨by simp [ascii], by simp [ascii]⟩]
  rfl

/-! ## A file that is not there -/

/-- The page of `requestHandle` for a file that is not there. -/
def missingPage (filename : List UInt8) : List UInt8 :=
  page filename "404" "Not found" "CS537 Server could not find this file"

/-- Its header. -/
def missingLines (n : Nat) : List (List UInt8) :=
  [ascii "HTTP/1.0 404 Not found\r", ascii "Content-Type: text/html\r", ascii "Content-Length: " ++ decimal n ++ [13]]

/-- What is printed of the header. -/
def missingShown (n : Nat) : List UInt8 :=
  ascii "Header: HTTP/1.0 404 Not found\r\n" ++ ascii "Header: Content-Type: text/html\r\n"
    ++ (ascii "Length = " ++ decimal n ++ ascii "\n") ++ (ascii "Header: Content-Length: " ++ decimal n ++ ascii "\r\n")

theorem missingLines_shown {n : Nat} (hn : n < 2 ^ 31) : headerShown (missingLines n) = missingShown n := by
  have hline1 : ascii "Header: HTTP/1.0 404 Not found\r\n"
      = ascii "Header: " ++ (ascii "HTTP/1.0 404 Not found\r" ++ [10]) := by simp [ascii]
  have hline2 : ascii "Header: Content-Type: text/html\r\n"
      = ascii "Header: " ++ (ascii "Content-Type: text/html\r" ++ [10]) := by simp [ascii]
  have htype : printLength (ascii "Content-Type: text/html\r" ++ [10]) = [] := printLength_other (by simp [ascii])
  have hblank : printLength ([13] ++ [10]) = [] := printLength_other (by decide)
  rw [missingLines, headerShown, headerShown, headerShown, headerShown, topLine, topLine, topLine, htype, hblank,
    printLength_line hn, missingShown, hline1, hline2, lengthTag_eq, newline_eq]
  simp only [List.append_assoc, List.append_nil]

theorem missingLines_header {n : Nat} (hn : n < 2 ^ 31) : ∀ line ∈ missingLines n, HeaderLine line := by
  intro line hline
  rcases List.mem_cons.mp hline with rfl | hline
  · exact ⟨by simp [ascii], by simp [ascii, maxLine], by simp [ascii]⟩
  rcases List.mem_cons.mp hline with rfl | hline
  · exact ⟨by simp [ascii], by simp [ascii, maxLine], by simp [ascii]⟩
  rw [List.mem_singleton.mp hline]
  exact headerLine_length hn

theorem mem_filename {c : UInt8} (hc : c ∈ (parts path).filename) : c = 46 ∨ c ∈ path ∨ c ∈ homeHtml := by
  rw [parts] at hc
  split at hc
  · rcases List.mem_append.mp hc with hc | hc
    · exact (List.mem_cons.mp hc).imp id Or.inl
    · split at hc
      · exact Or.inr (Or.inr hc)
      · exact absurd hc List.not_mem_nil
  · split at hc
    · exact (List.mem_cons.mp hc).imp id fun hmem => Or.inl (List.mem_of_mem_take hmem)
    · exact (List.mem_cons.mp hc).imp id Or.inl

theorem length_missingPage (filename : List UInt8) : (missingPage filename).length = filename.length + 136 := by
  have hempty : (missingPage []).length = 136 := rfl
  rw [missingPage, page] at hempty ⊢
  simp only [List.length_append, List.length_nil] at hempty ⊢
  omega

theorem missingPage_string (h : Sendable path host) : (0 : UInt8) ∉ missingPage (parts path).filename := by
  have hname : (0 : UInt8) ∉ (parts path).filename := fun hmem => by
    rcases mem_filename hmem with hc | hc | hc
    · exact absurd hc (by decide)
    · exact (h.word 0 hc).2 rfl
    · exact absurd hc (by decide)
  rw [missingPage, page]
  exact string_between (by simp [ascii]) (string_between (by simp [ascii]) hname (by simp [ascii])) (by simp [ascii])

theorem missingLines_bytes (n : Nat) : headerBytes (missingLines n) = pageHeader n "404" "Not found" := by
  have hline1 : ascii "HTTP/1.0 " ++ ascii "404" ++ ascii " " ++ ascii "Not found" ++ ascii "\r\n"
      = ascii "HTTP/1.0 404 Not found\r" ++ [10] := by simp [ascii]
  have hline2 : ascii "Content-Type: text/html\r\n" = ascii "Content-Type: text/html\r" ++ [10] := by simp [ascii]
  rw [pageHeader, hline1, hline2, blank_eq]
  simp only [missingLines, headerBytes, newline_eq, List.append_assoc, List.cons_append, List.nil_append]

theorem serve_missing (h : Sendable path host)
    (hmissing : ∀ name : Line, name.chars = (parts path).filename → d.stat name = none) :
    serve w d (requestText path host) = if (parts path).filename.length ≤ 8055 then
        .ok (headerBytes (missingLines ((parts path).filename.length + 136)) ++ missingPage (parts path).filename)
      else .error .undefined := by
  obtain ⟨info, hmethod, -, hfilename, -, hserve⟩ := @serve_request w d path host h
  have hget : sameIgnoringCase (ascii "GET") [71, 69, 84] = true := by decide
  have hlen := length_missingPage (parts path).filename
  have hmax : maxLine = 8192 := rfl
  have hhandle : requestHandle d.stat info = .requestError info.connfd info.filename "404" "Not found"
      "CS537 Server could not find this file" := by
    rw [requestHandle, hmethod, hmissing info.filename hfilename, hget]
    rfl
  have hpage : page (parts path).filename "404" "Not found" "CS537 Server could not find this file"
      = missingPage (parts path).filename := rfl
  rw [hserve, hhandle, respond, hfilename,
    requestError_spec (missingPage_string h) (by simp [ascii]) (by simp [ascii, maxLine]), hpage, hlen]
  by_cases hshort : (parts path).filename.length ≤ 8055
  · rw [if_pos hshort, if_pos (by omega)]
    rw [missingLines_bytes]
  · rw [if_neg hshort, if_neg (by omega)]

/--
**A file that is not there.** The page repeats the file's name and is put together in an array of
8192 bytes. The client sees it if the name has at most 8055 bytes; a longer one, which the header
of a request has room for, is written past the array.
-/
theorem exchange_missing (h : Sendable path host)
    (hmissing : ∀ name : Line, name.chars = (parts path).filename → d.stat name = none) {k : Nat} (hk : 8194 ≤ k) :
    exchange w d path host k = some (if (parts path).filename.length ≤ 8055 then
        .ok (missingShown ((parts path).filename.length + 136) ++ missingPage (parts path).filename)
      else .error .undefined) := by
  have hserve := @serve_missing w d path host h hmissing
  have hlen := length_missingPage (parts path).filename
  split
  · rename_i hshort
    rw [if_pos hshort] at hserve
    have hshown := (shown_eq_iff _).mpr (missingPage_string h)
    rw [exchange_ok h hserve, clientPrint_spec (missingLines_header (by omega)) (w.reply_delivers _) w.printBuf
      (show 3 < k by omega) (by omega), missingLines_shown (by omega), hshown]
  · rename_i hlong
    rw [if_neg hlong] at hserve
    exact exchange_error h hserve k

theorem missing_file_reported : exchange slowWire smallDisk (ascii "/b") (ascii "h") 8194
    = some (.ok (missingShown 139 ++ missingPage (ascii "./b"))) :=
  @exchange_missing slowWire smallDisk (ascii "/b") (ascii "h")
    ⟨by simp [ascii], by simp [ascii, isSpace], by simp [ascii], by simp [ascii, maxLine]⟩
    (fun name hname => if_neg (by rw [hname]; decide)) 8194 (Nat.le_refl _)

end Cs537.Web
