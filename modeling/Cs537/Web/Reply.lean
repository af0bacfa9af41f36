import Cs537.Web.Header
import Cs537.Web.Missing

/-!
# What the server writes back

A worker answers with a page that says what is wrong, with a file, or with what a program writes.
The pages are put together in arrays of `MAXBUF` bytes, which is `MAXLINE`, and the page for a file
that is not there repeats the file's name: a name that fits into the header of a request need not
fit into the page. A file is mapped before it is written, and there is no map of no bytes, so an
empty file ends the server.

`sprintf(body, "%s...", body)` copies a string to where it is and puts the rest behind it. The
standard forbids this, and the C library that the program is linked with allows it.
-/

namespace Cs537.Web

open Lib

/-- A string literal of the source. -/
def ascii (s : String) : List UInt8 := s.toList.map fun c => UInt8.ofNat c.toNat

/-- What a worker finds on the disk. -/
structure Disk where
  stat : Line → Option FileInfo
  /-- What `open` for reading and a map show, if it opens. -/
  contents : Line → Option (List UInt8)
  /-- What a program writes when it is run with a query. -/
  output : Line → Line → List UInt8
  size_eq : ∀ name sbuf bytes, stat name = some sbuf → sbuf.isReg = true → contents name = some bytes →
    sbuf.size.toInt = bytes.length

/-- The arrays of a worker before anything is written to them. -/
structure Scratch where
  buf : Chars
  body : Chars
  filetype : Chars

/-- `requestError`: the bytes that go to the connection. -/
def requestError (cause : List UInt8) (errnum shortmsg longmsg : String) (s : Scratch) :
    Except Fault (List UInt8) := do
  let body ← s.body.strcpy (ascii "<html><title>CS537 Error</title>")
  let body ← body.strcat (ascii "<body bgcolor=fffff>\r\n")
  let body ← body.strcat (ascii errnum ++ ascii ": " ++ ascii shortmsg ++ ascii "\r\n")
  let body ← body.strcat (ascii "<p>" ++ ascii longmsg ++ ascii ": " ++ cause ++ ascii "\r\n")
  let body ← body.strcat (ascii "<hr>CS537 Web Server\r\n")
  let buf ← s.buf.strcpy (ascii "HTTP/1.0 " ++ ascii errnum ++ ascii " " ++ ascii shortmsg ++ ascii "\r\n")
  let status ← buf.text
  let buf ← buf.strcpy (ascii "Content-Type: text/html\r\n")
  let type ← buf.text
  let page ← body.text
  let buf ← buf.strcpy (ascii "Content-Length: " ++ decimal page.length ++ ascii "\r\n\r\n")
  let length ← buf.text
  pure (status ++ type ++ length ++ page)

/-- `requestGetFiletype`. -/
def requestGetFiletype (filename : List UInt8) : List UInt8 :=
  if strstr filename (ascii ".html") then ascii "text/html"
  else if strstr filename (ascii ".gif") then ascii "image/gif"
  else if strstr filename (ascii ".jpg") then ascii "image/jpeg"
  else ascii "text/plain"

/-- `requestServeStatic`. -/
def requestServeStatic (d : Disk) (filename : Line) (filesize : Int32) (s : Scratch) :
    Except Fault (List UInt8) := do
  let filetype ← s.filetype.strcpy (requestGetFiletype filename.chars)
  match d.contents filename with
  -- `Open`
  | none => throw .exits
  | some bytes =>
      -- `Mmap`: 0 bytes cannot be mapped, nor as many as a negative `int` is for a `size_t`
      if filesize ≤ 0 then throw .exits
      else
        let buf ← s.buf.strcpy (ascii "HTTP/1.0 200 OK\r\n")
        let buf ← buf.strcat (ascii "Server: CS537 Web Server\r\n")
        let buf ← buf.strcat (ascii "Content-Length: " ++ printInt filesize ++ ascii "\r\n")
        let type ← filetype.text
        let buf ← buf.strcat (ascii "Content-Type: " ++ type ++ ascii "\r\n\r\n")
        let header ← buf.text
        pure (header ++ bytes.take filesize.toInt.toNat)

/-- `requestServeDynamic`, and what the child writes to its standard output. -/
def requestServeDynamic (d : Disk) (filename cgiargs : Line) (s : Scratch) : Except Fault (List UInt8) := do
  let buf ← s.buf.strcpy (ascii "HTTP/1.0 200 OK\r\n")
  let buf ← buf.strcat (ascii "Server: CS537 Web Server\r\n")
  let header ← buf.text
  pure (header ++ d.output filename cgiargs)

/-- The bytes of a response. -/
def respond (d : Disk) (s : Scratch) : Response → Except Fault (List UInt8)
  | .requestError _ cause errnum shortmsg longmsg => requestError cause.chars errnum shortmsg longmsg s
  | .requestServeStatic _ filename filesize => requestServeStatic d filename filesize s
  | .requestServeDynamic _ filename cgiargs => requestServeDynamic d filename cgiargs s

/-! ## The page -/

variable {d : Disk} {s : Scratch} {cause : List UInt8} {errnum shortmsg longmsg : String}

/-- What a page says. -/
def page (cause : List UInt8) (errnum shortmsg longmsg : String) : List UInt8 :=
  ascii "<html><title>CS537 Error</title>" ++ ascii "<body bgcolor=fffff>\r\n"
    ++ (ascii errnum ++ ascii ": " ++ ascii shortmsg ++ ascii "\r\n")
    ++ (ascii "<p>" ++ ascii longmsg ++ ascii ": " ++ cause ++ ascii "\r\n") ++ ascii "<hr>CS537 Web Server\r\n"

/-- What goes before it. -/
def pageHeader (length : Nat) (errnum shortmsg : String) : List UInt8 :=
  ascii "HTTP/1.0 " ++ ascii errnum ++ ascii " " ++ ascii shortmsg ++ ascii "\r\n"
    ++ ascii "Content-Type: text/html\r\n" ++ (ascii "Content-Length: " ++ decimal length ++ ascii "\r\n\r\n")

/-- One string after the other is put behind what is there. -/
theorem strcats_spec {a : Chars} {t : List UInt8} {us : List (List UInt8)} (h : a.text = .ok t)
    (hus : (0 : UInt8) ∉ us.flatten) (hlen : (t ++ us.flatten).length < maxLine) :
    ∃ b, us.foldlM Chars.strcat a = .ok b ∧ b.text = .ok (t ++ us.flatten) := by
  induction us generalizing a t with
  | nil => exact ⟨a, rfl, by rw [List.flatten_nil, List.append_nil]; exact h⟩
  | cons u us ih =>
      rw [List.flatten_cons, ← List.append_assoc] at hlen
      rw [List.flatten_cons, List.mem_append, not_or] at hus
      have hle : (t ++ u).length ≤ (t ++ u ++ us.flatten).length := by
        rw [@List.length_append _ (t ++ u)]
        omega
      obtain ⟨b, hcat, hb⟩ := strcat_spec h hus.1 (by omega)
      obtain ⟨c, hcats, hc⟩ := ih hb hus.2 hlen
      refine ⟨c, ?_, by rw [hc, List.flatten_cons, List.append_assoc]⟩
      rw [List.foldlM_cons, hcat]
      exact hcats

/-- Where they do not fit together, one of them leaves the array. -/
theorem strcats_long {a : Chars} {t : List UInt8} {us : List (List UInt8)} (h : a.text = .ok t)
    (ht : t.length < maxLine) (hus : (0 : UInt8) ∉ us.flatten) (hlen : maxLine ≤ (t ++ us.flatten).length) :
    us.foldlM Chars.strcat a = .error .undefined := by
  induction us generalizing a t with
  | nil =>
      rw [List.flatten_nil, List.append_nil] at hlen
      omega
  | cons u us ih =>
      rw [List.flatten_cons, ← List.append_assoc] at hlen
      rw [List.flatten_cons, List.mem_append, not_or] at hus
      rw [List.foldlM_cons]
      by_cases hfit : (t ++ u).length < maxLine
      · obtain ⟨b, hcat, hb⟩ := strcat_spec h hus.1 hfit
        rw [hcat]
        exact ih hb hfit hus.2 hlen
      · rw [strcat_long h (by omega)]
        rfl

/-- The pieces of a page behind its first line. -/
def pagePieces (cause : List UInt8) (errnum shortmsg longmsg : String) : List (List UInt8) :=
  [ascii "<body bgcolor=fffff>\r\n", ascii errnum ++ ascii ": " ++ ascii shortmsg ++ ascii "\r\n",
    ascii "<p>" ++ ascii longmsg ++ ascii ": " ++ cause ++ ascii "\r\n", ascii "<hr>CS537 Web Server\r\n"]

theorem page_eq : page cause errnum shortmsg longmsg
    = ascii "<html><title>CS537 Error</title>" ++ (pagePieces cause errnum shortmsg longmsg).flatten := by
  simp [page, pagePieces]

theorem requestError_eq : requestError cause errnum shortmsg longmsg s = (do
    let body ← s.body.strcpy (ascii "<html><title>CS537 Error</title>")
    let body ← (pagePieces cause errnum shortmsg longmsg).foldlM Chars.strcat body
    let buf ← s.buf.strcpy (ascii "HTTP/1.0 " ++ ascii errnum ++ ascii " " ++ ascii shortmsg ++ ascii "\r\n")
    let status ← buf.text
    let buf ← buf.strcpy (ascii "Content-Type: text/html\r\n")
    let type ← buf.text
    let page ← body.text
    let buf ← buf.strcpy (ascii "Content-Length: " ++ decimal page.length ++ ascii "\r\n\r\n")
    let length ← buf.text
    pure (status ++ type ++ length ++ page)) := by
  simp only [requestError, pagePieces, List.foldlM_cons, List.foldlM_nil, bind_assoc, pure_bind]

theorem digit_visible {c : UInt8} (h : isDigit c = true) : c ≠ 0 ∧ c ≠ 10 := by
  have hlow := (isDigit_iff.mp h).1
  refine ⟨?_, ?_⟩
  · rintro rfl
    exact absurd hlow (by decide)
  · rintro rfl
    exact absurd hlow (by decide)

/-- A string between two others. -/
theorem string_between {t u v : List UInt8} (ht : (0 : UInt8) ∉ t) (hu : (0 : UInt8) ∉ u) (hv : (0 : UInt8) ∉ v) :
    (0 : UInt8) ∉ t ++ u ++ v := by
  rw [List.mem_append, List.mem_append, not_or, not_or]
  exact ⟨⟨ht, hu⟩, hv⟩

/-- The page is sent if there is room for it, and else it leaves its array. -/
theorem requestError_spec (hpage : (0 : UInt8) ∉ page cause errnum shortmsg longmsg)
    (hstatus : (0 : UInt8) ∉ ascii "HTTP/1.0 " ++ ascii errnum ++ ascii " " ++ ascii shortmsg ++ ascii "\r\n")
    (hshort : (ascii "HTTP/1.0 " ++ ascii errnum ++ ascii " " ++ ascii shortmsg ++ ascii "\r\n").length < maxLine) :
    requestError cause errnum shortmsg longmsg s
      = if (page cause errnum shortmsg longmsg).length < maxLine then
          .ok (pageHeader (page cause errnum shortmsg longmsg).length errnum shortmsg
            ++ page cause errnum shortmsg longmsg)
        else .error .undefined := by
  obtain ⟨body, hcpy, hbody⟩ := @strcpy_spec (ascii "<html><title>CS537 Error</title>") s.body (by simp [ascii])
    (by simp [ascii, maxLine])
  rw [requestError_eq, hcpy, ok_bind]
  rw [page_eq, List.mem_append, not_or] at hpage
  split
  · rename_i hlen
    rw [page_eq] at hlen
    obtain ⟨body', hcats, hbody'⟩ := strcats_spec hbody hpage.2 hlen
    obtain ⟨buf, hbuf, hbuft⟩ := strcpy_spec s.buf hstatus hshort
    obtain ⟨buf1, hbuf1, hbuf1t⟩ := @strcpy_spec (ascii "Content-Type: text/html\r\n") buf (by simp [ascii])
      (by simp [ascii, maxLine])
    have hdigits := @length_decimal (page cause errnum shortmsg longmsg).length 4 (by decide) (by
      rw [page_eq]
      have hmax : maxLine = 8192 := rfl
      omega)
    have hzero : (0 : UInt8) ∉ ascii "Content-Length: " ++ decimal (page cause errnum shortmsg longmsg).length
        ++ ascii "\r\n\r\n" :=
      string_between (by simp [ascii]) (fun hmem => (digit_visible (isDigit_decimal hmem)).1 rfl) (by simp [ascii])
    obtain ⟨buf2, hbuf2, hbuf2t⟩ := strcpy_spec buf1 hzero (by
      have h1 : (ascii "Content-Length: ").length = 16 := rfl
      have h2 : (ascii "\r\n\r\n").length = 4 := rfl
      have hmax : maxLine = 8192 := rfl
      rw [List.length_append, List.length_append]
      omega)
    rw [hcats, ok_bind, hbuf, ok_bind, hbuft, ok_bind, hbuf1, ok_bind, hbuf1t, ok_bind, hbody', ok_bind, ← page_eq,
      hbuf2, ok_bind, hbuf2t, ok_bind]
    rfl
  · rename_i hlen
    rw [page_eq] at hlen
    rw [strcats_long hbody (by simp [ascii, maxLine]) hpage.2 (by omega)]
    rfl

/-! ## The file -/

/-- What goes before a file. -/
def fileHeader (filesize : Int32) (filetype : List UInt8) : List UInt8 :=
  ascii "HTTP/1.0 200 OK\r\n" ++ (ascii "Server: CS537 Web Server\r\n"
    ++ (ascii "Content-Length: " ++ printInt filesize ++ ascii "\r\n")
    ++ (ascii "Content-Type: " ++ filetype ++ ascii "\r\n\r\n"))

variable {filename : Line} {filesize : Int32} {bytes : List UInt8}

theorem filetype_cases (name : List UInt8) : requestGetFiletype name = ascii "text/html"
    ∨ requestGetFiletype name = ascii "image/gif" ∨ requestGetFiletype name = ascii "image/jpeg"
    ∨ requestGetFiletype name = ascii "text/plain" := by
  rw [requestGetFiletype]
  split
  · exact Or.inl rfl
  · split
    · exact Or.inr (Or.inl rfl)
    · split
      · exact Or.inr (Or.inr (Or.inl rfl))
      · exact Or.inr (Or.inr (Or.inr rfl))

/-- One line of visible characters, and a short one. -/
theorem filetype_line (name : List UInt8) : (∀ c ∈ requestGetFiletype name, c ≠ 0 ∧ c ≠ 10)
    ∧ (requestGetFiletype name).length ≤ 10 := by
  rcases filetype_cases name with h | h | h | h
  · rw [h]
    simp [ascii]
  · rw [h]
    simp [ascii]
  · rw [h]
    simp [ascii]
  · rw [h]
    simp [ascii]

theorem printInt_visible {x : Int32} {c : UInt8} (h : c ∈ printInt x) : c ≠ 0 ∧ c ≠ 10 := by
  rcases mem_printInt h with rfl | hdigit
  · decide
  · exact digit_visible hdigit

/-- The first two lines of an answer. -/
theorem okLines_spec (a : Chars) : ∃ b c, a.strcpy (ascii "HTTP/1.0 200 OK\r\n") = .ok b
    ∧ b.strcat (ascii "Server: CS537 Web Server\r\n") = .ok c
    ∧ c.text = .ok (ascii "HTTP/1.0 200 OK\r\n" ++ ascii "Server: CS537 Web Server\r\n") := by
  obtain ⟨b, hb, hbt⟩ := @strcpy_spec (ascii "HTTP/1.0 200 OK\r\n") a (by simp [ascii]) (by simp [ascii, maxLine])
  obtain ⟨c, hc, hct⟩ := @strcat_spec b (ascii "Server: CS537 Web Server\r\n") _ hbt (by simp [ascii])
    (by simp [ascii, maxLine])
  exact ⟨b, c, hb, hc, hct⟩

theorem requestServeStatic_spec (hopen : d.contents filename = some bytes) (hpos : 0 < filesize) :
    requestServeStatic d filename filesize s
      = .ok (fileHeader filesize (requestGetFiletype filename.chars) ++ bytes.take filesize.toInt.toNat) := by
  obtain ⟨htype, htlen⟩ := filetype_line filename.chars
  have hmax : maxLine = 8192 := rfl
  have hilen := length_printInt filesize
  have hzero : (0 : UInt8) ∉ requestGetFiletype filename.chars := fun hmem => (htype 0 hmem).1 rfl
  have hizero : (0 : UInt8) ∉ printInt filesize := fun hmem => (printInt_visible hmem).1 rfl
  obtain ⟨filetype, hcpy, htext⟩ := strcpy_spec s.filetype hzero (by omega)
  obtain ⟨buf, buf1, hbuf, hbuf1, hbuf1t⟩ := okLines_spec s.buf
  have h17 : (ascii "HTTP/1.0 200 OK\r\n").length = 17 := rfl
  have h26 : (ascii "Server: CS537 Web Server\r\n").length = 26 := rfl
  have h16 : (ascii "Content-Length: ").length = 16 := rfl
  have h14 : (ascii "Content-Type: ").length = 14 := rfl
  have h2 : (ascii "\r\n").length = 2 := rfl
  have h4 : (ascii "\r\n\r\n").length = 4 := rfl
  obtain ⟨buf2, hbuf2, hbuf2t⟩ := @strcat_spec buf1
    (ascii "Content-Length: " ++ printInt filesize ++ ascii "\r\n") _ hbuf1t
    (string_between (by simp [ascii]) hizero (by simp [ascii])) (by
      simp only [List.length_append]
      omega)
  obtain ⟨buf3, hbuf3, hbuf3t⟩ := @strcat_spec buf2
    (ascii "Content-Type: " ++ requestGetFiletype filename.chars ++ ascii "\r\n\r\n") _ hbuf2t
    (string_between (by simp [ascii]) hzero (by simp [ascii])) (by
      simp only [List.length_append]
      omega)
  rw [requestServeStatic, hcpy, ok_bind, hopen]
  dsimp only
  rw [if_neg (Int32.not_le.mpr hpos), hbuf, ok_bind, hbuf1, ok_bind, hbuf2, ok_bind, htext, ok_bind, hbuf3, ok_bind,
    hbuf3t, ok_bind, fileHeader]
  simp only [List.append_assoc]
  rfl

/-- It ends the process where there is nothing to map. -/
theorem requestServeStatic_exits (h : d.contents filename = none ∨ filesize ≤ 0) :
    requestServeStatic d filename filesize s = .error .exits := by
  obtain ⟨htype, htlen⟩ := filetype_line filename.chars
  have hmax : maxLine = 8192 := rfl
  obtain ⟨filetype, hcpy, -⟩ := @strcpy_spec (requestGetFiletype filename.chars) s.filetype
    (fun hmem => (htype 0 hmem).1 rfl) (by omega)
  rw [requestServeStatic, hcpy, ok_bind]
  cases hopen : d.contents filename with
  | none => rfl
  | some bytes =>
      rcases h with h | h
      · rw [hopen] at h
        cases h
      · dsimp only
        rw [if_pos h]
        rfl

theorem requestServeDynamic_spec (cgiargs : Line) : requestServeDynamic d filename cgiargs s
    = .ok (ascii "HTTP/1.0 200 OK\r\n" ++ ascii "Server: CS537 Web Server\r\n" ++ d.output filename cgiargs) := by
  obtain ⟨buf, buf1, hbuf, hbuf1, hbuf1t⟩ := okLines_spec s.buf
  rw [requestServeDynamic, hbuf, ok_bind, hbuf1, ok_bind, hbuf1t]
  rfl

end Cs537.Web
