import Mathlib.Data.List.Forall2
import Mathlib.Data.Nat.Digits.Defs
import Mios.Crc32

/-! The chunked writer of `net/http/http.c` beside a decoder of chunked bodies: every response of a
connection decodes to what was written, and leaves an empty buffer to the next one. -/

namespace Mios.Http

open List

def ascii (s : String) : List Byte := s.toList.map fun c => BitVec.ofNat 8 c.toNat

def crlf : List Byte := ascii "\r\n"

/-! ## The writer -/

def hexDigit (d : Nat) : Byte := (ascii "0123456789abcdef").getD d 0

/-- What `%zx` prints. -/
def emitHex (x : Nat) : List Byte :=
  if x = 0 then [hexDigit 0] else (Nat.digits 16 x).reverse.map hexDigit

/-- `HTTP_OUTPUT_BUFFER_SIZE` -/
abbrev outputBufferSize : Nat := 256

/-- The used part of `hc_output_buffer`, which is never full between two calls, and all that
`hc_socket` was given. -/
structure Conn where
  buffer : List Byte
  sent : List Byte
  room : buffer.length < outputBufferSize

def Conn.new : Conn := ⟨[], [], by decide⟩

def Conn.print (hc : Conn) (bs : List Byte) : Conn := { hc with sent := hc.sent ++ bs }

def Conn.empty (hc : Conn) : Conn := ⟨[], hc.sent, by decide⟩

def chunk (data : List Byte) : List Byte := emitHex data.length ++ (crlf ++ (data ++ crlf))

def httpResponseChunkSend (hc : Conn) (data : List Byte) : Conn := hc.print (chunk data)

/-- `memcpy` to the end of the buffer, which is sent if that fills it. -/
def Conn.store (hc : Conn) (bs : List Byte) : Conn :=
  if room : (hc.buffer ++ bs).length < outputBufferSize then ⟨hc.buffer ++ bs, hc.sent, room⟩
  else httpResponseChunkSend hc.empty (hc.buffer ++ bs)

def httpResponseWrite (hc : Conn) (buf : List Byte) : Conn :=
  if buf = [] then hc
  else if hc.buffer = [] ∧ outputBufferSize < buf.length then httpResponseChunkSend hc buf
  else
    let toCopy := min (outputBufferSize - hc.buffer.length) buf.length
    httpResponseWrite (hc.store (buf.take toCopy)) (buf.drop toCopy)
termination_by buf.length
decreasing_by
  have := hc.room
  have := length_pos_iff.mpr ‹buf ≠ []›
  rw [length_drop]
  omega

def lastChunk : List Byte := ascii "0\r\n\r\n"

def httpResponseClose (hc : Conn) : Conn :=
  (if hc.buffer ≠ [] then httpResponseChunkSend hc.empty hc.buffer else hc).print lastChunk

/-- The status code with its text, the content type, `hr_should_keep_alive`, and the writes. -/
structure Response where
  status : List Byte
  contentType : List Byte
  shouldKeepAlive : Bool
  writes : List (List Byte)

def Response.header (r : Response) : List Byte :=
  ascii "HTTP/1.1 " ++ r.status ++ ascii "\r\nTransfer-Encoding: chunked\r\nContent-Type: " ++
    r.contentType ++ crlf ++ (if r.shouldKeepAlive then [] else ascii "Connection: close\r\n") ++
    crlf

def httpResponseBegin (hc : Conn) (r : Response) : Conn := hc.print r.header

def respond (hc : Conn) (r : Response) : Conn :=
  httpResponseClose (r.writes.foldl httpResponseWrite (httpResponseBegin hc r))

/-! ## The decoder -/

def hexValue (c : Byte) : Option Nat :=
  if 0x30 ≤ c ∧ c ≤ 0x39 then some (c.toNat - 0x30)
  else if 0x61 ≤ c ∧ c ≤ 0x66 then some (c.toNat - 0x61 + 10)
  else if 0x41 ≤ c ∧ c ≤ 0x46 then some (c.toNat - 0x41 + 10)
  else none

def addDigit (n : Option Nat) (d : Nat) : Option Nat := some (d + 16 * n.getD 0)

/-- A line with a hexadecimal number, of which `n` is the value so far, and what follows it. -/
def readSize : Option Nat → List Byte → Option (Nat × List Byte)
  | _, [] => none
  | n, c :: bs =>
    match hexValue c with
    | some d => readSize (addDigit n d) bs
    | none => if c = 13 ∧ bs.head? = some 10 then n.map (·, bs.tail) else none

/-- The body of at most `fuel` chunks. A chunk of no bytes ends it, and nothing may follow. -/
def decodeChunks : Nat → List Byte → Option (List Byte)
  | 0, _ => none
  | fuel + 1, bs =>
    match readSize none bs with
    | none => none
    | some (n, bs) =>
      if n = 0 then if bs = crlf then some [] else none
      else if (bs.drop n).take 2 = crlf then
        (decodeChunks fuel (bs.drop (n + 2))).map (bs.take n ++ ·)
      else none

def decodeChunked (bs : List Byte) : Option (List Byte) := decodeChunks bs.length bs

theorem hexValue_hexDigit : ∀ d < 16, hexValue (hexDigit d) = some d := by decide

theorem readSize_digits (ds : List Nat) (hds : ∀ d ∈ ds, d < 16) (n : Option Nat) (bs : List Byte) :
    readSize n (ds.map hexDigit ++ (crlf ++ bs)) = (ds.foldl addDigit n).map (·, bs) := by
  induction ds generalizing n with
  | nil => rfl
  | cons d ds ih =>
    simp only [map_cons, cons_append, readSize, hexValue_hexDigit d (hds d (.head _))]
    exact ih (fun x hx => hds x (.tail _ hx)) _

theorem foldl_addDigit (ds : List Nat) :
    (ds.reverse.foldl addDigit none).getD 0 = Nat.ofDigits 16 ds := by
  induction ds with
  | nil => rfl
  | cons d ds ih =>
    rw [reverse_cons, foldl_append, Nat.ofDigits_cons, ← ih]
    rfl

theorem readSize_emitHex {n : Nat} (h : n ≠ 0) (bs : List Byte) :
    readSize none (emitHex n ++ (crlf ++ bs)) = some (n, bs) := by
  have hdigits : ∀ d ∈ (Nat.digits 16 n).reverse, d < 16 := fun d hd =>
    Nat.digits_lt_base (by decide) (mem_reverse.mp hd)
  rw [emitHex, if_neg h, readSize_digits _ hdigits]
  have hvalue := foldl_addDigit (Nat.digits 16 n)
  rw [Nat.ofDigits_digits] at hvalue
  cases hf : (Nat.digits 16 n).reverse.foldl addDigit none with
  | none => exact absurd (hvalue.symm.trans (by rw [hf]; rfl)) h
  | some m =>
    rw [hf] at hvalue
    exact congrArg (fun m => some (m, bs)) hvalue

theorem decodeChunks_chunks (cs : List (List Byte)) (hcs : [] ∉ cs) {fuel : Nat}
    (hfuel : cs.length < fuel) :
    decodeChunks fuel ((cs.map chunk).flatten ++ lastChunk) = some cs.flatten := by
  induction cs generalizing fuel with
  | nil =>
    obtain ⟨fuel, rfl⟩ := Nat.exists_eq_succ_of_ne_zero (Nat.ne_zero_of_lt hfuel)
    rfl
  | cons c cs ih =>
    obtain ⟨fuel, rfl⟩ := Nat.exists_eq_succ_of_ne_zero (Nat.ne_zero_of_lt hfuel)
    rw [mem_cons, not_or] at hcs
    have hlen : c.length ≠ 0 := fun h => hcs.1 (length_eq_zero_iff.mp h).symm
    have hih := ih hcs.2 (Nat.lt_of_succ_lt_succ hfuel)
    simp only [map_cons, flatten_cons, chunk, append_assoc, decodeChunks,
      readSize_emitHex hlen, if_neg hlen]
    have htake (bs : List Byte) : (crlf ++ bs).take 2 = crlf := rfl
    have hdrop (bs : List Byte) : (crlf ++ bs).drop 2 = bs := rfl
    rw [← drop_drop, drop_left, htake, hdrop, if_pos rfl, take_left, hih]
    rfl

theorem length_le_chunks (cs : List (List Byte)) : cs.length ≤ (cs.map chunk).flatten.length := by
  induction cs with
  | nil => exact le_rfl
  | cons c cs ih =>
    simp only [map_cons, flatten_cons, length_append, length_cons, chunk]
    have hcrlf : crlf.length = 2 := rfl
    omega

/-! ## Responses -/

/-- The bytes of the buffer and of `data` went out in chunks, none of them empty, up to what is in
the buffer now. -/
def Conn.Sends (hc : Conn) (data : List Byte) (hc' : Conn) : Prop :=
  ∃ cs : List (List Byte), [] ∉ cs ∧ hc'.sent = hc.sent ++ (cs.map chunk).flatten ∧
    hc.buffer ++ data = cs.flatten ++ hc'.buffer

variable {hc hc' hc'' : Conn} {data data' : List Byte}

theorem Conn.Sends.trans (h : hc.Sends data hc') (h' : hc'.Sends data' hc'') :
    hc.Sends (data ++ data') hc'' := by
  obtain ⟨cs, hcs, hsent, hdata⟩ := h
  obtain ⟨cs', hcs', hsent', hdata'⟩ := h'
  refine ⟨cs ++ cs', by simp [hcs, hcs'], ?_, ?_⟩
  · rw [hsent', hsent, map_append, flatten_append, append_assoc]
  · rw [← append_assoc, hdata, append_assoc, hdata', flatten_append,
      append_assoc]

theorem sends_chunk (hc : Conn) (h : hc.buffer ++ data ≠ []) :
    hc.Sends data (httpResponseChunkSend hc.empty (hc.buffer ++ data)) := by
  refine ⟨[hc.buffer ++ data], by simpa using h.symm, ?_, ?_⟩
  all_goals simp [httpResponseChunkSend, Conn.print, Conn.empty]

theorem sends_store (hc : Conn) (h : data ≠ []) : hc.Sends data (hc.store data) := by
  unfold Conn.store
  split
  · exact ⟨[], by simp, by simp, rfl⟩
  · exact sends_chunk hc (by simp [h])

theorem sends_write (hc : Conn) (buf : List Byte) : hc.Sends buf (httpResponseWrite hc buf) := by
  induction hc, buf using httpResponseWrite.induct with
  | case1 hc =>
    rw [httpResponseWrite]
    exact ⟨[], by simp, by simp, by simp⟩
  | case2 hc buf hne hbig =>
    rw [httpResponseWrite, if_neg hne, if_pos hbig]
    exact ⟨[buf], by simp [Ne.symm hne], by simp [httpResponseChunkSend, Conn.print],
      by simp [httpResponseChunkSend, Conn.print, hbig.1]⟩
  | case3 hc buf hne hbig toCopy ih =>
    rw [httpResponseWrite, if_neg hne, if_neg hbig]
    have htake : buf.take toCopy ≠ [] := by
      have := hc.room
      have := length_pos_iff.mpr hne
      rw [← length_pos_iff, length_take]
      omega
    have hboth := (sends_store hc htake).trans ih
    rwa [take_append_drop] at hboth

theorem sends_writes (hc : Conn) (writes : List (List Byte)) :
    hc.Sends writes.flatten (writes.foldl httpResponseWrite hc) := by
  induction writes generalizing hc with
  | nil => exact ⟨[], by simp, by simp, by simp⟩
  | cons w ws ih => exact (sends_write hc w).trans (ih _)

/-- The rest of the buffer is one more chunk. -/
theorem Conn.Sends.close (h : hc.Sends data hc') (hempty : hc.buffer = []) :
    (httpResponseClose hc').buffer = [] ∧ ∃ body,
      (httpResponseClose hc').sent = hc.sent ++ body ∧ decodeChunked body = some data := by
  obtain ⟨u, hu, hbuf, hsends⟩ : ∃ u, httpResponseClose hc' = u.print lastChunk ∧
      u.buffer = [] ∧ hc.Sends data u := by
    by_cases hb : hc'.buffer = []
    · exact ⟨hc', by rw [httpResponseClose, if_neg (not_not.mpr hb)], hb, h⟩
    · have hlast : hc'.Sends [] _ := sends_chunk hc' (by simpa using hb)
      have hrest := h.trans hlast
      rw [append_nil, append_nil] at hrest
      exact ⟨_, by rw [httpResponseClose, if_pos hb], rfl, hrest⟩
  obtain ⟨cs, hcs, hsent, hdata⟩ := hsends
  rw [hempty, hbuf, nil_append, append_nil] at hdata
  rw [hu]
  refine ⟨hbuf, (cs.map chunk).flatten ++ lastChunk, ?_, ?_⟩
  · rw [Conn.print, hsent, append_assoc]
  · rw [hdata]
    refine decodeChunks_chunks cs hcs ?_
    have := length_le_chunks cs
    have hend : lastChunk.length = 5 := rfl
    rw [length_append]
    omega

/-- The header, and a chunked body that decodes to what was written. -/
def Response.Encodes (r : Response) (bs : List Byte) : Prop :=
  ∃ body, bs = r.header ++ body ∧ decodeChunked body = some r.writes.flatten

/-- Every response on a connection is sent as a header and a chunked body, in which an empty chunk
is the end, and the buffer is empty behind it. -/
theorem responses_chunked (rs : List Response) : (rs.foldl respond .new).buffer = [] ∧
    ∃ parts, (rs.foldl respond .new).sent = parts.flatten ∧
      List.Forall₂ Response.Encodes rs parts := by
  have hall (hc : Conn) (hempty : hc.buffer = []) : (rs.foldl respond hc).buffer = [] ∧
      ∃ parts, (rs.foldl respond hc).sent = hc.sent ++ parts.flatten ∧
        List.Forall₂ Response.Encodes rs parts := by
    induction rs generalizing hc with
    | nil => exact ⟨hempty, [], by simp, .nil⟩
    | cons r rs ih =>
      obtain ⟨hbuf, body, hsent, hbody⟩ := (sends_writes (hc.print r.header) r.writes).close hempty
      obtain ⟨hbuf', parts, hsent', hparts⟩ := ih (respond hc r) hbuf
      refine ⟨hbuf', (r.header ++ body) :: parts, ?_, .cons ⟨body, rfl, hbody⟩ hparts⟩
      have hone : (respond hc r).sent = hc.sent ++ (r.header ++ body) :=
        hsent.trans (append_assoc _ _ _)
      rw [foldl_cons, hsent', hone, flatten_cons, append_assoc]
  exact hall .new rfl

end Mios.Http
