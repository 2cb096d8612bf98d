import XNetty.Http.Response
import XNetty.Lib.Fill

/-!
# Serializing a response in place

`serialize` and `serializeHeaders` first add up how long the text will be, reserve that much in the
buffer, and then copy the pieces of the text there with `memcpy` and `to_chars`. Each copy here
fails if it goes past what has been reserved. None does, and together they fill all of it.

## Main definitions

* `HttpResponse.copyHeaders` — the copies of `serializeHeaders`.
* `HttpResponse.serializeHeadersInPlace`, `HttpResponse.serializeInPlace` — the functions.
* `HttpResponse.serializeInPlace_exact` — they succeed, fill what they reserve, and agree.
-/

namespace XNetty

open Fill

/-- `std::memcpy(p + off, src, len); off += len`. -/
def memcpy (src : Bytes) (r : Region UInt8) : Option (Region UInt8) := r.copy src

/-- `std::to_chars(p + off, p + total, n)`, with `off` set to the end of the digits. -/
def toChars (n : ℕ) (r : Region UInt8) : Option (Region UInt8) := r.copy (ascii (toString n))

/-- `ByteBuf::setWriterIndex`, behind copies into the storage. -/
def ByteBuf.setWriterIndex (b : ByteBuf) (data : Bytes) (index : ℕ) : Option ByteBuf :=
  if h : b.readerIndex ≤ index ∧ index ≤ data.length then
    some ⟨data, b.readerIndex, index, h.1, h.2⟩
  else none

namespace HttpResponse

variable (r : HttpResponse)

/-- One turn of the loop over the headers. -/
def copyHeader (kv : Bytes × Bytes) (p : Region UInt8) : Option (Region UInt8) := do
  let p ← memcpy kv.1 p
  let p ← memcpy (ascii ": ") p
  let p ← memcpy kv.2 p
  memcpy (ascii "\r\n") p

def copyContentLength (bodyLen : ℕ) (p : Region UInt8) : Option (Region UInt8) := do
  let p ← memcpy (ascii "Content-Length: ") p
  let p ← toChars bodyLen p
  memcpy (ascii "\r\n") p

def copyConnection (p : Region UInt8) : Option (Region UInt8) :=
  if !r.connectionSet then
    if r.keepAlive then memcpy (ascii "Connection: keep-alive\r\n\r\n") p
    else memcpy (ascii "Connection: close\r\n\r\n") p
  else memcpy (ascii "\r\n") p

/-- The line of the length, which is left out when it has been set or nothing follows. -/
def copyAutoLength (p : Region UInt8) : Option (Region UInt8) :=
  if !r.contentLengthSet && r.body.length > 0 then copyContentLength r.body.length p else some p

def copyAutoType (p : Region UInt8) : Option (Region UInt8) :=
  if !r.contentTypeSet && r.body.length > 0 then memcpy (ascii "Content-Type: text/plain\r\n") p
  else some p

/-- What both functions copy in front of the body. -/
def copyHeaders (p : Region UInt8) : Option (Region UInt8) := do
  let p ← memcpy r.statusLine p
  let p ← r.headers.foldlM (fun p kv => copyHeader kv p) p
  let p ← r.copyAutoLength p
  let p ← r.copyAutoType p
  r.copyConnection p

/-- What `serialize` copies. -/
def copyAll (p : Region UInt8) : Option (Region UInt8) := do
  let p ← r.copyHeaders p
  if r.body.length > 0 then memcpy r.body p else some p

/-- Reserving `total` bytes of a buffer and copying into them: the buffer behind it, and how many
bytes have been copied. -/
def inPlace (total : ℕ) (copies : Region UInt8 → Option (Region UInt8)) (buf : ByteBuf) :
    Option (ByteBuf × ℕ) := do
  let buf := buf.ensureWritable total
  let p ← copies ⟨buf.data, buf.writerIndex, total, 0⟩
  let buf ← buf.setWriterIndex p.data (buf.writerIndex + p.off)
  return (buf, p.off)

/-- `HttpResponse::serializeHeaders`. -/
def serializeHeadersInPlace (buf : ByteBuf) : Option (ByteBuf × ℕ) :=
  inPlace r.headersSize r.copyHeaders buf

/-- `HttpResponse::serialize`. -/
def serializeInPlace (buf : ByteBuf) : Option (ByteBuf × ℕ) :=
  inPlace r.serializedSize r.copyAll buf

/-! ### The copies put the text there -/

theorem puts_copyHeader (kv : Bytes × Bytes) :
    Puts (copyHeader kv) (kv.1 ++ ascii ": " ++ kv.2 ++ ascii "\r\n") := by
  rw [List.append_assoc, List.append_assoc]
  exact (puts_copy kv.1).bind <| (puts_copy (ascii ": ")).bind <|
    (puts_copy kv.2).bind (puts_copy (ascii "\r\n"))

theorem puts_copyContentLength (bodyLen : ℕ) :
    Puts (copyContentLength bodyLen)
      (ascii "Content-Length: " ++ ascii (toString bodyLen) ++ ascii "\r\n") := by
  rw [List.append_assoc]
  exact (puts_copy (ascii "Content-Length: ")).bind <|
    (puts_copy (ascii (toString bodyLen))).bind (puts_copy (ascii "\r\n"))

theorem puts_copyConnection :
    Puts r.copyConnection (if !r.connectionSet then
      if r.keepAlive then ascii "Connection: keep-alive\r\n\r\n"
      else ascii "Connection: close\r\n\r\n"
    else ascii "\r\n") := by
  unfold copyConnection
  split_ifs
  · exact puts_copy _
  · exact puts_copy _
  · exact puts_copy _

theorem puts_copyHeaders : Puts r.copyHeaders r.serializedHeaders := by
  have hlength : Puts r.copyAutoLength _ := (puts_copyContentLength r.body.length).ite _
  have htype : Puts r.copyAutoType _ := (puts_copy (ascii "Content-Type: text/plain\r\n")).ite _
  have hall := (puts_copy r.statusLine).bind <| (puts_foldlM puts_copyHeader r.headers).bind <|
    hlength.bind <| htype.bind r.puts_copyConnection
  unfold serializedHeaders
  simp only [List.append_assoc] at hall ⊢
  exact hall

theorem puts_copyAll : Puts r.copyAll r.serialized := by
  have hbody := (puts_copy r.body).ite (r.body.length > 0)
  have hsame : (if r.body.length > 0 then r.body else []) = r.body := by
    split_ifs with h
    · rfl
    · exact (List.length_eq_zero_iff.mp (Nat.eq_zero_of_not_pos h)).symm
  rw [hsame] at hbody
  rw [serialized_eq_headers]
  exact r.puts_copyHeaders.bind hbody

/-- The storage with the text in it, and the writer index behind that. -/
theorem setWriterIndex_put (buf : ByteBuf) (total : ℕ) {text : Bytes}
    (hroom : buf.writerIndex + text.length ≤ buf.data.length) :
    buf.setWriterIndex ((Region.mk buf.data buf.writerIndex total 0).put text).data
      (buf.writerIndex + text.length) = some (buf.copyIn text hroom) := by
  have hdata : ((Region.mk buf.data buf.writerIndex total 0).put text).data =
      (buf.copyIn text hroom).data := rfl
  have hindex := (buf.copyIn text hroom).reader_le
  have hcapacity := (buf.copyIn text hroom).writer_le
  rw [hdata]
  exact dif_pos ⟨hindex, hcapacity⟩

/-- Copies of as many bytes as have been reserved are one copy into the buffer. -/
theorem inPlace_eq {total : ℕ} {copies : Region UInt8 → Option (Region UInt8)} {text : Bytes}
    (h : Puts copies text) (htotal : text.length = total) (buf : ByteBuf) :
    ∃ hroom, inPlace total copies buf =
      some ((buf.ensureWritable total).copyIn text hroom, total) := by
  have hspace := buf.ensureWritable_room total
  have hroom : (buf.ensureWritable total).writerIndex + text.length ≤
      (buf.ensureWritable total).data.length := by
    rw [buf.writerIndex_ensureWritable]
    omega
  have hfits : Region.Fits ⟨(buf.ensureWritable total).data,
      (buf.ensureWritable total).writerIndex, total, 0⟩ text.length := by
    constructor
    · simp only [Nat.zero_add]
      exact htotal.le
    · simpa only [buf.writerIndex_ensureWritable] using hspace
  have hoff : ((Region.mk (buf.ensureWritable total).data (buf.ensureWritable total).writerIndex
      total 0).put text).off = text.length := Nat.zero_add _
  refine ⟨hroom, ?_⟩
  unfold inPlace
  simp only [h _ hfits, Option.bind_eq_bind, Option.bind_some, hoff]
  rw [setWriterIndex_put _ _ hroom]
  exact congrArg (fun n => some (_, n)) htotal

/-- What the model calls `serialize` is what the copies do. -/
theorem serializeInPlace_eq (buf : ByteBuf) :
    r.serializeInPlace buf = some (r.serialize buf, r.serializedSize) := by
  obtain ⟨_, h⟩ := inPlace_eq r.puts_copyAll r.length_serialized buf
  exact h

theorem serializeHeadersInPlace_eq (buf : ByteBuf) :
    r.serializeHeadersInPlace buf = some (r.serializeHeaders buf) := by
  obtain ⟨_, h⟩ := inPlace_eq r.puts_copyHeaders r.length_serializedHeaders buf
  exact h

/-- **Serialization is exact**: no copy of either function goes past what has been reserved, each
function copies as many bytes as it has reserved, and `serialize` appends what `serializeHeaders`
appends and the body behind it, to what has been readable before. -/
theorem serializeInPlace_exact (buf : ByteBuf) :
    ∃ headed whole, r.serializeHeadersInPlace buf = some (headed, r.headersSize) ∧
      r.serializeInPlace buf = some (whole, r.serializedSize) ∧
      buf.readable <+: headed.readable ∧
      headed.readable.length = buf.readable.length + r.headersSize ∧
      whole.readable = headed.readable ++ r.body ∧
      whole.readable.length = buf.readable.length + r.serializedSize := by
  refine ⟨(r.serializeHeaders buf).1, r.serialize buf, r.serializeHeadersInPlace_eq buf,
    r.serializeInPlace_eq buf, ?_, ?_, ?_, ?_⟩
  · rw [readable_serializeHeaders]
    exact List.prefix_append _ _
  · rw [readable_serializeHeaders, List.length_append, length_serializedHeaders]
  · rw [readable_serialize, readable_serializeHeaders, serialized_eq_headers, List.append_assoc]
  · rw [readable_serialize, List.length_append, length_serialized]

end HttpResponse

end XNetty
