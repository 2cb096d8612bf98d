import XNetty.Buffer.ByteBuf

/-!
# HTTP responses

The response object, its setters and its serialization.

## Main definitions

* `HttpResponse.serialize` — appending the text of a response to a buffer.
-/

namespace XNetty

structure HttpStatus where
  code : ℕ
  reason : Bytes
  deriving DecidableEq

namespace HttpStatus

def «continue» : HttpStatus := ⟨100, ascii "Continue"⟩
def switchingProtocols : HttpStatus := ⟨101, ascii "Switching Protocols"⟩
def ok : HttpStatus := ⟨200, ascii "OK"⟩
def created : HttpStatus := ⟨201, ascii "Created"⟩
def accepted : HttpStatus := ⟨202, ascii "Accepted"⟩
def noContent : HttpStatus := ⟨204, ascii "No Content"⟩
def partialContent : HttpStatus := ⟨206, ascii "Partial Content"⟩
def movedPermanently : HttpStatus := ⟨301, ascii "Moved Permanently"⟩
def found : HttpStatus := ⟨302, ascii "Found"⟩
def notModified : HttpStatus := ⟨304, ascii "Not Modified"⟩
def temporaryRedirect : HttpStatus := ⟨307, ascii "Temporary Redirect"⟩
def permanentRedirect : HttpStatus := ⟨308, ascii "Permanent Redirect"⟩
def badRequest : HttpStatus := ⟨400, ascii "Bad Request"⟩
def unauthorized : HttpStatus := ⟨401, ascii "Unauthorized"⟩
def forbidden : HttpStatus := ⟨403, ascii "Forbidden"⟩
def notFound : HttpStatus := ⟨404, ascii "Not Found"⟩
def methodNotAllowed : HttpStatus := ⟨405, ascii "Method Not Allowed"⟩
def notAcceptable : HttpStatus := ⟨406, ascii "Not Acceptable"⟩
def requestTimeout : HttpStatus := ⟨408, ascii "Request Timeout"⟩
def conflict : HttpStatus := ⟨409, ascii "Conflict"⟩
def gone : HttpStatus := ⟨410, ascii "Gone"⟩
def lengthRequired : HttpStatus := ⟨411, ascii "Length Required"⟩
def preconditionFailed : HttpStatus := ⟨412, ascii "Precondition Failed"⟩
def payloadTooLarge : HttpStatus := ⟨413, ascii "Payload Too Large"⟩
def uriTooLong : HttpStatus := ⟨414, ascii "URI Too Long"⟩
def unsupportedMediaType : HttpStatus := ⟨415, ascii "Unsupported Media Type"⟩
def unprocessableEntity : HttpStatus := ⟨422, ascii "Unprocessable Entity"⟩
def tooEarly : HttpStatus := ⟨425, ascii "Too Early"⟩
def upgradeRequired : HttpStatus := ⟨426, ascii "Upgrade Required"⟩
def preconditionRequired : HttpStatus := ⟨428, ascii "Precondition Required"⟩
def tooManyRequests : HttpStatus := ⟨429, ascii "Too Many Requests"⟩
def requestHeaderFieldsTooLarge : HttpStatus := ⟨431, ascii "Request Header Fields Too Large"⟩
def unavailableForLegalReasons : HttpStatus := ⟨451, ascii "Unavailable For Legal Reasons"⟩
def internalServerError : HttpStatus := ⟨500, ascii "Internal Server Error"⟩
def notImplemented : HttpStatus := ⟨501, ascii "Not Implemented"⟩
def badGateway : HttpStatus := ⟨502, ascii "Bad Gateway"⟩
def serviceUnavailable : HttpStatus := ⟨503, ascii "Service Unavailable"⟩
def gatewayTimeout : HttpStatus := ⟨504, ascii "Gateway Timeout"⟩
def httpVersionNotSupported : HttpStatus := ⟨505, ascii "HTTP Version Not Supported"⟩

/-- The constructor is private: there are no other statuses. -/
def all : List HttpStatus :=
  [«continue», switchingProtocols, ok, created, accepted, noContent, partialContent,
    movedPermanently, found, notModified, temporaryRedirect, permanentRedirect, badRequest,
    unauthorized, forbidden, notFound, methodNotAllowed, notAcceptable, requestTimeout,
    conflict, gone, lengthRequired, preconditionFailed, payloadTooLarge, uriTooLong,
    unsupportedMediaType, unprocessableEntity, tooEarly, upgradeRequired,
    preconditionRequired, tooManyRequests, requestHeaderFieldsTooLarge,
    unavailableForLegalReasons, internalServerError, notImplemented, badGateway,
    serviceUnavailable, gatewayTimeout, httpVersionNotSupported]

end HttpStatus

structure HttpResponse where
  status : HttpStatus := .ok
  headers : List (Bytes × Bytes) := []
  body : Bytes := []
  statusLine : Bytes := ascii "HTTP/1.1 200 OK\r\n"
  keepAlive : Bool := true
  contentLengthSet : Bool := false
  contentTypeSet : Bool := false
  connectionSet : Bool := false
  deriving DecidableEq

/-- The loop of the header setters: overwrite the first entry of that name, else append. -/
def putHeader (key value : Bytes) : List (Bytes × Bytes) → List (Bytes × Bytes)
  | [] => [(key, value)]
  | kv :: rest => if kv.1 = key then (key, value) :: rest else kv :: putHeader key value rest

namespace HttpResponse

variable (r : HttpResponse)

def setStatus (s : HttpStatus) : HttpResponse :=
  { r with
    status := s
    statusLine :=
      ascii "HTTP/1.1 " ++ ascii (toString s.code) ++ ascii " " ++ s.reason ++ ascii "\r\n" }

def setHeader (key value : Bytes) : HttpResponse :=
  { r with
    connectionSet := r.connectionSet || decide (key = ascii "Connection")
    headers := putHeader key value r.headers }

def setContentType (type : Bytes) : HttpResponse :=
  { r with
    contentTypeSet := true
    headers := putHeader (ascii "Content-Type") type r.headers }

def setContentLength (len : ℕ) : HttpResponse :=
  { r with
    contentLengthSet := true
    headers := putHeader (ascii "Content-Length") (ascii (toString len)) r.headers }

def setContent (data : Bytes) : HttpResponse := { r with body := data }

def setKeepAlive (ka : Bool) : HttpResponse := { r with keepAlive := ka }

/-- The plain-text error responses of the codec and the router. -/
def plainText (s : HttpStatus) (text : String) : HttpResponse :=
  ((({} : HttpResponse).setStatus s).setContentType (ascii "text/plain")).setContent (ascii text)

/-! ## Serialization -/

/-- The loop that counts the digits of `n`, which is divided by ten in each turn. -/
def digitCount : ℕ → ℕ → ℕ
  | 0, _ => 1
  | fuel + 1, n => if n / 10 > 0 then digitCount fuel (n / 10) + 1 else 1

/-- The room that `serialize` asks for. -/
def serializedSize : ℕ :=
  let bodyLen := r.body.length
  let total := r.statusLine.length
  let total := total + (r.headers.map fun kv => kv.1.length + 4 + kv.2.length).sum
  let total :=
    if !r.contentLengthSet && bodyLen > 0 then total + 16 + digitCount bodyLen bodyLen + 2
    else total
  let total := if !r.contentTypeSet && bodyLen > 0 then total + 26 else total
  let total := total + (if r.connectionSet then 2 else if r.keepAlive then 26 else 21)
  total + bodyLen

/-- What `serialize` copies there, piece by piece. -/
def serialized : Bytes :=
  let bodyLen := r.body.length
  r.statusLine ++
  (r.headers.flatMap fun kv => kv.1 ++ ascii ": " ++ kv.2 ++ ascii "\r\n") ++
  (if !r.contentLengthSet && bodyLen > 0 then
    ascii "Content-Length: " ++ ascii (toString bodyLen) ++ ascii "\r\n" else []) ++
  (if !r.contentTypeSet && bodyLen > 0 then ascii "Content-Type: text/plain\r\n" else []) ++
  (if !r.connectionSet then
    if r.keepAlive then ascii "Connection: keep-alive\r\n\r\n"
    else ascii "Connection: close\r\n\r\n"
  else ascii "\r\n") ++
  r.body

theorem digitCount_eq {fuel n : ℕ} (h : n ≤ fuel) :
    digitCount fuel n = (Nat.toDigits 10 n).length := by
  induction fuel generalizing n with
  | zero =>
    obtain rfl : n = 0 := by omega
    rfl
  | succ fuel ih =>
    rw [digitCount, Nat.toDigits_eq_if (by omega)]
    split
    · rw [ih (by omega), if_neg (by omega)]
      simp
    · rw [if_pos (by omega)]
      rfl

theorem length_decimal (n : ℕ) : (ascii (toString n)).length = digitCount n n := by
  rw [digitCount_eq le_rfl, ascii, List.length_map]
  exact congrArg List.length Nat.toList_repr

/-- The room asked for is the room needed. -/
theorem length_serialized : r.serialized.length = r.serializedSize := by
  have hheaders : (r.headers.flatMap fun kv => kv.1 ++ ascii ": " ++ kv.2 ++ ascii "\r\n").length =
      (r.headers.map fun kv => kv.1.length + 4 + kv.2.length).sum := by
    rw [List.length_flatMap]
    congr 1
    refine List.map_congr_left fun kv _ => ?_
    simp only [List.length_append, show (ascii ": ").length = 2 from rfl,
      show (ascii "\r\n").length = 2 from rfl]
    omega
  have hlength : (if !r.contentLengthSet && r.body.length > 0 then
      ascii "Content-Length: " ++ ascii (toString r.body.length) ++ ascii "\r\n" else []).length =
      if !r.contentLengthSet && r.body.length > 0 then
        16 + digitCount r.body.length r.body.length + 2
      else 0 := by
    split
    · simp only [List.length_append, length_decimal,
        show (ascii "Content-Length: ").length = 16 from rfl,
        show (ascii "\r\n").length = 2 from rfl]
    · rfl
  have htype : (if !r.contentTypeSet && r.body.length > 0 then ascii "Content-Type: text/plain\r\n"
      else []).length = if !r.contentTypeSet && r.body.length > 0 then 26 else 0 := by
    split <;> rfl
  have hconnection : (if !r.connectionSet then
      if r.keepAlive then ascii "Connection: keep-alive\r\n\r\n"
      else ascii "Connection: close\r\n\r\n"
      else ascii "\r\n").length =
      if r.connectionSet then 2 else if r.keepAlive then 26 else 21 := by
    cases r.connectionSet <;> cases r.keepAlive <;> rfl
  simp only [serialized, serializedSize, List.length_append, hheaders, hlength, htype, hconnection]
  split <;> split <;> omega

def serialize (buf : ByteBuf) : ByteBuf :=
  (buf.ensureWritable r.serializedSize).copyIn r.serialized (by
    rw [length_serialized, ByteBuf.writerIndex_ensureWritable]
    exact buf.ensureWritable_room _)

def toByteBuf : ByteBuf := r.serialize (.ofCapacity 512)

@[simp] theorem readable_serialize (buf : ByteBuf) :
    (r.serialize buf).readable = buf.readable ++ r.serialized := by
  rw [serialize, ByteBuf.readable_copyIn]
  simp only [ByteBuf.readable, ByteBuf.writerIndex_ensureWritable,
    ByteBuf.readerIndex_ensureWritable, ByteBuf.take_data_ensureWritable]

@[simp] theorem readable_toByteBuf : r.toByteBuf.readable = r.serialized := by
  simp [toByteBuf]

/-- The room that `serializeHeaders` asks for, which it returns. -/
def headersSize : ℕ :=
  let bodyLen := r.body.length
  let total := r.statusLine.length
  let total := total + (r.headers.map fun kv => kv.1.length + 4 + kv.2.length).sum
  let total :=
    if !r.contentLengthSet && bodyLen > 0 then total + 16 + digitCount bodyLen bodyLen + 2
    else total
  let total := if !r.contentTypeSet && bodyLen > 0 then total + 26 else total
  total + (if r.connectionSet then 2 else if r.keepAlive then 26 else 21)

/-- What `serializeHeaders` copies there. -/
def serializedHeaders : Bytes :=
  let bodyLen := r.body.length
  r.statusLine ++
  (r.headers.flatMap fun kv => kv.1 ++ ascii ": " ++ kv.2 ++ ascii "\r\n") ++
  (if !r.contentLengthSet && bodyLen > 0 then
    ascii "Content-Length: " ++ ascii (toString bodyLen) ++ ascii "\r\n" else []) ++
  (if !r.contentTypeSet && bodyLen > 0 then ascii "Content-Type: text/plain\r\n" else []) ++
  (if !r.connectionSet then
    if r.keepAlive then ascii "Connection: keep-alive\r\n\r\n"
    else ascii "Connection: close\r\n\r\n"
  else ascii "\r\n")

/-- The whole text is that of the header and the body behind it. -/
theorem serialized_eq_headers : r.serialized = r.serializedHeaders ++ r.body := rfl

theorem length_serializedHeaders : r.serializedHeaders.length = r.headersSize := by
  have hall := r.length_serialized
  rw [serialized_eq_headers, List.length_append] at hall
  exact Nat.add_right_cancel hall

def serializeHeaders (buf : ByteBuf) : ByteBuf × ℕ :=
  ((buf.ensureWritable r.headersSize).copyIn r.serializedHeaders (by
      rw [length_serializedHeaders, ByteBuf.writerIndex_ensureWritable]
      exact buf.ensureWritable_room _),
    r.headersSize)

@[simp] theorem readable_serializeHeaders (buf : ByteBuf) :
    (r.serializeHeaders buf).1.readable = buf.readable ++ r.serializedHeaders := by
  rw [serializeHeaders, ByteBuf.readable_copyIn]
  simp only [ByteBuf.readable, ByteBuf.writerIndex_ensureWritable,
    ByteBuf.readerIndex_ensureWritable, ByteBuf.take_data_ensureWritable]

/-- Every response has a text: the header ends somewhere. -/
theorem serialized_ne_nil : r.serialized ≠ [] := by
  have hconnection : 0 < if r.connectionSet then 2 else if r.keepAlive then 26 else 21 := by
    cases r.connectionSet <;> cases r.keepAlive <;> decide
  rw [← List.length_pos_iff, length_serialized, serializedSize]
  omega

end HttpResponse

end XNetty
