import XNetty.Http.Request
import XNetty.Http.Response

/-!
# The header fields of a response

What `HttpResponse::serialize` writes is a status line, one line for each field, an empty line
and the body. The fields are those of the headers and up to three that the flags call for.

## Main definitions

* `HttpResponse.fields` — the fields that go out, in order.
* `Setter` — the calls that build a response.
-/

namespace XNetty

/-- Field names do not depend on case. -/
def NameIs (name : Bytes) (kv : Bytes × Bytes) : Prop := kv.1.map toLower = name

instance (name : Bytes) (kv : Bytes × Bytes) : Decidable (NameIs name kv) :=
  inferInstanceAs (Decidable (_ = _))

def contentLengthName : Bytes := ascii "content-length"
def transferEncodingName : Bytes := ascii "transfer-encoding"
def contentEncodingName : Bytes := ascii "content-encoding"
def connectionName : Bytes := ascii "connection"

namespace HttpResponse

/-- `Content-Length` and `Content-Type` of a body for which they were not set, and `Connection`. -/
def ownFields (r : HttpResponse) : List (Bytes × Bytes) :=
  (if !r.contentLengthSet && r.body.length > 0 then
    [(ascii "Content-Length", ascii (toString r.body.length))] else []) ++
  (if !r.contentTypeSet && r.body.length > 0 then
    [(ascii "Content-Type", ascii "text/plain")] else []) ++
  (if !r.connectionSet then
    [(ascii "Connection", if r.keepAlive then ascii "keep-alive" else ascii "close")] else [])

def fields (r : HttpResponse) : List (Bytes × Bytes) := r.headers ++ r.ownFields

end HttpResponse

/-- The line of a field, up to its end. -/
def fieldLine (kv : Bytes × Bytes) : Bytes := kv.1 ++ ascii ": " ++ kv.2

def fieldLines (kvs : List (Bytes × Bytes)) : Bytes :=
  kvs.flatMap fun kv => fieldLine kv ++ [13, 10]

theorem fieldLines_append (kvs kvs' : List (Bytes × Bytes)) :
    fieldLines (kvs ++ kvs') = fieldLines kvs ++ fieldLines kvs' := List.flatMap_append

/-- **The text of a response**, field by field. -/
theorem HttpResponse.serialized_eq (r : HttpResponse) :
    r.serialized = r.statusLine ++ fieldLines r.fields ++ [13, 10] ++ r.body := by
  have hlength : (if !r.contentLengthSet && r.body.length > 0 then
      ascii "Content-Length: " ++ ascii (toString r.body.length) ++ ascii "\r\n" else []) =
      fieldLines (if !r.contentLengthSet && r.body.length > 0 then
        [(ascii "Content-Length", ascii (toString r.body.length))] else []) := by
    split
    · simp [fieldLines, fieldLine, ascii]
    · rfl
  have htype : (if !r.contentTypeSet && r.body.length > 0 then
      ascii "Content-Type: text/plain\r\n" else []) =
      fieldLines (if !r.contentTypeSet && r.body.length > 0 then
        [(ascii "Content-Type", ascii "text/plain")] else []) := by
    split <;> rfl
  have hconnection : (if !r.connectionSet then
      if r.keepAlive then ascii "Connection: keep-alive\r\n\r\n"
      else ascii "Connection: close\r\n\r\n"
      else ascii "\r\n") =
      fieldLines (if !r.connectionSet then
        [(ascii "Connection", if r.keepAlive then ascii "keep-alive" else ascii "close")] else [])
        ++ [13, 10] := by
    cases r.connectionSet <;> cases r.keepAlive <;> rfl
  have hheaders : (r.headers.flatMap fun kv => kv.1 ++ ascii ": " ++ kv.2 ++ ascii "\r\n") =
      fieldLines r.headers := rfl
  rw [serialized, hlength, htype, hconnection, hheaders, fields, ownFields]
  simp only [fieldLines_append, List.append_assoc]

theorem mem_putHeader {key value : Bytes} {kvs : List (Bytes × Bytes)} {kv : Bytes × Bytes}
    (h : kv ∈ putHeader key value kvs) : kv = (key, value) ∨ kv ∈ kvs := by
  induction kvs with
  | nil => exact .inl (List.mem_singleton.mp h)
  | cons first rest ih =>
    rw [putHeader] at h
    split at h
    · exact (List.mem_cons.mp h).imp_right (List.mem_cons_of_mem _)
    · rcases List.mem_cons.mp h with rfl | h
      · exact .inr List.mem_cons_self
      · exact (ih h).imp_right (List.mem_cons_of_mem _)

/-- The calls that build a response. -/
inductive Setter where
  | setStatus (status : HttpStatus)
  | setHeader (key value : Bytes)
  | setContentType (type : Bytes)
  /-- `setContentLength` with the size of the content at that moment. -/
  | setContentLength
  | setContent (body : Bytes)

def Setter.apply (r : HttpResponse) : Setter → HttpResponse
  | .setStatus status => r.setStatus status
  | .setHeader key value => r.setHeader key value
  | .setContentType type => r.setContentType type
  | .setContentLength => r.setContentLength r.body.length
  | .setContent body => r.setContent body

/-- A response made by the calls, on the one that `HttpResponse()` constructs. -/
def HttpResponse.build (setters : List Setter) : HttpResponse := setters.foldl Setter.apply {}

end XNetty
