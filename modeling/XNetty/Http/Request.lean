import Mathlib.Data.Finmap
import XNetty.Buffer.ByteBuf

/-!
# HTTP requests

A request keeps a pointer to the bytes it was parsed from and parses headers and
body on first access. The raw pointer is modelled by the bytes it points at, up to
the end of the buffer they lie in.

## Main definitions

* `HttpRequest.setRawData` — attach the bytes of a message and the spans found in it.
* `HttpRequest.ensureHeadersParsed`, `HttpRequest.ensureBodyParsed` — the lazy parses.
-/

namespace XNetty

/-- `std::unordered_map<std::string, std::string>`. -/
abbrev StringMap := Finmap fun _ : Bytes => Bytes

inductive HttpMethod where
  | get | post | put | delete | head | options | patch | unknown
  deriving DecidableEq

inductive HttpVersion where
  | http10 | http11 | http20 | unknown
  deriving DecidableEq

structure HeaderEntry where
  offset : ℕ
  keyLen : ℕ
  valueLen : ℕ
  deriving DecidableEq

structure HttpRequest where
  method : HttpMethod := .unknown
  version : HttpVersion := .http11
  uri : Bytes := []
  path : Bytes := []
  rawData : Option Bytes := none
  rawDataLen : ℕ := 0
  headerOffsets : List HeaderEntry := []
  headerEnd : ℕ := 0
  headersParsed : Bool := false
  queryParsed : Bool := false
  bodyParsed : Bool := false
  headers : List (Bytes × Bytes) := []
  queries : StringMap := ∅
  content : Bytes := []
  params : StringMap := ∅
  contentLength : ℕ := 0

/-- `std::string(data + offset, len)`. -/
def substr (data : Bytes) (offset len : ℕ) : Bytes := (data.drop offset).take len

theorem substr_append {raw : Bytes} {offset len : ℕ} (h : offset + len ≤ raw.length)
    (ys : Bytes) : substr (raw ++ ys) offset len = substr raw offset len := by
  unfold substr
  rw [List.drop_append_of_le_length (by omega), List.take_append_of_le_length]
  simp only [List.length_drop]
  omega

/-- `std::tolower` in the C locale. -/
def toLower (c : UInt8) : UInt8 := if 65 ≤ c ∧ c ≤ 90 then c + 32 else c

namespace HttpRequest

variable (r : HttpRequest)

def setMethod (m : HttpMethod) : HttpRequest := { r with method := m }

def setVersion (v : HttpVersion) : HttpRequest := { r with version := v }

/-- `setUri`, with `parsePath`: the path is the part before the first `?`. -/
def setUri (u : Bytes) : HttpRequest := { r with uri := u, path := u.takeWhile (· ≠ 63) }

def setParams (p : StringMap) : HttpRequest := { r with params := p }

/-- `headers_` itself is kept: only the flag that it is up to date is cleared. -/
def setRawData (data : Bytes) (totalLen : ℕ) (offsets : List HeaderEntry) (headerEnd : ℕ) :
    HttpRequest :=
  { r with
    rawData := some data, rawDataLen := totalLen, headerOffsets := offsets,
    headerEnd := headerEnd, headersParsed := false, queryParsed := false, bodyParsed := false }

/-- One header: the value is taken to start two bytes behind the name. -/
def readHeader (data : Bytes) (entry : HeaderEntry) : Bytes × Bytes :=
  (substr data entry.offset entry.keyLen,
    substr data (entry.offset + entry.keyLen + 2) entry.valueLen)

def ensureHeadersParsed : HttpRequest :=
  if r.headersParsed then r
  else
    match r.rawData with
    | none => { r with headersParsed := true }
    | some data =>
      if r.headerOffsets = [] then { r with headersParsed := true }
      else { r with
        headersParsed := true
        headers := r.headers ++ r.headerOffsets.map (readHeader data) }

/-- The two loops of `header` and `hasHeader`: an exact match first, then any case. -/
def findHeader (headers : List (Bytes × Bytes)) (key : Bytes) : Option Bytes :=
  match headers.find? fun kv => decide (kv.1 = key) with
  | some kv => some kv.2
  | none => (headers.find? fun kv => decide (kv.1.map toLower = key.map toLower)).map Prod.snd

/-- `header(key)`, with the request it leaves behind. -/
def header (key : Bytes) : Bytes × HttpRequest :=
  ((findHeader r.ensureHeadersParsed.headers key).getD [], r.ensureHeadersParsed)

def ensureBodyParsed : HttpRequest :=
  if r.bodyParsed then r
  else
    match r.rawData with
    | none => { r with bodyParsed := true }
    | some data =>
      if r.headerEnd = 0 then { r with bodyParsed := true }
      else if r.contentLength > 0 ∧ r.headerEnd + r.contentLength ≤ r.rawDataLen then
        { r with bodyParsed := true, content := substr data r.headerEnd r.contentLength }
      else if r.headerEnd < r.rawDataLen then
        { r with
          bodyParsed := true
          content := substr data r.headerEnd (r.rawDataLen - r.headerEnd) }
      else { r with bodyParsed := true }

/-- `body()`. -/
def body : Bytes := r.ensureBodyParsed.content

/-- `c | 32`, which the code compares with a lower-case letter. -/
def orBit5 (c : UInt8) : UInt8 := c ||| 32

/-- The loop of `hasConnectionClose` over the raw header spans: the first header
named `connection` decides. -/
def rawConnectionClose (data : Bytes) : List HeaderEntry → Bool
  | [] => false
  | entry :: rest =>
    if entry.keyLen = 10 ∧ (substr data entry.offset 10).map orBit5 = ascii "connection" then
      decide (entry.valueLen ≥ 4) &&
        decide ((substr data (entry.offset + 12) 4).map orBit5 = ascii "clos")
    else rawConnectionClose data rest

def hasConnectionClose : Bool :=
  if r.headersParsed then
    r.headers.any fun kv =>
      decide (kv.1.length = 10 ∧ kv.1.head?.map orBit5 = some 99 ∧ kv.2.length ≥ 4 ∧
        (kv.2.take 2).map orBit5 = ascii "cl")
  else
    match r.rawData with
    | none => false
    | some data => rawConnectionClose data r.headerOffsets

/-! ## What the accessors change -/

@[simp] theorem method_setRawData (data n o e) :
    (r.setRawData data n o e).method = r.method := rfl
@[simp] theorem version_setRawData (data n o e) :
    (r.setRawData data n o e).version = r.version := rfl
@[simp] theorem uri_setRawData (data n o e) : (r.setRawData data n o e).uri = r.uri := rfl
@[simp] theorem path_setRawData (data n o e) : (r.setRawData data n o e).path = r.path := rfl
@[simp] theorem headers_setRawData (data n o e) :
    (r.setRawData data n o e).headers = r.headers := rfl
@[simp] theorem contentLength_setRawData (data n o e) :
    (r.setRawData data n o e).contentLength = r.contentLength := rfl

@[simp] theorem headersParsed_ensureHeadersParsed :
    r.ensureHeadersParsed.headersParsed = true := by
  unfold ensureHeadersParsed
  split
  next h => exact h
  next h =>
    split
    · rfl
    · split <;> rfl

/-- Parsing the headers touches nothing but the headers. -/
theorem ensureHeadersParsed_eq :
    r.ensureHeadersParsed =
      { r with headersParsed := true, headers := r.ensureHeadersParsed.headers } := by
  unfold ensureHeadersParsed
  split
  next h => simp [← h]
  next h =>
    split
    · rfl
    · split <;> rfl

@[simp] theorem ensureHeadersParsed_idem :
    r.ensureHeadersParsed.ensureHeadersParsed = r.ensureHeadersParsed :=
  if_pos r.headersParsed_ensureHeadersParsed

@[simp] theorem method_ensureHeadersParsed : r.ensureHeadersParsed.method = r.method := by
  rw [ensureHeadersParsed_eq]
@[simp] theorem version_ensureHeadersParsed : r.ensureHeadersParsed.version = r.version := by
  rw [ensureHeadersParsed_eq]
@[simp] theorem uri_ensureHeadersParsed : r.ensureHeadersParsed.uri = r.uri := by
  rw [ensureHeadersParsed_eq]
@[simp] theorem path_ensureHeadersParsed : r.ensureHeadersParsed.path = r.path := by
  rw [ensureHeadersParsed_eq]

@[simp] theorem rawData_ensureHeadersParsed : r.ensureHeadersParsed.rawData = r.rawData := by
  rw [ensureHeadersParsed_eq]
@[simp] theorem rawDataLen_ensureHeadersParsed :
    r.ensureHeadersParsed.rawDataLen = r.rawDataLen := by rw [ensureHeadersParsed_eq]
@[simp] theorem headerEnd_ensureHeadersParsed :
    r.ensureHeadersParsed.headerEnd = r.headerEnd := by rw [ensureHeadersParsed_eq]
@[simp] theorem bodyParsed_ensureHeadersParsed :
    r.ensureHeadersParsed.bodyParsed = r.bodyParsed := by rw [ensureHeadersParsed_eq]
@[simp] theorem contentLength_ensureHeadersParsed :
    r.ensureHeadersParsed.contentLength = r.contentLength := by rw [ensureHeadersParsed_eq]

/-- The headers of a freshly attached message come behind the ones already there. -/
theorem headers_ensureHeadersParsed_setRawData (data : Bytes) (n : ℕ) (o : List HeaderEntry)
    (e : ℕ) : (r.setRawData data n o e).ensureHeadersParsed.headers =
      r.headers ++ o.map (readHeader data) := by
  cases o <;> simp [ensureHeadersParsed, setRawData]

end HttpRequest

end XNetty
