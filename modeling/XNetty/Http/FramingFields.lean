import XNetty.Http.Reader

/-!
# Fields that frame a response

`serialize` adds `Content-Length`, `Content-Type` and `Connection` where it takes them to be
missing. It looks at three flags for that, which only some setters raise and only for one spelling,
while the headers keep every spelling of a name for itself.

## Main definitions

* `FieldCall` — the calls that decide about the fields of a response.
* `HttpResponse.FramedOnce` — no field of these three names goes out twice.
* `Unrepeated` — what the calls have to keep to.
* `framedOnce_iff` — exactly then it is so.
-/

namespace XNetty

def contentTypeName : Bytes := ascii "content-type"

/-- The name that is read of the line of a header with this key. -/
def wireName (key : Bytes) : Bytes := (key.takeWhile (· ≠ 58)).map toLower

theorem nameIs_asRead (name : Bytes) (kv : Bytes × Bytes) :
    NameIs name (asRead kv) ↔ wireName kv.1 = name := by
  rw [NameIs, asRead_name]
  rfl

/-- At most one field of each name that frames the response, as they are read line by line. -/
def HttpResponse.FramedOnce (r : HttpResponse) : Prop :=
  ∀ name ∈ [contentLengthName, contentTypeName, connectionName],
    (r.fields.map asRead).countP (NameIs name ·) ≤ 1

/-- Without CR in keys and values, a reader of the header section finds these fields. -/
theorem HttpResponse.readFields_serialized {r : HttpResponse}
    (hsafe : ∀ kv ∈ r.fields, 13 ∉ kv.1 ∧ 13 ∉ kv.2) :
    Reader.readFields (r.fields.length + 1) (r.serialized.drop r.statusLine.length) =
      some (r.fields.map asRead, r.body) := by
  have htext : r.serialized.drop r.statusLine.length =
      fieldLines r.fields ++ 13 :: 10 :: r.body := by
    rw [r.serialized_eq, List.append_assoc, List.append_assoc, List.drop_left]
    rfl
  rw [htext, readFields_fieldLines hsafe (Nat.lt_succ_self _)]

/-! ### The calls -/

inductive FieldCall where
  | setHeader (key value : Bytes)
  | setContentType (type : Bytes)
  | setContentLength (len : ℕ)
  | setContent (data : Bytes)
  | setKeepAlive (ka : Bool)
  deriving DecidableEq

namespace FieldCall

def apply (r : HttpResponse) : FieldCall → HttpResponse
  | .setHeader key value => r.setHeader key value
  | .setContentType type => r.setContentType type
  | .setContentLength len => r.setContentLength len
  | .setContent data => r.setContent data
  | .setKeepAlive ka => r.setKeepAlive ka

/-- The key of the header that the call sets. -/
def key? : FieldCall → Option Bytes
  | .setHeader key _ => some key
  | .setContentType _ => some (ascii "Content-Type")
  | .setContentLength _ => some (ascii "Content-Length")
  | _ => none

def content? : FieldCall → Option Bytes
  | .setContent data => some data
  | _ => none

def isSetContentLength : FieldCall → Bool
  | .setContentLength _ => true
  | _ => false

def isSetContentType : FieldCall → Bool
  | .setContentType _ => true
  | _ => false

end FieldCall

/-- The response after the calls. -/
def HttpResponse.afterCalls (calls : List FieldCall) : HttpResponse :=
  calls.foldl FieldCall.apply {}

/-- The keys of these calls that are read as this name. -/
def givenKeys (calls : List FieldCall) (name : Bytes) : List Bytes :=
  (calls.filterMap FieldCall.key?).filter (wireName · = name)

def lastContent (calls : List FieldCall) : Bytes :=
  (calls.filterMap FieldCall.content?).getLast?.getD []

/-- Each name is spelled in one way only, `Connection` with its capital; and where there is a
content, a length or type is given by the setter made for it or not at all. -/
structure Unrepeated (calls : List FieldCall) : Prop where
  length : ∀ k ∈ givenKeys calls contentLengthName, ∀ k' ∈ givenKeys calls contentLengthName, k = k'
  type : ∀ k ∈ givenKeys calls contentTypeName, ∀ k' ∈ givenKeys calls contentTypeName, k = k'
  ownLength : lastContent calls ≠ [] → calls.any FieldCall.isSetContentLength = false →
    givenKeys calls contentLengthName = []
  ownType : lastContent calls ≠ [] → calls.any FieldCall.isSetContentType = false →
    givenKeys calls contentTypeName = []
  connection : ∀ k ∈ givenKeys calls connectionName, k = ascii "Connection"

/-! ### What the calls leave -/

theorem mem_keys_putHeader (key value : Bytes) (kvs : List (Bytes × Bytes)) (k : Bytes) :
    k ∈ (putHeader key value kvs).map Prod.fst ↔ k = key ∨ k ∈ kvs.map Prod.fst := by
  induction kvs with
  | nil => simp [putHeader]
  | cons kv kvs ih =>
    rw [putHeader]
    split
    next hkey => simp [hkey]
    next => simp only [List.map_cons, List.mem_cons, ih, or_left_comm]

/-- No key is there twice. -/
theorem nodup_keys_putHeader {kvs : List (Bytes × Bytes)} (h : (kvs.map Prod.fst).Nodup)
    (key value : Bytes) : ((putHeader key value kvs).map Prod.fst).Nodup := by
  induction kvs with
  | nil => simp [putHeader]
  | cons kv kvs ih =>
    obtain ⟨hkv, hkvs⟩ := List.nodup_cons.mp h
    rw [putHeader]
    split
    next hkey =>
      subst hkey
      exact h
    next hkey =>
      refine List.nodup_cons.mpr ⟨fun hmem => ?_, ih hkvs⟩
      rcases (mem_keys_putHeader key value kvs kv.1).mp hmem with heq | hmem
      · exact hkey heq
      · exact hkv hmem

section apply

variable (r : HttpResponse) (c : FieldCall)

theorem mem_keys_apply (k : Bytes) :
    k ∈ (c.apply r).headers.map Prod.fst ↔ k ∈ r.headers.map Prod.fst ∨ c.key? = some k := by
  cases c with
  | setHeader key value =>
    refine (mem_keys_putHeader key value r.headers k).trans ?_
    simp [FieldCall.key?, or_comm, eq_comm]
  | setContentType type =>
    refine (mem_keys_putHeader _ type r.headers k).trans ?_
    simp only [FieldCall.key?, Option.some.injEq]
    rw [or_comm, eq_comm]
  | setContentLength len =>
    refine (mem_keys_putHeader _ _ r.headers k).trans ?_
    simp only [FieldCall.key?, Option.some.injEq]
    rw [or_comm, eq_comm]
  | setContent data => exact (or_iff_left (by simp [FieldCall.key?])).symm
  | setKeepAlive ka => exact (or_iff_left (by simp [FieldCall.key?])).symm

variable {r} in
theorem nodup_keys_apply (h : (r.headers.map Prod.fst).Nodup) :
    ((c.apply r).headers.map Prod.fst).Nodup := by
  cases c with
  | setHeader key value => exact nodup_keys_putHeader h key value
  | setContentType type => exact nodup_keys_putHeader h _ type
  | setContentLength len => exact nodup_keys_putHeader h _ _
  | setContent data => exact h
  | setKeepAlive ka => exact h

theorem contentLengthSet_apply :
    (c.apply r).contentLengthSet = (r.contentLengthSet || c.isSetContentLength) := by
  cases c <;> simp [FieldCall.apply, FieldCall.isSetContentLength, HttpResponse.setHeader,
    HttpResponse.setContentType, HttpResponse.setContentLength, HttpResponse.setContent,
    HttpResponse.setKeepAlive]

theorem contentTypeSet_apply :
    (c.apply r).contentTypeSet = (r.contentTypeSet || c.isSetContentType) := by
  cases c <;> simp [FieldCall.apply, FieldCall.isSetContentType, HttpResponse.setHeader,
    HttpResponse.setContentType, HttpResponse.setContentLength, HttpResponse.setContent,
    HttpResponse.setKeepAlive]

/-- Only `setHeader` raises the flag, which is the only one to set this key. -/
theorem connectionSet_apply : (c.apply r).connectionSet = true ↔
    r.connectionSet = true ∨ c.key? = some (ascii "Connection") := by
  have htype : ascii "Content-Type" ≠ ascii "Connection" := by decide
  have hlength : ascii "Content-Length" ≠ ascii "Connection" := by decide
  cases c <;> simp [FieldCall.apply, FieldCall.key?, HttpResponse.setHeader, htype, hlength,
    HttpResponse.setContentType, HttpResponse.setContentLength, HttpResponse.setContent,
    HttpResponse.setKeepAlive]

theorem body_apply : (c.apply r).body = c.content?.getD r.body := by
  cases c <;> rfl

theorem lastContent_append (calls : List FieldCall) :
    lastContent (calls ++ [c]) = c.content?.getD (lastContent calls) := by
  unfold lastContent
  cases hc : c.content? <;> simp [hc]

end apply

/-- **The response after the calls**: its keys are those that have been given, each of them once,
and its flags and content are those of the calls. -/
structure Reflects (r : HttpResponse) (calls : List FieldCall) : Prop where
  keys : ∀ k, k ∈ r.headers.map Prod.fst ↔ k ∈ calls.filterMap FieldCall.key?
  nodup : (r.headers.map Prod.fst).Nodup
  contentLengthSet : r.contentLengthSet = calls.any FieldCall.isSetContentLength
  contentTypeSet : r.contentTypeSet = calls.any FieldCall.isSetContentType
  connectionSet : r.connectionSet = true ↔ ascii "Connection" ∈ calls.filterMap FieldCall.key?
  body : r.body = lastContent calls

theorem mem_filterMap_append (calls : List FieldCall) (c : FieldCall) (k : Bytes) :
    k ∈ (calls ++ [c]).filterMap FieldCall.key? ↔
      k ∈ calls.filterMap FieldCall.key? ∨ c.key? = some k := by
  simp only [List.mem_filterMap, List.mem_append, List.mem_singleton, or_and_right, exists_or,
    exists_eq_left]

/-- **One call.** -/
theorem Reflects.apply {r : HttpResponse} {calls : List FieldCall} (h : Reflects r calls)
    (c : FieldCall) : Reflects (c.apply r) (calls ++ [c]) where
  keys k := by rw [mem_keys_apply, h.keys, mem_filterMap_append]
  nodup := nodup_keys_apply c h.nodup
  contentLengthSet := by
    rw [contentLengthSet_apply, h.contentLengthSet, List.any_append, List.any_cons, List.any_nil,
      Bool.or_false]
  contentTypeSet := by
    rw [contentTypeSet_apply, h.contentTypeSet, List.any_append, List.any_cons, List.any_nil,
      Bool.or_false]
  connectionSet := by rw [connectionSet_apply, h.connectionSet, mem_filterMap_append]
  body := by rw [body_apply, h.body, lastContent_append]

/-- **Every sequence of calls.** -/
theorem reflects_afterCalls (calls : List FieldCall) : Reflects (.afterCalls calls) calls := by
  induction calls using List.reverseRecOn with
  | nil =>
    have hnew : HttpResponse.afterCalls [] = {} := rfl
    rw [hnew]
    exact ⟨by simp, by simp, rfl, rfl, by simp, rfl⟩
  | append_singleton calls c ih =>
    have happly : HttpResponse.afterCalls (calls ++ [c]) = c.apply (.afterCalls calls) := by
      simp [HttpResponse.afterCalls]
    rw [happly]
    exact ih.apply c

/-! ### How often a name goes out -/

theorem countP_asRead (name : Bytes) (kvs : List (Bytes × Bytes)) :
    (kvs.map asRead).countP (NameIs name ·) = (kvs.map Prod.fst).countP (wireName · = name) := by
  rw [List.countP_map, List.countP_map]
  refine List.countP_congr fun kv _ => ?_
  simp [nameIs_asRead]

/-- Of keys that differ, at most one has a property exactly if no two that have it do. -/
theorem countP_le_one_iff {α : Type*} {l : List α} (hnodup : l.Nodup) (p : α → Bool) :
    l.countP p ≤ 1 ↔ ∀ a ∈ l.filter p, ∀ b ∈ l.filter p, a = b := by
  have hfilter := hnodup.filter p
  rw [List.countP_eq_length_filter]
  match l.filter p, hfilter with
  | [], _ => simp
  | [a], _ => simp
  | a :: b :: rest, hfilter =>
    refine iff_of_false (by simp) fun hall => ?_
    have hab : a ≠ b := fun heq => (List.nodup_cons.mp hfilter).1 (by simp [heq])
    exact hab (hall a (by simp) b (by simp))

/-- The keys that `serialize` adds. -/
theorem keys_ownFields (r : HttpResponse) : r.ownFields.map Prod.fst =
    (if !r.contentLengthSet && r.body.length > 0 then [ascii "Content-Length"] else []) ++
    (if !r.contentTypeSet && r.body.length > 0 then [ascii "Content-Type"] else []) ++
    (if !r.connectionSet then [ascii "Connection"] else []) := by
  unfold HttpResponse.ownFields
  rw [List.map_append, List.map_append]
  congr 1
  · congr 1 <;> split <;> rfl
  · split <;> rfl

/-- `serialize` adds a field of each name once, or not at all. -/
theorem countP_ownFields (r : HttpResponse) :
    (r.ownFields.map Prod.fst).countP (wireName · = contentLengthName) =
        (if !r.contentLengthSet && r.body.length > 0 then 1 else 0) ∧
      (r.ownFields.map Prod.fst).countP (wireName · = contentTypeName) =
        (if !r.contentTypeSet && r.body.length > 0 then 1 else 0) ∧
      (r.ownFields.map Prod.fst).countP (wireName · = connectionName) =
        (if !r.connectionSet then 1 else 0) := by
  have hlength : wireName (ascii "Content-Length") = contentLengthName := by decide
  have htype : wireName (ascii "Content-Type") = contentTypeName := by decide
  have hconnection : wireName (ascii "Connection") = connectionName := by decide
  have hdiffer : contentLengthName ≠ contentTypeName ∧ contentLengthName ≠ connectionName ∧
      contentTypeName ≠ connectionName := by decide
  rw [keys_ownFields]
  simp only [List.countP_append]
  refine ⟨?_, ?_, ?_⟩ <;>
  · split <;> split <;> split <;>
      simp [hlength, htype, hconnection, hdiffer, hdiffer.1.symm, hdiffer.2.1.symm,
        hdiffer.2.2.symm]

variable {r : HttpResponse} {calls : List FieldCall}

theorem Reflects.mem_givenKeys (h : Reflects r calls) (name k : Bytes) :
    k ∈ (r.headers.map Prod.fst).filter (wireName · = name) ↔ k ∈ givenKeys calls name := by
  rw [givenKeys, List.mem_filter, List.mem_filter, h.keys]

/-- A name goes out at most once exactly if its keys are the same one, and there are none where
`serialize` adds one. -/
theorem Reflects.countP_le_one_iff (h : Reflects r calls) (name : Bytes) {own : Prop}
    [Decidable own]
    (hown : (r.ownFields.map Prod.fst).countP (wireName · = name) = if own then 1 else 0) :
    (r.fields.map asRead).countP (NameIs name ·) ≤ 1 ↔
      (∀ k ∈ givenKeys calls name, ∀ k' ∈ givenKeys calls name, k = k') ∧
        (own → givenKeys calls name = []) := by
  have hsplit : (r.headers.map Prod.fst).countP (wireName · = name) + (if own then 1 else 0) ≤ 1 ↔
      (r.headers.map Prod.fst).countP (wireName · = name) ≤ 1 ∧
        (own → (r.headers.map Prod.fst).countP (wireName · = name) = 0) := by
    by_cases hadded : own
    · simp only [hadded, if_true, true_implies]
      omega
    · simp only [hadded, if_false, false_implies, and_true, Nat.add_zero]
  have hnone : (r.headers.map Prod.fst).countP (wireName · = name) = 0 ↔
      givenKeys calls name = [] := by
    rw [List.countP_eq_length_filter, List.length_eq_zero_iff, List.eq_nil_iff_forall_not_mem,
      List.eq_nil_iff_forall_not_mem]
    simp only [h.mem_givenKeys]
  rw [countP_asRead, HttpResponse.fields, List.map_append, List.countP_append, hown, hsplit, hnone,
    XNetty.countP_le_one_iff h.nodup]
  simp only [h.mem_givenKeys]

/-- Every key that is read as `Connection` is the one that keeps `serialize` from adding another. -/
theorem Reflects.connection_iff (h : Reflects r calls) :
    ((∀ k ∈ givenKeys calls connectionName, ∀ k' ∈ givenKeys calls connectionName, k = k') ∧
        ((!r.connectionSet) = true → givenKeys calls connectionName = [])) ↔
      ∀ k ∈ givenKeys calls connectionName, k = ascii "Connection" := by
  have hname : wireName (ascii "Connection") = connectionName := by decide
  have hset : r.connectionSet = true ↔ ascii "Connection" ∈ givenKeys calls connectionName := by
    rw [h.connectionSet, givenKeys, List.mem_filter, decide_eq_true_eq, and_iff_left hname]
  constructor
  · intro ⟨hsame, hnone⟩ k hk
    by_cases hconnection : r.connectionSet = true
    · exact hsame k hk _ (hset.mp hconnection)
    · rw [hnone (by simpa using hconnection)] at hk
      exact absurd hk List.not_mem_nil
  · intro hall
    refine ⟨fun k hk k' hk' => (hall k hk).trans (hall k' hk').symm, fun hconnection => ?_⟩
    by_contra hne
    obtain ⟨k, hk⟩ := List.exists_mem_of_ne_nil _ hne
    rw [hall k hk] at hk
    simp [hset.mpr hk] at hconnection

/-- **No framing field goes out twice** exactly if the calls keep to one spelling and one way of
setting it. -/
theorem framedOnce_iff (calls : List FieldCall) :
    let r := HttpResponse.afterCalls calls
    r.serialized = r.statusLine ++ fieldLines r.fields ++ [13, 10] ++ r.body ∧
      (r.FramedOnce ↔ Unrepeated calls) := by
  intro r
  have h : Reflects r calls := reflects_afterCalls calls
  obtain ⟨hlength, htype, hconnection⟩ := countP_ownFields r
  refine ⟨r.serialized_eq, ?_⟩
  unfold HttpResponse.FramedOnce
  simp only [List.forall_mem_cons, List.not_mem_nil, false_implies, implies_true, and_true]
  rw [h.countP_le_one_iff contentLengthName hlength, h.countP_le_one_iff contentTypeName htype,
    h.countP_le_one_iff connectionName hconnection, h.connection_iff]
  have hown (set : Bool) : (!set && r.body.length > 0) = true ↔
      lastContent calls ≠ [] ∧ set = false := by
    rw [Bool.and_eq_true, Bool.not_eq_true', decide_eq_true_eq, h.body, gt_iff_lt,
      List.length_pos_iff, and_comm]
  rw [hown, hown, h.contentLengthSet, h.contentTypeSet]
  constructor
  · rintro ⟨⟨hl, hlOwn⟩, ⟨ht, htOwn⟩, hc⟩
    exact ⟨hl, ht, fun hbody hset => hlOwn ⟨hbody, hset⟩, fun hbody hset => htOwn ⟨hbody, hset⟩, hc⟩
  · intro hall
    exact ⟨⟨hall.length, fun hown => hall.ownLength hown.1 hown.2⟩,
      ⟨hall.type, fun hown => hall.ownType hown.1 hown.2⟩, hall.connection⟩

/-- A length that is given as a header and then added for the body, and a second `Connection` in
another spelling. -/
theorem not_framedOnce :
    ¬ (HttpResponse.afterCalls [.setHeader (ascii "Content-Length") (ascii "5"),
        .setContent (ascii "hello, world")]).FramedOnce ∧
      ¬ (HttpResponse.afterCalls [.setHeader (ascii "connection") (ascii "close")]).FramedOnce := by
  constructor
  · intro h
    exact absurd (h contentLengthName (by simp)) (by decide +kernel)
  · intro h
    exact absurd (h connectionName (by simp)) (by decide +kernel)

end XNetty
