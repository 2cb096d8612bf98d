import XNetty.Http.Reader

/-!
# Responses that delimit themselves

Responses follow each other on a connection that is kept alive, so a reader has to tell where
each one ends. `HttpResponse::serialize` announces the length of a body that is not empty, and
says nothing of an empty one.

## Main definitions

* `Setter.Allowed` — the calls that leave the framing to `serialize`.
* `SelfDelimiting` — the lists of responses that come back as they were sent.
-/

namespace XNetty

/-- No CR and no LF. -/
def LineSafe (text : Bytes) : Prop := 13 ∉ text ∧ 10 ∉ text

/-- Final statuses, and headers that fit on a line and do not frame the message. -/
def Setter.Allowed : Setter → Prop
  | .setStatus status => status ∈ HttpStatus.all ∧ 200 ≤ status.code
  | .setHeader key value =>
    LineSafe key ∧ LineSafe value ∧
      key.map toLower ∉ [contentLengthName, transferEncodingName, connectionName]
  | .setContentType type => LineSafe type
  | .setContentLength => False
  | .setContent _ => True

instance (text : Bytes) : Decidable (LineSafe text) := inferInstanceAs (Decidable (_ ∧ _))

instance : DecidablePred Setter.Allowed := fun setter =>
  match setter with
  | .setStatus _ => inferInstanceAs (Decidable (_ ∧ _))
  | .setHeader _ _ => inferInstanceAs (Decidable (_ ∧ _ ∧ _))
  | .setContentType type => inferInstanceAs (Decidable (LineSafe type))
  | .setContentLength => .isFalse id
  | .setContent _ => .isTrue trivial

/-- `serialize` of each response into one buffer. -/
def serializeAll (rs : List HttpResponse) : Bytes :=
  (rs.foldl (fun buf r => r.serialize buf) (ByteBuf.ofCapacity 512)).readable

theorem serializeAll_eq (rs : List HttpResponse) :
    serializeAll rs = rs.flatMap HttpResponse.serialized := by
  have hfold (buf : ByteBuf) : (rs.foldl (fun buf r => r.serialize buf) buf).readable =
      buf.readable ++ rs.flatMap HttpResponse.serialized := by
    induction rs generalizing buf with
    | nil => simp
    | cons r rs ih =>
      rw [List.foldl_cons, ih, HttpResponse.readable_serialize, List.flatMap_cons,
        List.append_assoc]
  simpa [serializeAll] using hfold (.ofCapacity 512)

/-! ### Responses built by allowed calls -/

/-- The status line of a status, without its end. -/
def HttpStatus.line (s : HttpStatus) : Bytes :=
  ascii "HTTP/1.1 " ++ ascii (toString s.code) ++ ascii " " ++ s.reason

/-- A response whose framing was left to `serialize`. -/
structure HttpResponse.Plain (r : HttpResponse) : Prop where
  status : r.status ∈ HttpStatus.all ∧ 200 ≤ r.status.code
  statusLine : r.statusLine = r.status.line ++ [13, 10]
  headers : ∀ kv ∈ r.headers, 13 ∉ kv.1 ∧ 13 ∉ kv.2 ∧
    kv.1.map toLower ∉ [contentLengthName, transferEncodingName, connectionName]
  contentLengthSet : r.contentLengthSet = false
  connectionSet : r.connectionSet = false
  keepAlive : r.keepAlive = true

theorem plain_new : ({} : HttpResponse).Plain where
  status := ⟨by decide +kernel, by decide⟩
  statusLine := by decide +kernel
  headers := fun kv h => absurd h List.not_mem_nil
  contentLengthSet := rfl
  connectionSet := rfl
  keepAlive := rfl

theorem HttpResponse.Plain.apply {r : HttpResponse} (h : r.Plain) {setter : Setter}
    (hallowed : setter.Allowed) : (setter.apply r).Plain := by
  cases setter with
  | setStatus status =>
    exact { h with status := hallowed, statusLine := rfl }
  | setHeader key value =>
    obtain ⟨hkey, hvalue, hname⟩ := hallowed
    refine { h with headers := fun kv hkv => ?_, connectionSet := ?_ }
    · rcases mem_putHeader hkv with rfl | hkv
      · exact ⟨hkey.1, hvalue.1, hname⟩
      · exact h.headers kv hkv
    · have hother : key ≠ ascii "Connection" := by
        rintro rfl
        exact hname (by decide)
      change (r.connectionSet || decide (key = ascii "Connection")) = false
      rw [h.connectionSet, Bool.false_or, decide_eq_false hother]
  | setContentType type =>
    refine { h with headers := fun kv hkv => ?_ }
    rcases mem_putHeader hkv with rfl | hkv
    · have hname : 13 ∉ ascii "Content-Type" ∧ (ascii "Content-Type").map toLower ∉
          [contentLengthName, transferEncodingName, connectionName] := by decide
      exact ⟨hname.1, hallowed.1, hname.2⟩
    · exact h.headers kv hkv
  | setContentLength => exact hallowed.elim
  | setContent body => exact { h with }

theorem plain_build {setters : List Setter} (hallowed : ∀ setter ∈ setters, setter.Allowed) :
    (HttpResponse.build setters).Plain := by
  induction setters using List.reverseRecOn with
  | nil => exact plain_new
  | append_singleton setters setter ih =>
    rw [List.forall_mem_append, List.forall_mem_singleton] at hallowed
    rw [HttpResponse.build, List.foldl_append]
    exact (ih hallowed.1).apply hallowed.2

/-! ### Reading one of them -/

/-- Every final status has a line that is read back. -/
theorem readCode_line {s : HttpStatus} (hs : s ∈ HttpStatus.all ∧ 200 ≤ s.code) :
    13 ∉ s.line ∧ Reader.readCode s.line = some s.code := by
  have hall : ∀ s ∈ HttpStatus.all, 200 ≤ s.code →
      13 ∉ s.line ∧ Reader.readCode s.line = some s.code := by decide +kernel
  exact hall s hs.1 hs.2

theorem digit_of_mem {n : ℕ} {b : UInt8} (hb : b ∈ ascii (toString n)) : 48 ≤ b ∧ b ≤ 57 :=
  Lines.mem_of_foldlM (Lines.foldlM_decimal n) (ascii_toString n ▸ hb)

namespace HttpResponse

variable {r : HttpResponse}

theorem Plain.ownFields_eq (h : r.Plain) : r.ownFields =
    (if r.body = [] then [] else [(ascii "Content-Length", ascii (toString r.body.length))]) ++
    (if r.contentTypeSet || r.body = [] then [] else
      [(ascii "Content-Type", ascii "text/plain")]) ++
    [(ascii "Connection", ascii "keep-alive")] := by
  rw [ownFields, h.contentLengthSet, h.connectionSet, h.keepAlive]
  cases hbody : r.body with
  | nil => simp
  | cons b body => cases r.contentTypeSet <;> simp

theorem Plain.fields_safe (h : r.Plain) : ∀ kv ∈ r.fields, 13 ∉ kv.1 ∧ 13 ∉ kv.2 := by
  intro kv hkv
  rcases List.mem_append.mp hkv with hkv | hkv
  · exact ⟨(h.headers kv hkv).1, (h.headers kv hkv).2.1⟩
  · rw [h.ownFields_eq] at hkv
    have hdigits : 13 ∉ ascii (toString r.body.length) := fun hmem =>
      absurd (digit_of_mem hmem).1 (by decide)
    have hnames : 13 ∉ ascii "Content-Length" ∧ 13 ∉ ascii "Content-Type" ∧
        13 ∉ ascii "text/plain" ∧ 13 ∉ ascii "Connection" ∧ 13 ∉ ascii "keep-alive" := by decide
    simp only [List.mem_append, List.mem_ite_nil_left, List.mem_singleton] at hkv
    rcases hkv with (⟨-, rfl⟩ | ⟨-, rfl⟩) | rfl
    · exact ⟨hnames.1, hdigits⟩
    · exact ⟨hnames.2.1, hnames.2.2.1⟩
    · exact hnames.2.2.2

/-- **The head of a response is read as it was written.** -/
theorem Plain.readHead (h : r.Plain) (rest : Bytes) :
    Reader.readHead (r.serialized ++ rest) =
      some (r.status.code, r.fields.map asRead, r.body ++ rest) := by
  obtain ⟨hline, hcode⟩ := readCode_line h.status
  have htext : r.serialized ++ rest =
      r.status.line ++ 13 :: 10 :: (fieldLines r.fields ++ 13 :: 10 :: (r.body ++ rest)) := by
    rw [serialized_eq, h.statusLine]
    simp
  have hfields : r.fields.length < (r.serialized ++ rest).length := by
    have hlong := length_le_fieldLines r.fields
    rw [htext]
    simp only [List.length_append, List.length_cons]
    omega
  have hread := readFields_fieldLines h.fields_safe hfields (r.body ++ rest)
  rw [Reader.readHead, htext, Lines.cut_append hline]
  dsimp only
  rw [← htext, hcode, hread]

end HttpResponse

/-! ### Where the body ends -/

/-- A header whose name was given with a colon in it, and is read as one that frames. -/
def Misnamed (kv : Bytes × Bytes) : Prop :=
  NameIs contentLengthName (asRead kv) ∨ NameIs transferEncodingName (asRead kv)

instance (kv : Bytes × Bytes) : Decidable (Misnamed kv) := inferInstanceAs (Decidable (_ ∨ _))

theorem Reader.lengths_append (kvs kvs' : List (Bytes × Bytes)) :
    lengths (kvs ++ kvs') = lengths kvs ++ lengths kvs' := by
  simp [lengths]

/-- The lengths that are read, and the fields they are read from. -/
theorem mem_lengths_asRead {length : Option ℕ} {kvs : List (Bytes × Bytes)} :
    length ∈ Reader.lengths (kvs.map asRead) ↔
      ∃ kv ∈ kvs, NameIs contentLengthName (asRead kv) ∧ Lines.number (asRead kv).2 = length := by
  constructor
  · intro h
    obtain ⟨read, hread, rfl⟩ := List.mem_map.mp h
    obtain ⟨hread, hname⟩ := List.mem_filter.mp hread
    obtain ⟨kv, hkv, rfl⟩ := List.mem_map.mp hread
    exact ⟨kv, hkv, of_decide_eq_true hname, rfl⟩
  · rintro ⟨kv, hkv, hname, rfl⟩
    apply List.mem_map_of_mem
    exact List.mem_filter.mpr ⟨List.mem_map_of_mem hkv, decide_eq_true hname⟩

namespace HttpResponse

variable {r : HttpResponse}

theorem Plain.own_lengths (h : r.Plain) : Reader.lengths (r.ownFields.map asRead) =
    if r.body = [] then [] else [some r.body.length] := by
  have hlength : Reader.lengths [asRead (ascii "Content-Length",
      ascii (toString r.body.length))] = [some r.body.length] := by
    have hname : NameIs contentLengthName
        (ascii "Content-Length", ascii (toString r.body.length)) :=
      show (ascii "Content-Length").map toLower = contentLengthName by decide
    rw [asRead_contentLength, Reader.lengths, List.filter_singleton, decide_eq_true hname,
      cond_true, List.map_singleton, ascii_toString, Lines.number_decimal]
  have htype : Reader.lengths [asRead (ascii "Content-Type", ascii "text/plain")] = [] := by
    decide
  have hconnection : Reader.lengths [asRead (ascii "Connection", ascii "keep-alive")] = [] := by
    decide
  rw [h.ownFields_eq, List.map_append, List.map_append, Reader.lengths_append,
    Reader.lengths_append, List.map_singleton, hconnection, List.append_nil]
  by_cases hbody : r.body = []
  · simp [hbody, Reader.lengths]
  · rw [if_neg hbody, if_neg hbody, List.map_singleton, hlength]
    cases r.contentTypeSet
    · rw [Bool.false_or, if_neg (by simpa using hbody), List.map_singleton, htype]
      rfl
    · rfl

theorem Plain.own_transferEncoding (h : r.Plain) :
    ∀ kv ∈ r.ownFields.map asRead, ¬ NameIs transferEncodingName kv := by
  intro kv hkv
  obtain ⟨own, hown, rfl⟩ := List.mem_map.mp hkv
  have hnames : (ascii "Content-Length").map toLower ≠ transferEncodingName ∧
      (ascii "Content-Type").map toLower ≠ transferEncodingName ∧
      (ascii "Connection").map toLower ≠ transferEncodingName := by decide
  have hwhole : (ascii "Content-Length").takeWhile (· ≠ 58) = ascii "Content-Length" ∧
      (ascii "Content-Type").takeWhile (· ≠ 58) = ascii "Content-Type" ∧
      (ascii "Connection").takeWhile (· ≠ 58) = ascii "Connection" := by decide
  rw [h.ownFields_eq] at hown
  simp only [List.mem_append, List.mem_ite_nil_left, List.mem_singleton] at hown
  unfold NameIs
  rw [asRead_name]
  rcases hown with (⟨-, rfl⟩ | ⟨-, rfl⟩) | rfl
  · rw [hwhole.1]
    exact hnames.1
  · rw [hwhole.2.1]
    exact hnames.2.1
  · rw [hwhole.2.2]
    exact hnames.2.2

/-- The value of a misnamed `Content-Length` has a colon in it. -/
theorem Plain.header_number (h : r.Plain) {kv : Bytes × Bytes} (hkv : kv ∈ r.headers)
    (hname : NameIs contentLengthName (asRead kv)) : Lines.number (asRead kv).2 = none := by
  have hother : kv.1.takeWhile (· ≠ 58) ≠ kv.1 := by
    intro hwhole
    apply (h.headers kv hkv).2.2
    rw [NameIs, asRead_name, hwhole] at hname
    rw [hname]
    exact List.mem_cons_self
  exact Lines.number_eq_none (colon_mem_asRead (mem_of_takeWhile_ne hother)) (by decide)

/-- Only a header that was set is read as a `Transfer-Encoding`. -/
theorem Plain.exists_transferEncoding (h : r.Plain) :
    (∃ kv ∈ r.fields.map asRead, NameIs transferEncodingName kv) ↔
      ∃ kv ∈ r.headers, NameIs transferEncodingName (asRead kv) := by
  constructor
  · rintro ⟨kv, hkv, hname⟩
    rw [fields, List.map_append, List.mem_append] at hkv
    rcases hkv with hkv | hkv
    · obtain ⟨header, hheader, rfl⟩ := List.mem_map.mp hkv
      exact ⟨header, hheader, hname⟩
    · exact absurd hname (h.own_transferEncoding kv hkv)
  · rintro ⟨header, hheader, hname⟩
    exact ⟨asRead header, List.mem_map_of_mem (List.mem_append_left _ hheader), hname⟩

/-- **Where a reader lets the body end.** -/
theorem Plain.bodyLength (h : r.Plain) (hbody : ¬ Reader.Bodiless r.status.code) :
    Reader.bodyLength r.status.code (r.fields.map asRead) =
      if ∃ kv ∈ r.headers, Misnamed kv then .invalid
      else if r.body = [] then .untilClose else .sized r.body.length := by
  have hlengths : Reader.lengths (r.fields.map asRead) =
      Reader.lengths (r.headers.map asRead) ++
        if r.body = [] then [] else [some r.body.length] := by
    rw [fields, List.map_append, Reader.lengths_append, h.own_lengths]
  rw [Reader.bodyLength, if_neg hbody]
  by_cases hte : ∃ kv ∈ r.headers, NameIs transferEncodingName (asRead kv)
  · rw [if_pos (h.exists_transferEncoding.mpr hte)]
    obtain ⟨kv, hkv, hname⟩ := hte
    rw [if_pos ⟨kv, hkv, .inr hname⟩]
  · rw [if_neg (h.exists_transferEncoding.not.mpr hte), hlengths]
    cases hheaders : Reader.lengths (r.headers.map asRead) with
    | nil =>
      have hplain : ¬ ∃ kv ∈ r.headers, Misnamed kv := by
        rintro ⟨kv, hkv, hname | hname⟩
        · have hmem := mem_lengths_asRead.mpr ⟨kv, hkv, hname, rfl⟩
          rw [hheaders] at hmem
          exact absurd hmem List.not_mem_nil
        · exact hte ⟨kv, hkv, hname⟩
      rw [if_neg hplain]
      by_cases hempty : r.body = []
      · simp [hempty]
      · simp [hempty]
    | cons length lengths =>
      have hmem : length ∈ Reader.lengths (r.headers.map asRead) := by
        rw [hheaders]
        exact List.mem_cons_self
      obtain ⟨kv, hkv, hname, rfl⟩ := mem_lengths_asRead.mp hmem
      have hmisnamed : ∃ kv ∈ r.headers, Misnamed kv := ⟨kv, hkv, .inl hname⟩
      rw [if_pos hmisnamed, h.header_number hkv hname]
      rfl

end HttpResponse

/-! ### Reading them all -/

/-- The responses that come back as they were sent: each has a status without body, or no
misnamed header, and a body unless it is the last one. -/
def SelfDelimiting : List HttpResponse → Prop
  | [] => True
  | r :: rs =>
    (Reader.Bodiless r.status.code ∨
      (∀ kv ∈ r.headers, ¬ Misnamed kv) ∧ (r.body ≠ [] ∨ rs = [])) ∧ SelfDelimiting rs

def HttpResponse.reply (r : HttpResponse) : Reply := { code := r.status.code, body := r.body }

namespace HttpResponse

variable {r : HttpResponse}

/-- A response in front of the text is read up to where its body is taken to end. -/
theorem Plain.readReplies (h : r.Plain) (fuel : ℕ) (rest : Bytes) :
    Reader.readReplies (fuel + 1) (r.serialized ++ rest) =
      match Reader.bodyLength r.status.code (r.fields.map asRead) with
      | .sized n =>
        if n ≤ (r.body ++ rest).length then
          (Reader.readReplies fuel ((r.body ++ rest).drop n)).map
            ({ code := r.status.code, body := (r.body ++ rest).take n } :: ·)
        else none
      | .untilClose => some [{ code := r.status.code, body := r.body ++ rest }]
      | .invalid => none := by
  obtain ⟨b, text, htext⟩ : ∃ b text, r.serialized ++ rest = b :: text :=
    List.exists_cons_of_ne_nil (List.append_ne_nil_of_left_ne_nil r.serialized_ne_nil _)
  have hhead := h.readHead rest
  rw [htext, Reader.readReplies, ← htext]
  generalize Reader.readHead (r.serialized ++ rest) = head at hhead ⊢
  subst hhead
  rfl

/-- A length that is right separates the response from what follows. -/
theorem Plain.readReplies_sized (h : r.Plain)
    (hlength : Reader.bodyLength r.status.code (r.fields.map asRead) = .sized r.body.length)
    (fuel : ℕ) (rest : Bytes) : Reader.readReplies (fuel + 1) (r.serialized ++ rest) =
      (Reader.readReplies fuel rest).map (r.reply :: ·) := by
  rw [h.readReplies, hlength]
  dsimp only
  rw [if_pos (by simp), List.drop_left, List.take_left]
  rfl

end HttpResponse

/-- A response that is read as it was sent leaves the rest to be. -/
theorem map_cons_eq_some_iff {r : HttpResponse} {rs : List HttpResponse}
    {read : Option (List Reply)} :
    read.map (r.reply :: ·) = some ((r :: rs).map HttpResponse.reply) ↔
      read = some (rs.map HttpResponse.reply) := by
  simp

theorem readReplies_iff {rs : List HttpResponse} (hplain : ∀ r ∈ rs, r.Plain)
    (hempty : ∀ r ∈ rs, Reader.Bodiless r.status.code → r.body = []) {fuel : ℕ}
    (hfuel : rs.length < fuel) :
    Reader.readReplies fuel (rs.flatMap HttpResponse.serialized) =
      some (rs.map HttpResponse.reply) ↔ SelfDelimiting rs := by
  induction rs generalizing fuel with
  | nil =>
    obtain ⟨fuel, rfl⟩ := Nat.exists_eq_succ_of_ne_zero (by omega : fuel ≠ 0)
    exact iff_of_true rfl trivial
  | cons r rs ih =>
    obtain ⟨fuel, rfl⟩ := Nat.exists_eq_succ_of_ne_zero (by omega : fuel ≠ 0)
    obtain ⟨hr, hrs⟩ := List.forall_mem_cons.mp hplain
    obtain ⟨hempty, hemptys⟩ := List.forall_mem_cons.mp hempty
    have hrest := ih hrs hemptys (show rs.length < fuel by simpa using hfuel)
    rw [List.flatMap_cons, SelfDelimiting]
    by_cases hbodiless : Reader.Bodiless r.status.code
    · have hlength : Reader.bodyLength r.status.code (r.fields.map asRead) =
          .sized r.body.length := by
        rw [hempty hbodiless]
        exact if_pos hbodiless
      rw [hr.readReplies_sized hlength, map_cons_eq_some_iff, hrest,
        and_iff_right (Or.inl hbodiless)]
    · have hlength := hr.bodyLength hbodiless
      rw [or_iff_right hbodiless]
      by_cases hmisnamed : ∃ kv ∈ r.headers, Misnamed kv
      · rw [if_pos hmisnamed] at hlength
        obtain ⟨kv, hkv, hname⟩ := hmisnamed
        rw [hr.readReplies, hlength]
        exact iff_of_false (fun h => by cases h) fun h => h.1.1 kv hkv hname
      · rw [if_neg hmisnamed] at hlength
        have hnames : ∀ kv ∈ r.headers, ¬ Misnamed kv := fun kv hkv hname =>
          hmisnamed ⟨kv, hkv, hname⟩
        rw [and_iff_right hnames]
        by_cases hbody : r.body = []
        · -- an empty body goes on until the connection closes
          rw [if_pos hbody] at hlength
          rw [hr.readReplies, hlength, hbody, List.nil_append]
          dsimp only
          cases rs with
          | nil =>
            exact iff_of_true (by simp [HttpResponse.reply, hbody]) ⟨.inr rfl, trivial⟩
          | cons next rs =>
            refine iff_of_false (fun h => ?_) fun h => ?_
            · have hlength := congrArg List.length (Option.some.inj h)
              simp at hlength
            · rcases h.1 with hne | hnil
              · exact hne rfl
              · cases hnil
        · rw [if_neg hbody] at hlength
          rw [hr.readReplies_sized hlength, map_cons_eq_some_iff, hrest,
            and_iff_right (Or.inl hbody)]

theorem length_le_serialized (rs : List HttpResponse) :
    rs.length ≤ (rs.flatMap HttpResponse.serialized).length := by
  induction rs with
  | nil => exact le_rfl
  | cons r rs ih =>
    have hpos := List.length_pos_iff.mpr r.serialized_ne_nil
    rw [List.flatMap_cons, List.length_append, List.length_cons]
    omega

/-- **When responses delimit themselves.** A reader gets back the statuses and bodies of a list
of responses exactly when each of them has a status without body, or no header whose name was
given with a colon and is read as a framing one, and a body unless it is the last. -/
theorem readAll_serializeAll_iff {lists : List (List Setter)}
    (hallowed : ∀ setters ∈ lists, ∀ setter ∈ setters, setter.Allowed)
    (hempty : ∀ setters ∈ lists, Reader.Bodiless (HttpResponse.build setters).status.code →
      (HttpResponse.build setters).body = []) :
    Reader.readAll (serializeAll (lists.map HttpResponse.build)) =
        some ((lists.map HttpResponse.build).map HttpResponse.reply) ↔
      SelfDelimiting (lists.map HttpResponse.build) := by
  rw [serializeAll_eq, Reader.readAll]
  refine readReplies_iff (fun r hr => ?_) (fun r hr => ?_)
    (Nat.lt_succ_of_le (length_le_serialized _))
  all_goals
    obtain ⟨setters, hsetters, rfl⟩ := List.mem_map.mp hr
  · exact plain_build (hallowed setters hsetters)
  · exact hempty setters hsetters

/-- A page that was not found, an answer without content, and one with nothing to say at the
end. -/
theorem readAll_serializeAll_iff_three :
    Reader.readAll (serializeAll
      ([[.setStatus .notFound, .setHeader (ascii "X-Trace") (ascii "7"), .setContent (ascii "no")],
        [.setStatus .noContent], []].map HttpResponse.build)) =
      some [{ code := 404, body := ascii "no" }, { code := 204, body := [] },
        { code := 200, body := [] }] :=
  (readAll_serializeAll_iff (by decide +kernel) (by decide +kernel)).mpr
    ⟨.inr ⟨by decide +kernel, .inl (by decide)⟩, .inl (by decide), .inr ⟨by decide, .inr rfl⟩,
      trivial⟩

/-- Two responses with nothing in them: the second is taken for the body of the first. -/
theorem not_readAll_empty :
    Reader.readAll (serializeAll ([[], []].map HttpResponse.build)) =
        some [{ code := 200, body := (HttpResponse.build []).serialized }] ∧
      Reader.readAll (serializeAll ([[], []].map HttpResponse.build)) ≠
        some (([[], []].map HttpResponse.build).map HttpResponse.reply) := by
  constructor <;> decide +kernel

end XNetty
