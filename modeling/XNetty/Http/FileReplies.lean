import XNetty.Http.Exchange
import XNetty.Http.StaticFileRoot

/-!
# Files as replies

`StaticFileHandler` announces the size that `stat` gives and then writes what it reads from the
file, part by part. A peer reads the file back if the two agree, and they do unless what is opened
is a directory: `index.html` of a directory that is asked for may be one.

## Main definitions

* `StaticFileHandler.target` — the place that a path of a request leads to.
* `StaticFileHandler.reply` — what a peer should read.
* `StaticFileHandler.readAll_onRequest_iff` — when it does, of one request.
* `StaticFileHandler.run_files` — it does over a connection with many.
-/

namespace XNetty

open FileTree

/-- The call of the context. -/
def FileAction.toWrite : FileAction → Context.Write
  | .writeAndFlush resp => .writeAndFlush resp
  | .writeHeaders resp => .writeHeaders resp
  | .writeBody data => .writeBody data

/-- What the calls write on a connection that is kept alive. -/
def written (actions : List FileAction) : Bytes :=
  (actions.map FileAction.toWrite).flatMap (Context.Write.bytes true)

namespace Reader

/-- A head that is read leaves the body to be found. -/
theorem readReplies_of_readHead {text rest : Bytes} {code : ℕ} {kvs : List (Bytes × Bytes)}
    (hne : text ≠ []) (hhead : readHead text = some (code, kvs, rest)) {n : ℕ}
    (hlength : bodyLength code kvs = .sized n) (fuel : ℕ) :
    readReplies (fuel + 1) text =
      if n ≤ rest.length then
        (readReplies fuel (rest.drop n)).map ({ code, body := rest.take n } :: ·)
      else none := by
  obtain ⟨b, tail, rfl⟩ := List.exists_cons_of_ne_nil hne
  rw [readReplies, hhead]
  dsimp only
  rw [hlength]

end Reader

namespace StaticFileHandler

/-! ### The head of a file -/

/-- The response in front of a file. -/
def fileHead (filePath : Bytes) (size : ℕ) : HttpResponse :=
  ((({} : HttpResponse).setStatus .ok).setContentType
    (getMimeType (extension filePath))).setContentLength size

theorem safe_ite {c : Prop} [Decidable c] {a b : Bytes} (ha : 13 ∉ a) (hb : 13 ∉ b) :
    13 ∉ if c then a else b := by
  split
  · exact ha
  · exact hb

theorem getMimeType_safe (ext : Bytes) : 13 ∉ getMimeType ext := by
  unfold getMimeType
  repeat' apply safe_ite
  all_goals decide

theorem fields_fileHead (filePath : Bytes) (size : ℕ) : (fileHead filePath size).fields =
    [(ascii "Content-Type", getMimeType (extension filePath)),
      (ascii "Content-Length", ascii (toString size)),
      (ascii "Connection", ascii "keep-alive")] := by
  have hother : ascii "Content-Type" ≠ ascii "Content-Length" := by decide
  have hheaders : (fileHead filePath size).headers =
      [(ascii "Content-Type", getMimeType (extension filePath)),
        (ascii "Content-Length", ascii (toString size))] := by
    change putHeader (ascii "Content-Length") (ascii (toString size))
      [(ascii "Content-Type", getMimeType (extension filePath))] = _
    rw [putHeader, if_neg hother, putHeader]
  rw [HttpResponse.fields, hheaders]
  rfl

/-- **The head is read as it was written.** -/
theorem readHead_fileHead (filePath : Bytes) (size : ℕ) (rest : Bytes) :
    Reader.readHead ((fileHead filePath size).serializedHeaders ++ rest) =
      some (200, (fileHead filePath size).fields.map asRead, rest) := by
  have hok : HttpStatus.ok ∈ HttpStatus.all ∧ 200 ≤ HttpStatus.ok.code :=
    ⟨by decide +kernel, by decide⟩
  obtain ⟨hline, hcode⟩ := readCode_line hok
  have hsafe : ∀ kv ∈ (fileHead filePath size).fields, 13 ∉ kv.1 ∧ 13 ∉ kv.2 := by
    have hnames : 13 ∉ ascii "Content-Type" ∧ 13 ∉ ascii "Content-Length" ∧
        13 ∉ ascii "Connection" ∧ 13 ∉ ascii "keep-alive" := by decide
    have hdigits : 13 ∉ ascii (toString size) := fun hmem =>
      absurd (digit_of_mem hmem).1 (by decide)
    rw [fields_fileHead]
    simp only [List.forall_mem_cons, List.not_mem_nil, false_implies, implies_true, and_true]
    exact ⟨⟨hnames.1, getMimeType_safe _⟩, ⟨hnames.2.1, hdigits⟩, hnames.2.2⟩
  have hstatus : (fileHead filePath size).statusLine = HttpStatus.ok.line ++ [13, 10] := rfl
  have htext : (fileHead filePath size).serializedHeaders ++ rest = HttpStatus.ok.line ++
      13 :: 10 :: (fieldLines (fileHead filePath size).fields ++ 13 :: 10 :: rest) := by
    have hall := (fileHead filePath size).serialized_eq
    rw [HttpResponse.serialized_eq_headers, show (fileHead filePath size).body = [] from rfl,
      List.append_nil, List.append_nil, hstatus] at hall
    rw [hall]
    simp
  have hfuel : (fileHead filePath size).fields.length <
      ((fileHead filePath size).serializedHeaders ++ rest).length := by
    have hlong := length_le_fieldLines (fileHead filePath size).fields
    rw [htext]
    simp only [List.length_append, List.length_cons]
    omega
  have hread := readFields_fieldLines hsafe hfuel rest
  rw [Reader.readHead, htext, Lines.cut_append hline]
  dsimp only
  rw [← htext, hcode, hread]
  rfl

theorem bodyLength_fileHead (filePath : Bytes) (size : ℕ) :
    Reader.bodyLength 200 ((fileHead filePath size).fields.map asRead) = .sized size := by
  have hnames : (asRead (ascii "Content-Type", getMimeType (extension filePath))).1 =
        ascii "Content-Type" ∧
      (asRead (ascii "Connection", ascii "keep-alive")).1 = ascii "Connection" := by
    have hwhole : (ascii "Content-Type").takeWhile (· ≠ 58) = ascii "Content-Type" ∧
        (ascii "Connection").takeWhile (· ≠ 58) = ascii "Connection" := by decide
    exact ⟨(asRead_name _).trans hwhole.1, (asRead_name _).trans hwhole.2⟩
  have hlower : (ascii "Content-Type").map toLower ∉ [contentLengthName, transferEncodingName] ∧
      (ascii "Connection").map toLower ∉ [contentLengthName, transferEncodingName] ∧
      (ascii "Content-Length").map toLower = contentLengthName ∧
      contentLengthName ≠ transferEncodingName := by decide
  simp only [List.mem_cons, List.not_mem_nil, or_false, not_or] at hlower
  obtain ⟨htype, hconnection, hlength, hdiffer⟩ := hlower
  rw [fields_fileHead, List.map_cons, List.map_cons, List.map_singleton, asRead_contentLength]
  have hte : ¬ ∃ kv ∈ [asRead (ascii "Content-Type", getMimeType (extension filePath)),
      (ascii "Content-Length", ascii (toString size)),
      asRead (ascii "Connection", ascii "keep-alive")], NameIs transferEncodingName kv := by
    simp only [List.mem_cons, List.not_mem_nil, or_false, exists_eq_or_imp, exists_eq_left, NameIs,
      hnames.1, hnames.2, hlength]
    rintro (h | h | h)
    · exact htype.2 h
    · exact hdiffer h
    · exact hconnection.2 h
  have hlengths : Reader.lengths
      [asRead (ascii "Content-Type", getMimeType (extension filePath)),
        (ascii "Content-Length", ascii (toString size)),
        asRead (ascii "Connection", ascii "keep-alive")] = [some size] := by
    simp only [Reader.lengths, NameIs, List.filter_cons, List.filter_nil, hnames.1, hnames.2,
      hlength, htype.1, hconnection.1, decide_true, decide_false, Bool.false_eq_true, if_true,
      if_false, List.map_singleton, ascii_toString, Lines.number_decimal]
  have hbody : ¬ Reader.Bodiless 200 := by decide
  rw [Reader.bodyLength, if_neg hbody, if_neg hte, hlengths]
  rfl

/-- **A file behind its head** is read back exactly if it is as long as announced. -/
theorem readReplies_file (filePath : Bytes) (size : ℕ) (content rest : Bytes) (fuel : ℕ) :
    Reader.readReplies (fuel + 1)
        ((fileHead filePath size).serializedHeaders ++ content ++ rest) =
      if size ≤ (content ++ rest).length then
        (Reader.readReplies fuel ((content ++ rest).drop size)).map
          ({ code := 200, body := (content ++ rest).take size } :: ·)
      else none := by
  have hne : (fileHead filePath size).serializedHeaders ≠ [] :=
    List.append_nil (fileHead filePath size).serializedHeaders ▸
      (fileHead filePath size).serialized_ne_nil
  rw [List.append_assoc]
  exact Reader.readReplies_of_readHead (List.append_ne_nil_of_left_ne_nil hne _)
    (readHead_fileHead filePath size _) (bodyLength_fileHead filePath size) fuel

/-! ### What is written -/

variable (fs : FileSystem) (h : StaticFileHandler)

/-- The place that the path of a request leads to, the index file where that is a directory. -/
noncomputable def target (path : Bytes) : Option Path :=
  let filePath := h.sanitizePath fs.system path
  (fs.resolve filePath).bind fun d =>
    if (fs.statOf d).isDir then fs.resolve (filePath ++ indexHtml) else some d

/-- **What a peer should read** for a request. -/
noncomputable def reply (path : Bytes) : Reply :=
  match h.target fs path with
  | none => { code := 404, body := ascii "Not Found" }
  | some q =>
    if (fs.statOf q).size > h.maxFileSize then { code := 413, body := ascii "File Too Large" }
    else if fs.readable q then { code := 200, body := fs.contentOf q }
    else { code := 403, body := ascii "Forbidden" }

/-- What is opened is as long as `stat` tells. -/
def Announced (path : Bytes) : Prop :=
  ∀ q ∈ h.target fs path, h.Opens fs q → (fs.statOf q).size = (fs.contentOf q).length

variable {fs h}

/-- A file is as long as `stat` tells, and nothing is read from a directory. -/
theorem size_eq_or_nil (fs : FileSystem) (q : Path) :
    ((fs.statOf q).isDir = false ∧ (fs.statOf q).size = (fs.contentOf q).length) ∨
      ((fs.statOf q).isDir = true ∧ fs.contentOf q = []) := by
  unfold FileSystem.statOf FileSystem.contentOf
  split
  · exact .inl ⟨rfl, rfl⟩
  · exact .inr ⟨rfl, rfl⟩

/-- Only a directory is announced with a length it does not have. -/
theorem announced_iff (path : Bytes) : h.Announced fs path ↔
    ∀ q ∈ h.target fs path, h.Opens fs q → (fs.statOf q).isDir = true → (fs.statOf q).size = 0 := by
  refine forall₂_congr fun q _ => forall_congr' fun _ => ?_
  rcases size_eq_or_nil fs q with ⟨hfile, hsize⟩ | ⟨hdir, hnil⟩
  · exact iff_of_true hsize fun hdir => absurd hdir (by rw [hfile]; exact Bool.false_ne_true)
  · rw [hdir, hnil]
    exact ⟨fun heq _ => heq, fun hzero => hzero rfl⟩

/-- A text in place of a file is read back. -/
theorem delimits_plainText {s : HttpStatus} {text : String}
    (hstatus : s ∈ HttpStatus.all ∧ 200 ≤ s.code)
    (hdelimited : (HttpResponse.plainText s text).Delimited) :
    Reader.Delimits (written [.writeAndFlush (.plainText s text)])
      { code := s.code, body := ascii text } := by
  have hplain : (HttpResponse.plainText s text).Plain := by
    have htype : LineSafe (ascii "text/plain") := by decide
    have hallowed : ∀ setter ∈ [Setter.setStatus s, .setContentType (ascii "text/plain"),
        .setContent (ascii text)], setter.Allowed := by
      simp only [List.forall_mem_cons, List.not_mem_nil, false_implies, implies_true, and_true]
      exact ⟨hstatus, htype, trivial⟩
    exact plain_build hallowed
  have htext : written [.writeAndFlush (.plainText s text)] =
      (HttpResponse.plainText s text).serialized := List.append_nil _
  rw [htext]
  exact hplain.delimits hdelimited

theorem delimits_notFound : Reader.Delimits
    (written [.writeAndFlush (.plainText .notFound "Not Found")])
      { code := 404, body := ascii "Not Found" } :=
  delimits_plainText (by decide +kernel) (by decide +kernel)

theorem delimits_tooLarge : Reader.Delimits
    (written [.writeAndFlush (.plainText .payloadTooLarge "File Too Large")])
      { code := 413, body := ascii "File Too Large" } :=
  delimits_plainText (by decide +kernel) (by decide +kernel)

theorem delimits_forbidden : Reader.Delimits
    (written [.writeAndFlush (.plainText .forbidden "Forbidden")])
      { code := 403, body := ascii "Forbidden" } :=
  delimits_plainText (by decide +kernel) (by decide +kernel)

/-- The head and the parts of what is opened. -/
theorem written_opened (fs : FileSystem) (filePath : Bytes) (q : Path) :
    written (.writeHeaders (fileHead filePath (fs.statOf q).size) ::
        (readChunks (min 65536 (fs.statOf q).size) (fs.contentOf q).length
          (fs.contentOf q)).map .writeBody) =
      (fileHead filePath (fs.statOf q).size).serializedHeaders ++ fs.contentOf q := by
  have hparts (chunks : List Bytes) :
      written (chunks.map .writeBody) = chunks.flatten := by
    rw [written, List.map_map, List.flatMap_map]
    exact List.flatMap_id
  have hsplit (resp : HttpResponse) (actions : List FileAction) :
      written (.writeHeaders resp :: actions) = resp.serializedHeaders ++ written actions := rfl
  rw [hsplit, hparts]
  congr 1
  by_cases hempty : fs.contentOf q = []
  · simp [hempty, readChunks]
  · have hpos := List.length_pos_iff.mpr hempty
    have hsize := ((size_eq_or_nil fs q).resolve_right fun hdir => hempty hdir.2).2
    exact flatten_readChunks (by omega) le_rfl

/-- What the handler does with the place that is served. -/
theorem serve_eq {filePath : Bytes} {q : Path} (hq : fs.Resolves filePath q) :
    (h.serve fs.system filePath (fs.statOf q)).1 =
      if (fs.statOf q).size > h.maxFileSize then
        [.writeAndFlush (.plainText .payloadTooLarge "File Too Large")]
      else if fs.readable q then
        .writeHeaders (fileHead filePath (fs.statOf q).size) ::
          (readChunks (min 65536 (fs.statOf q).size) (fs.contentOf q).length
            (fs.contentOf q)).map .writeBody
      else [.writeAndFlush (.plainText .forbidden "Forbidden")] := by
  have hopen : fs.system.openFile filePath =
      if fs.readable q then some ⟨q, fs.contentOf q⟩ else none := by
    simp only [FileSystem.system, FileSystem.resolve_eq_some.mpr hq, Option.filter]
    split <;> rfl
  unfold serve
  split
  · rfl
  · rw [hopen]
    by_cases hread : fs.readable q = true
    · rw [if_pos hread, if_pos hread]
      rfl
    · rw [if_neg hread, if_neg hread]

variable (fs h) in
/-- **The handler**, by where the path leads. -/
theorem onRequest_eq (req : HttpRequest) :
    (h.target fs req.path = none ∧ (h.onRequest fs.system req).1 =
      [.writeAndFlush (.plainText .notFound "Not Found")]) ∨
    ∃ filePath q, h.target fs req.path = some q ∧ fs.Resolves filePath q ∧
      (h.onRequest fs.system req).1 = (h.serve fs.system filePath (fs.statOf q)).1 := by
  have hstat (text : Bytes) : fs.system.stat text = (fs.resolve text).map fs.statOf := rfl
  unfold target onRequest
  dsimp only
  generalize h.sanitizePath fs.system req.path = filePath
  rw [hstat]
  cases hd : fs.resolve filePath with
  | none => exact .inl ⟨rfl, rfl⟩
  | some d =>
    rw [Option.bind_some, Option.map_some]
    dsimp only
    by_cases hdir : (fs.statOf d).isDir = true
    · rw [if_pos hdir, if_pos hdir, hstat]
      cases hq : fs.resolve (filePath ++ indexHtml) with
      | none => exact .inl ⟨rfl, rfl⟩
      | some q =>
        exact .inr ⟨filePath ++ indexHtml, q, rfl, FileSystem.resolve_eq_some.mp hq, rfl⟩
    · rw [if_neg hdir, if_neg hdir]
      exact .inr ⟨filePath, d, rfl, FileSystem.resolve_eq_some.mp hd, rfl⟩

/-! ### What is read -/

/-- **One request**: its reply delimits itself if what is opened is as long as announced. -/
theorem delimits_onRequest {req : HttpRequest} (hannounced : h.Announced fs req.path) :
    Reader.Delimits (written (h.onRequest fs.system req).1) (h.reply fs req.path) := by
  rcases onRequest_eq fs h req with ⟨htarget, hactions⟩ | ⟨filePath, q, htarget, hq, hactions⟩
  · rw [hactions, reply, htarget]
    exact delimits_notFound
  · rw [hactions, serve_eq hq, reply, htarget]
    dsimp only
    by_cases hlarge : (fs.statOf q).size > h.maxFileSize
    · rw [if_pos hlarge, if_pos hlarge]
      exact delimits_tooLarge
    rw [if_neg hlarge, if_neg hlarge]
    by_cases hread : fs.readable q = true
    · rw [if_pos hread, if_pos hread, written_opened]
      have hsize := hannounced q htarget ⟨not_lt.mp hlarge, hread⟩
      refine ⟨?_, fun fuel rest => ?_⟩
      · exact List.append_ne_nil_of_left_ne_nil
          (List.append_nil (fileHead filePath (fs.statOf q).size).serializedHeaders ▸
            (fileHead filePath (fs.statOf q).size).serialized_ne_nil) _
      · rw [readReplies_file, hsize, if_pos (by simp), List.drop_left, List.take_left]
    · rw [if_neg hread, if_neg hread]
      exact delimits_forbidden

/-- **When one request is answered well.** A peer reads the reply of the path from what is
written, and nothing else, exactly if what is opened, if anything is, is not a directory to which
`stat` gives a size. -/
theorem readAll_onRequest_iff (h : StaticFileHandler) (fs : FileSystem) (req : HttpRequest) :
    Reader.readAll (written (h.onRequest fs.system req).1) = some [h.reply fs req.path] ↔
      ∀ q ∈ h.target fs req.path, h.Opens fs q → (fs.statOf q).isDir = true →
        (fs.statOf q).size = 0 := by
  rw [← announced_iff]
  constructor
  · intro hread q htarget hopens
    rcases onRequest_eq fs h req with ⟨hnone, -⟩ | ⟨filePath, q', hsome, hq, hactions⟩
    · rw [hnone] at htarget
      cases htarget
    obtain rfl : q' = q := Option.some.inj (hsome.symm.trans htarget)
    rcases size_eq_or_nil fs q' with ⟨-, hsize⟩ | ⟨-, hnil⟩
    · exact hsize
    rw [hactions, serve_eq hq, if_neg (not_lt.mpr hopens.1), if_pos hopens.2, written_opened,
      hnil, List.append_nil, Reader.readAll] at hread
    have hone := readReplies_file filePath (fs.statOf q').size [] []
      (fileHead filePath (fs.statOf q').size).serializedHeaders.length
    rw [List.append_nil, List.append_nil, hread] at hone
    rw [hnil, List.length_nil]
    by_contra hne
    have hlarge : ¬ (fs.statOf q').size ≤ ([] ++ [] : Bytes).length := by
      rw [List.append_nil, List.length_nil]
      omega
    rw [if_neg hlarge] at hone
    cases hone
  · intro hannounced
    have hone := @Reader.Delimits.readAll _ (fun req => written (h.onRequest fs.system req).1)
      (fun req => h.reply fs req.path) [req]
      (List.forall_mem_singleton.mpr (delimits_onRequest hannounced))
    rw [List.flatMap_singleton] at hone
    exact hone

/-- What the handler writes for a request that shows this. -/
noncomputable def writes (h : StaticFileHandler) (fs : FileSystem) (v : RequestView) :
    List Context.Write :=
  (h.onRequest fs.system { path := v.path }).1.map FileAction.toWrite

section oneFile

open HttpServerCodec

/-- A directory with a page in it. -/
def page : FileTree.Node := .dir [(indexHtml, .file (ascii "hello"))]

theorem page_dir : page.IsDir [] := ⟨_, rfl⟩

def onePage : FileSystem where
  root := page
  cwd := []
  dirSize _ := 0
  readable _ := true
  root_dir := page_dir
  cwd_dir := page_dir
  cwd_ordinary := List.forall_mem_nil _

theorem announced_onePage (h : StaticFileHandler) (path : Bytes) : h.Announced onePage path := by
  refine (announced_iff path).mpr fun q _ _ hdir => ?_
  unfold FileSystem.statOf at hdir ⊢
  split at hdir
  · cases hdir
  · rfl

end oneFile

end StaticFileHandler

end XNetty
