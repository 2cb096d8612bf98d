import XNetty.Http.Codings
import XNetty.Http.Reader
import XNetty.Http.Request

/-!
# Connections that are to be closed

`hasConnectionClose` has two bodies. Before the headers are parsed it looks at the bytes, and the
first `Connection` decides by the beginning of its value. Afterwards it takes any name of ten bytes
that begins with a `c` for `Connection`, and any longer value that begins with `cl` for `close`.

## Main definitions

* `HttpRequest.ofHeaders` — a request attached to a header block.
* `ListsClose` — some `Connection` lists `close`.
* `HttpRequest.OneMeaning` — both bodies say whether one does.
* `HttpRequest.oneMeaning_iff` — when they do.
-/

namespace XNetty

/-! ### Header blocks -/

/-- The places of names and values in the text of a header section that begins at `start`. -/
def spans (start : ℕ) : List (Bytes × Bytes) → List HeaderEntry
  | [] => []
  | kv :: hs =>
    { offset := start, keyLen := kv.1.length, valueLen := kv.2.length } ::
      spans (start + (fieldLine kv).length + 2) hs

/-- A request attached to the text of some headers, with a request line before them. -/
def HttpRequest.ofHeaders (before : Bytes) (hs : List (Bytes × Bytes)) (after : Bytes) :
    HttpRequest :=
  let data := before ++ fieldLines hs ++ after
  ({} : HttpRequest).setRawData data data.length (spans before.length hs)
    (before.length + (fieldLines hs).length)

/-- Some field of this name has `close` in its list. -/
def ListsClose (hs : List (Bytes × Bytes)) : Prop :=
  ∃ kv ∈ hs, NameIs connectionName kv ∧ ascii "close" ∈ elements kv.2

/-- The first `Connection` has a value that begins with `clos`. -/
def BeginsClosing (hs : List (Bytes × Bytes)) : Prop :=
  ∃ kv, hs.find? (NameIs connectionName ·) = some kv ∧ (kv.2.take 4).map toLower = ascii "clos"

/-- Some name of ten bytes begins with `c`, and its value, of four bytes or more, with `cl`. -/
def LooksClosing (hs : List (Bytes × Bytes)) : Prop :=
  ∃ kv ∈ hs, (kv.1.length = 10 ∧ (kv.1.take 1).map toLower = ascii "c") ∧
    4 ≤ kv.2.length ∧ (kv.2.take 2).map toLower = ascii "cl"

instance (hs : List (Bytes × Bytes)) : Decidable (ListsClose hs) :=
  inferInstanceAs (Decidable (∃ _ ∈ _, _ ∧ _))

instance (hs : List (Bytes × Bytes)) : Decidable (LooksClosing hs) :=
  inferInstanceAs (Decidable (∃ _ ∈ _, _ ∧ _))

/-! ### Letters -/

/-- Setting the bit is lowering the case, unless neither gives a letter. -/
theorem orBit5_or_toLower (c : UInt8) :
    HttpRequest.orBit5 c = toLower c ∨
      ¬(97 ≤ HttpRequest.orBit5 c ∧ HttpRequest.orBit5 c ≤ 122) ∧
        ¬(97 ≤ toLower c ∧ toLower c ≤ 122) := by
  have hall : ∀ n : Fin 256,
      HttpRequest.orBit5 (UInt8.ofNat n.val) = toLower (UInt8.ofNat n.val) ∨
        ¬(97 ≤ HttpRequest.orBit5 (UInt8.ofNat n.val) ∧
            HttpRequest.orBit5 (UInt8.ofNat n.val) ≤ 122) ∧
          ¬(97 ≤ toLower (UInt8.ofNat n.val) ∧ toLower (UInt8.ofNat n.val) ≤ 122) := by
    decide +kernel
  simpa using hall ⟨c.toNat, c.toNat_lt⟩

theorem orBit5_eq_iff {l : UInt8} (hl : l ∈ ascii "connectionclose") (c : UInt8) :
    HttpRequest.orBit5 c = l ↔ toLower c = l := by
  have hletter : ∀ l ∈ ascii "connectionclose", 97 ≤ l ∧ l ≤ 122 := by decide +kernel
  rcases orBit5_or_toLower c with h | ⟨hbit, hlower⟩
  · rw [h]
  · constructor
    · rintro rfl
      exact absurd (hletter _ hl) hbit
    · rintro rfl
      exact absurd (hletter _ hl) hlower

theorem map_orBit5_eq_iff {word : Bytes} (hword : word ⊆ ascii "connectionclose") (xs : Bytes) :
    xs.map HttpRequest.orBit5 = word ↔ xs.map toLower = word := by
  induction xs generalizing word with
  | nil => rfl
  | cons x xs ih =>
    cases word with
    | nil => simp
    | cons l word =>
      obtain ⟨hl, hword⟩ := List.cons_subset.mp hword
      rw [List.map_cons, List.map_cons, List.cons.injEq, List.cons.injEq, orBit5_eq_iff hl,
        ih hword]

/-! ### Reading the block -/

theorem substr_name (before name rest : Bytes) :
    substr (before ++ (name ++ rest)) before.length name.length = name := by
  rw [substr, List.drop_left, List.take_left]

/-- The beginning of a value, two bytes behind the name. -/
theorem substr_value (before : Bytes) (kv : Bytes × Bytes) (rest : Bytes) {n : ℕ}
    (hn : n ≤ kv.2.length) :
    substr (before ++ (fieldLine kv ++ rest)) (before.length + kv.1.length + 2) n =
      kv.2.take n := by
  have hline : before ++ (fieldLine kv ++ rest) =
      (before ++ kv.1 ++ ascii ": ") ++ (kv.2 ++ rest) := by
    simp [fieldLine]
  have hlen : (before ++ kv.1 ++ ascii ": ").length = before.length + kv.1.length + 2 := by
    simp only [List.length_append]
    rfl
  rw [substr, hline, ← hlen, List.drop_left, List.take_append_of_le_length hn]

/-- The text behind a line is that of the other headers. -/
theorem fieldLines_cons_split (before : Bytes) (kv : Bytes × Bytes) (hs : List (Bytes × Bytes))
    (after : Bytes) :
    before ++ fieldLines (kv :: hs) ++ after =
        before ++ (fieldLine kv ++ ([13, 10] ++ fieldLines hs ++ after)) ∧
      before ++ fieldLines (kv :: hs) ++ after =
        (before ++ fieldLine kv ++ [13, 10]) ++ fieldLines hs ++ after := by
  simp [fieldLines]

theorem length_behind (before : Bytes) (kv : Bytes × Bytes) :
    (before ++ fieldLine kv ++ [13, 10]).length = before.length + (fieldLine kv).length + 2 := by
  simp only [List.length_append]
  rfl

/-- The name in front of a line. -/
theorem substr_fieldLine (before : Bytes) (kv : Bytes × Bytes) (rest : Bytes) :
    substr (before ++ (fieldLine kv ++ rest)) before.length kv.1.length = kv.1 := by
  have hline : fieldLine kv ++ rest = kv.1 ++ (58 :: 32 :: (kv.2 ++ rest)) := by
    simp [fieldLine_eq]
  rw [hline, substr_name]

/-- **The spans** lead back to the headers. -/
theorem map_readHeader_spans (before : Bytes) (hs : List (Bytes × Bytes)) (after : Bytes) :
    (spans before.length hs).map (HttpRequest.readHeader (before ++ fieldLines hs ++ after)) =
      hs := by
  induction hs generalizing before with
  | nil => rfl
  | cons kv hs ih =>
    obtain ⟨hhere, hbehind⟩ := fieldLines_cons_split before kv hs after
    have hrest := ih (before ++ fieldLine kv ++ [13, 10])
    rw [length_behind, ← hbehind] at hrest
    rw [spans, List.map_cons, hrest, hhere, HttpRequest.readHeader, substr_fieldLine,
      substr_value before kv _ le_rfl, List.take_length]

/-- The name test on the bytes is the one that ignores case. -/
theorem isConnection_iff (before : Bytes) (kv : Bytes × Bytes) (rest : Bytes) :
    (kv.1.length = 10 ∧ (substr (before ++ (fieldLine kv ++ rest)) before.length 10).map
        HttpRequest.orBit5 = ascii "connection") ↔ NameIs connectionName kv := by
  have hword : ascii "connection" ⊆ ascii "connectionclose" := by decide
  rw [map_orBit5_eq_iff hword]
  have hname := substr_fieldLine before kv rest
  constructor
  · intro ⟨hlen, h⟩
    rw [← hlen, hname] at h
    exact h
  · intro h
    have hlen : kv.1.length = 10 := by
      rw [← List.length_map (f := toLower), show kv.1.map toLower = connectionName from h]
      rfl
    rw [hlen] at hname
    exact ⟨hlen, by rw [hname]; exact h⟩

/-- The value test on the bytes. -/
theorem beginsClos_iff (before : Bytes) (kv : Bytes × Bytes) (rest : Bytes)
    (hlen : kv.1.length = 10) :
    (4 ≤ kv.2.length ∧ (substr (before ++ (fieldLine kv ++ rest)) (before.length + 12) 4).map
        HttpRequest.orBit5 = ascii "clos") ↔ (kv.2.take 4).map toLower = ascii "clos" := by
  have hword : ascii "clos" ⊆ ascii "connectionclose" := by decide
  rw [map_orBit5_eq_iff hword]
  constructor
  · intro ⟨hle, h⟩
    have hvalue := substr_value before kv rest hle
    rw [hlen] at hvalue
    rw [← hvalue]
    exact h
  · intro h
    have hle : 4 ≤ kv.2.length := by
      have hfour := congrArg List.length h
      rw [List.length_map, List.length_take] at hfour
      have hclos : (ascii "clos").length = 4 := rfl
      omega
    have hvalue := substr_value before kv rest hle
    rw [hlen] at hvalue
    exact ⟨hle, by rw [hvalue]; exact h⟩

/-- **On the bytes** the first `Connection` decides. -/
theorem rawConnectionClose_iff (before : Bytes) (hs : List (Bytes × Bytes)) (after : Bytes) :
    HttpRequest.rawConnectionClose (before ++ fieldLines hs ++ after) (spans before.length hs) =
      true ↔ BeginsClosing hs := by
  induction hs generalizing before with
  | nil => simp [spans, HttpRequest.rawConnectionClose, BeginsClosing]
  | cons kv hs ih =>
    obtain ⟨hhere, hbehind⟩ := fieldLines_cons_split before kv hs after
    have hrest := ih (before ++ fieldLine kv ++ [13, 10])
    rw [length_behind, ← hbehind] at hrest
    rw [spans, HttpRequest.rawConnectionClose]
    dsimp only
    by_cases hname : NameIs connectionName kv
    · have htest := (isConnection_iff before kv ([13, 10] ++ fieldLines hs ++ after)).mpr hname
      have hvalue := beginsClos_iff before kv ([13, 10] ++ fieldLines hs ++ after) htest.1
      rw [← hhere] at htest hvalue
      rw [if_pos htest, Bool.and_eq_true, decide_eq_true_eq, decide_eq_true_eq, ge_iff_le, hvalue]
      simp [BeginsClosing, hname]
    · have htest := mt (isConnection_iff before kv ([13, 10] ++ fieldLines hs ++ after)).mp hname
      rw [← hhere] at htest
      rw [if_neg htest, hrest]
      simp [BeginsClosing, hname]

/-! ### The two bodies -/

/-- What follows from the name, and from the beginning of the value. -/
theorem BeginsClosing.looks {hs : List (Bytes × Bytes)} (h : BeginsClosing hs) :
    LooksClosing hs := by
  obtain ⟨kv, hfind, hclos⟩ := h
  have hmatch := List.find?_some hfind
  have hname : kv.1.map toLower = connectionName := of_decide_eq_true hmatch
  have hlen := congrArg List.length hname
  have hfour := congrArg List.length hclos
  have hfirst := congrArg (List.take 1) hname
  have htwo := congrArg (List.take 2) hclos
  rw [List.length_map] at hlen
  rw [List.length_map, List.length_take] at hfour
  rw [← List.map_take] at hfirst
  rw [← List.map_take, List.take_take] at htwo
  have hclosLen : (ascii "clos").length = 4 := rfl
  exact ⟨kv, List.mem_of_find?_eq_some hfind, ⟨hlen, hfirst⟩, by omega, htwo⟩

namespace HttpRequest

variable (before : Bytes) (hs : List (Bytes × Bytes)) (after : Bytes)

theorem hasConnectionClose_before :
    (ofHeaders before hs after).hasConnectionClose = true ↔ BeginsClosing hs :=
  rawConnectionClose_iff before hs after

/-- **On the headers** any of them decides. -/
theorem hasConnectionClose_after :
    (ofHeaders before hs after).ensureHeadersParsed.hasConnectionClose = true ↔
      LooksClosing hs := by
  have hheaders : (ofHeaders before hs after).ensureHeadersParsed.headers = hs := by
    rw [ofHeaders, headers_ensureHeadersParsed_setRawData, map_readHeader_spans]
    rfl
  have hc : ascii "c" ⊆ ascii "connectionclose" := by decide
  have hcl : ascii "cl" ⊆ ascii "connectionclose" := by decide
  unfold hasConnectionClose
  rw [if_pos (headersParsed_ensureHeadersParsed _), hheaders, List.any_eq_true]
  unfold LooksClosing
  refine exists_congr fun kv => and_congr_right fun _ => ?_
  have hfirst : kv.1.head?.map orBit5 = some 99 ↔ (kv.1.take 1).map toLower = ascii "c" := by
    rw [← map_orBit5_eq_iff hc]
    cases kv.1 with
    | nil => decide
    | cons b name =>
      have hletter : ascii "c" = [99] := by decide
      simp [hletter]
  rw [decide_eq_true_eq, hfirst, map_orBit5_eq_iff hcl, ge_iff_le, and_assoc]

/-- The answer does not depend on whether the headers have been parsed, and tells whether some
`Connection` lists `close`. -/
def OneMeaning (req : HttpRequest) (hs : List (Bytes × Bytes)) : Prop :=
  req.hasConnectionClose = req.ensureHeadersParsed.hasConnectionClose ∧
    (req.hasConnectionClose = true ↔ ListsClose hs)

/-- **One meaning**: some `Connection` lists `close` and the value of the first one begins with
`clos`, or none does and nothing looks like it. -/
theorem oneMeaning_iff :
    (ofHeaders before hs after).OneMeaning hs ↔
      (ListsClose hs ∧ BeginsClosing hs) ∨ (¬ ListsClose hs ∧ ¬ LooksClosing hs) := by
  have hfast := hasConnectionClose_before before hs after
  have hslow := hasConnectionClose_after before hs after
  have hlooks := @BeginsClosing.looks hs
  unfold OneMeaning
  rw [Bool.eq_iff_iff, hfast, hslow]
  tauto

/-- A list in which `close` comes second is overlooked both times, and a second `Connection` before
the headers are parsed only. -/
theorem not_oneMeaning :
    ¬ (ofHeaders [] [(ascii "Connection", ascii "keep-alive, close")] []).OneMeaning
        [(ascii "Connection", ascii "keep-alive, close")] ∧
      ¬ (ofHeaders [] [(ascii "Connection", ascii "keep-alive"),
          (ascii "Connection", ascii "close")] []).OneMeaning
        [(ascii "Connection", ascii "keep-alive"), (ascii "Connection", ascii "close")] := by
  constructor
  · intro h
    exact absurd (h.2.mpr (by decide +kernel)) (by decide +kernel)
  · intro h
    exact absurd h.1 (by decide +kernel)

end HttpRequest

end XNetty
