import Mathlib.Data.List.TakeWhile
import XNetty.Http.Fields
import XNetty.Lib.Lines

/-!
# A reader of responses

What an HTTP/1.1 client makes of the bytes that come in on a connection, up to its end. The
length of a body follows from the status and the fields: some statuses have none, else
`Content-Length` tells it, and without that the body goes on until the connection closes. The
reader knows no transfer coding.

## Main definitions

* `Reader.bodyLength` — where a body ends.
* `Reader.readAll` — the replies in the text of a connection.
* `asRead` — a field of a response, as it is read.
-/

namespace XNetty

structure Reply where
  code : ℕ
  body : Bytes
  deriving DecidableEq

namespace Reader

def isBlank (b : UInt8) : Bool := b = 32 || b = 9

/-- The optional whitespace around a value goes. -/
def trim (v : Bytes) : Bytes := ((v.dropWhile isBlank).reverse.dropWhile isBlank).reverse

/-- A name up to the first colon, and a value behind it. -/
def readField (line : Bytes) : Option (Bytes × Bytes) :=
  if 58 ∈ line then some (line.takeWhile (· ≠ 58), trim (line.dropWhile (· ≠ 58)).tail) else none

/-- The fields up to the empty line, and the text behind it. -/
def readFields : ℕ → Bytes → Option (List (Bytes × Bytes) × Bytes)
  | 0, _ => none
  | fuel + 1, text =>
    match Lines.cut text with
    | none => none
    | some ([], rest) => some ([], rest)
    | some (line, rest) =>
      match readField line, readFields fuel rest with
      | some kv, some (kvs, rest) => some (kv :: kvs, rest)
      | _, _ => none

/-- `HTTP/1.1`, a code of three digits, and a reason. -/
def readCode (line : Bytes) : Option ℕ :=
  if ascii "HTTP/1.1 " <+: line ∧ (line.drop 12).head? = some 32 then
    Lines.number ((line.drop 9).take 3)
  else none

/-- The status and the fields, and the text behind them. -/
def readHead (text : Bytes) : Option (ℕ × List (Bytes × Bytes) × Bytes) :=
  match Lines.cut text with
  | none => none
  | some (line, rest) =>
    match readCode line, readFields text.length rest with
    | some code, some (kvs, rest) => some (code, kvs, rest)
    | _, _ => none

inductive BodyLength where
  | sized (n : ℕ)
  | untilClose
  | invalid
  deriving DecidableEq

/-- The statuses whose responses have no body. -/
def Bodiless (code : ℕ) : Prop := code < 200 ∨ code = 204 ∨ code = 304

instance (code : ℕ) : Decidable (Bodiless code) := inferInstanceAs (Decidable (_ ∨ _ ∨ _))

/-- The values of `Content-Length`. -/
def lengths (kvs : List (Bytes × Bytes)) : List (Option ℕ) :=
  (kvs.filter (NameIs contentLengthName ·)).map fun kv => Lines.number kv.2

def bodyLength (code : ℕ) (kvs : List (Bytes × Bytes)) : BodyLength :=
  if Bodiless code then .sized 0
  else if ∃ kv ∈ kvs, NameIs transferEncodingName kv then .invalid
  else
    match lengths kvs with
    | [] => .untilClose
    | none :: _ => .invalid
    | some n :: others => if ∀ m ∈ others, m = some n then .sized n else .invalid

def readReplies : ℕ → Bytes → Option (List Reply)
  | 0, _ => none
  | _ + 1, [] => some []
  | fuel + 1, b :: text =>
    match readHead (b :: text) with
    | none => none
    | some (code, kvs, rest) =>
      match bodyLength code kvs with
      | .sized n =>
        if n ≤ rest.length then
          (readReplies fuel (rest.drop n)).map ({ code, body := rest.take n } :: ·)
        else none
      | .untilClose => some [{ code, body := rest }]
      | .invalid => none

/-- The replies in the text of a connection that was then closed. -/
def readAll (text : Bytes) : Option (List Reply) := readReplies (text.length + 1) text

/-! ### Blanks -/

theorem mem_dropWhile {p : UInt8 → Bool} {v : Bytes} {b : UInt8} (hb : b ∈ v) (hp : p b = false) :
    b ∈ v.dropWhile p := by
  induction v with
  | nil => exact hb
  | cons c v ih =>
    rw [List.dropWhile_cons]
    split
    · rename_i hc
      rcases List.mem_cons.mp hb with rfl | hb
      · rw [hp] at hc
        cases hc
      · exact ih hb
    · exact hb

theorem mem_trim {v : Bytes} {b : UInt8} (hb : b ∈ v) (hblank : isBlank b = false) :
    b ∈ trim v := by
  rw [trim, List.mem_reverse]
  exact mem_dropWhile (List.mem_reverse.mpr (mem_dropWhile hb hblank)) hblank

theorem dropWhile_isBlank {v : Bytes} (hv : ∀ b ∈ v, isBlank b = false) :
    v.dropWhile isBlank = v := by
  cases v with
  | nil => rfl
  | cons b v => exact List.dropWhile_cons_of_neg (by simpa using hv b List.mem_cons_self)

/-- A value without blanks stays as it is. -/
theorem trim_eq {v : Bytes} (hv : ∀ b ∈ v, isBlank b = false) : trim v = v := by
  rw [trim, dropWhile_isBlank hv, dropWhile_isBlank fun b hb => hv b (List.mem_reverse.mp hb),
    List.reverse_reverse]

end Reader

/-! ### Fields as they are read -/

/-- What is read of the line of a field. -/
def asRead (kv : Bytes × Bytes) : Bytes × Bytes :=
  ((fieldLine kv).takeWhile (· ≠ 58), Reader.trim ((fieldLine kv).dropWhile (· ≠ 58)).tail)

theorem fieldLine_eq (kv : Bytes × Bytes) : fieldLine kv = kv.1 ++ 58 :: 32 :: kv.2 := by
  rw [fieldLine, List.append_assoc]
  rfl

theorem readField_fieldLine (kv : Bytes × Bytes) :
    Reader.readField (fieldLine kv) = some (asRead kv) := by
  have hcolon : 58 ∈ fieldLine kv := by
    rw [fieldLine_eq]
    exact List.mem_append_right _ List.mem_cons_self
  exact if_pos hcolon

/-- The name ends at the first colon, also where the name was given with one in it. -/
theorem asRead_name (kv : Bytes × Bytes) : (asRead kv).1 = kv.1.takeWhile (· ≠ 58) := by
  have hstop (key rest : Bytes) :
      (key ++ 58 :: rest).takeWhile (· ≠ 58) = key.takeWhile (· ≠ 58) := by
    induction key with
    | nil => rfl
    | cons b key ih =>
      rw [List.cons_append, List.takeWhile_cons, List.takeWhile_cons, ih]
  change (fieldLine kv).takeWhile _ = _
  rw [fieldLine_eq, hstop]

/-- The colon behind such a name is left in the value. -/
theorem colon_mem_asRead {kv : Bytes × Bytes} (h : 58 ∈ kv.1) : 58 ∈ (asRead kv).2 := by
  have hleft (key rest : Bytes) (hkey : 58 ∈ key) :
      58 ∈ ((key ++ 58 :: rest).dropWhile (· ≠ 58)).tail := by
    induction key with
    | nil => exact absurd hkey List.not_mem_nil
    | cons b key ih =>
      rw [List.cons_append, List.dropWhile_cons]
      split
      · rename_i hb
        rcases List.mem_cons.mp hkey with rfl | hkey
        · simp at hb
        · exact ih hkey
      · exact List.mem_append_right _ List.mem_cons_self
  refine Reader.mem_trim ?_ rfl
  rw [fieldLine_eq]
  exact hleft _ _ h

theorem mem_of_takeWhile_ne {key : Bytes} (h : key.takeWhile (· ≠ 58) ≠ key) : 58 ∈ key := by
  by_contra hnot
  refine h (List.takeWhile_eq_self_iff.mpr fun b hb => ?_)
  rw [decide_eq_true_iff]
  rintro rfl
  exact hnot hb

theorem ascii_toString (n : ℕ) : ascii (toString n) = Lines.decimal n :=
  congrArg (List.map _) Nat.toList_repr

theorem isBlank_toString (n : ℕ) : ∀ b ∈ ascii (toString n), Reader.isBlank b = false := by
  intro b hb
  obtain ⟨hlo, -⟩ := Lines.mem_of_foldlM (Lines.foldlM_decimal n) (ascii_toString n ▸ hb)
  rw [Reader.isBlank, Bool.or_eq_false_iff, decide_eq_false_iff_not, decide_eq_false_iff_not]
  constructor
  · rintro rfl
    exact absurd hlo (by decide)
  · rintro rfl
    exact absurd hlo (by decide)

theorem asRead_contentLength (n : ℕ) :
    asRead (ascii "Content-Length", ascii (toString n)) =
      (ascii "Content-Length", ascii (toString n)) := by
  have hname : (ascii "Content-Length").takeWhile (· ≠ 58) = ascii "Content-Length" := by decide
  apply Prod.ext ((asRead_name _).trans hname)
  change Reader.trim ((fieldLine _).dropWhile _).tail = _
  rw [fieldLine_eq]
  exact Reader.trim_eq (isBlank_toString n)

theorem length_le_fieldLines (kvs : List (Bytes × Bytes)) :
    kvs.length ≤ (fieldLines kvs).length := by
  induction kvs with
  | nil => exact le_rfl
  | cons kv kvs ih =>
    rw [fieldLines, List.flatMap_cons, List.length_append, ← fieldLines, List.length_append]
    simp only [List.length_cons, List.length_nil]
    omega

/-- The header section of a response is read field by field. -/
theorem readFields_fieldLines {kvs : List (Bytes × Bytes)}
    (hsafe : ∀ kv ∈ kvs, 13 ∉ kv.1 ∧ 13 ∉ kv.2) {fuel : ℕ} (hfuel : kvs.length < fuel)
    (rest : Bytes) :
    Reader.readFields fuel (fieldLines kvs ++ 13 :: 10 :: rest) = some (kvs.map asRead, rest) := by
  induction kvs generalizing fuel with
  | nil =>
    obtain ⟨fuel, rfl⟩ := Nat.exists_eq_succ_of_ne_zero (by omega : fuel ≠ 0)
    rfl
  | cons kv kvs ih =>
    obtain ⟨fuel, rfl⟩ := Nat.exists_eq_succ_of_ne_zero (by omega : fuel ≠ 0)
    obtain ⟨hkv, hkvs⟩ := List.forall_mem_cons.mp hsafe
    have hline : 13 ∉ fieldLine kv := by
      rw [fieldLine_eq, List.mem_append, List.mem_cons, List.mem_cons]
      simp [hkv.1, hkv.2]
    have hcut : Lines.cut (fieldLines (kv :: kvs) ++ 13 :: 10 :: rest) =
        some (fieldLine kv, fieldLines kvs ++ 13 :: 10 :: rest) := by
      rw [fieldLines, List.flatMap_cons, List.append_assoc, List.append_assoc]
      exact Lines.cut_append hline _
    have hrest := ih hkvs (show kvs.length < fuel by simpa using hfuel)
    obtain ⟨b, line, hcons⟩ : ∃ b line, fieldLine kv = b :: line := by
      cases hnil : fieldLine kv with
      | nil => rw [fieldLine_eq] at hnil; exact absurd hnil (by simp)
      | cons b line => exact ⟨b, line, rfl⟩
    rw [Reader.readFields, hcut, hcons]
    dsimp only
    rw [← hcons, readField_fieldLine, hrest]
    rfl

end XNetty
