import XNetty.Http.Outbound
import XNetty.Http.Reader

/-!
# Content codings

A recipient undoes the codings that `Content-Encoding` lists, the last one first. Compression
and decompression are not modelled: a codec is any pair of them that is inverse. Codecs that
leave a tag in front of the data tell lists of codings apart.

## Main definitions

* `elements` — the elements of a list-valued field.
* `Codec` — compression and its inverse.
* `Codec.decodeAll` — undoing a list of codings.
-/

namespace XNetty

/-- The elements of a comma-separated value, in lower case; empty ones do not count. -/
def elements (value : Bytes) : List Bytes :=
  (((value.splitOn 44).map Reader.trim).filter (· ≠ [])).map (List.map toLower)

/-- The codings listed by `Content-Encoding`. -/
def codings (kvs : List (Bytes × Bytes)) : List Bytes :=
  (kvs.filter (NameIs contentEncodingName ·)).flatMap fun kv => elements kv.2

theorem codings_append (kvs kvs' : List (Bytes × Bytes)) :
    codings (kvs ++ kvs') = codings kvs ++ codings kvs' := by
  simp [codings]

def ContentEncoding.name : ContentEncoding → Bytes
  | .gzip => ascii "gzip"
  | .deflate => ascii "deflate"

theorem ContentEncoding.name_injective {enc enc' : ContentEncoding} (h : enc.name = enc'.name) :
    enc = enc' := by
  cases enc <;> cases enc' <;> first | rfl | exact absurd h (by decide)

/-- `Gzip::compress`, and what a recipient makes of data with a coding of some name. -/
structure Codec where
  compress : ContentEncoding → Bytes → Bytes
  decode : Bytes → Bytes → Option Bytes
  decode_compress : ∀ enc data, decode enc.name (compress enc data) = some data
  compress_ne_nil : ∀ enc data, compress enc data ≠ []

namespace Codec

/-- The codings are undone in the reverse of the order they were applied in. -/
def decodeAll (codec : Codec) (cs : List Bytes) (data : Bytes) : Option Bytes :=
  cs.foldrM codec.decode data

theorem decodeAll_concat (codec : Codec) (cs : List Bytes) (c data : Bytes) :
    codec.decodeAll (cs ++ [c]) data = (codec.decode c data).bind (codec.decodeAll cs) := by
  rw [decodeAll, List.foldrM_append, List.foldrM_cons, List.foldrM_nil, pure_bind]
  rfl

/-! ### Telling lists of codings apart -/

/-- A tag goes if it is there, else a mark comes. -/
def untag (tag mark : UInt8) (data : Bytes) : Bytes :=
  if data.head? = some tag then data.tail else mark :: data

/-- `enc` puts `tag` in front of the data and everything else `tag'`. -/
def tagging (enc : ContentEncoding) (tag tag' mark mark' : UInt8) : Codec where
  compress enc' data := (if enc' = enc then tag else tag') :: data
  decode c data := some (if c = enc.name then untag tag mark data else untag tag' mark' data)
  decode_compress := by
    intro enc' data
    by_cases h : enc' = enc
    · subst h
      simp [untag]
    · have hname : enc'.name ≠ enc.name := fun hname => h (ContentEncoding.name_injective hname)
      simp [h, hname, untag]
  compress_ne_nil := fun _ _ => List.cons_ne_nil _ _

/-- The mark that a coding leaves on data without a tag. -/
def markOf (enc : ContentEncoding) (mark mark' : UInt8) (c : Bytes) : UInt8 :=
  if c = enc.name then mark else mark'

variable {enc : ContentEncoding} {tag tag' mark mark' : UInt8}

theorem decode_tagging {c data : Bytes} (htag : data.head? ≠ some tag)
    (htag' : data.head? ≠ some tag') :
    (tagging enc tag tag' mark mark').decode c data = some (markOf enc mark mark' c :: data) := by
  simp only [tagging, untag, if_neg htag, if_neg htag', markOf]
  split <;> rfl

/-- Codings that find no tag leave their marks. -/
theorem decodeAll_tagging (hmark : mark ≠ tag ∧ mark ≠ tag') (hmark' : mark' ≠ tag ∧ mark' ≠ tag')
    (cs : List Bytes) {data : Bytes} (htag : data.head? ≠ some tag)
    (htag' : data.head? ≠ some tag') :
    (tagging enc tag tag' mark mark').decodeAll cs data =
      some (cs.map (markOf enc mark mark') ++ data) := by
  induction cs using List.reverseRecOn generalizing data with
  | nil => rfl
  | append_singleton cs c ih =>
    have hhead : markOf enc mark mark' c ≠ tag ∧ markOf enc mark mark' c ≠ tag' := by
      unfold markOf
      split
      · exact hmark
      · exact hmark'
    rw [decodeAll_concat, decode_tagging htag htag', Option.bind_some, ih (by simpa using hhead.1)
      (by simpa using hhead.2), List.map_append, List.append_assoc]
    rfl

end Codec

/-- A list that a rotation leaves alone. -/
theorem eq_of_rotated {α : Type*} {a : α} {l : List α} (h : a :: l = l ++ [a]) :
    ∀ x ∈ l, x = a := by
  induction l with
  | nil => exact fun x hx => absurd hx List.not_mem_nil
  | cons b l ih =>
    obtain ⟨rfl, htail⟩ := List.cons.inj h
    exact List.forall_mem_cons.mpr ⟨rfl, ih htail⟩

/-- Tags and marks that a byte is not confused with. -/
theorem exists_tags (b : UInt8) : ∃ tag tag' mark mark' : UInt8,
    (b ≠ tag ∧ b ≠ tag' ∧ tag ≠ tag') ∧ (mark ≠ tag ∧ mark ≠ tag') ∧
      (mark' ≠ tag ∧ mark' ≠ tag') ∧ mark ≠ mark' := by
  refine ⟨b + 1, b + 2, b + 3, b + 4, ?_⟩
  grind

section replace

variable {tag tag' mark mark' : UInt8} {data : Bytes}
  (htag : data.head? ≠ some tag) (htag' : data.head? ≠ some tag')
  (hmark : mark ≠ tag ∧ mark ≠ tag') (hmark' : mark' ≠ tag ∧ mark' ≠ tag')
include htag htag' hmark hmark'

/-- A new coding at the end of the list has its tag taken off, so it replaced nothing. -/
theorem replaced_eq_nil {enc : ContentEncoding} {before replaced : List Bytes}
    (h : (Codec.tagging enc tag tag' mark mark').decodeAll (before ++ [enc.name])
        ((Codec.tagging enc tag tag' mark mark').compress enc data) =
      (Codec.tagging enc tag tag' mark mark').decodeAll (before ++ replaced) data) :
    replaced = [] := by
  rw [Codec.decodeAll_concat, Codec.decode_compress, Option.bind_some,
    Codec.decodeAll_tagging hmark hmark' _ htag htag',
    Codec.decodeAll_tagging hmark hmark' _ htag htag'] at h
  have hlength := congrArg List.length (Option.some.inj h)
  simp only [List.length_append, List.length_map] at hlength
  apply List.length_eq_zero_iff.mp
  omega

/-- Where the last coding is of the new one's kind, it takes the tag off; the marks tell that the
others are the new coding. -/
theorem after_eq_name (hne : mark ≠ mark') {enc : ContentEncoding}
    {before replaced after : List Bytes}
    (h : (Codec.tagging enc tag tag' mark mark').decodeAll
        (before ++ enc.name :: after ++ [enc.name])
        ((Codec.tagging enc tag tag' mark mark').compress enc data) =
      (Codec.tagging enc tag tag' mark mark').decodeAll
        (before ++ replaced ++ (after ++ [enc.name])) data) :
    replaced = [] ∧ ∀ c ∈ after, c = enc.name := by
  have hown : Codec.markOf enc mark mark' enc.name = mark := if_pos rfl
  rw [Codec.decodeAll_concat, Codec.decode_compress, Option.bind_some,
    Codec.decodeAll_tagging hmark hmark' _ htag htag',
    Codec.decodeAll_tagging hmark hmark' _ htag htag'] at h
  have hmarks := List.append_cancel_right (Option.some.inj h)
  have hlength := congrArg List.length hmarks
  simp only [List.length_append, List.length_map, List.length_cons, List.length_nil] at hlength
  obtain rfl : replaced = [] := List.length_eq_zero_iff.mp (by omega)
  rw [List.append_nil, List.map_append, List.map_append, List.map_cons, List.map_append,
    List.map_singleton, hown] at hmarks
  have hrotated := eq_of_rotated (List.append_cancel_left hmarks)
  refine ⟨rfl, ?_⟩
  intro c hc
  by_contra hother
  have hsame : Codec.markOf enc mark mark' c = mark := hrotated _ (List.mem_map_of_mem hc)
  exact hne (hsame.symm.trans (if_neg hother))

/-- Where the last coding is of another kind, it finds the tag of the new one and leaves it in
front of the data. -/
theorem last_eq_name (htags : tag ≠ tag') {enc : ContentEncoding}
    {front before : List Bytes} {c : Bytes}
    (h : (Codec.tagging enc tag tag' mark mark').decodeAll (front ++ [c])
        ((Codec.tagging enc tag tag' mark mark').compress enc data) =
      (Codec.tagging enc tag tag' mark mark').decodeAll (before ++ [c]) data) : c = enc.name := by
  by_contra hc
  have hother : Codec.markOf enc mark mark' c = mark' := if_neg hc
  have hdecode : (Codec.tagging enc tag tag' mark mark').decode c
      ((Codec.tagging enc tag tag' mark mark').compress enc data) =
        some (mark' :: tag :: data) := by
    simp [Codec.tagging, Codec.untag, hc, htags]
  rw [Codec.decodeAll_concat, hdecode, Option.bind_some,
    Codec.decodeAll_tagging hmark hmark' _ (by simpa using hmark'.1) (by simpa using hmark'.2),
    Codec.decodeAll_tagging hmark hmark' _ htag htag', List.map_append, List.map_singleton] at h
  have hmarks := Option.some.inj h
  rw [show mark' :: tag :: data = [mark', tag] ++ data from rfl, ← List.append_assoc] at hmarks
  have hlast := List.append_cancel_right hmarks
  rw [show [mark', tag] = [mark'] ++ [tag] from rfl, ← List.append_assoc] at hlast
  have htagged := List.singleton_inj.mp (List.append_inj_right' hlast rfl)
  exact hmark'.1 (hother.symm.trans htagged.symm)

end replace

/-- **One coding put in the place of others** undoes to the same data with every codec exactly
when it replaces nothing and only stands before codings of its own kind. -/
theorem decodeAll_replace_iff {enc : ContentEncoding} {data : Bytes} (hdata : data ≠ [])
    (before replaced after : List Bytes) :
    (∀ codec : Codec, codec.decodeAll (before ++ enc.name :: after) (codec.compress enc data) =
        codec.decodeAll (before ++ replaced ++ after) data) ↔
      replaced = [] ∧ ∀ c ∈ after, c = enc.name := by
  constructor
  · intro h
    obtain ⟨b, rest, rfl⟩ := List.exists_cons_of_ne_nil hdata
    obtain ⟨tag, tag', mark, mark', ⟨hb, hb', htags⟩, hmark, hmark', hne⟩ := exists_tags b
    have htag : (b :: rest).head? ≠ some tag := by simpa using hb
    have htag' : (b :: rest).head? ≠ some tag' := by simpa using hb'
    have htagged := h (Codec.tagging enc tag tag' mark mark')
    rcases List.eq_nil_or_concat after with rfl | ⟨after, c, rfl⟩
    · rw [List.append_nil] at htagged
      have hreplaced := replaced_eq_nil htag htag' hmark hmark' htagged
      exact ⟨hreplaced, fun c hc => absurd hc List.not_mem_nil⟩
    · rw [List.concat_eq_append] at htagged ⊢
      rw [← List.cons_append, ← List.append_assoc] at htagged
      obtain rfl : c = enc.name := by
        rw [← List.append_assoc] at htagged
        exact last_eq_name htag htag' hmark hmark' htags htagged
      obtain ⟨hreplaced, hafter⟩ := after_eq_name htag htag' hmark hmark' hne htagged
      exact ⟨hreplaced, List.forall_mem_append.mpr ⟨hafter, by simp⟩⟩
  · rintro ⟨rfl, hafter⟩ codec
    have hrotate : enc.name :: after = after ++ [enc.name] := by
      rw [List.eq_replicate_of_mem hafter, ← List.replicate_succ, ← List.replicate_succ']
    rw [hrotate, ← List.append_assoc, Codec.decodeAll_concat, codec.decode_compress,
      Option.bind_some, List.append_nil]

end XNetty
