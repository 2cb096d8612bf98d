import XNetty.Ssl.Handler

/-!
# What becomes of the plaintext

The read loop collects plaintext until the library has none left, sees the end of the session, or
fails. Only the first of these ways out leads to `fireRead`.

## Main definitions

* `TlsConnection.plaintext` — what the library has decrypted.
* `TlsConnection.EndsWaiting` — the loop ends because there is nothing to read for now.
* `TlsConnection.fired_iff` — when `channelRead` delivers all of it.
-/

namespace XNetty

namespace TlsConnection

/-- The answers to `SSL_read` that carry plaintext: those in front of the first other one. -/
def positive (answers : List SslAnswer) : List SslAnswer :=
  answers.takeWhile fun a => decide (a.ret > 0)

/-- The answer that the read loop ends with; behind the last one the library wants to read. -/
def ending (answers : List SslAnswer) : Option SslAnswer :=
  (answers.dropWhile fun a => decide (a.ret > 0)).head?

/-- What the positive answers carry, in order. -/
def plaintext (answers : List SslAnswer) : Bytes :=
  (positive answers).flatMap fun a => a.plain.take a.ret.toNat

/-- The loop ends neither with the end of the session nor with an error. -/
def EndsWaiting (answers : List SslAnswer) : Prop :=
  ∀ a ∈ ending answers, a.ret ≠ 0 ∧ a.error ≠ .other

instance (answers : List SslAnswer) : Decidable (EndsWaiting answers) :=
  inferInstanceAs (Decidable (∀ a ∈ ending answers, _))

section Cons

variable {a : SslAnswer} (answers : List SslAnswer)

theorem plaintext_cons_of_pos (h : a.ret > 0) :
    plaintext (a :: answers) = a.plain.take a.ret.toNat ++ plaintext answers := by
  simp [plaintext, positive, h]

theorem plaintext_cons_of_not_pos (h : ¬a.ret > 0) : plaintext (a :: answers) = [] := by
  simp [plaintext, positive, h]

theorem endsWaiting_cons_of_pos (h : a.ret > 0) :
    EndsWaiting (a :: answers) ↔ EndsWaiting answers := by
  simp [EndsWaiting, ending, h]

theorem endsWaiting_cons_of_not_pos (h : ¬a.ret > 0) :
    EndsWaiting (a :: answers) ↔ a.ret ≠ 0 ∧ a.error ≠ .other := by
  simp [EndsWaiting, ending, h]

end Cons

/-! ### The read loop -/

theorem call_of_cons {t : TlsConnection} {a : SslAnswer} {rest : List SslAnswer}
    (h : t.ssl.answers = a :: rest) :
    t.call.1 = a ∧ t.call.2.ssl.answers = rest ∧
      t.call.2.ssl.outBio = t.ssl.outBio ++ a.produced := by
  rw [call, Ssl.call, h]
  exact ⟨rfl, rfl, rfl⟩

theorem call_of_nil {t : TlsConnection} (h : t.ssl.answers = []) :
    t.call = ({ ret := -1 }, t) := by
  rw [call, Ssl.call, h]

/-- **The read loop** hands on what it has collected just when it ends waiting. -/
theorem readLoop_snd {fuel : ℕ} {t : TlsConnection} (hfuel : t.ssl.answers.length < fuel)
    (plainBuf : Bytes) : (readLoop fuel t plainBuf).2 =
      if EndsWaiting t.ssl.answers then some (plainBuf ++ plaintext t.ssl.answers) else none := by
  induction fuel generalizing t plainBuf with
  | zero => omega
  | succ fuel ih =>
    unfold readLoop
    dsimp only
    cases hanswers : t.ssl.answers with
    | nil =>
      rw [call_of_nil hanswers]
      simp [EndsWaiting, ending, plaintext, positive]
    | cons a rest =>
      obtain ⟨hcall, hrest, _⟩ := call_of_cons hanswers
      rw [hcall]
      by_cases hpos : a.ret > 0
      · have hlater : t.call.2.ssl.answers.length < fuel := by
          rw [hanswers, List.length_cons] at hfuel
          rw [hrest]
          omega
        rw [if_pos hpos, ih hlater, hrest, plaintext_cons_of_pos rest hpos, List.append_assoc]
        simp only [endsWaiting_cons_of_pos rest hpos]
      · have hwaiting := endsWaiting_cons_of_not_pos rest hpos
        rw [if_neg hpos, plaintext_cons_of_not_pos rest hpos, List.append_nil]
        by_cases hzero : a.ret = 0
        · rw [if_pos hzero, if_neg fun h => (hwaiting.mp h).1 hzero]
        rw [if_neg hzero]
        by_cases hother : a.error = .other
        · rw [if_pos hother, if_neg fun h => (hwaiting.mp h).2 hother]
        · rw [if_neg hother, if_pos (hwaiting.mpr ⟨hzero, hother⟩)]

/-- The readable bytes of what is fired. -/
def firedBytes : Option Msg → Bytes
  | some (.buffer buf) => buf.readable
  | _ => []

/-- What `SSL_read` returns during a call: it is not called for a buffer that is empty. -/
def decrypted (t : TlsConnection) (enc : ByteBuf) : Bytes :=
  if enc.readableBytes = 0 then [] else plaintext t.ssl.answers

/-- What is fired is what the loop hands on. -/
theorem firedBytes_channelRead {t : TlsConnection} (h : t.handshakeDone = true) {enc : ByteBuf}
    (henc : enc.readableBytes ≠ 0) :
    firedBytes (t.channelRead enc).2 =
      ((t.bioWrite enc.readable).readLoop (t.ssl.answers.length + 1) []).2.getD [] := by
  have hdone : (t.bioWrite enc.readable).handshakeDone = true := h
  have hanswers : (t.bioWrite enc.readable).ssl.answers = t.ssl.answers := rfl
  unfold channelRead
  rw [if_neg henc]
  simp only [hdone, hanswers, if_true, Bool.not_true, Bool.false_eq_true, if_false]
  obtain ⟨t', _ | _ | ⟨b, bs⟩⟩ :=
    (t.bioWrite enc.readable).readLoop (t.ssl.answers.length + 1) []
  · rfl
  · rfl
  · exact ByteBuf.readable_copyOf (b :: bs)

/-- **Decrypted data is delivered** just when there is none or the loop ends waiting. -/
theorem fired_iff {t : TlsConnection} (h : t.handshakeDone = true) (enc : ByteBuf) :
    firedBytes (t.channelRead enc).2 = t.decrypted enc ↔
      t.decrypted enc = [] ∨ EndsWaiting t.ssl.answers := by
  unfold decrypted
  by_cases hempty : enc.readableBytes = 0
  · have hnone : (t.channelRead enc).2 = some (.buffer enc) := by rw [channelRead, if_pos hempty]
    rw [if_pos hempty, hnone]
    exact iff_of_true (enc.readable_eq_nil_iff.mpr hempty) (.inl rfl)
  have hread := readLoop_snd (t := t.bioWrite enc.readable) (Nat.lt_succ_self _) []
  have hanswers : (t.bioWrite enc.readable).ssl.answers = t.ssl.answers := rfl
  rw [hanswers, List.nil_append] at hread
  rw [if_neg hempty, firedBytes_channelRead h hempty, hread]
  split_ifs with hwaiting
  · exact iff_of_true rfl (.inr hwaiting)
  · rw [Option.getD_none, or_iff_left hwaiting, eq_comm]

/-- A connection behind its handshake. -/
def established (answers : List SslAnswer) : TlsConnection where
  conn := { socket := { answers := fun _ => .again } }
  ssl := { answers }
  handshakeDone := true

/-- A greeting alone is fired. -/
theorem fired_iff_of_waiting :
    let t := established [{ ret := 2, plain := [104, 105] }]
    (firedBytes (t.channelRead (.copyOf [23])).2 = t.decrypted (.copyOf [23]) ↔
      t.decrypted (.copyOf [23]) = [] ∨ EndsWaiting t.ssl.answers) ∧
        EndsWaiting t.ssl.answers ∧ t.decrypted (.copyOf [23]) = [104, 105] :=
  ⟨fired_iff rfl _, by decide, by decide +kernel⟩

/-- A greeting that is followed by the end of the session in the same read is lost. -/
theorem not_fired :
    ¬∀ (t : TlsConnection) (enc : ByteBuf), t.handshakeDone = true →
      firedBytes (t.channelRead enc).2 = t.decrypted enc := by
  intro hall
  have hlost := hall (established [{ ret := 2, plain := [104, 105] }, { ret := 0 }])
    (.copyOf [23]) rfl
  exact absurd hlost (by decide +kernel)

end TlsConnection

end XNetty
