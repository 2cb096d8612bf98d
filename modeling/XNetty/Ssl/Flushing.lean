import XNetty.Ssl.Plaintext

/-!
# What the loops leave in the BIO

Every call of the library may leave bytes in the outgoing BIO. They wait there until
`flushEncrypted` is called, and some ways out of the loops of `channelRead` do not call it.

## Main definitions

* `TlsConnection.Carries` — what the library produces is appended or waits in the BIO, in order.
* `TlsConnection.acceptLoop_of_some` — what waits behind the handshake.
* `TlsConnection.readLoop_fst` — what waits behind the read loop.
-/

namespace XNetty

namespace TlsConnection

/-! ### Nothing is lost -/

/-- What the calls of the library produce between the two states goes through the BIO, from where
it is appended: nothing is lost and nothing overtakes. -/
def Carries (t t' : TlsConnection) : Prop :=
  ∃ used bytes, t.ssl.answers = used ++ t'.ssl.answers ∧ t'.appended = t.appended ++ bytes ∧
    t.ssl.outBio ++ used.flatMap SslAnswer.produced = bytes ++ t'.ssl.outBio

namespace Carries

theorem of_eq {t t' : TlsConnection} (hanswers : t'.ssl.answers = t.ssl.answers)
    (hbio : t'.ssl.outBio = t.ssl.outBio) (happended : t'.appended = t.appended) :
    Carries t t' :=
  ⟨[], [], hanswers.symm, by rw [happended, List.append_nil], by rw [hbio]; simp⟩

theorem refl (t : TlsConnection) : Carries t t := of_eq rfl rfl rfl

theorem trans {t t' t'' : TlsConnection} (h : Carries t t') (h' : Carries t' t'') :
    Carries t t'' := by
  obtain ⟨used, bytes, hanswers, happended, hbio⟩ := h
  obtain ⟨used', bytes', hanswers', happended', hbio'⟩ := h'
  refine ⟨used ++ used', bytes ++ bytes', ?_, ?_, ?_⟩
  · rw [hanswers, hanswers', List.append_assoc]
  · rw [happended', happended, List.append_assoc]
  · rw [List.flatMap_append, ← List.append_assoc, hbio, List.append_assoc, hbio',
      List.append_assoc]

end Carries

/-- One call of the library. -/
theorem call_ssl (s : Ssl) : ∃ used, s.answers = used ++ s.call.2.answers ∧
    used.flatMap SslAnswer.produced = s.call.1.produced ∧
      s.call.2.outBio = s.outBio ++ s.call.1.produced := by
  unfold Ssl.call
  split
  next h => exact ⟨[], by rw [h]; rfl, rfl, (List.append_nil _).symm⟩
  next a rest h => exact ⟨[a], h, List.append_nil _, rfl⟩

theorem carries_call (t : TlsConnection) : Carries t t.call.2 := by
  obtain ⟨used, hanswers, hproduced, hbio⟩ := call_ssl t.ssl
  exact ⟨used, [], hanswers, (List.append_nil _).symm, by rw [hproduced]; exact hbio.symm⟩

theorem carries_sslWrite (t : TlsConnection) (data : Bytes) : Carries t (t.sslWrite data).2 :=
  carries_call t

theorem ssl_of_empty {s : Ssl} (h : s.outBio = []) : { s with outBio := [] } = s := by
  rw [← h]

/-- **The loop of `flushEncrypted`** appends all that waits in the BIO. -/
theorem flushLoop_ssl {fuel : ℕ} {t : TlsConnection} (hfuel : t.ssl.outBio.length ≤ fuel) :
    (flushLoop fuel t).1.ssl = { t.ssl with outBio := [] } ∧
      (flushLoop fuel t).1.appended = t.appended ++ t.ssl.outBio ∧
      (flushLoop fuel t).1.handshakeDone = t.handshakeDone := by
  induction fuel generalizing t with
  | zero =>
    have hempty : t.ssl.outBio = [] := List.eq_nil_of_length_eq_zero (Nat.le_zero.mp hfuel)
    rw [ssl_of_empty hempty, hempty, List.append_nil]
    exact ⟨rfl, rfl, rfl⟩
  | succ fuel ih =>
    unfold flushLoop
    dsimp only
    by_cases hnone : t.ssl.outBio.length = 0
    · have hempty : t.ssl.outBio = [] := List.eq_nil_of_length_eq_zero hnone
      rw [if_pos hnone, ssl_of_empty hempty, hempty, List.append_nil]
      exact ⟨rfl, rfl, rfl⟩
    rw [if_neg hnone]
    generalize hlen : min t.ssl.outBio.length 4096 = len
    have hread := t.length_bioRead (hlen ▸ Nat.min_le_left _ _)
    have hleft : ((t.bioRead len).2.append (t.bioRead len).1).ssl.outBio.length =
        t.ssl.outBio.length - len := t.length_outBio_bioRead len
    obtain ⟨hssl, happended, hdone⟩ :=
      @ih ((t.bioRead len).2.append (t.bioRead len).1) (by omega)
    rw [if_neg (by omega)]
    refine ⟨hssl, happended.trans ?_, hdone⟩
    change (t.appended ++ t.ssl.outBio.take len) ++ t.ssl.outBio.drop len = _
    rw [List.append_assoc, List.take_append_drop]

theorem flushEncrypted_ssl (t : TlsConnection) :
    t.flushEncrypted.ssl = { t.ssl with outBio := [] } ∧
      t.flushEncrypted.appended = t.appended ++ t.ssl.outBio ∧
      t.flushEncrypted.handshakeDone = t.handshakeDone := by
  have hloop := flushLoop_ssl (t := t) le_rfl
  unfold flushEncrypted
  dsimp only
  split <;> exact hloop

theorem carries_flushEncrypted (t : TlsConnection) : Carries t t.flushEncrypted := by
  obtain ⟨hssl, happended, _⟩ := flushEncrypted_ssl t
  exact ⟨[], t.ssl.outBio, by rw [hssl]; rfl, happended, by rw [hssl]; simp⟩

/-! ### The handshake -/

/-- The `SSL_accept` that completes the handshake within so many turns, and the answers behind
it. -/
def completing : ℕ → List SslAnswer → Option (SslAnswer × List SslAnswer)
  | 0, _ => none
  | _, [] => none
  | turns + 1, a :: rest =>
    if a.ret = 1 then some (a, rest)
    else if a.error = .wantWrite then completing turns rest
    else none

theorem carries_acceptLoop (turns : ℕ) (t : TlsConnection) :
    Carries t (acceptLoop turns t).1 := by
  induction turns generalizing t with
  | zero => exact .refl t
  | succ turns ih =>
    have hcall := carries_call t
    have hflushed := hcall.trans (carries_flushEncrypted t.call.2)
    unfold acceptLoop
    dsimp only
    split
    · exact hcall.trans (.of_eq rfl rfl rfl)
    split
    · exact hflushed
    · exact hflushed.trans (ih _)
    · exact hflushed.trans (.of_eq rfl rfl rfl)

/-- A handshake that goes on leaves nothing in the BIO. -/
theorem acceptLoop_of_none {turns : ℕ} {t : TlsConnection} (hbio : t.ssl.outBio = [])
    (hopen : t.handshakeDone = false) (h : completing turns t.ssl.answers = none) :
    (acceptLoop turns t).1.ssl.outBio = [] ∧ (acceptLoop turns t).1.handshakeDone = false := by
  induction turns generalizing t with
  | zero => exact ⟨hbio, hopen⟩
  | succ turns ih =>
    obtain ⟨hssl, _, hsame⟩ := flushEncrypted_ssl t.call.2
    have hflushed : t.call.2.flushEncrypted.ssl.outBio = [] := by rw [hssl]
    have hstill : t.call.2.flushEncrypted.handshakeDone = false := hsame.trans hopen
    unfold acceptLoop
    dsimp only
    cases hanswers : t.ssl.answers with
    | nil =>
      rw [call_of_nil hanswers] at hflushed hstill ⊢
      exact ⟨hflushed, hstill⟩
    | cons a rest =>
      obtain ⟨hanswer, hrest, _⟩ := call_of_cons hanswers
      rw [hanswers, completing] at h
      rw [hanswer]
      split_ifs at h with hret herror
      · rw [if_neg hret, herror]
        refine ih hflushed hstill ?_
        rw [hssl]
        exact hrest ▸ h
      · rw [if_neg hret]
        split
        · exact ⟨hflushed, hstill⟩
        next hwrite => exact absurd hwrite herror
        · exact ⟨hflushed, hstill⟩

/-- What the call that completes the handshake produces is still in the BIO. -/
theorem acceptLoop_of_some {turns : ℕ} {t : TlsConnection} {a : SslAnswer}
    {rest : List SslAnswer} (hbio : t.ssl.outBio = [])
    (h : completing turns t.ssl.answers = some (a, rest)) :
    (acceptLoop turns t).2 = true ∧ (acceptLoop turns t).1.handshakeDone = true ∧
      (acceptLoop turns t).1.ssl.outBio = a.produced ∧
      (acceptLoop turns t).1.ssl.answers = rest := by
  induction turns generalizing t with
  | zero => cases h
  | succ turns ih =>
    unfold acceptLoop
    dsimp only
    cases hanswers : t.ssl.answers with
    | nil =>
      rw [hanswers] at h
      cases h
    | cons b later =>
      obtain ⟨hanswer, hlater, hproduced⟩ := call_of_cons hanswers
      obtain ⟨hssl, _, _⟩ := flushEncrypted_ssl t.call.2
      rw [hanswers, completing] at h
      rw [hanswer]
      split_ifs at h with hret herror
      · obtain ⟨rfl, rfl⟩ := Prod.mk.inj (Option.some.inj h)
        rw [if_pos hret]
        exact ⟨rfl, rfl, by rw [hproduced, hbio]; rfl, hlater⟩
      · rw [if_neg hret, herror]
        refine ih (by rw [hssl]) ?_
        rw [hssl]
        exact hlater ▸ h

/-! ### The read loop -/

/-- The answers of the read loop, with the one that ends it. -/
def reads (answers : List SslAnswer) : List SslAnswer :=
  positive answers ++ (ending answers).toList

/-- The answers behind those of the read loop. -/
def unread (answers : List SslAnswer) : List SslAnswer :=
  (answers.dropWhile fun a => decide (a.ret > 0)).tail

/-- The read loop sees the end of the session. -/
def EndsShut (answers : List SslAnswer) : Prop := ∃ a ∈ ending answers, a.ret = 0

instance (answers : List SslAnswer) : Decidable (EndsShut answers) :=
  inferInstanceAs (Decidable (∃ a ∈ ending answers, _))

section Cons

variable {a : SslAnswer} (answers : List SslAnswer)

theorem reads_cons_of_pos (h : a.ret > 0) : reads (a :: answers) = a :: reads answers := by
  simp [reads, positive, ending, h]

theorem reads_cons_of_not_pos (h : ¬a.ret > 0) : reads (a :: answers) = [a] := by
  simp [reads, positive, ending, h]

theorem unread_cons_of_pos (h : a.ret > 0) : unread (a :: answers) = unread answers := by
  simp [unread, h]

theorem unread_cons_of_not_pos (h : ¬a.ret > 0) : unread (a :: answers) = answers := by
  simp [unread, h]

theorem endsShut_cons_of_pos (h : a.ret > 0) : EndsShut (a :: answers) ↔ EndsShut answers := by
  simp [EndsShut, ending, h]

theorem endsShut_cons_of_not_pos (h : ¬a.ret > 0) : EndsShut (a :: answers) ↔ a.ret = 0 := by
  simp [EndsShut, ending, h]

end Cons

theorem carries_readLoop (fuel : ℕ) (t : TlsConnection) (plainBuf : Bytes) :
    Carries t (readLoop fuel t plainBuf).1 := by
  induction fuel generalizing t plainBuf with
  | zero => exact .refl t
  | succ fuel ih =>
    have hcall := carries_call t
    unfold readLoop
    dsimp only
    split
    · exact hcall.trans (ih _ _)
    split
    · have hshut := hcall.trans (carries_call { t.call.2 with sslShutdown := true })
      exact (hshut.trans (carries_flushEncrypted _)).trans (.of_eq rfl rfl rfl)
    split
    · exact hcall.trans (.of_eq rfl rfl rfl)
    · exact hcall

/-- **The read loop** flushes at the end of the session alone. Otherwise all that its calls produce
waits in the BIO behind what was there. -/
theorem readLoop_fst {fuel : ℕ} {t : TlsConnection} (hfuel : t.ssl.answers.length < fuel)
    (plainBuf : Bytes) :
    (readLoop fuel t plainBuf).1.handshakeDone = t.handshakeDone ∧
      if EndsShut t.ssl.answers then (readLoop fuel t plainBuf).1.ssl.outBio = []
      else (readLoop fuel t plainBuf).1.ssl.answers = unread t.ssl.answers ∧
        (readLoop fuel t plainBuf).1.ssl.outBio =
          t.ssl.outBio ++ (reads t.ssl.answers).flatMap SslAnswer.produced := by
  induction fuel generalizing t plainBuf with
  | zero => omega
  | succ fuel ih =>
    unfold readLoop
    dsimp only
    cases hanswers : t.ssl.answers with
    | nil =>
      rw [call_of_nil hanswers]
      simp [EndsShut, ending, unread, reads, positive, hanswers]
    | cons a rest =>
      obtain ⟨hanswer, hrest, hbio⟩ := call_of_cons hanswers
      rw [hanswer]
      by_cases hpos : a.ret > 0
      · have hlater : t.call.2.ssl.answers.length < fuel := by
          rw [hanswers, List.length_cons] at hfuel
          rw [hrest]
          omega
        have hread := ih hlater (plainBuf ++ a.plain.take a.ret.toNat)
        rw [hrest, hbio, List.append_assoc] at hread
        rw [if_pos hpos, reads_cons_of_pos rest hpos, unread_cons_of_pos rest hpos,
          List.flatMap_cons]
        simp only [endsShut_cons_of_pos rest hpos]
        exact hread
      rw [if_neg hpos, reads_cons_of_not_pos rest hpos, unread_cons_of_not_pos rest hpos]
      simp only [endsShut_cons_of_not_pos rest hpos, List.flatMap_singleton]
      by_cases hzero : a.ret = 0
      · rw [if_pos hzero, if_pos hzero]
        obtain ⟨hssl, _, hdone⟩ :=
          flushEncrypted_ssl ({ t.call.2 with sslShutdown := true } : TlsConnection).call.2
        exact ⟨hdone, congrArg Ssl.outBio hssl⟩
      · rw [if_neg hzero, if_neg hzero]
        split <;> exact ⟨rfl, hrest, hbio⟩

end TlsConnection

end XNetty
