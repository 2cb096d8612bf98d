import XNetty.Lib.Ledger
import XNetty.Ssl.Flushing

/-!
# What becomes of the ciphertext

A connection takes one call after the other. What `channelRead` fires may be replied to before it
returns, and a reply that succeeds flushes.

## Main definitions

* `TlsConnection.Flushes` — the calls that leave nothing in the BIO.
* `TlsConnection.Sealed` — all that the library has produced has been appended.
* `TlsConnection.sealed_run_iff` — the runs along which it always has.
-/

namespace XNetty

namespace TlsConnection

/-! ### Replies -/

/-- What the handlers behind do. -/
inductive Reply where
  | write (msg : Msg)
  | flush
  | close
  | setKeepAlive (ka : Bool)

def reply (t : TlsConnection) : Reply → TlsConnection
  | .write msg => t.write msg
  | .flush => t.flush
  | .close => t.close
  | .setKeepAlive ka => { t with conn := t.conn.setKeepAlive ka }

/-- The reply is given to `SSL_write`. -/
def Reply.isPlain : Reply → Bool
  | .write (.buffer _) => true
  | _ => false

/-- The number of calls of `SSL_write`. -/
def writes (replies : List Reply) : ℕ := replies.countP Reply.isPlain

/-- Whatever waits, or is produced by a call of `SSL_write`, is followed by a call that
succeeds. -/
def WritesFlush (waiting : Bytes) (answers : List SslAnswer) : Prop :=
  (waiting = [] ∨ ∃ a ∈ answers, a.ret > 0) ∧
    ∀ a later, a :: later <:+ answers → a.produced = [] ∨ ∃ b ∈ a :: later, b.ret > 0

theorem writesFlush_nil (waiting : Bytes) : WritesFlush waiting [] ↔ waiting = [] := by
  simp [WritesFlush]

theorem writesFlush_cons (waiting : Bytes) (a : SslAnswer) (answers : List SslAnswer) :
    WritesFlush waiting (a :: answers) ↔
      WritesFlush (if a.ret > 0 then [] else waiting ++ a.produced) answers := by
  have hsuffix (P : SslAnswer → List SslAnswer → Prop) :
      (∀ b later, b :: later <:+ a :: answers → P b later) ↔
        P a answers ∧ ∀ b later, b :: later <:+ answers → P b later := by
    simp only [List.suffix_cons_iff, List.cons.injEq]
    constructor
    · intro h
      exact ⟨h a answers (.inl ⟨rfl, rfl⟩), fun b later hlater => h b later (.inr hlater)⟩
    · rintro ⟨hfirst, hrest⟩ b later (⟨rfl, rfl⟩ | hlater)
      · exact hfirst
      · exact hrest b later hlater
  unfold WritesFlush
  rw [hsuffix]
  split
  next hpos => simp [hpos]
  next hneg =>
    simp only [List.exists_mem_cons_iff, hneg, false_or, List.append_eq_nil_iff]
    tauto

/-- **`SSL_write` succeeds**, and flushes, or what it produces waits with the rest. -/
theorem reply_of_isPlain {t : TlsConnection} (h : t.handshakeDone = true) {r : Reply}
    (hr : r.isPlain = true) :
    (t.reply r).handshakeDone = true ∧ (t.reply r).ssl.answers = t.ssl.answers.tail ∧
      (t.reply r).ssl.outBio =
        if t.ssl.call.1.ret > 0 then [] else t.ssl.outBio ++ t.ssl.call.1.produced := by
  obtain ⟨plain, rfl⟩ : ∃ plain, r = .write (.buffer plain) := by
    unfold Reply.isPlain at hr
    split at hr
    · exact ⟨_, rfl⟩
    · cases hr
  have hanswers : (t.sslWrite plain.readable).2.ssl.answers = t.ssl.answers.tail := by
    change t.ssl.call.2.answers = _
    unfold Ssl.call
    cases hnone : t.ssl.answers
    · exact hnone
    · rfl
  have hproduced : (t.sslWrite plain.readable).2.ssl.outBio =
      t.ssl.outBio ++ t.ssl.call.1.produced := by
    obtain ⟨_, _, _, hproduced⟩ := call_ssl t.ssl
    exact hproduced
  have hopen : ¬(!t.handshakeDone) = true := by simp [h]
  unfold reply write
  dsimp only
  rw [if_neg hopen]
  by_cases hret : t.ssl.call.1.ret > 0
  · have hret' : (t.sslWrite plain.readable).1.ret > 0 := hret
    obtain ⟨hssl, _, hdone⟩ := flushEncrypted_ssl (t.sslWrite plain.readable).2
    rw [if_pos hret', if_pos hret, hssl]
    exact ⟨hdone.trans h, hanswers, rfl⟩
  · have hret' : ¬(t.sslWrite plain.readable).1.ret > 0 := hret
    rw [if_neg hret', if_neg hret]
    exact ⟨h, hanswers, hproduced⟩

/-- Nothing else calls the library, nor does a write before the handshake is done. -/
theorem reply_of_not {t : TlsConnection} {r : Reply}
    (h : t.handshakeDone = false ∨ r.isPlain = false) :
    (t.reply r).ssl = t.ssl ∧ (t.reply r).handshakeDone = t.handshakeDone := by
  cases r with
  | write msg =>
    unfold reply write
    dsimp only
    rcases h with h | h
    · have hshut : (!t.handshakeDone) = true := by simp [h]
      rw [if_pos hshut]
      exact ⟨rfl, rfl⟩
    · cases msg with
      | buffer plain => cases h
      | _ => split <;> exact ⟨rfl, rfl⟩
  | flush | close | setKeepAlive => exact ⟨rfl, rfl⟩

/-- **Replies** leave nothing in the BIO just when they flush. -/
theorem replies_outBio_iff {t : TlsConnection} (h : t.handshakeDone = true)
    (replies : List Reply) :
    (replies.foldl reply t).ssl.outBio = [] ↔
      WritesFlush t.ssl.outBio (t.ssl.answers.take (writes replies)) := by
  induction replies generalizing t with
  | nil => rw [writes, List.countP_nil, List.take_zero, writesFlush_nil, List.foldl_nil]
  | cons r replies ih =>
    rw [List.foldl_cons, writes]
    by_cases hr : r.isPlain = true
    · obtain ⟨hdone, hanswers, hbio⟩ := reply_of_isPlain h hr
      rw [ih hdone, hanswers, hbio, List.countP_cons_of_pos hr, Ssl.call]
      cases t.ssl.answers with
      | nil => simp
      | cons a rest => rw [List.take_succ_cons, writesFlush_cons, List.tail_cons, writes]
    · obtain ⟨hssl, hdone⟩ := reply_of_not (t := t) (.inr (Bool.eq_false_iff.mpr hr))
      rw [ih (hdone.trans h), hssl, List.countP_cons_of_neg hr, writes]

/-- Before the handshake is done nothing is written. -/
theorem replies_ssl {t : TlsConnection} (h : t.handshakeDone = false) (replies : List Reply) :
    (replies.foldl reply t).ssl = t.ssl := by
  induction replies generalizing t with
  | nil => rfl
  | cons r replies ih =>
    obtain ⟨hssl, hdone⟩ := reply_of_not (r := r) (.inl h)
    exact (ih (hdone.trans h)).trans hssl

/-! ### The handler -/

/-- What is called on a connection. The handlers behind reply to what `channelRead` fires before
it returns. -/
inductive HandlerCall where
  | channelRead (enc : ByteBuf) (replies : List Reply)
  | reply (r : Reply)
  | onWrite

def replyTo (replies : List Reply) (r : TlsConnection × Option Msg) : TlsConnection :=
  if r.2.isSome then replies.foldl reply r.1 else r.1

def handle (t : TlsConnection) : HandlerCall → TlsConnection
  | .channelRead enc replies => replyTo replies (t.channelRead enc)
  | .reply r => t.reply r
  | .onWrite => { t with conn := t.conn.onWrite }

/-- The answers to the replies to what is fired behind the read loop. -/
def replied (answers : List SslAnswer) (replies : List Reply) : List SslAnswer :=
  if EndsWaiting answers ∧ plaintext answers ≠ [] then (unread answers).take (writes replies)
  else []

/-- The read loop flushes, or the replies do; or there is nothing to flush. -/
def ReadsFlush (waiting : Bytes) (answers : List SslAnswer) (replies : List Reply) : Prop :=
  EndsShut answers ∨
    WritesFlush (waiting ++ (reads answers).flatMap SslAnswer.produced) (replied answers replies)

def RepliesFlush (t : TlsConnection) (replies : List Reply) : Prop :=
  t.handshakeDone = true → WritesFlush [] (t.ssl.answers.take (writes replies))

/-- What the call that completes the handshake produces waits for the read loop; a handshake that
goes on flushes. An empty buffer is fired. -/
def ReadFlushes (t : TlsConnection) (enc : ByteBuf) (replies : List Reply) : Prop :=
  if enc.readableBytes = 0 then t.RepliesFlush replies
  else if t.handshakeDone then ReadsFlush [] t.ssl.answers replies
  else ∀ found ∈ completing 16 t.ssl.answers, ReadsFlush found.1.produced found.2 replies

/-- The calls that leave nothing in the BIO. -/
def Flushes (t : TlsConnection) : HandlerCall → Prop
  | .channelRead enc replies => t.ReadFlushes enc replies
  | .reply r => t.RepliesFlush [r]
  | .onWrite => True

theorem carries_channelRead (t : TlsConnection) (enc : ByteBuf) :
    Carries t (t.channelRead enc).1 := by
  unfold channelRead
  split
  · exact .refl t
  extract_lets received r
  have hreceived : Carries t r.1 := by
    have hbio : Carries t received := .of_eq rfl rfl rfl
    refine hbio.trans ?_
    simp only [r]
    split
    · exact .refl _
    · exact carries_acceptLoop _ _
  clear_value r
  split
  · exact hreceived
  split
  · exact hreceived.trans (carries_flushEncrypted _)
  have hread := hreceived.trans (carries_readLoop (r.1.ssl.answers.length + 1) r.1 [])
  split
  next heq => rwa [heq] at hread
  next heq => rwa [heq] at hread

theorem carries_reply (t : TlsConnection) (r : Reply) : Carries t (t.reply r) := by
  cases r with
  | write msg =>
    unfold reply write
    dsimp only
    split
    · exact .refl t
    cases msg with
    | buffer plain =>
      have hcall := carries_sslWrite t plain.readable
      dsimp only
      split
      · exact hcall.trans (carries_flushEncrypted _)
      · exact hcall.trans (.of_eq rfl rfl rfl)
    | _ => exact .refl t
  | flush | close | setKeepAlive => exact .of_eq rfl rfl rfl

theorem carries_handle (t : TlsConnection) (c : HandlerCall) : Carries t (t.handle c) := by
  cases c with
  | channelRead enc replies =>
    have hread := carries_channelRead t enc
    unfold handle replyTo
    dsimp only
    split
    · exact Ledger.foldl_preserves (Carries t) (fun t' r h => h.trans (carries_reply t' r)) hread
        replies
    · exact hread
  | reply r => exact carries_reply t r
  | onWrite => exact .of_eq rfl rfl rfl

/-- Behind a handshake that is done, `channelRead` is its read loop, and fires what that hands
on. -/
theorem channelRead_eq {t : TlsConnection} {enc : ByteBuf} (henc : enc.readableBytes ≠ 0)
    {r : TlsConnection × Bool}
    (hr : (if t.handshakeDone then (t.bioWrite enc.readable, true)
      else (t.bioWrite enc.readable).acceptLoop 16) = r)
    (hok : r.2 = true) (hdone : r.1.handshakeDone = true) :
    (t.channelRead enc).1 = (readLoop (r.1.ssl.answers.length + 1) r.1 []).1 ∧
      ((t.channelRead enc).2.isSome = true ↔
        EndsWaiting r.1.ssl.answers ∧ plaintext r.1.ssl.answers ≠ []) := by
  have hopen : (t.bioWrite enc.readable).handshakeDone = t.handshakeDone := rfl
  have hread := readLoop_snd (t := r.1) (Nat.lt_succ_self _) []
  unfold channelRead
  rw [if_neg henc]
  simp only [hopen, hr, hok, hdone, Bool.not_true, Bool.false_eq_true, if_false]
  rw [List.nil_append] at hread
  generalize readLoop (r.1.ssl.answers.length + 1) r.1 [] = found at hread ⊢
  obtain ⟨t', left⟩ := found
  change left = _ at hread
  rw [hread]
  by_cases hwaiting : EndsWaiting r.1.ssl.answers
  · rw [if_pos hwaiting, and_iff_right hwaiting]
    cases plaintext r.1.ssl.answers <;> simp
  · simp [hwaiting]

/-- Behind a handshake that is done, `channelRead` leaves nothing in the BIO just when its read
loop or the replies flush. -/
theorem replyTo_outBio_iff {t : TlsConnection} {enc : ByteBuf} (henc : enc.readableBytes ≠ 0)
    {r : TlsConnection × Bool}
    (hr : (if t.handshakeDone then (t.bioWrite enc.readable, true)
      else (t.bioWrite enc.readable).acceptLoop 16) = r)
    (hok : r.2 = true) (hdone : r.1.handshakeDone = true) (replies : List Reply) :
    (replyTo replies (t.channelRead enc)).ssl.outBio = [] ↔
      ReadsFlush r.1.ssl.outBio r.1.ssl.answers replies := by
  obtain ⟨hread, hfired⟩ := channelRead_eq henc hr hok hdone
  obtain ⟨hstill, hleft⟩ := readLoop_fst (t := r.1) (Nat.lt_succ_self _) []
  rw [← hread] at hstill hleft
  unfold ReadsFlush replied replyTo
  by_cases hshut : EndsShut r.1.ssl.answers
  · have hnone : ¬EndsWaiting r.1.ssl.answers := by
      obtain ⟨a, ha, hzero⟩ := hshut
      exact fun hwaiting => (hwaiting a ha).1 hzero
    rw [if_pos hshut] at hleft
    rw [if_neg fun h => hnone (hfired.mp h).1]
    exact iff_of_true hleft (.inl hshut)
  rw [if_neg hshut] at hleft
  rw [or_iff_right hshut, ← hleft.2]
  simp only [← hfired]
  by_cases hsome : (t.channelRead enc).2.isSome = true
  · rw [if_pos hsome, if_pos hsome, replies_outBio_iff (hstill.trans hdone), hleft.1]
  · rw [if_neg hsome, if_neg hsome, writesFlush_nil]

theorem replies_iff {t : TlsConnection} (hbio : t.ssl.outBio = []) (replies : List Reply) :
    (replies.foldl reply t).ssl.outBio = [] ↔ t.RepliesFlush replies := by
  unfold RepliesFlush
  by_cases hdone : t.handshakeDone = true
  · rw [replies_outBio_iff hdone, hbio]
    simp [hdone]
  · rw [replies_ssl (Bool.eq_false_iff.mpr hdone)]
    simp [hdone, hbio]

/-- **`channelRead`** leaves nothing in the BIO just when it flushes. -/
theorem channelRead_outBio_iff {t : TlsConnection} (hbio : t.ssl.outBio = []) (enc : ByteBuf)
    (replies : List Reply) :
    (replyTo replies (t.channelRead enc)).ssl.outBio = [] ↔ t.ReadFlushes enc replies := by
  unfold ReadFlushes
  by_cases hempty : enc.readableBytes = 0
  · have hread : t.channelRead enc = (t, some (.buffer enc)) := by rw [channelRead, if_pos hempty]
    rw [if_pos hempty, hread]
    exact replies_iff hbio replies
  rw [if_neg hempty]
  by_cases hdone : t.handshakeDone = true
  · rw [if_pos hdone, replyTo_outBio_iff hempty (if_pos hdone) rfl hdone]
    change ReadsFlush t.ssl.outBio t.ssl.answers replies ↔ _
    rw [hbio]
  have hopen : t.handshakeDone = false := Bool.eq_false_iff.mpr hdone
  rw [if_neg hdone]
  cases hfound : completing 16 t.ssl.answers with
  | none =>
    obtain ⟨hflushed, hstill⟩ := acceptLoop_of_none (t := t.bioWrite enc.readable) hbio hopen hfound
    refine iff_of_true ?_ (by simp)
    have hopen' : (t.bioWrite enc.readable).handshakeDone = false := hopen
    unfold replyTo channelRead
    rw [if_neg hempty]
    simp only [hopen', hstill, Bool.false_eq_true, if_false, Bool.not_false, if_true]
    split
    · exact hflushed
    · exact congrArg Ssl.outBio (flushEncrypted_ssl _).1
  | some found =>
    obtain ⟨a, rest⟩ := found
    obtain ⟨hok, hcompleted, hproduced, hrest⟩ :=
      acceptLoop_of_some (t := t.bioWrite enc.readable) hbio hfound
    rw [replyTo_outBio_iff hempty (if_neg hdone) hok hcompleted, hproduced, hrest]
    simp

theorem handle_outBio_iff {t : TlsConnection} (hbio : t.ssl.outBio = []) (c : HandlerCall) :
    (t.handle c).ssl.outBio = [] ↔ t.Flushes c := by
  cases c with
  | channelRead enc replies => exact channelRead_outBio_iff hbio enc replies
  | reply r => exact replies_iff hbio [r]
  | onWrite => exact iff_of_true hbio trivial

/-! ### Runs -/

/-- A connection whose library will give these answers. -/
def fresh (conn : Connection) (answers : List SslAnswer) : TlsConnection :=
  { conn, ssl := { answers } }

/-- The outgoing BIO is empty: all that the library has produced has been appended to the write
buffer, in order. -/
def Sealed (answers : List SslAnswer) (t : TlsConnection) : Prop :=
  t.ssl.outBio = [] ∧ ∃ used, answers = used ++ t.ssl.answers ∧
    t.appended = used.flatMap SslAnswer.produced

theorem sealed_iff_of_carries {conn : Connection} {answers : List SslAnswer} {t : TlsConnection}
    (h : Carries (fresh conn answers) t) : Sealed answers t ↔ t.ssl.outBio = [] := by
  refine and_iff_left_of_imp fun hbio => ?_
  obtain ⟨used, bytes, hanswers, happended, hproduced⟩ := h
  rw [hbio, List.append_nil] at hproduced
  exact ⟨used, hanswers, happended.trans hproduced.symm⟩

theorem carries_foldl (t : TlsConnection) (calls : List HandlerCall) :
    Carries t (calls.foldl handle t) := by
  induction calls generalizing t with
  | nil => exact .refl t
  | cons c calls ih => exact (carries_handle t c).trans (ih _)

open Ledger

/-- **No ciphertext is left behind** at any moment of a run just when each of its calls flushes. -/
theorem sealed_run_iff (conn : Connection) (answers : List SslAnswer) (calls : List HandlerCall) :
    (∀ done, done <+: calls → Sealed answers (done.foldl handle (fresh conn answers))) ↔
      Along handle Flushes (fresh conn answers) calls := by
  have hsealed (done : List HandlerCall) :
      Sealed answers (done.foldl handle (fresh conn answers)) ↔
        (done.foldl handle (fresh conn answers)).ssl.outBio = [] :=
    sealed_iff_of_carries (carries_foldl _ done)
  rw [← along_iff_of_invariant (fun t => t.ssl.outBio = [])
    (fun _ c hbio => handle_outBio_iff hbio c)
    (fun _ c hbio hflushes => (handle_outBio_iff hbio c).mpr hflushes) rfl, along_iff_prefix]
  constructor
  · intro h done c hdone
    have hafter := (hsealed _).mp (h _ hdone)
    rwa [List.foldl_append] at hafter
  · intro h done hdone
    rw [hsealed]
    rcases List.eq_nil_or_concat done with rfl | ⟨before, c, rfl⟩
    · rfl
    · rw [List.concat_eq_append] at hdone ⊢
      rw [List.foldl_append]
      exact h before c hdone

/-- The `SSL_accept` that completes the handshake leaves its last flight behind. -/
theorem not_sealed_accept :
    ¬∀ (conn : Connection) (answers : List SslAnswer) (calls : List HandlerCall),
      Sealed answers (calls.foldl handle (fresh conn answers)) := by
  intro hall
  have hsealed := hall { socket := { answers := fun _ => .again } } [{ ret := 1, produced := [9] }]
    [.channelRead (.copyOf [23]) []]
  exact absurd hsealed.1 (by decide +kernel)

end TlsConnection

end XNetty
