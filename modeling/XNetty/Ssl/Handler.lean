import XNetty.Channel.Connection
import XNetty.Channel.Message

/-!
# The SSL handler

`SslHandler` stands at the head of the pipeline. It hands arriving bytes to the SSL library and
moves what the library puts into its outgoing BIO to the connection's write buffer. The library
is an oracle: each call is answered, and may leave bytes in the BIO.

## Main definitions

* `Ssl` — an SSL object with the answers it has yet to give.
* `TlsConnection.channelRead`, `TlsConnection.write` — the handler.
* `TlsConnection.Steps` — what a call of the handler is made of.
* `TlsConnection.Seals` — a step that appends what it draws from the BIO, and nothing else.
-/

namespace XNetty

/-! ## The library -/

/-- `SSL_get_error`, as far as the handler tells errors apart. -/
inductive SslError where
  | wantRead
  | wantWrite
  | other
  deriving DecidableEq

/-- What a call returns, with the plaintext that `SSL_read` stores and the bytes that the call
leaves in the outgoing BIO. -/
structure SslAnswer where
  ret : ℤ
  error : SslError := .wantRead
  plain : Bytes := []
  produced : Bytes := []

/-- An SSL object between its two BIOs. Behind its last answer it wants to read. -/
structure Ssl where
  answers : List SslAnswer := []
  inBio : Bytes := []
  outBio : Bytes := []
  /-- The plaintext given to `SSL_write`. -/
  written : Bytes := []

def Ssl.call (s : Ssl) : SslAnswer × Ssl :=
  match s.answers with
  | [] => ({ ret := -1 }, s)
  | a :: rest => (a, { s with answers := rest, outBio := s.outBio ++ a.produced })

/-! ## Connections -/

/-- A connection with an `SslHandler` at the head of its pipeline. -/
structure TlsConnection where
  conn : Connection
  ssl : Ssl := {}
  handshakeDone : Bool := false
  sslShutdown : Bool := false
  /-- Everything that has been appended to `writeBuf`. -/
  appended : Bytes := []
  /-- Everything that has been read from the outgoing BIO. -/
  drawn : Bytes := []

namespace TlsConnection

def append (t : TlsConnection) (bytes : Bytes) : TlsConnection :=
  { t with
    conn := { t.conn with writeBuf := t.conn.writeBuf.writeBytes bytes }
    appended := t.appended ++ bytes }

def flush (t : TlsConnection) : TlsConnection := { t with conn := t.conn.flush }

def close (t : TlsConnection) : TlsConnection := { t with conn := t.conn.close }

/-- A call of the library. -/
def call (t : TlsConnection) : SslAnswer × TlsConnection :=
  (t.ssl.call.1, { t with ssl := t.ssl.call.2 })

/-- `BIO_write(st.inBio, data, len)`. -/
def bioWrite (t : TlsConnection) (data : Bytes) : TlsConnection :=
  { t with ssl := { t.ssl with inBio := t.ssl.inBio ++ data } }

/-- `SSL_write`, a call that is given plaintext. -/
def sslWrite (t : TlsConnection) (data : Bytes) : SslAnswer × TlsConnection :=
  (t.ssl.call.1, { t with ssl := { t.ssl.call.2 with written := t.ssl.written ++ data } })

/-- `BIO_read(st.outBio, dst, len)`. -/
def bioRead (t : TlsConnection) (len : ℕ) : Bytes × TlsConnection :=
  (t.ssl.outBio.take len,
    { t with
      ssl := { t.ssl with outBio := t.ssl.outBio.drop len }
      drawn := t.drawn ++ t.ssl.outBio.take len })

theorem length_bioRead (t : TlsConnection) {len : ℕ} (h : len ≤ t.ssl.outBio.length) :
    (t.bioRead len).1.length = len :=
  List.length_take_of_le h

theorem length_outBio_bioRead (t : TlsConnection) (len : ℕ) :
    (t.bioRead len).2.ssl.outBio.length = t.ssl.outBio.length - len := List.length_drop

/-- The loop of `flushEncrypted`, with the number of bytes written. Every turn that goes on takes
a byte out of the BIO. -/
def flushLoop : ℕ → TlsConnection → TlsConnection × ℕ
  | 0, t => (t, 0)
  | fuel + 1, t =>
    let pend := t.ssl.outBio.length
    if pend = 0 then (t, 0)
    else
      let r := t.bioRead (min pend 4096)
      if r.1.length = 0 then (r.2, 0)
      else
        let rest := flushLoop fuel (r.2.append r.1)
        (rest.1, r.1.length + rest.2)

def flushEncrypted (t : TlsConnection) : TlsConnection :=
  let r := flushLoop t.ssl.outBio.length t
  if r.2 > 0 then r.1.flush else r.1

def handleError (t : TlsConnection) : TlsConnection := t.close

/-! ## The handler -/

/-- The turns of the handshake loop that are left; `false` when `SSL_accept` fails. -/
def acceptLoop : ℕ → TlsConnection → TlsConnection × Bool
  | 0, t => (t, true)
  | turns + 1, t =>
    let r := t.call
    if r.1.ret = 1 then ({ r.2 with handshakeDone := true }, true)
    else
      match r.1.error with
      | .wantRead => (r.2.flushEncrypted, true)
      | .wantWrite => acceptLoop turns r.2.flushEncrypted
      | .other => (r.2.flushEncrypted.handleError, false)

/-- The loop over `SSL_read`, with the plaintext so far; `none` where `channelRead` returns. The
library's answers are one more turn at most. -/
def readLoop : ℕ → TlsConnection → Bytes → TlsConnection × Option Bytes
  | 0, t, plainBuf => (t, some plainBuf)
  | fuel + 1, t, plainBuf =>
    let r := t.call
    if r.1.ret > 0 then readLoop fuel r.2 (plainBuf ++ r.1.plain.take r.1.ret.toNat)
    else if r.1.ret = 0 then
      -- `SSL_shutdown` is a call too
      (({ r.2 with sslShutdown := true }.call.2).flushEncrypted.close, none)
    else if r.1.error = .other then (r.2.handleError, none)
    else (r.2, some plainBuf)

/-- `SslHandler::channelRead` of a buffer, with what it fires. -/
def channelRead (t : TlsConnection) (enc : ByteBuf) : TlsConnection × Option Msg :=
  if enc.readableBytes = 0 then (t, some (.buffer enc))
  else
    let t := t.bioWrite enc.readable
    let r := if t.handshakeDone then (t, true) else t.acceptLoop 16
    if !r.2 then (r.1, none)
    else if !r.1.handshakeDone then (r.1.flushEncrypted, none)
    else
      match r.1.readLoop (r.1.ssl.answers.length + 1) [] with
      | (t, some (b :: bs)) => (t, some (.buffer (.copyOf (b :: bs))))
      | (t, _) => (t, none)

/-- `SslHandler::write`. What it passes on ends at the head of the pipeline, where only a buffer
would be written. -/
def write (t : TlsConnection) (msg : Msg) : TlsConnection :=
  if !t.handshakeDone then t
  else
    match msg with
    | .buffer plain =>
      let r := t.sslWrite plain.readable
      if r.1.ret > 0 then r.2.flushEncrypted else r.2.handleError
    | _ => t

/-! ## What a call does -/

/-- A relation between connections that composes, and that whatever the handler does meets. -/
structure Steps (R : TlsConnection → TlsConnection → Prop) : Prop where
  refl : ∀ t, R t t
  trans : ∀ {t t' t''}, R t t' → R t' t'' → R t t''
  library : ∀ t ssl, R t { t with ssl }
  flags : ∀ t handshakeDone sslShutdown, R t { t with handshakeDone, sslShutdown }
  draw : ∀ t ssl bytes, R t ({ t with ssl, drawn := t.drawn ++ bytes }.append bytes)
  flush : ∀ t, R t t.flush
  close : ∀ t, R t t.close

namespace Steps

variable {R : TlsConnection → TlsConnection → Prop} (h : Steps R)

include h

theorem flushLoop (fuel : ℕ) (t : TlsConnection) : R t (flushLoop fuel t).1 := by
  induction fuel generalizing t with
  | zero => exact h.refl t
  | succ fuel ih =>
    unfold TlsConnection.flushLoop
    dsimp only
    split
    · exact h.refl t
    split
    next hnone =>
      -- nothing came out, and nothing is appended
      rw [List.length_eq_zero_iff] at hnone
      have hdrawn := congrArg (t.drawn ++ ·) hnone
      simp only [List.append_nil] at hdrawn
      generalize hlen : min t.ssl.outBio.length 4096 = len at hdrawn ⊢
      have hread : (t.bioRead len).2 = { t with ssl := (t.bioRead len).2.ssl } :=
        congrArg (fun drawn => { t with ssl := (t.bioRead len).2.ssl, drawn }) hdrawn
      rw [hread]
      exact h.library t _
    · exact h.trans (h.draw t _ _) (ih _)

theorem flushEncrypted (t : TlsConnection) : R t t.flushEncrypted := by
  refine h.trans (h.flushLoop t.ssl.outBio.length t) ?_
  unfold TlsConnection.flushEncrypted
  dsimp only
  split
  · exact h.flush _
  · exact h.refl _

theorem acceptLoop (turns : ℕ) (t : TlsConnection) : R t (acceptLoop turns t).1 := by
  induction turns generalizing t with
  | zero => exact h.refl t
  | succ turns ih =>
    have hflushed : R t t.call.2.flushEncrypted :=
      h.trans (h.library t _) (h.flushEncrypted t.call.2)
    unfold TlsConnection.acceptLoop
    dsimp only
    split
    · exact h.trans (h.library t _) (h.flags t.call.2 true _)
    split
    · exact hflushed
    · exact h.trans hflushed (ih _)
    · exact h.trans hflushed (h.close _)

theorem readLoop (fuel : ℕ) (t : TlsConnection) (plainBuf : Bytes) :
    R t (readLoop fuel t plainBuf).1 := by
  induction fuel generalizing t plainBuf with
  | zero => exact h.refl t
  | succ fuel ih =>
    have hcall : R t t.call.2 := h.library t _
    unfold TlsConnection.readLoop
    dsimp only
    split
    · exact h.trans hcall (ih _ _)
    split
    · have hshut : R t ({ t.call.2 with sslShutdown := true }.call.2) :=
        h.trans (h.trans hcall (h.flags t.call.2 _ true)) (h.library _ _)
      exact h.trans (h.trans hshut (h.flushEncrypted _)) (h.close _)
    split
    · exact h.trans hcall (h.close _)
    · exact hcall

theorem channelRead (t : TlsConnection) (enc : ByteBuf) : R t (t.channelRead enc).1 := by
  unfold TlsConnection.channelRead
  split
  · exact h.refl t
  extract_lets received r
  have hreceived : R t r.1 := by
    have hbio : R t received := h.library t _
    refine h.trans hbio ?_
    simp only [r]
    split
    · exact h.refl _
    · exact h.acceptLoop _ _
  clear_value r
  split
  · exact hreceived
  split
  · exact h.trans hreceived (h.flushEncrypted _)
  have hread := h.trans hreceived (h.readLoop (r.1.ssl.answers.length + 1) r.1 [])
  split
  next heq => rwa [heq] at hread
  next heq => rwa [heq] at hread

theorem write (t : TlsConnection) (msg : Msg) : R t (t.write msg) := by
  unfold TlsConnection.write
  split
  · exact h.refl t
  cases msg with
  | buffer plain =>
    have hcall : R t (t.sslWrite plain.readable).2 := h.library t _
    dsimp only
    split
    · exact h.trans hcall (h.flushEncrypted _)
    · exact h.trans hcall (h.close _)
  | _ => exact h.refl t

end Steps

/-! ## What is appended -/

/-- Everything appended between the two states was drawn from the BIO. -/
def Seals (t t' : TlsConnection) : Prop :=
  ∃ bytes, t'.appended = t.appended ++ bytes ∧ t'.drawn = t.drawn ++ bytes

/-- A step that neither appends nor draws. -/
theorem Seals.of_eq {t t' : TlsConnection} (happended : t'.appended = t.appended)
    (hdrawn : t'.drawn = t.drawn) : Seals t t' :=
  ⟨[], by rw [happended, List.append_nil], by rw [hdrawn, List.append_nil]⟩

/-- **The handler** appends nothing but ciphertext. -/
theorem steps_seals : Steps Seals where
  refl _ := .of_eq rfl rfl
  trans := by
    rintro t t' t'' ⟨bytes, happended, hdrawn⟩ ⟨bytes', happended', hdrawn'⟩
    exact ⟨bytes ++ bytes', by rw [happended', happended, List.append_assoc],
      by rw [hdrawn', hdrawn, List.append_assoc]⟩
  library _ _ := .of_eq rfl rfl
  flags _ _ _ := .of_eq rfl rfl
  draw _ _ bytes := ⟨bytes, rfl, rfl⟩
  flush _ := .of_eq rfl rfl
  close _ := .of_eq rfl rfl

end TlsConnection

end XNetty
