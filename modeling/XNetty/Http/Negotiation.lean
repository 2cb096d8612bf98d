import XNetty.Http.Compression
import XNetty.Lib.Ledger

/-!
# Negotiating the coding of a response

`CompressorHandler` notes for its connection what the request it reads asks for, and encodes the
responses that are written by what it has noted last.

## Main definitions

* `HttpRequest.Accepts` — a coding has a weight in a request's `Accept-Encoding`.
* `Exchange` — requests arrive on a connection, and responses are written in their order.
* `Negotiation.Agreed` — what is noted is accepted by the request that is answered.
-/

namespace XNetty

/-! ### What a request accepts -/

def acceptEncodingName : Bytes := ascii "accept-encoding"

/-- The name of an element, in front of its parameters. -/
def elementName (element : Bytes) : Bytes := Reader.trim (element.takeWhile (· ≠ 59))

/-- `0`, or `0.` and zeros. -/
def ZeroWeight (weight : Bytes) : Prop :=
  weight = ascii "0" ∨ ascii "0." <+: weight ∧ ∀ digit ∈ weight.drop 2, digit = 48

instance (weight : Bytes) : Decidable (ZeroWeight weight) :=
  inferInstanceAs (Decidable (_ ∨ _ ∧ _))

/-- No parameter of the element takes its weight. -/
def Weighs (element : Bytes) : Prop :=
  ∀ parameter ∈ (element.splitOn 59).tail.map Reader.trim,
    ascii "q=" <+: parameter → ¬ ZeroWeight (parameter.drop 2)

instance (element : Bytes) : Decidable (Weighs element) :=
  inferInstanceAs (Decidable (∀ _ ∈ _, _ → _))

namespace HttpRequest

/-- The elements of all `Accept-Encoding` fields. -/
def acceptElements (req : HttpRequest) : List Bytes :=
  (req.ensureHeadersParsed.headers.filter (NameIs acceptEncodingName ·)).flatMap
    fun kv => elements kv.2

/-- An element of this name has a weight. -/
def Lists (req : HttpRequest) (name : Bytes) : Prop :=
  ∃ element ∈ req.acceptElements, elementName element = name ∧ Weighs element

instance (req : HttpRequest) (name : Bytes) : Decidable (req.Lists name) :=
  inferInstanceAs (Decidable (∃ _ ∈ _, _))

/-- The coding is named with a weight, or not named and `*` has one. -/
def Accepts (req : HttpRequest) (coding : Bytes) : Prop :=
  req.Lists coding ∨
    (∀ element ∈ req.acceptElements, elementName element ≠ coding) ∧ req.Lists (ascii "*")

instance (req : HttpRequest) (coding : Bytes) : Decidable (req.Accepts coding) :=
  inferInstanceAs (Decidable (_ ∨ _ ∧ _))

/-- The value that `CompressorHandler::channelRead` looks at. -/
def acceptEncoding (req : HttpRequest) : Bytes := (req.header (ascii "Accept-Encoding")).1

/-- The coding whose name that value has somewhere in it. -/
def mentions (req : HttpRequest) : Option ContentEncoding :=
  if ascii "gzip" <:+: req.acceptEncoding then some .gzip
  else if ascii "deflate" <:+: req.acceptEncoding then some .deflate
  else none

end HttpRequest

/-! ### The handler -/

/-- A response with a body. -/
def Msg.compressible : Msg → Bool
  | .response resp => resp.body ≠ []
  | _ => false

namespace CompressorHandler

def PeerState.coding (p : PeerState) : Option ContentEncoding :=
  if p.supportsCompression then some p.encoding else none

/-- The coding that `write` applies to a message. -/
def applied (p : PeerState) (msg : Msg) : Option ContentEncoding :=
  if msg.compressible then p.coding else none

/-- **What `write` sends on**: the message, or the text of the compressed response, which has the
coding under `Content-Encoding`. -/
theorem write_applied (compress : ContentEncoding → Bytes → Bytes) (p : PeerState) (msg : Msg) :
    (applied p msg = none → write compress p msg = msg) ∧
      ∀ enc, applied p msg = some enc → ∃ resp, msg = .response resp ∧ resp.body ≠ [] ∧
        write compress p msg = .buffer (resp.compressed compress enc).toByteBuf := by
  unfold applied PeerState.coding
  cases msg with
  | response resp =>
    obtain ⟨supportsCompression, encoding⟩ := p
    by_cases hbody : resp.body = []
    · simp [Msg.compressible, hbody, write, compressAndForward]
    · cases supportsCompression with
      | false => simp [write]
      | true =>
        refine ⟨by simp [Msg.compressible, hbody], fun enc henc => ⟨resp, rfl, hbody, ?_⟩⟩
        obtain rfl : encoding = enc := by simpa [Msg.compressible, hbody] using henc
        have hname : (if encoding = .gzip then ascii "gzip" else ascii "deflate") =
            encoding.name := by
          cases encoding <;> rfl
        simp only [write, Bool.not_true, Bool.false_eq_true, if_false, hname,
          compressAndForward, if_neg hbody, HttpResponse.compressed]
  | _ =>
    refine ⟨fun _ => ?_, fun enc henc => by simp [Msg.compressible] at henc⟩
    unfold write
    split
    · rfl
    · rfl

theorem coding_notePeer (p : PeerState) (req : HttpRequest) :
    (notePeer p req.acceptEncoding).coding = req.mentions := by
  unfold notePeer HttpRequest.mentions
  split
  · rfl
  split
  · rfl
  · rfl

end CompressorHandler

/-! ### The connection -/

/-- What happens on a connection. -/
inductive Exchange where
  /-- `CompressorHandler::channelRead`. A handler answers the request now or later, or none does:
  `Gzip::decompress` may throw on its body, and then it goes no further. -/
  | arrive (req : HttpRequest) (answered : Bool)
  /-- A handler writes its response to the oldest request that waits for one. -/
  | respond (msg : Msg)

structure Negotiated where
  request : HttpRequest
  coding : Option ContentEncoding

structure Negotiation where
  peer : CompressorHandler.PeerState := {}
  /-- The request that arrived last. -/
  last : Option HttpRequest := none
  waiting : List HttpRequest := []
  answers : List Negotiated := []

namespace Negotiation

def step (s : Negotiation) : Exchange → Negotiation
  | .arrive req answered =>
    { s with
      peer := CompressorHandler.notePeer s.peer req.acceptEncoding
      last := some req
      waiting := if answered then s.waiting ++ [req] else s.waiting }
  | .respond msg =>
    match s.waiting with
    | [] => s
    | request :: waiting =>
      { s with
        waiting
        answers := s.answers ++ [{ request, coding := CompressorHandler.applied s.peer msg }] }

def run (exchanges : List Exchange) : Negotiation := exchanges.foldl step {}

/-- Every response has a coding that its request accepts, or none. -/
def Allowed (s : Negotiation) : Prop :=
  ∀ answer ∈ s.answers, ∀ enc ∈ answer.coding, answer.request.Accepts enc.name

instance (s : Negotiation) : Decidable s.Allowed := inferInstanceAs (Decidable (∀ _ ∈ _, _))

/-- When a response with a body is written, its request accepts what the last one that arrived
mentions. -/
def Agreed (s : Negotiation) : Exchange → Prop
  | .arrive _ _ => True
  | .respond msg => msg.compressible → ∀ own ∈ s.waiting.head?, ∀ last ∈ s.last,
      ∀ enc ∈ last.mentions, own.Accepts enc.name

/-- The peer state is what the last request mentions. -/
def Noted (s : Negotiation) : Prop := s.peer.coding = s.last.bind HttpRequest.mentions

theorem noted_step (s : Negotiation) (exchange : Exchange) (h : s.Noted) :
    (s.step exchange).Noted := by
  cases exchange with
  | arrive req answered => exact CompressorHandler.coding_notePeer s.peer req
  | respond msg =>
    rw [step]
    split
    · exact h
    · exact h

theorem allowed_step (s : Negotiation) (exchange : Exchange) (h : s.Noted) :
    (s.step exchange).Allowed ↔ s.Allowed ∧ s.Agreed exchange := by
  cases exchange with
  | arrive req answered => exact (and_iff_left trivial).symm
  | respond msg =>
    rw [step, Agreed]
    cases hwaiting : s.waiting with
    | nil => simp
    | cons own waiting =>
      have hnew : (∀ enc ∈ CompressorHandler.applied s.peer msg, own.Accepts enc.name) ↔
          (msg.compressible → ∀ last ∈ s.last, ∀ enc ∈ last.mentions, own.Accepts enc.name) := by
        rw [CompressorHandler.applied, h]
        cases msg.compressible with
        | false => simp
        | true => cases s.last <;> simp
      simp only [Allowed, List.forall_mem_append, List.forall_mem_singleton, hnew]
      simp

/-- **When responses are encoded as their requests allow**, for every interleaving of requests
that arrive on a connection with the responses. -/
theorem run_allowed_iff (exchanges : List Exchange) :
    (run exchanges).Allowed ↔ Ledger.Along step Agreed {} exchanges := by
  have hnoted : Noted {} := rfl
  have hallowed : Allowed {} := fun answer h => absurd h List.not_mem_nil
  rw [run, Ledger.foldl_iff_along Noted noted_step allowed_step hnoted]
  exact and_iff_right hallowed

/-- A request with one header. -/
def accepting (value : Bytes) : HttpRequest :=
  { headers := [(ascii "Accept-Encoding", value)]
    headersParsed := true }

def page : Msg := .response (({} : HttpResponse).setContent (ascii "hi"))

/-- A request that refuses gzip, and one that is answered after another one has arrived. -/
theorem not_allowed_refused_overtaken :
    ¬ (run [.arrive (accepting (ascii "gzip;q=0")) true, .respond page]).Allowed ∧
      ¬ (run [.arrive (accepting (ascii "deflate")) true,
        .arrive (accepting (ascii "gzip")) true, .respond page]).Allowed := by
  decide +kernel

end Negotiation

end XNetty
