import XNetty.Http.Stream
import XNetty.Http.Delivery
import XNetty.Channel.Drain
import XNetty.Lib.Ledger

/-!
# The last request that is served

A request with `Connection: close` is to be the last one served. The codec notes it in the
connection's keep-alive flag and goes on with the bytes it has; the flush that sends the response
reads the flag and marks the connection closed, and the worker reads no more.

## Main definitions

* `Server` — a connection with the bytes that its peer has yet to send.
* `Server.step` — reads, what a read does one after the other, responses, and write events.
* `Server.Orderly` — when a step keeps the order.
* `Server.run_lastServed` — a run of such steps serves the same requests, however it is cut.
-/

namespace XNetty

namespace Connection

variable {c : Connection}

/-! ### Closed for good -/

theorem closed_writeAndFlush (h : c.closed = true) (resp : HttpResponse) :
    (c.writeAndFlush resp).closed = true := by
  unfold writeAndFlush
  apply closed_flushWriteBuf
  split
  · exact closed_fireWrite h _
  · exact closed_fireWrite h _

/-- A flush that is not refused closes a connection that is not kept alive. -/
theorem closed_of_flushWriteBuf (hka : c.keepAlive = false) (hleft : 0 < c.writeBuf.readableBytes)
    (hanswer : c.socket.answers 0 ≠ .again) : c.flushWriteBuf.closed = true := by
  match hfirst : c.socket.answers 0 with
  | .again => exact absurd hfirst hanswer
  | .accept (n + 1) => exact (flushWriteBuf_accept hleft hka hfirst).1
  | .accept 0 =>
    rw [flushWriteBuf, if_neg (by omega)]
    simp [Socket.write, hfirst]
  | .fail =>
    rw [flushWriteBuf, if_neg (by omega)]
    simp [Socket.write, hfirst]

/-- **A response that closes the connection**: it is closed if the connection is not kept alive
then, and one of the two flushes is not refused. -/
theorem closed_of_writeAndFlush (hka : c.keepAlive = false)
    (hanswers : ¬ (c.socket.answers 0 = .again ∧ c.socket.answers 1 = .again))
    (resp : HttpResponse) : (c.writeAndFlush resp).closed = true := by
  have hpos := List.length_pos_iff.mpr (resp.setKeepAlive false).serialized_ne_nil
  have hneed := c.readableBytes_loaded (resp.setKeepAlive false).serialized
  have hwrite : c.writeAndFlush resp =
      ((c.fireResponse (resp.setKeepAlive false)).setKeepAlive false).flushWriteBuf := by
    rw [writeAndFlush, hka]
    rfl
  rw [hwrite, fireResponse_eq]
  generalize hd : c.loaded (resp.setKeepAlive false).serialized = d at hneed
  have hkeep : d.keepAlive = false := by rw [← hd, keepAlive_loaded, hka]
  have hsocket : d.socket = c.socket := by rw [← hd, socket_loaded]
  rw [← hsocket] at hanswers
  split
  · exact closed_flushWriteBuf (closed_close d)
  · by_cases hfirst : d.socket.answers 0 = .again
    · -- the first flush is refused, and so the second is not
      rw [flushWriteBuf_again (by omega) hfirst]
      exact closed_of_flushWriteBuf rfl (by exact (by omega : 0 < d.writeBuf.readableBytes))
        fun hsecond => hanswers ⟨hfirst, hsecond⟩
    · exact closed_flushWriteBuf (closed_of_flushWriteBuf hkeep (by omega) hfirst)

end Connection

/-- `hasConnectionClose()` of a request that shows this. -/
def RequestView.hasConnectionClose (v : RequestView) : Bool :=
  ({ headersParsed := true, headers := v.headers } : HttpRequest).hasConnectionClose

theorem HttpRequest.hasConnectionClose_view {req : HttpRequest} (h : req.headersParsed = true) :
    req.view.hasConnectionClose = req.hasConnectionClose := by
  have hheaders : req.ensureHeadersParsed.headers = req.headers := by
    rw [ensureHeadersParsed, if_pos h]
  unfold RequestView.hasConnectionClose hasConnectionClose view
  rw [hheaders, if_pos h]
  rfl

open HttpServerCodec Incremental

/-- A connection of the worker with a response for each request on its way, and the bytes that
the peer has yet to send. -/
structure Server where
  incoming : Bytes
  conn : Connection
  codec : CodecState := .fresh
  /-- What is left of the read under way. -/
  todo : List Action := []
  delivered : List HttpRequest := []
  /-- The places in `delivered` of the requests that have been answered. -/
  answered : List ℕ := []
  /-- The ends, in the output, of the answers to requests that close the connection. -/
  closing : List ℕ := []
  /-- A request was delivered when such an answer had been flushed. -/
  late : Bool := false
  /-- The codec has copied a part of a request onto itself. -/
  undefined : Bool := false

namespace Server

/-- The answer to a request that closes the connection has been taken by the socket. -/
def flushed (s : Server) : Bool := s.closing.any fun stop => stop ≤ s.conn.socket.accepted.length

/-- One thing that a read does. -/
def perform (s : Server) : Action → Server
  | .fireRead (.request req) =>
    { s with delivered := s.delivered ++ [req], late := s.late || s.flushed }
  | .fireRead _ => s
  | .setConnKeepAlive ka => { s with conn := s.conn.setKeepAlive ka }
  | .writeAndFlush resp => { s with conn := s.conn.writeAndFlush resp }
  | .signalActivity => s

/-- What happens on the connection. The application answers a request while the read that brought
it is under way, or later. -/
inductive Op where
  /-- `onRead`, with so many bytes there. -/
  | read (n : ℕ)
  /-- The read under way goes on. -/
  | proceed
  /-- The application answers the `i`-th request. -/
  | respond (i : ℕ) (resp : HttpResponse)
  | onWrite

variable (ll : Llhttp)

/-- `WorkerEventLoop::onRead`. The loop runs one handler at a time, and reads from no closed
connection. -/
def onRead (s : Server) (n : ℕ) : Server :=
  if s.todo ≠ [] ∨ s.conn.closed = true ∨ s.undefined = true ∨ s.incoming.take n = [] then s
  else
    match channelRead unlimited ll s.codec (.buffer (.copyOf (s.incoming.take n))) with
    | none => { s with undefined := true }
    | some r => { s with incoming := s.incoming.drop n, codec := r.1, todo := r.2 }

def proceed (s : Server) : Server :=
  match s.todo with
  | [] => s
  | a :: rest => { s with todo := rest }.perform a

/-- `Context::writeAndFlush` of the answer to a request. -/
def respond (s : Server) (i : ℕ) (resp : HttpResponse) : Server :=
  match s.delivered[i]? with
  | none => s
  | some req =>
    let conn := s.conn.writeAndFlush resp
    { s with
      conn := conn
      answered := i :: s.answered
      closing := if req.hasConnectionClose then conn.output.length :: s.closing else s.closing }

def onWrite (s : Server) : Server :=
  if s.todo ≠ [] then s else { s with conn := s.conn.onWrite }

def step (s : Server) : Op → Server
  | .read n => s.onRead ll n
  | .proceed => s.proceed
  | .respond i resp => s.respond i resp
  | .onWrite => s.onWrite

def run (s : Server) (ops : List Op) : Server := ops.foldl (step ll) s

/-- A request, in bytes, that closes the connection. -/
def closes (p : Bytes) : Bool := (wholeView ll p).hasConnectionClose

/-- The requests up to the first that closes the connection. -/
def served : List Bytes → List Bytes
  | [] => []
  | p :: ps => if closes ll p then [p] else p :: served ps

/-- The requests that end in the bytes that a read finds. -/
def ending (hll : ll.Correct) (s : Server) (n : ℕ) : List Bytes :=
  (hll.framing.decoder.drain () (s.codec.leftover.readable ++ s.incoming.take n)).out

/-- **What keeps the order.** A read that takes place comes when every request that closes the
connection has been answered, brings the end of no request behind the end of such a one, and does
not make the codec copy a part onto itself. Such a request is answered while its connection is
not kept alive, and one of the two flushes is not refused. -/
def Orderly (hll : ll.Correct) (s : Server) : Op → Prop
  | .read n =>
    s.todo = [] → s.conn.closed = false → s.incoming.take n ≠ [] →
      (∀ i req, s.delivered[i]? = some req → req.hasConnectionClose = true → i ∈ s.answered) ∧
      (∀ p ∈ (ending ll hll s n).dropLast, closes ll p = false) ∧
      ¬ Collides s.codec.leftover.readable (s.codec.leftover.readable ++ s.incoming.take n).length
        (hll.framing.decoder.drain () (s.codec.leftover.readable ++ s.incoming.take n))
  | .respond i _ => ∀ req, s.delivered[i]? = some req → req.hasConnectionClose = true →
      s.conn.keepAlive = false ∧
        ¬ (s.conn.socket.answers 0 = .again ∧ s.conn.socket.answers 1 = .again)
  | _ => True

/-! ## What a step keeps -/

variable {ll} (hll : ll.Correct)

/-- The requests delivered, and those that the read under way will deliver. -/
def found (s : Server) : List HttpRequest := s.delivered ++ firedRequests s.todo

/-- What orderly steps keep, on a connection that receives the requests `ps`. -/
structure Inv (hll : ll.Correct) (ps : List Bytes) (s : Server) : Prop where
  defined : s.undefined = false
  seen : ∃ seen, seen ++ s.incoming = ps.flatten ∧
    Holds ll s.codec (hll.framing.decoder.drain () seen).rest ∧
    s.found.map HttpRequest.view = (hll.framing.decoder.drain () seen).out.map (wholeView ll)
  parsed : ∀ req ∈ s.found, req.headersParsed = true
  last : ∀ req ∈ s.found.dropLast, req.hasConnectionClose = false
  closed : ∀ i req, s.delivered[i]? = some req → req.hasConnectionClose = true →
    i ∈ s.answered → s.conn.closed = true
  answered : ∀ i ∈ s.answered, i < s.delivered.length
  closing : s.closing ≠ [] → ∃ req ∈ s.delivered, req.hasConnectionClose = true
  late : s.late = false

/-- A request behind which others are found does not close the connection. -/
theorem Inv.not_closes {ps : List Bytes} {s : Server} (h : Inv hll ps s)
    (hmore : firedRequests s.todo ≠ []) :
    ∀ req ∈ s.delivered, req.hasConnectionClose = false := by
  intro req hreq
  refine h.last req ?_
  rw [found, List.dropLast_append_of_ne_nil hmore]
  exact List.mem_append_left _ hreq

/-- What a step keeps when it finds nothing new and closes no connection that it opens. -/
theorem Inv.of_eq {ps : List Bytes} {s s' : Server} (h : Inv hll ps s)
    (hincoming : s'.incoming = s.incoming) (hcodec : s'.codec = s.codec)
    (hfound : s'.found = s.found) (hundefined : s'.undefined = s.undefined)
    (hclosed : ∀ i req, s'.delivered[i]? = some req → req.hasConnectionClose = true →
      i ∈ s'.answered → s'.conn.closed = true)
    (hanswered : ∀ i ∈ s'.answered, i < s'.delivered.length)
    (hclosing : s'.closing ≠ [] → ∃ req ∈ s'.delivered, req.hasConnectionClose = true)
    (hlate : s'.late = false) : Inv hll ps s' where
  defined := hundefined.trans h.defined
  seen := by
    obtain ⟨seen, hcut, hholds, hviews⟩ := h.seen
    exact ⟨seen, by rw [hincoming, hcut], by rwa [hcodec], by rw [hfound, hviews]⟩
  parsed := hfound ▸ h.parsed
  last := hfound ▸ h.last
  closed := hclosed
  answered := hanswered
  closing := hclosing
  late := hlate

theorem Inv.proceed {ps : List Bytes} {s : Server} (h : Inv hll ps s) :
    Inv hll ps s.proceed := by
  unfold Server.proceed
  split
  next => exact h
  next a rest htodo =>
    have hskip (conn : Connection) (hconn : s.conn.closed = true → conn.closed = true)
        (hfired : firedRequests (a :: rest) = firedRequests rest) :
        Inv hll ps { s with todo := rest, conn := conn } := by
      have hfound : ({ s with todo := rest, conn := conn } : Server).found = s.found := by
        rw [found, found, htodo, hfired]
      exact h.of_eq hll rfl rfl hfound rfl
        (fun i req hreq hcloses hanswered => hconn (h.closed i req hreq hcloses hanswered))
        h.answered h.closing h.late
    match a, htodo, hskip with
    | .setConnKeepAlive ka, _, hskip => exact hskip (s.conn.setKeepAlive ka) id rfl
    | .writeAndFlush resp, _, hskip =>
      exact hskip _ (fun hclosed => Connection.closed_writeAndFlush hclosed resp) rfl
    | .signalActivity, _, hskip => exact hskip s.conn id rfl
    | .fireRead (.buffer _), _, hskip => exact hskip s.conn id rfl
    | .fireRead (.response _), _, hskip => exact hskip s.conn id rfl
    | .fireRead (.frame _), _, hskip => exact hskip s.conn id rfl
    | .fireRead (.request req), htodo, _ =>
      have hmore : firedRequests s.todo ≠ [] := by
        rw [htodo]
        exact List.cons_ne_nil _ _
      have hnone := h.not_closes hll hmore
      -- an answer that closes the connection would be to a request delivered before
      have hunflushed : s.flushed = false := by
        have hclosing : s.closing = [] := by
          by_contra hsome
          obtain ⟨req', hreq', hcloses⟩ := h.closing hsome
          cases (hnone req' hreq').symm.trans hcloses
        rw [flushed, hclosing]
        rfl
      have hfound : ({ s with todo := rest, delivered := s.delivered ++ [req] } : Server).found =
          s.found := by
        rw [found, found, htodo, List.append_assoc]
        rfl
      dsimp only [perform]
      refine h.of_eq hll rfl rfl hfound rfl ?_ ?_ ?_ ?_
      · intro i req' hreq' hcloses hanswered
        rw [List.getElem?_append_left (h.answered i hanswered)] at hreq'
        cases (hnone req' (List.mem_of_getElem? hreq')).symm.trans hcloses
      · intro i hanswered
        have hlt := h.answered i hanswered
        rw [List.length_append]
        omega
      · intro hsome
        obtain ⟨req', hreq', hcloses⟩ := h.closing hsome
        exact ⟨req', List.mem_append_left _ hreq', hcloses⟩
      · exact (congrArg₂ or h.late hunflushed :)

theorem Inv.respond {ps : List Bytes} {s : Server} (h : Inv hll ps s) (i : ℕ)
    (resp : HttpResponse) (horder : Orderly ll hll s (.respond i resp)) :
    Inv hll ps (s.respond i resp) := by
  unfold Server.respond
  split
  next => exact h
  next req hreq =>
    refine h.of_eq hll rfl rfl rfl rfl ?_ ?_ ?_ h.late
    · intro j req' hreq' hcloses hanswered
      rcases List.mem_cons.mp hanswered with rfl | hanswered
      · obtain ⟨hka, hanswers⟩ := horder req' hreq' hcloses
        exact Connection.closed_of_writeAndFlush hka hanswers resp
      · exact Connection.closed_writeAndFlush (h.closed j req' hreq' hcloses hanswered) resp
    · intro j hanswered
      rcases List.mem_cons.mp hanswered with rfl | hanswered
      · exact (List.getElem?_eq_some_iff.mp hreq).1
      · exact h.answered j hanswered
    · intro hsome
      by_cases hcloses : req.hasConnectionClose = true
      · exact ⟨req, List.mem_of_getElem? hreq, hcloses⟩
      · simp only [hcloses, Bool.false_eq_true, if_false] at hsome
        exact h.closing hsome

/-- Where all requests that close the connection have been answered, it would be closed. -/
theorem Inv.quiet {ps : List Bytes} {s : Server} (h : Inv hll ps s) (hopen : s.conn.closed = false)
    (hanswered : ∀ i req, s.delivered[i]? = some req → req.hasConnectionClose = true →
      i ∈ s.answered) : ∀ req ∈ s.delivered, req.hasConnectionClose = false := by
  intro req hreq
  by_contra hcloses
  obtain ⟨i, hi⟩ := List.getElem?_of_mem hreq
  have hcloses : req.hasConnectionClose = true := by simpa using hcloses
  have hclosed := h.closed i req hi hcloses (hanswered i req hi hcloses)
  cases hopen.symm.trans hclosed

include hll in
theorem headersParsed_of_channelRead {st st' : CodecState} {buf : ByteBuf} {actions : List Action}
    (h : channelRead unlimited ll st (.buffer buf) = some (st', actions)) :
    ∀ req ∈ firedRequests actions, req.headersParsed = true := by
  intro req hreq
  obtain ⟨i, hi⟩ := List.getElem?_of_mem hreq
  obtain ⟨p, -, t, rest, -, -, rfl⟩ := (channelRead_fired hll h).1.get hi
  exact HttpRequest.headersParsed_ensureHeadersParsed _

/-- Requests close the connection where their texts say so. -/
theorem quiet_of_view {reqs : List HttpRequest} {qs : List Bytes}
    (hparsed : ∀ req ∈ reqs, req.headersParsed = true)
    (hviews : reqs.map HttpRequest.view = qs.map (wholeView ll))
    (hqs : ∀ p ∈ qs.dropLast, closes ll p = false) :
    ∀ req ∈ reqs.dropLast, req.hasConnectionClose = false := by
  intro req hreq
  have hview : req.view ∈ (reqs.map HttpRequest.view).dropLast := by
    rw [← List.map_dropLast]
    exact List.mem_map_of_mem hreq
  rw [hviews, ← List.map_dropLast] at hview
  obtain ⟨p, hp, hsame⟩ := List.mem_map.mp hview
  rw [← HttpRequest.hasConnectionClose_view (hparsed req (List.mem_of_mem_dropLast hreq)), ← hsame]
  exact hqs p hp

theorem Inv.onRead {ps : List Bytes} (hps : ∀ p ∈ ps, ll.Complete p ∧ startsRequest p = true)
    {s : Server} (h : Inv hll ps s) (n : ℕ) (horder : Orderly ll hll s (.read n)) :
    Inv hll ps (s.onRead ll n) := by
  unfold Server.onRead
  split
  next => exact h
  next hidle =>
    obtain ⟨htodo, hopen, -, hchunk⟩ := by simpa only [not_or, not_not] using hidle
    obtain ⟨hanswered, hlast, hapart⟩ := horder htodo (by simpa using hopen) hchunk
    obtain ⟨seen, hcut, hholds, hviews⟩ := h.seen
    have hfoundNow : s.found = s.delivered := by
      rw [found, htodo, firedRequests_nil, List.append_nil]
    have hnone := h.quiet hll (by simpa using hopen) hanswered
    rw [hholds.readable] at hapart
    unfold ending at hlast
    rw [hholds.readable] at hlast
    generalize hbuf : ByteBuf.copyOf (s.incoming.take n) = buf
    have hread : buf.readable = s.incoming.take n := by rw [← hbuf, ByteBuf.readable_copyOf]
    rw [← hread] at hapart hlast hchunk
    have hcut' : seen ++ buf.readable ++ s.incoming.drop n = ps.flatten := by
      rw [List.append_assoc, hread, List.take_append_drop, hcut]
    obtain ⟨codec, actions, hresult, hholds', hfired⟩ := channelRead_reads hll hholds hchunk
      (startsRequest_of_rest hll hps hchunk ⟨_, hcut'⟩) hapart
    rw [hresult]
    have happend := Framing.drain_append (f := hll.framing) seen hchunk
    have hparsed := headersParsed_of_channelRead hll hresult
    have hquiet := quiet_of_view hparsed hfired hlast
    refine ⟨h.defined, ⟨seen ++ buf.readable, hcut', ?_, ?_⟩, ?_, ?_, h.closed, h.answered,
      h.closing, h.late⟩
    · rw [happend]
      exact hholds'
    · rw [happend, List.map_append, ← hfired, ← hviews, hfoundNow]
      exact List.map_append
    · intro req hreq
      rcases List.mem_append.mp hreq with hreq | hreq
      · exact h.parsed req (List.mem_append_left _ hreq)
      · exact hparsed req hreq
    · intro req hreq
      by_cases hnew : firedRequests actions = []
      · refine hnone req (List.mem_of_mem_dropLast ?_)
        simpa only [found, hnew, List.append_nil] using hreq
      · rw [found, List.dropLast_append_of_ne_nil hnew] at hreq
        rcases List.mem_append.mp hreq with hreq | hreq
        · exact hnone req hreq
        · exact hquiet req hreq

theorem Inv.step {ps : List Bytes} (hps : ∀ p ∈ ps, ll.Complete p ∧ startsRequest p = true)
    {s : Server} (h : Inv hll ps s) (op : Op) (horder : Orderly ll hll s op) :
    Inv hll ps (step ll s op) := by
  cases op with
  | read n => exact h.onRead hll hps n horder
  | proceed => exact h.proceed hll
  | respond i resp => exact h.respond hll i resp horder
  | onWrite =>
    unfold Server.step Server.onWrite
    dsimp only
    split
    · exact h
    · refine h.of_eq hll rfl rfl rfl rfl ?_ h.answered h.closing h.late
      intro i req hreq hcloses hanswered
      exact Connection.closed_onWrite (h.closed i req hreq hcloses hanswered)

/-! ## A run -/

/-- Requests of which none but the last closes the connection are served in front of others, and
alone where nothing is behind them, or the last closes the connection. -/
theorem served_append {qs : List Bytes} (hqs : ∀ p ∈ qs.dropLast, closes ll p = false)
    (rs : List Bytes) : qs <+: served ll (qs ++ rs) ∧
      (rs = [] ∨ (∃ p ∈ qs, closes ll p = true) → served ll (qs ++ rs) = qs) := by
  induction qs with
  | nil =>
    refine ⟨List.nil_prefix, ?_⟩
    rintro (rfl | ⟨p, hp, -⟩)
    · rfl
    · cases hp
  | cons q qs ih =>
    cases qs with
    | nil =>
      rw [List.singleton_append, served]
      by_cases hq : closes ll q = true
      · rw [if_pos hq]
        exact ⟨List.prefix_refl _, fun _ => rfl⟩
      · rw [if_neg hq]
        refine ⟨List.prefix_append [q] _, ?_⟩
        rintro (rfl | ⟨p, hp, hcloses⟩)
        · rfl
        · exact absurd (List.mem_singleton.mp hp ▸ hcloses) hq
    | cons q' qs =>
      rw [List.dropLast_cons_cons, List.forall_mem_cons] at hqs
      obtain ⟨hq, hqs⟩ := hqs
      obtain ⟨hfront, hall⟩ := ih hqs
      rw [List.cons_append, served, if_neg (by simp [hq])]
      refine ⟨List.cons_prefix_cons.mpr ⟨rfl, hfront⟩, ?_⟩
      rintro (rfl | ⟨p, hp, hcloses⟩)
      · rw [hall (.inl rfl)]
      · rcases List.mem_cons.mp hp with rfl | hp
        · cases hq.symm.trans hcloses
        · rw [hall (.inr ⟨p, hp, hcloses⟩)]

theorem inv_new (ps : List Bytes) (conn : Connection) :
    Inv hll ps { incoming := ps.flatten, conn := conn } where
  defined := rfl
  seen := by
    refine ⟨[], rfl, ?_, ?_⟩ <;> rw [Decoder.drain_nil]
    · exact holds_fresh hll
    · rfl
  parsed := List.forall_mem_nil _
  last := List.forall_mem_nil _
  closed := by simp
  answered := List.forall_mem_nil _
  closing := fun h => absurd rfl h
  late := rfl

/-- The requests that have been found are the first of the stream. -/
theorem Inv.found_eq {ps : List Bytes} (hps : ∀ p ∈ ps, ll.Complete p ∧ startsRequest p = true)
    {s : Server} (h : Inv hll ps s) : ∃ qs rs, ps = qs ++ rs ∧
      s.found.map HttpRequest.view = qs.map (wholeView ll) ∧
      (∀ p ∈ qs.dropLast, closes ll p = false) ∧ (s.incoming = [] → rs = []) ∧
      ∀ req ∈ s.found, req.hasConnectionClose = true → ∃ p ∈ qs, closes ll p = true := by
  obtain ⟨seen, hcut, -, hviews⟩ := h.seen
  have hdrain := Framing.drain_flatten (isMessage_of_complete hll hps)
  have hcloses {req : HttpRequest} {p : Bytes} (hreq : req ∈ s.found)
      (hview : req.view = wholeView ll p) : closes ll p = req.hasConnectionClose := by
    rw [closes, ← hview, HttpRequest.hasConnectionClose_view (h.parsed req hreq)]
  have hsplit : ∃ rs, ps = (hll.framing.decoder.drain () seen).out ++ rs ∧
      (s.incoming = [] → rs = []) := by
    by_cases hend : s.incoming = []
    · rw [hend, List.append_nil] at hcut
      rw [hcut, hdrain]
      exact ⟨[], (List.append_nil ps).symm, fun _ => rfl⟩
    · rw [← hcut, Framing.drain_append seen hend, Drained.mk.injEq] at hdrain
      exact ⟨_, hdrain.2.1.symm, fun h => absurd h hend⟩
  obtain ⟨rs, hps, hend⟩ := hsplit
  refine ⟨_, rs, hps, hviews, ?_, hend, ?_⟩
  · intro p hp
    have hmem : wholeView ll p ∈ (s.found.map HttpRequest.view).dropLast := by
      rw [hviews, ← List.map_dropLast]
      exact List.mem_map_of_mem hp
    rw [← List.map_dropLast] at hmem
    obtain ⟨req, hreq, hview⟩ := List.mem_map.mp hmem
    rw [hcloses (List.mem_of_mem_dropLast hreq) hview]
    exact h.last req hreq
  · intro req hreq hclose
    have hmem : req.view ∈ s.found.map HttpRequest.view := List.mem_map_of_mem hreq
    rw [hviews] at hmem
    obtain ⟨p, hp, hview⟩ := List.mem_map.mp hmem
    exact ⟨p, hp, (hcloses hreq hview.symm).trans hclose⟩

/-- **The last request served.** On a connection that receives whole requests, whatever the cutting,
the answers, their order and the socket: in every run of orderly steps no request is delivered
behind the flushed answer to one that closes the connection, and what is delivered are the
requests up to the first such one, all of them once they have come. -/
theorem run_lastServed {ps : List Bytes}
    (hps : ∀ p ∈ ps, ll.Complete p ∧ startsRequest p = true) (conn : Connection) (ops : List Op)
    (horder :
      Ledger.Along (step ll) (Orderly ll hll) { incoming := ps.flatten, conn := conn } ops) :
    let s := run ll { incoming := ps.flatten, conn := conn } ops
    s.late = false ∧
      s.delivered.map HttpRequest.view <+: (served ll ps).map (wholeView ll) ∧
      (s.todo = [] → (s.incoming = [] ∨ ∃ req ∈ s.delivered, req.hasConnectionClose = true) →
        s.delivered.map HttpRequest.view = (served ll ps).map (wholeView ll)) := by
  intro s
  have hinv : Inv hll ps s := horder.preserves (Inv hll ps)
    (fun _ op hs hop => hs.step hll hps op hop) (inv_new hll ps conn)
  obtain ⟨qs, rs, rfl, hviews, hqs, hend, hcloses⟩ := hinv.found_eq hll hps
  obtain ⟨hfront, hall⟩ := served_append hqs rs
  refine ⟨hinv.late, ?_, ?_⟩
  · have hdelivered : s.delivered.map HttpRequest.view <+: qs.map (wholeView ll) := by
      rw [← hviews, found, List.map_append]
      exact List.prefix_append _ _
    exact hdelivered.trans (hfront.map _)
  · intro htodo hdone
    have hfound : s.found = s.delivered := by
      rw [found, htodo, firedRequests_nil, List.append_nil]
    rw [hall (hdone.imp hend fun ⟨req, hreq, hclose⟩ => hcloses req (hfound ▸ hreq) hclose),
      ← hviews, hfound]

section pipelined

/-- `GET /` with `Connection: close`. -/
def lastRequest : RequestText where
  start := ascii "GET "
  target := ascii "/"
  version := ascii " HTTP/1.1\r\n"
  headers :=
    [.plain (ascii "Connection") 1 (ascii "close") (by decide) (by decide +kernel)
      (by decide +kernel)]
  body := []
  target_ne := root_ne_nil

/-- The request and the one behind it, on record. -/
def lastAndRoot : List Recording := [lastRequest.recording 1 1 1, rootRequest.recording 1 1 1]

theorem lastAndRoot_sound : Recording.Sound lastAndRoot := by decide +kernel

/-- Both, on a connection whose socket takes everything. -/
def pipelined : Server where
  incoming := [lastRequest.text, rootRequest.text].flatten
  conn := { socket := ⟨fun _ => .accept 1000, []⟩ }

/-- A read of so many bytes, with an answer to the first request while it is under way. -/
def readAndAnswer (n : ℕ) : List Op :=
  [.read n, .proceed, .proceed, .proceed, .respond 0 {}, .proceed, .proceed, .proceed]

theorem lastAndRoot_requests : ∀ p ∈ [lastRequest.text, rootRequest.text],
    (Llhttp.ofRecordings lastAndRoot).Complete p ∧ startsRequest p = true := by
  intro p hp
  refine ⟨(Llhttp.complete_iff lastAndRoot_sound).mpr ?_, ?_⟩
  · rw [List.mem_pair] at hp
    rcases hp with rfl | rfl
    · exact ⟨lastRequest.recording 1 1 1, by simp [lastAndRoot], rfl⟩
    · exact ⟨rootRequest.recording 1 1 1, by simp [lastAndRoot], rfl⟩
  · revert p
    decide +kernel

/-- Cut between them, the second is never read. -/
theorem orderly_pipelined :
    Ledger.Along (step (.ofRecordings lastAndRoot))
      (Orderly _ (Llhttp.ofRecordings_correct lastAndRoot_sound)) pipelined
      (readAndAnswer lastRequest.text.length ++ [.read 1000]) := by
  have hfirst : pipelined.incoming.take lastRequest.text.length = [lastRequest.text].flatten := by
    decide +kernel
  have hone : ∀ p ∈ [lastRequest.text],
      (Llhttp.ofRecordings lastAndRoot).Complete p ∧ startsRequest p = true :=
    fun p hp => lastAndRoot_requests p (by simp_all)
  have hmsg := isMessage_of_complete (Llhttp.ofRecordings_correct lastAndRoot_sound) hone
  refine ⟨fun _ _ _ => ⟨?_, ?_, ?_⟩, trivial, trivial, trivial, ?_, trivial, trivial, trivial, ?_,
    trivial⟩
  · intro i req hreq
    cases hreq
  · have hending : ending _ (Llhttp.ofRecordings_correct lastAndRoot_sound) pipelined
        lastRequest.text.length = [lastRequest.text] := by
      rw [ending, hfirst]
      exact congrArg Drained.out (Framing.drain_flatten hmsg)
    rw [hending]
    exact List.forall_mem_nil _
  · exact fun hcollides => hcollides.1 rfl
  · intro req _ _
    exact ⟨by decide +kernel, fun h => absurd h.1 (by decide +kernel)⟩
  · intro _ hopen
    exact absurd hopen (by decide +kernel)

theorem run_lastServed_pipelined :
    let ll := Llhttp.ofRecordings lastAndRoot
    let s := run ll pipelined (readAndAnswer lastRequest.text.length ++ [.read 1000])
    s.late = false ∧ s.delivered.map HttpRequest.view <+:
      (served ll [lastRequest.text, rootRequest.text]).map (wholeView ll) :=
  have h := run_lastServed (Llhttp.ofRecordings_correct lastAndRoot_sound) lastAndRoot_requests
    pipelined.conn _ orderly_pipelined
  ⟨h.1, h.2.1⟩

/-- **A request behind the last**: with both in one read, the second is delivered when the answer
to the first has been flushed and the connection is closed; cut between them, it is not. -/
theorem not_lastServed_pipelined :
    let ll := Llhttp.ofRecordings lastAndRoot
    let one := run ll pipelined (readAndAnswer 1000)
    let two := run ll pipelined (readAndAnswer lastRequest.text.length ++ [.read 1000])
    ll.Correct ∧ (one.late = true ∧ one.delivered.length = 2) ∧
      two.late = false ∧ two.delivered.length = 1 :=
  ⟨Llhttp.ofRecordings_correct lastAndRoot_sound, by decide +kernel⟩

end pipelined

end Server

end XNetty
