import XNetty.Channel.WaterMark
import XNetty.Http.Delimiting
import XNetty.Http.Stream
import XNetty.Lib.Ledger

/-!
# Requests in, responses out

A worker reads what has come on a connection, the codec cuts it into requests, and an
`HttpServerHandler` answers each of them while the codec is at it. The answers leave through the
write buffer, and the socket takes them when it has room.

## Main definitions

* `Reader.Delimits` — a text is read as one reply, whatever follows it.
* `HttpServerCodec.PassesOn` — the loop passes on these requests, and does nothing else.
* `HttpExchange` — a connection with the bytes that its peer has yet to send.
* `HttpExchange.answer` — what is written for the request that has come in these bytes.
* `HttpExchange.run_answers` — the output is the answers to the requests that have come.
* `HttpExchange.run_replies` — a peer can read the answers to all that it has sent.
-/

namespace XNetty

open Incremental

namespace Reader

/-! ### Texts that delimit themselves -/

/-- The text is read as this reply, and what follows it is left. -/
structure Delimits (text : Bytes) (reply : Reply) : Prop where
  ne_nil : text ≠ []
  reads : ∀ fuel rest,
    readReplies (fuel + 1) (text ++ rest) = (readReplies fuel rest).map (reply :: ·)

variable {α : Type*} {text : α → Bytes} {reply : α → Reply} {as : List α}

theorem Delimits.readReplies (h : ∀ a ∈ as, Delimits (text a) (reply a)) {fuel : ℕ}
    (hfuel : as.length < fuel) :
    Reader.readReplies fuel (as.flatMap text) = some (as.map reply) := by
  induction as generalizing fuel with
  | nil =>
    obtain ⟨fuel, rfl⟩ := Nat.exists_eq_succ_of_ne_zero (by omega : fuel ≠ 0)
    rfl
  | cons a as ih =>
    obtain ⟨fuel, rfl⟩ := Nat.exists_eq_succ_of_ne_zero (by omega : fuel ≠ 0)
    obtain ⟨ha, has⟩ := List.forall_mem_cons.mp h
    rw [List.flatMap_cons, ha.reads, ih has (by simpa using hfuel)]
    rfl

/-- **Such texts, one behind the other, are read back.** -/
theorem Delimits.readAll (h : ∀ a ∈ as, Delimits (text a) (reply a)) :
    Reader.readAll (as.flatMap text) = some (as.map reply) := by
  refine Delimits.readReplies h (Nat.lt_succ_of_le ?_)
  induction as with
  | nil => exact le_rfl
  | cons a as ih =>
    obtain ⟨ha, has⟩ := List.forall_mem_cons.mp h
    have hpos := List.length_pos_iff.mpr ha.ne_nil
    have hrest := ih has
    rw [List.flatMap_cons, List.length_append, List.length_cons]
    omega

end Reader

/-- A reader can tell where the response ends, whatever follows it. -/
def HttpResponse.Delimited (r : HttpResponse) : Prop :=
  if Reader.Bodiless r.status.code then r.body = []
  else (∀ kv ∈ r.headers, ¬ Misnamed kv) ∧ r.body ≠ []

instance (r : HttpResponse) : Decidable r.Delimited := inferInstanceAs (Decidable (ite ..))

theorem HttpResponse.Plain.delimits {r : HttpResponse} (h : r.Plain) (hdelimited : r.Delimited) :
    Reader.Delimits r.serialized r.reply where
  ne_nil := r.serialized_ne_nil
  reads := by
    refine h.readReplies_sized ?_
    unfold Delimited at hdelimited
    split at hdelimited
    next hbodiless =>
      rw [hdelimited]
      exact if_pos hbodiless
    next hbody =>
      have hnames : ¬ ∃ kv ∈ r.headers, Misnamed kv := fun ⟨kv, hkv, hname⟩ =>
        hdelimited.1 kv hkv hname
      rw [h.bodyLength hbody, if_neg hnames, if_neg hdelimited.2]

namespace HttpServerCodec

variable {ll : Llhttp}

/-! ### Asking to close -/

/-- `hasConnectionClose` of the request in these bytes, before its headers are parsed. -/
def asksToClose (ll : Llhttp) (p : Bytes) : Bool :=
  let pctx := runCallbacks p { req := {} } (ll.execute p).callbacks
  (pctx.req.setRawData p p.length pctx.headerOffsets pctx.headerEndOffset).hasConnectionClose

theorem asksToClose_eq {p : Bytes} {t : Parse} (ht : (ll.execute p).callbacks = t.callbacks) :
    asksToClose ll p = (t.attach p p.length {}).hasConnectionClose := by
  have hlarge : ¬ t.TooLarge 0 := fun h => absurd h.1 (lt_irrefl 0)
  have hrun := t.runCallbacks_complete hlarge p {}
  unfold asksToClose
  rw [ht, hrun]
  rfl

theorem rawConnectionClose_append {p : Bytes} {entries : List HeaderEntry}
    (hin : ∀ e ∈ entries, e.offset + e.keyLen + 2 + e.valueLen ≤ p.length) (s : Bytes) :
    HttpRequest.rawConnectionClose (p ++ s) entries = HttpRequest.rawConnectionClose p entries := by
  induction entries with
  | nil => rfl
  | cons e entries ih =>
    obtain ⟨he, hentries⟩ := List.forall_mem_cons.mp hin
    rw [HttpRequest.rawConnectionClose, HttpRequest.rawConnectionClose, ih hentries]
    by_cases hkey : e.keyLen = 10
    · rw [substr_append (show e.offset + 10 ≤ p.length by omega)]
      by_cases hvalue : 4 ≤ e.valueLen
      · rw [substr_append (show e.offset + 12 + 4 ≤ p.length by omega)]
      · simp [hvalue]
    · simp [hkey]

/-- What follows a request does not change whether it asks to close. -/
theorem hasConnectionClose_attach {p : Bytes} {t : Parse} (hin : t.Within p) (req : HttpRequest)
    (s : Bytes) : (t.attach (p ++ s) p.length req).hasConnectionClose =
      (t.attach p p.length {}).hasConnectionClose := by
  refine rawConnectionClose_append (fun e he => ?_) s
  obtain ⟨h, hh, rfl⟩ := List.mem_map.mp he
  obtain ⟨hname, hvalue⟩ := hin.2.2 h hh
  unfold Span.stop at hname hvalue
  dsimp only
  omega

/-! ### What the loop does -/

/-- What the loop does with a request that it passes on. -/
def passed (req : HttpRequest) : List Action :=
  noted req ++ [.fireRead (.request req.ensureHeadersParsed)]

/-- The actions pass on requests that have come in the bytes `ps`, one after the other. -/
def PassesOn (ll : Llhttp) (ps : List Bytes) (actions : List Action) : Prop :=
  ∃ reqs : List HttpRequest, actions = reqs.flatMap passed ∧
    reqs.map (fun req => (req.hasConnectionClose, req.ensureHeadersParsed.view)) =
      ps.map fun p => (asksToClose ll p, wholeView ll p)

theorem passesOn_nil : PassesOn ll [] [] := ⟨[], rfl, rfl⟩

theorem PassesOn.cons {p : Bytes} {ps : List Bytes} {req : HttpRequest} {actions : List Action}
    (hclose : req.hasConnectionClose = asksToClose ll p)
    (hview : req.ensureHeadersParsed.view = wholeView ll p) (h : PassesOn ll ps actions) :
    PassesOn ll (p :: ps) (passed req ++ actions) := by
  obtain ⟨reqs, rfl, hreqs⟩ := h
  refine ⟨req :: reqs, rfl, ?_⟩
  rw [List.map_cons, List.map_cons, hreqs, hclose, hview]

/-- **The loop**: on a codec without limits it passes on the requests that are whole. -/
theorem readLoop_passesOn (hll : ll.Correct) {fuel : ℕ} {st st' : CodecState} (src : Source)
    {raw w : Bytes} {actions : List Action} (hfuel : raw.length < fuel) (hw : w <+: raw)
    (hnone : ll.requestSize w = none) (hreq : Pending ll w st.request)
    (h : readLoop unlimited ll fuel st src raw = some (st', actions)) :
    PassesOn ll (hll.framing.decoder.drain () raw).out actions := by
  induction fuel generalizing st src raw w actions with
  | zero => omega
  | succ fuel ih =>
    cases hsize : ll.requestSize raw with
    | none =>
      rw [Framing.drain_of_none (show hll.framing.size raw = none from hsize)]
      rw [readLoop_unfinished fuel st src rfl ((requestSize_eq_none hll).mp hsize)] at h
      dsimp only at h
      split at h
      · obtain ⟨leftover, -, hresult⟩ := Option.map_eq_some_iff.mp h
        obtain ⟨-, rfl⟩ := Prod.mk.inj hresult
        exact passesOn_nil
      · obtain ⟨-, rfl⟩ := Prod.mk.inj (Option.some.inj h)
        exact passesOn_nil
    | some n =>
      obtain ⟨p, s, rfl, rfl, hp⟩ := hll.complete_front hsize
      obtain ⟨t, ht, hin⟩ := hll.parses hp
      have hlarge : ¬ t.TooLarge unlimited.maxHeaderSize := fun h => absurd h.1 (lt_irrefl 0)
      have hover : ¬ unlimited.OverLimit
          (t.attach (p ++ s) p.length st.request).ensureHeadersParsed.headers :=
        fun h => absurd h.1 (lt_irrefl 0)
      have hclose := (hasConnectionClose_attach hin st.request s).trans (asksToClose_eq ht).symm
      have hview := view_attach hin hreq.headers (hreq.method hll hnone hw hp ht) s
      rw [← wholeView_eq ht] at hview
      rw [Framing.drain_cons (show hll.framing.IsMessage p from hp.requestSize)]
      rw [readLoop_complete hll hp ht hin fuel st src s hlarge] at h
      simp only [if_neg hover] at h
      by_cases hs : s = []
      · rw [if_pos hs] at h
        obtain ⟨-, rfl⟩ := Prod.mk.inj (Option.some.inj h)
        rw [hs, Decoder.drain_nil]
        have hnil : PassesOn ll [] [] := passesOn_nil
        have hone := PassesOn.cons hclose (hs ▸ hview) hnil
        rw [List.append_nil] at hone
        subst hs
        exact hone
      · rw [if_neg hs] at h
        obtain ⟨⟨st'', later⟩, hlater, hresult⟩ := Option.map_eq_some_iff.mp h
        obtain ⟨rfl, rfl⟩ := Prod.mk.inj hresult
        have hless : s.length < fuel := by
          have hpos := hll.length_pos hp
          rw [List.length_append] at hfuel
          omega
        have hempty : hll.framing.size [] = none :=
          Framing.size_of_part hp.requestSize List.nil_prefix (hll.length_pos hp)
        have hrest := ih _ hless List.nil_prefix hempty (pending_fresh ll _) hlater
        exact hrest.cons hclose hview

/-- **A read** passes on the requests that it makes whole. -/
theorem channelRead_passesOn (hll : ll.Correct) {st st' : CodecState} {w : Bytes} {buf : ByteBuf}
    {actions : List Action} (hst : Holds ll st w) (hne : buf.readable ≠ [])
    (hstart : w = [] → startsRequest buf.readable = true)
    (h : channelRead unlimited ll st (.buffer buf) = some (st', actions)) :
    PassesOn ll (hll.framing.decoder.drain () (w ++ buf.readable)).out actions := by
  by_cases hw : w = []
  · rw [channelRead_of_idle hne (hst.readable.trans hw) (hstart hw)] at h
    rw [hw, List.nil_append]
    exact readLoop_passesOn hll _ (Nat.lt_succ_self _) List.nil_prefix (hw ▸ hst.unfinished)
      (hw ▸ hst.pending) h
  · rw [channelRead_of_held hne (by rwa [hst.readable]), hst.readable] at h
    refine readLoop_passesOn hll _ (Nat.lt_succ_self _) (List.prefix_append w _) hst.unfinished ?_ h
    exact hst.pending

end HttpServerCodec

open HttpServerCodec

/-! ### The connection -/

/-- A connection of a worker, with the bytes that the peer has yet to send. -/
structure HttpExchange where
  incoming : Bytes
  conn : Connection
  codec : CodecState := .fresh
  /-- The codec has copied a part of a request onto itself. -/
  undefined : Bool := false

namespace HttpExchange

variable (ll : Llhttp) (onRequest : RequestView → List Context.Write)

/-- One thing that the codec does. `HttpServerHandler::channelRead` calls `onRequest`, which
answers by calls of the connection's context. -/
def perform (c : Connection) : Action → Connection
  | .fireRead (.request req) =>
    (onRequest req.view).foldl (Context.write Context.codecPipeline) c
  | .fireRead _ => c
  | .writeAndFlush resp => Context.writeAndFlush Context.codecPipeline c resp
  | .setConnKeepAlive ka => c.setKeepAlive ka
  | .signalActivity => c

/-- `WorkerEventLoop::onRead`, with so many bytes there. -/
def onRead (e : HttpExchange) (n : ℕ) : HttpExchange :=
  if e.conn.closed = true ∨ e.undefined = true ∨ e.incoming.take n = [] then e
  else
    match channelRead unlimited ll e.codec (.buffer (.copyOf (e.incoming.take n))) with
    | none => { e with undefined := true }
    | some (codec, actions) =>
      { e with
        incoming := e.incoming.drop n
        codec := codec
        conn := actions.foldl (perform onRequest) e.conn }

inductive Op where
  | onRead (n : ℕ)
  | onWrite

def step (e : HttpExchange) : Op → HttpExchange
  | .onRead n => e.onRead ll onRequest n
  | .onWrite => { e with conn := e.conn.onWrite }

def run (e : HttpExchange) (ops : List Op) : HttpExchange := ops.foldl (step ll onRequest) e

/-- What is written for the request in these bytes. -/
def answer (p : Bytes) : Bytes :=
  (onRequest (wholeView ll p)).flatMap (Context.Write.bytes (!asksToClose ll p))

/-- The requests of a stream that have come to the connection. -/
def arrived (ps : List Bytes) (e : HttpExchange) : List Bytes :=
  Framing.ended ps (ps.flatten.length - e.incoming.length)

variable {ll onRequest}

/-! ### Answering -/

theorem keepAlive_fireWrite (c : Connection) (buf : ByteBuf) :
    (c.fireWrite buf).keepAlive = c.keepAlive := by
  unfold Connection.fireWrite
  dsimp only
  split
  · unfold Connection.close
    split <;> rfl
  · exact Connection.flushWriteBuf_keepAlive _

theorem attached_codecPipeline : ChannelPipeline.Attached Context.codecPipeline :=
  Context.attached_pipelineOf _

theorem headOutbound_codecPipeline :
    ChannelPipeline.HeadOutbound Context.codecPipeline.kinds = true := rfl

theorem encoded_codecPipeline (w : Context.Write) : w.Encoded Context.codecPipeline := by
  cases w with
  | writeAndFlush resp => exact List.mem_cons_self
  | writeHeaders resp => trivial
  | writeBody data => trivial

theorem keepAlive_write (c : Connection) (w : Context.Write) :
    (Context.write Context.codecPipeline c w).keepAlive = c.keepAlive := by
  have hbuffer (buf : ByteBuf) :
      (Context.fireWrite Context.codecPipeline c (.buffer buf)).keepAlive = c.keepAlive := by
    rw [Context.fireWrite_buffer attached_codecPipeline, if_pos headOutbound_codecPipeline]
    exact keepAlive_fireWrite c buf
  cases w with
  | writeAndFlush resp =>
    rw [Context.write, Context.writeAndFlush, Connection.flushWriteBuf_keepAlive]
    rw [Context.fireWrite_response attached_codecPipeline List.mem_cons_self,
      if_pos headOutbound_codecPipeline]
    cases hka : c.keepAlive with
    | true => exact (keepAlive_fireWrite c _).trans hka
    | false => rfl
  | writeHeaders resp => exact (Connection.flushWriteBuf_keepAlive _).trans (hbuffer _)
  | writeBody data => exact (Connection.flushWriteBuf_keepAlive _).trans (hbuffer _)

/-- **The calls of an answer**, one after the other. -/
theorem foldl_write (ws : List Context.Write) {c : Connection} (hc : c.Watched) :
    (ws.foldl (Context.write Context.codecPipeline) c).output =
        c.output ++ ws.flatMap (Context.Write.bytes c.keepAlive) ∧
      (ws.foldl (Context.write Context.codecPipeline) c).Watched := by
  induction ws generalizing c with
  | nil => exact ⟨(List.append_nil _).symm, hc⟩
  | cons w ws ih =>
    have hout := Context.write_output attached_codecPipeline c (encoded_codecPipeline w)
    rw [if_pos headOutbound_codecPipeline] at hout
    have hwatched : (Context.write Context.codecPipeline c w).Watched := by
      cases w <;> exact (Connection.flushWriteBuf_spec _).2
    obtain ⟨houts, hrest⟩ := ih hwatched
    rw [keepAlive_write, hout, List.append_assoc] at houts
    exact ⟨houts, hrest⟩

variable (onRequest) in
/-- A request that is passed on is answered. -/
theorem foldl_passed (req : HttpRequest) {c : Connection} (hc : c.Watched) :
    ((passed req).foldl (perform onRequest) c).output = c.output ++
        (onRequest req.ensureHeadersParsed.view).flatMap
          (Context.Write.bytes (!req.hasConnectionClose)) ∧
      ((passed req).foldl (perform onRequest) c).Watched := by
  have hfold : (passed req).foldl (perform onRequest) c =
      (onRequest req.ensureHeadersParsed.view).foldl (Context.write Context.codecPipeline)
        (c.setKeepAlive (!req.hasConnectionClose)) := by
    cases hclose : req.hasConnectionClose <;> simp [passed, noted, perform, hclose]
  rw [hfold]
  exact foldl_write _ (c := c.setKeepAlive (!req.hasConnectionClose)) hc

variable (onRequest) in
theorem foldl_passesOn {ps : List Bytes} {actions : List Action} (h : PassesOn ll ps actions)
    {c : Connection} (hc : c.Watched) :
    (actions.foldl (perform onRequest) c).output =
        c.output ++ ps.flatMap (answer ll onRequest) ∧
      (actions.foldl (perform onRequest) c).Watched := by
  obtain ⟨reqs, rfl, hreqs⟩ := h
  have hanswers : ps.flatMap (answer ll onRequest) = reqs.flatMap fun req =>
      (onRequest req.ensureHeadersParsed.view).flatMap
        (Context.Write.bytes (!req.hasConnectionClose)) := by
    have hboth := congrArg (List.flatMap fun kv : Bool × RequestView =>
      (onRequest kv.2).flatMap (Context.Write.bytes (!kv.1))) hreqs
    rw [List.flatMap_map, List.flatMap_map] at hboth
    exact hboth.symm
  rw [hanswers]
  clear hanswers hreqs
  induction reqs generalizing c with
  | nil => exact ⟨(List.append_nil _).symm, hc⟩
  | cons req reqs ih =>
    obtain ⟨hout, hwatched⟩ := foldl_passed onRequest req hc
    obtain ⟨houts, hrest⟩ := ih hwatched
    rw [List.flatMap_cons, List.foldl_append, houts, hout, List.flatMap_cons, List.append_assoc]
    exact ⟨rfl, hrest⟩

/-! ### Runs -/

/-- The connection has taken the bytes `seen` of the stream: the codec holds what they have of a
request that is not whole, and the whole ones are answered. -/
structure Inv (hll : ll.Correct) (onRequest : RequestView → List Context.Write) (ps : List Bytes)
    (e : HttpExchange) : Prop where
  seen : ∃ seen, seen ++ e.incoming = ps.flatten ∧ (e.undefined = false →
    Holds ll e.codec (hll.framing.decoder.drain () seen).rest) ∧
      e.conn.output = (hll.framing.decoder.drain () seen).out.flatMap (answer ll onRequest)
  watched : e.conn.Watched

variable {hll : ll.Correct} {ps : List Bytes}
  (hps : ∀ p ∈ ps, ll.Complete p ∧ startsRequest p = true)
include hps

theorem Inv.onRead {e : HttpExchange} (h : Inv hll onRequest ps e) (n : ℕ) :
    Inv hll onRequest ps (e.onRead ll onRequest n) := by
  obtain ⟨⟨seen, hcut, hheld, hout⟩, hwatched⟩ := h
  unfold HttpExchange.onRead
  split
  · exact ⟨⟨seen, hcut, hheld, hout⟩, hwatched⟩
  next hskip =>
    obtain ⟨-, hskip⟩ := not_or.mp hskip
    obtain ⟨hdefined, hne⟩ := not_or.mp hskip
    have hholds := hheld (by simpa using hdefined)
    have hsplit : seen ++ e.incoming.take n ++ e.incoming.drop n = ps.flatten := by
      rw [List.append_assoc, List.take_append_drop, hcut]
    split
    · exact ⟨⟨seen, hcut, by simp, hout⟩, hwatched⟩
    next codec actions hread =>
      have hbytes : (ByteBuf.copyOf (e.incoming.take n)).readable = e.incoming.take n :=
        ByteBuf.readable_copyOf _
      have hstart : (hll.framing.decoder.drain () seen).rest = [] →
          startsRequest (ByteBuf.copyOf (e.incoming.take n)).readable = true := by
        rw [hbytes]
        exact startsRequest_of_rest hll hps hne ⟨_, hsplit⟩
      have hpasses := channelRead_passesOn hll hholds (by rwa [hbytes]) hstart hread
      obtain ⟨houts, hwatched⟩ := foldl_passesOn onRequest hpasses hwatched
      have happend := Framing.drain_append (f := hll.framing) seen hne
      refine ⟨⟨seen ++ e.incoming.take n, hsplit, fun _ => ?_, ?_⟩, hwatched⟩
      · have hc : ¬ Collides (hll.framing.decoder.drain () seen).rest
            ((hll.framing.decoder.drain () seen).rest ++
              (ByteBuf.copyOf (e.incoming.take n)).readable).length
            (hll.framing.decoder.drain () ((hll.framing.decoder.drain () seen).rest ++
              (ByteBuf.copyOf (e.incoming.take n)).readable)) := by
          intro hc
          rw [channelRead_collides hll hholds (by rwa [hbytes]) hc] at hread
          cases hread
        obtain ⟨st, actions', hread', hst, -⟩ :=
          channelRead_reads hll hholds (by rwa [hbytes]) hstart hc
        obtain ⟨rfl, -⟩ := Prod.mk.inj (Option.some.inj (hread.symm.trans hread'))
        rw [happend]
        rw [hbytes] at hst
        exact hst
      · rw [houts, hout, hbytes, happend, List.flatMap_append]

theorem Inv.step {e : HttpExchange} (h : Inv hll onRequest ps e) (op : Op) :
    Inv hll onRequest ps (e.step ll onRequest op) := by
  cases op with
  | onRead n => exact h.onRead hps n
  | onWrite =>
    obtain ⟨⟨seen, hcut, hheld, hout⟩, hwatched⟩ := h
    obtain ⟨hkept, hwatches⟩ := e.conn.onWrite_spec
    exact ⟨⟨seen, hcut, hheld, hkept.trans hout⟩, hwatches hwatched⟩

theorem Inv.output {e : HttpExchange} (h : Inv hll onRequest ps e) :
    e.conn.output = (arrived ps e).flatMap (answer ll onRequest) := by
  obtain ⟨⟨seen, hcut, -, hout⟩, -⟩ := h
  have hlen := congrArg List.length hcut
  rw [List.length_append] at hlen
  have hseen : ps.flatten.length - e.incoming.length = seen.length := by omega
  rw [hout, arrived, hseen, Framing.out_eq_ended (isMessage_of_complete hll hps) ⟨_, hcut⟩]

omit hps in
theorem arrived_all {e : HttpExchange} (h : e.incoming = []) : arrived ps e = ps := by
  rw [arrived, h]
  exact Framing.ended_all ps

/-- A connection before anything comes. -/
def start (ps : List Bytes) (conn : Connection) : HttpExchange := { incoming := ps.flatten, conn }

variable {conn : Connection} (hsent : conn.socket.accepted = [])
  (hwait : conn.writeBuf.readable = [])
include hsent hwait

theorem inv_run (hll : ll.Correct) (onRequest : RequestView → List Context.Write) (ops : List Op) :
    Inv hll onRequest ps ((start ps conn).run ll onRequest ops) := by
  have hstart : Inv hll onRequest ps (start ps conn) := by
    refine ⟨⟨[], rfl, fun _ => ?_, ?_⟩, fun _ hne => absurd hwait hne⟩
    · rw [Decoder.drain_nil]
      exact holds_fresh hll
    · rw [Decoder.drain_nil, Connection.output]
      change conn.socket.accepted ++ conn.writeBuf.readable = []
      rw [hsent, hwait, List.append_nil]
  exact Ledger.foldl_preserves (Inv hll onRequest ps) (fun _ op h => h.step hps op) hstart ops

theorem output_run (hll : ll.Correct) (onRequest : RequestView → List Context.Write)
    (ops : List Op) :
    let e := (start ps conn).run ll onRequest ops
    e.conn.socket.accepted ++ e.conn.writeBuf.readable =
      (arrived ps e).flatMap (answer ll onRequest) :=
  (inv_run hps hsent hwait hll onRequest ops).output hps

/-- **Answers in order.** However a stream of requests is cut into reads, and whatever the socket
takes of each write: at every moment what it has taken, followed by what is waiting, is the text
of the answers to the requests that have wholly come, in their order. What is waiting on an open
connection has the channel's write interest. -/
theorem run_answers (hll : ll.Correct) (onRequest : RequestView → List Context.Write)
    (ops : List Op) :
    let e := (start ps conn).run ll onRequest ops
    e.conn.socket.accepted ++ e.conn.writeBuf.readable =
        (arrived ps e).flatMap (answer ll onRequest) ∧
      (e.conn.closed = false → e.conn.writeBuf.readable ≠ [] → e.conn.writing = true) := by
  have hinv := inv_run hps hsent hwait hll onRequest ops
  exact ⟨hinv.output hps, hinv.watched⟩

omit hps hsent hwait

/-! ### The peer -/

/-- **Requests and replies.** A peer whose requests do not ask to close reads, in what has been
sent and what is waiting, one reply for each request that has wholly come, in their order; when
everything has come, these are the replies to all its requests. -/
theorem run_replies (hll : ll.Correct) {ps : List Bytes}
    (hps : ∀ p ∈ ps, ll.Complete p ∧ startsRequest p = true)
    (hkeep : ∀ p ∈ ps, asksToClose ll p = false) {onRequest : RequestView → List Context.Write}
    {reply : RequestView → Reply} (hreads : ∀ p ∈ ps, Reader.Delimits
      ((onRequest (wholeView ll p)).flatMap (Context.Write.bytes true)) (reply (wholeView ll p)))
    {conn : Connection} (hsent : conn.socket.accepted = []) (hwait : conn.writeBuf.readable = [])
    (ops : List Op) :
    let e := (start ps conn).run ll onRequest ops
    Reader.readAll (e.conn.socket.accepted ++ e.conn.writeBuf.readable) =
        some ((arrived ps e).map fun p => reply (wholeView ll p)) ∧
      (e.incoming = [] → arrived ps e = ps) := by
  intro e
  refine ⟨?_, arrived_all⟩
  rw [output_run hps hsent hwait hll onRequest ops]
  refine Reader.Delimits.readAll fun p hp => ?_
  have hp := (Framing.ended_prefix ps _).subset hp
  rw [answer, hkeep p hp]
  exact hreads p hp

section twoRequests

/-- The same content for every request. -/
def greet (_ : RequestView) : List Context.Write :=
  [.writeAndFlush (.build [.setContent (ascii "hello")])]

def greeting : Reply := { code := 200, body := ascii "hello" }

theorem delimits_greet (v : RequestView) :
    Reader.Delimits ((greet v).flatMap (Context.Write.bytes true)) greeting := by
  have hplain : (HttpResponse.build [.setContent (ascii "hello")]).Plain :=
    plain_build (by decide)
  have htext : (greet v).flatMap (Context.Write.bytes true) =
      (HttpResponse.build [.setContent (ascii "hello")]).serialized := List.append_nil _
  rw [htext]
  exact hplain.delimits (by decide +kernel)

/-- A socket that takes seven bytes, refuses once, and then takes what it is offered. -/
def sluggish : Connection :=
  { socket := { answers := fun i => [Answer.accept 7, .again].getD i (.accept 1000) } }

/-- The second request has begun to come. -/
theorem run_answers_begun :
    let e := (start [rootRequest.text, longRequest.text] sluggish).run
      (Llhttp.ofRecordings rootAndLong) greet [.onRead 40]
    e.conn.socket.accepted ++ e.conn.writeBuf.readable =
      (arrived [rootRequest.text, longRequest.text] e).flatMap
        (answer (Llhttp.ofRecordings rootAndLong) greet) :=
  (run_answers rootAndLong_requests (rfl : sluggish.socket.accepted = []) rfl
    (Llhttp.ofRecordings_correct rootAndLong_sound) greet [.onRead 40]).1

/-- The requests come in two parts. -/
theorem run_replies_twoParts :
    let e := (start [rootRequest.text, longRequest.text] sluggish).run
      (Llhttp.ofRecordings rootAndLong) greet [.onRead 10, .onRead 200, .onWrite]
    Reader.readAll (e.conn.socket.accepted ++ e.conn.writeBuf.readable) =
      some [{ code := 200, body := ascii "hello" }, { code := 200, body := ascii "hello" }] := by
  have hreplies := @run_replies _ (Llhttp.ofRecordings_correct rootAndLong_sound) _
    rootAndLong_requests (by decide +kernel) greet (fun _ => greeting)
    (fun p _ => delimits_greet _) sluggish rfl rfl [.onRead 10, .onRead 200, .onWrite]
  obtain ⟨hread, hall⟩ := hreplies
  rw [hall (by decide +kernel)] at hread
  exact hread

end twoRequests

end HttpExchange

end XNetty
