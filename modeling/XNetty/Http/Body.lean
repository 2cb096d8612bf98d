import XNetty.Http.Delivery

/-!
# Bodies of delivered requests

The body is taken to start at the largest end of a span seen before the headers were
complete. The empty line always lies behind that place, and so the body that a request
shows is never the one that was sent.

## Main definitions

* `HttpServerCodec.body_eq` — what `body()` returns.
* `HttpServerCodec.body_ne` — it is not the message body.
-/

namespace XNetty

namespace HttpServerCodec

variable {codec : HttpServerCodec} {ll : Llhttp}

section run

variable (hll : ll.Correct) {bufs : List ByteBuf} {st : CodecState} {actions : List Action}
  (hrun : readAll codec ll .fresh bufs = some (st, actions)) {req : HttpRequest}
  (hreq : req ∈ firedRequests actions) {rq : RequestText} (hrq : req.PointsAt rq.text)
  {t : Parse} (ht : (ll.execute rq.text).callbacks = t.callbacks) (hfound : rq.FoundBy t)
include hll hrun hreq hrq ht hfound

/-- **What `body()` returns**: what is left of the last header line (of the request line,
without headers), the empty line, and the body. -/
theorem body_eq : req.body = rq.head.drop t.headerEnd ++ (crlf ++ rq.body) := by
  obtain ⟨r, p, hlength, hmade⟩ := readAll_fired hll hrun rfl req hreq
  obtain rfl := hmade.pointsAt.unique hrq
  have hend := hfound.headerEnd_le
  have hstop : t.headerEnd < rq.text.length := by
    simp only [RequestText.text, crlf, List.length_append, List.length_cons]
    omega
  rw [hmade.body hlength ht hstop, RequestText.text, List.drop_append_of_le_length hend]

/-- **The body of a delivered request is wrong**: on every connection, with any limits and
any cutting, `body()` has at least two bytes more than the message body. -/
theorem body_ne : req.body ≠ rq.body := by
  intro heq
  have hlen := congrArg List.length (body_eq hll hrun hreq hrq ht hfound)
  simp only [heq, crlf, List.length_append, List.length_cons] at hlen
  omega

end run

section post

theorem readAll_post :
    readAll unlimited (postRequest.llhttp 3 1 1) .fresh [.copyOf postRequest.text] =
      some (⟨{}, ByteBuf.empty.clear⟩,
        noted ((postRequest.recording 3 1 1).parse.attach postRequest.text
          postRequest.text.length {}) ++ [.fireRead (.request (postRequest.decoded 3 1 1))]) := by
  rw [readAll, postRequest.channelRead_alone 3 1 1 rfl]
  rfl

/-- **A body with the empty line in front**: of `abc`, `body()` makes the line end of the last
header, the empty line and `abc`. -/
theorem body_post :
    ∃ st actions req t, (postRequest.llhttp 3 1 1).Correct ∧
      readAll unlimited (postRequest.llhttp 3 1 1) .fresh [.copyOf postRequest.text] =
        some (st, actions) ∧
      req ∈ firedRequests actions ∧ req.PointsAt postRequest.text ∧
      ((postRequest.llhttp 3 1 1).execute postRequest.text).callbacks = t.callbacks ∧
      postRequest.FoundBy t ∧
      req.body = ascii "\r\n\r\nabc" ∧ req.body ≠ postRequest.body :=
  ⟨_, _, postRequest.decoded 3 1 1, _, postRequest.llhttp_correct 3 1 1, readAll_post,
    List.mem_singleton_self _, postRequest.decoded_pointsAt 3 1 1,
    postRequest.llhttp_callbacks 3 1 1, postRequest.foundBy_recording 3 1 1,
    by decide +kernel, by decide +kernel⟩

theorem body_ne_post : (postRequest.decoded 3 1 1).body ≠ postRequest.body :=
  body_ne (postRequest.llhttp_correct 3 1 1) readAll_post (List.mem_singleton_self _)
    (postRequest.decoded_pointsAt 3 1 1) (postRequest.llhttp_callbacks 3 1 1)
    (postRequest.foundBy_recording 3 1 1)

end post

end HttpServerCodec

end XNetty
