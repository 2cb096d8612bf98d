import XNetty.Http.Response
import XNetty.Http.Router.Search

/-!
# The router

Routes without parameters are kept in a hash map under their normalized path, all others
in the trie. Handlers are values of an arbitrary type: the router calls them and never
looks inside.

## Main definitions

* `Router.addRoute` — registration.
* `Router.onRequest` — dispatch, as the calls it makes.
-/

namespace XNetty

variable {H : Type*}

structure Router (H : Type*) where
  staticRoutes : Finmap fun _ : Bytes => Handlers H
  root : Node H

/-- What `onRequest` does: call a handler, or write a response to the context. -/
inductive Effect (H : Type*) where
  | invoke (h : H) (req : HttpRequest)
  | writeAndFlush (resp : HttpResponse)

namespace Router

def empty : Router H := ⟨∅, .node {} []⟩

/-- A segment that begins with `':'` keeps a route out of the hash map. -/
def hasParam (segs : List Bytes) : Bool := segs.any fun seg => decide (seg.head? = some colon)

def addRoute (r : Router H) (method : HttpMethod) (path : Bytes) (handler : H) : Router H :=
  let norm := normalizePath path
  let segs := splitPath norm
  let idx := methodIndex method
  if ¬ hasParam segs ∧ segs ≠ [] then
    let slots := (r.staticRoutes.lookup norm).getD .none
    { r with
      staticRoutes := r.staticRoutes.insert norm (Function.update slots idx (some handler)) }
  else { r with root := r.root.insertRoute idx handler segs }

def methodNotAllowed : HttpResponse := .plainText .methodNotAllowed "Method Not Allowed"
def notFound : HttpResponse := .plainText .notFound "Not Found"

/-- The path of a request as the router sees it: without the query, normalized. -/
def requestPath (req : HttpRequest) : Bytes := normalizePath (req.uri.takeWhile (· ≠ 63))

def onRequest (r : Router H) (req : HttpRequest) : List (Effect H) :=
  let methodMask := methodToMask req.method
  if methodMask = 0 then [.writeAndFlush methodNotAllowed]
  else
    let norm := requestPath req
    match r.staticRoutes.lookup norm with
    | some handlers =>
      match handlers (methodIndex req.method) with
      | some h => [.invoke h req]
      | none =>
        if (List.finRange 5).any fun i => (handlers i).isSome then
          [.writeAndFlush methodNotAllowed]
        else [.writeAndFlush notFound]
    | none =>
      let segs := splitPath norm
      let (found, params) := r.root.matchNode methodMask segs ∅
      if found then
        let enriched := req.setParams params
        match (r.root.walk segs).1.data.handlers.handlerFor methodMask with
        | some h => [.invoke h enriched]
        | none => []
      else
        let (cur, pathExists) := r.root.walk segs
        if pathExists ∧ cur.data.handlers.methodMask ≠ 0 then [.writeAndFlush methodNotAllowed]
        else [.writeAndFlush notFound]

end Router

end XNetty
