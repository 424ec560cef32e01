import AcidCompute.Http.Message
import Mathlib.Data.List.Flatten

/-!
# The callbacks of the parsers (`acid/http/http_parse.{h,cpp}`)

`http_parser` calls a callback for each element of a message, for the URL and for the names and values of the headers
and the body once or several times, with fragments that follow each other.  The callbacks overwrite what the last one
has stored, so that the last fragment of an element counts, and for the name of a header that of the moment when a value
comes.  The message is the same as without fragments just if that makes no difference (`request_iff`, `response_iff`).

`http_parser_parse_url` is a parameter.
-/

namespace AcidCompute

namespace Http

/-- The members of `http_parser` that the callbacks read. -/
structure Status where
  httpMajor : Nat
  method : Nat
  statusCode : Nat
  deriving DecidableEq, Repr

/-- A call of a callback. -/
inductive Callback
  | messageBegin
  | url (buffer : List Byte)
  | status (hp : Status) (buffer : List Byte)
  | headerField (buffer : List Byte)
  | headerValue (buffer : List Byte)
  | headersComplete (hp : Status)
  | body (buffer : List Byte)
  | chunkHeader
  | chunkComplete
  | messageComplete
  deriving DecidableEq, Repr

/-- What `http_parser_parse_url` finds in a URL. -/
structure UrlParts where
  path : Option (List Byte)
  query : Option (List Byte)
  fragment : Option (List Byte)
  deriving DecidableEq, Repr

/-- The members of `HttpRequestParser` and of `HttpResponseParser` that the callbacks use. -/
structure Parser (δ : Type) where
  data : δ
  field : List Byte
  finished : Bool

def requestParser : Parser HttpRequest := ⟨.new, [], false⟩

def responseParser : Parser HttpResponse := ⟨.new, [], false⟩

/-- `(hp->http_major << 4) | (hp->http_major)` -/
def Status.version (hp : Status) : BitVec 8 := BitVec.ofNat 8 (hp.httpMajor <<< 4 ||| hp.httpMajor)

/-- `on_request_url_cb`; if it does not return 0 there is no request. -/
def onRequestUrlCb (parseUrl : List Byte → Option UrlParts) (p : Parser HttpRequest) (buffer : List Byte) :
    Option (Parser HttpRequest) :=
  (parseUrl buffer).map fun parts =>
    { p with data := { p.data with
      path := parts.path.getD p.data.path
      query := parts.query.getD p.data.query
      fragment := parts.fragment.getD p.data.fragment } }

/-- The callbacks of a request. -/
def onRequest (parseUrl : List Byte → Option UrlParts) (p : Parser HttpRequest) : Callback → Option (Parser HttpRequest)
  | .url buffer => onRequestUrlCb parseUrl p buffer
  | .headerField buffer => some { p with field := buffer }
  | .headerValue buffer => some { p with data := { p.data with headers := p.data.headers.set p.field buffer } }
  | .headersComplete hp => some { p with data := { p.data with version := hp.version, method := hp.method } }
  | .body buffer => some { p with data := { p.data with body := buffer } }
  | .messageComplete => some { p with finished := true }
  | .messageBegin | .status _ _ | .chunkHeader | .chunkComplete => some p

/-- The callbacks of a response. -/
def onResponse (p : Parser HttpResponse) : Callback → Option (Parser HttpResponse)
  | .headerField buffer => some { p with field := buffer }
  | .headerValue buffer => some { p with data := { p.data with headers := p.data.headers.set p.field buffer } }
  | .headersComplete hp => some { p with data := { p.data with version := hp.version, status := hp.statusCode } }
  | .status hp _ => some { p with data := { p.data with status := hp.statusCode } }
  | .body buffer => some { p with data := { p.data with body := buffer } }
  | .messageComplete => some { p with finished := true }
  | .messageBegin | .url _ | .chunkHeader | .chunkComplete => some p

/-! ### Messages in fragments -/

/-- The fragments of an element. -/
structure Fragments where
  first : List Byte
  rest : List (List Byte)
  deriving DecidableEq, Repr

namespace Fragments

variable (f : Fragments)

def toList : List (List Byte) := f.first :: f.rest

/-- The element. -/
def whole : List Byte := f.toList.flatten

def last : List Byte := f.rest.getLast?.getD f.first

/-- The element in one fragment. -/
def joined : Fragments := ⟨f.whole, []⟩

end Fragments

/-- A header line. -/
structure Line where
  field : Fragments
  value : Fragments
  deriving DecidableEq, Repr

namespace Line

variable (l : Line)

def callbacks : List Callback := l.field.toList.map .headerField ++ l.value.toList.map .headerValue

def joined : Line := ⟨l.field.joined, l.value.joined⟩

def whole : List Byte × List Byte := (l.field.whole, l.value.whole)

/-- What the callbacks make of the line. -/
def last : List Byte × List Byte := (l.field.last, l.value.last)

end Line

/-- The body of a message; a chunk may come in fragments too. -/
inductive Body
  | none
  | plain (f : Fragments)
  | chunked (chunks : List Fragments)
  deriving DecidableEq, Repr

namespace Body

def callbacks : Body → List Callback
  | none => []
  | plain f => f.toList.map .body
  | chunked chunks => chunks.flatMap fun f => .chunkHeader :: f.toList.map .body ++ [.chunkComplete]

def fragments : Body → List (List Byte)
  | none => []
  | plain f => f.toList
  | chunked chunks => chunks.flatMap Fragments.toList

def joined : Body → Body
  | none => none
  | plain f => plain f.joined
  | chunked [] => chunked []
  | chunked (f :: chunks) => chunked [⟨((f :: chunks).flatMap Fragments.toList).flatten, []⟩]

end Body

/-- A message behind its first line. -/
structure Rest where
  headers : List Line
  hp : Status
  body : Body
  -- the header lines behind a chunked body
  trailers : List Line
  deriving DecidableEq, Repr

namespace Rest

variable (r : Rest)

def callbacks : List Callback :=
  r.headers.flatMap Line.callbacks ++ [.headersComplete r.hp] ++ r.body.callbacks ++
    r.trailers.flatMap Line.callbacks ++ [.messageComplete]

def joined : Rest := ⟨r.headers.map Line.joined, r.hp, r.body.joined, r.trailers.map Line.joined⟩

def lines : List Line := r.headers ++ r.trailers

end Rest

/-- The callbacks for a request with a URL. -/
def requestCallbacks (url : Fragments) (r : Rest) : List Callback :=
  .messageBegin :: url.toList.map .url ++ r.callbacks

/-- The callbacks for a response with a reason, which may be missing. -/
def responseCallbacks (reason : List (List Byte)) (r : Rest) : List Callback :=
  .messageBegin :: reason.map (.status r.hp) ++ r.callbacks

/-- The request that the callbacks build. -/
def request (parseUrl : List Byte → Option UrlParts) (url : Fragments) (r : Rest) : Option HttpRequest :=
  ((requestCallbacks url r).foldlM (onRequest parseUrl) requestParser).map Parser.data

/-- The response that they build. -/
def response (reason : List (List Byte)) (r : Rest) : Option HttpResponse :=
  ((responseCallbacks reason r).foldlM onResponse responseParser).map Parser.data

/-! ### What counts of the fragments -/

/-- The last of the parts of one kind. -/
def lastPart (part : UrlParts → Option (List Byte)) (defaultValue : List Byte) (ps : List UrlParts) : List Byte :=
  (ps.filterMap part).getLast?.getD defaultValue

/-- All fragments of the URL are accepted, and the path that one has last, the query and the fragment are those of the
whole. -/
def UrlAgrees (parseUrl : List Byte → Option UrlParts) (url : Fragments) : Prop :=
  ∃ parts, parseUrl url.whole = some parts ∧ ∃ ps, url.toList.mapM parseUrl = some ps ∧
    lastPart UrlParts.path [47] ps = parts.path.getD [47] ∧ lastPart UrlParts.query [] ps = parts.query.getD [] ∧
    lastPart UrlParts.fragment [] ps = parts.fragment.getD []

/-- The URL and one of its fragments are refused. -/
def UrlRefused (parseUrl : List Byte → Option UrlParts) (url : Fragments) : Prop :=
  parseUrl url.whole = none ∧ ∃ b ∈ url.toList, parseUrl b = none

/-- For each name, the first line whose last fragment it is spells it as the first line whose name it is does, and the
last one of them has the value of the last one of those as its last fragment; and the fragments of the body are empty up
to the last one. -/
def Rest.Agrees (r : Rest) : Prop :=
  (∀ k, Headers.firstName k (r.lines.map Line.last) = Headers.firstName k (r.lines.map Line.whole) ∧
    Headers.lastValue k (r.lines.map Line.last) = Headers.lastValue k (r.lines.map Line.whole)) ∧
    ∀ b ∈ r.body.fragments.dropLast, b = []

/-! ### The last fragment counts -/

/-- Where the headers of a request or a response are. -/
structure HeaderPart (δ : Type) where
  get : δ → Headers
  set : δ → Headers → δ
  get_set : ∀ d m, get (set d m) = m
  set_set : ∀ d m m', set (set d m) m' = set d m'
  set_get : ∀ d, set d (get d) = d

namespace HeaderPart

variable {δ : Type} (part : HeaderPart δ)

def setHeader (d : δ) (key val : List Byte) : δ := part.set d ((part.get d).set key val)

/-- The lines set their headers, one after the other. -/
def setLines (lines : List Line) (d : δ) : δ :=
  part.set d ((lines.map Line.last).foldl (fun m l => m.set l.1 l.2) (part.get d))

theorem setHeader_setHeader (d : δ) (key val val' : List Byte) :
    part.setHeader (part.setHeader d key val) key val' = part.setHeader d key val' := by
  unfold setHeader
  rw [part.get_set, part.set_set, Headers.set_set]

def ofRequest : HeaderPart HttpRequest :=
  ⟨fun d => d.headers, fun d m => { d with headers := m }, fun _ _ => rfl, fun _ _ _ => rfl, fun _ => rfl⟩

def ofResponse : HeaderPart HttpResponse :=
  ⟨fun d => d.headers, fun d m => { d with headers := m }, fun _ _ => rfl, fun _ _ _ => rfl, fun _ => rfl⟩

end HeaderPart

theorem Fragments.getLast?_toList (f : Fragments) : f.toList.getLast? = some f.last := by
  rw [Fragments.toList, List.getLast?_cons, Fragments.last]

section

variable {δ : Type} {on : Parser δ → Callback → Option (Parser δ)}

/-- A callback that overwrites what it has stored. -/
private theorem foldlM_overwrites {callback : List Byte → Callback} {store : Parser δ → List Byte → Parser δ}
    (hon : ∀ p b, on p (callback b) = some (store p b)) (hstore : ∀ p b b', store (store p b) b' = store p b')
    (f : Fragments) (p : Parser δ) : (f.toList.map callback).foldlM on p = some (store p f.last) := by
  obtain ⟨first, rest⟩ := f
  induction rest generalizing first p with
  | nil => simp [Fragments.toList, Fragments.last, hon]
  | cons b rest ih =>
    have htail := ih (store p first) b
    simp only [Fragments.toList, Fragments.last, List.map_cons, List.foldlM_cons, hon, Option.bind_eq_bind,
      Option.bind_some, hstore] at htail ⊢
    rw [htail, List.getLast?_cons]
    rfl

private theorem foldlM_line (part : HeaderPart δ) (hfield : ∀ p b, on p (.headerField b) = some { p with field := b })
    (hvalue : ∀ p b, on p (.headerValue b) = some { p with data := part.setHeader p.data p.field b }) (l : Line)
    (p : Parser δ) : l.callbacks.foldlM on p =
      some { p with data := part.setHeader p.data l.last.1 l.last.2, field := l.last.1 } := by
  rw [Line.callbacks, List.foldlM_append, foldlM_overwrites hfield (fun _ _ _ => rfl), Option.bind_eq_bind,
    Option.bind_some, foldlM_overwrites hvalue]
  · rfl
  · intro p b b'
    rw [part.setHeader_setHeader]

/-- Each line sets a header. -/
private theorem foldlM_lines (part : HeaderPart δ)
    (hfield : ∀ p b, on p (.headerField b) = some { p with field := b })
    (hvalue : ∀ p b, on p (.headerValue b) = some { p with data := part.setHeader p.data p.field b })
    (lines : List Line) (p : Parser δ) :
    ∃ field, (lines.flatMap Line.callbacks).foldlM on p = some ⟨part.setLines lines p.data, field, p.finished⟩ := by
  induction lines generalizing p with
  | nil => exact ⟨p.field, by rw [HeaderPart.setLines, List.map_nil, List.foldl_nil, part.set_get]; rfl⟩
  | cons l lines ih =>
    obtain ⟨field, htail⟩ := ih { p with data := part.setHeader p.data l.last.1 l.last.2, field := l.last.1 }
    refine ⟨field, ?_⟩
    rw [List.flatMap_cons, List.foldlM_append, foldlM_line part hfield hvalue, Option.bind_eq_bind, Option.bind_some,
      htail]
    simp only [HeaderPart.setLines, HeaderPart.setHeader, part.get_set, part.set_set, List.map_cons, List.foldl_cons]

variable {store : Parser δ → List Byte → Parser δ}

private theorem foldlM_body (hbody : ∀ p b, on p (.body b) = some (store p b))
    (hstore : ∀ p b b', store (store p b) b' = store p b') (hheader : ∀ p, on p .chunkHeader = some p)
    (hcomplete : ∀ p, on p .chunkComplete = some p) (body : Body) (p : Parser δ) :
    body.callbacks.foldlM on p = some (body.fragments.getLast?.elim p (store p)) := by
  cases body with
  | none => rfl
  | plain f =>
    rw [Body.callbacks, foldlM_overwrites hbody hstore, Body.fragments, f.getLast?_toList]
    rfl
  | chunked chunks =>
    simp only [Body.callbacks, Body.fragments]
    induction chunks generalizing p with
    | nil => rfl
    | cons f chunks ih =>
      have hchunk : (Callback.chunkHeader :: f.toList.map .body ++ [Callback.chunkComplete]).foldlM on p =
          some (store p f.last) := by
        rw [List.cons_append, List.foldlM_cons, hheader, Option.bind_eq_bind, Option.bind_some, List.foldlM_append,
          foldlM_overwrites hbody hstore, Option.bind_eq_bind, Option.bind_some]
        simp [hcomplete]
      rw [List.flatMap_cons, List.foldlM_append, hchunk, Option.bind_eq_bind, Option.bind_some, ih,
        List.flatMap_cons, List.getLast?_append, f.getLast?_toList]
      cases (chunks.flatMap Fragments.toList).getLast? with
      | none => rfl
      | some b => simp [hstore]

/-- What the callbacks behind the first line store: the headers, what is done when they are complete, the last fragment
of the body and the headers behind it. -/
private theorem foldlM_rest (part : HeaderPart δ) (complete : δ → Status → δ) (setBody : δ → List Byte → δ)
    (hfield : ∀ p b, on p (.headerField b) = some { p with field := b })
    (hvalue : ∀ p b, on p (.headerValue b) = some { p with data := part.setHeader p.data p.field b })
    (hheaders : ∀ p hp, on p (.headersComplete hp) = some { p with data := complete p.data hp })
    (hbody : ∀ p b, on p (.body b) = some { p with data := setBody p.data b })
    (hset : ∀ d b b', setBody (setBody d b) b' = setBody d b') (hchunk : ∀ p, on p .chunkHeader = some p)
    (hchunk' : ∀ p, on p .chunkComplete = some p)
    (hcomplete : ∀ p, on p .messageComplete = some { p with finished := true }) (r : Rest) (p : Parser δ) :
    ∃ field, r.callbacks.foldlM on p = some ⟨part.setLines r.trailers
      (r.body.fragments.getLast?.elim (complete (part.setLines r.headers p.data) r.hp)
        (setBody (complete (part.setLines r.headers p.data) r.hp))), field, true⟩ := by
  obtain ⟨field₁, hrun₁⟩ := foldlM_lines part hfield hvalue r.headers p
  let d₁ : δ := complete (part.setLines r.headers p.data) r.hp
  let d₂ : δ := r.body.fragments.getLast?.elim d₁ (setBody d₁)
  have hrun₂ : r.body.callbacks.foldlM on ⟨d₁, field₁, p.finished⟩ = some ⟨d₂, field₁, p.finished⟩ := by
    rw [foldlM_body hbody (fun p b b' => by rw [hset]) hchunk hchunk']
    cases hlast : r.body.fragments.getLast? <;> simp [d₂, hlast]
  obtain ⟨field₂, hrun₃⟩ := foldlM_lines part hfield hvalue r.trailers ⟨d₂, field₁, p.finished⟩
  refine ⟨field₂, ?_⟩
  simp only [Rest.callbacks, List.foldlM_append, hrun₁, Option.bind_eq_bind, Option.bind_some, List.foldlM_cons,
    List.foldlM_nil, hheaders, Option.pure_def]
  rw [hrun₂, Option.bind_some, hrun₃, Option.bind_some, hcomplete]
  rfl

end

/-! ### What is built -/

private theorem lastPart_cons (part : UrlParts → Option (List Byte)) (d : List Byte) (parts : UrlParts)
    (ps : List UrlParts) : lastPart part d (parts :: ps) = lastPart part ((part parts).getD d) ps := by
  unfold lastPart
  cases h : part parts with
  | none => rw [List.filterMap_cons_none h, Option.getD_none]
  | some b => rw [List.filterMap_cons_some h, List.getLast?_cons, Option.getD_some, Option.getD_some]

/-- The fragments of the URL have to be accepted one by one. -/
private theorem foldlM_url (parseUrl : List Byte → Option UrlParts) (urls : List (List Byte)) (p : Parser HttpRequest) :
    (urls.map Callback.url).foldlM (onRequest parseUrl) p = (urls.mapM parseUrl).map fun ps =>
      { p with data := { p.data with
        path := lastPart UrlParts.path p.data.path ps
        query := lastPart UrlParts.query p.data.query ps
        fragment := lastPart UrlParts.fragment p.data.fragment ps } } := by
  induction urls generalizing p with
  | nil => rfl
  | cons b urls ih =>
    rw [List.map_cons, List.foldlM_cons, List.mapM_cons]
    cases hb : parseUrl b with
    | none => simp [onRequest, onRequestUrlCb, hb]
    | some parts =>
      simp only [onRequest, onRequestUrlCb, hb, Option.map_some, Option.bind_eq_bind, Option.bind_some, ih]
      cases urls.mapM parseUrl with
      | none => rfl
      | some ps => simp [lastPart_cons]

/-- The callbacks of a request behind its URL. -/
theorem foldlM_onRequest (parseUrl : List Byte → Option UrlParts) (r : Rest) (p : Parser HttpRequest) :
    ∃ field, r.callbacks.foldlM (onRequest parseUrl) p = some ⟨{ p.data with
      version := r.hp.version
      body := r.body.fragments.getLast?.getD p.data.body
      headers := (r.lines.map Line.last).foldl (fun m l => m.set l.1 l.2) p.data.headers
      method := r.hp.method }, field, true⟩ := by
  obtain ⟨field, hrun⟩ : ∃ field, r.callbacks.foldlM (onRequest parseUrl) p = _ :=
    foldlM_rest .ofRequest (fun d hp => { d with version := hp.version, method := hp.method })
      (fun d b => { d with body := b }) (fun _ _ => rfl) (fun _ _ => rfl) (fun _ _ => rfl) (fun _ _ => rfl)
      (fun _ _ _ => rfl) (fun _ => rfl) (fun _ => rfl) (fun _ => rfl) r p
  refine ⟨field, hrun.trans ?_⟩
  rw [Rest.lines, List.map_append, List.foldl_append]
  cases r.body.fragments.getLast? <;> rfl

theorem foldlM_onResponse (r : Rest) (p : Parser HttpResponse) :
    ∃ field, r.callbacks.foldlM onResponse p = some ⟨{ p.data with
      version := r.hp.version
      body := r.body.fragments.getLast?.getD p.data.body
      headers := (r.lines.map Line.last).foldl (fun m l => m.set l.1 l.2) p.data.headers
      status := r.hp.statusCode }, field, true⟩ := by
  obtain ⟨field, hrun⟩ : ∃ field, r.callbacks.foldlM onResponse p = _ :=
    foldlM_rest .ofResponse (fun d hp => { d with version := hp.version, status := hp.statusCode })
      (fun d b => { d with body := b }) (fun _ _ => rfl) (fun _ _ => rfl) (fun _ _ => rfl) (fun _ _ => rfl)
      (fun _ _ _ => rfl) (fun _ => rfl) (fun _ => rfl) (fun _ => rfl) r p
  refine ⟨field, hrun.trans ?_⟩
  rw [Rest.lines, List.map_append, List.foldl_append]
  cases r.body.fragments.getLast? <;> rfl

/-- What is built of a request, if the fragments of its URL are accepted. -/
theorem request_eq (parseUrl : List Byte → Option UrlParts) (url : Fragments) (r : Rest) :
    request parseUrl url r = (url.toList.mapM parseUrl).map fun ps => {
      version := r.hp.version
      close := true
      body := r.body.fragments.getLast?.getD []
      headers := Headers.ofLines (r.lines.map Line.last)
      method := r.hp.method
      path := lastPart UrlParts.path [47] ps
      query := lastPart UrlParts.query [] ps
      fragment := lastPart UrlParts.fragment [] ps } := by
  unfold request requestCallbacks
  rw [List.cons_append, List.foldlM_cons]
  show ((url.toList.map Callback.url ++ r.callbacks).foldlM (onRequest parseUrl) requestParser).map Parser.data = _
  rw [List.foldlM_append, foldlM_url]
  cases url.toList.mapM parseUrl with
  | none => rfl
  | some ps =>
    rw [Option.map_some, Option.bind_eq_bind, Option.bind_some]
    obtain ⟨field, hrun⟩ := foldlM_onRequest parseUrl r _
    rw [hrun]
    rfl

theorem response_eq (reason : List (List Byte)) (r : Rest) :
    response reason r = some {
      version := r.hp.version
      close := true
      body := r.body.fragments.getLast?.getD []
      headers := Headers.ofLines (r.lines.map Line.last)
      status := r.hp.statusCode } := by
  have hstatus : ∀ p : Parser HttpResponse, ∃ status, (reason.map (Callback.status r.hp)).foldlM onResponse p =
      some { p with data := { p.data with status := status } } := by
    intro p
    induction reason generalizing p with
    | nil => exact ⟨p.data.status, rfl⟩
    | cons b reason ih => exact ih _
  unfold response responseCallbacks
  rw [List.cons_append, List.foldlM_cons]
  show Option.map Parser.data ((reason.map (Callback.status r.hp) ++ r.callbacks).foldlM onResponse responseParser) = _
  obtain ⟨status, hreason⟩ := hstatus responseParser
  obtain ⟨field, hrun⟩ :=
    foldlM_onResponse r { responseParser with data := { responseParser.data with status := status } }
  rw [List.foldlM_append, hreason, Option.bind_eq_bind, Option.bind_some, hrun]
  rfl

/-! ### Against the message without fragments -/

theorem Rest.joined_lines (r : Rest) : r.joined.lines.map Line.last = r.lines.map Line.whole := by
  simp only [Rest.lines, Rest.joined, List.map_append, List.map_map]
  rfl

/-- The whole body is what its fragments make together. -/
theorem Body.joined_last (body : Body) : body.joined.fragments.getLast?.getD [] = body.fragments.flatten := by
  cases body with
  | none => rfl
  | plain f => rfl
  | chunked chunks =>
    cases chunks with
    | nil => rfl
    | cons f chunks => simp [Body.joined, Body.fragments, Fragments.toList]

/-- The last of some pieces is the whole just if there is nothing in the others. -/
theorem getLast?_eq_flatten (l : List (List Byte)) : l.getLast?.getD [] = l.flatten ↔ ∀ b ∈ l.dropLast, b = [] := by
  rcases List.eq_nil_or_concat l with rfl | ⟨init, b, rfl⟩
  · simp
  · simp [eq_comm]

theorem mapM_eq_none {parseUrl : List Byte → Option UrlParts} {urls : List (List Byte)} :
    urls.mapM parseUrl = none ↔ ∃ b ∈ urls, parseUrl b = none := by
  induction urls with
  | nil => simp
  | cons b urls ih =>
    rw [List.mapM_cons]
    cases hb : parseUrl b with
    | none => simp [hb]
    | some parts => cases hmap : urls.mapM parseUrl <;> simp_all

theorem Rest.agrees_iff (r : Rest) :
    r.Agrees ↔ Headers.ofLines (r.lines.map Line.last) = Headers.ofLines (r.joined.lines.map Line.last) ∧
      r.body.fragments.getLast?.getD [] = r.joined.body.fragments.getLast?.getD [] := by
  rw [r.joined_lines, Headers.ofLines_eq_iff, show r.joined.body = r.body.joined from rfl, r.body.joined_last,
    getLast?_eq_flatten]
  rfl

theorem request_iff (parseUrl : List Byte → Option UrlParts) (url : Fragments) (r : Rest) :
    request parseUrl url r = request parseUrl url.joined r.joined ↔
      UrlRefused parseUrl url ∨ UrlAgrees parseUrl url ∧ r.Agrees := by
  have hjoined : url.joined.toList.mapM parseUrl = (parseUrl url.whole).map fun parts => [parts] := by
    rw [show url.joined.toList = [url.whole] from rfl]
    cases h : parseUrl url.whole <;> simp [h]
  rw [request_eq, request_eq, hjoined, r.agrees_iff]
  unfold UrlRefused UrlAgrees
  cases hwhole : parseUrl url.whole with
  | none =>
    cases hurls : url.toList.mapM parseUrl with
    | none => simp [mapM_eq_none.1 hurls]
    | some ps =>
      have hall : ¬ ∃ b ∈ url.toList, parseUrl b = none := by
        rw [← mapM_eq_none, hurls]
        simp
      simp [hall]
  | some parts =>
    cases hurls : url.toList.mapM parseUrl with
    | none => simp
    | some ps =>
      have hsingle : ∀ part d, lastPart part d [parts] = (part parts).getD d :=
        fun part d => lastPart_cons part d parts []
      simp only [Option.map_some, Option.some.injEq, HttpRequest.mk.injEq, HttpMessage.mk.injEq, hsingle,
        exists_eq_left', show r.joined.hp = r.hp from rfl, true_and, reduceCtorEq, false_and, false_or]
      tauto

theorem response_iff (reason : List (List Byte)) (r : Rest) :
    response reason r = response [reason.flatten] r.joined ↔ r.Agrees := by
  rw [response_eq, response_eq, r.agrees_iff]
  simp only [Option.some.injEq, HttpResponse.mk.injEq, HttpMessage.mk.injEq, show r.joined.hp = r.hp from rfl, true_and,
    and_true]
  tauto

/-- When a message in fragments is taken for what it is. -/
theorem joined_iff (parseUrl : List Byte → Option UrlParts) (url : Fragments) (reason : List (List Byte)) (r : Rest) :
    (request parseUrl url r = request parseUrl url.joined r.joined ↔
      UrlRefused parseUrl url ∨ UrlAgrees parseUrl url ∧ r.Agrees) ∧
    (response reason r = response [reason.flatten] r.joined ↔ r.Agrees) :=
  ⟨request_iff parseUrl url r, response_iff reason r⟩

/-- The value of the header `a` and the body come in two fragments each. -/
private def twoFragments : Rest :=
  ⟨[⟨⟨[97], []⟩, ⟨[49], [[50]]⟩⟩], ⟨1, 3, 200⟩, .plain ⟨[120], [[121]]⟩, []⟩

/-- Of the value 12 and of the body xy only the second half is left. -/
theorem not_joined_twoFragments :
    request (fun url => some ⟨some url, none, none⟩) ⟨[47], []⟩ twoFragments ≠
      request (fun url => some ⟨some url, none, none⟩) ⟨[47], []⟩ twoFragments.joined ∧
    response [[79, 75]] twoFragments ≠ response [[79, 75]] twoFragments.joined := by
  constructor
  · intro heq
    have hbody := congrArg (Option.map fun d => (d.body, d.headers.get [97] [])) heq
    revert hbody
    decide
  · intro heq
    have hbody := congrArg (Option.map fun d => (d.body, d.headers.get [97] [])) heq
    revert hbody
    decide

end Http

end AcidCompute
