import AcidCompute.Base.Numeral
import AcidCompute.Base.Text
import AcidCompute.Http.Message
import Mathlib.Data.Set.Finite.Basic

/-!
# The text of a message (`HttpRequest::dump`, `HttpResponse::dump`)

The header lines of a message are its connection line, what its map has and the length of its body.  A request gets
that length also if its map has one, and a response does if the one of its map is empty; what the map has is never
compared with the body (`dump_iff`).
-/

namespace AcidCompute

/-- The entries of a map in the order of their names. -/
structure Headers.Listing (m : Headers) where
  entries : List (List Byte × List Byte)
  sorted : entries.Pairwise fun e e' => foldCase e.1 < foldCase e'.1
  complete : ∀ k e, m k = some e ↔ e ∈ entries ∧ foldCase e.1 = k

namespace Headers

/-- A map has finitely many entries, each where its name belongs. -/
structure IsMap (m : Headers) : Prop where
  finite : {k | m k ≠ none}.Finite
  name : ∀ k e, m k = some e → foldCase e.1 = k

theorem IsMap.empty : IsMap empty := ⟨by simp [Headers.empty], fun k e h => by cases h⟩

theorem IsMap.set {m : Headers} (h : IsMap m) (key val : List Byte) : IsMap (m.set key val) := by
  constructor
  · refine (h.finite.insert (foldCase key)).subset fun k hk => ?_
    by_cases hkey : k = foldCase key
    · exact Set.mem_insert_iff.2 (.inl hkey)
    · refine Set.mem_insert_of_mem _ ?_
      simpa [Headers.set, Function.update_of_ne hkey] using hk
  · intro k e hentry
    by_cases hkey : k = foldCase key
    · subst hkey
      rw [Headers.set, Function.update_self, Option.some.injEq] at hentry
      rw [← hentry]
      change foldCase (((m (foldCase key)).map Prod.fst).getD key) = foldCase key
      cases hold : m (foldCase key) with
      | none => rfl
      | some e' => exact h.name (foldCase key) e' hold
    · rw [Headers.set, Function.update_of_ne hkey] at hentry
      exact h.name k e hentry

/-- A map can be listed. -/
theorem IsMap.nonempty_listing {m : Headers} (h : IsMap m) : Nonempty m.Listing := by
  obtain ⟨names, hnames⟩ := h.finite.exists_finset_coe
  have hmem : ∀ k, k ∈ names ↔ m k ≠ none := fun k => by
    rw [← Finset.mem_coe, hnames]
    rfl
  have hsorted : (names.toList.mergeSort).Pairwise (· < ·) := by
    have hle : (names.toList.mergeSort).Pairwise (· ≤ ·) := by
      have htrans : ∀ a b c : List Byte, decide (a ≤ b) = true → decide (b ≤ c) = true → decide (a ≤ c) = true := by
        simpa using fun a b c => List.le_trans
      have htotal : ∀ a b : List Byte, (decide (a ≤ b) || decide (b ≤ a)) = true := by
        simpa using List.le_total
      simpa using List.pairwise_mergeSort htrans htotal names.toList
    have hne : (names.toList.mergeSort).Nodup := (List.mergeSort_perm _ _).nodup_iff.2 names.nodup_toList
    exact (hle.and hne).imp fun h => (List.le_iff_lt_or_eq.1 h.1).resolve_right h.2
  refine ⟨(names.toList.mergeSort).filterMap m, ?_, fun k e => ?_⟩
  · rw [List.pairwise_filterMap]
    refine hsorted.imp fun {k k'} hlt e hk e' hk' => ?_
    rwa [h.name k e hk, h.name k' e' hk']
  · rw [List.mem_filterMap]
    constructor
    · intro hentry
      refine ⟨⟨k, ?_, hentry⟩, h.name k e hentry⟩
      rw [List.mem_mergeSort, Finset.mem_toList, hmem, hentry]
      exact Option.some_ne_none e
    · rintro ⟨⟨k', -, hentry⟩, hk⟩
      rwa [← hk, h.name k' e hentry]

end Headers

namespace Http

def methodStrings : List String :=
  ["DELETE", "GET", "HEAD", "POST", "PUT", "CONNECT", "OPTIONS", "TRACE", "COPY", "LOCK", "MKCOL", "MOVE", "PROPFIND",
   "PROPPATCH", "SEARCH", "UNLOCK", "BIND", "REBIND", "UNBIND", "ACL", "REPORT", "MKACTIVITY", "CHECKOUT", "MERGE",
   "M - SEARCH", "NOTIFY", "SUBSCRIBE", "UNSUBSCRIBE", "PATCH", "PURGE", "MKCALENDAR", "LINK", "UNLINK", "SOURCE"]

def statusStrings : List (Nat × String) :=
  [(100, "Continue"), (101, "Switching Protocols"), (102, "Processing"), (200, "OK"), (201, "Created"),
   (202, "Accepted"), (203, "Non - Authoritative Information"), (204, "No Content"), (205, "Reset Content"),
   (206, "Partial Content"), (207, "Multi - Status"), (208, "Already Reported"), (226, "IM Used"),
   (300, "Multiple Choices"), (301, "Moved Permanently"), (302, "Found"), (303, "See Other"), (304, "Not Modified"),
   (305, "Use Proxy"), (307, "Temporary Redirect"), (308, "Permanent Redirect"), (400, "Bad Request"),
   (401, "Unauthorized"), (402, "Payment Required"), (403, "Forbidden"), (404, "Not Found"),
   (405, "Method Not Allowed"), (406, "Not Acceptable"), (407, "Proxy Authentication Required"),
   (408, "Request Timeout"), (409, "Conflict"), (410, "Gone"), (411, "Length Required"), (412, "Precondition Failed"),
   (413, "Payload Too Large"), (414, "URI Too Long"), (415, "Unsupported Media Type"), (416, "Range Not Satisfiable"),
   (417, "Expectation Failed"), (421, "Misdirected Request"), (422, "Unprocessable Entity"), (423, "Locked"),
   (424, "Failed Dependency"), (426, "Upgrade Required"), (428, "Precondition Required"), (429, "Too Many Requests"),
   (431, "Request Header Fields Too Large"), (451, "Unavailable For Legal Reasons"), (500, "Internal Server Error"),
   (501, "Not Implemented"), (502, "Bad Gateway"), (503, "Service Unavailable"), (504, "Gateway Timeout"),
   (505, "HTTP Version Not Supported"), (506, "Variant Also Negotiates"), (507, "Insufficient Storage"),
   (508, "Loop Detected"), (510, "Not Extended"), (511, "Network Authentication Required")]

/-- `http_method_to_string` -/
def methodToString (method : Nat) : List Byte := bytes (methodStrings.getD method "<unknown>")

/-- `http_status_to_string` -/
def statusToString (status : Nat) : List Byte := bytes ((statusStrings.lookup status).getD "<unknown>")

/-- `HTTP/1.1`, say. -/
def versionText (version : BitVec 8) : List Byte :=
  bytes "HTTP/" ++ numeral 10 (version >>> 4).toNat ++ bytes "." ++ numeral 10 (version &&& 0xF).toNat

def closeText (close : Bool) : List Byte := bytes (if close then "close" else "keep-alive")

-- `os << header.first << ": " << header.second << "\r\n"`
def headerLine (header : List Byte × List Byte) : List Byte := header.1 ++ bytes ": " ++ header.2 ++ crlf

/-- The connection line and those of the map, in which the connection line has been named. -/
def dumpHeaders (connection : String) (websocket close : Bool) (entries : List (List Byte × List Byte)) : List Byte :=
  (if websocket then [] else headerLine (bytes connection, closeText close)) ++
    (entries.filter fun header =>
      !(!websocket && decide (foldCase header.1 = foldCase (bytes "connection")))).flatMap headerLine

end Http

open Http

/-- The first line of a request. -/
def HttpRequest.startLine (r : HttpRequest) : List Byte :=
  methodToString r.method ++ bytes " " ++ r.path ++ (if r.query = [] then [] else bytes "?") ++ r.query ++
    (if r.fragment = [] then [] else bytes "#") ++ r.fragment ++ bytes " " ++ versionText r.version

def HttpRequest.dump (r : HttpRequest) (websocket : Bool) (headers : r.headers.Listing) : List Byte :=
  r.startLine ++ crlf ++ dumpHeaders "connection" websocket r.close headers.entries ++
    if r.body = [] then crlf
    else headerLine (bytes "Content-Length", numeral 10 r.body.length) ++ crlf ++ r.body

/-- The first line of a response. -/
def HttpResponse.startLine (r : HttpResponse) (reason : List Byte) : List Byte :=
  versionText r.version ++ bytes " " ++ numeral 10 r.status ++ bytes " " ++
    (if reason = [] then statusToString r.status else reason)

def HttpResponse.dump (r : HttpResponse) (reason : List Byte) (websocket : Bool) (headers : r.headers.Listing) :
    List Byte :=
  r.startLine reason ++ crlf ++ dumpHeaders "Connection" websocket r.close headers.entries ++
    if r.body = [] then crlf
    else (if r.headers.get (bytes "Content-Length") [] = [] then
        headerLine (bytes "Content-Length", numeral 10 r.body.length) else []) ++ crlf ++ r.body

/-! ### Header lines -/

namespace Http

/-- The name and the value of a header line, without the blanks around the value. -/
def headerField (line : List Byte) : List Byte × List Byte :=
  (line.takeWhile (· ≠ 58), trim ((line.dropWhile (· ≠ 58)).drop 1))

/-- The header lines of a text stand between its first line and the first empty line. -/
def headerFields (text : List Byte) : List (List Byte × List Byte) :=
  (((textLines text).drop 1).takeWhile (· ≠ [])).map headerField

/-- An entry whose line can be read. -/
def IsField (header : List Byte × List Byte) : Prop :=
  SingleLine header.1 ∧ 58 ∉ header.1 ∧ SingleLine header.2

instance (header : List Byte × List Byte) : Decidable (IsField header) := inferInstanceAs (Decidable (_ ∧ _))

/-- The values of the lines with a name. -/
def valuesOf (name : String) (fields : List (List Byte × List Byte)) : List (List Byte) :=
  (fields.filter fun header => foldCase header.1 = foldCase (bytes name)).map Prod.snd

/-- The header lines that delimit a message are right. -/
structure Framed (fields : List (List Byte × List Byte)) (body : List Byte) (close websocket : Bool) : Prop where
  once : (valuesOf "Content-Length" fields).length ≤ 1
  length : ∀ v ∈ valuesOf "Content-Length" fields, ofNumeral 10 v = some body.length
  present : body ≠ [] → valuesOf "Content-Length" fields ≠ []
  connection : websocket = false → valuesOf "Connection" fields = [closeText close]

/-- The header lines in front of that for the body. -/
def keptHeaders (connection : String) (websocket close : Bool) (entries : List (List Byte × List Byte)) :
    List (List Byte × List Byte) :=
  (if websocket then [] else [(bytes connection, closeText close)]) ++
    entries.filter fun header => !(!websocket && decide (foldCase header.1 = foldCase (bytes "connection")))

def trimValue (header : List Byte × List Byte) : List Byte × List Byte := (header.1, trim header.2)

end Http

/-- The header lines of a request. -/
def HttpRequest.headerLines (r : HttpRequest) (websocket : Bool) (headers : r.headers.Listing) :
    List (List Byte × List Byte) :=
  keptHeaders "connection" websocket r.close headers.entries ++
    if r.body = [] then [] else [(bytes "Content-Length", numeral 10 r.body.length)]

/-- The header lines of a response. -/
def HttpResponse.headerLines (r : HttpResponse) (websocket : Bool) (headers : r.headers.Listing) :
    List (List Byte × List Byte) :=
  keptHeaders "Connection" websocket r.close headers.entries ++
    if r.body = [] ∨ r.headers.get (bytes "Content-Length") [] ≠ [] then []
    else [(bytes "Content-Length", numeral 10 r.body.length)]

namespace Http

private theorem dumpHeaders_eq (connection : String) (websocket close : Bool)
    (entries : List (List Byte × List Byte)) : dumpHeaders connection websocket close entries =
      (keptHeaders connection websocket close entries).flatMap headerLine := by
  rw [dumpHeaders, keptHeaders, List.flatMap_append]
  cases websocket <;> simp

end Http

theorem HttpRequest.dump_eq (r : HttpRequest) (websocket : Bool) (headers : r.headers.Listing) :
    r.dump websocket headers =
      r.startLine ++ crlf ++ (r.headerLines websocket headers).flatMap headerLine ++ crlf ++ r.body := by
  rw [HttpRequest.dump, HttpRequest.headerLines, dumpHeaders_eq, List.flatMap_append]
  by_cases hbody : r.body = [] <;> simp [hbody]

theorem HttpResponse.dump_eq (r : HttpResponse) (reason : List Byte) (websocket : Bool) (headers : r.headers.Listing) :
    r.dump reason websocket headers =
      r.startLine reason ++ crlf ++ (r.headerLines websocket headers).flatMap headerLine ++ crlf ++ r.body := by
  rw [HttpResponse.dump, HttpResponse.headerLines, dumpHeaders_eq, List.flatMap_append]
  by_cases hbody : r.body = []
  · simp [hbody]
  · by_cases hlength : r.headers.get (bytes "Content-Length") [] = [] <;> simp [hbody, hlength]

/-! ### Reading the text -/

namespace Http

private theorem headerField_eq {header : List Byte × List Byte} (h : 58 ∉ header.1) :
    headerField (header.1 ++ bytes ": " ++ header.2) = trimValue header := by
  have hname : ∀ c ∈ header.1, decide (c ≠ 58) = true := by
    intro c hc
    simp only [decide_eq_true_eq]
    intro heq
    exact h (heq ▸ hc)
  have hcolon : bytes ": " ++ header.2 = 58 :: 32 :: header.2 := by
    rw [show bytes ": " = [58, 32] by decide +kernel]
    rfl
  rw [headerField, trimValue, List.append_assoc, hcolon, List.takeWhile_append_of_pos hname,
    List.dropWhile_append_of_pos hname]
  have htrim : trim (32 :: header.2) = trim header.2 := trim_cons_blank (by decide) header.2
  simpa using htrim

private theorem singleLine_line {header : List Byte × List Byte} (h : IsField header) :
    SingleLine (header.1 ++ bytes ": " ++ header.2) :=
  (h.1.append (by decide +kernel)).append h.2.2

/-- The header lines of a text are those that it has been written with. -/
theorem headerFields_text {start : List Byte} (hstart : SingleLine start) {headers : List (List Byte × List Byte)}
    (hheaders : ∀ header ∈ headers, IsField header) (body : List Byte) :
    headerFields (start ++ crlf ++ headers.flatMap headerLine ++ crlf ++ body) = headers.map trimValue := by
  let line (header : List Byte × List Byte) : List Byte := header.1 ++ bytes ": " ++ header.2
  have hlines : headers.flatMap headerLine = (headers.map line).flatMap (· ++ crlf) := by
    rw [List.flatMap_map]
    rfl
  have hsingle : ∀ s ∈ headers.map line, SingleLine s := by
    intro s hs
    obtain ⟨header, hmem, rfl⟩ := List.mem_map.1 hs
    exact singleLine_line (hheaders header hmem)
  have hnonempty : ∀ s ∈ headers.map line, decide (s ≠ []) = true := by
    intro s hs
    obtain ⟨header, -, rfl⟩ := List.mem_map.1 hs
    have hcolon : bytes ": " ≠ [] := by decide +kernel
    simp [line, hcolon]
  have hempty : textLines (crlf ++ body) = [] :: textLines body :=
    textLines_append (s := []) (by decide) body
  rw [headerFields, hlines, List.append_assoc, List.append_assoc, textLines_append hstart, textLines_flatMap hsingle,
    hempty, List.drop_one, List.tail_cons, List.takeWhile_append_of_pos hnonempty,
    List.takeWhile_cons_of_neg (by simp), List.append_nil, List.map_map]
  apply List.map_congr_left
  intro header hmem
  exact headerField_eq (hheaders header hmem).2.1

/-! ### The lines with a name -/

private theorem foldCase_connection :
    foldCase (bytes "Connection") = foldCase (bytes "connection") ∧
      foldCase (bytes "Content-Length") ≠ foldCase (bytes "connection") := by decide +kernel

end Http

/-- A name has one entry at most. -/
theorem Headers.Listing.filter_eq {m : Headers} (headers : m.Listing) (k : List Byte) :
    headers.entries.filter (fun header => foldCase header.1 = k) = (m k).toList := by
  have hsorted := headers.sorted.filter fun header => decide (foldCase header.1 = k)
  have hmem : ∀ e, e ∈ headers.entries.filter (fun header => foldCase header.1 = k) ↔ m k = some e := by
    intro e
    rw [List.mem_filter, decide_eq_true_eq, headers.complete]
  cases hlist : headers.entries.filter fun header => foldCase header.1 = k with
  | nil =>
    rw [hlist] at hmem
    cases hentry : m k with
    | none => rfl
    | some e => exact absurd ((hmem e).2 hentry) List.not_mem_nil
  | cons e rest =>
    rw [hlist] at hmem hsorted
    have hfirst : m k = some e := (hmem e).1 List.mem_cons_self
    rw [hfirst]
    cases rest with
    | nil => rfl
    | cons e' rest =>
      have hsecond : m k = some e' := (hmem e').1 (by simp)
      rw [hfirst, Option.some.injEq] at hsecond
      have hlt := (List.pairwise_cons.1 hsorted).1 e' List.mem_cons_self
      rw [hsecond] at hlt
      exact absurd hlt (List.lt_irrefl _)

namespace Http

private theorem valuesOf_append (name : String) (fields fields' : List (List Byte × List Byte)) :
    valuesOf name (fields ++ fields') = valuesOf name fields ++ valuesOf name fields' := by
  rw [valuesOf, valuesOf, valuesOf, List.filter_append, List.map_append]

private theorem valuesOf_trim (name : String) (fields : List (List Byte × List Byte)) :
    valuesOf name (fields.map trimValue) = (valuesOf name fields).map trim := by
  rw [valuesOf, valuesOf, List.filter_map, List.map_map, List.map_map]
  rfl

section

variable {connection : String} (hconnection : foldCase (bytes connection) = foldCase (bytes "connection"))
  {m : Headers} (headers : m.Listing) (websocket close : Bool)

include hconnection

/-- The lines for the length that the map brings. -/
private theorem contentLength_kept :
    valuesOf "Content-Length" (keptHeaders connection websocket close headers.entries) =
      ((m (foldCase (bytes "Content-Length"))).map Prod.snd).toList := by
  have hown : valuesOf "Content-Length" (if websocket then [] else [(bytes connection, closeText close)]) = [] := by
    cases websocket with
    | true => rfl
    | false => simp [valuesOf, hconnection, foldCase_connection.2.symm]
  have hkept : valuesOf "Content-Length" (headers.entries.filter fun header =>
      !(!websocket && decide (foldCase header.1 = foldCase (bytes "connection")))) =
        valuesOf "Content-Length" headers.entries := by
    rw [valuesOf, valuesOf, List.filter_filter]
    congr 1
    apply List.filter_congr
    intro header _
    by_cases hname : foldCase header.1 = foldCase (bytes "Content-Length")
    · simp [hname, foldCase_connection.2]
    · simp [hname]
  rw [keptHeaders, valuesOf_append, hown, hkept, List.nil_append, valuesOf, headers.filter_eq]
  cases m (foldCase (bytes "Content-Length")) <;> rfl

/-- The map brings no line for the connection. -/
private theorem connection_kept :
    valuesOf "Connection" (keptHeaders connection false close headers.entries) = [closeText close] := by
  have hskip : valuesOf "Connection" (headers.entries.filter fun header =>
      !(!false && decide (foldCase header.1 = foldCase (bytes "connection")))) = [] := by
    rw [valuesOf, List.filter_filter, List.map_eq_nil_iff, List.filter_eq_nil_iff]
    intro header _
    simp [foldCase_connection.1]
  rw [keptHeaders, valuesOf_append, hskip]
  simp [valuesOf, hconnection, foldCase_connection.1]

/-- Only the lines for the length can go wrong. -/
private theorem framed_iff {own : List (List Byte × List Byte)}
    (hown : ∀ header ∈ own, header.1 = bytes "Content-Length") (body : List Byte) :
    Framed ((keptHeaders connection websocket close headers.entries ++ own).map trimValue) body close websocket ↔
      let values := (((m (foldCase (bytes "Content-Length"))).map Prod.snd).toList ++ own.map Prod.snd).map trim
      values.length ≤ 1 ∧ (∀ v ∈ values, ofNumeral 10 v = some body.length) ∧ (body ≠ [] → values ≠ []) := by
  have hlength : valuesOf "Content-Length" own = own.map Prod.snd := by
    rw [valuesOf, List.filter_eq_self.2]
    intro header hmem
    rw [hown header hmem, decide_eq_true_eq]
  have hother : valuesOf "Connection" own = [] := by
    rw [valuesOf, List.map_eq_nil_iff, List.filter_eq_nil_iff]
    intro header hmem
    rw [hown header hmem, decide_eq_true_eq, foldCase_connection.1]
    exact foldCase_connection.2
  have hvalues : valuesOf "Content-Length"
      ((keptHeaders connection websocket close headers.entries ++ own).map trimValue) =
        (((m (foldCase (bytes "Content-Length"))).map Prod.snd).toList ++ own.map Prod.snd).map trim := by
    rw [valuesOf_trim, valuesOf_append, contentLength_kept hconnection, hlength]
  constructor
  · rintro ⟨honce, hvalue, hpresent, -⟩
    rw [hvalues] at honce hvalue hpresent
    exact ⟨honce, hvalue, hpresent⟩
  · rintro ⟨honce, hvalue, hpresent⟩
    rw [← hvalues] at honce hvalue hpresent
    refine ⟨honce, hvalue, hpresent, fun hwebsocket => ?_⟩
    rw [hwebsocket, valuesOf_trim, valuesOf_append, connection_kept hconnection, hother]
    cases close <;> decide +kernel

end

/-! ### The length of the body -/

private theorem trim_numeral (n : Nat) : trim (numeral 10 n) = numeral 10 n := by
  refine trim_eq_self fun c hc => ?_
  have hdigit := (isNumeral_numeral (show 1 < 10 by decide) (by decide) n).2 c hc
  by_cases hblank : c = 32 ∨ c = 9
  · rcases hblank with rfl | rfl <;> exact absurd hdigit (by decide)
  · simpa [isBlank] using hblank

private theorem ofNumeral_length (n : Nat) : ofNumeral 10 (trim (numeral 10 n)) = some n := by
  rw [trim_numeral, ofNumeral_numeral (by decide) (by decide)]

/-- A text with these header lines, which a reader finds. -/
structure Writes (text start : List Byte) (headers : List (List Byte × List Byte)) (body : List Byte) : Prop where
  eq : text = start ++ crlf ++ headers.flatMap headerLine ++ crlf ++ body
  read : SingleLine start → (∀ header ∈ headers, IsField header) → headerFields text = headers.map trimValue

private theorem Writes.of_eq {text start : List Byte} {headers : List (List Byte × List Byte)} {body : List Byte}
    (heq : text = start ++ crlf ++ headers.flatMap headerLine ++ crlf ++ body) : Writes text start headers body :=
  ⟨heq, fun hstart hheaders => heq ▸ headerFields_text hstart hheaders body⟩

/-- A request is delimited right just if its map has no length, or that of an empty body. -/
private theorem request_framed_iff (r : HttpRequest) (websocket : Bool) (headers : r.headers.Listing) :
    Framed ((r.headerLines websocket headers).map trimValue) r.body r.close websocket ↔
      ∀ e, r.headers (foldCase (bytes "Content-Length")) = some e →
        r.body = [] ∧ ofNumeral 10 (trim e.2) = some 0 := by
  rw [HttpRequest.headerLines, framed_iff rfl headers websocket r.close (by split <;> simp) r.body]
  have hlength := ofNumeral_length r.body.length
  cases hentry : r.headers (foldCase (bytes "Content-Length")) with
  | none => by_cases hbody : r.body = [] <;> simp [hbody, hlength]
  | some e => by_cases hbody : r.body = [] <;> simp [hbody]

/-- A response is delimited right just if its map has no other length than that of the body. -/
private theorem response_framed_iff (r : HttpResponse) (websocket : Bool) (headers : r.headers.Listing) :
    Framed ((r.headerLines websocket headers).map trimValue) r.body r.close websocket ↔
      ∀ e, r.headers (foldCase (bytes "Content-Length")) = some e →
        ofNumeral 10 (trim e.2) = some r.body.length := by
  rw [HttpResponse.headerLines, framed_iff foldCase_connection.1 headers websocket r.close (by split <;> simp) r.body]
  have hlength := ofNumeral_length r.body.length
  cases hentry : r.headers (foldCase (bytes "Content-Length")) with
  | none => by_cases hbody : r.body = [] <;> simp [hbody, hlength, Headers.get, hentry]
  | some e =>
    by_cases hbody : r.body = []
    · simp [hbody]
    · by_cases hvalue : e.2 = []
      · have hempty : ofNumeral 10 (trim []) = none := by decide
        simp [hbody, hvalue, Headers.get, hentry, hempty]
      · simp [hbody, hvalue, Headers.get, hentry]

/-- The text of a message has the header lines that delimit it right just if a length in the map of a request is that
of an empty body, and one in the map of a response that of its body. -/
theorem dump_iff (q : HttpRequest) (qHeaders : q.headers.Listing) (r : HttpResponse) (reason : List Byte)
    (rHeaders : r.headers.Listing) (websocket : Bool) :
    (Writes (q.dump websocket qHeaders) q.startLine (q.headerLines websocket qHeaders) q.body ∧
      (Framed ((q.headerLines websocket qHeaders).map trimValue) q.body q.close websocket ↔
        ∀ e, q.headers (foldCase (bytes "Content-Length")) = some e →
          q.body = [] ∧ ofNumeral 10 (trim e.2) = some 0)) ∧
      Writes (r.dump reason websocket rHeaders) (r.startLine reason) (r.headerLines websocket rHeaders) r.body ∧
        (Framed ((r.headerLines websocket rHeaders).map trimValue) r.body r.close websocket ↔
          ∀ e, r.headers (foldCase (bytes "Content-Length")) = some e →
            ofNumeral 10 (trim e.2) = some r.body.length) :=
  ⟨⟨.of_eq (q.dump_eq websocket qHeaders), request_framed_iff q websocket qHeaders⟩,
    .of_eq (r.dump_eq reason websocket rHeaders), response_framed_iff r websocket rHeaders⟩

/-- `GET / HTTP/1.1` with `Content-Length: 1` and the body `a` -/
private def lengthSet : HttpRequest :=
  { HttpRequest.new with body := bytes "a", headers := Headers.empty.set (bytes "Content-Length") (bytes "1") }

private def lengthSetListing : lengthSet.headers.Listing where
  entries := [(bytes "Content-Length", bytes "1")]
  sorted := List.pairwise_singleton _ _
  complete k e := by
    by_cases hk : k = foldCase (bytes "Content-Length")
    · subst hk
      simp only [lengthSet, Headers.set, Function.update_self, Headers.empty, Option.map_none, Option.getD_none,
        Option.some.injEq, List.mem_singleton]
      exact ⟨fun h => ⟨h.symm, by rw [← h]⟩, fun h => h.1.symm⟩
    · simp only [lengthSet, Headers.set, Function.update_of_ne hk, Headers.empty, List.mem_singleton]
      constructor
      · intro h
        cases h
      · rintro ⟨rfl, rfl⟩
        exact absurd rfl hk

/-- The length is there twice. -/
theorem not_framed_lengthSet : ¬ ∀ (r : HttpRequest) (websocket : Bool) (headers : r.headers.Listing),
    SingleLine r.startLine → (∀ e ∈ headers.entries, IsField e) →
      Framed (headerFields (r.dump websocket headers)) r.body r.close websocket := by
  intro hframed
  have honce := (hframed lengthSet false lengthSetListing (by decide +kernel) (by decide +kernel)).once
  revert honce
  decide +kernel

/-- `HTTP/1.1 200 OK` with the body `a` -/
private def okResponse : HttpResponse := { HttpResponse.new with body := bytes "a" }

private def emptyListing : Headers.empty.Listing := ⟨[], List.Pairwise.nil, fun k e => by simp [Headers.empty]⟩

theorem dump_iff_ok : Framed (headerFields (okResponse.dump [] false emptyListing)) (bytes "a") true false := by
  obtain ⟨hwrites, hframed⟩ := (dump_iff .new emptyListing okResponse [] emptyListing false).2
  rw [hwrites.read (by decide +kernel) (by decide +kernel)]
  exact hframed.2 fun e he => by cases he

end Http

end AcidCompute
