import AcidCompute.Base.Text
import Mathlib.Logic.Function.Basic

/-!
# Requests and responses (`acid/http/http.{h,cpp}`)

The header names of a map are compared by `strcasecmp`, so that a map is a function from what that sees of a name.  An
entry keeps the spelling of the name under which it was made, and gets the value that is set last
(`Headers.foldl_set`).
-/

namespace AcidCompute

/-- What `strcasecmp` sees of a string: the bytes in front of a NUL, in lower case. -/
def foldCase (s : List Byte) : List Byte := (s.takeWhile fun c => c ≠ 0).map toLower

/-- `HttpRequest::MapType`, with the name and the value of each entry. -/
abbrev Headers := List Byte → Option (List Byte × List Byte)

namespace Headers

def empty : Headers := fun _ => none

/-- `m_headers[key] = val` -/
def set (m : Headers) (key val : List Byte) : Headers :=
  Function.update m (foldCase key) (some (((m (foldCase key)).map Prod.fst).getD key, val))

/-- `get_header` -/
def get (m : Headers) (key defaultValue : List Byte) : List Byte := ((m (foldCase key)).map Prod.snd).getD defaultValue

/-- The name under which the entry for a folded name is made. -/
def firstName (k : List Byte) (lines : List (List Byte × List Byte)) : Option (List Byte) :=
  (lines.find? fun l => foldCase l.1 = k).map Prod.fst

/-- The value that the entry for a folded name gets last. -/
def lastValue (k : List Byte) (lines : List (List Byte × List Byte)) : Option (List Byte) :=
  (lines.reverse.find? fun l => foldCase l.1 = k).map Prod.snd

/-- The entries that a list of lines makes. -/
def ofLines (lines : List (List Byte × List Byte)) : Headers := lines.foldl (fun m l => m.set l.1 l.2) empty

/-- Setting an entry again under the same name changes the value. -/
theorem set_set (m : Headers) (key val val' : List Byte) : (m.set key val).set key val' = m.set key val' := by
  unfold set
  rw [Function.update_idem, Function.update_self]
  simp

theorem firstName_cons (k : List Byte) (l : List Byte × List Byte) (lines : List (List Byte × List Byte)) :
    firstName k (l :: lines) = if foldCase l.1 = k then some l.1 else firstName k lines := by
  unfold firstName
  by_cases h : foldCase l.1 = k <;> simp [h]

theorem lastValue_cons (k : List Byte) (l : List Byte × List Byte) (lines : List (List Byte × List Byte)) :
    lastValue k (l :: lines) = (lastValue k lines).or (if foldCase l.1 = k then some l.2 else none) := by
  unfold lastValue
  rw [List.reverse_cons, List.find?_append]
  cases lines.reverse.find? fun l => foldCase l.1 = k with
  | none => by_cases h : foldCase l.1 = k <;> simp [h]
  | some l' => rfl

/-- What a list of lines makes of an entry. -/
theorem foldl_set (m : Headers) (lines : List (List Byte × List Byte)) (k : List Byte) :
    lines.foldl (fun m l => m.set l.1 l.2) m k =
      (lastValue k lines).elim (m k) fun val =>
        some (((m k).map Prod.fst).getD ((firstName k lines).getD k), val) := by
  induction lines generalizing m with
  | nil => rfl
  | cons l lines ih =>
    rw [List.foldl_cons, ih, lastValue_cons, firstName_cons]
    by_cases h : foldCase l.1 = k
    · subst h
      cases lastValue (foldCase l.1) lines <;> simp [set]
    · cases lastValue k lines <;> simp [set, h, Function.update_of_ne (Ne.symm h)]

/-- A name is set if and only if it has a value. -/
theorem firstName_isSome (k : List Byte) (lines : List (List Byte × List Byte)) :
    (firstName k lines).isSome = (lastValue k lines).isSome := by
  rw [Bool.eq_iff_iff]
  simp only [firstName, lastValue, Option.isSome_map, List.find?_isSome, List.mem_reverse]

/-- Two lists of lines make the same map if each name is spelled alike in its first line and has the same value in its
last one. -/
theorem ofLines_eq_iff {lines lines' : List (List Byte × List Byte)} :
    ofLines lines = ofLines lines' ↔
      ∀ k, firstName k lines = firstName k lines' ∧ lastValue k lines = lastValue k lines' := by
  have hentry : ∀ (ls : List (List Byte × List Byte)) k, ofLines ls k =
      (lastValue k ls).elim none fun val => some ((firstName k ls).getD k, val) := fun ls k => foldl_set empty ls k
  constructor
  · intro heq k
    have hk := congrFun heq k
    rw [hentry, hentry] at hk
    have hfirst := firstName_isSome k lines
    have hfirst' := firstName_isSome k lines'
    cases hv : lastValue k lines <;> cases hv' : lastValue k lines' <;> cases hn : firstName k lines <;>
      cases hn' : firstName k lines' <;> simp_all
  · intro h
    funext k
    rw [hentry, hentry, (h k).1, (h k).2]

end Headers

/-- What a request and a response have in common. -/
structure HttpMessage where
  version : BitVec 8
  close : Bool
  body : List Byte
  headers : Headers

/-- `HttpRequest`; what the parser does not set is left out. -/
structure HttpRequest extends HttpMessage where
  -- the number of an `HttpMethod`
  method : Nat
  path : List Byte
  query : List Byte
  fragment : List Byte

/-- `HttpResponse` -/
structure HttpResponse extends HttpMessage where
  -- the number of an `HttpStatus`
  status : Nat

/-- `HttpRequest()` -/
def HttpRequest.new : HttpRequest where
  version := 0x11
  close := true
  body := []
  headers := .empty
  -- `GET`
  method := 1
  -- `"/"`
  path := [47]
  query := []
  fragment := []

/-- `HttpResponse()` -/
def HttpResponse.new : HttpResponse where
  version := 0x11
  close := true
  body := []
  headers := .empty
  -- `OK`
  status := 200

/-- `HttpRequest::init` -/
def HttpRequest.init (r : HttpRequest) : HttpRequest :=
  -- `"Connection"`
  let connection := r.headers.get [67, 111, 110, 110, 101, 99, 116, 105, 111, 110] []
  if connection = [] then
    -- `"keep-alive"`
    if foldCase connection = [107, 101, 101, 112, 45, 97, 108, 105, 118, 101] then { r with close := false }
    else { r with close := true }
  else r

end AcidCompute
