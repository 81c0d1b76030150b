import Sypl.Fields

/-!
# The ElasticSearch output

`ElasticSearch.Write` (`elasticsearch/elasticsearch.go`) decodes the payload to find its `id`,
sends an index request, and decodes the response (`parseResponseBody`,
`parseResponseBodyError`). The decoded documents are `map[string]interface{}` values, read with
unchecked type assertions. The JSON decoder (`encoding/json`) and the client are not part of the
repository: `Write` takes the decoder as a function from bytes to a JSON value, and the client
as a function from requests to responses, so every result below holds for every decoder and
every client.

* `Write` returns the length of the payload when it succeeds (`write_ok`).
* A payload whose `id` is a number panics in the type assertion `.(string)`
  (`write_panics_of_number_id`); so does an error response whose body has no object `error`
  with a string `reason` (`readResponse_panics_of_error_body`), and a success response whose
  body has no string `result` (`readResponse_panics_of_result`), once the request is sent
  (`write_eq_readResponse`).
-/

namespace Sypl

namespace ElasticSearch

/-- A JSON value as `encoding/json` decodes it into an `interface{}`. An object keeps its
members in the order of the text; a number is `mantissa × 10 ^ exponent` (a `float64` in Go). -/
inductive Json where
  | null
  | bool (b : Bool)
  | number (mantissa exponent : Int)
  | string (s : GoString)
  | array (elems : List Json)
  | object (members : List (GoString × Json))

/-- A decoded `map[string]interface{}`: its members, or `nil`. -/
abbrev Object := Option (List (GoString × Json))

/-- `m[k]`: the last member named `k` (the decoder assigns each member in turn), and the `nil`
interface when there is none. -/
def index (m : Object) (k : GoString) : Json := (((m.getD []).reverse.lookup k)).getD .null

/-- `x.(string)`. -/
def assertString : Json → Except Panic GoString
  | .string s => .ok s
  | _ => .error .typeAssertion

/-- `x.(map[string]interface{})`. -/
def assertObject : Json → Except Panic Object
  | .object members => .ok (some members)
  | _ => .error .typeAssertion

/-- `parseResponseBody(r)`: `json.NewDecoder(r).Decode(&b)` into a `map[string]interface{}`.
`decode` gives the first JSON value of the bytes, or `none` on a syntax error. A `null` leaves
the map `nil`; a value that is not an object is an error. -/
def parseResponseBody (decode : GoString → Option Json) (r : GoString) : Except GoString Object :=
  match decode r with
  | some .null => .ok none
  | some (.object members) => .ok (some members)
  | _ => .error "failed parsing the response body"

/-- `parseResponseBodyError(res)`: the decoding error, or `b["error"]["reason"]` after two
type assertions. -/
def parseResponseBodyError (decode : GoString → Option Json) (body : GoString) :
    Except Panic (Except GoString GoString) :=
  match parseResponseBody decode body with
  | .error e => .ok (.error e)
  | .ok b =>
    (assertObject (index b "error")).bind fun e => (assertString (index e "reason")).map .ok

/-- The fields of `esapi.IndexRequest` that `Write` sets. -/
structure IndexRequest where
  body : GoString
  index : GoString
  documentID : GoString

/-- The fields of `esapi.Response` that `Write` reads. -/
structure Response where
  statusCode : Nat
  body : GoString

/-- `res.IsError()`. -/
def Response.isError (res : Response) : Bool := res.statusCode > 299

/-- What `Write` does: `(n, nil)`, `(0, err)` with the text of `err` before its wrapped error,
or a panic. -/
inductive Result where
  | ok (n : Nat)
  | err (e : GoString)
  | panic (p : Panic)

/-- `if parsedData["id"] != nil { req.DocumentID = parsedData["id"].(string) }`. -/
def documentID (parsedData : Object) : Except Panic GoString :=
  match index parsedData "id" with
  | .null => .ok []
  | id => assertString id

/-- The end of `Write`, from `res.IsError()` on: what it makes of the response. -/
def readResponse (decode : GoString → Option Json) (data : GoString) (res : Response) : Result :=
  if res.isError then
    match parseResponseBodyError decode res.body with
    | .error p => .panic p
    | .ok (.error e) => .err e
    | .ok (.ok errMsg) => .err ("failed indexing document: " ++ errMsg)
  else
    match parseResponseBody decode res.body with
    | .error e => .err e
    | .ok parsedRespBody =>
      match assertString (index parsedRespBody "result") with
      | .error p => .panic p
      | .ok result =>
        if result = "created" ∨ result = "updated" then .ok data.length
        else .err "unexpected result"

/-- `(*ElasticSearch).Write(data)`: `dynamicIndex` is `es.DynamicIndex()` and `client` is
`req.Do(ctx, es.Client)`, `none` when it fails. -/
def write (decode : GoString → Option Json) (dynamicIndex : GoString)
    (client : IndexRequest → Option Response) (data : GoString) : Result :=
  match parseResponseBody decode data with
  | .error e => .err e
  | .ok parsedData =>
    match documentID parsedData with
    | .error p => .panic p
    | .ok documentID =>
      match client ⟨data, dynamicIndex, documentID⟩ with
      | none => .err "failed getting response"
      | some res => readResponse decode data res

/-! ## What `Write` returns -/

section

variable (decode : GoString → Option Json) (dynamicIndex : GoString)
  (client : IndexRequest → Option Response) (data : GoString)

theorem readResponse_ok {res : Response} {n : Nat} (h : readResponse decode data res = .ok n) :
    n = data.length := by
  unfold readResponse at h
  split at h
  · split at h <;> cases h
  · split at h
    · cases h
    · split at h
      · cases h
      · split at h <;> cases h
        rfl

/-- A `Write` that succeeds reports the whole payload written. -/
theorem write_ok {n : Nat} (h : write decode dynamicIndex client data = .ok n) :
    n = data.length := by
  unfold write at h
  split at h
  · cases h
  · split at h
    · cases h
    · split at h
      · cases h
      · exact readResponse_ok decode data h

/-- Past the payload and the request, `Write` is `readResponse`. -/
theorem write_eq_readResponse {parsedData : Object} {id : GoString} {res : Response}
    (hp : parseResponseBody decode data = .ok parsedData) (hid : documentID parsedData = .ok id)
    (hc : client ⟨data, dynamicIndex, id⟩ = some res) :
    write decode dynamicIndex client data = readResponse decode data res := by
  simp [write, hp, hid, hc]

/-- An error response whose body is an object without an object `error` holding a string
`reason` makes `Write` panic in `parseResponseBodyError`. -/
theorem readResponse_panics_of_error_body {res : Response} {members : List (GoString × Json)}
    (herr : res.isError = true) (hdec : decode res.body = some (.object members))
    (hreason : ¬ ∃ ms s, index (some members) "error" = .object ms ∧
      index (some ms) "reason" = .string s) :
    readResponse decode data res = .panic .typeAssertion := by
  simp only [readResponse, herr, if_true, parseResponseBodyError, parseResponseBody, hdec]
  rcases he : index (some members) "error" with _ | _ | _ | _ | _ | ms <;>
    simp only [assertObject, Except.bind]
  rcases hr : index (some ms) "reason" with _ | _ | _ | s | _ | _ <;>
    simp only [assertString, Except.map]
  exact absurd ⟨ms, s, he, hr⟩ hreason

/-- A success response whose body is an object without a string `result` makes `Write` panic
in `parsedRespBody["result"].(string)`. -/
theorem readResponse_panics_of_result {res : Response} {members : List (GoString × Json)}
    (hok : res.isError = false) (hdec : decode res.body = some (.object members))
    (hresult : ∀ s, index (some members) "result" ≠ .string s) :
    readResponse decode data res = .panic .typeAssertion := by
  simp only [readResponse, hok, Bool.false_eq_true, if_false, parseResponseBody, hdec]
  rcases hr : index (some members) "result" with _ | _ | _ | s | _ | _ <;> simp only [assertString]
  exact absurd hr (hresult s)

/-- A payload that decodes to an object whose `id` is a number makes `Write` panic in
`parsedData["id"].(string)`, before any request is sent. -/
theorem write_panics_of_number_id {members : List (GoString × Json)} {m e : Int}
    (hdec : decode data = some (.object members)) (hid : index (some members) "id" = .number m e) :
    write decode dynamicIndex client data = .panic .typeAssertion := by
  simp [write, parseResponseBody, hdec, documentID, hid, assertString]

end

theorem write_panics_of_number_id_one :
    (fun _ => some (.object [("id", .number 1 0)]) : GoString → Option Json) "\x7b\"id\":1\x7d" =
        some (.object [("id", .number 1 0)]) ∧
      index (some [("id", .number 1 0)]) "id" = .number 1 0 ∧
      write (fun _ => some (.object [("id", .number 1 0)])) "sypl" (fun _ => none)
        "\x7b\"id\":1\x7d" = .panic .typeAssertion :=
  ⟨rfl, rfl, write_panics_of_number_id _ _ _ _ rfl rfl⟩

end ElasticSearch

end Sypl
