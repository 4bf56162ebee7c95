import MyEtcd.Common.Types
import MyEtcd.Library.Lexicographic
import MyEtcd.Library.Search
import MyEtcd.Library.Text

/-! How a request comes from a socket: the loops that read it, and the parser.
What `recv` returns is a list of chunks; after the last one the connection is closed. -/
namespace MyEtcd
open Library

structure HttpRequest where
  method : Bytes := []
  path : Bytes := []
  queryParams : OrderedMap Bytes Bytes := ∅
  headers : OrderedMap Bytes Bytes := ∅
  body : Bytes := []

/-- What `>> std::hex` makes of two characters. -/
def hexNumber (text : Bytes) : Option UInt8 :=
  let value (b : UInt8) : Option UInt8 :=
    if 48 ≤ b ∧ b ≤ 57 then some (b - 48)
    else if 65 ≤ b ∧ b ≤ 70 then some (b - 55)
    else if 97 ≤ b ∧ b ≤ 102 then some (b - 87)
    else none
  let signed := sign (text.dropWhile isSpace)
  if signed.2 = [48, 120] ∨ signed.2 = [48, 88] then none
  else
    let digits := (signed.2.map value).takeWhile Option.isSome |>.filterMap id
    if digits = [] then none
    else
      let v := digits.foldl (fun v d => 16 * v + d) 0
      some (if signed.1 then -v else v)

def urlDecode : Bytes → Bytes
  | [] => []
  | 37 :: x :: y :: rest =>
    match hexNumber [x, y] with
    | some v => v :: urlDecode rest
    | none => 37 :: urlDecode (x :: y :: rest)
  | b :: rest => (if b = 43 then 32 else b) :: urlDecode rest

/-- What `getline` returns, one call after the other. -/
def getlines (delim : UInt8) : Bytes → List Bytes
  | [] => []
  | b :: rest =>
    if b = delim then [] :: getlines delim rest
    else
      match getlines delim rest with
      | [] => [[b]]
      | line :: more => (b :: line) :: more

def tolower (b : UInt8) : UInt8 := if 65 ≤ b ∧ b ≤ 90 then b + 32 else b

/-- `stol`, where `long` has 64 bits. -/
def stol (text : Bytes) : Option Int := stoll text

/-- `stoi`, nothing where it throws. -/
def stoi (text : Bytes) : Option Int := (parseInt text).filter fun v => -2 ^ 31 ≤ v ∧ v < 2 ^ 31

namespace SimpleHttpServer

def crlf2 : Bytes := [13, 10, 13, 10]

def chomp (line : Bytes) : Bytes := if line.getLast? = some 13 then line.dropLast else line

def headerLine (line : Bytes) : Option (Bytes × Bytes) :=
  (cut [58] (chomp line)).map fun sides =>
    (sides.1, sides.2.dropWhile fun b => b = 32 ∨ b = 9)

def isContentLength (name : Bytes) : Bool := name.map tolower = ascii "content-length"

/-- The first content length in the header, as far as it is in the limits. -/
def declaredLength (headerPart : Bytes) : Nat :=
  match ((getlines 10 headerPart).filterMap headerLine).find? fun h => isContentLength h.1 with
  | none => 0
  | some (_, value) =>
    match stol value with
    | none => 0
    | some v => if v < 0 ∨ v > 64 * 1024 * 1024 then 0 else v.toNat

/-- What `+=` appends of a buffer, which ends at its first zero. -/
def cString (buffer : Bytes) : Bytes := buffer.takeWhile (· ≠ 0)

/-- The loop that reads until the header has ended. -/
def receiveHeader (requestStr : Bytes) (totalRead : Nat) : List Bytes → Bytes × Nat × List Bytes
  | [] => (requestStr, totalRead, [])
  | chunk :: rest =>
    if totalRead < 4096 * 16 then
      if chunk = [] then (requestStr, totalRead, rest)
      else if (cut crlf2 (requestStr ++ cString chunk)).isSome then
        (requestStr ++ cString chunk, totalRead + chunk.length, rest)
      else receiveHeader (requestStr ++ cString chunk) (totalRead + chunk.length) rest
    else (requestStr, totalRead, chunk :: rest)

/-- The loop that reads the rest of the body. -/
def receiveBody (headerEnd contentLength : Nat) (requestStr : Bytes) (totalRead : Nat) :
    List Bytes → Bytes
  | [] => requestStr
  | chunk :: rest =>
    if requestStr.length - headerEnd < contentLength ∧ totalRead < 4096 * 16 then
      if chunk = [] then requestStr
      else
        receiveBody headerEnd contentLength (requestStr ++ cString chunk)
          (totalRead + chunk.length) rest
    else requestStr

def parseQuery (query : Bytes) : OrderedMap Bytes Bytes :=
  (getlines 38 query).foldl (fun params param =>
    match cut [61] param with
    | none => params
    | some (key, value) => params.insert (urlDecode key) (urlDecode value)) ∅

def parseHeaders (lines : List Bytes) : OrderedMap Bytes Bytes :=
  ((lines.takeWhile fun line => line ≠ [13] ∧ line ≠ []).filterMap headerLine).foldl
    (fun headers h => headers.insert h.1 h.2) ∅

/-- The content length among the headers, in the order of their names. -/
def headerLength (headers : OrderedMap Bytes Bytes) : Int :=
  match headers.entries.find? fun h => isContentLength h.1 with
  | none => 0
  | some (_, value) => (stoi value).getD 0

/-- Without an end of the header, `find` returns `npos` and the body is taken from position 3. -/
def parseRequest (raw : Bytes) : HttpRequest :=
  let lines := getlines 10 raw
  let words := (chomp (lines.headD [])).dropWhile isSpace
  let target := (words.dropWhile fun b => ¬ isSpace b).dropWhile isSpace |>.takeWhile fun b => ¬ isSpace b
  let headers := parseHeaders (lines.drop 1)
  let contentLength := headerLength headers
  { method := words.takeWhile fun b => ¬ isSpace b
    path := ((cut [63] target).map Prod.fst).getD target
    queryParams := ((cut [63] target).map fun sides => parseQuery sides.2).getD ∅
    headers
    body :=
      if contentLength > 0 then
        (((cut crlf2 raw).map Prod.snd).getD (raw.drop 3)).take contentLength.toNat
      else [] }

/-- The request that the handlers get, none if the header does not end. -/
def handleClient (chunks : List Bytes) : Option HttpRequest :=
  let (requestStr, totalRead, rest) := receiveHeader [] 0 chunks
  (cut crlf2 requestStr).map fun sides =>
    let headerEnd := sides.1.length + 4
    let contentLength := declaredLength (requestStr.take headerEnd)
    parseRequest (receiveBody headerEnd contentLength requestStr totalRead rest)

end SimpleHttpServer
end MyEtcd
