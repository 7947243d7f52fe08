import Caster.Driver.Scan
import Caster.Library.HttpUrl

/-!
# The runtime of requests

How the client side of `REQ` takes a URL apart and writes a request.  A character is a byte.
-/

namespace Caster.Req

open Driver (Text)

/-! ### URLs -/

/-- The copy `flx_req_cstr` makes of a string, as far as C reads it. -/
def cString (text : Text) : Text := text.takeWhile (· ≠ '\x00')

/-- A text before and behind `://`, as `strstr` finds it. -/
def schemeEnd : Text → Option (Text × Text)
  | [] => none
  | c :: url =>
    if [':', '/', '/'] <+: c :: url then some ([], (c :: url).drop 3)
    else (schemeEnd url).map fun (scheme, authority) => (c :: scheme, authority)

/-- The parts of a URL. -/
structure UrlParts where
  scheme : Text
  host : Text
  port : Text
  path : Text
  https : Bool
deriving DecidableEq

/-- The port behind a host: what follows the colon, or the port of the scheme. -/
def portBehind (https : Bool) : Text → Text
  | [] => if https then ['4', '4', '3'] else ['8', '0']
  | _ :: port => port

def flxParseUrl (url : Text) : Except String UrlParts :=
  match schemeEnd url with
  | none => .error "invalid URL"
  | some (scheme, behind) =>
    let https : Bool := scheme = ['h', 't', 't', 'p', 's']
    if ¬ https ∧ scheme ≠ ['h', 't', 't', 'p'] then .error "REQ supports http and https URLs"
    else
      let authority := behind.takeWhile (· ≠ '/')
      let path := behind.dropWhile (· ≠ '/')
      if authority.length = 0 then .error "invalid URL host"
      else
        let host := authority.takeWhile (· ≠ ':')
        let port := portBehind https (authority.dropWhile (· ≠ ':'))
        .ok { scheme, host, port, path := if path ≠ [] then path else ['/'], https }

/-! ### Requests -/

/-- The functions `REQ.get`, `REQ.delete`, `REQ.post` and `REQ.put`. -/
inductive Method where
  | get
  | delete
  | post
  | put

/-- The method each of them passes on. -/
def Method.text : Method → Text
  | .get => ['G', 'E', 'T']
  | .delete => ['D', 'E', 'L', 'E', 'T', 'E']
  | .post => ['P', 'O', 'S', 'T']
  | .put => ['P', 'U', 'T']

/-- The end of a line. -/
def crlf : Text := ['\r', '\n']

def hostLabel : Text := ['H', 'o', 's', 't']

def userAgentLabel : Text := ['U', 's', 'e', 'r', '-', 'A', 'g', 'e', 'n', 't']

def userAgent : Text := ['C', 'a', 's', 't', 'e', 'r']

def contentTypeLabel : Text := ['C', 'o', 'n', 't', 'e', 'n', 't', '-', 'T', 'y', 'p', 'e']

def contentType : Text :=
  ['a', 'p', 'p', 'l', 'i', 'c', 'a', 't', 'i', 'o', 'n', '/', 'j', 's', 'o', 'n']

def contentLengthLabel : Text :=
  ['C', 'o', 'n', 't', 'e', 'n', 't', '-', 'L', 'e', 'n', 'g', 't', 'h']

def connectionLabel : Text := ['C', 'o', 'n', 'n', 'e', 'c', 't', 'i', 'o', 'n']

def connection : Text := ['c', 'l', 'o', 's', 'e']

/-- A line of a request head. -/
def headLine (label value : Text) : Text := label ++ ':' :: ' ' :: (value ++ crlf)

/-- What `snprintf` leaves of a text in an array of some size. -/
def snprintf (size : ℕ) (text : Text) : Text := text.take (size - 1)

/-- The bytes of a request, unless its head does not fit the storage for it. -/
def flxHttpBuildRequest (method body : Text) (url : UrlParts) : Option Text :=
  let method := cString method
  let bodyHeaders := if 0 < body.length then headLine contentTypeLabel contentType else []
  let contentLength :=
    if 0 < body.length then
      snprintf 64 (headLine contentLengthLabel (Nat.toDigits 10 body.length))
    else []
  let len := method.length + url.path.length + url.host.length + bodyHeaders.length +
    contentLength.length + body.length + 128
  let head := method ++ ' ' :: (url.path ++ ' ' ::
      (['H', 'T', 'T', 'P', '/', '1', '.', '1'] ++ crlf)) ++
    headLine hostLabel url.host ++ headLine userAgentLabel userAgent ++ bodyHeaders ++
    contentLength ++ headLine connectionLabel connection ++ crlf
  -- the length `snprintf` returns is an `int`, and negative for a head that is longer
  if 2 ^ 31 ≤ head.length ∨ len ≤ head.length then none else some (head ++ body)

end Caster.Req
