import Caster.Library.Assoc
import Caster.Web.Text

/-!
# The web library

The functions of `WEB` that register routes and dispatch a request to one of them.  Middleware and
handlers are functions of the program: they may change the request and anything else, `σ`, and
they may stop the program.
-/

namespace Caster

namespace Web

/-- The maps from strings to strings: `Headers`, `Params`, `Query` and `Ctx`. -/
abbrev StrMap := List (Bytes × Bytes)

/-- The parts of a path between its slashes. -/
abbrev PathParts := List Bytes

structure HttpRes where
  status : ℤ := 200
  body : Bytes := []
  headers : StrMap := []
deriving DecidableEq

structure HttpReq where
  method : Bytes := strLit "GET"
  path : Bytes := []
  body : Bytes := []
  headers : StrMap := []
  params : StrMap := []
  query : StrMap := []
  ctx : StrMap := []
  res : HttpRes := {}
deriving DecidableEq

/-- A function of the program on a request it may change, with a result of type `α`.  It has no
result when it stops the program. -/
abbrev RequestFn (σ α : Type) := HttpReq → σ → Option (α × HttpReq × σ)

abbrev Middleware (σ : Type) := RequestFn σ Bool

abbrev Handler (σ : Type) := RequestFn σ HttpRes

structure Route (σ : Type) where
  method : Bytes
  pattern : Bytes
  parts : PathParts
  middleware : List (Middleware σ)
  handler : Handler σ

structure HostConfig where
  host : Bytes := strLit "0.0.0.0"
  port : ℤ := 8080

structure WebApp (σ : Type) where
  config : HostConfig
  routes : List (Route σ)

/-! ### Responses -/

def error (message : Bytes) (status : ℤ) : HttpRes :=
  { status := status, body := message ++ [], headers := [(strLit "content-type", strLit "text/plain")] }

def notFound : HttpRes := error (strLit "not found") 404

def methodNotAllowed : HttpRes := error (strLit "method not allowed") 405

/-! ### Paths -/

def isParam (part : Bytes) : Bool := 0 < part.length && part[0]? = some 58

def paramName (part : Bytes) : Bytes := strFilt part fun i => 0 < i

def cleanPath (path : Bytes) : Bytes := if path = [] then [47] else path

def pathParts (path : Bytes) : PathParts :=
  let clean := cleanPath path
  if clean = [47] then []
  else (strSplit clean [47]).filter fun e => e ≠ []

def pathOnly (path : Bytes) : Bytes :=
  let pos := strFind path [63]
  if pos < 0 then path
  else strFilt path fun i => i < pos

def queryText (path : Bytes) : Bytes :=
  let pos := strFind path [63]
  if pos < 0 then []
  else strFilt path fun i => pos < i

/-- The loop of `parseQuery` over the pairs of a query. -/
def parsePairs : List Bytes → StrMap → Option StrMap
  | [], query => some query
  | e :: pairs, query =>
    if e ≠ [] then do
      let parts := strSplit e [61]
      let name ← parts[0]?
      if parts.length = 1 then
        parsePairs pairs (Assoc.set query (urlDecode name) [])
      else
        let value ← parts[1]?
        parsePairs pairs (Assoc.set query (urlDecode name) (urlDecode value))
    else parsePairs pairs query

def parseQuery (path : Bytes) : Option StrMap :=
  let raw := queryText path
  if raw = [] then some []
  else parsePairs (strSplit raw [38]) []

/-! ### Matching -/

/-- The loop of `partsMatch` from index `i` on. -/
def partsMatchFrom (actualParts : PathParts) : ℕ → PathParts → Option Bool
  | _, [] => some true
  | i, e :: rest =>
    if !isParam e then do
      let actual ← actualParts[i]?
      if e ≠ actual then some false
      else partsMatchFrom actualParts (i + 1) rest
    else partsMatchFrom actualParts (i + 1) rest

/-- The parts of a pattern match those of a path.  There is no answer when an index is out of
bounds. -/
def partsMatch (patternParts actualParts : PathParts) : Option Bool :=
  if patternParts.length ≠ actualParts.length then some false
  else partsMatchFrom actualParts 0 patternParts

/-- The loop of `fillParams` from index `i` on. -/
def fillParamsFrom (actualParts : PathParts) : ℕ → PathParts → StrMap → Option StrMap
  | _, [], params => some params
  | i, e :: rest, params =>
    if isParam e then do
      let actual ← actualParts[i]?
      fillParamsFrom actualParts (i + 1) rest (Assoc.set params (paramName e) (urlDecode actual))
    else fillParamsFrom actualParts (i + 1) rest params

def fillParams (patternParts actualParts : PathParts) (params : StrMap) : Option StrMap :=
  fillParamsFrom actualParts 0 patternParts params

def applyRouteData (req : HttpReq) (path : Bytes) (params query : StrMap) : HttpReq :=
  { req with path := path, params := params, query := query }

def applyRouteDataNoQuery (req : HttpReq) (path : Bytes) (params : StrMap) : HttpReq :=
  { req with path := path, params := params }

variable {σ : Type}

/-! ### Registration -/

/-- An application without routes. -/
def app (config : HostConfig) : WebApp σ := { config := config, routes := [] }

def route (app : WebApp σ) (method pattern : Bytes) (middleware : List (Middleware σ))
    (handler : Handler σ) : WebApp σ :=
  { app with routes := app.routes ++ [
    { method := method, pattern := pattern, parts := pathParts pattern, middleware := middleware,
      handler := handler }] }

def get (app : WebApp σ) (pattern : Bytes) (middleware : List (Middleware σ))
    (handler : Handler σ) : WebApp σ :=
  route app (strLit "GET") pattern middleware handler

def post (app : WebApp σ) (pattern : Bytes) (middleware : List (Middleware σ))
    (handler : Handler σ) : WebApp σ :=
  route app (strLit "POST") pattern middleware handler

def put (app : WebApp σ) (pattern : Bytes) (middleware : List (Middleware σ))
    (handler : Handler σ) : WebApp σ :=
  route app (strLit "PUT") pattern middleware handler

def delete (app : WebApp σ) (pattern : Bytes) (middleware : List (Middleware σ))
    (handler : Handler σ) : WebApp σ :=
  route app (strLit "DELETE") pattern middleware handler

/-! ### Dispatch -/

/-- The middleware of a route is run in its order.  The first one that returns false ends the
dispatch with the response in the request. -/
def runMiddleware : List (Middleware σ) → RequestFn σ (Option HttpRes)
  | [], req, w => some (none, req, w)
  | e :: middleware, req, w => do
    let (goesOn, req, w) ← e req w
    if !goesOn then some (some req.res, { req with res := {} }, w)
    else runMiddleware middleware req w

/-- A route is taken: its data goes into the request, and its middleware and handler run. -/
def takeRoute (e : Route σ) (originalPath routePath : Bytes) (actualParts : PathParts) :
    RequestFn σ HttpRes := fun req w => do
  let params ← fillParams e.parts actualParts []
  let req ←
    if 0 ≤ strFind originalPath [63] then do
      let query ← parseQuery originalPath
      some (applyRouteData req routePath params query)
    else some (applyRouteDataNoQuery req routePath params)
  let (answer, req, w) ← runMiddleware e.middleware req w
  match answer with
  | some res => some (res, req, w)
  | none => e.handler req w

/-- The loop of `dispatchRef` over the routes. -/
def dispatchRoutes (originalPath routePath : Bytes) (actualParts : PathParts) :
    List (Route σ) → Bool → RequestFn σ HttpRes
  | [], foundPath, req, w =>
    if foundPath then some (methodNotAllowed, req, w)
    else some (notFound, req, w)
  | e :: routes, foundPath, req, w => do
    if ← partsMatch e.parts actualParts then
      if e.method = req.method then
        takeRoute e originalPath routePath actualParts req w
      else dispatchRoutes originalPath routePath actualParts routes true req w
    else dispatchRoutes originalPath routePath actualParts routes foundPath req w

def dispatchRef (app : WebApp σ) : RequestFn σ HttpRes := fun req w =>
  let originalPath := req.path
  let routePath := pathOnly originalPath
  let actualParts := pathParts routePath
  dispatchRoutes originalPath routePath actualParts app.routes false req w

end Web

end Caster
