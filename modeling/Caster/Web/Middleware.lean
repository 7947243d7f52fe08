import Caster.Web.Query

/-!
# Middleware

What a registered route does with a request: its middleware is asked in order, the first one that
says no ends the request with the response it left in it, and the handler answers only when all of
it says yes.
-/

namespace Caster

namespace Web

variable {σ : Type}

/-! ### Answers -/

/-- Some middleware returns false behind middleware that returns true: the response in the request is the
answer, and is taken out of it. -/
inductive Stops : List (Middleware σ) → HttpReq → σ → HttpRes → HttpReq → σ → Prop
  | here {m : Middleware σ} {middleware : List (Middleware σ)} {req req' : HttpReq} {w w' : σ}
      (hm : m req w = some (false, req', w')) :
    Stops (m :: middleware) req w req'.res { req' with res := {} } w'
  | later {m : Middleware σ} {middleware : List (Middleware σ)} {req req' req'' : HttpReq}
      {w w' w'' : σ} {res : HttpRes} (hm : m req w = some (true, req', w'))
      (h : Stops middleware req' w' res req'' w'') : Stops (m :: middleware) req w res req'' w''

/-- What a route answers a request with: the handler answers behind middleware that returns true, or
some of the middleware stops the request. -/
def Answered (r : Registration σ) (req : HttpReq) (w : σ) (res : HttpRes) (req' : HttpReq) (w' : σ) :
    Prop :=
  (∃ req₁ w₁, AllPass r.middleware req w req₁ w₁ ∧ r.handler req₁ w₁ = some (res, req', w')) ∨
    Stops r.middleware req w res req' w'

/-- The request that the middleware of a route is given: its path has no query, and its parameters
are those of the route. -/
def routed (r : Registration σ) (req : HttpReq) : HttpReq :=
  { req with
    path := beforeQuery req.path
    params := Assoc.setAll [] (captured r.pattern req.path)
    query :=
      if 63 ∈ req.path then
        Assoc.setAll [] ((queryPieces req.path).map fun piece => (pieceKey piece, secondPart piece))
      else req.query }

/-- What an application answers a request with: the first route for it answers, or there is none. -/
inductive Serves (registrations : List (Registration σ)) (req : HttpReq) (w : σ) : HttpRes → σ → Prop
  | route {r : Registration σ} {res : HttpRes} {req' : HttpReq} {w' : σ}
      (hfirst : IsFirst registrations req r)
      (h : Answered r (routed r req) w res req' w') : Serves registrations req w res w'
  | methodNotAllowed (hpath : ∃ r ∈ registrations, PathMatches r.pattern req.path)
      (hmethod : ∀ r ∈ registrations, PathMatches r.pattern req.path → r.method ≠ req.method) :
    Serves registrations req w methodNotAllowed w
  | notFound (hpath : ∀ r ∈ registrations, ¬ PathMatches r.pattern req.path) :
    Serves registrations req w notFound w

/-! ### Routes -/

variable {req req' : HttpReq} {w w' : σ} {res : HttpRes}

/-- The middleware goes on to the handler exactly when all of it returns true. -/
theorem runMiddleware_goesOn_iff {middleware : List (Middleware σ)} :
  runMiddleware middleware req w = some (none, req', w') ↔ AllPass middleware req w req' w'
  := by
  constructor
  · intro h
    induction middleware generalizing req w with
    | nil =>
      cases h
      exact .nil
    | cons m middleware ih =>
      obtain ⟨⟨goesOn, req₁, w₁⟩, hm, hrest⟩ := Option.bind_eq_some_iff.mp h
      cases goesOn with
      | true => exact .cons hm (ih hrest)
      | false => cases hrest
  · exact runMiddleware_of_allPass

/-- The middleware answers exactly when some of it returns false. -/
theorem runMiddleware_stops_iff {middleware : List (Middleware σ)} :
  runMiddleware middleware req w = some (some res, req', w') ↔ Stops middleware req w res req' w'
  := by
  constructor
  · intro h
    induction middleware generalizing req w with
    | nil => cases h
    | cons m middleware ih =>
      obtain ⟨⟨goesOn, req₁, w₁⟩, hm, hrest⟩ := Option.bind_eq_some_iff.mp h
      cases goesOn with
      | true => exact .later hm (ih hrest)
      | false =>
        cases hrest
        exact .here hm
  · intro h
    induction h with
    | here hm => simp [runMiddleware, hm]
    | later hm _ ih => simp [runMiddleware, hm, ih]

theorem find_question_iff (path : Bytes) : 0 ≤ strFind path [63] ↔ (63 : UInt8) ∈ path := by
  unfold strFind
  simp only [List.length_singleton, one_ne_zero, if_false, strFindFrom_byte]
  split_ifs with hmem
  · simp [hmem]
  · simp [hmem]

/-- A route that is taken is given the parameters and the query of the path. -/
theorem takeRoute_routed {r : Registration σ} (hmatch : PathMatches r.pattern req.path) :
  takeRoute r.route req.path (pathOnly req.path) (pathParts (pathOnly req.path)) req w =
    (runMiddleware r.middleware (routed r req) w).bind fun out =>
      out.1.elim (r.handler out.2.1 out.2.2) fun res => some (res, out.2.1, out.2.2)
  := by
  have hlength : 0 + (segments r.pattern).length = (segments (beforeQuery req.path)).length := by
    rw [Nat.zero_add]
    exact hmatch.length_eq
  have hparams := fillParamsFrom_eq (segments (beforeQuery req.path)) 0 (segments r.pattern) [] hlength
  rw [List.drop_zero] at hparams
  unfold takeRoute fillParams
  rw [pathOnly_eq, pathParts_eq]
  simp only [Registration.route, pathParts_eq, hparams, parseQuery_eq, find_question_iff]
  unfold routed captured applyRouteData applyRouteDataNoQuery
  split_ifs with hquery
  all_goals
    simp only [Option.bind_eq_bind, Option.bind_some]
    congr 1
    funext out
    obtain ⟨answer, req₁, w₁⟩ := out
    cases answer <;> rfl

theorem takeRoute_iff {r : Registration σ} (hmatch : PathMatches r.pattern req.path) :
  takeRoute r.route req.path (pathOnly req.path) (pathParts (pathOnly req.path)) req w =
      some (res, req', w') ↔
    Answered r (routed r req) w res req' w'
  := by
  rw [takeRoute_routed hmatch, Option.bind_eq_some_iff]
  constructor
  · rintro ⟨⟨answer, req₁, w₁⟩, hrun, h⟩
    cases answer with
    | none => exact .inl ⟨req₁, w₁, runMiddleware_goesOn_iff.mp hrun, h⟩
    | some res =>
      cases h
      exact .inr (runMiddleware_stops_iff.mp hrun)
  · rintro (⟨req₁, w₁, hpass, h⟩ | hstops)
    · exact ⟨(none, req₁, w₁), runMiddleware_goesOn_iff.mpr hpass, h⟩
    · exact ⟨(some res, req', w'), runMiddleware_stops_iff.mpr hstops, rfl⟩

/-- An application answers a request exactly as its routes and their middleware say: behind middleware
that returns false neither the handler nor any other middleware has a say. -/
theorem dispatchRef_serves_iff {σ : Type} (config : HostConfig) (registrations : List (Registration σ))
    {req : HttpReq} {w w' : σ} {res : HttpRes} :
  (∃ req', dispatchRef (registerAll (app config) registrations) req w = some (res, req', w')) ↔
    Serves registrations req w res w'
  := by
  rw [dispatchRef_eq]
  constructor
  · rintro ⟨req', h⟩
    cases hselect : select registrations req with
    | route r =>
      have hfirst := (select_eq_route_iff registrations req r).mp hselect
      rw [hselect] at h
      exact .route hfirst ((takeRoute_iff hfirst.1.1).mp h)
    | methodNotAllowed =>
      obtain ⟨hpath, hmethod⟩ := (select_eq_methodNotAllowed_iff registrations req).mp hselect
      rw [hselect] at h
      cases h
      exact .methodNotAllowed hpath hmethod
    | notFound =>
      have hpath := (select_eq_notFound_iff registrations req).mp hselect
      rw [hselect] at h
      cases h
      exact .notFound hpath
  · intro h
    cases h with
    | @route r _ req' _ hfirst h =>
      rw [(select_eq_route_iff registrations req r).mpr hfirst]
      exact ⟨req', (takeRoute_iff hfirst.1.1).mpr h⟩
    | methodNotAllowed hpath hmethod =>
      rw [(select_eq_methodNotAllowed_iff registrations req).mpr ⟨hpath, hmethod⟩]
      exact ⟨req, rfl⟩
    | notFound hpath =>
      rw [(select_eq_notFound_iff registrations req).mpr hpath]
      exact ⟨req, rfl⟩

end Web

end Caster
