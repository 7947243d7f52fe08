import Mathlib.Data.List.TakeWhile
import Caster.Web.Routing

/-!
# Dispatch

A request goes to the first route whose pattern matches its path and whose method is the one of
the request.
-/

namespace Caster

namespace Web

/-! ### Patterns and paths -/

/-- The segments of a path between its slashes that are not empty. -/
def segments (path : Bytes) : List Bytes := (path.splitOn 47).filter fun part => part ≠ []

/-- The part of a path before its query. -/
def beforeQuery (path : Bytes) : Bytes := path.takeWhile fun ch => ch ≠ 63

/-- A segment `:name` of a pattern. -/
def IsParam (part : Bytes) : Prop := part.head? = some 58

instance (part : Bytes) : Decidable (IsParam part) := inferInstanceAs (Decidable (_ = _))

/-- A segment `:name` matches every segment, a literal one only itself. -/
def SegmentMatches (part actual : Bytes) : Prop := IsParam part ∨ part = actual

/-- The segments of a pattern match those of a path one by one. -/
def PathMatches (pattern path : Bytes) : Prop :=
  List.Forall₂ SegmentMatches (segments pattern) (segments (beforeQuery path))

/-- The names of a pattern with the decoded segments they stand for. -/
def captures : List Bytes → List Bytes → List (Bytes × Bytes)
  | part :: parts, actual :: actuals =>
    if IsParam part then (part.tail, urlDecode actual) :: captures parts actuals
    else captures parts actuals
  | _, _ => []

/-- The names of a pattern with the decoded segments of a path they stand for. -/
def captured (pattern path : Bytes) : List (Bytes × Bytes) :=
  captures (segments pattern) (segments (beforeQuery path))

theorem pathParts_eq (path : Bytes) : pathParts path = segments path := by
  unfold pathParts cleanPath segments
  by_cases hempty : path = []
  · simp [hempty]
  · by_cases hroot : path = [47]
    · simp [hroot]
      decide
    · simp [hempty, hroot, strSplit_byte]

/-- The path up to the first question mark is the part before it. -/
theorem take_length_takeWhile (path : Bytes) (p : UInt8 → Bool) :
  path.take (path.takeWhile p).length = path.takeWhile p
  := by
  have hlead : path.takeWhile p <+: path := List.takeWhile_prefix p
  exact (List.prefix_iff_eq_take.mp hlead).symm

theorem pathOnly_eq (path : Bytes) : pathOnly path = beforeQuery path := by
  unfold pathOnly strFind beforeQuery
  by_cases hmem : (63 : UInt8) ∈ path
  · have hpos : ¬ ((0 + (path.takeWhile fun ch => ch ≠ 63).length : ℕ) : ℤ) < 0 := by omega
    simp only [List.length_singleton, one_ne_zero, if_false, strFindFrom_byte, hmem, if_true, hpos]
    rw [Nat.zero_add]
    simp only [Nat.cast_lt]
    rw [strFilt_lt, take_length_takeWhile]
  · have hall : ∀ ch ∈ path, decide (ch ≠ 63) = true := by
      intro ch hch
      simp only [ne_eq, decide_not, Bool.not_eq_eq_eq_not, Bool.not_true, decide_eq_false_iff_not]
      rintro rfl
      exact hmem hch
    simp only [List.length_singleton, one_ne_zero, if_false, strFindFrom_byte, hmem]
    rw [if_pos (by decide), List.takeWhile_eq_self_iff.mpr hall]

theorem isParam_eq (part : Bytes) : isParam part = decide (IsParam part) := by
  cases part with
  | nil => simp [isParam, IsParam]
  | cons ch part => simp [isParam, IsParam]

theorem paramName_eq (part : Bytes) : paramName part = part.tail := strFilt_pos part

instance (part actual : Bytes) : Decidable (SegmentMatches part actual) :=
  inferInstanceAs (Decidable (_ ∨ _))

/-- The loop over the parts of a pattern compares them with those of the path from an index on. -/
theorem partsMatchFrom_eq (actualParts : PathParts) (i : ℕ) (patternParts : PathParts)
    (hlength : i + patternParts.length = actualParts.length) :
  partsMatchFrom actualParts i patternParts =
    some (decide (List.Forall₂ SegmentMatches patternParts (actualParts.drop i)))
  := by
  induction patternParts generalizing i with
  | nil =>
    have hdrop : actualParts.drop i = [] := by
      apply List.drop_eq_nil_of_le
      simp at hlength
      omega
    simp [partsMatchFrom, hdrop]
  | cons e rest ih =>
    have hlt : i < actualParts.length := by
      simp at hlength
      omega
    have hdrop : actualParts.drop i = actualParts[i] :: actualParts.drop (i + 1) :=
      List.drop_eq_getElem_cons hlt
    have hrest := ih (i + 1) (by simp at hlength; omega)
    rw [partsMatchFrom, isParam_eq, hdrop]
    simp only [List.forall₂_cons]
    by_cases hparam : IsParam e
    · simp [hparam, hrest, SegmentMatches]
    · by_cases he : e = actualParts[i]
      · simp [hparam, hrest, SegmentMatches, ← he, hlt]
      · simp [hparam, SegmentMatches, he, hlt]

theorem partsMatch_eq (patternParts actualParts : PathParts) :
  partsMatch patternParts actualParts =
    some (decide (List.Forall₂ SegmentMatches patternParts actualParts))
  := by
  unfold partsMatch
  by_cases hlength : patternParts.length = actualParts.length
  · rw [if_neg (not_not.mpr hlength), partsMatchFrom_eq actualParts 0 patternParts (by omega),
      List.drop_zero]
  · have hno : ¬ List.Forall₂ SegmentMatches patternParts actualParts :=
      fun h => hlength h.length_eq
    rw [if_pos hlength, decide_eq_false hno]

/-- The loop that fills the parameters sets those of the rest of the pattern one after the
other. -/
theorem fillParamsFrom_eq (actualParts : PathParts) (i : ℕ) (patternParts : PathParts)
    (params : StrMap) (hlength : i + patternParts.length = actualParts.length) :
  fillParamsFrom actualParts i patternParts params =
    some (Assoc.setAll params (captures patternParts (actualParts.drop i)))
  := by
  induction patternParts generalizing i params with
  | nil => simp [fillParamsFrom, captures, Assoc.setAll]
  | cons e rest ih =>
    have hlt : i < actualParts.length := by
      simp at hlength
      omega
    have hdrop : actualParts.drop i = actualParts[i] :: actualParts.drop (i + 1) :=
      List.drop_eq_getElem_cons hlt
    have hrest := fun params => ih (i + 1) params (by simp at hlength; omega)
    rw [fillParamsFrom, isParam_eq, hdrop, captures]
    by_cases hparam : IsParam e
    · simp [hparam, hlt, hrest, paramName_eq, Assoc.setAll]
    · simp [hparam, hrest]

/-- Every pair of a query has a name, and one without a value has no second part. -/
theorem parsePairs_isSome (pairs : List Bytes) (query : StrMap) :
  ∃ query', parsePairs pairs query = some query'
  := by
  induction pairs generalizing query with
  | nil => exact ⟨query, rfl⟩
  | cons e pairs ih =>
    rw [parsePairs, strSplit_byte]
    by_cases hempty : e = []
    · simpa [hempty] using ih query
    · have hne : e.splitOn 61 ≠ [] := List.splitOn_ne_nil 61 e
      cases hparts : e.splitOn 61 with
      | nil => exact absurd hparts hne
      | cons name values =>
        cases values with
        | nil => simpa [hempty] using ih _
        | cons value values => simpa [hempty] using ih _

theorem parseQuery_isSome (path : Bytes) : ∃ query, parseQuery path = some query := by
  unfold parseQuery
  by_cases hraw : queryText path = []
  · exact ⟨[], by simp [hraw]⟩
  · obtain ⟨query, hquery⟩ := parsePairs_isSome (strSplit (queryText path) [38]) []
    exact ⟨query, by simp [hraw, hquery]⟩

/-! ### Registered routes -/

/-- What a route is registered with. -/
structure Registration (σ : Type) where
  method : Bytes
  pattern : Bytes
  middleware : List (Middleware σ)
  handler : Handler σ

variable {σ : Type}

/-- Routes are registered one after the other. -/
def registerAll (app : WebApp σ) (registrations : List (Registration σ)) : WebApp σ :=
  registrations.foldl (fun app r => route app r.method r.pattern r.middleware r.handler) app

/-- The route of a registration. -/
def Registration.route (r : Registration σ) : Route σ :=
  { method := r.method, pattern := r.pattern, parts := pathParts r.pattern,
    middleware := r.middleware, handler := r.handler }

theorem routes_registerAll (app : WebApp σ) (registrations : List (Registration σ)) :
  (registerAll app registrations).routes = app.routes ++ registrations.map Registration.route
  := by
  induction registrations generalizing app with
  | nil => simp [registerAll]
  | cons r registrations ih =>
    have hrest := ih (route app r.method r.pattern r.middleware r.handler)
    rw [registerAll, List.foldl_cons]
    rw [registerAll] at hrest
    rw [hrest]
    simp [route, Registration.route]

instance (pattern path : Bytes) : Decidable (PathMatches pattern path) :=
  inferInstanceAs (Decidable (List.Forall₂ _ _ _))

/-- A registered route is for a request: its pattern matches the path, and it has the method. -/
def Registration.Serves (r : Registration σ) (req : HttpReq) : Prop :=
  PathMatches r.pattern req.path ∧ r.method = req.method

instance (r : Registration σ) (req : HttpReq) : Decidable (r.Serves req) :=
  inferInstanceAs (Decidable (_ ∧ _))

/-- A registered route is the first one for a request. -/
def IsFirst (registrations : List (Registration σ)) (req : HttpReq) (r : Registration σ) : Prop :=
  r.Serves req ∧ ∃ before after, registrations = before ++ r :: after ∧
    ∀ r' ∈ before, ¬ r'.Serves req

/-- What a dispatch answers with: a route, or a response of its own. -/
inductive Selection (σ : Type) where
  | route (r : Registration σ)
  | methodNotAllowed
  | notFound

/-- The selection for a request. -/
def select (registrations : List (Registration σ)) (req : HttpReq) : Selection σ :=
  match registrations.find? fun r => decide (r.Serves req) with
  | some r => .route r
  | none =>
    if ∃ r ∈ registrations, PathMatches r.pattern req.path then .methodNotAllowed
    else .notFound

/-- All of some middleware returns true, and leaves a request and a state behind. -/
inductive AllPass : List (Middleware σ) → HttpReq → σ → HttpReq → σ → Prop
  | nil {req : HttpReq} {w : σ} : AllPass [] req w req w
  | cons {m : Middleware σ} {middleware : List (Middleware σ)} {req req' req'' : HttpReq}
      {w w' w'' : σ} (hm : m req w = some (true, req', w'))
      (hrest : AllPass middleware req' w' req'' w'') : AllPass (m :: middleware) req w req'' w''

/-- Middleware that returns true goes on to the handler. -/
theorem runMiddleware_of_allPass {middleware : List (Middleware σ)} {req req' : HttpReq}
    {w w' : σ} (h : AllPass middleware req w req' w') :
  runMiddleware middleware req w = some (none, req', w')
  := by
  induction h with
  | nil => rfl
  | cons hm _ ih => simp [runMiddleware, hm, ih]

/-- A request with the data of a route in it. -/
def IsRouted (r : Registration σ) (req routed : HttpReq) : Prop :=
  routed = { req with path := beforeQuery req.path, params := routed.params, query := routed.query } ∧
    ∀ key, Assoc.get routed.params key = Assoc.last (captured r.pattern req.path) key

/-- A route is taken with the data of the path in the request. -/
theorem takeRoute_eq (r : Registration σ) (req : HttpReq) (w : σ)
    (hmatch : PathMatches r.pattern req.path) :
  ∃ routed, IsRouted r req routed ∧
    ∀ req' w', AllPass r.middleware routed w req' w' →
      takeRoute r.route req.path (pathOnly req.path) (pathParts (pathOnly req.path)) req w =
        r.handler req' w'
  := by
  have hlength : 0 + (segments r.pattern).length = (segments (beforeQuery req.path)).length := by
    rw [Nat.zero_add]
    exact hmatch.length_eq
  have hparams := fillParamsFrom_eq (segments (beforeQuery req.path)) 0 (segments r.pattern) [] hlength
  rw [List.drop_zero] at hparams
  have hget : ∀ key, Assoc.get (Assoc.setAll [] (captured r.pattern req.path)) key =
      Assoc.last (captured r.pattern req.path) key := by
    intro key
    rw [Assoc.get_setAll]
    simp [Assoc.get]
  obtain ⟨query, hquery⟩ := parseQuery_isSome req.path
  rw [pathOnly_eq, pathParts_eq]
  unfold takeRoute fillParams
  simp only [Registration.route, pathParts_eq, hparams]
  by_cases hfind : 0 ≤ strFind req.path [63]
  · use applyRouteData req (beforeQuery req.path) (Assoc.setAll [] (captured r.pattern req.path)) query
    constructor
    · exact ⟨rfl, hget⟩
    · intro req' w' hpass
      have hrun := runMiddleware_of_allPass hpass
      rw [captured] at hrun
      simp [hfind, hquery, hrun]
  · use applyRouteDataNoQuery req (beforeQuery req.path)
      (Assoc.setAll [] (captured r.pattern req.path))
    constructor
    · exact ⟨rfl, hget⟩
    · intro req' w' hpass
      have hrun := runMiddleware_of_allPass hpass
      rw [captured] at hrun
      simp [hfind, hrun]

/-- The loop over the routes takes the first one for the request, and remembers whether one before
it has matched the path. -/
theorem dispatchRoutes_eq (registrations : List (Registration σ)) (foundPath : Bool)
    (req : HttpReq) (w : σ) :
  dispatchRoutes req.path (pathOnly req.path) (pathParts (pathOnly req.path))
      (registrations.map Registration.route) foundPath req w =
    match registrations.find? fun r => decide (r.Serves req) with
    | some r => takeRoute r.route req.path (pathOnly req.path) (pathParts (pathOnly req.path)) req w
    | none =>
      if foundPath ∨ ∃ r ∈ registrations, PathMatches r.pattern req.path then
        some (methodNotAllowed, req, w)
      else some (notFound, req, w)
  := by
  induction registrations generalizing foundPath with
  | nil => simp [dispatchRoutes]
  | cons r registrations ih =>
    have hparts : partsMatch r.route.parts (pathParts (pathOnly req.path)) =
        some (decide (PathMatches r.pattern req.path)) := by
      rw [partsMatch_eq, pathOnly_eq, Option.some.injEq, decide_eq_decide]
      simp only [Registration.route, pathParts_eq, PathMatches]
    rw [List.map_cons, dispatchRoutes, hparts]
    by_cases hmatch : PathMatches r.pattern req.path
    · by_cases hmethod : r.method = req.method
      · have hserves : r.Serves req := ⟨hmatch, hmethod⟩
        simp [hmatch, hmethod, hserves, Registration.route]
      · have hserves : ¬ r.Serves req := fun h => hmethod h.2
        simp [hmatch, hmethod, hserves, Registration.route, ih]
    · have hserves : ¬ r.Serves req := fun h => hmatch h.1
      simp [hmatch, hserves, ih]

theorem select_eq_route_iff (registrations : List (Registration σ)) (req : HttpReq)
    (r : Registration σ) :
  select registrations req = .route r ↔ IsFirst registrations req r
  := by
  unfold select IsFirst
  cases hfind : registrations.find? fun r => decide (r.Serves req) with
  | none =>
    have hnone : ∀ r' ∈ registrations, ¬ r'.Serves req := by simpa using hfind
    constructor
    · intro h
      simp only at h
      split at h <;> cases h
    · rintro ⟨hserves, before, after, rfl, _⟩
      exact absurd hserves (hnone r (by simp))
  | some r' =>
    have hfirst := List.find?_eq_some_iff_append.mp hfind
    constructor
    · intro h
      cases h
      simpa using hfirst
    · intro h
      have hsome : registrations.find? (fun r => decide (r.Serves req)) = some r := by
        apply List.find?_eq_some_iff_append.mpr
        simpa using h
      rw [hfind] at hsome
      cases hsome
      rfl

theorem select_eq_methodNotAllowed_iff (registrations : List (Registration σ)) (req : HttpReq) :
  select registrations req = .methodNotAllowed ↔
    (∃ r ∈ registrations, PathMatches r.pattern req.path) ∧
      ∀ r ∈ registrations, PathMatches r.pattern req.path → r.method ≠ req.method
  := by
  unfold select
  cases hfind : registrations.find? fun r => decide (r.Serves req) with
  | none =>
    have hnone : ∀ r ∈ registrations, PathMatches r.pattern req.path → r.method ≠ req.method := by
      intro r hr hmatch hmethod
      have hserves : r.Serves req := ⟨hmatch, hmethod⟩
      exact List.find?_eq_none.mp hfind r hr (decide_eq_true hserves)
    by_cases hmatch : ∃ r ∈ registrations, PathMatches r.pattern req.path
    · simp [hmatch]
      exact hnone
    · simp [hmatch]
  | some r =>
    have hserves : r.Serves req := by simpa using List.find?_some hfind
    have hmem := List.mem_of_find?_eq_some hfind
    constructor
    · intro h
      cases h
    · rintro ⟨_, hmethods⟩
      exact absurd hserves.2 (hmethods r hmem hserves.1)

theorem select_eq_notFound_iff (registrations : List (Registration σ)) (req : HttpReq) :
  select registrations req = .notFound ↔
    ∀ r ∈ registrations, ¬ PathMatches r.pattern req.path
  := by
  unfold select
  cases hfind : registrations.find? fun r => decide (r.Serves req) with
  | none =>
    by_cases hmatch : ∃ r ∈ registrations, PathMatches r.pattern req.path
    · obtain ⟨r, hr, hpath⟩ := hmatch
      simp only [if_pos (⟨r, hr, hpath⟩ : ∃ r ∈ registrations, PathMatches r.pattern req.path)]
      constructor
      · intro h
        cases h
      · intro h
        exact absurd hpath (h r hr)
    · simp only [if_neg hmatch, true_iff]
      intro r hr hpath
      exact hmatch ⟨r, hr, hpath⟩
  | some r =>
    have hserves : r.Serves req := by simpa using List.find?_some hfind
    have hmem := List.mem_of_find?_eq_some hfind
    constructor
    · intro h
      cases h
    · intro hmatches
      exact absurd hserves.1 (hmatches r hmem)

/-- A dispatch does what the selection for its request says. -/
theorem dispatchRef_eq (config : HostConfig) (registrations : List (Registration σ)) (req : HttpReq)
    (w : σ) :
  dispatchRef (registerAll (app config) registrations) req w =
    match select registrations req with
    | .route r => takeRoute r.route req.path (pathOnly req.path) (pathParts (pathOnly req.path)) req w
    | .methodNotAllowed => some (methodNotAllowed, req, w)
    | .notFound => some (notFound, req, w)
  := by
  have hroutes : (registerAll (app config) registrations).routes =
      registrations.map Registration.route := by
    rw [routes_registerAll]
    rfl
  simp only [dispatchRef, hroutes, dispatchRoutes_eq registrations false req w]
  unfold select
  cases hfind : registrations.find? fun r => decide (r.Serves req) with
  | some r => rfl
  | none =>
    by_cases hmatch : ∃ r ∈ registrations, PathMatches r.pattern req.path
    · simp [hmatch]
    · simp [hmatch]

/-- A dispatch takes the first route for its request. -/
theorem dispatchRef_of_isFirst (config : HostConfig) {registrations : List (Registration σ)}
    {req : HttpReq} (w : σ) {r : Registration σ} (hfirst : IsFirst registrations req r) :
  ∃ routed, IsRouted r req routed ∧
    ∀ req' w', AllPass r.middleware routed w req' w' →
      dispatchRef (registerAll (app config) registrations) req w = r.handler req' w'
  := by
  rw [dispatchRef_eq, (select_eq_route_iff registrations req r).mpr hfirst]
  exact takeRoute_eq r req w hfirst.1.1

/-- A request is answered by the first route for it, which is given the parameters of its path.
It is answered with 405 exactly when some route matches the path and none of them has the method,
and with 404 exactly when no route matches the path. -/
theorem dispatchRef_answers (σ : Type) (config : HostConfig) (registrations : List (Registration σ))
    (req : HttpReq) (w : σ) :
  ∃ selection : Selection σ,
    (∀ r, selection = .route r ↔ IsFirst registrations req r) ∧
    (selection = .methodNotAllowed ↔
      (∃ r ∈ registrations, PathMatches r.pattern req.path) ∧
        ∀ r ∈ registrations, PathMatches r.pattern req.path → r.method ≠ req.method) ∧
    (selection = .notFound ↔ ∀ r ∈ registrations, ¬ PathMatches r.pattern req.path) ∧
    match selection with
    | .route r => ∃ routed, IsRouted r req routed ∧
        ∀ req' w', AllPass r.middleware routed w req' w' →
          dispatchRef (registerAll (app config) registrations) req w = r.handler req' w'
    | .methodNotAllowed =>
      dispatchRef (registerAll (app config) registrations) req w = some (methodNotAllowed, req, w)
    | .notFound =>
      dispatchRef (registerAll (app config) registrations) req w = some (notFound, req, w)
  := by
  refine ⟨select registrations req, select_eq_route_iff registrations req,
    select_eq_methodNotAllowed_iff registrations req, select_eq_notFound_iff registrations req, ?_⟩
  have hdispatch := dispatchRef_eq config registrations req w
  cases hselect : select registrations req with
  | route r =>
    exact dispatchRef_of_isFirst config w ((select_eq_route_iff registrations req r).mp hselect)
  | methodNotAllowed => simpa only [hselect] using hdispatch
  | notFound => simpa only [hselect] using hdispatch

/-- Middleware that forgets the parameters of a request. -/
def forgetParams : Middleware StrMap := fun req w => some (true, { req with params := [] }, w)

/-- A handler that notes the parameters it sees. -/
def noteParams : Handler StrMap := fun req _ => some ({}, req, req.params)

/-- Middleware that returns true can change the parameters that the handler sees. -/
theorem not_dispatchRef_params :
  ¬ ∀ (σ : Type) (config : HostConfig) (registrations : List (Registration σ)) (req : HttpReq)
      (w : σ) (r : Registration σ), IsFirst registrations req r →
    (∀ m ∈ r.middleware, ∀ q v, ∃ q' v', m q v = some (true, q', v')) →
    ∃ seen v, (∀ key, Assoc.get seen.params key = Assoc.last (captured r.pattern req.path) key) ∧
      dispatchRef (registerAll (app config) registrations) req w = r.handler seen v
  := by
  intro h
  let req : HttpReq := { path := strLit "/7" }
  let r : Registration StrMap :=
    { method := strLit "GET", pattern := strLit "/:id", middleware := [forgetParams],
      handler := noteParams }
  have hserves : r.Serves req := by decide
  have hfirst : IsFirst [r] req r := ⟨hserves, [], [], rfl, by simp⟩
  have hpass : ∀ m ∈ r.middleware, ∀ q v, ∃ q' v', m q v = some (true, q', v') := by
    intro m hm q v
    rw [List.mem_singleton.mp hm]
    exact ⟨_, _, rfl⟩
  obtain ⟨routed, _, hrun⟩ := dispatchRef_of_isFirst {} [] hfirst
  have hforgot := hrun _ _ (AllPass.cons rfl AllPass.nil)
  obtain ⟨seen, v, hseen, hhandler⟩ := h StrMap {} [r] req [] r hfirst hpass
  have hparams : seen.params = [] := by
    rw [hforgot] at hhandler
    cases hhandler
    rfl
  have hid := hseen (strLit "id")
  rw [hparams] at hid
  exact absurd hid (by decide)

end Web

end Caster
