import Caster.Web.Middleware

/-!
# The host of an application

The adapter between the server library and the handlers of a program: it copies a request into a map,
lets the program answer, and sends the answer with its headers.
-/

namespace Caster

namespace Web

/-! ### Requests and replies of the server -/

/-- A header as the server library has it: its name in lower case, and as it was received. -/
structure H2oHeader where
  name : Bytes
  origName : Option Bytes
  value : Bytes

structure H2oReq where
  method : Bytes
  path : Bytes
  authority : Bytes
  headers : List H2oHeader
  entity : Bytes

structure H2oRes where
  status : ℤ
  reason : String
  contentLength : ℕ
  headers : List (Bytes × Bytes)
  body : Bytes

/-- What becomes of a request: it is left to the connection of a web socket, to the other handlers of
the server, or it is replied to. -/
inductive HostAnswer where
  | upgraded
  | declined
  | reply (res : H2oRes)

/-- What the generated program is built with. -/
structure HostBuild where
  enableWebsocket : Bool
  readHeaders : Bool

/-- The order in which the entries of a map are visited. -/
structure MapOrder where
  entries : StrMap → StrMap
  perm : ∀ m, (entries m).Perm m

/-- A host: the one of its handlers that is set answers the requests. -/
structure Host (σ κ : Type) where
  handler : Option (HttpReq → σ → Option (HttpRes × σ)) := none
  refHandler : Option (Handler σ) := none
  ctxHandler : Option (κ → HttpReq → σ → Option (HttpRes × σ)) := none
  ctxRefHandler : Option (κ → Handler σ) := none
  wsHandler : Option (Bytes → σ → Option (Bytes × σ)) := none
  ctxValue : κ

variable {σ κ : Type}

/-! ### Requests -/

/-- One header is added to the map. -/
def flxHostHeaderAdd (headers : StrMap) (name value : Bytes) : StrMap := Assoc.set headers name value

/-- The name of a header as it was received, if the server has kept it. -/
def H2oHeader.seenName (header : H2oHeader) : Bytes :=
  (header.origName.getD header.name).take header.name.length

def flxHostReadHeaders (req : H2oReq) : StrMap :=
  let headers : StrMap :=
    if req.authority.length ≠ 0 then flxHostHeaderAdd [] (strLit "host") req.authority else []
  req.headers.foldl (fun headers header => flxHostHeaderAdd headers header.seenName header.value) headers

/-- The request that the program is given. -/
def hostRequest (build : HostBuild) (hreq : H2oReq) : HttpReq :=
  { method := hreq.method, path := hreq.path, body := hreq.entity,
    headers := if build.readHeaders then flxHostReadHeaders hreq else [],
    params := [], query := [], ctx := [], res := { status := 0, body := [], headers := [] } }

/-! ### Replies -/

def flxHttpReason (status : ℤ) : String :=
  if status = 200 then "OK"
  else if status = 201 then "Created"
  else if status = 204 then "No Content"
  else if status = 301 then "Moved Permanently"
  else if status = 302 then "Found"
  else if status = 400 then "Bad Request"
  else if status = 401 then "Unauthorized"
  else if status = 403 then "Forbidden"
  else if status = 404 then "Not Found"
  else if status = 405 then "Method Not Allowed"
  else if status = 500 then "Internal Server Error"
  else "OK"

/-- One header of the answer is sent, unless it is the length. -/
def addResponseHeader (state : StrMap × Bool) (entry : Bytes × Bytes) : StrMap × Bool :=
  if entry.1 = strLit "content-length" then state
  else if entry.1 = strLit "content-type" then (state.1 ++ [(strLit "content-type", entry.2)], true)
  else (state.1 ++ [entry], state.2)

/-- The headers of an answer are sent, with a type if there is none. -/
def flxHostAddResponseHeaders (entries : StrMap) : StrMap :=
  let added := entries.foldl addResponseHeader ([], false)
  if added.2 then added.1 else added.1 ++ [(strLit "content-type", strLit "text/plain")]

/-- The status that is sent: zero stands for success, and other ones are cut to 32 bits. -/
def hostStatus (status : ℤ) : ℤ := if status ≠ 0 then Int.bmod status (2 ^ 32) else 200

/-- The reply that is sent for an answer. -/
def replyOf (order : MapOrder) (res : HttpRes) : H2oRes :=
  { status := hostStatus res.status, reason := flxHttpReason (hostStatus res.status),
    contentLength := res.body.length, headers := flxHostAddResponseHeaders (order.entries res.headers),
    body := res.body }

/-- The answer of the handler that is set. -/
def Host.answer (host : Host σ κ) (req : HttpReq) (w : σ) : Option (Option HttpRes × σ) :=
  match host.ctxRefHandler, host.ctxHandler, host.refHandler, host.handler with
  | some handler, _, _, _ => (handler host.ctxValue req w).map fun out => (some out.1, out.2.2)
  | none, some handler, _, _ => (handler host.ctxValue req w).map fun out => (some out.1, out.2)
  | none, none, some handler, _ => (handler req w).map fun out => (some out.1, out.2.2)
  | none, none, none, some handler => (handler req w).map fun out => (some out.1, out.2)
  | none, none, none, none => some (none, w)

/-- A request is given to the program, and its answer is sent. -/
def flxHostDispatch (build : HostBuild) (order : MapOrder) (host : Host σ κ) (hreq : H2oReq) (w : σ) :
    Option (HostAnswer × σ) := do
  let (res, w) ← host.answer (hostRequest build hreq) w
  match res with
  | some res => some (.reply (replyOf order res), w)
  | none => some (.declined, w)

/-- The reply to a request of a host of web sockets. -/
def notASocket : H2oRes :=
  { status := 404, reason := "Not Found", contentLength := 9,
    headers := [(strLit "content-type", strLit "text/plain")], body := strLit "not found" }

/-- What a host does with a request; `isHandshake` says whether it asks for a web socket. -/
def flxH2oOnReq (build : HostBuild) (order : MapOrder) (isHandshake : H2oReq → Bool) (host : Host σ κ)
    (hreq : H2oReq) (w : σ) : Option (HostAnswer × σ) :=
  if build.enableWebsocket && host.wsHandler.isSome && isHandshake hreq then some (.upgraded, w)
  else if host.wsHandler.isSome then some (.reply notASocket, w)
  else flxHostDispatch build order host hreq w

/-! ### Hosts of programs -/

def reqHost (handler : HttpReq → σ → Option (HttpRes × σ)) : Host σ Unit :=
  { handler := some handler, ctxValue := () }

def reqHostRef (handler : Handler σ) : Host σ Unit := { refHandler := some handler, ctxValue := () }

def reqHostCtx (ctx : κ) (handler : κ → HttpReq → σ → Option (HttpRes × σ)) : Host σ κ :=
  { ctxHandler := some handler, ctxValue := ctx }

def reqHostCtxRef (ctx : κ) (handler : κ → Handler σ) : Host σ κ :=
  { ctxRefHandler := some handler, ctxValue := ctx }

def reqWs (handler : Bytes → σ → Option (Bytes × σ)) : Host σ Unit :=
  { wsHandler := some handler, ctxValue := () }

/-- The host of an application. -/
def listen (app : WebApp σ) : Host σ (WebApp σ) := reqHostCtxRef app dispatchRef

/-! ### What the program is given -/

/-- The headers of a request, the host of the connection first. -/
def seenHeaders (hreq : H2oReq) : StrMap :=
  (if hreq.authority.length ≠ 0 then [(strLit "host", hreq.authority)] else []) ++
    hreq.headers.map fun header => (header.seenName, header.value)

/-- The program sees the last value of each header. -/
theorem get_flxHostReadHeaders (hreq : H2oReq) (name : Bytes) :
  Assoc.get (flxHostReadHeaders hreq) name = Assoc.last (seenHeaders hreq) name
  := by
  have hset : flxHostReadHeaders hreq = Assoc.setAll [] (seenHeaders hreq) := by
    unfold flxHostReadHeaders seenHeaders Assoc.setAll flxHostHeaderAdd
    rw [List.foldl_append, List.foldl_map]
    split_ifs <;> rfl
  rw [hset, Assoc.get_setAll, Assoc.get, Option.or_none]

/-- An application that listens replies to each request what its routes answer, and to no request
anything else. -/
theorem listen_replies_iff {σ : Type} (build : HostBuild) (order : MapOrder) (isHandshake : H2oReq → Bool)
    (config : HostConfig) (registrations : List (Registration σ)) (hreq : H2oReq) {w w' : σ}
    {answer : HostAnswer} :
  flxH2oOnReq build order isHandshake (listen (registerAll (app config) registrations)) hreq w =
      some (answer, w') ↔
    ∃ res, Serves registrations (hostRequest build hreq) w res w' ∧ answer = .reply (replyOf order res)
  := by
  have hanswer : (listen (registerAll (app config) registrations)).answer (hostRequest build hreq) w =
      (dispatchRef (registerAll (app config) registrations) (hostRequest build hreq) w).map
        fun out => (some out.1, out.2.2) := rfl
  have hreq : flxH2oOnReq build order isHandshake (listen (registerAll (app config) registrations)) hreq w =
      flxHostDispatch build order (listen (registerAll (app config) registrations)) hreq w := by
    unfold flxH2oOnReq listen reqHostCtxRef
    simp
  rw [hreq, flxHostDispatch, hanswer]
  constructor
  · intro h
    obtain ⟨⟨res, w₁⟩, hmap, hreply⟩ := Option.bind_eq_some_iff.mp h
    obtain ⟨⟨res', req', w₂⟩, hdispatch, hpair⟩ := Option.map_eq_some_iff.mp hmap
    cases hpair
    cases hreply
    exact ⟨res', (dispatchRef_serves_iff config registrations).mp ⟨req', hdispatch⟩, rfl⟩
  · rintro ⟨res, hserves, rfl⟩
    obtain ⟨req', hdispatch⟩ := (dispatchRef_serves_iff config registrations).mpr hserves
    rw [hdispatch]
    rfl

/-! ### What is sent -/

/-- A letter in lower case. -/
def lowerByte (b : UInt8) : UInt8 := if 65 ≤ b ∧ b ≤ 90 then b + 32 else b

/-- Names of headers are the same when they are in lower case. -/
def foldName (name : Bytes) : Bytes := name.map lowerByte

theorem foldName_contentType : foldName (strLit "content-type") = strLit "content-type" := by
  decide

theorem foldName_contentLength : foldName (strLit "content-length") = strLit "content-length" := by
  decide

theorem contentType_ne_contentLength : strLit "content-type" ≠ strLit "content-length" := by
  decide

/-- A reply has one type, and no length but the one the server sends. -/
structure IsPlainReply (reply : H2oRes) : Prop where
  length : reply.contentLength = reply.body.length
  oneType : reply.headers.countP (fun header => foldName header.1 = strLit "content-type") = 1
  noLength : ∀ header ∈ reply.headers, foldName header.1 ≠ strLit "content-length"

theorem mem_keys_cons_iff {key : Bytes} {entry : Bytes × Bytes} {entries : StrMap} :
  key ∈ Assoc.keys (entry :: entries) ↔ key = entry.1 ∨ key ∈ Assoc.keys entries
  := List.mem_cons

theorem foldl_addResponseHeader (entries : StrMap) (sent : StrMap) (wrote : Bool) :
  entries.foldl addResponseHeader (sent, wrote) =
    (sent ++ entries.filter fun entry => entry.1 ≠ strLit "content-length",
      wrote || decide (strLit "content-type" ∈ Assoc.keys entries))
  := by
  induction entries generalizing sent wrote with
  | nil => simp [Assoc.keys]
  | cons entry entries ih =>
    obtain ⟨name, value⟩ := entry
    rw [List.foldl_cons, addResponseHeader]
    by_cases hlength : name = strLit "content-length"
    · subst hlength
      simp [ih, mem_keys_cons_iff, contentType_ne_contentLength]
    · by_cases htype : name = strLit "content-type"
      · subst htype
        simp [ih, mem_keys_cons_iff, contentType_ne_contentLength]
      · simp [ih, mem_keys_cons_iff, hlength, htype, Ne.symm htype]

theorem flxHostAddResponseHeaders_eq (entries : StrMap) :
  flxHostAddResponseHeaders entries =
    (entries.filter fun entry => entry.1 ≠ strLit "content-length") ++
      if strLit "content-type" ∈ Assoc.keys entries then []
      else [(strLit "content-type", strLit "text/plain")]
  := by
  unfold flxHostAddResponseHeaders
  rw [foldl_addResponseHeader]
  by_cases htype : strLit "content-type" ∈ Assoc.keys entries
  · simp [htype]
  · simp [htype]

/-- Of the names of a map, only one has a property exactly when the others do not have it. -/
theorem countP_eq_one_iff {names : List Bytes} (hnodup : names.Nodup) {name : Bytes} {p : Bytes → Bool}
    (hmem : name ∈ names) (hp : p name = true) :
  names.countP p = 1 ↔ ∀ other ∈ names, p other = true → other = name
  := by
  rw [(List.perm_cons_erase hmem).countP_eq, List.countP_cons_of_pos hp, Nat.add_eq_right,
    List.countP_eq_zero]
  constructor
  · intro h other hother hpother
    by_contra hne
    exact h other (hnodup.mem_erase_iff.mpr ⟨hne, hother⟩) hpother
  · intro h other hother hpother
    obtain ⟨hne, hother⟩ := hnodup.mem_erase_iff.mp hother
    exact hne (h other hother hpother)

/-- The types that are sent are those of the answer, and another one if it has none of the exact name. -/
theorem countP_contentType (order : MapOrder) (headers : StrMap) :
  (flxHostAddResponseHeaders (order.entries headers)).countP
      (fun header => foldName header.1 = strLit "content-type") =
    (Assoc.keys headers).countP (fun name => foldName name = strLit "content-type") +
      if strLit "content-type" ∈ Assoc.keys headers then 0 else 1
  := by
  have hperm := order.perm headers
  have hkeys : strLit "content-type" ∈ Assoc.keys (order.entries headers) ↔
      strLit "content-type" ∈ Assoc.keys headers := (hperm.map Prod.fst).mem_iff
  have hsame : ∀ entry : Bytes × Bytes,
      (decide (foldName entry.1 = strLit "content-type") && decide (entry.1 ≠ strLit "content-length")) =
        decide (foldName entry.1 = strLit "content-type") := by
    intro entry
    rw [Bool.and_eq_left_iff_imp, decide_eq_true_iff, decide_eq_true_iff]
    intro hfold heq
    rw [heq, foldName_contentLength] at hfold
    exact contentType_ne_contentLength hfold.symm
  have hcount : (Assoc.keys headers).countP (fun name => foldName name = strLit "content-type") =
      headers.countP fun entry => foldName entry.1 = strLit "content-type" := List.countP_map
  rw [flxHostAddResponseHeaders_eq, List.countP_append, List.countP_filter, hperm.countP_eq, hcount]
  simp only [hsame]
  by_cases hmem : strLit "content-type" ∈ Assoc.keys headers
  · rw [if_pos hmem, if_pos (hkeys.mpr hmem), List.countP_nil]
  · rw [if_neg hmem, if_neg (mt hkeys.mp hmem), List.countP_singleton,
      if_pos (decide_eq_true foldName_contentType)]

/-- No length is sent but one whose name is written in another way. -/
theorem mem_foldName_contentLength_iff (order : MapOrder) (headers : StrMap) :
  (∀ header ∈ flxHostAddResponseHeaders (order.entries headers),
      foldName header.1 ≠ strLit "content-length") ↔
    ∀ name ∈ Assoc.keys headers, foldName name = strLit "content-length" → name = strLit "content-length"
  := by
  have hperm := order.perm headers
  rw [flxHostAddResponseHeaders_eq]
  constructor
  · intro h name hname hfold
    obtain ⟨entry, hentry, rfl⟩ := List.mem_map.mp hname
    by_contra hne
    apply h entry _ hfold
    apply List.mem_append_left
    exact List.mem_filter.mpr ⟨hperm.mem_iff.mpr hentry, decide_eq_true hne⟩
  · intro h header hmem hfold
    obtain hmem | hmem := List.mem_append.mp hmem
    · obtain ⟨hentry, hne⟩ := List.mem_filter.mp hmem
      exact of_decide_eq_true hne (h header.1 (List.mem_map_of_mem (hperm.mem_iff.mp hentry)) hfold)
    · split_ifs at hmem
      · cases hmem
      · obtain rfl := List.mem_singleton.mp hmem
        rw [foldName_contentType] at hfold
        exact contentType_ne_contentLength hfold

/-- The reply to an answer has one type and no other length exactly when the program writes the names of
both headers in lower case. -/
theorem isPlainReply_iff {order : MapOrder} {res : HttpRes} (hnodup : (Assoc.keys res.headers).Nodup) :
  IsPlainReply (replyOf order res) ↔
    ∀ name ∈ Assoc.keys res.headers,
      (foldName name = strLit "content-type" → name = strLit "content-type") ∧
        (foldName name = strLit "content-length" → name = strLit "content-length")
  := by
  have htype : (flxHostAddResponseHeaders (order.entries res.headers)).countP
        (fun header => foldName header.1 = strLit "content-type") = 1 ↔
      ∀ name ∈ Assoc.keys res.headers,
        foldName name = strLit "content-type" → name = strLit "content-type" := by
    rw [countP_contentType]
    split_ifs with hmem
    · rw [Nat.add_zero, countP_eq_one_iff hnodup hmem (decide_eq_true foldName_contentType)]
      simp only [decide_eq_true_iff]
    · rw [Nat.add_eq_right, List.countP_eq_zero]
      simp only [decide_eq_true_iff]
      constructor
      · exact fun h name hname hfold => absurd hfold (h name hname)
      · rintro h name hname hfold
        rw [h name hname hfold] at hname
        exact hmem hname
  have hlength := mem_foldName_contentLength_iff order res.headers
  constructor
  · rintro ⟨-, hone, hno⟩ name hname
    exact ⟨htype.mp hone name hname, hlength.mp hno name hname⟩
  · intro h
    exact ⟨rfl, htype.mpr fun name hname => (h name hname).1, hlength.mpr fun name hname => (h name hname).2⟩

/-- The entries are visited in the order of the map. -/
def sameOrder : MapOrder := ⟨id, fun _ => .refl _⟩

theorem isPlainReply_notFound : IsPlainReply (replyOf sameOrder notFound) := by
  apply (@isPlainReply_iff sameOrder notFound (by decide)).mpr
  intro name hname
  obtain rfl := List.mem_singleton.mp hname
  exact ⟨fun _ => rfl, fun hfold => absurd (foldName_contentType.symm.trans hfold) contentType_ne_contentLength⟩

end Web

end Caster
