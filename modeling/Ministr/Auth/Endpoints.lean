/-
# Auth.Endpoints — the OAuth endpoints, one storage access at a time

`register_client` stores a client, `authorize` stores a code bound to a client, a
redirect URI and a PKCE challenge, and `token` takes a code out of the store, checks it
and stores an access token.  The code between two storage accesses is a pure function
here (`newClient`, `newCode`, `checkCode`, `newToken`); every access to the store is a
step of its own, so that requests interleave freely, and a request may be dropped at
any point.  What the clock shows and what `generate_id` draws come with the step; an
identifier is never drawn twice.

SHA-256 is a parameter.  The state also keeps a log of what was registered, authorized,
granted and answered, newest first, which no code reads.
-/
import Ministr.Theory.Agents
import Ministr.Theory.Bytes
import Ministr.Theory.Hexadecimal
import Ministr.Theory.Rows
import Ministr.Theory.Run

namespace Ministr.Auth

open Ministr.Theory

set_option autoImplicit false

/-! ## Records and requests -/

structure OAuthConfig where
  issuer : String
  scopesSupported : List String
  tokenTtl : Nat
  codeTtl : Nat

structure RegisteredClient where
  clientId : String
  clientSecret : Option String
  redirectUris : List String
  clientName : Option String
  scope : String
  registeredAt : Nat
  deriving DecidableEq, Repr

structure AuthorizationCode where
  code : String
  clientId : String
  redirectUri : String
  scope : String
  codeChallenge : String
  codeChallengeMethod : String
  expiresAt : Nat
  deriving DecidableEq, Repr

structure AccessToken where
  token : String
  clientId : String
  scope : String
  expiresAt : Nat
  deriving DecidableEq, Repr

structure RegistrationRequest where
  redirectUris : List String
  clientName : Option String := none
  scope : Option String := none
  tokenEndpointAuthMethod : Option String := none
  deriving DecidableEq, Repr

structure RegistrationResponse where
  clientId : String
  clientSecret : Option String
  redirectUris : List String
  clientName : Option String
  tokenEndpointAuthMethod : String
  deriving DecidableEq, Repr

structure AuthorizeQuery where
  responseType : String
  clientId : String
  redirectUri : String
  scope : Option String := none
  state : Option String := none
  codeChallenge : Option String := none
  codeChallengeMethod : Option String := none
  deriving DecidableEq, Repr

structure TokenRequest where
  grantType : String
  code : Option String := none
  redirectUri : Option String := none
  clientId : Option String := none
  codeVerifier : Option String := none
  deriving DecidableEq, Repr

structure TokenResponse where
  accessToken : String
  tokenType : String
  expiresIn : Nat
  scope : String
  deriving DecidableEq, Repr

inductive StatusCode where
  | badRequest
  | internalServerError
  deriving DecidableEq, Repr

/-- What a request is answered with. -/
inductive Response where
  | registration (answer : Except StatusCode RegistrationResponse)
  | redirect (answer : Except (StatusCode × String) String)
  | token (answer : Except StatusCode TokenResponse)

/-! ## Between the storage accesses -/

/-- The 64 characters of base64url. -/
def alphabet : List Char :=
  "ABCDEFGHIJKLMNOPQRSTUVWXYZabcdefghijklmnopqrstuvwxyz0123456789-_".toList

/-- The character of the low six bits. -/
def digit (n : Nat) : Char := alphabet.getD (n % 64) 'A'

/-- `base64_url_encode`: three bytes at a time, without padding. -/
def base64UrlEncode : List UInt8 → List Char
  | [] => []
  | [b0] =>
      let triple := b0.toNat * 65536
      [digit (triple / 262144), digit (triple / 4096)]
  | [b0, b1] =>
      let triple := b0.toNat * 65536 + b1.toNat * 256
      [digit (triple / 262144), digit (triple / 4096), digit (triple / 64)]
  | b0 :: b1 :: b2 :: rest =>
      let triple := b0.toNat * 65536 + b1.toNat * 256 + b2.toNat
      digit (triple / 262144) :: digit (triple / 4096) :: digit (triple / 64) :: digit triple ::
        base64UrlEncode rest

/-- The S256 challenge of a verifier. -/
def s256 (sha256 : List UInt8 → List UInt8) (verifier : String) : String :=
  String.ofList (base64UrlEncode (sha256 (utf8 verifier)))

/-- `register_client` up to `save_client`.  A confidential client also gets a secret. -/
def newClient (config : OAuthConfig) (req : RegistrationRequest) (clientId secret : String)
    (now : Nat) : Except StatusCode RegisteredClient :=
  if req.redirectUris = [] then .error .badRequest
  else .ok {
    clientId
    clientSecret := if req.tokenEndpointAuthMethod.getD "none" = "none" then none else some secret
    redirectUris := req.redirectUris
    clientName := req.clientName
    scope := req.scope.getD (" ".intercalate config.scopesSupported)
    registeredAt := now }

def registrationResponse (client : RegisteredClient) : RegistrationResponse where
  clientId := client.clientId
  clientSecret := client.clientSecret
  redirectUris := client.redirectUris
  clientName := client.clientName
  tokenEndpointAuthMethod := if client.clientSecret.isNone then "none" else "client_secret_post"

/-- `authorize` from the client that `get_client` found up to `save_code`. -/
def newCode (config : OAuthConfig) (query : AuthorizeQuery) (client : RegisteredClient)
    (code : String) (now : Nat) : Except (StatusCode × String) AuthorizationCode :=
  if query.redirectUri ∉ client.redirectUris then .error (.badRequest, "invalid redirect_uri")
  else
    match query.codeChallenge with
    | none => .error (.badRequest, "code_challenge required (PKCE)")
    | some codeChallenge =>
        if query.codeChallengeMethod.getD "S256" ≠ "S256" then
          .error (.badRequest, "only S256 code_challenge_method supported")
        else .ok {
          code
          clientId := query.clientId
          redirectUri := query.redirectUri
          scope := query.scope.getD ""
          codeChallenge
          codeChallengeMethod := query.codeChallengeMethod.getD "S256"
          expiresAt := now + config.codeTtl }

/-- The issuer in the redirect, with every byte outside a few escaped. -/
def encodeIssuer (issuer : String) : List Char :=
  (utf8 issuer).flatMap fun b =>
    let c := Char.ofNat b.toNat
    if b.toNat < 128 ∧ (c.isAlphanum ∨ c ∈ ['-', '_', '.', '~', ':', '/']) then [c]
    else ['%', upperHexDigit (b.toNat / 16), upperHexDigit b.toNat]

/-- The address `authorize` redirects to. -/
def redirectLocation (config : OAuthConfig) (query : AuthorizeQuery) (code : String) : String :=
  let redirect := query.redirectUri ++ (if '?' ∈ query.redirectUri.toList then "&" else "?")
  let redirect := redirect ++ "code=" ++ code
  let redirect := query.state.elim redirect fun state => redirect ++ "&state=" ++ state
  redirect ++ "&iss=" ++ String.ofList (encodeIssuer config.issuer)

/-- `token` from the code that was taken: expiry, PKCE, and the client and redirect URI
if they were sent. -/
def checkCode (sha256 : List UInt8 → List UInt8) (req : TokenRequest) (verifier : String)
    (authCode : AuthorizationCode) (now : Nat) : Except StatusCode Unit :=
  if now > authCode.expiresAt then .error .badRequest
  else if s256 sha256 verifier ≠ authCode.codeChallenge then .error .badRequest
  else if ∃ clientId ∈ req.clientId, clientId ≠ authCode.clientId then .error .badRequest
  else if ∃ redirectUri ∈ req.redirectUri, redirectUri ≠ authCode.redirectUri then
    .error .badRequest
  else .ok ()

def newToken (config : OAuthConfig) (authCode : AuthorizationCode) (token : String)
    (now : Nat) : AccessToken where
  token
  clientId := authCode.clientId
  scope := authCode.scope
  expiresAt := now + config.tokenTtl

def tokenResponse (config : OAuthConfig) (token : AccessToken) : TokenResponse where
  accessToken := token.token
  tokenType := "Bearer"
  expiresIn := config.tokenTtl
  scope := token.scope

/-! ## The log -/

/-- An authorize request that was accepted: what was asked, the client that was found and
the code that was drawn. -/
structure Authorization where
  query : AuthorizeQuery
  client : RegisteredClient
  code : AuthorizationCode
  deriving DecidableEq, Repr

/-- A token that was stored: for which request, what was presented, the code that was
taken, what the clock showed when the code was checked, and the token. -/
structure Grant where
  request : Nat
  presented : TokenRequest
  verifier : String
  code : AuthorizationCode
  checkedAt : Nat
  token : AccessToken
  deriving DecidableEq, Repr

inductive AuthEvent where
  | registered (client : RegisteredClient)
  | authorized (authorization : Authorization)
  | granted (grant : Grant)
  | answered (request : Nat) (response : Response)

/-! ## Requests in progress -/

/-- Where a request stands. -/
inductive Stage where
  | registering (req : RegistrationRequest)
  | authorizing (query : AuthorizeQuery)
  /-- `authorize` before `save_code`. -/
  | savingCode (query : AuthorizeQuery) (code : AuthorizationCode)
  | requesting (req : TokenRequest)
  /-- `token` with the code it took. -/
  | checking (req : TokenRequest) (verifier : String) (code : AuthorizationCode)
  /-- `token` after the checks, before it draws and saves the token. -/
  | minting (req : TokenRequest) (verifier : String) (code : AuthorizationCode) (checkedAt : Nat)
  deriving DecidableEq, Repr

/-- A request in progress, by its number. -/
structure InProgress where
  request : Nat
  stage : Stage
  deriving DecidableEq, Repr

structure AuthState where
  clients : Rows String RegisteredClient := ∅
  codes : Rows String AuthorizationCode := ∅
  tokens : Rows String AccessToken := ∅
  /-- What `generate_id` has drawn. -/
  drawn : List String := []
  nextRequest : Nat := 0
  pool : List InProgress := []
  log : List AuthEvent := []

/-- How `take_code` may end: with its answer, with an error that left the code in the
store, or with one after the transaction that deleted it was committed. -/
inductive TakeOutcome where
  | answered
  | failed
  | lost
  deriving DecidableEq, Repr

/-- A request arrives, one in progress takes its next step, or it is dropped.  `stored`
says whether the storage access succeeds. -/
inductive AuthStep where
  | register (req : RegistrationRequest)
  | saveClient (request : Nat) (req : RegistrationRequest) (clientId secret : String) (now : Nat)
      (stored : Bool)
  | authorize (query : AuthorizeQuery)
  | getClient (request : Nat) (query : AuthorizeQuery) (code : String) (now : Nat) (stored : Bool)
  | saveCode (request : Nat) (query : AuthorizeQuery) (code : AuthorizationCode) (stored : Bool)
  | token (req : TokenRequest)
  | takeCode (request : Nat) (req : TokenRequest) (outcome : TakeOutcome)
  | check (request : Nat) (req : TokenRequest) (verifier : String) (code : AuthorizationCode)
      (now : Nat)
  | saveToken (request : Nat) (req : TokenRequest) (verifier : String) (code : AuthorizationCode)
      (checkedAt : Nat) (token : String) (now : Nat) (stored : Bool)
  | drop (p : InProgress)
  deriving DecidableEq, Repr

namespace AuthStep

/-- The request whose step it is. -/
def agent : AuthStep → Option InProgress
  | .register _ | .authorize _ | .token _ => none
  | .saveClient n req _ _ _ _ => some ⟨n, .registering req⟩
  | .getClient n query _ _ _ => some ⟨n, .authorizing query⟩
  | .saveCode n query code _ => some ⟨n, .savingCode query code⟩
  | .takeCode n req _ => some ⟨n, .requesting req⟩
  | .check n req verifier code _ => some ⟨n, .checking req verifier code⟩
  | .saveToken n req verifier code checkedAt _ _ _ =>
      some ⟨n, .minting req verifier code checkedAt⟩
  | .drop p => some p

/-- The identifiers the step may draw. -/
def draws : AuthStep → List String
  | .saveClient _ _ id secret _ _ => [id, secret]
  | .getClient _ _ id _ _ => [id]
  | .saveToken _ _ _ _ _ id _ _ => [id]
  | _ => []

end AuthStep

namespace AuthState

variable (s : AuthState)

def arrive (stage : Stage) : AuthState :=
  { s with pool := ⟨s.nextRequest, stage⟩ :: s.pool, nextRequest := s.nextRequest + 1 }

/-- The request goes on. -/
def become (p : InProgress) (stage : Stage) : AuthState :=
  { s with pool := Pool.replace s.pool p [⟨p.request, stage⟩] }

/-- The request is answered. -/
def answer (p : InProgress) (response : Response) : AuthState :=
  { s with
    pool := Pool.replace s.pool p []
    log := .answered p.request response :: s.log }

end AuthState

section Steps

variable (config : OAuthConfig) (sha256 : List UInt8 → List UInt8)

/-- `token` up to and including `take_code`. -/
def takeCode (s : AuthState) (n : Nat) (req : TokenRequest) (outcome : TakeOutcome) : AuthState :=
  let p : InProgress := ⟨n, .requesting req⟩
  if req.grantType ≠ "authorization_code" then s.answer p (.token (.error .badRequest))
  else
    match req.code, req.codeVerifier with
    | some code, some verifier =>
        match outcome with
        | .answered =>
            match s.codes.lookup code with
            | some authCode =>
                { s with codes := s.codes.erase code }.become p (.checking req verifier authCode)
            | none => s.answer p (.token (.error .badRequest))
        | .failed => s.answer p (.token (.error .internalServerError))
        | .lost =>
            { s with codes := s.codes.erase code }.answer p (.token (.error .internalServerError))
    | _, _ => s.answer p (.token (.error .badRequest))

/-- `authorize` up to `save_code`. -/
def getClient (s : AuthState) (n : Nat) (query : AuthorizeQuery) (code : String) (now : Nat)
    (stored : Bool) : AuthState :=
  let p : InProgress := ⟨n, .authorizing query⟩
  if query.responseType ≠ "code" then
    s.answer p (.redirect (.error (.badRequest, "unsupported response_type")))
  else if stored = false then
    s.answer p (.redirect (.error (.internalServerError, "storage unavailable")))
  else
    match s.clients.lookup query.clientId with
    | none => s.answer p (.redirect (.error (.badRequest, "unknown client_id")))
    | some client =>
        match newCode config query client code now with
        | .error refusal => s.answer p (.redirect (.error refusal))
        | .ok authCode =>
            { s with log := .authorized ⟨query, client, authCode⟩ :: s.log }.become p
              (.savingCode query authCode)

/-- What a step does, given that its request is in progress. -/
def act (s : AuthState) : AuthStep → AuthState
  | .register req => s.arrive (.registering req)
  | .saveClient n req clientId secret now stored =>
      match newClient config req clientId secret now with
      | .error refusal => s.answer ⟨n, .registering req⟩ (.registration (.error refusal))
      | .ok client =>
          if stored then
            { s with
              clients := s.clients.insert client.clientId client
              log := .registered client :: s.log }.answer ⟨n, .registering req⟩
                (.registration (.ok (registrationResponse client)))
          else
            s.answer ⟨n, .registering req⟩ (.registration (.error .internalServerError))
  | .authorize query => s.arrive (.authorizing query)
  | .getClient n query code now stored => getClient config s n query code now stored
  | .saveCode n query code stored =>
      if stored then
        { s with codes := s.codes.insert code.code code }.answer ⟨n, .savingCode query code⟩
          (.redirect (.ok (redirectLocation config query code.code)))
      else
        s.answer ⟨n, .savingCode query code⟩
          (.redirect (.error (.internalServerError, "storage unavailable")))
  | .token req => s.arrive (.requesting req)
  | .takeCode n req outcome => takeCode s n req outcome
  | .check n req verifier code now =>
      match checkCode sha256 req verifier code now with
      | .error refusal => s.answer ⟨n, .checking req verifier code⟩ (.token (.error refusal))
      | .ok () => s.become ⟨n, .checking req verifier code⟩ (.minting req verifier code now)
  | .saveToken n req verifier code checkedAt token now stored =>
      let record := newToken config code token now
      if stored then
        { s with
          tokens := s.tokens.insert record.token record
          log := .granted ⟨n, req, verifier, code, checkedAt, record⟩ :: s.log }.answer
            ⟨n, .minting req verifier code checkedAt⟩ (.token (.ok (tokenResponse config record)))
      else
        s.answer ⟨n, .minting req verifier code checkedAt⟩ (.token (.error .internalServerError))
  | .drop p => { s with pool := Pool.replace s.pool p [] }

/-- One step: its request is in progress and what it draws is new. -/
def step (s : AuthState) (e : AuthStep) : Option AuthState :=
  if (∀ p ∈ e.agent, p ∈ s.pool) ∧ e.draws.Nodup ∧ ∀ id ∈ e.draws, id ∉ s.drawn then
    some { act config sha256 s e with drawn := e.draws ++ s.drawn }
  else none

theorem step_eq_some {s t : AuthState} {e : AuthStep} (taken : step config sha256 s e = some t) :
    (∀ p, e.agent = some p → p ∈ s.pool) ∧ (∀ id ∈ e.draws, id ∉ s.drawn) ∧
      t = { act config sha256 s e with drawn := e.draws ++ s.drawn } := by
  unfold step at taken
  split at taken
  · rename_i enabled
    exact ⟨fun p is => enabled.1 p is, enabled.2.2, (Option.some.inj taken).symm⟩
  · cases taken

end Steps

/-! ## What a step can do -/

/-- The code a request in progress carries. -/
def InProgress.code (p : InProgress) : Option AuthorizationCode :=
  match p.stage with
  | .savingCode _ code | .checking _ _ code | .minting _ _ code _ => some code
  | .registering _ | .authorizing _ | .requesting _ => none

/-- The checks of `token` passed. -/
structure Passed (sha256 : List UInt8 → List UInt8) (req : TokenRequest) (verifier : String)
    (code : AuthorizationCode) (now : Nat) : Prop where
  inTime : now ≤ code.expiresAt
  challenge : s256 sha256 verifier = code.codeChallenge
  client : ∀ clientId ∈ req.clientId, clientId = code.clientId
  uri : ∀ redirectUri ∈ req.redirectUri, redirectUri = code.redirectUri

/-- What the accepted request asked for is what the client and the code have. -/
structure Authorization.Proper (a : Authorization) : Prop where
  uri : a.query.redirectUri ∈ a.client.redirectUris
  challenge : a.query.codeChallenge = some a.code.codeChallenge
  clientId : a.code.clientId = a.query.clientId

theorem newClient_eq_ok {config : OAuthConfig} {req : RegistrationRequest} {clientId secret : String}
    {now : Nat} {client : RegisteredClient}
    (accepted : newClient config req clientId secret now = .ok client) :
    client.clientId = clientId := by
  unfold newClient at accepted
  split at accepted
  · cases accepted
  · cases accepted
    rfl

theorem newCode_eq_ok {config : OAuthConfig} {query : AuthorizeQuery} {client : RegisteredClient}
    {id : String} {now : Nat} {code : AuthorizationCode}
    (accepted : newCode config query client id now = .ok code) :
    code.code = id ∧ Authorization.Proper ⟨query, client, code⟩ := by
  unfold newCode at accepted
  split at accepted
  · cases accepted
  · rename_i listed
    split at accepted
    · cases accepted
    · rename_i challenge sent
      split at accepted
      · cases accepted
      · cases accepted
        exact ⟨rfl, not_not.mp listed, sent, rfl⟩

theorem checkCode_eq_ok {sha256 : List UInt8 → List UInt8} {req : TokenRequest}
    {verifier : String} {code : AuthorizationCode} {now : Nat}
    (accepted : checkCode sha256 req verifier code now = .ok ()) :
    Passed sha256 req verifier code now := by
  unfold checkCode at accepted
  split at accepted
  · cases accepted
  · rename_i not_expired
    split at accepted
    · cases accepted
    · rename_i same_challenge
      split at accepted
      · cases accepted
      · rename_i same_client
        split at accepted
        · cases accepted
        · rename_i same_uri
          refine ⟨Nat.not_lt.mp not_expired, not_not.mp same_challenge, fun id sent => ?_,
            fun uri sent => ?_⟩
          · exact not_not.mp fun other => same_client ⟨id, sent, other⟩
          · exact not_not.mp fun other => same_uri ⟨uri, sent, other⟩

/-- The effects of the steps, those that change the same things under one name. -/
inductive Effect (config : OAuthConfig) (sha256 : List UInt8 → List UInt8) (s : AuthState) :
    List String → AuthState → Prop
  | arrive (stage : Stage) (no_code : InProgress.code ⟨s.nextRequest, stage⟩ = none) :
      Effect config sha256 s [] (s.arrive stage)
  | drop {p : InProgress} (mem : p ∈ s.pool) :
      Effect config sha256 s [] { s with pool := Pool.replace s.pool p [] }
  | answer {p : InProgress} (mem : p ∈ s.pool) (response : Response) (ids : List String) :
      Effect config sha256 s ids (s.answer p response)
  | saveClient {n : Nat} {req : RegistrationRequest} (mem : ⟨n, .registering req⟩ ∈ s.pool)
      {client : RegisteredClient} (secret : String) (response : RegistrationResponse) :
      Effect config sha256 s [client.clientId, secret]
        ({ s with
          clients := s.clients.insert client.clientId client
          log := .registered client :: s.log }.answer ⟨n, .registering req⟩
            (.registration (.ok response)))
  | authorized {n : Nat} {query : AuthorizeQuery} (mem : ⟨n, .authorizing query⟩ ∈ s.pool)
      {client : RegisteredClient} (found : s.clients.lookup query.clientId = some client)
      {code : AuthorizationCode} (proper : Authorization.Proper ⟨query, client, code⟩) :
      Effect config sha256 s [code.code]
        ({ s with log := .authorized ⟨query, client, code⟩ :: s.log }.become
          ⟨n, .authorizing query⟩ (.savingCode query code))
  | saveCode {n : Nat} {query : AuthorizeQuery} {code : AuthorizationCode}
      (mem : ⟨n, .savingCode query code⟩ ∈ s.pool) (location : String) :
      Effect config sha256 s []
        ({ s with codes := s.codes.insert code.code code }.answer ⟨n, .savingCode query code⟩
          (.redirect (.ok location)))
  | taken {n : Nat} {req : TokenRequest} (mem : ⟨n, .requesting req⟩ ∈ s.pool) {id : String}
      (presented : req.code = some id) {verifier : String}
      (sent : req.codeVerifier = some verifier) {code : AuthorizationCode}
      (found : s.codes.lookup id = some code) :
      Effect config sha256 s []
        ({ s with codes := s.codes.erase id }.become ⟨n, .requesting req⟩
          (.checking req verifier code))
  | lost {n : Nat} {req : TokenRequest} (mem : ⟨n, .requesting req⟩ ∈ s.pool) (id : String) :
      Effect config sha256 s []
        ({ s with codes := s.codes.erase id }.answer ⟨n, .requesting req⟩
          (.token (.error .internalServerError)))
  | checked {n : Nat} {req : TokenRequest} {verifier : String} {code : AuthorizationCode}
      (mem : ⟨n, .checking req verifier code⟩ ∈ s.pool) {now : Nat}
      (passed : Passed sha256 req verifier code now) :
      Effect config sha256 s []
        (s.become ⟨n, .checking req verifier code⟩ (.minting req verifier code now))
  | saveToken {n : Nat} {req : TokenRequest} {verifier : String} {code : AuthorizationCode}
      {checkedAt : Nat} (mem : ⟨n, .minting req verifier code checkedAt⟩ ∈ s.pool)
      (token : String) (now : Nat) (response : TokenResponse) :
      Effect config sha256 s [token]
        ({ s with
          tokens := s.tokens.insert token (newToken config code token now)
          log := .granted ⟨n, req, verifier, code, checkedAt, newToken config code token now⟩ ::
            s.log }.answer ⟨n, .minting req verifier code checkedAt⟩ (.token (.ok response)))

theorem getClient_effect {config : OAuthConfig} (sha256 : List UInt8 → List UInt8) {s : AuthState}
    {n : Nat} {query : AuthorizeQuery} (mem : ⟨n, .authorizing query⟩ ∈ s.pool) (id : String)
    (now : Nat) (stored : Bool) :
    Effect config sha256 s [id] (getClient config s n query id now stored) := by
  unfold getClient
  dsimp only
  split
  · exact .answer mem _ _
  · split
    · exact .answer mem _ _
    · split
      · exact .answer mem _ _
      · rename_i client found
        split
        · exact .answer mem _ _
        · rename_i code accepted
          obtain ⟨rfl, proper⟩ := newCode_eq_ok accepted
          exact .authorized mem found proper

theorem takeCode_effect (config : OAuthConfig) (sha256 : List UInt8 → List UInt8) {s : AuthState}
    {n : Nat} {req : TokenRequest} (mem : ⟨n, .requesting req⟩ ∈ s.pool) (outcome : TakeOutcome) :
    Effect config sha256 s [] (takeCode s n req outcome) := by
  unfold takeCode
  dsimp only
  split
  · exact .answer mem _ _
  · split
    · rename_i id verifier presented sent
      cases outcome with
      | answered =>
          dsimp only
          split
          · rename_i code found
            exact .taken mem presented sent found
          · exact .answer mem _ _
      | failed => exact .answer mem _ _
      | lost => exact .lost mem id
    · exact .answer mem _ _

/-- Every step has one of the effects. -/
theorem act_effect (config : OAuthConfig) (sha256 : List UInt8 → List UInt8) {s : AuthState}
    {e : AuthStep} (there : ∀ p, e.agent = some p → p ∈ s.pool) :
    Effect config sha256 s e.draws (act config sha256 s e) := by
  cases e with
  | register req => exact .arrive _ rfl
  | saveClient n req clientId secret now stored =>
      simp only [act, AuthStep.draws]
      split
      · exact .answer (there _ rfl) _ _
      · rename_i client accepted
        obtain rfl := newClient_eq_ok accepted
        split
        · exact .saveClient (there _ rfl) secret _
        · exact .answer (there _ rfl) _ _
  | authorize query => exact .arrive _ rfl
  | getClient n query code now stored => exact getClient_effect sha256 (there _ rfl) code now stored
  | saveCode n query code stored =>
      simp only [act, AuthStep.draws]
      split
      · exact .saveCode (there _ rfl) _
      · exact .answer (there _ rfl) _ _
  | token req => exact .arrive _ rfl
  | takeCode n req outcome => exact takeCode_effect config sha256 (there _ rfl) outcome
  | check n req verifier code now =>
      simp only [act, AuthStep.draws]
      split
      · exact .answer (there _ rfl) _ _
      · rename_i accepted
        exact .checked (there _ rfl) (checkCode_eq_ok accepted)
  | saveToken n req verifier code checkedAt id now stored =>
      simp only [act, AuthStep.draws]
      split
      · exact .saveToken (there _ rfl) id now _
      · exact .answer (there _ rfl) _ _
  | drop p => exact .drop (there _ rfl)

end Ministr.Auth
