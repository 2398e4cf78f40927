/-
# Auth.Scope — the scope a token is accepted for

A scope travels as a string: `register_client` keeps what the client asked for (all the
supported scopes when it asked for none), `authorize` puts the scope of the request into
the code, `token` copies it into the access token, and `validate_token_with_scope` looks
for an entry there.  `authorize` compares the redirect URI with the registration, but not
the scope, so a client is accepted for whatever it wrote into the authorize request.

`scope_contained` says that this is the only way out: as long as every authorize request
that is accepted asks for registered entries only, no token is accepted for another one.
-/
import Ministr.Auth.GrantSafe
import Ministr.Content.Document

namespace Ministr.Auth

open Ministr.Theory Ministr.Content

set_option autoImplicit false

/-! ## Validation -/

/-- `validate_token_with_scope`; a storage error is a refusal. -/
def validateTokenWithScope (s : AuthState) (token requiredScope : String) (now : Nat)
    (stored : Bool) : Option String :=
  if stored = false then none
  else
    match s.tokens.lookup token with
    | some access =>
        if now ≤ access.expiresAt then
          if requiredScope ∈ splitWhitespace access.scope then some access.clientId else none
        else none
    | none => none

/-- The scope a registration stands for. -/
def RegistrationRequest.registeredScope (config : OAuthConfig) (req : RegistrationRequest) :
    String :=
  req.scope.getD (" ".intercalate config.scopesSupported)

/-- Whoever a token is accepted for has registered the entry it is accepted with. -/
def ScopeContained (config : OAuthConfig) (s : AuthState) : Prop :=
  ∀ token requiredScope now stored clientId,
    validateTokenWithScope s token requiredScope now stored = some clientId →
    ∃ client req secret registeredAt, s.clients.lookup clientId = some client ∧
      newClient config req clientId secret registeredAt = .ok client ∧
      requiredScope ∈ splitWhitespace (req.registeredScope config)

/-- An authorize request that is accepted asks for entries of the client's scope only. -/
def AsksWithin (config : OAuthConfig) (s : AuthState) : AuthStep → Prop
  | .getClient _ query code now stored =>
      query.responseType = "code" → stored = true →
      ∀ client ∈ s.clients.lookup query.clientId, (newCode config query client code now).isOk →
        ∀ entry ∈ splitWhitespace (query.scope.getD ""), entry ∈ splitWhitespace client.scope
  | _ => True

theorem validateTokenWithScope_eq_some {s : AuthState} {token requiredScope : String} {now : Nat}
    {stored : Bool} {clientId : String}
    (accepted : validateTokenWithScope s token requiredScope now stored = some clientId) :
    ∃ access, s.tokens.lookup token = some access ∧ access.clientId = clientId ∧
      requiredScope ∈ splitWhitespace access.scope := by
  unfold validateTokenWithScope at accepted
  split at accepted
  · cases accepted
  · split at accepted
    · rename_i access found
      split at accepted
      · split at accepted
        · rename_i listed
          exact ⟨access, found, Option.some.inj accepted, listed⟩
        · cases accepted
      · cases accepted
    · cases accepted

theorem newClient_scope {config : OAuthConfig} {req : RegistrationRequest}
    {clientId secret : String} {now : Nat} {client : RegisteredClient}
    (accepted : newClient config req clientId secret now = .ok client) :
    client.scope = req.registeredScope config := by
  unfold newClient at accepted
  split at accepted
  · cases accepted
  · cases accepted
    rfl

theorem newCode_scope {config : OAuthConfig} {query : AuthorizeQuery} {client : RegisteredClient}
    {id : String} {now : Nat} {code : AuthorizationCode}
    (accepted : newCode config query client id now = .ok code) :
    code.scope = query.scope.getD "" := by
  unfold newCode at accepted
  split at accepted
  · cases accepted
  · split at accepted
    · cases accepted
    · split at accepted
      · cases accepted
      · cases accepted
        rfl

/-! ## Where clients, authorizations and tokens come from -/

section Sources

variable (config : OAuthConfig) (sha256 : List UInt8 → List UInt8) (s : AuthState) (e : AuthStep)

theorem act_clients :
    (act config sha256 s e).clients = s.clients ∨
      ∃ n req clientId secret now client, e = .saveClient n req clientId secret now true ∧
        newClient config req clientId secret now = .ok client ∧
        (act config sha256 s e).clients = s.clients.insert clientId client := by
  cases e with
  | saveClient n req clientId secret now stored =>
      simp only [act]
      split
      · exact .inl rfl
      · rename_i client accepted
        obtain rfl := newClient_eq_ok accepted
        cases stored with
        | false => exact .inl rfl
        | true => exact .inr ⟨n, req, _, secret, now, client, rfl, accepted, rfl⟩
  | getClient n query code now stored =>
      left
      simp only [act, getClient]
      repeat' split
      all_goals rfl
  | takeCode n req outcome =>
      left
      simp only [act, takeCode]
      repeat' split
      all_goals rfl
  | saveCode n query code stored =>
      left
      simp only [act]
      split <;> rfl
  | check n req verifier code now =>
      left
      simp only [act]
      split <;> rfl
  | saveToken n req verifier code checkedAt token now stored =>
      left
      simp only [act]
      split <;> rfl
  | _ => exact .inl rfl

theorem act_authorized {a : Authorization} (mem : .authorized a ∈ (act config sha256 s e).log) :
    .authorized a ∈ s.log ∨
      ∃ n code now, e = .getClient n a.query code now true ∧ a.query.responseType = "code" ∧
        s.clients.lookup a.query.clientId = some a.client ∧
        newCode config a.query a.client code now = .ok a.code := by
  cases e with
  | getClient n query code now stored =>
      simp only [act, getClient] at mem
      split at mem
      · exact .inl (by simpa [AuthState.answer] using mem)
      · rename_i asks
        split at mem
        · exact .inl (by simpa [AuthState.answer] using mem)
        · rename_i reached
          split at mem
          · exact .inl (by simpa [AuthState.answer] using mem)
          · rename_i client found
            split at mem
            · exact .inl (by simpa [AuthState.answer] using mem)
            · rename_i authCode accepted
              rcases List.mem_cons.mp mem with is | old
              · cases is
                rw [Bool.not_eq_false] at reached
                subst reached
                exact .inr ⟨n, code, now, rfl, not_not.mp asks, found, accepted⟩
              · exact .inl old
  | saveClient n req clientId secret now stored =>
      left
      simp only [act] at mem
      repeat' split at mem
      all_goals simpa [AuthState.answer] using mem
  | takeCode n req outcome =>
      left
      simp only [act, takeCode] at mem
      repeat' split at mem
      all_goals simpa [AuthState.answer, AuthState.become] using mem
  | saveCode n query code stored =>
      left
      simp only [act] at mem
      split at mem <;> simpa [AuthState.answer] using mem
  | check n req verifier code now =>
      left
      simp only [act] at mem
      split at mem <;> simpa [AuthState.answer, AuthState.become] using mem
  | saveToken n req verifier code checkedAt token now stored =>
      left
      simp only [act] at mem
      split at mem <;> simpa [AuthState.answer] using mem
  | register _ => exact .inl mem
  | authorize _ => exact .inl mem
  | token _ => exact .inl mem
  | drop _ => exact .inl mem

end Sources

/-! ## The invariant -/

/-- What every step keeps that asks within the registration. -/
structure Limited (config : OAuthConfig) (sha256 : List UInt8 → List UInt8) (s : AuthState) :
    Prop where
  recorded : Recorded sha256 s
  drawn : ∀ id client, s.clients.lookup id = some client → id ∈ s.drawn
  clients : ∀ id client, s.clients.lookup id = some client →
    ∃ req secret now, newClient config req id secret now = .ok client
  within : ∀ a, .authorized a ∈ s.log → s.clients.lookup a.query.clientId = some a.client ∧
    ∀ entry ∈ splitWhitespace a.code.scope, entry ∈ splitWhitespace a.client.scope
  tokens : ∀ id access, s.tokens.lookup id = some access → ∃ a, .authorized a ∈ s.log ∧
    access.clientId = a.query.clientId ∧ access.scope = a.code.scope

section Limited

variable {config : OAuthConfig} {sha256 : List UInt8 → List UInt8} {s t : AuthState} {e : AuthStep}

theorem limited_start (config : OAuthConfig) (sha256 : List UInt8 → List UInt8) :
    Limited config sha256 {} where
  recorded := (sound_start sha256).recorded
  drawn := fun id client found => by cases found
  clients := fun id client found => by cases found
  within := fun a mem => by cases mem
  tokens := fun id access found => by cases found

/-- A client stays as it was registered: its id is not drawn again. -/
theorem Limited.client_stays (limited : Limited config sha256 s) (fresh : ∀ id ∈ e.draws, id ∉ s.drawn)
    {id : String} {client : RegisteredClient} (found : s.clients.lookup id = some client) :
    (act config sha256 s e).clients.lookup id = some client := by
  rcases act_clients config sha256 s e with same | ⟨n, req, clientId, secret, now, _, rfl, -, same⟩
  · rw [same, found]
  · rw [same, Rows.lookup_insert_if]
    split
    · rename_i again
      subst again
      exact absurd (limited.drawn _ client found) (fresh _ List.mem_cons_self)
    · exact found

theorem Limited.clients_act (limited : Limited config sha256 s) {id : String}
    {client : RegisteredClient}
    (found : (act config sha256 s e).clients.lookup id = some client) :
    id ∈ e.draws ++ s.drawn ∧ ∃ req secret now, newClient config req id secret now = .ok client := by
  rcases act_clients config sha256 s e with same | ⟨n, req, clientId, secret, now, _, rfl, new, same⟩
  · rw [same] at found
    exact ⟨List.mem_append_right _ (limited.drawn id client found), limited.clients id client found⟩
  · rw [same, Rows.lookup_insert_if] at found
    split at found
    · rename_i is
      subst is
      cases found
      exact ⟨List.mem_append_left _ List.mem_cons_self, req, secret, now, new⟩
    · exact ⟨List.mem_append_right _ (limited.drawn id client found), limited.clients id client found⟩

theorem Limited.within_act (limited : Limited config sha256 s) (asks : AsksWithin config s e)
    {a : Authorization} (mem : .authorized a ∈ (act config sha256 s e).log) :
    s.clients.lookup a.query.clientId = some a.client ∧
      ∀ entry ∈ splitWhitespace a.code.scope, entry ∈ splitWhitespace a.client.scope := by
  rcases act_authorized config sha256 s e mem with
    old | ⟨n, code, now, rfl, responseType, found, accepted⟩
  · exact limited.within a old
  · refine ⟨found, ?_⟩
    rw [newCode_scope accepted]
    exact asks responseType rfl a.client found (by rw [accepted]; rfl)

/-- A token carries the client and the scope of the code it was granted for. -/
theorem Limited.tokens_effect (limited : Limited config sha256 s) {ids : List String}
    (effect : Effect config sha256 s ids t) {id : String} {access : AccessToken}
    (found : t.tokens.lookup id = some access) :
    ∃ a, .authorized a ∈ t.log ∧ access.clientId = a.query.clientId ∧
      access.scope = a.code.scope := by
  have kept : ∀ id access, s.tokens.lookup id = some access → ∃ a, .authorized a ∈ t.log ∧
      access.clientId = a.query.clientId ∧ access.scope = a.code.scope := by
    intro id access found
    obtain ⟨a, mem, carries⟩ := limited.tokens id access found
    exact ⟨a, effect.log_mono mem, carries⟩
  have grown := fun e : AuthEvent => effect.log_mono (e := e)
  cases effect with
  | saveToken mem token now response =>
      rename_i n req verifier code checkedAt
      change (s.tokens.insert token (newToken config code token now)).lookup id = some access
        at found
      rw [Rows.lookup_insert_if] at found
      split at found
      · cases found
        obtain ⟨a, logged, rfl⟩ := (limited.recorded.pool _ mem).code code rfl
        obtain ⟨-, -, -, -, -, proper⟩ := limited.recorded.lawful.authorized logged
        exact ⟨a, grown _ logged, proper.clientId, rfl⟩
      · exact kept id access found
  | _ => exact kept id access found

theorem Limited.after_step (limited : Limited config sha256 s) (asks : AsksWithin config s e)
    (taken : step config sha256 s e = some t) : Limited config sha256 t := by
  have recorded := limited.recorded.after_step taken
  obtain ⟨there, fresh, rfl⟩ := step_eq_some config sha256 taken
  refine ⟨recorded, fun id client found => ?_, fun id client found => ?_, fun a mem => ?_,
    fun id access found => ?_⟩
  · exact (limited.clients_act found).1
  · exact (limited.clients_act found).2
  · obtain ⟨found, within⟩ := limited.within_act asks mem
    exact ⟨limited.client_stays fresh found, within⟩
  · exact limited.tokens_effect (act_effect config sha256 there) found

theorem Limited.contained (limited : Limited config sha256 s) : ScopeContained config s := by
  intro token requiredScope now stored clientId accepted
  obtain ⟨access, found, rfl, listed⟩ := validateTokenWithScope_eq_some accepted
  obtain ⟨a, logged, carries, scope⟩ := limited.tokens token access found
  obtain ⟨stays, within⟩ := limited.within a logged
  obtain ⟨req, secret, registeredAt, new⟩ := limited.clients _ _ stays
  rw [carries]
  refine ⟨a.client, req, secret, registeredAt, stays, new, ?_⟩
  rw [← newClient_scope new]
  exact within _ (scope ▸ listed)

end Limited

/-- **No token is accepted outside the registration** in a run whose accepted authorize
requests ask for registered entries only. -/
theorem scope_contained (config : OAuthConfig) (sha256 : List UInt8 → List UInt8)
    (steps : List AuthStep) (asks : EachStep (step config sha256) (AsksWithin config) {} steps) :
    Throughout (step config sha256) (ScopeContained config) {} steps :=
  (throughout_of_eachStep (fun _ _ _ limited asks taken => Limited.after_step limited asks taken)
    (limited_start config sha256) asks).imp fun _ limited => limited.contained

/-! ## Asking for more -/

/-- A client registers `registered` and redeems an authorize request for `asked`. -/
def redemption (registered asked : String) : List AuthStep :=
  let query : AuthorizeQuery :=
    { responseType := "code", clientId := "c", redirectUri := "u", scope := some asked,
      codeChallenge := some "dg" }
  let code : AuthorizationCode := ⟨"k", "c", "u", asked, "dg", "S256", 600⟩
  let req : TokenRequest :=
    { grantType := "authorization_code", code := some "k", codeVerifier := some "v" }
  [.register ⟨["u"], none, some registered, none⟩,
    .saveClient 0 ⟨["u"], none, some registered, none⟩ "c" "x" 0 true,
    .authorize query, .getClient 1 query "k" 0 true, .saveCode 1 query code true,
    .token req, .takeCode 2 req .answered, .check 2 req "v" code 600,
    .saveToken 2 req "v" code 600 "t" 600 true]

def twoScopes : OAuthConfig := ⟨"i", ["read", "admin"], 3600, 600⟩

instance (config : OAuthConfig) (s : AuthState) (e : AuthStep) : Decidable (AsksWithin config s e) :=
  match e with
  | .getClient _ query code now stored =>
      inferInstanceAs (Decidable (query.responseType = "code" → stored = true →
        ∀ client ∈ s.clients.lookup query.clientId, (newCode config query client code now).isOk →
          ∀ entry ∈ splitWhitespace (query.scope.getD ""), entry ∈ splitWhitespace client.scope))
  | .register _ | .saveClient _ _ _ _ _ _ | .authorize _ | .saveCode _ _ _ _ | .token _
  | .takeCode _ _ _ | .check _ _ _ _ _ | .saveToken _ _ _ _ _ _ _ _ | .drop _ => isTrue trivial

/-- A client that asks for one of its two entries. -/
theorem scope_contained_oneEntry :
    EachStep (step twoScopes id) (AsksWithin twoScopes) {} (redemption "read write" "read") ∧
      Throughout (step twoScopes id) (ScopeContained twoScopes) {}
        (redemption "read write" "read") := by
  have asks : EachStep (step twoScopes id) (AsksWithin twoScopes) {}
      (redemption "read write" "read") := by decide
  exact ⟨asks, scope_contained _ _ _ asks⟩

/-- A client that registered `read` is accepted for `admin`. -/
theorem unregistered_scope_accepted :
    ¬ ∀ config sha256 steps, Throughout (step config sha256) (ScopeContained config) {} steps := by
  intro contained
  have observed : (exec (step twoScopes id) {} (redemption "read" "admin")).map (fun s =>
      (validateTokenWithScope s "t" "admin" 600 true,
        (s.clients.lookup "c").map RegisteredClient.scope)) =
      some (some "c", some "read") := by decide
  obtain ⟨s, ran, seen⟩ := Option.map_eq_some_iff.mp observed
  obtain ⟨accepted, registered⟩ := Prod.mk.inj seen
  obtain ⟨client, req, secret, registeredAt, found, new, listed⟩ :=
    (contained _ _ _).last ran "t" "admin" 600 true "c" accepted
  rw [found, Option.map_some, Option.some.injEq] at registered
  rw [← newClient_scope new, registered] at listed
  revert listed
  decide

end Ministr.Auth
