/-
# Auth.GrantSafe — every token was earned

Three invariants carry the argument.

* `Recorded`: what the store and the requests in progress hold is in the log, and every
  grant in the log follows the authorization it was earned by (`Lawful`).
* `Linear`: a code is in one place at most: in the store, with a request in progress, or
  in a grant.  Taking it is atomic, and a code that was drawn is never drawn again.
* `Numbered`: a request that was answered or granted is no longer in progress, so no
  request is both refused and granted.

`grant_safe` reads the guarantees of the code grant off them.
-/
import Ministr.Auth.Endpoints

namespace Ministr.Auth

open Ministr.Theory

set_option autoImplicit false

/-! ## Reading the log -/

def grants (log : List AuthEvent) : List Grant :=
  log.filterMap fun e => match e with
    | .granted g => some g
    | _ => none

def authorizations (log : List AuthEvent) : List Authorization :=
  log.filterMap fun e => match e with
    | .authorized a => some a
    | _ => none

@[simp] theorem grants_nil : grants [] = [] := rfl

@[simp] theorem grants_granted (g : Grant) (log : List AuthEvent) :
    grants (.granted g :: log) = g :: grants log := rfl

@[simp] theorem grants_registered (client : RegisteredClient) (log : List AuthEvent) :
    grants (.registered client :: log) = grants log := rfl

@[simp] theorem grants_authorized (a : Authorization) (log : List AuthEvent) :
    grants (.authorized a :: log) = grants log := rfl

@[simp] theorem grants_answered (n : Nat) (response : Response) (log : List AuthEvent) :
    grants (.answered n response :: log) = grants log := rfl

theorem mem_grants {log : List AuthEvent} {g : Grant} : g ∈ grants log ↔ .granted g ∈ log := by
  unfold grants
  rw [List.mem_filterMap]
  constructor
  · rintro ⟨e, mem, is⟩
    cases e <;> cases is
    exact mem
  · exact fun mem => ⟨_, mem, rfl⟩

/-- The grant is what the authorization allows. -/
structure Earned (sha256 : List UInt8 → List UInt8) (a : Authorization) (g : Grant) : Prop where
  code : g.code = a.code
  client : a.client.clientId = a.query.clientId
  uri : a.query.redirectUri ∈ a.client.redirectUris
  presented : g.presented.code = some a.code.code
  verifier : g.presented.codeVerifier = some g.verifier
  challenge : a.query.codeChallenge = some (s256 sha256 g.verifier)
  inTime : g.checkedAt ≤ a.code.expiresAt
  carries : g.token.clientId = a.query.clientId

/-- Clients are registered before they are authorized, and grants are earned. -/
def Lawful (sha256 : List UInt8 → List UInt8) : List AuthEvent → Prop
  | [] => True
  | .authorized a :: older =>
      (.registered a.client ∈ older ∧ a.client.clientId = a.query.clientId ∧ a.Proper) ∧
        Lawful sha256 older
  | .granted g :: older =>
      (∃ a, .authorized a ∈ older ∧ Earned sha256 a g) ∧ Lawful sha256 older
  | .registered _ :: older | .answered _ _ :: older => Lawful sha256 older

theorem Lawful.tail {sha256 : List UInt8 → List UInt8} {e : AuthEvent} {log : List AuthEvent}
    (lawful : Lawful sha256 (e :: log)) : Lawful sha256 log := by
  cases e with
  | registered _ => exact lawful
  | authorized _ => exact lawful.2
  | granted _ => exact lawful.2
  | answered _ _ => exact lawful

theorem Lawful.older {sha256 : List UInt8 → List UInt8} {newer older : List AuthEvent}
    (lawful : Lawful sha256 (newer ++ older)) : Lawful sha256 older := by
  induction newer with
  | nil => exact lawful
  | cons e newer ih => exact ih lawful.tail

/-- An authorization in the log, with the registration before it. -/
theorem Lawful.authorized {sha256 : List UInt8 → List UInt8} {log : List AuthEvent}
    (lawful : Lawful sha256 log) {a : Authorization} (mem : .authorized a ∈ log) :
    ∃ after before, log = after ++ .authorized a :: before ∧ .registered a.client ∈ before ∧
      a.client.clientId = a.query.clientId ∧ a.Proper := by
  obtain ⟨after, before, rfl⟩ := List.append_of_mem mem
  exact ⟨after, before, rfl, lawful.older.1⟩

/-! ## What is held is in the log -/

/-- The code comes from an authorization. -/
def FromLog (log : List AuthEvent) (code : AuthorizationCode) : Prop :=
  ∃ a, .authorized a ∈ log ∧ a.code = code

/-- What has been established about a token request on its way. -/
def Vetted (sha256 : List UInt8 → List UInt8) : Stage → Prop
  | .checking req verifier code => req.code = some code.code ∧ req.codeVerifier = some verifier
  | .minting req verifier code checkedAt =>
      (req.code = some code.code ∧ req.codeVerifier = some verifier) ∧
        Passed sha256 req verifier code checkedAt
  | _ => True

structure Backed (sha256 : List UInt8 → List UInt8) (log : List AuthEvent) (p : InProgress) :
    Prop where
  code : ∀ code, p.code = some code → FromLog log code
  vetted : Vetted sha256 p.stage

structure Recorded (sha256 : List UInt8 → List UInt8) (s : AuthState) : Prop where
  clients : ∀ c client, s.clients.lookup c = some client →
    client.clientId = c ∧ .registered client ∈ s.log
  codes : ∀ c code, s.codes.lookup c = some code → code.code = c ∧ FromLog s.log code
  pool : ∀ p ∈ s.pool, Backed sha256 s.log p
  lawful : Lawful sha256 s.log
  drawn : ∀ a, .authorized a ∈ s.log → a.code.code ∈ s.drawn

section Recorded

variable {config : OAuthConfig} {sha256 : List UInt8 → List UInt8} {s t : AuthState}
  {ids : List String}

theorem Effect.log_mono (effect : Effect config sha256 s ids t) {e : AuthEvent} (mem : e ∈ s.log) :
    e ∈ t.log := by
  cases effect with
  | arrive _ _ => exact mem
  | drop _ => exact mem
  | answer _ _ _ => exact List.mem_cons_of_mem _ mem
  | saveClient _ _ _ => exact List.mem_cons_of_mem _ (List.mem_cons_of_mem _ mem)
  | authorized _ _ _ => exact List.mem_cons_of_mem _ mem
  | saveCode _ _ => exact List.mem_cons_of_mem _ mem
  | taken _ _ _ _ => exact mem
  | lost _ _ => exact List.mem_cons_of_mem _ mem
  | checked _ _ => exact mem
  | saveToken _ _ _ _ => exact List.mem_cons_of_mem _ (List.mem_cons_of_mem _ mem)

theorem Effect.fromLog_mono (effect : Effect config sha256 s ids t) {code : AuthorizationCode}
    (known : FromLog s.log code) : FromLog t.log code := by
  obtain ⟨a, mem, is⟩ := known
  exact ⟨a, effect.log_mono mem, is⟩

theorem Recorded.clients_effect (recorded : Recorded sha256 s)
    (effect : Effect config sha256 s ids t) (c : String) (client : RegisteredClient)
    (found : t.clients.lookup c = some client) :
    client.clientId = c ∧ .registered client ∈ t.log := by
  have kept : ∀ client, s.clients.lookup c = some client →
      client.clientId = c ∧ .registered client ∈ t.log := fun client found =>
    (recorded.clients c client found).imp_right effect.log_mono
  cases effect with
  | saveClient mem secret response =>
      rename_i n req client'
      change (s.clients.insert client'.clientId client').lookup c = some client at found
      rw [Rows.lookup_insert_if] at found
      split at found
      · rename_i same
        cases found
        exact ⟨same.symm, List.mem_cons_of_mem _ List.mem_cons_self⟩
      · exact kept client found
  | _ => exact kept client found

theorem Recorded.codes_effect (recorded : Recorded sha256 s)
    (effect : Effect config sha256 s ids t) (c : String) (code : AuthorizationCode)
    (found : t.codes.lookup c = some code) : code.code = c ∧ FromLog t.log code := by
  have kept : ∀ code, s.codes.lookup c = some code → code.code = c ∧ FromLog t.log code :=
    fun code found => (recorded.codes c code found).imp_right effect.fromLog_mono
  have erased : ∀ id, (s.codes.erase id).lookup c = some code →
      code.code = c ∧ FromLog t.log code := by
    intro id found
    rw [Rows.lookup_erase_if] at found
    split at found
    · cases found
    · exact kept code found
  cases effect with
  | saveCode mem location =>
      rename_i n query code'
      change (s.codes.insert code'.code code').lookup c = some code at found
      rw [Rows.lookup_insert_if] at found
      split at found
      · rename_i same
        cases found
        obtain ⟨a, logged, is⟩ := (recorded.pool _ mem).code code rfl
        exact ⟨same.symm, a, List.mem_cons_of_mem _ logged, is⟩
      · exact kept code found
  | taken mem presented sent was => exact erased _ found
  | lost mem id => exact erased _ found
  | _ => exact kept code found

theorem Recorded.pool_effect (recorded : Recorded sha256 s)
    (effect : Effect config sha256 s ids t) : ∀ p ∈ t.pool, Backed sha256 t.log p := by
  have kept : ∀ p ∈ s.pool, Backed sha256 t.log p := fun p mem =>
    ⟨fun code is => effect.fromLog_mono ((recorded.pool p mem).code code is),
      (recorded.pool p mem).vetted⟩
  -- a request that goes on is backed as it was, in its new stage
  have goes_on : ∀ {a : InProgress} {stage : Stage}, Backed sha256 t.log ⟨a.request, stage⟩ →
      ∀ p ∈ Pool.replace s.pool a [⟨a.request, stage⟩], Backed sha256 t.log p := by
    intro a stage backed p mem
    rcases Pool.mem_replace mem with new | old
    · cases List.mem_singleton.mp new
      exact backed
    · exact kept p old
  have ends : ∀ {a : InProgress}, ∀ p ∈ Pool.replace s.pool a [], Backed sha256 t.log p := by
    intro a p mem
    rcases Pool.mem_replace mem with new | old
    · cases new
    · exact kept p old
  cases effect with
  | arrive stage no_code =>
      intro p mem
      rcases List.mem_cons.mp mem with rfl | old
      · refine ⟨fun code is => ?_, ?_⟩
        · rw [no_code] at is
          cases is
        · cases stage <;> trivial
      · exact kept p old
  | authorized mem found proper =>
      refine goes_on ⟨fun code is => ?_, trivial⟩
      cases is
      exact ⟨_, List.mem_cons_self, rfl⟩
  | taken mem presented sent found =>
      obtain ⟨rfl, known⟩ := recorded.codes _ _ found
      refine goes_on ⟨fun code is => ?_, presented, sent⟩
      cases is
      exact known
  | checked mem passed =>
      have backed := kept _ mem
      exact goes_on ⟨fun code is => backed.code code is, backed.vetted, passed⟩
  | _ => exact ends

/-- The authorization that a token about to be saved is earned by. -/
theorem Recorded.earned (recorded : Recorded sha256 s) {n : Nat} {req : TokenRequest}
    {verifier : String} {code : AuthorizationCode} {checkedAt : Nat}
    (mem : ⟨n, .minting req verifier code checkedAt⟩ ∈ s.pool) (token : String) (now : Nat) :
    ∃ a, .authorized a ∈ s.log ∧
      Earned sha256 a ⟨n, req, verifier, code, checkedAt, newToken config code token now⟩ := by
  obtain ⟨known, ⟨presented, sent⟩, passed⟩ := recorded.pool _ mem
  obtain ⟨a, logged, rfl⟩ := known code rfl
  obtain ⟨-, -, -, -, client, proper⟩ := recorded.lawful.authorized logged
  exact ⟨a, logged, rfl, client, proper.uri, presented, sent,
    passed.challenge ▸ proper.challenge, passed.inTime, proper.clientId⟩

theorem Recorded.lawful_effect (recorded : Recorded sha256 s)
    (effect : Effect config sha256 s ids t) : Lawful sha256 t.log := by
  cases effect with
  | authorized mem found proper =>
      obtain ⟨client, registered⟩ := recorded.clients _ _ found
      exact ⟨⟨registered, client, proper⟩, recorded.lawful⟩
  | saveToken mem token now response => exact ⟨recorded.earned mem token now, recorded.lawful⟩
  | _ => exact recorded.lawful

theorem Recorded.drawn_effect (recorded : Recorded sha256 s)
    (effect : Effect config sha256 s ids t) (a : Authorization) (mem : .authorized a ∈ t.log) :
    a.code.code ∈ ids ++ s.drawn := by
  have old : .authorized a ∈ s.log → a.code.code ∈ ids ++ s.drawn := fun mem =>
    List.mem_append_right _ (recorded.drawn a mem)
  cases effect with
  | arrive _ _ => exact old mem
  | drop _ => exact old mem
  | authorized _ _ _ =>
      rcases List.mem_cons.mp mem with is | earlier
      · cases is
        exact List.mem_append_left _ List.mem_cons_self
      · exact old earlier
  | taken _ _ _ _ => exact old mem
  | checked _ _ => exact old mem
  | _ => exact old (by simpa [AuthState.answer] using mem)

theorem Recorded.after_step (recorded : Recorded sha256 s) {e : AuthStep}
    (taken : step config sha256 s e = some t) : Recorded sha256 t := by
  obtain ⟨there, -, rfl⟩ := step_eq_some config sha256 taken
  have effect := act_effect config sha256 there
  have clients := recorded.clients_effect effect
  have codes := recorded.codes_effect effect
  have pool := recorded.pool_effect effect
  have lawful := recorded.lawful_effect effect
  have drawn := recorded.drawn_effect effect
  exact ⟨clients, codes, pool, lawful, drawn⟩

end Recorded

/-! ## A code is in one place -/

/-- The request carries the code. -/
def InProgress.carries (c : String) (p : InProgress) : Bool := p.code.any fun code => code.code = c

/-- How often the code is in the store. -/
def inStore (codes : Rows String AuthorizationCode) (c : String) : Nat :=
  if c ∈ codes then 1 else 0

/-- Where the code is: in the store, with requests in progress, in grants. -/
def places (s : AuthState) (c : String) : Nat :=
  inStore s.codes c + s.pool.countP (InProgress.carries c) +
    (grants s.log).countP fun g => g.code.code = c

theorem inStore_insert (codes : Rows String AuthorizationCode) (id c : String)
    (code : AuthorizationCode) :
    inStore (codes.insert id code) c = if id = c then 1 else inStore codes c := by
  unfold inStore
  by_cases same : id = c
  · simp [same]
  · simp [same, Ne.symm same]

theorem inStore_erase (codes : Rows String AuthorizationCode) (id c : String) :
    inStore (codes.erase id) c = if id = c then 0 else inStore codes c := by
  unfold inStore
  by_cases same : id = c
  · simp [same]
  · simp [same, Ne.symm same]

theorem inStore_of_lookup {codes : Rows String AuthorizationCode} {c : String}
    {code : AuthorizationCode} (found : codes.lookup c = some code) : inStore codes c = 1 :=
  if_pos ((Rows.mem_iff_lookup _ _).mpr ⟨code, found⟩)

section Linear

variable {config : OAuthConfig} {sha256 : List UInt8 → List UInt8} {s t : AuthState}
  {ids : List String}

/-- A code that was not drawn is nowhere. -/
theorem Recorded.places_eq_zero (recorded : Recorded sha256 s) {c : String}
    (fresh : c ∉ s.drawn) : places s c = 0 := by
  have unknown : ∀ code, FromLog s.log code → code.code ≠ c := by
    rintro code ⟨a, mem, rfl⟩ rfl
    exact fresh (recorded.drawn a mem)
  have stored : c ∉ s.codes := fun mem => by
    obtain ⟨code, found⟩ := (Rows.mem_iff_lookup _ _).mp mem
    obtain ⟨is, known⟩ := recorded.codes c code found
    exact unknown code known is
  have carried : s.pool.countP (InProgress.carries c) = 0 := by
    rw [List.countP_eq_zero]
    intro p mem carries
    obtain ⟨code, is, same⟩ := (Option.any_eq_true _ _).mp carries
    exact unknown code ((recorded.pool p mem).code code is) (of_decide_eq_true same)
  have granted : (grants s.log).countP (fun g => g.code.code = c) = 0 := by
    rw [List.countP_eq_zero]
    intro g mem same
    obtain ⟨newer, older, is⟩ := List.append_of_mem (mem_grants.mp mem)
    obtain ⟨a, logged, earned⟩ := (is ▸ recorded.lawful).older.1
    refine unknown a.code ⟨a, ?_, rfl⟩ (earned.code ▸ of_decide_eq_true same)
    rw [is]
    exact List.mem_append_right _ (List.mem_cons_of_mem _ logged)
  rw [places, inStore, if_neg stored, carried, granted]

/-- A request that ends takes its code out of the pool. -/
theorem carried_ends {pool : List InProgress} {p : InProgress} (mem : p ∈ pool) (c : String) :
    (Pool.replace pool p []).countP (InProgress.carries c) + (if p.carries c then 1 else 0) =
      pool.countP (InProgress.carries c) := by
  have count := Pool.countP_replace mem [] (InProgress.carries c)
  rwa [List.countP_nil, Nat.zero_add] at count

/-- A request that goes on carries the code of its new stage. -/
theorem carried_goes_on {pool : List InProgress} {p : InProgress} (mem : p ∈ pool)
    (q : InProgress) (c : String) :
    (Pool.replace pool p [q]).countP (InProgress.carries c) + (if p.carries c then 1 else 0) =
      (if q.carries c then 1 else 0) + pool.countP (InProgress.carries c) := by
  have count := Pool.countP_replace mem [q] (InProgress.carries c)
  rwa [List.countP_singleton] at count

/-- No step puts a code in more places than it was, unless it draws it. -/
theorem Recorded.places_effect (recorded : Recorded sha256 s)
    (effect : Effect config sha256 s ids t) (fresh : ∀ id ∈ ids, id ∉ s.drawn) {c : String}
    (single : places s c ≤ 1) : places t c ≤ 1 := by
  unfold places at single
  cases effect with
  | arrive stage no_code =>
      have none : InProgress.carries c ⟨s.nextRequest, stage⟩ = false := by
        rw [InProgress.carries, no_code]
        rfl
      show inStore s.codes c + (_ :: s.pool).countP (InProgress.carries c) +
        (grants s.log).countP _ ≤ 1
      rw [List.countP_cons, none]
      simpa using single
  | drop mem =>
      have count := carried_ends mem c
      show inStore s.codes c + _ + _ ≤ 1
      dsimp only
      omega
  | answer mem response =>
      have count := carried_ends mem c
      show inStore s.codes c + _ + (grants s.log).countP _ ≤ 1
      dsimp only [AuthState.answer]
      omega
  | saveClient mem secret response =>
      have count := carried_ends mem c
      show inStore s.codes c + _ + (grants s.log).countP _ ≤ 1
      dsimp only [AuthState.answer]
      omega
  | authorized mem found proper =>
      rename_i n query client code
      have count := carried_goes_on mem ⟨n, .savingCode query code⟩ c
      show inStore s.codes c + _ + (grants s.log).countP _ ≤ 1
      dsimp only [AuthState.become]
      by_cases same : code.code = c
      · subst same
        have zero := recorded.places_eq_zero (fresh _ List.mem_cons_self)
        unfold places at zero
        simp [InProgress.carries, InProgress.code] at count
        omega
      · simp [InProgress.carries, InProgress.code, same] at count
        omega
  | saveCode mem location =>
      rename_i n query code
      have count := carried_ends mem c
      show inStore (s.codes.insert code.code code) c + _ + (grants s.log).countP _ ≤ 1
      rw [inStore_insert]
      dsimp only [AuthState.answer]
      by_cases same : code.code = c
      · simp [InProgress.carries, InProgress.code, same] at count ⊢
        omega
      · simp [InProgress.carries, InProgress.code, same] at count ⊢
        omega
  | taken mem presented sent found =>
      rename_i n req id verifier code
      obtain ⟨rfl, -⟩ := recorded.codes _ _ found
      have count := carried_goes_on mem ⟨n, .checking req verifier code⟩ c
      show inStore (s.codes.erase code.code) c + _ + (grants s.log).countP _ ≤ 1
      rw [inStore_erase]
      dsimp only [AuthState.become]
      by_cases same : code.code = c
      · subst same
        rw [inStore_of_lookup found] at single
        simp [InProgress.carries, InProgress.code] at count ⊢
        omega
      · simp [InProgress.carries, InProgress.code, same] at count ⊢
        omega
  | lost mem id =>
      have count := carried_ends mem c
      show inStore (s.codes.erase id) c + _ + (grants s.log).countP _ ≤ 1
      rw [inStore_erase]
      dsimp only [AuthState.answer]
      split <;> omega
  | checked mem passed =>
      rename_i n req verifier code now
      have count := carried_goes_on mem ⟨n, .minting req verifier code now⟩ c
      show inStore s.codes c + _ + (grants s.log).countP _ ≤ 1
      dsimp only [AuthState.become]
      by_cases same : code.code = c
      · simp [InProgress.carries, InProgress.code, same] at count
        omega
      · simp [InProgress.carries, InProgress.code, same] at count
        omega
  | saveToken mem token now response =>
      rename_i n req verifier code checkedAt
      have count := carried_ends mem c
      show inStore s.codes c + _ + (_ :: grants s.log).countP _ ≤ 1
      rw [List.countP_cons]
      dsimp only [AuthState.answer]
      by_cases same : code.code = c
      · simp [InProgress.carries, InProgress.code, same] at count ⊢
        omega
      · simp [InProgress.carries, InProgress.code, same] at count ⊢
        omega

theorem Recorded.single_step (recorded : Recorded sha256 s) {e : AuthStep}
    (single : ∀ c, places s c ≤ 1) (taken : step config sha256 s e = some t) (c : String) :
    places t c ≤ 1 := by
  obtain ⟨there, fresh, rfl⟩ := step_eq_some config sha256 taken
  have placed := recorded.places_effect (act_effect config sha256 there) fresh (single c)
  exact placed

end Linear

/-! ## A request ends once -/

/-- The log tells how the request ended. -/
def Done (log : List AuthEvent) (n : Nat) : Prop :=
  (∃ response, .answered n response ∈ log) ∨ ∃ g ∈ grants log, g.request = n

/-- No token request is both refused and granted. -/
def Exclusive (log : List AuthEvent) : Prop :=
  ∀ n refusal, .answered n (.token (.error refusal)) ∈ log → ∀ g ∈ grants log, g.request ≠ n

structure Numbered (s : AuthState) : Prop where
  below : ∀ p ∈ s.pool, p.request < s.nextRequest
  apart : (s.pool.map InProgress.request).Nodup
  done : ∀ n, Done s.log n → n < s.nextRequest ∧ ∀ p ∈ s.pool, p.request ≠ n
  exclusive : Exclusive s.log

section Numbered

variable {config : OAuthConfig} {sha256 : List UInt8 → List UInt8} {s t : AuthState}
  {ids : List String}

theorem Numbered.not_done (numbered : Numbered s) {p : InProgress} (mem : p ∈ s.pool) :
    ¬ Done s.log p.request :=
  fun done => (numbered.done _ done).2 p mem rfl

/-- A request in progress ends, and the log says so at most. -/
theorem Numbered.ends (numbered : Numbered s) {p : InProgress} (mem : p ∈ s.pool)
    (pool : t.pool = Pool.replace s.pool p []) (next : t.nextRequest = s.nextRequest)
    (log : ∀ n, Done t.log n → Done s.log n ∨ n = p.request) (exclusive : Exclusive t.log) :
    Numbered t := by
  have stays : ∀ q ∈ t.pool, q ∈ s.pool.erase p := fun q mem => by rwa [pool] at mem
  refine ⟨fun q mem => ?_, ?_, fun n done => ?_, exclusive⟩
  · rw [next]
    exact numbered.below q (List.mem_of_mem_erase (stays q mem))
  · rw [pool]
    exact Pool.nodup_map_replace_nil numbered.apart mem
  · rw [next]
    rcases log n done with earlier | rfl
    · obtain ⟨below, gone⟩ := numbered.done n earlier
      exact ⟨below, fun q mem => gone q (List.mem_of_mem_erase (stays q mem))⟩
    · exact ⟨numbered.below p mem, fun q stayed =>
        Pool.name_ne_of_mem_erase numbered.apart mem (stays q stayed)⟩

/-- A request in progress goes on under its number. -/
theorem Numbered.goes_on (numbered : Numbered s) {p : InProgress} (mem : p ∈ s.pool)
    {stage : Stage} (pool : t.pool = Pool.replace s.pool p [⟨p.request, stage⟩])
    (next : t.nextRequest = s.nextRequest) (log : ∀ n, Done t.log n → Done s.log n)
    (exclusive : Exclusive t.log) : Numbered t := by
  have known : ∀ q ∈ t.pool, ∃ q' ∈ s.pool, q'.request = q.request := by
    intro q mem'
    rw [pool] at mem'
    rcases Pool.mem_replace mem' with new | old
    · cases List.mem_singleton.mp new
      exact ⟨p, mem, rfl⟩
    · exact ⟨q, old, rfl⟩
  refine ⟨fun q mem' => ?_, ?_, fun n done => ?_, exclusive⟩
  · obtain ⟨q', was, same⟩ := known q mem'
    rw [next, ← same]
    exact numbered.below q' was
  · rw [pool]
    exact Pool.nodup_map_replace_same numbered.apart mem rfl
  · rw [next]
    obtain ⟨below, gone⟩ := numbered.done n (log n done)
    refine ⟨below, fun q mem' => ?_⟩
    obtain ⟨q', was, same⟩ := known q mem'
    exact same ▸ gone q' was

/-- An entry that is no token grant and no answer ends nothing. -/
theorem done_answered {log : List AuthEvent} {n m : Nat} {response : Response}
    (done : Done (.answered m response :: log) n) : Done log n ∨ n = m := by
  rcases done with ⟨response', mem⟩ | ⟨g, mem, is⟩
  · rcases List.mem_cons.mp mem with same | earlier
    · cases same
      exact Or.inr rfl
    · exact Or.inl (Or.inl ⟨response', earlier⟩)
  · exact Or.inl (Or.inr ⟨g, mem, is⟩)

theorem Numbered.exclusive_answered (numbered : Numbered s) {p : InProgress} (mem : p ∈ s.pool)
    (response : Response) : Exclusive (.answered p.request response :: s.log) := by
  intro n refusal refused g granted same
  rcases List.mem_cons.mp refused with now | earlier
  · cases now
    exact numbered.not_done mem (Or.inr ⟨g, granted, same⟩)
  · exact numbered.exclusive n refusal earlier g granted same

theorem Numbered.exclusive_granted (numbered : Numbered s) {g : Grant} {p : InProgress}
    (mem : p ∈ s.pool) (is : g.request = p.request) (response : TokenResponse) :
    Exclusive (.answered p.request (.token (.ok response)) :: .granted g :: s.log) := by
  intro n refusal refused g' granted same
  have earlier : .answered n (.token (.error refusal)) ∈ s.log := by simpa using refused
  rcases List.mem_cons.mp granted with rfl | before
  · refine numbered.not_done mem (Or.inl ⟨.token (.error refusal), ?_⟩)
    rw [← is, same]
    exact earlier
  · exact numbered.exclusive n refusal earlier g' before same

theorem Numbered.effect (numbered : Numbered s) (effect : Effect config sha256 s ids t) :
    Numbered t := by
  cases effect with
  | arrive stage no_code =>
      refine ⟨fun p mem => ?_, ?_, fun n done => ?_, numbered.exclusive⟩
      · rcases List.mem_cons.mp mem with rfl | old
        · exact Nat.lt_succ_self _
        · exact Nat.lt_succ_of_lt (numbered.below p old)
      · refine List.nodup_cons.mpr ⟨fun mem => ?_, numbered.apart⟩
        obtain ⟨p, old, same⟩ := List.mem_map.mp mem
        exact absurd same (Nat.ne_of_lt (numbered.below p old))
      · obtain ⟨below, gone⟩ := numbered.done n done
        refine ⟨Nat.lt_succ_of_lt below, fun p mem => ?_⟩
        rcases List.mem_cons.mp mem with rfl | old
        · exact Nat.ne_of_gt below
        · exact gone p old
  | drop mem => exact numbered.ends mem rfl rfl (fun n done => Or.inl done) numbered.exclusive
  | answer mem response =>
      exact numbered.ends mem rfl rfl (fun n => done_answered)
        (numbered.exclusive_answered mem response)
  | saveClient mem secret response =>
      refine numbered.ends mem rfl rfl (fun n done => ?_) fun n refusal refused => ?_
      · refine (done_answered done).imp_left fun earlier => ?_
        simpa [Done] using earlier
      · exact numbered.exclusive n refusal (by simpa [AuthState.answer] using refused)
  | authorized mem found proper =>
      refine numbered.goes_on mem rfl rfl (fun n done => ?_) fun n refusal refused => ?_
      · simpa [Done, AuthState.become] using done
      · exact numbered.exclusive n refusal (by simpa [AuthState.become] using refused)
  | saveCode mem location =>
      exact numbered.ends mem rfl rfl (fun n => done_answered)
        (numbered.exclusive_answered mem _)
  | taken mem presented sent found =>
      exact numbered.goes_on mem rfl rfl (fun n done => done) numbered.exclusive
  | lost mem id =>
      exact numbered.ends mem rfl rfl (fun n => done_answered)
        (numbered.exclusive_answered mem _)
  | checked mem passed =>
      exact numbered.goes_on mem rfl rfl (fun n done => done) numbered.exclusive
  | saveToken mem token now response =>
      refine numbered.ends mem rfl rfl (fun n done => ?_)
        (numbered.exclusive_granted mem rfl response)
      rcases done_answered done with (⟨response', logged⟩ | ⟨g, granted, is⟩) | is
      · exact Or.inl (Or.inl ⟨response', by simpa using logged⟩)
      · rcases List.mem_cons.mp granted with rfl | before
        · exact Or.inr is.symm
        · exact Or.inl (Or.inr ⟨g, before, is⟩)
      · exact Or.inr is

end Numbered

/-! ## The store and the log agree on tokens -/

structure Issued (tokens : Rows String AccessToken) (log : List AuthEvent)
    (drawn : List String) : Prop where
  stored : ∀ id record, tokens.lookup id = some record ↔
    ∃ g ∈ grants log, g.token = record ∧ record.token = id
  apart : ((grants log).map fun g => g.token.token).Nodup
  codes : ((authorizations log).map fun a => a.code.code).Nodup
  drawn : ∀ g ∈ grants log, g.token.token ∈ drawn

section Issued

variable {config : OAuthConfig} {sha256 : List UInt8 → List UInt8} {s t : AuthState}
  {ids : List String} {tokens : Rows String AccessToken} {log log' : List AuthEvent}
  {drawn : List String}

/-- Nothing is granted or authorized. -/
theorem Issued.same (issued : Issued tokens log drawn) (granted : grants log' = grants log)
    (authorized : authorizations log' = authorizations log) (ids : List String) :
    Issued tokens log' (ids ++ drawn) := by
  refine ⟨?_, ?_, ?_, fun g mem => ?_⟩
  · rw [granted]
    exact issued.stored
  · rw [granted]
    exact issued.apart
  · rw [authorized]
    exact issued.codes
  · exact List.mem_append_right _ (issued.drawn g (granted ▸ mem))

/-- A token with a new identifier is saved. -/
theorem Issued.save (issued : Issued tokens log drawn) {g : Grant}
    (fresh : g.token.token ∉ drawn) :
    Issued (tokens.insert g.token.token g.token) (.granted g :: log) (g.token.token :: drawn) := by
  refine ⟨fun id record => ?_, ?_, issued.codes, fun g' mem => ?_⟩
  · rw [grants_granted, Rows.lookup_insert_if, List.exists_mem_cons_iff]
    split
    · rename_i same
      constructor
      · rintro ⟨⟩
        exact Or.inl ⟨rfl, same.symm⟩
      · rintro (⟨rfl, -⟩ | ⟨g', mem, rfl, is⟩)
        · rfl
        · rw [← same, ← is] at fresh
          exact absurd (issued.drawn g' mem) fresh
    · rename_i other
      rw [issued.stored id record]
      constructor
      · exact Or.inr
      · rintro (⟨rfl, is⟩ | earlier)
        · exact absurd is.symm other
        · exact earlier
  · refine List.nodup_cons.mpr ⟨fun mem => ?_, issued.apart⟩
    obtain ⟨g', mem, same⟩ := List.mem_map.mp mem
    dsimp only at same
    exact fresh (same ▸ issued.drawn g' mem)
  · rcases List.mem_cons.mp mem with rfl | earlier
    · exact List.mem_cons_self
    · exact List.mem_cons_of_mem _ (issued.drawn g' earlier)

theorem mem_authorizations {log : List AuthEvent} {a : Authorization} :
    a ∈ authorizations log ↔ .authorized a ∈ log := by
  unfold authorizations
  rw [List.mem_filterMap]
  constructor
  · rintro ⟨e, mem, is⟩
    cases e <;> cases is
    exact mem
  · exact fun mem => ⟨_, mem, rfl⟩

theorem Issued.effect (issued : Issued s.tokens s.log s.drawn) (recorded : Recorded sha256 s)
    (effect : Effect config sha256 s ids t) (fresh : ∀ id ∈ ids, id ∉ s.drawn) :
    Issued t.tokens t.log (ids ++ s.drawn) := by
  cases effect with
  | authorized mem found proper =>
      obtain ⟨stored, apart, codes, drawn⟩ := issued
      refine ⟨stored, apart, List.nodup_cons.mpr ⟨fun mem => ?_, codes⟩,
        fun g mem => List.mem_append_right _ (drawn g mem)⟩
      obtain ⟨a, logged, same⟩ := List.mem_map.mp mem
      refine fresh _ List.mem_cons_self ?_
      dsimp only at same
      rw [← same]
      exact recorded.drawn a (mem_authorizations.mp logged)
  | saveToken mem token now response =>
      rename_i n req verifier code checkedAt
      have saved := issued.save
        (g := ⟨n, req, verifier, code, checkedAt, newToken config code token now⟩)
        (fresh _ List.mem_cons_self)
      refine saved.same ?_ ?_ [] <;> rfl
  | _ => refine issued.same ?_ ?_ _ <;> rfl

end Issued

/-! ## The guarantees -/

/-- What the code grant guarantees. -/
structure GrantSafe (sha256 : List UInt8 → List UInt8) (s : AuthState) : Prop where
  /-- The stored tokens are those that were granted, one for each grant. -/
  stored : ∀ id record, s.tokens.lookup id = some record ↔
    ∃ g ∈ grants s.log, g.token = record ∧ record.token = id
  tokens_apart : ((grants s.log).map fun g => g.token.token).Nodup
  /-- A grant follows an authorize request that it is earned by, of a client registered
  before. -/
  earned : ∀ newer g older, s.log = newer ++ .granted g :: older →
    ∃ after a before, older = after ++ .authorized a :: before ∧
      .registered a.client ∈ before ∧ Earned sha256 a g
  /-- No code was granted twice, and no two authorize requests share one. -/
  codes_apart : ((grants s.log).map fun g => g.code.code).Nodup
  authorized_apart : ((authorizations s.log).map fun a => a.code.code).Nodup
  /-- A token request that failed was not granted. -/
  failed : Exclusive s.log

/-- What every step keeps. -/
structure Sound (sha256 : List UInt8 → List UInt8) (s : AuthState) : Prop where
  recorded : Recorded sha256 s
  single : ∀ c, places s c ≤ 1
  numbered : Numbered s
  issued : Issued s.tokens s.log s.drawn

section Sound

variable {config : OAuthConfig} {sha256 : List UInt8 → List UInt8} {s t : AuthState}

theorem sound_start (sha256 : List UInt8 → List UInt8) : Sound sha256 {} where
  recorded :=
    { clients := fun c client found => by cases found
      codes := fun c code found => by cases found
      pool := fun p mem => by cases mem
      lawful := trivial
      drawn := fun a mem => by cases mem }
  single := fun c => by
    show inStore ∅ c + 0 + 0 ≤ 1
    unfold inStore
    split <;> omega
  numbered :=
    { below := fun p mem => by cases mem
      apart := List.nodup_nil
      done := fun n done => by
        rcases done with ⟨response, mem⟩ | ⟨g, mem, -⟩
        · cases mem
        · cases mem
      exclusive := fun n refusal mem => by cases mem }
  issued :=
    { stored := fun id record => by
        constructor
        · intro found
          cases found
        · rintro ⟨g, mem, -⟩
          cases mem
      apart := List.nodup_nil
      codes := List.nodup_nil
      drawn := fun g mem => by cases mem }

theorem Sound.after_step {e : AuthStep} (sound : Sound sha256 s)
    (taken : step config sha256 s e = some t) : Sound sha256 t := by
  refine ⟨sound.recorded.after_step taken, sound.recorded.single_step sound.single taken, ?_, ?_⟩
  · obtain ⟨there, -, rfl⟩ := step_eq_some config sha256 taken
    have numbered := sound.numbered.effect (act_effect config sha256 there)
    exact ⟨numbered.below, numbered.apart, numbered.done, numbered.exclusive⟩
  · obtain ⟨there, fresh, rfl⟩ := step_eq_some config sha256 taken
    have issued := sound.issued.effect sound.recorded (act_effect config sha256 there) fresh
    exact issued

theorem Sound.safe (sound : Sound sha256 s) : GrantSafe sha256 s where
  stored := sound.issued.stored
  tokens_apart := sound.issued.apart
  earned newer g older is := by
    have lawful := (is ▸ sound.recorded.lawful).older
    obtain ⟨a, logged, earned⟩ := lawful.1
    obtain ⟨after, before, split, registered, -⟩ := lawful.2.authorized logged
    exact ⟨after, a, before, split, registered, earned⟩
  codes_apart := by
    rw [List.nodup_iff_count_le_one]
    intro c
    have single := sound.single c
    rw [List.count, List.countP_map]
    unfold places at single
    refine le_trans (le_of_eq ?_) (le_trans (Nat.le_add_left _ _) single)
    refine List.countP_congr fun g _ => ?_
    simp
  authorized_apart := sound.issued.codes
  failed := sound.numbered.exclusive

end Sound

/-- **The authorization-code grant is safe**, whatever the requests, however their steps
interleave, and wherever they fail or are dropped. -/
theorem grant_safe (config : OAuthConfig) (sha256 : List UInt8 → List UInt8)
    (steps : List AuthStep) : Throughout (step config sha256) (GrantSafe sha256) {} steps :=
  (throughout_of_keeps (fun _ _ _ sound taken => Sound.after_step sound taken) steps
    (sound_start sha256)).imp fun _ sound => sound.safe

/-- With the identity for a hash: a client registers, is authorized and redeems its code;
a second request with the same code is refused. -/
example :
    let query : AuthorizeQuery :=
      { responseType := "code", clientId := "c", redirectUri := "u", codeChallenge := some "dg" }
    let code : AuthorizationCode := ⟨"k", "c", "u", "", "dg", "S256", 600⟩
    let req : TokenRequest :=
      { grantType := "authorization_code", code := some "k", codeVerifier := some "v" }
    let steps : List AuthStep :=
      [.register ⟨["u"], none, none, none⟩, .saveClient 0 ⟨["u"], none, none, none⟩ "c" "x" 0 true,
        .authorize query, .getClient 1 query "k" 0 true, .saveCode 1 query code true,
        .token req, .token req, .takeCode 2 req .answered, .takeCode 3 req .answered,
        .check 2 req "v" code 600, .saveToken 2 req "v" code 600 "t" 600 true]
    ((exec (step ⟨"i", [], 3600, 600⟩ id) {} steps).map fun s => (grants s.log).map (·.token)) =
      some [⟨"t", "c", "", 4200⟩] := by
  rfl

end Ministr.Auth
