/-
# Auth.Redirect — what a client reads off the redirect

`authorize` answers with an address: the redirect URI, and behind it the code, the state and the
issuer.  The issuer is escaped.  The state stands there as it came, so a client reads it back only
where nothing in it ends a parameter or passes for an escape, and the header exists at all only
where every byte may stand in one (`redirect_faithful_iff`).
-/
import Ministr.Auth.Base64Url
import Ministr.Theory.UrlQuery

namespace Ministr.Auth

open Ministr.Theory Ministr.Theory.UrlQuery

set_option autoImplicit false

/-- `generate_id`: the first 16 bytes of a hash of the clock and of an address. -/
def generateId (sha256 : List UInt8 → List UInt8) (timestamp entropy : Nat) : String :=
  String.ofList (base64UrlEncode ((sha256 (leBytes 16 timestamp ++ leBytes 8 entropy)).take 16))

/-! ## The header -/

/-- A byte that may stand in the value of a header. -/
def headerByte (b : UInt8) : Bool := (decide (32 ≤ b.toNat) && b != 127) || b == 9

def HeaderText (text : List Char) : Prop := (textBytes text).all headerByte = true

instance (text : List Char) : Decidable (HeaderText text) := inferInstanceAs (Decidable (_ = _))

/-- The `Location` header, where there can be one. -/
def locationHeader (location : String) : Option String :=
  if HeaderText location.toList then some location else none

theorem headerText_append {front back : List Char} :
    HeaderText (front ++ back) ↔ HeaderText front ∧ HeaderText back := by
  rw [HeaderText, textBytes_append, List.all_append, Bool.and_eq_true]
  rfl

theorem headerText_cons {c : Char} {text : List Char} :
    HeaderText (c :: text) ↔ HeaderText [c] ∧ HeaderText text := by
  rw [← List.singleton_append, headerText_append]

/-! ## The code and the issuer -/

theorem mem_base64UrlEncode {bytes : List UInt8} {c : Char} (mem : c ∈ base64UrlEncode bytes) :
    c ∈ alphabet := by
  rw [base64UrlEncode_eq] at mem
  exact Base64Alphabet.encode_mem c mem

theorem forall_mem_of_all {P : Char → Prop} [DecidablePred P] {text : List Char}
    (checked : text.all (fun c => decide (P c)) = true) : ∀ c ∈ text, P c := by
  intro c mem
  exact of_decide_eq_true (List.all_eq_true.mp checked c mem)

theorem alphabet_plain :
    ∀ c ∈ alphabet, c ≠ '&' ∧ c ≠ '#' ∧ c ≠ '%' ∧ HeaderText [c] :=
  forall_mem_of_all (by decide)

/-- A text that ends no parameter and may stand in a header. -/
def PlainText (text : List Char) : Prop := '&' ∉ text ∧ '#' ∉ text ∧ HeaderText text

theorem plainText_of_forall {text : List Char}
    (plain : ∀ c ∈ text, c ≠ '&' ∧ c ≠ '#' ∧ HeaderText [c]) : PlainText text := by
  refine ⟨fun mem => (plain _ mem).1 rfl, fun mem => (plain _ mem).2.1 rfl, ?_⟩
  induction text with
  | nil => rfl
  | cons c text ih =>
      refine headerText_cons.mpr ⟨(plain c List.mem_cons_self).2.2, ih fun d mem => ?_⟩
      exact plain d (List.mem_cons_of_mem _ mem)

section Identifier

variable (sha256 : List UInt8 → List UInt8) (timestamp entropy : Nat)

theorem plainText_generateId : PlainText (generateId sha256 timestamp entropy).toList := by
  refine plainText_of_forall fun c mem => ?_
  rw [generateId, String.toList_ofList] at mem
  obtain ⟨amp, hash, -, header⟩ := alphabet_plain c (mem_base64UrlEncode mem)
  exact ⟨amp, hash, header⟩

theorem percentDecode_generateId :
    percentDecode (generateId sha256 timestamp entropy).toList =
      utf8 (generateId sha256 timestamp entropy) := by
  refine percentDecode_of_free fun mem => ?_
  rw [generateId, String.toList_ofList] at mem
  exact (alphabet_plain _ (mem_base64UrlEncode mem)).2.2.1 rfl

end Identifier

/-- One byte of the issuer. -/
def issuerByte (b : UInt8) : List Char :=
  let c := Char.ofNat b.toNat
  if b.toNat < 128 ∧ (c.isAlphanum ∨ c ∈ ['-', '_', '.', '~', ':', '/']) then [c]
  else ['%', upperHexDigit (b.toNat / 16), upperHexDigit b.toNat]

theorem encodeIssuer_eq (issuer : String) : encodeIssuer issuer = (utf8 issuer).flatMap issuerByte :=
  rfl

theorem forall_byte {P : UInt8 → Prop} (each : ∀ n < 256, P (UInt8.ofNat n)) (b : UInt8) : P b := by
  have back := each b.toNat b.toNat_lt
  rwa [UInt8.ofNat_toNat] at back

theorem issuerByte_plain :
    ∀ b : UInt8, ∀ c ∈ issuerByte b, c ≠ '&' ∧ c ≠ '#' ∧ HeaderText [c] := by
  have checked : ∀ b : UInt8,
      (issuerByte b).all (fun c => decide (c ≠ '&' ∧ c ≠ '#' ∧ HeaderText [c])) = true :=
    forall_byte (by decide +kernel)
  exact fun b => forall_mem_of_all (checked b)

/-- A byte is written as itself or as an escape. -/
theorem issuerByte_cases :
    ∀ b : UInt8, (∃ c, issuerByte b = [c] ∧ c ≠ '%' ∧ String.utf8EncodeChar c = [b]) ∨
      ∃ high low, issuerByte b = ['%', high, low] ∧ escapedByte '%' high low = some b := by
  have kept : ∀ n < 128, String.utf8EncodeChar (Char.ofNat n) = [UInt8.ofNat n] := by
    decide
  have escaped : ∀ b : UInt8,
      escapedByte '%' (upperHexDigit (b.toNat / 16)) (upperHexDigit b.toNat) = some b := by
    intro b
    have small := b.toNat_lt
    have whole : b.toNat / 16 % 16 * 16 + b.toNat % 16 = b.toNat := by omega
    rw [escapedByte, if_pos rfl, hexValue_upperHexDigit, hexValue_upperHexDigit]
    show some (UInt8.ofNat (b.toNat / 16 % 16 * 16 + b.toNat % 16)) = some b
    rw [whole, UInt8.ofNat_toNat]
  intro b
  rw [issuerByte]
  split
  · rename_i safe
    refine .inl ⟨_, rfl, fun mark => ?_, ?_⟩
    · rw [mark] at safe
      exact absurd safe.2 (by decide)
    · rw [kept _ safe.1, UInt8.ofNat_toNat]
  · exact .inr ⟨_, _, rfl, escaped b⟩

theorem plainText_encodeIssuer (issuer : String) : PlainText (encodeIssuer issuer) := by
  refine plainText_of_forall fun c mem => ?_
  rw [encodeIssuer_eq] at mem
  obtain ⟨b, -, here⟩ := List.mem_flatMap.mp mem
  exact issuerByte_plain b c here

/-- The issuer is read back. -/
theorem percentDecode_encodeIssuer (issuer : String) :
    percentDecode (encodeIssuer issuer) = utf8 issuer := by
  rw [encodeIssuer_eq]
  induction utf8 issuer with
  | nil => rfl
  | cons b bytes ih =>
      rw [List.flatMap_cons]
      rcases issuerByte_cases b with ⟨c, written, plain, bytes_eq⟩ | ⟨high, low, written, here⟩
      · rw [written, percentDecode_append_of_free (by simp [plain.symm]), ih]
        show (String.utf8EncodeChar c ++ []) ++ bytes = b :: bytes
        rw [bytes_eq]
        rfl
      · rw [written]
        show percentDecode ('%' :: high :: low :: bytes.flatMap issuerByte) = _
        rw [percentDecode_cons_of_some here, ih]

/-! ## The address -/

/-- A parameter as `authorize` writes it. -/
def field (name : String) (value : List Char) : List Char := name.toList ++ '=' :: value

/-- What stands behind the redirect URI. -/
def answerText (config : OAuthConfig) (query : AuthorizeQuery) (code : String) : List Char :=
  field "code" code.toList ++
    ((query.state.elim [] fun state => '&' :: field "state" state.toList) ++
      '&' :: field "iss" (encodeIssuer config.issuer))

/-- What a client is to read behind the parameters of the redirect URI. -/
def answerParameters (config : OAuthConfig) (query : AuthorizeQuery) (code : String) :
    List (List UInt8 × List UInt8) :=
  (utf8 "code", utf8 code) :: (query.state.toList.map fun state => (utf8 "state", utf8 state)) ++
    [(utf8 "iss", utf8 config.issuer)]

/-- There is a `Location` header, and its parameters are those of the redirect URI and the answer. -/
def Faithful (config : OAuthConfig) (query : AuthorizeQuery) (code : String) : Prop :=
  ∃ location, locationHeader (redirectLocation config query code) = some location ∧
    parameters location.toList =
      parameters query.redirectUri.toList ++ answerParameters config query code

theorem redirectLocation_toList (config : OAuthConfig) (query : AuthorizeQuery) (code : String) :
    (redirectLocation config query code).toList =
      query.redirectUri.toList ++ joiner query.redirectUri.toList ::
        answerText config query code := by
  rw [redirectLocation, answerText, joiner]
  cases query.state with
  | none =>
      simp only [Option.elim, field]
      split <;> simp
  | some state =>
      simp only [Option.elim, field]
      split <;> simp

theorem faithful_of_whole_iff {config : OAuthConfig} {query : AuthorizeQuery} {code : String}
    (whole : '#' ∉ query.redirectUri.toList) :
    Faithful config query code ↔
      HeaderText (redirectLocation config query code).toList ∧
        parametersOf ((answerText config query code).takeWhile (· ≠ '#')) =
          answerParameters config query code := by
  have parsed : parameters (redirectLocation config query code).toList =
      parameters query.redirectUri.toList ++
        parametersOf ((answerText config query code).takeWhile (· ≠ '#')) := by
    rw [redirectLocation_toList, parameters_append whole]
  rw [Faithful, locationHeader]
  constructor
  · rintro ⟨location, there, read⟩
    split at there
    · rename_i header
      obtain rfl := Option.some.inj there
      rw [parsed, List.append_cancel_left_eq] at read
      exact ⟨header, read⟩
    · cases there
  · rintro ⟨header, read⟩
    exact ⟨_, if_pos header, by rw [parsed, read]⟩

theorem headerText_field {name : String} {value : List Char}
    (nameText : HeaderText (name.toList ++ ['='])) (valueText : HeaderText value) :
    HeaderText (field name value) := by
  rw [field, ← List.singleton_append, ← List.append_assoc, headerText_append]
  exact ⟨nameText, valueText⟩

section Answer

variable (config : OAuthConfig) (query : AuthorizeQuery) (sha256 : List UInt8 → List UInt8)
  (timestamp entropy : Nat)

theorem headerText_redirectLocation :
    HeaderText (redirectLocation config query (generateId sha256 timestamp entropy)).toList ↔
      HeaderText query.redirectUri.toList ∧ ∀ state ∈ query.state, HeaderText state.toList := by
  have joins : HeaderText [joiner query.redirectUri.toList] := by
    rw [joiner]
    split <;> decide
  have mark : ∀ text, HeaderText ('&' :: text) ↔ HeaderText text := by
    intro text
    rw [headerText_cons]
    exact and_iff_right (by decide)
  have joined : ∀ text, HeaderText (joiner query.redirectUri.toList :: text) ↔ HeaderText text := by
    intro text
    rw [headerText_cons]
    exact and_iff_right joins
  have code : HeaderText (field "code" (generateId sha256 timestamp entropy).toList) :=
    headerText_field (by decide) (plainText_generateId sha256 timestamp entropy).2.2
  have issuer : HeaderText (field "iss" (encodeIssuer config.issuer)) :=
    headerText_field (by decide) (plainText_encodeIssuer config.issuer).2.2
  rw [redirectLocation_toList, headerText_append, joined, answerText, headerText_append,
    headerText_append, mark]
  refine and_congr_right fun _ => ?_
  cases query.state with
  | none => exact ⟨fun _ _ mem => absurd mem (by simp), fun _ => ⟨code, rfl, issuer⟩⟩
  | some state =>
      constructor
      · rintro ⟨-, here, -⟩ given mem
        obtain rfl := Option.some.inj mem
        exact (headerText_cons.mp (headerText_append.mp ((mark _).mp here)).2).2
      · intro all
        have here : HeaderText (field "state" state.toList) :=
          headerText_field (by decide) (all state rfl)
        exact ⟨code, (mark _).mpr here, issuer⟩

theorem parameter_field {name : String} (plain : '=' ∉ name.toList) (noEscape : '%' ∉ name.toList)
    (value : List Char) : parameter (field name value) = (utf8 name, percentDecode value) := by
  rw [field, parameter_named plain, percentDecode_of_free noEscape]
  rfl

theorem field_ne_nil (name : String) (value : List Char) : field name value ≠ [] := by
  simp [field]

theorem notMem_field {name : String} {value : List Char} {c : Char} (other : c ≠ '=')
    (inName : c ∉ name.toList) (inValue : c ∉ value) : c ∉ field name value := by
  simp [field, other, inName, inValue]

theorem parametersOf_issuer :
    parametersOf (field "iss" (encodeIssuer config.issuer)) =
      [(utf8 "iss", utf8 config.issuer)] := by
  have free := notMem_field (show '&' ≠ '=' by decide) (show '&' ∉ "iss".toList by decide)
    (plainText_encodeIssuer config.issuer).1
  rw [parametersOf_single free (field_ne_nil _ _), parameter_field (by decide) (by decide),
    percentDecode_encodeIssuer]

theorem takeWhile_of_free {text : List Char} (free : '#' ∉ text) :
    text.takeWhile (· ≠ '#') = text := by
  refine List.takeWhile_eq_self_iff.mpr fun c mem => ?_
  rw [decide_eq_true_eq]
  rintro rfl
  exact free mem

/-- The code is always read. -/
theorem parametersOf_code (more : List Char) :
    parametersOf ((field "code" (generateId sha256 timestamp entropy).toList ++
        '&' :: more).takeWhile (· ≠ '#')) =
      (utf8 "code", utf8 (generateId sha256 timestamp entropy)) ::
        parametersOf (more.takeWhile (· ≠ '#')) := by
  have plain := plainText_generateId sha256 timestamp entropy
  have hash := notMem_field (show '#' ≠ '=' by decide) (show '#' ∉ "code".toList by decide) plain.2.1
  have amp := notMem_field (show '&' ≠ '=' by decide) (show '&' ∉ "code".toList by decide) plain.1
  rw [List.takeWhile_append_of_pos (List.takeWhile_eq_self_iff.mp (takeWhile_of_free hash)),
    List.takeWhile_cons, if_pos (by decide), parametersOf_append,
    parametersOf_single amp (field_ne_nil _ _), parameter_field (by decide) (by decide),
    percentDecode_generateId]
  rfl

/-- A state that ends no parameter and has no escape. -/
def PlainState (state : String) : Prop :=
  '&' ∉ state.toList ∧ '#' ∉ state.toList ∧ ¬ HasEscape state.toList

theorem takeWhile_append_cons_of_neg {α : Type} {p : α → Bool} {a : α} (stop : p a = false)
    (front back : List α) : (front ++ a :: back).takeWhile p = front.takeWhile p := by
  rw [List.takeWhile_append]
  split
  · rename_i all
    rw [List.takeWhile_cons_of_neg (by simp [stop]), List.append_nil]
    exact ((List.takeWhile_prefix p).eq_of_length all).symm
  · rfl

/-- What is read of the state reaches to the first `&` or `#`. -/
theorem parametersOf_state (state : String) :
    parametersOf ((field "state" state.toList ++
        '&' :: field "iss" (encodeIssuer config.issuer)).takeWhile (· ≠ '#')) =
      [(utf8 "state", utf8 state), (utf8 "iss", utf8 config.issuer)] ↔ PlainState state := by
  have issuerPlain := plainText_encodeIssuer config.issuer
  constructor
  · intro read
    let stops : Char → Bool := fun c => decide (decide (c ≠ '&') = true ∧ decide (c ≠ '#') = true)
    have reach : ((field "state" state.toList ++
        '&' :: field "iss" (encodeIssuer config.issuer)).takeWhile (· ≠ '#')).takeWhile
          (· ≠ '&') = field "state" (state.toList.takeWhile stops) := by
      rw [List.takeWhile_takeWhile, takeWhile_append_cons_of_neg (by decide), field,
        List.takeWhile_append_of_pos (by simp), List.takeWhile_cons, if_pos (by decide)]
      rfl
    obtain ⟨others, first⟩ := exists_parametersOf (by rw [reach]; exact field_ne_nil _ _)
    rw [first, reach, parameter_field (by decide) (by decide)] at read
    have value : percentDecode (state.toList.takeWhile stops) = textBytes state.toList :=
      congrArg Prod.snd (List.cons.inj read).1
    have all := eq_of_percentDecode (List.takeWhile_prefix stops) value
    rw [all] at value
    have free : ∀ c ∈ state.toList, stops c = true := List.takeWhile_eq_self_iff.mp all
    refine ⟨fun mem => ?_, fun mem => ?_, (percentDecode_eq_iff _).mp value⟩
    · exact absurd (free _ mem) (by decide)
    · exact absurd (free _ mem) (by decide)
  · rintro ⟨amp, hash, none⟩
    have noHash : '#' ∉ field "state" state.toList ++
        '&' :: field "iss" (encodeIssuer config.issuer) := by
      simp [field, hash, issuerPlain.2.1]
    have noAmp := notMem_field (show '&' ≠ '=' by decide) (show '&' ∉ "state".toList by decide) amp
    rw [takeWhile_of_free noHash, parametersOf_append, parametersOf_issuer,
      parametersOf_single noAmp (field_ne_nil _ _), parameter_field (by decide) (by decide),
      (percentDecode_eq_iff _).mpr none]
    rfl

/-- **The redirect says what it should exactly where the address can be a header and the state
holds no `&`, no `#` and no escape.** -/
theorem redirect_faithful_iff (whole : '#' ∉ query.redirectUri.toList) :
    Faithful config query (generateId sha256 timestamp entropy) ↔
      HeaderText query.redirectUri.toList ∧
        ∀ state ∈ query.state, HeaderText state.toList ∧ PlainState state := by
  rw [faithful_of_whole_iff whole, headerText_redirectLocation, and_assoc]
  refine and_congr_right fun _ => ?_
  cases given : query.state with
  | none =>
      refine iff_of_true ⟨fun state mem => absurd mem (by simp), ?_⟩ fun state mem =>
        absurd mem (by simp)
      have free := notMem_field (show '#' ≠ '=' by decide) (show '#' ∉ "iss".toList by decide)
        (plainText_encodeIssuer config.issuer).2.1
      rw [answerText, answerParameters, given, Option.elim, List.nil_append, parametersOf_code,
        takeWhile_of_free free, parametersOf_issuer]
      rfl
  | some state =>
      have read := parametersOf_code sha256 timestamp entropy (field "state" state.toList ++
        '&' :: field "iss" (encodeIssuer config.issuer))
      rw [answerText, answerParameters, given, Option.elim, List.cons_append, read]
      show _ ∧ _ :: _ = _ :: [(utf8 "state", utf8 state), (utf8 "iss", utf8 config.issuer)] ↔ _
      rw [List.cons.injEq, parametersOf_state]
      simp

end Answer

/-- A redirect URI with a query, and a state with a space, a letter beyond ASCII, an `=` and a `%`
that is no escape: all of it is read. -/
theorem redirect_faithful_withState :
    Faithful ⟨"https://mcp.example", [], 3600, 600⟩ ⟨"code", "c", "https://a.example/cb?x=1", none,
      some "s1 t/é=%zz", none, none⟩ (generateId (fun bytes => bytes) 5 7) := by
  refine (redirect_faithful_iff _ _ _ _ _ (by decide)).mpr ⟨by decide, fun state given => ?_⟩
  obtain rfl := Option.mem_some.mp given
  exact ⟨by decide, by decide, by decide, (percentDecode_eq_iff _).mp (by decide)⟩

/-- A state with an `&` is cut there, and what is behind it becomes a parameter of its own. -/
theorem state_cut :
    ¬ Faithful ⟨"https://mcp.example", [], 3600, 600⟩ ⟨"code", "c", "https://a.example/cb", none,
      some "a&code=b", none, none⟩ (generateId (fun bytes => bytes) 5 7) := by
  rintro ⟨location, there, read⟩
  revert read
  have location_eq : location = redirectLocation ⟨"https://mcp.example", [], 3600, 600⟩
      ⟨"code", "c", "https://a.example/cb", none, some "a&code=b", none, none⟩
      (generateId (fun bytes => bytes) 5 7) := by
    rw [locationHeader] at there
    split at there
    · exact (Option.some.inj there).symm
    · cases there
  subst location_eq
  decide

end Ministr.Auth
