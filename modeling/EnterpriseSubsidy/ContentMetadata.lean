import Mathlib

/-!
# The content metadata view

`ContentMetadataViewSet.get` after its decorators: it fetches the catalog's metadata of a content
for a customer, picks the price mode from the metadata's product source, asks the catalog client for
the price of that mode, and answers with the content's uuid, key, source and price. A price that is
missing or zero answers 404, an `HTTPError` of the catalog answers 404 when its status is 404 and
otherwise its own status with its text, and any other exception goes through.

The catalog client is not part of the modelled sources: its two calls are the view's arguments.
Nor are the view's constants, whose values are the ones the repository's tests use. The client's
price is a float in cents, which Python takes as false when it is zero; its value is kept as a
rational, so that a fractional cent stays what it is. `get_cases` says once what the view can
answer, and when.
-/

namespace EnterpriseSubsidy.ContentMetadata

/-- `EDX_PRODUCT_SOURCE`. -/
def edxProductSource : String := "edX"

/-- `EDX_VERIFIED_COURSE_MODE`. -/
def edxVerifiedCourseMode : String := "verified"

/-- `EXECUTIVE_EDUCATION_MODE`. -/
def executiveEducationMode : String := "paid-executive-education"

/-- What the view reads of the content metadata: `uuid`, `key`, and the entries of the object
`product_source`, if any. -/
structure ContentData where
  uuid : Option String
  key : Option String
  productSource : Option (List (String × String))
  deriving DecidableEq, Repr

/-- An exception of the catalog client: an `HTTPError`, with its response's status code, or any
other exception; each with its text. -/
inductive CatalogError
  | httpError (statusCode : Nat) (text : String)
  | other (text : String)
  deriving DecidableEq, Repr

/-- The body of a response: a message, or the content's metadata. -/
inductive ResponseBody
  | message (text : String)
  | metadata (contentUuid contentKey source : Option String) (contentPrice : ℚ)
  deriving DecidableEq, Repr

/-- A response: its body and its status code. -/
structure Response where
  body : ResponseBody
  status : Nat
  deriving DecidableEq, Repr

/-- The source and the price mode: with a product source (an object that is not empty, so true for
Python), its `name` and the executive-education mode; otherwise edX and the verified mode. -/
def sourceAndMode (contentData : ContentData) : Option String × String :=
  match contentData.productSource with
  | some sourceDict@(_ :: _) => (sourceDict.lookup "name", executiveEducationMode)
  | _ => (some edxProductSource, edxVerifiedCourseMode)

/-- The answer to a priced content: its metadata, unless the price is missing or zero, which Python
takes as false. -/
def pricedResponse (contentData : ContentData) (contentSource : Option String) :
    Option ℚ → Response
  | some contentPrice =>
    if contentPrice = 0 then ⟨.message "Could not find course price in content data payload", 404⟩
    else ⟨.metadata contentData.uuid contentData.key contentSource contentPrice, 200⟩
  | none => ⟨.message "Could not find course price in content data payload", 404⟩

/-- `ContentMetadataViewSet.get`, given what `get_content_metadata_for_customer` answered and
`price_for_content`: the response, or an exception other than `HTTPError`, raised through. -/
def get (priceForContent : ContentData → String → Except CatalogError (Option ℚ))
    (fetched : Except CatalogError ContentData) : Except String Response :=
  let attempt : Except CatalogError Response := do
    let contentData ← fetched
    let (contentSource, sourceMode) := sourceAndMode contentData
    let contentPrice ← priceForContent contentData sourceMode
    pure (pricedResponse contentData contentSource contentPrice)
  match attempt with
  | .ok response => .ok response
  | .error (.httpError statusCode text) =>
    if statusCode = 404 then .ok ⟨.message "Content not found", 404⟩
    else .ok ⟨.message ("Failed to fetch data from catalog service with exc: " ++ text), statusCode⟩
  | .error (.other text) => .error text

section Get

variable {priceForContent : ContentData → String → Except CatalogError (Option ℚ)}
  {fetched : Except CatalogError ContentData}

/-- What the view can answer, and when. -/
theorem get_cases :
    (∃ contentData contentPrice, fetched = .ok contentData ∧
      priceForContent contentData (sourceAndMode contentData).2 = .ok contentPrice ∧
      get priceForContent fetched =
        .ok (pricedResponse contentData (sourceAndMode contentData).1 contentPrice)) ∨
    (∃ text, ((fetched = .error (.httpError 404 text)) ∨ ∃ contentData, fetched = .ok contentData ∧
        priceForContent contentData (sourceAndMode contentData).2 = .error (.httpError 404 text)) ∧
      get priceForContent fetched = .ok ⟨.message "Content not found", 404⟩) ∨
    (∃ statusCode text, statusCode ≠ 404 ∧ ((fetched = .error (.httpError statusCode text)) ∨
        ∃ contentData, fetched = .ok contentData ∧
          priceForContent contentData (sourceAndMode contentData).2 =
            .error (.httpError statusCode text)) ∧
      get priceForContent fetched =
        .ok ⟨.message ("Failed to fetch data from catalog service with exc: " ++ text),
          statusCode⟩) ∨
    (∃ text, ((fetched = .error (.other text)) ∨ ∃ contentData, fetched = .ok contentData ∧
        priceForContent contentData (sourceAndMode contentData).2 = .error (.other text)) ∧
      get priceForContent fetched = .error text) := by
  -- the catalog's answers decide the branch; `get` is then computed
  cases hf : fetched with
  | error err =>
    cases err with
    | httpError statusCode text =>
      by_cases h404 : statusCode = 404
      · subst h404
        exact .inr (.inl ⟨text, .inl rfl, by simp [get, bind, Except.bind]⟩)
      · exact .inr (.inr (.inl ⟨statusCode, text, h404, .inl rfl,
          by simp [get, bind, Except.bind, h404]⟩))
    | other text => exact .inr (.inr (.inr ⟨text, .inl rfl, rfl⟩))
  | ok contentData =>
    cases hp : priceForContent contentData (sourceAndMode contentData).2 with
    | ok contentPrice =>
      exact .inl ⟨contentData, contentPrice, rfl, hp, by simp [get, bind, Except.bind, hp, pure,
        Except.pure]⟩
    | error err =>
      cases err with
      | httpError statusCode text =>
        by_cases h404 : statusCode = 404
        · subst h404
          exact .inr (.inl ⟨text, .inr ⟨contentData, rfl, hp⟩,
            by simp [get, bind, Except.bind, hp]⟩)
        · exact .inr (.inr (.inl ⟨statusCode, text, h404, .inr ⟨contentData, rfl, hp⟩,
            by simp [get, bind, Except.bind, hp, h404]⟩))
      | other text =>
        exact .inr (.inr (.inr ⟨text, .inr ⟨contentData, rfl, hp⟩,
          by simp [get, bind, Except.bind, hp]⟩))

example : get (fun _ mode => if mode = edxVerifiedCourseMode then .ok (some 79400) else .ok none)
      (.ok ⟨some "u", some "edX+DemoX", none⟩) =
    .ok ⟨.metadata (some "u") (some "edX+DemoX") (some "edX") 79400, 200⟩ :=
  rfl

end Get

end EnterpriseSubsidy.ContentMetadata
