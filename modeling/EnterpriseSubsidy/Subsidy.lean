import EnterpriseSubsidy.Ledger

/-!
# `Subsidy.redeem`

The methods of `Subsidy` in `subsidy/models.py` that a redemption runs, in the order the source
calls them: `get_redemption`, `is_redeemable`, and `_create_redemption` with its
`create_transaction`, `enroll`, `commit_transaction`, and the `rollback_transaction` of its `except`
branch; `redeem` on top. A Python exception is the `error` side of an `Except`, returned beside the
world as it stands when the exception is raised, so that the ledger keeps what was written before
it.

Two collaborators outside the repository answer each call through `Replies`: the pricing oracle
behind the cached `price_for_content`, which one call reads twice and which gives one answer, and
the enterprise API's `enroll`. The key derivation `create_idempotency_key_for_transaction` of the
ledger library is the parameter `deriveKey`: the spec says only that it is a deterministic function
of the quantity, the learner, the content and the policy (the ledger is fixed), and every result
about it holds for every such function.
-/

namespace EnterpriseSubsidy

/-- `OCM_ENROLLMENT_REFERENCE_TYPE`. -/
def ocmEnrollmentReferenceType : String := "enterprise_fufillment_source_uuid"

/-- A call of the enterprise API's `enroll`: the learner, the content, and the primary key of the
transaction passed along. -/
structure EnrollRequest where
  learnerId : Nat
  contentKey : String
  transactionUuid : Nat
  deriving DecidableEq, Repr

/-- What a redemption reads and writes: the subsidy's `starting_balance` and ledger, and the
requests sent to the enterprise API's `enroll`. -/
structure World where
  startingBalance : Int
  ledger : Ledger
  enrollments : List EnrollRequest
  deriving DecidableEq

/-- Modelled from the spec: `current_balance`, the ledger's `balance()`, is the starting balance
plus the committed quantities. -/
def World.currentBalance (w : World) : Int := w.startingBalance + w.ledger.committedTotal

/-- The arguments of `redeem`. -/
structure Request where
  learnerId : Nat
  contentKey : String
  subsidyAccessPolicyUuid : String
  idempotencyKey : Option String
  deriving DecidableEq, Repr

/-- Equality of results is decidable, so that runs on concrete inputs can be checked. -/
instance exceptDecEq {ε α : Type} [DecidableEq ε] [DecidableEq α] : DecidableEq (Except ε α)
  | .ok a, .ok b => if h : a = b then isTrue (h ▸ rfl) else isFalse fun e => h (Except.ok.inj e)
  | .error a, .error b =>
    if h : a = b then isTrue (h ▸ rfl) else isFalse fun e => h (Except.error.inj e)
  | .ok _, .error _ => isFalse Except.noConfusion
  | .error _, .ok _ => isFalse Except.noConfusion

/-- The answers of the collaborators to one call: `price_for_content(content_key)`, cached so that
both reads in the call agree, and `enroll`, a reference id or an exception. -/
structure Replies where
  price : Except String Int
  enroll : Except String (Option String)
  deriving DecidableEq

/-- One call of `redeem`, with its collaborators' answers. -/
structure Call where
  request : Request
  replies : Replies
  deriving DecidableEq

/-- Python's truth value of an optional string: `None` and `""` are false. -/
def truthy : Option String → Bool
  | some s => !s.isEmpty
  | none => false

/-! ## The reads -/

/-- `transactions_for_learner_and_content`. -/
def transactionsForLearnerAndContent (l : Ledger) (lmsUserId : Nat) (contentKey : String) :
    List Transaction :=
  l.transactions.filter fun t => t.lmsUserId == lmsUserId && t.contentKey == contentKey

/-- `get_redemption`: the first committed transaction of the learner and the content. The queryset
has no ordering, so `first()` orders it by the primary key; under `UniqueRedemptions` there is one
candidate at most. -/
def getRedemption (l : Ledger) (learnerId : Nat) (contentKey : String) : Option Transaction :=
  ((transactionsForLearnerAndContent l learnerId contentKey).filter
    (·.state == .committed)).argmin Transaction.uuid

/-- `is_redeemable`: whether the current balance covers the price, and the price. -/
def isRedeemable (w : World) (price : Except String Int) : Except String (Bool × Int) :=
  price.map fun contentPrice => (decide (contentPrice ≤ w.currentBalance), contentPrice)

/-- At most one committed transaction per learner and content: the spec's redemption is unique. -/
def UniqueRedemptions (l : Ledger) : Prop :=
  ∀ t ∈ l.transactions, ∀ t' ∈ l.transactions, t.state = .committed → t'.state = .committed →
    t.lmsUserId = t'.lmsUserId → t.contentKey = t'.contentKey → t = t'

instance : DecidablePred UniqueRedemptions := fun l =>
  inferInstanceAs (Decidable (∀ t ∈ l.transactions, ∀ t' ∈ l.transactions,
    t.state = .committed → t'.state = .committed → t.lmsUserId = t'.lmsUserId →
      t.contentKey = t'.contentKey → t = t'))

/-- What `get_redemption` finds is a committed row of its learner and content. -/
theorem getRedemption_eq_some {l : Ledger} {lid : Nat} {ck : String} {t : Transaction}
    (h : getRedemption l lid ck = some t) :
    t ∈ l.transactions ∧ t.lmsUserId = lid ∧ t.contentKey = ck ∧ t.state = .committed := by
  have := List.argmin_mem (show t ∈ List.argmin Transaction.uuid _ from h)
  simp only [getRedemption, transactionsForLearnerAndContent, List.mem_filter, Bool.and_eq_true,
    beq_iff_eq] at this
  exact ⟨this.1.1, this.1.2.1, this.1.2.2, this.2⟩

/-- `get_redemption` finds nothing exactly when its learner and content have no committed row. -/
theorem getRedemption_eq_none {l : Ledger} {lid : Nat} {ck : String} :
    getRedemption l lid ck = none ↔
      ∀ t ∈ l.transactions, t.lmsUserId = lid → t.contentKey = ck → t.state ≠ .committed := by
  simp only [getRedemption, transactionsForLearnerAndContent, List.filter_filter,
    List.argmin_eq_none, List.filter_eq_nil_iff, Bool.and_eq_true, beq_iff_eq, not_and, ne_eq]
  exact ⟨fun h t ht h1 h2 h3 => h t ht h3 h1 h2, fun h t ht h3 h1 h2 => h t ht h1 h2 h3⟩

/-- `get_redemption` finds the only committed transaction of its learner and content. -/
theorem getRedemption_of_only {l : Ledger} {lid : Nat} {ck : String} {t : Transaction}
    (ht : t ∈ l.transactions) (hc : t.state = .committed) (hl : t.lmsUserId = lid)
    (hk : t.contentKey = ck)
    (honly : ∀ x ∈ l.transactions, x.state = .committed → x.lmsUserId = lid → x.contentKey = ck →
      x = t) :
    getRedemption l lid ck = some t := by
  cases h : getRedemption l lid ck with
  | none => exact absurd hc (getRedemption_eq_none.mp h t ht hl hk)
  | some t' =>
    obtain ⟨ht', hl', hk', hc'⟩ := getRedemption_eq_some h
    rw [honly t' ht' hc' hl' hk']

/-- Under `UniqueRedemptions`, `get_redemption` finds the committed transaction of its learner and
content. -/
theorem getRedemption_of_unique {l : Ledger} {t : Transaction} (hu : UniqueRedemptions l)
    (ht : t ∈ l.transactions) (hc : t.state = .committed) :
    getRedemption l t.lmsUserId t.contentKey = some t :=
  getRedemption_of_only ht hc rfl rfl fun x hx hxc hl hk => hu x hx t ht hxc hc hl hk

/-! ## The writes -/

/-- `commit_transaction`: a truthy `reference_id` needs a truthy `reference_type`, and both are set;
the state becomes committed, and the instance is saved. -/
def commitTransaction (l : Ledger) (t : Transaction) (referenceId referenceType : Option String) :
    Except String (Transaction × Ledger) :=
  if truthy referenceId then
    if truthy referenceType then
      let t := { t with referenceId, referenceType, state := .committed }
      .ok (t, l.save t)
    else .error "A reference_id was provided without a reference_type."
  else
    let t := { t with state := .committed }
    .ok (t, l.save t)

/-- The instance that `commit_transaction` saves when its `reference_type` is truthy. -/
def Transaction.commitWith (t : Transaction) (referenceId referenceType : Option String) :
    Transaction :=
  if truthy referenceId then { t with referenceId, referenceType, state := .committed }
  else { t with state := .committed }

/-- `commit_transaction` with a truthy `reference_type` saves `commitWith`. -/
theorem commitTransaction_eq {l : Ledger} {t : Transaction}
    {referenceId referenceType : Option String}
    (h : truthy referenceType) :
    commitTransaction l t referenceId referenceType =
      .ok (t.commitWith referenceId referenceType,
          l.save (t.commitWith referenceId referenceType)) := by
  unfold commitTransaction Transaction.commitWith
  split <;> simp_all

section CommitWith

variable (t : Transaction) (r rt : Option String)

/-- The committed instance is committed. -/
@[simp] theorem Transaction.commitWith_state : (t.commitWith r rt).state = .committed := by
  unfold commitWith; split <;> rfl
/-- Committing keeps the primary key. -/
@[simp] theorem Transaction.commitWith_uuid : (t.commitWith r rt).uuid = t.uuid := by
  unfold commitWith; split <;> rfl
/-- Committing keeps the idempotency key. -/
@[simp] theorem Transaction.commitWith_idempotencyKey :
    (t.commitWith r rt).idempotencyKey = t.idempotencyKey := by
  unfold commitWith; split <;> rfl
/-- Committing keeps the learner. -/
@[simp] theorem Transaction.commitWith_lmsUserId : (t.commitWith r rt).lmsUserId = t.lmsUserId := by
  unfold commitWith; split <;> rfl
/-- Committing keeps the content. -/
@[simp] theorem Transaction.commitWith_contentKey :
    (t.commitWith r rt).contentKey = t.contentKey := by
  unfold commitWith; split <;> rfl
/-- Committing keeps the policy. -/
@[simp] theorem Transaction.commitWith_subsidyAccessPolicyUuid :
    (t.commitWith r rt).subsidyAccessPolicyUuid = t.subsidyAccessPolicyUuid := by
  unfold commitWith; split <;> rfl
/-- Committing keeps the quantity. -/
@[simp] theorem Transaction.commitWith_quantity : (t.commitWith r rt).quantity = t.quantity := by
  unfold commitWith; split <;> rfl

/-- Saving the committed instance into its own row gives the instance. -/
@[simp] theorem Transaction.write_commitWith : t.write (t.commitWith r rt) = t.commitWith r rt := by
  unfold commitWith write; split <;> rfl

end CommitWith

/-- `rollback_transaction`, whose body is `pass`. -/
def rollbackTransaction (l : Ledger) (_t : Transaction) : Ledger := l

/-- The key `_create_redemption` passes to `create_transaction`: the caller's, unless it is `None`
or empty, and otherwise `create_idempotency_key_for_transaction` of the quantity, the learner, the
content and the policy. -/
def idempotencyKeyFor (deriveKey : Int → Nat → String → String → String) (req : Request)
    (quantity : Int) : String :=
  match req.idempotencyKey with
  | some key =>
    if key.isEmpty then
      deriveKey quantity req.learnerId req.contentKey req.subsidyAccessPolicyUuid
    else key
  | none => deriveKey quantity req.learnerId req.contentKey req.subsidyAccessPolicyUuid

/-- A caller's key that is not empty is the key, whatever the derivation. -/
theorem idempotencyKeyFor_of_some {deriveKey : Int → Nat → String → String → String} {req : Request}
    {key : String} (h : req.idempotencyKey = some key) (hk : key.isEmpty = false) (quantity : Int) :
    idempotencyKeyFor deriveKey req quantity = key := by
  simp [idempotencyKeyFor, h, hk]

section Redeem

variable (deriveKey : Int → Nat → String → String → String)

/-- The first half of `_create_redemption` once the price is read: the quantity `-1 * price`, the
key, and `create_transaction`. -/
def createPending (w : World) (req : Request) (price : Int) : Transaction × World :=
  let quantity := -1 * price
  let (t, ledger) := w.ledger.createTransaction (idempotencyKeyFor deriveKey req quantity) quantity
    req.learnerId req.contentKey req.subsidyAccessPolicyUuid
  (t, { w with ledger })

/-- The call of `enroll`, recorded in the world before its answer. -/
def World.enroll (w : World) (req : Request) (t : Transaction) : World :=
  { w with enrollments := w.enrollments ++ [⟨req.learnerId, req.contentKey, t.uuid⟩] }

/-- `rollback_transaction` in the `except` branch, before the exception is raised again. -/
def World.rollback (w : World) (t : Transaction) : World :=
  { w with ledger := rollbackTransaction w.ledger t }

/-- `commit_transaction` with the enrollment's reference, or the `except` branch. -/
def commitRedemption (w : World) (t : Transaction) (referenceId : Option String) :
    Except String Transaction × World :=
  match commitTransaction w.ledger t referenceId (some ocmEnrollmentReferenceType) with
  | .error exc => (.error exc, w.rollback t)
  | .ok (t, ledger) => (.ok t, { w with ledger })

/-- `_create_redemption`. The price is read again, from the cache. -/
def createRedemption (w : World) (c : Call) : Except String Transaction × World :=
  match c.replies.price with
  | .error exc => (.error exc, w)
  | .ok price =>
    let (t, w) := createPending deriveKey w c.request price
    let w := w.enroll c.request t
    match c.replies.enroll with
    | .error exc => (.error exc, w.rollback t)
    | .ok referenceId => commitRedemption w t referenceId

/-- `redeem`. The transaction that `_create_redemption` returns is a model instance, which Python
always takes as true, so a returned transaction is reported created. -/
def redeem (w : World) (c : Call) : Except String (Option Transaction × Bool) × World :=
  match getRedemption w.ledger c.request.learnerId c.request.contentKey with
  | some existingTransaction => (.ok (some existingTransaction, false), w)
  | none =>
    match isRedeemable w c.replies.price with
    | .error exc => (.error exc, w)
    | .ok (false, _) => (.ok (none, false), w)
    | .ok (true, _) =>
      match createRedemption deriveKey w c with
      | (.ok transaction, w) => (.ok (some transaction, true), w)
      | (.error exc, w) => (.error exc, w)

variable {deriveKey} {w : World} {c : Call}

/-- Calling `enroll` leaves the ledger. -/
@[simp] theorem World.enroll_ledger (req : Request) (t : Transaction) :
    (w.enroll req t).ledger = w.ledger := rfl
/-- Calling `enroll` leaves the starting balance. -/
@[simp] theorem World.enroll_startingBalance (req : Request) (t : Transaction) :
    (w.enroll req t).startingBalance = w.startingBalance := rfl
/-- The rollback changes nothing. -/
@[simp] theorem World.rollback_eq (t : Transaction) : w.rollback t = w := rfl

/-- The key, the quantity and the get-or-create of `_create_redemption`, unfolded. -/
theorem createPending_eq (req : Request) (price : Int) :
    createPending deriveKey w req price =
      ((w.ledger.createTransaction (idempotencyKeyFor deriveKey req (-1 * price)) (-1 * price)
          req.learnerId req.contentKey req.subsidyAccessPolicyUuid).1,
        { w with ledger := (w.ledger.createTransaction
          (idempotencyKeyFor deriveKey req (-1 * price))
          (-1 * price) req.learnerId req.contentKey req.subsidyAccessPolicyUuid).2 }) := rfl

/-- `commit_transaction` in `_create_redemption` never raises: its `reference_type` is the
constant. -/
theorem commitRedemption_eq (t : Transaction) (referenceId : Option String) :
    commitRedemption w t referenceId =
      (.ok (t.commitWith referenceId (some ocmEnrollmentReferenceType)),
        { w with ledger :=
          w.ledger.save (t.commitWith referenceId (some ocmEnrollmentReferenceType)) }) := by
  simp [commitRedemption,
      commitTransaction_eq (show truthy (some ocmEnrollmentReferenceType) by decide)]

/-- `_create_redemption` when `enroll` answers a reference: the pending transaction is committed. -/
theorem createRedemption_of_enroll_ok {price : Int} {referenceId : Option String}
    (hp : c.replies.price = .ok price) (he : c.replies.enroll = .ok referenceId) :
    createRedemption deriveKey w c =
      let (t, w) := createPending deriveKey w c.request price
      commitRedemption (w.enroll c.request t) t referenceId := by
  simp [createRedemption, hp, he]

/-- `_create_redemption` when `enroll` raises: the exception, and the pending transaction left in
the ledger, since the rollback does nothing. -/
theorem createRedemption_of_enroll_error {price : Int} {exc : String}
    (hp : c.replies.price = .ok price) (he : c.replies.enroll = .error exc) :
    createRedemption deriveKey w c =
      (.error exc, (createPending deriveKey w c.request price).2.enroll c.request
        (createPending deriveKey w c.request price).1) := by
  simp [createRedemption, hp, he]

/-- A committed transaction of the learner and the content is returned uncreated. -/
theorem redeem_of_getRedemption_some {t : Transaction}
    (h : getRedemption w.ledger c.request.learnerId c.request.contentKey = some t) :
    redeem deriveKey w c = (.ok (some t, false), w) := by
  simp [redeem, h]

/-- Without a redemption, the pricing oracle's exception is raised. -/
theorem redeem_of_price_error {exc : String}
    (h : getRedemption w.ledger c.request.learnerId c.request.contentKey = none)
    (hp : c.replies.price = .error exc) : redeem deriveKey w c = (.error exc, w) := by
  simp [redeem, h, isRedeemable, hp, Except.map]

/-- Without a redemption, a balance below the price returns `(None, False)`. -/
theorem redeem_of_balance_lt {price : Int}
    (h : getRedemption w.ledger c.request.learnerId c.request.contentKey = none)
    (hp : c.replies.price = .ok price) (hb : w.currentBalance < price) :
    redeem deriveKey w c = (.ok (none, false), w) := by
  simp [redeem, h, isRedeemable, hp, Except.map, not_le.mpr hb]

/-- Without a redemption and with the balance enough, `_create_redemption` decides the result. -/
theorem redeem_of_le_balance {price : Int}
    (h : getRedemption w.ledger c.request.learnerId c.request.contentKey = none)
    (hp : c.replies.price = .ok price) (hb : price ≤ w.currentBalance) :
    redeem deriveKey w c =
      ((createRedemption deriveKey w c).1.map fun t => (some t, true),
        (createRedemption deriveKey w c).2) := by
  simp only [redeem, h, isRedeemable, hp, Except.map, hb, decide_True]
  rcases createRedemption deriveKey w c with ⟨_ | _, _⟩ <;> rfl

/-- A call whose caller key is not empty redeems the same under every key derivation. -/
theorem redeem_deriveKey (d d' : Int → Nat → String → String → String) {c : Call} {key : String}
    (h : c.request.idempotencyKey = some key) (hk : key.isEmpty = false) (w : World) :
    redeem d w c = redeem d' w c := by
  simp only [redeem, createRedemption, createPending, idempotencyKeyFor_of_some h hk]

end Redeem

end EnterpriseSubsidy
