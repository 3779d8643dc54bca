import EnterpriseSubsidy.Uniqueness

/-!
# One call of `redeem`

What one call of `redeem` does from any ledger, when the pricing oracle answers `p` and `enroll`
answers the reference `r` (`redeem_spec`). `get_redemption` decides the first case, and
`is_redeemable` the second. In the third, `create_transaction` hands back the row that holds the
call's key: a new row with the call's learner, content and policy and the quantity `-p` when no row
holds the key, and otherwise that row, whatever its learner, content, policy and quantity.
`commit_transaction` then commits it, and sets its reference only when `r` is not empty.
`RedemptionPost` collects what the call leaves.

A second identical call returns the first one's transaction, uncreated, exactly when that
transaction belongs to the call's learner and content (`redeem_idempotent`). A row of another
learner under the call's key breaks both statements as the spec words them
(`redeem_commits_other_learner`, `redeem_twice_creates_twice`).
-/

namespace EnterpriseSubsidy

section Call

variable (deriveKey : Int → Nat → String → String → String)

/-- What the third case of `redeem` leaves, for the call `req` at the price `p` whose enrollment
answered `r`: the returned transaction `t` and the world `w'`. -/
structure RedemptionPost (w : World) (req : Request) (p : Int) (r : Option String) (t : Transaction)
    (w' : World) : Prop where
  committed : t.state = .committed
  key : t.idempotencyKey = idempotencyKeyFor deriveKey req (-1 * p)
  /-- A row that already holds the key is the row committed, with its own fields. -/
  existing : ∀ t₀, w.ledger.findByKey t.idempotencyKey = some t₀ → t.uuid = t₀.uuid ∧
    t.lmsUserId = t₀.lmsUserId ∧ t.contentKey = t₀.contentKey ∧
    t.subsidyAccessPolicyUuid = t₀.subsidyAccessPolicyUuid ∧ t.quantity = t₀.quantity ∧
    (truthy r = false → t.referenceId = t₀.referenceId ∧ t.referenceType = t₀.referenceType)
  /-- Otherwise the row committed is new, with the call's fields. -/
  fresh : w.ledger.findByKey t.idempotencyKey = none → t.lmsUserId = req.learnerId ∧
    t.contentKey = req.contentKey ∧ t.subsidyAccessPolicyUuid = req.subsidyAccessPolicyUuid ∧
    t.quantity = -p ∧ (truthy r = false → t.referenceId = none ∧ t.referenceType = none)
  /-- A reference that is not empty is set, with `OCM_ENROLLMENT_REFERENCE_TYPE`. -/
  reference : truthy r = true →
    t.referenceId = r ∧ t.referenceType = some ocmEnrollmentReferenceType
  saved : t ∈ w'.ledger.transactions
  /-- No other transaction changes. -/
  kept : ∀ t' ∈ w.ledger.transactions, t'.uuid ≠ t.uuid → t' ∈ w'.ledger.transactions
  only : ∀ t' ∈ w'.ledger.transactions, t' = t ∨ t' ∈ w.ledger.transactions
  /-- `enroll` was called once, with the transaction. -/
  enrolled : w'.enrollments = w.enrollments ++ [⟨req.learnerId, req.contentKey, t.uuid⟩]
  startingBalance : w'.startingBalance = w.startingBalance

variable {deriveKey} {w : World} {c : Call} {p : Int} {r : Option String}

/-- `_create_redemption` when `enroll` answers `r`: the row that holds the key, committed. -/
theorem createRedemption_post (hp : c.replies.price = .ok p) (he : c.replies.enroll = .ok r) :
    ∃ t, (createRedemption deriveKey w c).1 = .ok t ∧
      RedemptionPost deriveKey w c.request p r t (createRedemption deriveKey w c).2 := by
  simp only [createRedemption_of_enroll_ok hp he, createPending_eq, commitRedemption_eq]
  obtain ⟨t₀, l', hct⟩ : ∃ t₀ l', w.ledger.createTransaction
      (idempotencyKeyFor deriveKey c.request (-1 * p)) (-1 * p) c.request.learnerId
      c.request.contentKey c.request.subsidyAccessPolicyUuid = (t₀, l') := ⟨_, _, rfl⟩
  obtain ⟨hkey, hmem, hkeep, honly, hsome, hnone⟩ := Ledger.createTransaction_spec hct
  rw [hct]
  refine ⟨_, rfl, ?_⟩
  set t := t₀.commitWith r (some ocmEnrollmentReferenceType)
  have hu : t.uuid = t₀.uuid := Transaction.commitWith_uuid _ _ _
  have htk : t.idempotencyKey = t₀.idempotencyKey := Transaction.commitWith_idempotencyKey _ _ _
  have hsaved : t.saveInto t₀ = t := by
    rw [Transaction.saveInto_of_uuid_eq hu.symm, Transaction.write_commitWith]
  refine ⟨Transaction.commitWith_state _ _ _, htk.trans hkey, fun t₁ h₁ => ?_, fun h₁ => ?_,
    fun hr => by simp [t, Transaction.commitWith, hr],
    Ledger.mem_save.mpr ⟨t₀, hmem, hsaved⟩, fun t' ht' hne => ?_, fun t' ht' => ?_,
    by simp [World.enroll, hu], rfl⟩
  · -- the row that held the key
    rw [htk, hkey] at h₁
    obtain rfl := hsome t₁ h₁
    refine ⟨hu, by simp [t], by simp [t], by simp [t], by simp [t], fun hr => ?_⟩
    simp [t, Transaction.commitWith, hr]
  · -- a new row
    rw [htk, hkey] at h₁
    obtain rfl := hnone h₁
    refine ⟨by simp [t, Ledger.newTransaction], by simp [t, Ledger.newTransaction],
      by simp [t, Ledger.newTransaction], by simp [t, Ledger.newTransaction], fun hr => ?_⟩
    simp [t, Transaction.commitWith, hr, Ledger.newTransaction]
  · exact Ledger.mem_save.mpr ⟨t', hkeep t' ht', Transaction.saveInto_of_uuid_ne hne⟩
  · obtain ⟨x, hx, rfl⟩ := Ledger.mem_save.mp ht'
    by_cases hxu : x.uuid = t.uuid
    · left
      rw [Ledger.eq_of_uuid_eq hx hmem (hxu.trans hu), hsaved]
    · rw [Transaction.saveInto_of_uuid_ne hxu]
      rcases honly x hx with hx | rfl
      · exact .inr hx
      · exact absurd hu.symm hxu

/-- Every outcome of `redeem`, with what decides it. -/
theorem redeem_cases (w : World) (c : Call) :
    (∃ t, getRedemption w.ledger c.request.learnerId c.request.contentKey = some t ∧
      redeem deriveKey w c = (.ok (some t, false), w)) ∨
    (getRedemption w.ledger c.request.learnerId c.request.contentKey = none ∧
      ∃ exc, c.replies.price = .error exc ∧ redeem deriveKey w c = (.error exc, w)) ∨
    (getRedemption w.ledger c.request.learnerId c.request.contentKey = none ∧
      ∃ p, c.replies.price = .ok p ∧ w.currentBalance < p ∧
        redeem deriveKey w c = (.ok (none, false), w)) ∨
    (getRedemption w.ledger c.request.learnerId c.request.contentKey = none ∧
      ∃ p exc, c.replies.price = .ok p ∧ p ≤ w.currentBalance ∧ c.replies.enroll = .error exc ∧
        redeem deriveKey w c = (.error exc,
            (createPending deriveKey w c.request p).2.enroll c.request
          (createPending deriveKey w c.request p).1)) ∨
    (getRedemption w.ledger c.request.learnerId c.request.contentKey = none ∧
      ∃ p r t w', c.replies.price = .ok p ∧ p ≤ w.currentBalance ∧ c.replies.enroll = .ok r ∧
        redeem deriveKey w c = (.ok (some t, true), w') ∧
        RedemptionPost deriveKey w c.request p r t w') := by
  cases hg : getRedemption w.ledger c.request.learnerId c.request.contentKey with
  | some t => exact .inl ⟨t, rfl, redeem_of_getRedemption_some hg⟩
  | none =>
    right
    cases hp : c.replies.price with
    | error exc => exact .inl ⟨rfl, exc, rfl, redeem_of_price_error hg hp⟩
    | ok p =>
      right
      by_cases hb : p ≤ w.currentBalance
      · right
        rw [redeem_of_le_balance hg hp hb]
        cases he : c.replies.enroll with
        | error exc =>
          exact .inl ⟨rfl, p, exc, rfl, hb, rfl,
            by simp [createRedemption_of_enroll_error hp he, Except.map]⟩
        | ok r =>
          obtain ⟨t, ht, hpost⟩ := createRedemption_post hp he
          exact .inr ⟨rfl, p, r, t, _, rfl, hb, rfl, by rw [ht]; rfl, hpost⟩
      · exact .inl ⟨rfl, p, rfl, not_le.mp hb, redeem_of_balance_lt hg hp (not_le.mp hb)⟩

/-! ## The three cases of a call -/

variable (deriveKey)

/-- What one call of `redeem` does at the price `p` and the reference `r`. -/
structure RedeemSpec (w : World) (req : Request) (p : Int) (r : Option String) : Prop where
  /-- A committed transaction of the learner and the content is returned uncreated, and nothing
  changes: no row, and no call of `enroll`. -/
  redeemed : ∀ t ∈ w.ledger.transactions, t.state = .committed → t.lmsUserId = req.learnerId →
    t.contentKey = req.contentKey →
      redeem deriveKey w ⟨req, ⟨.ok p, .ok r⟩⟩ = (.ok (some t, false), w)
  /-- Otherwise a balance below the price returns nothing, and nothing changes. -/
  below_price : getRedemption w.ledger req.learnerId req.contentKey = none → w.currentBalance < p →
    redeem deriveKey w ⟨req, ⟨.ok p, .ok r⟩⟩ = (.ok (none, false), w)
  /-- Otherwise the row that holds the call's key is committed and returned created. -/
  created : getRedemption w.ledger req.learnerId req.contentKey = none → p ≤ w.currentBalance →
    ∃ t w', redeem deriveKey w ⟨req, ⟨.ok p, .ok r⟩⟩ = (.ok (some t, true), w') ∧
      RedemptionPost deriveKey w req p r t w'

/-- One call of `redeem` from a ledger with at most one committed transaction per learner and
content. -/
theorem redeem_spec (w : World) (req : Request) (p : Int) (r : Option String)
    (hu : UniqueRedemptions w.ledger) : RedeemSpec deriveKey w req p r where
  redeemed t ht hc hl hk :=
    redeem_of_getRedemption_some (hl ▸ hk ▸ getRedemption_of_unique hu ht hc)
  below_price hg hb := redeem_of_balance_lt hg rfl hb
  created hg hb := by
    obtain ⟨t, ht, hpost⟩ := @createRedemption_post deriveKey w ⟨req, ⟨.ok p, .ok r⟩⟩ p r rfl rfl
    exact ⟨t, _, by rw [redeem_of_le_balance hg rfl hb, ht]; rfl, hpost⟩

/-- Learner `1`'s redemption of `"c"`, committed under the key `"a"`. -/
def learnerRedemption : Transaction :=
  ⟨0, "a", 1, "c", "p", -30, .committed, some "e1", some ocmEnrollmentReferenceType⟩

/-- A ledger that holds learner `1`'s redemption of `"c"`. -/
def redeemedLedger : Ledger := ⟨[learnerRedemption], by decide, by decide⟩

/-- One call on three ledgers against the balance `100`: an empty one; one that holds the learner's
redemption, which the call returns uncreated; and one whose failed row holds the call's key, which
the call commits with the row's own primary key and quantity. -/
theorem redeem_spec_on_sample_ledgers :
    (UniqueRedemptions (⟨100, .empty, []⟩ : World).ledger ∧
      RedeemSpec (fun _ _ _ _ => "") ⟨100, .empty, []⟩ ⟨1, "c", "p", none⟩ 10 (some "e")) ∧
    (UniqueRedemptions redeemedLedger ∧
      RedeemSpec (fun _ _ _ _ => "") ⟨100, redeemedLedger, []⟩ ⟨1, "c", "p", none⟩ 30 (some "e") ∧
      redeem (fun _ _ _ _ => "") ⟨100, redeemedLedger, []⟩
          ⟨⟨1, "c", "p", none⟩, ⟨.ok 30, .ok (some "e")⟩⟩ =
        (.ok (some learnerRedemption, false), ⟨100, redeemedLedger, []⟩)) ∧
    (UniqueRedemptions failedLedger ∧
      RedeemSpec (fun _ _ _ _ => "") ⟨100, failedLedger, []⟩ ⟨1, "c", "p", some "k"⟩ 30 (some "e") ∧
      ∃ t w', redeem (fun _ _ _ _ => "") ⟨100, failedLedger, []⟩
          ⟨⟨1, "c", "p", some "k"⟩, ⟨.ok 30, .ok (some "e")⟩⟩ = (.ok (some t, true), w') ∧
        t.uuid = 0 ∧ t.quantity = -10) := by
  have hr := redeem_spec (fun _ _ _ _ => "") ⟨100, redeemedLedger, []⟩ ⟨1, "c", "p", none⟩ 30
    (some "e") (by decide)
  have hf := redeem_spec (fun _ _ _ _ => "") ⟨100, failedLedger, []⟩ ⟨1, "c", "p", some "k"⟩ 30
    (some "e") (by decide)
  -- the failed row holds the call's key: the call commits it as it is
  obtain ⟨t, w', he, hpost⟩ := hf.created (by decide) (by decide)
  obtain ⟨hu, -, -, -, hq, -⟩ := hpost.existing ⟨0, "k", 1, "c", "p", -10, .failed, none, none⟩
    (by rw [hpost.key]; decide)
  exact ⟨⟨by decide, redeem_spec _ _ _ _ _ (by decide)⟩,
    ⟨by decide, hr, hr.redeemed learnerRedemption (List.mem_singleton_self _) rfl rfl rfl⟩,
    ⟨by decide, hf, t, w', he, hu, hq⟩⟩

/-! ## Two identical calls -/

/-- `redeem` called twice with the same arguments. -/
structure RedeemIdempotent (w : World) (c : Call) : Prop where
  /-- After a created transaction of the call's learner and content, the second call returns it
  uncreated and changes nothing, whatever the collaborators answer. -/
  created : ∀ t w₁, redeem deriveKey w c = (.ok (some t, true), w₁) →
    t.lmsUserId = c.request.learnerId → t.contentKey = c.request.contentKey → ∀ replies : Replies,
      redeem deriveKey w₁ ⟨c.request, replies⟩ = (.ok (some t, false), w₁)
  /-- After `(None, False)`, nothing has changed, and the second call at the same price returns
  `(None, False)` again. -/
  not_redeemable : ∀ w₁, redeem deriveKey w c = (.ok (none, false), w₁) → w₁ = w ∧
    ∀ enroll : Except String (Option String),
      redeem deriveKey w₁ ⟨c.request, ⟨c.replies.price, enroll⟩⟩ = (.ok (none, false), w₁)

/-- `redeem` is idempotent as far as the transaction it creates belongs to its learner and
content. -/
theorem redeem_idempotent (w : World) (c : Call) : RedeemIdempotent deriveKey w c where
  created t w₁ h hl hk replies := by
    rcases redeem_cases w c with ⟨_, _, h'⟩ | ⟨_, _, _, h'⟩ | ⟨_, _, _, _, h'⟩ |
      ⟨_, _, _, _, _, _, h'⟩ | ⟨hg, p, r, t', w', _, _, _, h', hpost⟩ <;> rw [h'] at h <;>
      simp only [Prod.mk.injEq, Except.ok.injEq, Option.some.injEq, reduceCtorEq, and_false,
        false_and] at h
    obtain ⟨⟨rfl, -⟩, rfl⟩ := h
    -- the committed transaction is the only committed one of the pair
    refine redeem_of_getRedemption_some (getRedemption_of_only hpost.saved hpost.committed hl hk ?_)
    intro x hx hxc hxl hxk
    exact (hpost.only x hx).resolve_right fun hxw => getRedemption_eq_none.mp hg x hxw hxl hxk hxc
  not_redeemable w₁ h := by
    rcases redeem_cases w c with ⟨_, _, h'⟩ | ⟨_, _, _, h'⟩ | ⟨hg, p, hp, hb, h'⟩ |
      ⟨_, _, _, _, _, _, h'⟩ | ⟨_, _, _, _, _, _, _, _, h', _⟩ <;> rw [h'] at h <;>
      simp only [Prod.mk.injEq, Except.ok.injEq, reduceCtorEq, and_false, false_and] at h
    obtain ⟨-, rfl⟩ := h
    exact ⟨rfl, fun _ => redeem_of_balance_lt hg hp hb⟩

end Call

/-! ## A row of another learner under the call's key -/

/-- A ledger with a pending row of learner `2` under the key `"k"`, left by an earlier call. -/
def otherLearnerLedger : Ledger :=
  ⟨[⟨0, "k", 2, "c2", "p2", -50, .created, none, none⟩], by decide, by decide⟩

/-- A call of learner `1` under the caller key `"k"`. -/
def keyCollisionCall : Call := ⟨⟨1, "c", "p", some "k"⟩, ⟨.ok 10, .ok (some "e")⟩⟩

/-- Learner `2`'s row, as the call under its key commits it. -/
def otherLearnerRedemption : Transaction :=
  ⟨0, "k", 2, "c2", "p2", -50, .committed, some "e", some ocmEnrollmentReferenceType⟩

/-- Learner `1`'s call under the key `"k"` commits learner `2`'s row and reports it created. -/
theorem redeem_keyCollisionCall :
    (redeem (fun _ _ _ _ => "") ⟨100, otherLearnerLedger, []⟩ keyCollisionCall).1 =
      .ok (some otherLearnerRedemption, true) := by
  decide

/-- The row that `create_transaction` hands back under the caller's key belongs to another learner,
and is the one committed and returned. -/
theorem redeem_commits_other_learner :
    ¬ ∃ deriveKey : Int → Nat → String → String → String,
      ∀ (w : World) (req : Request) (p : Int) (r : Option String), UniqueRedemptions w.ledger →
        0 ≤ p → getRedemption w.ledger req.learnerId req.contentKey = none → p ≤ w.currentBalance →
        ∃ t w', redeem deriveKey w ⟨req, ⟨.ok p, .ok r⟩⟩ = (.ok (some t, true), w') ∧
          t.state = .committed ∧ t.lmsUserId = req.learnerId ∧ t.contentKey = req.contentKey ∧
          t.subsidyAccessPolicyUuid = req.subsidyAccessPolicyUuid ∧ t.quantity = -p ∧
          t.referenceId = r ∧ t.referenceType = some ocmEnrollmentReferenceType := by
  rintro ⟨d, hd⟩
  obtain ⟨t, w', h, -, hl, -⟩ := hd ⟨100, otherLearnerLedger, []⟩ keyCollisionCall.request 10
    (some "e") (by decide) (by decide) (by decide) (by decide)
  change redeem d ⟨100, otherLearnerLedger, []⟩ keyCollisionCall = _ at h
  rw [redeem_deriveKey d (fun _ _ _ _ => "")
    (show keyCollisionCall.request.idempotencyKey = some "k" from rfl) rfl] at h
  have h1 := congrArg Prod.fst h
  rw [redeem_keyCollisionCall] at h1
  cases h1
  exact absurd hl (by decide)

/-- A second identical call does not find the first one's transaction, which belongs to another
learner: it commits that row again and reports it created. -/
theorem redeem_twice_creates_twice :
    ¬ ∃ deriveKey : Int → Nat → String → String → String,
      ∀ (w : World) (c : Call) (t : Transaction) (w₁ : World), UniqueRedemptions w.ledger →
        redeem deriveKey w c = (.ok (some t, true), w₁) →
        redeem deriveKey w₁ c = (.ok (some t, false), w₁) := by
  rintro ⟨d, hd⟩
  have hd₀ : ∀ w, redeem d w keyCollisionCall = redeem (fun _ _ _ _ => "") w keyCollisionCall :=
    redeem_deriveKey d _ (show keyCollisionCall.request.idempotencyKey = some "k" from rfl) rfl
  have h := hd ⟨100, otherLearnerLedger, []⟩ keyCollisionCall otherLearnerRedemption
    (redeem d ⟨100, otherLearnerLedger, []⟩ keyCollisionCall).2 (by decide)
    (Prod.ext (by rw [hd₀]; exact redeem_keyCollisionCall) rfl)
  simp only [hd₀] at h
  exact absurd (congrArg Prod.fst h) (by decide)

end EnterpriseSubsidy
