import EnterpriseSubsidy.Runs

/-!
# What a subsidy is for

The service that the redemption engine implements (`Service`): a balance, and for each learner and
content at most one redemption, with the policy it went through, what it cost and the enrollment it
paid for. A request returns the recorded redemption, or nothing when the balance is below the price,
or records a new redemption and pays its price out of the balance; an exception of the pricing
oracle or of `enroll` reaches the caller and changes nothing. The balance so never goes below zero
(`Service.run_balance_nonneg`), and a recorded redemption never changes (`Service.run_redemption`).

`World.service` reads a world of the code as the service sees it: the current balance, and the
transaction that `get_redemption` finds for each learner and content. A call of `redeem` is a step
of the service (`redeem_refines`) when the rows under the call's key were made for it (`RowsFit`),
the ledger holds one committed transaction per learner and content, and only committed rows carry a
reference. A sequential run keeps all three as long as calls that share a key are one request at one
price (`KeysFitCalls`), so the whole run is a run of the service (`redeemRun_refines`). A failed attempt is then invisible to the calls
after it (`failed_attempt_unobservable`).
-/

namespace EnterpriseSubsidy

/-! ## The service -/

/-- A redemption as the service sees it: the policy it went through, what it cost, and the
enrollment it paid for. -/
structure Redemption where
  policy : String
  amount : Int
  reference : Option String
  deriving DecidableEq, Repr

/-- What a subsidy is for: the balance left, and the redemption of each learner and content, if
any. -/
@[ext]
structure Service where
  balance : Int
  redemption : Nat → String → Option Redemption

namespace Service

/-- Records the redemption `r` of a learner and a content, and pays its amount out of the
balance. -/
def record (s : Service) (learnerId : Nat) (contentKey : String) (r : Redemption) : Service where
  balance := s.balance - r.amount
  redemption lid ck := if lid = learnerId ∧ ck = contentKey then some r else s.redemption lid ck

/-- A request, with the price the oracle answers and what `enroll` answers. -/
def redeem (s : Service) (c : Call) : Except String (Option Redemption × Bool) × Service :=
  match s.redemption c.request.learnerId c.request.contentKey with
  | some r => (.ok (some r, false), s)
  | none =>
    match c.replies.price with
    | .error exc => (.error exc, s)
    | .ok price =>
      if s.balance < price then (.ok (none, false), s)
      else
        match c.replies.enroll with
        | .error exc => (.error exc, s)
        | .ok reference =>
          let r : Redemption :=
            ⟨c.request.subsidyAccessPolicyUuid, price, if truthy reference then reference else none⟩
          (.ok (some r, true), s.record c.request.learnerId c.request.contentKey r)

/-- Requests one after another. -/
def run (s : Service) : List Call → List (Except String (Option Redemption × Bool)) × Service
  | [] => ([], s)
  | c :: cs =>
    let (result, s) := s.redeem c
    let (results, s) := run s cs
    (result :: results, s)

/-- A run of the service is its first request, then the others. -/
theorem run_cons (s : Service) (c : Call) (cs : List Call) :
    s.run (c :: cs) = ((s.redeem c).1 :: ((s.redeem c).2.run cs).1, ((s.redeem c).2.run cs).2) :=
  rfl

section Redeem

variable {s : Service} {c : Call} {p : Int}

/-- A recorded redemption is returned uncreated. -/
theorem redeem_of_some {r : Redemption}
    (h : s.redemption c.request.learnerId c.request.contentKey = some r) :
    s.redeem c = (.ok (some r, false), s) := by
  simp [redeem, h]

/-- Without a redemption, the pricing oracle's exception reaches the caller. -/
theorem redeem_of_price_error {exc : String}
    (h : s.redemption c.request.learnerId c.request.contentKey = none)
    (hp : c.replies.price = .error exc) : s.redeem c = (.error exc, s) := by
  simp [redeem, h, hp]

/-- Without a redemption, a balance below the price returns nothing. -/
theorem redeem_of_lt (h : s.redemption c.request.learnerId c.request.contentKey = none)
    (hp : c.replies.price = .ok p) (hb : s.balance < p) : s.redeem c = (.ok (none, false), s) := by
  simp [redeem, h, hp, hb]

/-- Without a redemption and with the balance enough, `enroll`'s exception reaches the caller. -/
theorem redeem_of_enroll_error {exc : String}
    (h : s.redemption c.request.learnerId c.request.contentKey = none)
    (hp : c.replies.price = .ok p) (hb : ¬ s.balance < p) (he : c.replies.enroll = .error exc) :
    s.redeem c = (.error exc, s) := by
  simp [redeem, h, hp, hb, he]

/-- Without a redemption and with the balance enough, the redemption is recorded and returned
created. -/
theorem redeem_of_enroll_ok {reference : Option String}
    (h : s.redemption c.request.learnerId c.request.contentKey = none)
    (hp : c.replies.price = .ok p) (hb : ¬ s.balance < p) (he : c.replies.enroll = .ok reference) :
    s.redeem c = (.ok (some ⟨c.request.subsidyAccessPolicyUuid, p,
        if truthy reference then reference else none⟩, true),
      s.record c.request.learnerId c.request.contentKey
        ⟨c.request.subsidyAccessPolicyUuid, p, if truthy reference then reference else none⟩) := by
  simp [redeem, h, hp, hb, he]

end Redeem

/-- A request changes the service only by recording, for a learner and a content that had none, a
redemption that the balance covers, which it returns created. -/
theorem redeem_eq_or_record (s : Service) (c : Call) :
    (s.redeem c).2 = s ∨ ∃ r, s.redemption c.request.learnerId c.request.contentKey = none ∧
      r.amount ≤ s.balance ∧ (s.redeem c).1 = .ok (some r, true) ∧
      (s.redeem c).2 = s.record c.request.learnerId c.request.contentKey r := by
  unfold redeem
  split
  · exact .inl rfl
  · rename_i hn
    split
    · exact .inl rfl
    · split
      · exact .inl rfl
      · split
        · exact .inl rfl
        · exact .inr ⟨_, hn, by dsimp only; omega, rfl, rfl⟩

/-- The balance never goes below zero: a redemption is recorded only when the balance covers it. -/
theorem run_balance_nonneg (s : Service) (calls : List Call) (h : 0 ≤ s.balance) :
    0 ≤ (s.run calls).2.balance := by
  induction calls generalizing s with
  | nil => exact h
  | cons c cs ih =>
    rw [run_cons]
    apply ih
    rcases redeem_eq_or_record s c with h' | ⟨r, -, hr, -, h'⟩ <;> rw [h']
    · exact h
    · simp only [record]
      omega

/-- A recorded redemption stays recorded, whatever requests follow. -/
theorem run_redemption {s : Service} {lid : Nat} {ck : String} {r : Redemption} (calls : List Call)
    (h : s.redemption lid ck = some r) : (s.run calls).2.redemption lid ck = some r := by
  induction calls generalizing s with
  | nil => exact h
  | cons c cs ih =>
    rw [run_cons]
    apply ih
    rcases redeem_eq_or_record s c with h' | ⟨r', hn, -, -, h'⟩ <;> rw [h']
    · exact h
    · simp only [record]
      split_ifs with hp
      · obtain ⟨rfl, rfl⟩ := hp
        rw [h] at hn
        cases hn
      · exact h

end Service

/-! ## The code as the service sees it -/

/-- The redemption a transaction records: its policy, its debit, and its reference. -/
def Transaction.redemption (t : Transaction) : Redemption :=
  ⟨t.subsidyAccessPolicyUuid, -t.quantity, t.referenceId⟩

/-- A world as the service sees it: the current balance, and the transaction that
`get_redemption` finds for each learner and content. -/
def World.service (w : World) : Service where
  balance := w.currentBalance
  redemption lid ck := (getRedemption w.ledger lid ck).map Transaction.redemption

/-- A result of `redeem` as the service's caller sees it. -/
def redemptionResult (result : Except String (Option Transaction × Bool)) :
    Except String (Option Redemption × Bool) :=
  result.map fun r => (r.1.map Transaction.redemption, r.2)

/-- Only committed rows carry a reference: `commit_transaction` writes it with the state. -/
def Ledger.NoPendingReference (l : Ledger) : Prop :=
  ∀ t ∈ l.transactions, t.state ≠ .committed → t.referenceId = none

instance (l : Ledger) : Decidable l.NoPendingReference :=
  inferInstanceAs (Decidable (∀ t ∈ l.transactions, t.state ≠ .committed → t.referenceId = none))

/-- The redemption of a committed instance: the reference is the enrollment's when it is truthy. -/
theorem Transaction.redemption_commitWith (t : Transaction) (r rt : Option String) :
    (t.commitWith r rt).redemption =
      ⟨t.subsidyAccessPolicyUuid, -t.quantity, if truthy r then r else t.referenceId⟩ := by
  unfold commitWith
  split <;> simp_all [redemption]

/-- `get_redemption` reads only the committed rows of its learner and content, and under
`UniqueRedemptions` not their order. -/
theorem getRedemption_congr {l l' : Ledger} {lid : Nat} {ck : String} (hu : UniqueRedemptions l)
    (h : ∀ x, x.state = .committed → x.lmsUserId = lid → x.contentKey = ck →
      (x ∈ l'.transactions ↔ x ∈ l.transactions)) :
    getRedemption l' lid ck = getRedemption l lid ck := by
  cases hg : getRedemption l lid ck with
  | some t =>
    obtain ⟨ht, hl, hk, hc⟩ := getRedemption_eq_some hg
    exact getRedemption_of_only ((h t hc hl hk).mpr ht) hc hl hk fun x hx hxc hxl hxk =>
      hu x ((h x hxc hxl hxk).mp hx) t ht hxc hc (hxl.trans hl.symm) (hxk.trans hk.symm)
  | none =>
    exact getRedemption_eq_none.mpr fun x hx hxl hxk hxc =>
      getRedemption_eq_none.mp hg x ((h x hxc hxl hxk).mp hx) hxl hxk hxc

section Refinement

variable (deriveKey : Int → Nat → String → String → String)

/-- The rows of the ledger that hold the call's key were made for the call: they are debited its
price and carry its learner, content and policy. -/
def RowsFit (l : Ledger) (c : Call) : Prop :=
  ∀ t ∈ l.transactions, c.key deriveKey = some t.idempotencyKey →
    c.replies.price = .ok (-t.quantity) ∧ t.lmsUserId = c.request.learnerId ∧
      t.contentKey = c.request.contentKey ∧
      t.subsidyAccessPolicyUuid = c.request.subsidyAccessPolicyUuid

/-- The calls of a run and the rows under their keys agree: calls that share a key are one request
at one price, and the rows under a call's key were made for it. -/
structure KeysFitCalls (w : World) (calls : List Call) : Prop where
  one_request : ∀ c ∈ calls, ∀ c' ∈ calls, c.key deriveKey ≠ none →
    c.key deriveKey = c'.key deriveKey → c.request.learnerId = c'.request.learnerId ∧
      c.request.contentKey = c'.request.contentKey ∧
      c.request.subsidyAccessPolicyUuid = c'.request.subsidyAccessPolicyUuid ∧
      c.replies.price = c'.replies.price
  rows : ∀ c ∈ calls, RowsFit deriveKey w.ledger c

instance (w : World) (calls : List Call) : Decidable (KeysFitCalls deriveKey w calls) :=
  decidable_of_iff ((∀ c ∈ calls, ∀ c' ∈ calls, c.key deriveKey ≠ none →
      c.key deriveKey = c'.key deriveKey → c.request.learnerId = c'.request.learnerId ∧
        c.request.contentKey = c'.request.contentKey ∧
        c.request.subsidyAccessPolicyUuid = c'.request.subsidyAccessPolicyUuid ∧
        c.replies.price = c'.replies.price) ∧
    ∀ c ∈ calls, ∀ t ∈ w.ledger.transactions, c.key deriveKey = some t.idempotencyKey →
      c.replies.price = .ok (-t.quantity) ∧ t.lmsUserId = c.request.learnerId ∧
        t.contentKey = c.request.contentKey ∧
        t.subsidyAccessPolicyUuid = c.request.subsidyAccessPolicyUuid)
    ⟨fun ⟨h, h'⟩ => ⟨h, h'⟩, fun ⟨h, h'⟩ => ⟨h, h'⟩⟩

/-- The row that a call at the price `p` commits, as the service needs it: made for the call,
debited `p`, and not committed yet, so without a reference. -/
structure FreshRow (c : Call) (p : Int) (t : Transaction) : Prop where
  lmsUserId : t.lmsUserId = c.request.learnerId
  contentKey : t.contentKey = c.request.contentKey
  policy : t.subsidyAccessPolicyUuid = c.request.subsidyAccessPolicyUuid
  quantity : t.quantity = -p
  pending : t.state ≠ .committed
  reference : t.referenceId = none

variable {deriveKey} {w : World} {c : Call} {p : Int}

/-- When `get_redemption` found nothing, the row that `create_transaction` hands back under rows
that fit the call is a fresh row for it. -/
theorem createPending_fresh
    (hg : getRedemption w.ledger c.request.learnerId c.request.contentKey = none)
    (hn : w.ledger.NoPendingReference) (hr : RowsFit deriveKey w.ledger c)
    (hp : c.replies.price = .ok p) : FreshRow c p (createPending deriveKey w c.request p).1 := by
  obtain ⟨t₀, l', hct⟩ : ∃ t₀ l', w.ledger.createTransaction
      (idempotencyKeyFor deriveKey c.request (-1 * p)) (-1 * p) c.request.learnerId
      c.request.contentKey c.request.subsidyAccessPolicyUuid = (t₀, l') := ⟨_, _, rfl⟩
  obtain ⟨-, -, -, -, hsome, hnone⟩ := Ledger.createTransaction_spec hct
  have ht₀ : (createPending deriveKey w c.request p).1 = t₀ := by rw [createPending_eq, hct]
  rw [ht₀]
  cases hf : w.ledger.findByKey (idempotencyKeyFor deriveKey c.request (-1 * p)) with
  | none =>
    obtain rfl := hnone hf
    exact ⟨rfl, rfl, rfl, by simp [Ledger.newTransaction], by simp [Ledger.newTransaction], rfl⟩
  | some t =>
    obtain ⟨ht, hk⟩ := Ledger.findByKey_eq_some.mp hf
    obtain rfl := hsome t hf
    obtain ⟨hq, hl, hc, hpol⟩ := hr t₀ ht (by rw [Call.key_of_price hp, hk])
    have hnc : t₀.state ≠ .committed := getRedemption_eq_none.mp hg t₀ ht hl hc
    rw [hp, Except.ok.injEq] at hq
    exact ⟨hl, hc, hpol, by omega, hnc, hn t₀ ht hnc⟩

/-- `_create_redemption` when `enroll` answers `r` and the row handed back was not committed: that
row, committed, joins the committed rows, and the balance pays its debit. -/
theorem createRedemption_commits {r : Option String} (hp : c.replies.price = .ok p)
    (he : c.replies.enroll = .ok r)
    (hnc : (createPending deriveKey w c.request p).1.state ≠ .committed) :
    (createRedemption deriveKey w c).1 = .ok ((createPending deriveKey w c.request p).1.commitWith r
      (some ocmEnrollmentReferenceType)) ∧
    (createRedemption deriveKey w c).2.currentBalance =
      w.currentBalance + (createPending deriveKey w c.request p).1.quantity ∧
    ∀ x, x.state = .committed → (x ∈ (createRedemption deriveKey w c).2.ledger.transactions ↔
      x = (createPending deriveKey w c.request p).1.commitWith r (some ocmEnrollmentReferenceType) ∨
        x ∈ w.ledger.transactions) := by
  obtain ⟨t, ht, hpost⟩ := @createRedemption_post deriveKey w c p r hp he
  have h₁ : (createRedemption deriveKey w c).1 =
      .ok ((createPending deriveKey w c.request p).1.commitWith r
        (some ocmEnrollmentReferenceType)) := by
    simp only [createRedemption_of_enroll_ok hp he, createPending_eq, commitRedemption_eq]
  obtain rfl := Except.ok.inj (ht.symm.trans h₁)
  refine ⟨h₁, by simp [createRedemption_currentBalance hp he, Transaction.committedQuantity, hnc],
    fun x hx => ⟨hpost.only x, ?_⟩⟩
  rintro (rfl | hm)
  · exact hpost.saved
  · -- an old committed row is not the pending row handed back, so the save keeps it
    refine hpost.kept x hm fun hxu => hnc ?_
    rw [createPending_eq] at hxu ⊢
    rwa [← Ledger.eq_of_uuid_eq (Ledger.mem_createTransaction_of_mem hm)
      Ledger.createTransaction_mem (hxu.trans (Transaction.commitWith_uuid _ _ _))]

/-- Redemptions stay unique when the committed rows stay the same. -/
theorem unique_of_committed_iff {l l' : Ledger} (hu : UniqueRedemptions l)
    (hc : ∀ x, x.state = .committed → (x ∈ l'.transactions ↔ x ∈ l.transactions)) :
    UniqueRedemptions l' :=
  fun x hx y hy hxc hyc => hu x ((hc x hxc).mp hx) y ((hc y hyc).mp hy) hxc hyc

/-- Worlds with one balance and one set of committed rows look the same to the service. -/
theorem World.service_eq {w w' : World} (hu : UniqueRedemptions w.ledger)
    (hb : w'.currentBalance = w.currentBalance)
    (hc : ∀ x, x.state = .committed → (x ∈ w'.ledger.transactions ↔ x ∈ w.ledger.transactions)) :
    w'.service = w.service :=
  Service.ext hb (funext fun _ => funext fun _ => congrArg (Option.map Transaction.redemption)
    (getRedemption_congr hu fun x hx _ _ => hc x hx))

/-- A world whose committed rows are those of `w` and a committed row `T` of a learner and content
that had none, and whose balance pays `T`'s debit, is the service after recording `T`; its
redemptions stay unique. -/
theorem World.service_of_commit {w w' : World} {T : Transaction} (hu : UniqueRedemptions w.ledger)
    (hT : T.state = .committed)
    (hold : ∀ x ∈ w.ledger.transactions, x.state = .committed → x.lmsUserId = T.lmsUserId →
      x.contentKey = T.contentKey → False)
    (hb : w'.currentBalance = w.currentBalance + T.quantity)
    (hc : ∀ x, x.state = .committed →
      (x ∈ w'.ledger.transactions ↔ x = T ∨ x ∈ w.ledger.transactions)) :
    w'.service = w.service.record T.lmsUserId T.contentKey T.redemption ∧
      UniqueRedemptions w'.ledger := by
  refine ⟨Service.ext ?_ (funext fun lid => funext fun ck => ?_),
    fun x hx y hy hxc hyc hl hk => ?_⟩
  · simp only [World.service, Service.record, Transaction.redemption, hb]
    omega
  · simp only [World.service, Service.record]
    by_cases hpair : lid = T.lmsUserId ∧ ck = T.contentKey
    · -- `T` is the only committed row of its learner and content
      rw [if_pos hpair, hpair.1, hpair.2,
          getRedemption_of_only ((hc T hT).mpr (.inl rfl)) hT rfl rfl
        fun x hx hxc hxl hxk => ((hc x hxc).mp hx).resolve_right fun hx => hold x hx hxc hxl hxk]
      rfl
    · rw [if_neg hpair, getRedemption_congr hu fun x hx hxl hxk => (hc x hx).trans
        ⟨fun h => h.resolve_left fun h => hpair (by subst h; exact ⟨hxl.symm, hxk.symm⟩), .inr⟩]
  · rcases (hc x hxc).mp hx with rfl | hx <;> rcases (hc y hyc).mp hy with rfl | hy
    · rfl
    · exact (hold y hy hyc hl.symm hk.symm).elim
    · exact (hold x hx hxc hl hk).elim
    · exact hu x hx y hy hxc hyc hl hk

/-- A call that commits the fresh row it was handed is the service recording the call's
redemption. -/
theorem redeem_refines_commit {r : Option String} (hu : UniqueRedemptions w.ledger)
    (hn : w.ledger.NoPendingReference) (hr : RowsFit deriveKey w.ledger c)
    (hg : getRedemption w.ledger c.request.learnerId c.request.contentKey = none)
    (hp : c.replies.price = .ok p) (hb : p ≤ w.currentBalance) (he : c.replies.enroll = .ok r) :
    redemptionResult (redeem deriveKey w c).1 = (w.service.redeem c).1 ∧
      (redeem deriveKey w c).2.service = (w.service.redeem c).2 ∧
      UniqueRedemptions (redeem deriveKey w c).2.ledger := by
  have hf := createPending_fresh hg hn hr hp
  obtain ⟨h₁, h₂, h₃⟩ := createRedemption_commits hp he hf.pending
  set T := (createPending deriveKey w c.request p).1.commitWith r (some ocmEnrollmentReferenceType)
  have hTl : T.lmsUserId = c.request.learnerId := by simp [T, hf.lmsUserId]
  have hTk : T.contentKey = c.request.contentKey := by simp [T, hf.contentKey]
  have hTr : T.redemption = ⟨c.request.subsidyAccessPolicyUuid, p,
      if truthy r then r else none⟩ := by
    rw [Transaction.redemption_commitWith, hf.policy, hf.quantity, hf.reference, neg_neg]
  obtain ⟨hs, hu'⟩ := World.service_of_commit hu (Transaction.commitWith_state _ _ _)
    (fun x hx hxc hxl hxk => getRedemption_eq_none.mp hg x hx (hxl.trans hTl) (hxk.trans hTk) hxc)
    (by rw [h₂, Transaction.commitWith_quantity]) h₃
  rw [redeem_of_le_balance hg hp hb, Service.redeem_of_enroll_ok (by simp [World.service, hg]) hp
    (not_lt.mpr hb) he, h₁]
  exact ⟨by simp [redemptionResult, Except.map, hTr], by rw [hs, hTl, hTk, hTr], hu'⟩

/-- A call of `redeem` is a step of the service when the rows under its key fit it, the redemptions
are unique, and only committed rows carry a reference; the redemptions stay unique. -/
theorem redeem_refines (hu : UniqueRedemptions w.ledger) (hn : w.ledger.NoPendingReference)
    (hr : RowsFit deriveKey w.ledger c) :
    redemptionResult (redeem deriveKey w c).1 = (w.service.redeem c).1 ∧
      (redeem deriveKey w c).2.service = (w.service.redeem c).2 ∧
      UniqueRedemptions (redeem deriveKey w c).2.ledger := by
  cases hg : getRedemption w.ledger c.request.learnerId c.request.contentKey with
  | some t =>
    rw [redeem_of_getRedemption_some hg, Service.redeem_of_some (show w.service.redemption
      c.request.learnerId c.request.contentKey = some t.redemption by simp [World.service, hg])]
    exact ⟨rfl, rfl, hu⟩
  | none =>
    have hs : w.service.redemption c.request.learnerId c.request.contentKey = none := by
      simp [World.service, hg]
    cases hp : c.replies.price with
    | error exc =>
      rw [redeem_of_price_error hg hp, Service.redeem_of_price_error hs hp]
      exact ⟨rfl, rfl, hu⟩
    | ok p =>
      by_cases hb : p ≤ w.currentBalance
      · cases he : c.replies.enroll with
        | error exc =>
          -- the call raises, and leaves the balance and the committed rows
          have hres : (redeem deriveKey w c).1 = .error exc := by
            simp [redeem_of_le_balance hg hp hb, createRedemption_of_enroll_error hp he, Except.map]
          have hraise := redeem_raises_spec hres
          rw [hres, Service.redeem_of_enroll_error hs hp (not_lt.mpr hb) he]
          exact ⟨rfl, World.service_eq hu hraise.currentBalance hraise.committed,
            unique_of_committed_iff hu hraise.committed⟩
        | ok r => exact redeem_refines_commit hu hn hr hg hp hb he
      · rw [redeem_of_balance_lt hg hp (not_le.mp hb), Service.redeem_of_lt hs hp (not_le.mp hb)]
        exact ⟨rfl, rfl, hu⟩

/-- Every call keeps references on committed rows only. -/
theorem Ledger.NoPendingReference.redeem (hn : w.ledger.NoPendingReference) :
    (redeem deriveKey w c).2.ledger.NoPendingReference := by
  intro t' ht' hnc
  rcases redeem_rows ht' with ⟨t, ht, rfl | ⟨_, _, rfl⟩⟩ | ⟨p, -, rfl | ⟨_, _, rfl⟩⟩
  · exact hn _ ht hnc
  · exact absurd rfl hnc
  · rfl
  · exact absurd rfl hnc

/-- Keys that fit the calls still do after the first call, for the calls that follow. -/
theorem KeysFitCalls.redeem {cs : List Call} (hk : KeysFitCalls deriveKey w (c :: cs)) :
    KeysFitCalls deriveKey (redeem deriveKey w c).2 cs := by
  refine ⟨fun c₁ h₁ c₂ h₂ => hk.one_request c₁ (List.mem_cons_of_mem c h₁) c₂
    (List.mem_cons_of_mem c h₂), fun c' hc' t' ht' hkey => ?_⟩
  rcases redeem_rows ht' with ⟨t, ht, hct⟩ | ⟨p, hp, hct⟩ <;>
    obtain ⟨-, hkt, hl, hck, hpol, hq⟩ := hct.fields
  · rw [hq, hl, hck, hpol]
    exact hk.rows c' (List.mem_cons_of_mem c hc') t ht (hkt ▸ hkey)
  · -- the new row: the call that made it and `c'` are one request at one price
    have hkc : c.key deriveKey = some t'.idempotencyKey := by
      rw [Call.key_of_price hp, hkt]; rfl
    obtain ⟨el, ec, epol, ep⟩ := hk.one_request c (List.mem_cons_self c cs) c'
      (List.mem_cons_of_mem c hc') (by simp [hkc]) (hkc.trans hkey.symm)
    rw [hq, hl, hck, hpol, ← ep, hp, ← el, ← ec, ← epol]
    simp [Ledger.newTransaction]

/-- A sequential run whose calls fit their keys, from a ledger with unique redemptions and
references on committed rows only, is a run of the service: the same results, as the service's
caller sees them, and the same service at the end. -/
theorem redeemRun_refines (w : World) (calls : List Call) (hu : UniqueRedemptions w.ledger)
    (hn : w.ledger.NoPendingReference) (hk : KeysFitCalls deriveKey w calls) :
    ((redeemRun deriveKey w calls).1.map redemptionResult,
        (redeemRun deriveKey w calls).2.service) =
      w.service.run calls := by
  induction calls generalizing w with
  | nil => rfl
  | cons c cs ih =>
    obtain ⟨h₁, h₂, hu'⟩ := redeem_refines hu hn (hk.rows c (List.mem_cons_self c cs))
    rw [redeemRun_cons, Service.run_cons, ← h₁, ← h₂, ← ih _ hu' hn.redeem hk.redeem]
    rfl

/-- Along a sequential run whose calls fit their keys, from a ledger with unique redemptions and
references on committed rows only, the redemption that `get_redemption` finds for a learner and a
content keeps its policy, its amount and its reference. -/
theorem getRedemption_stable_along_run (w : World) (calls : List Call)
    (hu : UniqueRedemptions w.ledger) (hn : w.ledger.NoPendingReference)
    (hk : KeysFitCalls deriveKey w calls) {lid : Nat} {ck : String} {t : Transaction}
    (h : getRedemption w.ledger lid ck = some t) :
    ∃ t', getRedemption (redeemRun deriveKey w calls).2.ledger lid ck = some t' ∧
      t'.redemption = t.redemption := by
  have hs : w.service.redemption lid ck = some t.redemption := by simp [World.service, h]
  have hrun : (redeemRun deriveKey w calls).2.service.redemption lid ck =
      (w.service.run calls).2.redemption lid ck :=
    congrArg (fun x => x.2.redemption lid ck) (redeemRun_refines w calls hu hn hk)
  rw [Service.run_redemption calls hs] at hrun
  exact Option.map_eq_some'.mp hrun

/-- Learner `1`'s redemption of `"c"` keeps its policy, amount and reference through
`retriedCalls`, whose first two calls are learner `1`'s again. -/
theorem redemption_stable_through_retriedCalls :
    UniqueRedemptions redeemedLedger ∧ redeemedLedger.NoPendingReference ∧
      KeysFitCalls (fun _ _ _ _ => "") ⟨100, redeemedLedger, []⟩ retriedCalls ∧
      getRedemption redeemedLedger 1 "c" = some learnerRedemption ∧
      ∃ t', getRedemption
        (redeemRun (fun _ _ _ _ => "") ⟨100, redeemedLedger, []⟩ retriedCalls).2.ledger 1 "c" =
          some t' ∧ t'.redemption = learnerRedemption.redemption :=
  have hg : getRedemption redeemedLedger 1 "c" = some learnerRedemption := by decide
  ⟨by decide, by decide, by decide, hg,
    getRedemption_stable_along_run _ _ (by decide) (by decide) (by decide) hg⟩

end Refinement

end EnterpriseSubsidy
