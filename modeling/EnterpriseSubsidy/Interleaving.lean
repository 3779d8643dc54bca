import EnterpriseSubsidy.Subsidy

/-!
# Interleaved calls of `redeem`

The engine holds no lock (spec §5): calls of `redeem` from separate requests run side by side, and
each of their reads and writes of the ledger is one atomic step. `Phase` is where a call stands
between two such steps, and `advance` is one step, built from the pieces of `Subsidy.lean`:
`get_redemption`; `is_redeemable`, which reads the price and the balance; the second read of the
price, the key, and the ledger's atomic get-or-create; the call of `enroll` and its answer; and
`commit_transaction`, or the `except` branch.

A system is a world and the phase of every call. Calls are numbered by `Nat`, each with its own
collaborators' answers; a call that never steps is a call that never starts. `Reachable` is every
system that some order of steps reaches from a world in which every call is at its start.
`advanceN_five` shows that the five steps of one call with nothing between them are `redeem`: the
sequential model is the interleaving in which calls do not overlap.

`advance_ledger` says once what a step can do to the ledger: nothing, a get-or-create, or the save
of a committed instance. Every result about the ledger along interleavings starts from it; row by
row, `Phase.Writes` says what a step writes (`advance_rows`): the row of the instance that the call
commits takes the committed state and the reference that `commit_transaction` gave the instance,
and every other row stays as it is.

The world records each call of `enroll`, and a call commits only the row of the instance it passed
to `enroll`, so over every interleaving a committed row was committed at the start or was passed
to `enroll` (`committed_row_enrolled_of_reachable`): a transaction is never committed without an
enrollment request for it. Likewise a call that returns a transaction reported created called
`enroll` for its own learner and content with it (`created_result_enrolled_of_reachable`).
-/

namespace EnterpriseSubsidy

/-- Where one call of `redeem` stands between two of its atomic steps. -/
inductive Phase
  /-- Before `get_redemption`. -/
  | start
  /-- `get_redemption` found no committed transaction. -/
  | checked
  /-- `is_redeemable` found the balance enough. -/
  | redeemable
  /-- `create_transaction` returned `transaction`. -/
  | created (transaction : Transaction)
  /-- `enroll` returned `referenceId`. -/
  | enrolled (transaction : Transaction) (referenceId : Option String)
  /-- The call returned `result`, or raised. -/
  | done (result : Except String (Option Transaction × Bool))
  deriving DecidableEq

section Steps

variable (deriveKey : Int → Nat → String → String → String)

/-- One atomic step of the call `c`. A call that is done stays done. -/
def advance (w : World) (c : Call) : Phase → Phase × World
  | .start =>
    match getRedemption w.ledger c.request.learnerId c.request.contentKey with
    | some t => (.done (.ok (some t, false)), w)
    | none => (.checked, w)
  | .checked =>
    match isRedeemable w c.replies.price with
    | .error exc => (.done (.error exc), w)
    | .ok (false, _) => (.done (.ok (none, false)), w)
    | .ok (true, _) => (.redeemable, w)
  | .redeemable =>
    match c.replies.price with
    | .error exc => (.done (.error exc), w)
    | .ok price =>
      let (t, w) := createPending deriveKey w c.request price
      (.created t, w)
  | .created t =>
    let w := w.enroll c.request t
    match c.replies.enroll with
    | .error exc => (.done (.error exc), w.rollback t)
    | .ok referenceId => (.enrolled t referenceId, w)
  | .enrolled t referenceId =>
    match commitRedemption w t referenceId with
    | (.ok t, w) => (.done (.ok (some t, true)), w)
    | (.error exc, w) => (.done (.error exc), w)
  | .done result => (.done result, w)

/-- `n` steps of the call `c`, with no other call between them. -/
def advanceN (c : Call) : Nat → World → Phase → Phase × World
  | 0, w, ph => (ph, w)
  | n + 1, w, ph => advanceN c n (advance deriveKey w c ph).2 (advance deriveKey w c ph).1

/-- The five steps of one call, with nothing between them, are `redeem`. -/
theorem advanceN_five (w : World) (c : Call) :
    advanceN deriveKey c 5 w .start = (.done (redeem deriveKey w c).1,
        (redeem deriveKey w c).2) := by
  cases hg : getRedemption w.ledger c.request.learnerId c.request.contentKey with
  | some t => simp [advanceN, advance, hg, redeem_of_getRedemption_some hg]
  | none =>
    cases hp : c.replies.price with
    | error exc =>
      simp [advanceN, advance, hg, hp, isRedeemable, Except.map, redeem_of_price_error hg hp]
    | ok price =>
      by_cases hb : price ≤ w.currentBalance
      · cases he : c.replies.enroll with
        | error exc =>
          simp [advanceN, advance, hg, hp, he, hb, isRedeemable, Except.map,
            redeem_of_le_balance hg hp hb, createRedemption_of_enroll_error hp he]
        | ok r =>
          simp [advanceN, advance, hg, hp, he, hb, isRedeemable, Except.map,
            redeem_of_le_balance hg hp hb, createRedemption_of_enroll_ok hp he, commitRedemption_eq]
      · simp [advanceN, advance, hg, hp, hb, isRedeemable, Except.map,
          redeem_of_balance_lt hg hp (not_le.mp hb)]

/-- What one step can do to the ledger: nothing, a get-or-create, or the save of an instance in the
committed state. -/
theorem advance_ledger (w : World) (c : Call) (ph : Phase) :
    (advance deriveKey w c ph).2.ledger = w.ledger ∨
      (∃ key q lid ck pol, (advance deriveKey w c ph).2.ledger =
        (w.ledger.createTransaction key q lid ck pol).2) ∨
      (∃ t, t.state = .committed ∧ (advance deriveKey w c ph).2.ledger = w.ledger.save t) := by
  cases ph with
  | start => left; simp only [advance]; split <;> rfl
  | checked => left; simp only [advance]; split <;> rfl
  | redeemable =>
    simp only [advance]
    split
    · exact .inl rfl
    · exact .inr (.inl ⟨_, _, _, _, _, rfl⟩)
  | created t => left; simp only [advance]; split <;> rfl
  | enrolled t r =>
    right; right
    exact ⟨t.commitWith r (some ocmEnrollmentReferenceType), Transaction.commitWith_state _ _ _,
      by simp [advance, commitRedemption_eq]⟩
  | done r => exact .inl rfl

/-- A step's starting balance. -/
@[simp]
theorem advance_startingBalance (w : World) (c : Call) (ph : Phase) :
    (advance deriveKey w c ph).2.startingBalance = w.startingBalance := by
  cases ph <;> simp only [advance, commitRedemption_eq] <;> split <;> rfl

/-! ## Systems -/

/-- The world and the phase of every call. -/
structure Sys where
  world : World
  phase : Nat → Phase

/-- Every call at its start. -/
def Sys.init (w : World) : Sys := ⟨w, fun _ => .start⟩

/-- One step of the call `i`. -/
def Sys.step (calls : Nat → Call) (s : Sys) (i : Nat) : Sys :=
  ⟨(advance deriveKey s.world (calls i) (s.phase i)).2,
    Function.update s.phase i (advance deriveKey s.world (calls i) (s.phase i)).1⟩

/-- The steps of a schedule, in order. -/
def Sys.run (calls : Nat → Call) (s : Sys) (schedule : List Nat) : Sys :=
  schedule.foldl (Sys.step deriveKey calls) s

/-- The systems that some order of steps reaches from `w₀` with every call at its start. -/
inductive Reachable (calls : Nat → Call) (w₀ : World) : Sys → Prop
  | init : Reachable calls w₀ (Sys.init w₀)
  | step {s : Sys} (i : Nat) : Reachable calls w₀ s → Reachable calls w₀ (s.step deriveKey calls i)

variable {deriveKey}

/-- Every schedule run from a reachable system reaches a reachable system. -/
theorem Reachable.run {calls : Nat → Call} {w₀ : World} {s : Sys}
    (hs : Reachable deriveKey calls w₀ s)
    (schedule : List Nat) : Reachable deriveKey calls w₀ (s.run deriveKey calls schedule) := by
  induction schedule generalizing s with
  | nil => exact hs
  | cons i is ih => exact ih (hs.step i)

/-- A step of the call `i` moves that call's phase by `advance`. -/
@[simp] theorem Sys.step_phase_self (calls : Nat → Call) (s : Sys) (i : Nat) :
    (s.step deriveKey calls i).phase i = (advance deriveKey s.world (calls i) (s.phase i)).1 := by
  simp [Sys.step]

/-- A step of the call `i` leaves every other call's phase. -/
theorem Sys.step_phase_ne {calls : Nat → Call} (s : Sys) {i j : Nat} (h : j ≠ i) :
    (s.step deriveKey calls i).phase j = s.phase j := by
  simp [Sys.step, Function.update_noteq h]

/-! ## Caller keys -/

/-- A call whose caller key is not empty steps the same under every key derivation. -/
theorem advance_deriveKey (d d' : Int → Nat → String → String → String) {c : Call} {key : String}
    (h : c.request.idempotencyKey = some key) (hk : key.isEmpty = false) (w : World) (ph : Phase) :
    advance d w c ph = advance d' w c ph := by
  cases ph <;> simp [advance, createPending, idempotencyKeyFor_of_some h hk]

/-- Calls whose caller keys are not empty run the same under every key derivation. -/
theorem Sys.run_deriveKey (d d' : Int → Nat → String → String → String) {calls : Nat → Call}
    (h : ∀ i, ∃ key, (calls i).request.idempotencyKey = some key ∧ key.isEmpty = false)
    (s : Sys) (schedule : List Nat) : s.run d calls schedule = s.run d' calls schedule := by
  induction schedule generalizing s with
  | nil => rfl
  | cons i is ih =>
    obtain ⟨key, hkey, hk⟩ := h i
    simp only [Sys.run, List.foldl_cons] at ih ⊢
    rw [show s.step d calls i = s.step d' calls i by
      simp only [Sys.step, advance_deriveKey d d' hkey hk]]
    exact ih _

/-- `t'` is the row `t`, or `t` moved to the committed state with some reference: the only change
that a step makes to a row. -/
def Transaction.CommitOf (t t' : Transaction) : Prop :=
  t' = t ∨ ∃ r rt, t' = { t with state := .committed, referenceId := r, referenceType := rt }

namespace Transaction.CommitOf

variable {t t' t'' : Transaction}

/-- A row is a commit of itself. -/
theorem refl (t : Transaction) : t.CommitOf t := .inl rfl

/-- A commit of a commit of a row is a commit of the row. -/
theorem trans (h : t.CommitOf t') (h' : t'.CommitOf t'') : t.CommitOf t'' := by
  rcases h with rfl | ⟨r, rt, rfl⟩
  · exact h'
  · rcases h' with rfl | ⟨r', rt', rfl⟩
    · exact .inr ⟨r, rt, rfl⟩
    · exact .inr ⟨r', rt', rfl⟩

/-- A row keeps every field but its state and its reference. -/
theorem fields (h : t.CommitOf t') :
    t'.uuid = t.uuid ∧ t'.idempotencyKey = t.idempotencyKey ∧ t'.lmsUserId = t.lmsUserId ∧
      t'.contentKey = t.contentKey ∧ t'.subsidyAccessPolicyUuid = t.subsidyAccessPolicyUuid ∧
      t'.quantity = t.quantity := by
  rcases h with rfl | ⟨r, rt, rfl⟩ <;> exact ⟨rfl, rfl, rfl, rfl, rfl, rfl⟩

/-- A committed row stays committed. -/
theorem committed (h : t.CommitOf t') (hc : t.state = .committed) : t'.state = .committed := by
  rcases h with rfl | ⟨r, rt, rfl⟩
  · exact hc
  · rfl

end Transaction.CommitOf

/-- Saving a committed instance moves its row to committed and leaves the others. -/
theorem Transaction.commitOf_saveInto {t : Transaction} (ht : t.state = .committed)
    (r : Transaction) : r.CommitOf (t.saveInto r) := by
  unfold saveInto write
  split
  · exact .inr ⟨t.referenceId, t.referenceType, by rw [ht]⟩
  · exact .refl r

/-- What the step of a call at `ph` makes of the row `t`: `t` itself, unless the call saves its
instance `h` after `enroll` answered `ref` and `t` is `h`'s row, which then takes the committed state
and the reference that `commit_transaction` gave `h`: the answer when it is not empty, with
`OCM_ENROLLMENT_REFERENCE_TYPE`, and otherwise `h`'s own. -/
def Phase.Writes : Phase → Transaction → Transaction → Prop
  | .enrolled h ref, t, t' =>
    t' = if t.uuid = h.uuid then
      { t with
        state := .committed
        referenceId := (h.commitWith ref (some ocmEnrollmentReferenceType)).referenceId
        referenceType := (h.commitWith ref (some ocmEnrollmentReferenceType)).referenceType }
    else t
  | _, t, t' => t' = t

/-- What a step writes to a row is a commit of it. -/
theorem Phase.Writes.commitOf {ph : Phase} {t t' : Transaction} (hw : ph.Writes t t') :
    t.CommitOf t' := by
  cases ph with
  | enrolled h ref =>
    simp only [Phase.Writes] at hw
    split_ifs at hw <;> subst hw
    · exact .inr ⟨_, _, rfl⟩
    · exact .inl rfl
  | _ => exact .inl hw

/-- `save` of the instance that `commit_transaction` commits writes each row as `Phase.Writes`
says. -/
theorem Phase.writes_saveInto (h : Transaction) (ref : Option String) (r : Transaction) :
    (Phase.enrolled h ref).Writes r ((h.commitWith ref (some ocmEnrollmentReferenceType)).saveInto r) := by
  simp only [Phase.Writes, Transaction.saveInto, Transaction.commitWith_uuid, Transaction.write,
    Transaction.commitWith_state]

/-- What one step does to the rows: every row is kept as `Phase.Writes` says, and a row that was
not there is new, in the state `created`. -/
theorem advance_rows (w : World) (c : Call) (ph : Phase) :
    (∀ r ∈ w.ledger.transactions,
      ∃ r' ∈ (advance deriveKey w c ph).2.ledger.transactions, ph.Writes r r') ∧
    (∀ r' ∈ (advance deriveKey w c ph).2.ledger.transactions,
      (∃ r ∈ w.ledger.transactions, ph.Writes r r') ∨
        (r'.state = .created ∧ ∀ r ∈ w.ledger.transactions, r.uuid ≠ r'.uuid)) := by
  cases ph with
  | redeemable =>
    simp only [advance]
    split
    · exact ⟨fun r hr => ⟨r, hr, rfl⟩, fun r hr => .inl ⟨r, hr, rfl⟩⟩
    · -- the get-or-create: the old rows, and perhaps a new one
      simp only [createPending_eq]
      refine ⟨fun r hr => ⟨r, Ledger.mem_createTransaction_of_mem hr, rfl⟩, fun r hr => ?_⟩
      rcases Ledger.mem_createTransaction hr with hr | rfl
      · exact .inl ⟨r, hr, rfl⟩
      · exact .inr ⟨rfl, fun r hr => (uuid_lt_freshUuid hr).ne⟩
  | enrolled h ref =>
    -- the save of the committed instance
    simp only [advance, commitRedemption_eq]
    refine ⟨fun r hr => ⟨_, Ledger.mem_save.mpr ⟨r, hr, rfl⟩, Phase.writes_saveInto h ref r⟩,
      fun r' hr' => ?_⟩
    obtain ⟨r, hr, rfl⟩ := Ledger.mem_save.mp hr'
    exact .inl ⟨r, hr, Phase.writes_saveInto h ref r⟩
  | _ =>
    -- the other steps leave the ledger
    simp only [advance]
    (try split) <;> exact ⟨fun r hr => ⟨r, hr, rfl⟩, fun r hr => .inl ⟨r, hr, rfl⟩⟩

/-- What one step does to the rows, up to a commit: every row is kept, unchanged or moved to
committed, and a row that was not there is new, in the state `created`. -/
theorem advance_transactions (w : World) (c : Call) (ph : Phase) :
    (∀ r ∈ w.ledger.transactions,
      ∃ r' ∈ (advance deriveKey w c ph).2.ledger.transactions, r.CommitOf r') ∧
    (∀ r' ∈ (advance deriveKey w c ph).2.ledger.transactions,
      (∃ r ∈ w.ledger.transactions, r.CommitOf r') ∨
        (r'.state = .created ∧ ∀ r ∈ w.ledger.transactions, r.uuid ≠ r'.uuid)) := by
  obtain ⟨hkeep, hnew⟩ := advance_rows w c ph
  exact ⟨fun r hr => (hkeep r hr).imp fun _ ⟨hr', hw⟩ => ⟨hr', hw.commitOf⟩,
    fun r' hr' => (hnew r' hr').imp_left fun ⟨r, hr, hw⟩ => ⟨r, hr, hw.commitOf⟩⟩

/-- A ledger holding one failed transaction, under the key `"k"`. -/
def failedLedger : Ledger :=
  ⟨[⟨0, "k", 1, "c", "p", -10, .failed, none, none⟩], by decide, by decide⟩

/-- A retry under the failed transaction's key, at the same price, whose enrollment succeeds. -/
def retryCall : Call :=
  ⟨⟨1, "c", "p", some "k"⟩, ⟨.ok 10, .ok (some "e")⟩⟩

/-- What one step does to the calls of `enroll`: nothing, or, from `created t`, the call with `t`. -/
theorem advance_enrollments (w : World) (c : Call) (ph : Phase) :
    (advance deriveKey w c ph).2.enrollments = w.enrollments ∨
      ∃ t, ph = .created t ∧ (advance deriveKey w c ph).2.enrollments =
        w.enrollments ++ [⟨c.request.learnerId, c.request.contentKey, t.uuid⟩] := by
  cases ph with
  | start => left; simp only [advance]; split <;> rfl
  | checked => left; simp only [advance]; split <;> rfl
  | redeemable => left; simp only [advance]; split <;> rfl
  | created t => exact .inr ⟨t, rfl, by simp only [advance]; split <;> rfl⟩
  | enrolled t r => left; simp only [advance, commitRedemption_eq]
  | done r => exact .inl rfl

/-- No step forgets a call of `enroll`. -/
theorem mem_advance_enrollments {w : World} {c : Call} {ph : Phase} {e : EnrollRequest}
    (he : e ∈ w.enrollments) : e ∈ (advance deriveKey w c ph).2.enrollments := by
  rcases advance_enrollments w c ph with h | ⟨t, -, h⟩ <;> rw [h]
  · exact he
  · exact List.mem_append_left _ he

/-- Every committed row of `w` was committed in `w₀`, or was passed to `enroll`. -/
def CommitsEnrolled (w₀ w : World) : Prop :=
  ∀ r ∈ w.ledger.transactions, r.state = .committed →
    (∃ r₀ ∈ w₀.ledger.transactions, r₀.uuid = r.uuid ∧ r₀.state = .committed) ∨
      ∃ e ∈ w.enrollments, e.transactionUuid = r.uuid

/-- A call that `enroll` answered, or that returned a transaction reported created, passed that
instance to `enroll`, for its own learner and content. -/
def Phase.EnrolledIn (w : World) (c : Call) : Phase → Prop
  | .enrolled t _ | .done (.ok (some t, true)) =>
    ⟨c.request.learnerId, c.request.contentKey, t.uuid⟩ ∈ w.enrollments
  | _ => True

/-- A phase stays enrolled while calls of `enroll` are only added. -/
theorem Phase.EnrolledIn.mono {w w' : World} {c : Call} {ph : Phase} (h : ph.EnrolledIn w c)
    (hw : ∀ e ∈ w.enrollments, e ∈ w'.enrollments) : ph.EnrolledIn w' c := by
  unfold Phase.EnrolledIn at h ⊢
  split at h <;> first | exact hw _ h | trivial

/-- One step keeps every committed row initial or enrolled, and the stepping call's phase enrolled:
`enroll` is called with the instance before the call can reach `commit_transaction`, which commits
only the row of that instance's primary key. -/
theorem advance_commitsEnrolled {w₀ w : World} {c : Call} {ph : Phase}
    (h : CommitsEnrolled w₀ w) (hph : ph.EnrolledIn w c) :
    CommitsEnrolled w₀ (advance deriveKey w c ph).2 ∧
      (advance deriveKey w c ph).1.EnrolledIn (advance deriveKey w c ph).2 c := by
  cases ph with
  | start => simp only [advance]; split <;> exact ⟨h, trivial⟩
  | checked => simp only [advance]; split <;> exact ⟨h, trivial⟩
  | redeemable =>
    simp only [advance]
    split
    · exact ⟨h, trivial⟩
    · refine ⟨fun r hr hc => ?_, trivial⟩
      rw [createPending_eq] at hr
      rcases Ledger.mem_createTransaction hr with hr | rfl
      · exact h r hr hc
      · cases hc
  | created t =>
    have hgrow : ∀ e ∈ w.enrollments, e ∈ (w.enroll c.request t).enrollments :=
      fun e he => List.mem_append_left _ he
    have hc : CommitsEnrolled w₀ (w.enroll c.request t) := fun r hr hc =>
      (h r hr hc).imp_right fun ⟨e, he, hu⟩ => ⟨e, hgrow e he, hu⟩
    simp only [advance]
    split
    · exact ⟨hc, trivial⟩
    · exact ⟨hc, List.mem_append_right _ (List.mem_singleton_self _)⟩
  | enrolled t ref =>
    simp only [advance, commitRedemption_eq]
    refine ⟨fun r hr hc => ?_, by simpa only [Phase.EnrolledIn, Transaction.commitWith_uuid]⟩
    obtain ⟨r₀, hr₀, rfl⟩ := Ledger.mem_save.mp hr
    by_cases hu : r₀.uuid = (t.commitWith ref (some ocmEnrollmentReferenceType)).uuid
    · -- the row of the instance, which the call passed to `enroll`
      exact .inr ⟨_, hph, by rw [Transaction.saveInto_uuid, hu, Transaction.commitWith_uuid]⟩
    · rw [Transaction.saveInto_of_uuid_ne hu] at hc ⊢
      exact h r₀ hr₀ hc
  | done result => exact ⟨h, hph⟩

/-- Over every interleaving, from any world, a committed row was committed at the start or was
passed to `enroll`, and every call that `enroll` answered, or that returned a transaction created,
passed it to `enroll`. -/
theorem commitsEnrolled_of_reachable {calls : Nat → Call} {w₀ : World} {s : Sys}
    (hs : Reachable deriveKey calls w₀ s) :
    CommitsEnrolled w₀ s.world ∧ ∀ j, (s.phase j).EnrolledIn s.world (calls j) := by
  induction hs with
  | init => exact ⟨fun r hr hc => .inl ⟨r, hr, rfl, hc⟩, fun _ => trivial⟩
  | step i _ ih =>
    obtain ⟨hc, hph⟩ := advance_commitsEnrolled (c := calls i) ih.1 (ih.2 i)
    refine ⟨hc, fun j => ?_⟩
    by_cases hj : j = i
    · subst hj
      rw [Sys.step_phase_self]
      exact hph
    · rw [Sys.step_phase_ne _ hj]
      exact (ih.2 j).mono fun e he => mem_advance_enrollments he

/-- Over every interleaving of `redeem` calls, from any ledger, every committed transaction was
committed at the start or was passed to a call of `enroll`: no step commits a row for which
`enroll` was not called. -/
theorem committed_row_enrolled_of_reachable {calls : Nat → Call} {w₀ : World} {s : Sys}
    (hs : Reachable deriveKey calls w₀ s) {r : Transaction} (hr : r ∈ s.world.ledger.transactions)
    (hc : r.state = .committed) :
    (∃ r₀ ∈ w₀.ledger.transactions, r₀.uuid = r.uuid ∧ r₀.state = .committed) ∨
      ∃ e ∈ s.world.enrollments, e.transactionUuid = r.uuid :=
  (commitsEnrolled_of_reachable hs).1 r hr hc

/-- `retryCall` run to its end on `failedLedger`. -/
def retryRun : Sys :=
  (Sys.init ⟨100, failedLedger, []⟩).run (fun _ _ _ _ => "") (fun _ => retryCall) [0, 0, 0, 0, 0]

/-- The failed row of `failedLedger`, as `retryCall` commits it. -/
def retriedRow : Transaction :=
  ⟨0, "k", 1, "c", "p", -10, .committed, some "e", some ocmEnrollmentReferenceType⟩

/-- The retry that commits the failed row of `failedLedger` passed it to `enroll` first. -/
theorem retry_commit_enrolled :
    Reachable (fun _ _ _ _ => "") (fun _ => retryCall) ⟨100, failedLedger, []⟩ retryRun ∧
      retriedRow ∈ retryRun.world.ledger.transactions ∧ retriedRow.state = .committed ∧
      ((∃ r₀ ∈ failedLedger.transactions, r₀.uuid = retriedRow.uuid ∧ r₀.state = .committed) ∨
        ∃ e ∈ retryRun.world.enrollments, e.transactionUuid = retriedRow.uuid) :=
  have hr : retriedRow ∈ retryRun.world.ledger.transactions := by decide
  ⟨Reachable.init.run _, hr, rfl, committed_row_enrolled_of_reachable (Reachable.init.run _) hr rfl⟩

end Steps

end EnterpriseSubsidy
