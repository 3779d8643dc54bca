import EnterpriseSubsidy.Redemption

/-!
# Sequential runs of `redeem`

Calls of `redeem` one after another, each returning or raising before the next begins (`redeemRun`):
the interleaving in which each call takes its five steps alone (`Sys.run_sequentialSchedule`). A
call moves the balance only when it commits the row that `create_transaction` handed back, and then
by that row's debit (`createRedemption_currentBalance`). So the balance stays non-negative over a
whole run as long as that row is debited the price `is_redeemable` checked in the same call
(`currentBalance_nonneg_along_run`): that is so when the calls use each key at one price
(`KeysFixPrices`), as the engine's derived keys do, since they are derived from the quantity
(`keysFixPrices_of_derived`), and then also in the interleaving that runs the calls one after
another (`sequential_balance_nonneg_of_derived_keys`). A caller's key reused after the price changed hands back the row of an
earlier attempt at its old debit, and overdraws (`redeem_run_overdraws`).

A call that raises hands the caller the collaborator's own exception and leaves the balance and the
committed rows as they were (`redeem_raises_spec`). But `rollback_transaction` does nothing, so the
pending row stays under the call's key, and a later call under that key commits it at its old debit
(`failed_attempt_debits_retry`).

Interleaved calls can each pass `is_redeemable` before either commits, so the balance check does not
keep the balance non-negative there; but no order of steps ever raises the balance, when prices are
non-negative (`currentBalance_antitone_along_runs`): `save` writes no quantity, so a row committed
twice is debited once.
-/

namespace EnterpriseSubsidy

section Run

variable (deriveKey : Int → Nat → String → String → String)

/-- Calls of `redeem` one after another: what each call returned or raised, and the world after the
last. -/
def redeemRun (w : World) : List Call → List (Except String (Option Transaction × Bool)) × World
  | [] => ([], w)
  | c :: cs =>
    let (result, w) := redeem deriveKey w c
    let (results, w) := redeemRun w cs
    (result :: results, w)

/-- The calls use each idempotency key at one price, and a row of the ledger that holds a call's key
is debited the call's price. -/
structure KeysFixPrices (w : World) (calls : List Call) : Prop where
  /-- Calls that use one key are priced alike. -/
  one_price : ∀ c ∈ calls, ∀ c' ∈ calls, c.key deriveKey ≠ none →
    c.key deriveKey = c'.key deriveKey → c.replies.price = c'.replies.price
  /-- A row that holds a call's key is debited the call's price. -/
  rows : ∀ t ∈ w.ledger.transactions, ∀ c ∈ calls, c.key deriveKey = some t.idempotencyKey →
    c.replies.price = .ok (-t.quantity)

instance (w : World) (calls : List Call) : Decidable (KeysFixPrices deriveKey w calls) :=
  decidable_of_iff ((∀ c ∈ calls, ∀ c' ∈ calls, c.key deriveKey ≠ none →
      c.key deriveKey = c'.key deriveKey → c.replies.price = c'.replies.price) ∧
    ∀ t ∈ w.ledger.transactions, ∀ c ∈ calls, c.key deriveKey = some t.idempotencyKey →
      c.replies.price = .ok (-t.quantity))
    ⟨fun ⟨h, h'⟩ => ⟨h, h'⟩, fun ⟨h, h'⟩ => ⟨h, h'⟩⟩

variable {deriveKey} {w : World} {c : Call} {p : Int}

/-- A run is its first call, then the run of the others from where it left the world. -/
theorem redeemRun_cons (w : World) (c : Call) (cs : List Call) :
    redeemRun deriveKey w (c :: cs) =
      ((redeem deriveKey w c).1 :: (redeemRun deriveKey (redeem deriveKey w c).2 cs).1,
        (redeemRun deriveKey (redeem deriveKey w c).2 cs).2) := rfl

/-- A call's key does not depend on the derivation when the caller gives one. -/
theorem Call.key_deriveKey (d d' : Int → Nat → String → String → String)
    (h : (c.request.idempotencyKey.getD "").isEmpty = false) : c.key d = c.key d' := by
  cases hk : c.request.idempotencyKey with
  | none => rw [hk] at h; cases h
  | some key =>
    rw [hk] at h
    cases hp : c.replies.price <;>
      simp only [Call.key, hp, idempotencyKeyFor_of_some hk h]

/-- Calls that all carry a caller's key run the same under every key derivation. -/
theorem redeemRun_deriveKey (d d' : Int → Nat → String → String → String) (calls : List Call)
    (h : ∀ c ∈ calls, (c.request.idempotencyKey.getD "").isEmpty = false) (w : World) :
    redeemRun d w calls = redeemRun d' w calls := by
  induction calls generalizing w with
  | nil => rfl
  | cons c cs ih =>
    have hc := h c (List.mem_cons_self c cs)
    obtain ⟨key, hkey, hk⟩ : ∃ key, c.request.idempotencyKey = some key ∧ key.isEmpty = false := by
      cases hkey : c.request.idempotencyKey with
      | none => rw [hkey] at hc; cases hc
      | some key => exact ⟨key, rfl, by rwa [hkey] at hc⟩
    rw [redeemRun_cons, redeemRun_cons, redeem_deriveKey d d' hkey hk,
      ih (fun c' hc' => h c' (List.mem_cons_of_mem c hc'))]

/-! ## The balance -/

/-- The row that `create_transaction` hands back to a call at the price `p` is debited `p` when
every row that holds the call's key is. -/
theorem createPending_quantity {req : Request}
    (h : ∀ t ∈ w.ledger.transactions,
      t.idempotencyKey = idempotencyKeyFor deriveKey req (-1 * p) → t.quantity = -p) :
    (createPending deriveKey w req p).1.quantity = -p := by
  obtain ⟨t₀, l', hct⟩ : ∃ t₀ l',
      w.ledger.createTransaction (idempotencyKeyFor deriveKey req (-1 * p))
      (-1 * p) req.learnerId req.contentKey req.subsidyAccessPolicyUuid = (t₀, l') := ⟨_, _, rfl⟩
  obtain ⟨-, -, -, -, hsome, hnone⟩ := Ledger.createTransaction_spec hct
  rw [createPending_eq, hct]
  cases hf : w.ledger.findByKey (idempotencyKeyFor deriveKey req (-1 * p)) with
  | none => simp [hnone hf, Ledger.newTransaction]
  | some t =>
    obtain ⟨ht, hk⟩ := Ledger.findByKey_eq_some.mp hf
    rw [hsome t hf]
    exact h t ht hk

/-- `_create_redemption` that commits moves the balance by the debit of the row it commits, unless
the row was committed already. -/
theorem createRedemption_currentBalance {r : Option String} (hp : c.replies.price = .ok p)
    (he : c.replies.enroll = .ok r) :
    (createRedemption deriveKey w c).2.currentBalance = w.currentBalance +
      (createPending deriveKey w c.request p).1.quantity -
        (createPending deriveKey w c.request p).1.committedQuantity := by
  simp only [createRedemption_of_enroll_ok hp he, createPending_eq, commitRedemption_eq,
    World.currentBalance, World.enroll_ledger, World.enroll_startingBalance]
  rw [Ledger.committedTotal_save Ledger.createTransaction_mem
      (Transaction.commitWith_uuid _ _ _).symm,
    Transaction.write_commitWith, Ledger.committedTotal_createTransaction]
  simp only [Transaction.committedQuantity, Transaction.commitWith_state, if_true,
    Transaction.commitWith_quantity]
  omega

/-- A call whose key, at its price, is held only by rows debited that price leaves a non-negative
balance non-negative. -/
theorem redeem_currentBalance_nonneg
    (hq : ∀ p, c.replies.price = .ok p → ∀ t ∈ w.ledger.transactions,
      t.idempotencyKey = idempotencyKeyFor deriveKey c.request (-1 * p) → t.quantity = -p)
    (h0 : 0 ≤ w.currentBalance) : 0 ≤ (redeem deriveKey w c).2.currentBalance := by
  cases hg : getRedemption w.ledger c.request.learnerId c.request.contentKey with
  | some t => rwa [redeem_of_getRedemption_some hg]
  | none =>
    cases hp : c.replies.price with
    | error exc => rwa [redeem_of_price_error hg hp]
    | ok p =>
      by_cases hb : p ≤ w.currentBalance
      · rw [redeem_of_le_balance hg hp hb]
        cases he : c.replies.enroll with
        | error exc =>
          simpa [createRedemption_of_enroll_error hp he, createPending_eq, World.currentBalance,
            Ledger.committedTotal_createTransaction] using h0
        | ok r =>
          -- the row is debited `p`, which the balance covers, or was committed already
          have hq₀ := createPending_quantity (hq p hp)
          rw [createRedemption_currentBalance hp he]
          unfold Transaction.committedQuantity
          split_ifs <;> omega
      · rwa [redeem_of_balance_lt hg hp (not_le.mp hb)]

/-- Every row after a call is a row from before it or the new row of `create_transaction`, kept as
it was or moved to committed. -/
theorem redeem_rows {t' : Transaction} (ht' : t' ∈ (redeem deriveKey w c).2.ledger.transactions) :
    (∃ t ∈ w.ledger.transactions, t.CommitOf t') ∨
      ∃ p, c.replies.price = .ok p ∧ (w.ledger.newTransaction (idempotencyKeyFor deriveKey c.request
        (-1 * p)) (-1 * p) c.request.learnerId c.request.contentKey
          c.request.subsidyAccessPolicyUuid).CommitOf t' := by
  cases hg : getRedemption w.ledger c.request.learnerId c.request.contentKey with
  | some t => rw [redeem_of_getRedemption_some hg] at ht'; exact .inl ⟨t', ht', .refl t'⟩
  | none =>
    cases hp : c.replies.price with
    | error exc => rw [redeem_of_price_error hg hp] at ht'; exact .inl ⟨t', ht', .refl t'⟩
    | ok p =>
      by_cases hb : p ≤ w.currentBalance
      · rw [redeem_of_le_balance hg hp hb] at ht'
        -- the row comes from the ledger that `create_transaction` left
        obtain ⟨x, hx, hxt⟩ : ∃ x ∈ (createPending deriveKey w c.request p).2.ledger.transactions,
            x.CommitOf t' := by
          cases he : c.replies.enroll with
          | error exc =>
            rw [createRedemption_of_enroll_error hp he] at ht'
            exact ⟨t', ht', .refl t'⟩
          | ok r =>
            simp only [createRedemption_of_enroll_ok hp he, createPending_eq, commitRedemption_eq,
              World.enroll_ledger] at ht'
            obtain ⟨x, hx, rfl⟩ := Ledger.mem_save.mp ht'
            exact ⟨x, hx, Transaction.commitOf_saveInto (Transaction.commitWith_state _ _ _) x⟩
        rw [createPending_eq] at hx
        rcases Ledger.mem_createTransaction hx with hx | rfl
        · exact .inl ⟨x, hx, hxt⟩
        · exact .inr ⟨p, rfl, hxt⟩
      · rw [redeem_of_balance_lt hg hp (not_le.mp hb)] at ht'
        exact .inl ⟨t', ht', .refl t'⟩

/-! ## Keys that fix prices -/

/-- Under keys that fix prices, the first call's key is held only by rows debited its price. -/
theorem KeysFixPrices.debits {cs : List Call} (hk : KeysFixPrices deriveKey w (c :: cs)) :
    ∀ p, c.replies.price = .ok p → ∀ t ∈ w.ledger.transactions,
      t.idempotencyKey = idempotencyKeyFor deriveKey c.request (-1 * p) → t.quantity = -p := by
  intro p hp t ht hkey
  have := hk.rows t ht c (List.mem_cons_self c cs) (by rw [Call.key_of_price hp, hkey])
  rw [hp, Except.ok.injEq] at this
  omega

/-- Keys that fix prices still do after the first call, for the calls that follow. -/
theorem KeysFixPrices.redeem {cs : List Call} (hk : KeysFixPrices deriveKey w (c :: cs)) :
    KeysFixPrices deriveKey (redeem deriveKey w c).2 cs := by
  refine ⟨fun c₁ h₁ c₂ h₂ =>
      hk.one_price c₁ (List.mem_cons_of_mem c h₁) c₂ (List.mem_cons_of_mem c h₂),
    fun t' ht' c' hc' hkey => ?_⟩
  rcases redeem_rows ht' with ⟨t, ht, hct⟩ | ⟨p, hp, hct⟩ <;>
    obtain ⟨-, hkt, -, -, -, hq⟩ := hct.fields
  · rw [hq]
    exact hk.rows t ht c' (List.mem_cons_of_mem c hc') (hkt ▸ hkey)
  · -- the new row: the call that made it and `c'` share its key, hence the price
    have hck : c.key deriveKey = some t'.idempotencyKey := by
      rw [Call.key_of_price hp, hkt]; rfl
    rw [← hk.one_price c (List.mem_cons_self c cs) c' (List.mem_cons_of_mem c hc')
      (by simp [hck]) (hck.trans hkey.symm), hp, hq]
    simp [Ledger.newTransaction]

/-- A call without a caller's key that reached `create_transaction` used the key derived from its
price and its request. -/
theorem Call.price_of_derived_key {k : String} (hc : c.request.idempotencyKey = none)
    (h : c.key deriveKey = some k) : ∃ p, c.replies.price = .ok p ∧
      k = deriveKey (-1 * p) c.request.learnerId c.request.contentKey
        c.request.subsidyAccessPolicyUuid := by
  cases hp : c.replies.price with
  | error exc => simp [Call.key, hp] at h
  | ok p => exact ⟨p, rfl, by simpa [Call.key_of_price hp, idempotencyKeyFor, hc] using h.symm⟩

/-- Calls that leave the key to the engine, under a derivation that tells quantities apart, from a
ledger whose rows under derived keys carry the quantity they were derived from, fix prices. -/
theorem keysFixPrices_of_derived {calls : List Call}
    (hd : ∀ q lid ck pol q' lid' ck' pol',
        deriveKey q lid ck pol = deriveKey q' lid' ck' pol' → q = q')
    (hcaller : ∀ c ∈ calls, c.request.idempotencyKey = none)
    (hr : ∀ t ∈ w.ledger.transactions, ∀ q lid ck pol,
      t.idempotencyKey = deriveKey q lid ck pol → t.quantity = q) :
    KeysFixPrices deriveKey w calls := by
  refine ⟨fun c hc c' hc' hn he => ?_, fun t ht c hc he => ?_⟩
  · obtain ⟨k, hk⟩ := Option.ne_none_iff_exists'.mp hn
    obtain ⟨p, hp, rfl⟩ := Call.price_of_derived_key (hcaller c hc) hk
    obtain ⟨p', hp', hk'⟩ := Call.price_of_derived_key (hcaller c' hc') (he ▸ hk)
    have := hd _ _ _ _ _ _ _ _ hk'
    rw [hp, hp', show p = p' by omega]
  · obtain ⟨p, hp, hk⟩ := Call.price_of_derived_key (hcaller c hc) he
    rw [hp, hr t ht _ _ _ _ hk, neg_mul, one_mul, neg_neg]

/-- Over a run whose calls use each key at one price, the balance stays non-negative. -/
theorem redeemRun_currentBalance_nonneg (w : World) (calls : List Call)
    (hk : KeysFixPrices deriveKey w calls) (h0 : 0 ≤ w.currentBalance) :
    0 ≤ (redeemRun deriveKey w calls).2.currentBalance := by
  induction calls generalizing w with
  | nil => exact h0
  | cons c cs ih => exact ih _ hk.redeem (redeem_currentBalance_nonneg hk.debits h0)

/-- Keys that fix prices for a run fix them for each of its prefixes. -/
theorem KeysFixPrices.take {calls : List Call} (hk : KeysFixPrices deriveKey w calls) (n : Nat) :
    KeysFixPrices deriveKey w (calls.take n) :=
  ⟨fun c hc c' hc' => hk.one_price c (List.mem_of_mem_take hc) c' (List.mem_of_mem_take hc'),
    fun t ht c hc => hk.rows t ht c (List.mem_of_mem_take hc)⟩

/-- In every state that a run whose calls use each key at one price reaches, the balance is
non-negative, if it was at the start. -/
theorem currentBalance_nonneg_along_run (w : World) (calls : List Call)
    (hk : KeysFixPrices deriveKey w calls) (h0 : 0 ≤ w.currentBalance) (n : Nat) :
    0 ≤ (redeemRun deriveKey w (calls.take n)).2.currentBalance :=
  redeemRun_currentBalance_nonneg w _ (hk.take n) h0

/-! ## Sequential runs are interleavings -/

/-- A run of `xs ++ ys` is the run of `ys` from where the run of `xs` left the world. -/
theorem redeemRun_append (w : World) (xs ys : List Call) :
    redeemRun deriveKey w (xs ++ ys) =
      ((redeemRun deriveKey w xs).1 ++ (redeemRun deriveKey (redeemRun deriveKey w xs).2 ys).1,
        (redeemRun deriveKey (redeemRun deriveKey w xs).2 ys).2) := by
  induction xs generalizing w with
  | nil => rfl
  | cons c cs ih => rw [List.cons_append, redeemRun_cons, redeemRun_cons, ih]; rfl

/-- A run returns one result per call. -/
theorem redeemRun_length (w : World) (calls : List Call) :
    (redeemRun deriveKey w calls).1.length = calls.length := by
  induction calls generalizing w with
  | nil => rfl
  | cons c cs ih => simp [redeemRun_cons, ih]

/-- A schedule `xs ++ ys` runs `xs`, then `ys`. -/
theorem Sys.run_append (calls : Nat → Call) (s : Sys) (xs ys : List Nat) :
    s.run deriveKey calls (xs ++ ys) = (s.run deriveKey calls xs).run deriveKey calls ys :=
  List.foldl_append _ _ _ _

/-- `k` steps of the call `i` alone are `k` steps of `advanceN`. -/
theorem Sys.run_replicate (calls : Nat → Call) (s : Sys) (i k : Nat) :
    s.run deriveKey calls (List.replicate k i) =
      ⟨(advanceN deriveKey (calls i) k s.world (s.phase i)).2,
        Function.update s.phase i (advanceN deriveKey (calls i) k s.world (s.phase i)).1⟩ := by
  induction k generalizing s with
  | zero => simp [Sys.run, advanceN]
  | succ k ih =>
    show (s.step deriveKey calls i).run deriveKey calls (List.replicate k i) = _
    rw [ih]
    simp [Sys.step, advanceN]

/-- The schedule in which the calls `0, …, n - 1` run one after another, five steps each. -/
def sequentialSchedule : Nat → List Nat
  | 0 => []
  | n + 1 => sequentialSchedule n ++ List.replicate 5 n

/-- Calls that run one after another, each to its end before the next starts, are the interleaving
of `sequentialSchedule`: the world is the sequential run's, the calls that ran are done with the
results of the sequential run, and the others have not started. -/
theorem Sys.run_sequentialSchedule (calls : Nat → Call) (w : World) (n : Nat) :
    (Sys.init w).run deriveKey calls (sequentialSchedule n) =
      ⟨(redeemRun deriveKey w ((List.range n).map calls)).2,
        fun i => ((redeemRun deriveKey w ((List.range n).map calls)).1[i]?).elim .start .done⟩ := by
  induction n with
  | zero => rfl
  | succ n ih =>
    have hlen := @redeemRun_length deriveKey w ((List.range n).map calls)
    rw [List.length_map, List.length_range] at hlen
    rw [sequentialSchedule, Sys.run_append, ih, Sys.run_replicate]
    simp only [List.getElem?_eq_none (le_of_eq hlen), Option.elim_none, advanceN_five,
      List.range_succ, List.map_append, List.map_singleton, redeemRun_append]
    refine congrArg₂ Sys.mk rfl (funext fun i => ?_)
    rcases lt_trichotomy i n with hi | rfl | hi
    · rw [Function.update_noteq hi.ne, List.getElem?_append_left (by omega)]
    · rw [Function.update_same, List.getElem?_append_right (le_of_eq hlen), hlen, Nat.sub_self]
      rfl
    · rw [Function.update_noteq hi.ne', List.getElem?_eq_none (by omega),
        List.getElem?_eq_none (by rw [List.length_append, hlen, redeemRun_length]; simp; omega)]

/-- Calls that leave every key to the engine, under a derivation that tells quantities apart, run one
after another through the steps of the interleaving machine from a ledger whose rows under derived
keys carry the quantity they were derived from, leave a non-negative balance non-negative. -/
theorem sequential_balance_nonneg_of_derived_keys (calls : Nat → Call) (w : World) (n : Nat)
    (hd : ∀ q lid ck pol q' lid' ck' pol',
        deriveKey q lid ck pol = deriveKey q' lid' ck' pol' → q = q')
    (hcaller : ∀ i < n, (calls i).request.idempotencyKey = none)
    (hr : ∀ t ∈ w.ledger.transactions, ∀ q lid ck pol,
      t.idempotencyKey = deriveKey q lid ck pol → t.quantity = q)
    (h0 : 0 ≤ w.currentBalance) :
    0 ≤ ((Sys.init w).run deriveKey calls (sequentialSchedule n)).world.currentBalance := by
  rw [Sys.run_sequentialSchedule]
  refine redeemRun_currentBalance_nonneg w _ (keysFixPrices_of_derived hd ?_ hr) h0
  intro c hc
  obtain ⟨i, hi, rfl⟩ := List.mem_map.mp hc
  exact hcaller i (List.mem_range.mp hi)

/-- A key derivation that tells quantities apart: `a` repeated for a positive quantity, `b` for a
negative one. -/
def quantityKey (q : Int) (_ : Nat) (_ _ : String) : String :=
  String.mk (List.replicate q.toNat 'a' ++ List.replicate (-q).toNat 'b')

/-- `quantityKey` tells quantities apart. -/
theorem quantityKey_quantity {q q' : Int} {lid lid' : Nat} {ck pol ck' pol' : String}
    (h : quantityKey q lid ck pol = quantityKey q' lid' ck' pol') : q = q' := by
  have ha := congrArg (fun s => s.data.count 'a') h
  have hb := congrArg (fun s => s.data.count 'b') h
  simp [quantityKey, List.count_replicate] at ha hb
  omega

/-- Calls without a caller's key, all of learner `1` for `"c"` at the price `10`. -/
def derivedKeyCalls : Nat → Call := fun _ => ⟨⟨1, "c", "p", none⟩, ⟨.ok 10, .ok (some "e")⟩⟩

/-- Three such calls, one after another from an empty ledger, under `quantityKey`. -/
theorem derived_key_calls_keep_balance :
    (∀ q lid ck pol q' lid' ck' pol',
        quantityKey q lid ck pol = quantityKey q' lid' ck' pol' → q = q') ∧
      (∀ i < 3, (derivedKeyCalls i).request.idempotencyKey = none) ∧
      (∀ t ∈ (⟨100, .empty, []⟩ : World).ledger.transactions, ∀ q lid ck pol,
        t.idempotencyKey = quantityKey q lid ck pol → t.quantity = q) ∧
      0 ≤ (⟨100, .empty, []⟩ : World).currentBalance ∧
      0 ≤ ((Sys.init ⟨100, .empty, []⟩).run quantityKey derivedKeyCalls
        (sequentialSchedule 3)).world.currentBalance :=
  have hd : ∀ q lid ck pol q' lid' ck' pol',
      quantityKey q lid ck pol = quantityKey q' lid' ck' pol' → q = q' :=
    fun _ _ _ _ _ _ _ _ => quantityKey_quantity
  have hr : ∀ t ∈ (⟨100, .empty, []⟩ : World).ledger.transactions, ∀ q lid ck pol,
      t.idempotencyKey = quantityKey q lid ck pol → t.quantity = q :=
    fun t ht => absurd ht (List.not_mem_nil t)
  ⟨hd, fun _ _ => rfl, hr, by decide,
    sequential_balance_nonneg_of_derived_keys _ _ 3 hd (fun _ _ => rfl) hr (by decide)⟩

/-! ## The balance along interleavings -/

/-- Every row debits the subsidy: its quantity is at most zero. -/
def Ledger.Debits (l : Ledger) : Prop := ∀ t ∈ l.transactions, t.quantity ≤ 0

instance (l : Ledger) : Decidable l.Debits :=
  inferInstanceAs (Decidable (∀ t ∈ l.transactions, t.quantity ≤ 0))

/-- Every price the calls read is at least zero. -/
def PricesNonneg (calls : Nat → Call) : Prop := ∀ i p, (calls i).replies.price = .ok p → 0 ≤ p

/-- One step of a call at a nonnegative price keeps every row a debit and never raises the balance:
a new row debits the price and is not committed, and a commit adds a row's debit to the total, or
rewrites a committed row with its own quantity. -/
theorem advance_debits {w : World} {c : Call} (ph : Phase)
    (hp : ∀ p, c.replies.price = .ok p → 0 ≤ p) (hq : w.ledger.Debits) :
    (advance deriveKey w c ph).2.ledger.Debits ∧
      (advance deriveKey w c ph).2.currentBalance ≤ w.currentBalance := by
  cases ph with
  | redeemable =>
    simp only [advance]
    split
    · exact ⟨hq, le_rfl⟩
    · rename_i price hprice
      simp only [createPending_eq, World.currentBalance, Ledger.committedTotal_createTransaction]
      refine ⟨fun r hr => ?_, le_rfl⟩
      rcases Ledger.mem_createTransaction hr with hr | rfl
      · exact hq r hr
      · simpa [Ledger.newTransaction] using hp _ hprice
  | enrolled t r =>
    simp only [advance, commitRedemption_eq, World.currentBalance]
    refine ⟨fun r' hr' => ?_, add_le_add_left
      (Ledger.committedTotal_save_le (Transaction.commitWith_state _ _ _) hq) _⟩
    obtain ⟨r₀, hr₀, rfl⟩ := Ledger.mem_save.mp hr'
    rw [Transaction.saveInto_quantity]
    exact hq r₀ hr₀
  | start => simp only [advance]; split <;> exact ⟨hq, le_rfl⟩
  | checked => simp only [advance]; split <;> exact ⟨hq, le_rfl⟩
  | created t => simp only [advance]; split <;> exact ⟨hq, le_rfl⟩
  | done result => exact ⟨hq, le_rfl⟩

/-- Every system reachable by calls at nonnegative prices from a ledger of debits holds debits
only. -/
theorem debits_of_reachable {calls : Nat → Call} {w₀ : World} {s : Sys} (hp : PricesNonneg calls)
    (hq : w₀.ledger.Debits) (hs : Reachable deriveKey calls w₀ s) : s.world.ledger.Debits := by
  induction hs with
  | init => exact hq
  | step i _ ih => exact (advance_debits _ (hp i) ih).1

/-- Along every interleaving of calls at nonnegative prices, from a ledger of debits, the balance
never rises: from any reachable system, whatever steps of whichever calls come next. Two calls that
commit one row debit it once. -/
theorem currentBalance_antitone_along_runs {calls : Nat → Call} {w₀ : World} {s : Sys}
    (hp : PricesNonneg calls) (hq : w₀.ledger.Debits) (hs : Reachable deriveKey calls w₀ s)
    (schedule : List Nat) :
    (s.run deriveKey calls schedule).world.currentBalance ≤ s.world.currentBalance := by
  induction schedule generalizing s with
  | nil => exact le_rfl
  | cons i is ih =>
    calc (s.run deriveKey calls (i :: is)).world.currentBalance
        ≤ (s.step deriveKey calls i).world.currentBalance := ih (hs.step i)
      _ ≤ s.world.currentBalance := (advance_debits _ (hp i) (debits_of_reachable hp hq hs)).2

/-- The twin calls, which commit one row twice, lower the balance once. -/
theorem twinRun_balance_not_raised :
    PricesNonneg (fun _ => twinCall) ∧ Ledger.empty.Debits ∧
      twinRun.world.currentBalance ≤ (Sys.init ⟨100, .empty, []⟩).world.currentBalance :=
  have hp : PricesNonneg (fun _ => twinCall) := fun _ _ h => by cases h; decide
  ⟨hp, by decide, currentBalance_antitone_along_runs hp (by decide) Reachable.init alternating⟩

example : twinRun.world.currentBalance = 90 := by decide

/-! ## A call that raises -/

variable (deriveKey) in
/-- What a call of `redeem` that raised `exc` leaves. -/
structure RaisePost (w : World) (c : Call) (exc : String) (w' : World) : Prop where
  /-- The exception is the pricing oracle's or `enroll`'s own, raised again. -/
  reraised : c.replies.price = .error exc ∨ c.replies.enroll = .error exc
  /-- The balance is as it was. -/
  currentBalance : w'.currentBalance = w.currentBalance
  /-- The committed rows are as they were. -/
  committed : ∀ t, t.state = .committed → (t ∈ w'.ledger.transactions ↔ t ∈ w.ledger.transactions)
  /-- Once the price was read, the ledger is what `create_transaction` left: the rollback does
  nothing, and the row it handed back stays under the call's key. -/
  pending : ∀ p,
      c.replies.price = .ok p → w'.ledger = (createPending deriveKey w c.request p).2.ledger

/-- A call of `redeem` that raises. -/
theorem redeem_raises_spec {exc : String} (h : (redeem deriveKey w c).1 = .error exc) :
    RaisePost deriveKey w c exc (redeem deriveKey w c).2 := by
  rcases redeem_cases w c with ⟨_, _, h'⟩ | ⟨_, exc', hp, h'⟩ | ⟨_, _, _, _, h'⟩ |
    ⟨_, p, exc', hp, _, he, h'⟩ | ⟨_, _, _, _, _, _, _, _, h', _⟩ <;> rw [h'] at h ⊢ <;>
    simp only [Except.error.injEq, reduceCtorEq] at h
  · -- the pricing oracle raised: nothing happened
    subst h
    exact ⟨.inl hp, rfl, fun _ _ => Iff.rfl, fun p hp' => by simp [hp] at hp'⟩
  · -- `enroll` raised after `create_transaction`
    subst h
    refine ⟨.inr he, ?_, fun t ht => ?_, fun p' hp' => ?_⟩
    · simp [World.currentBalance, createPending_eq, Ledger.committedTotal_createTransaction]
    · simp only [World.enroll_ledger, createPending_eq]
      refine ⟨fun hm => (Ledger.mem_createTransaction hm).resolve_right fun hn => ?_,
        Ledger.mem_createTransaction_of_mem⟩
      simp [hn, Ledger.newTransaction] at ht
    · rw [hp, Except.ok.injEq] at hp'
      subst hp'
      rfl

end Run

/-- A run under caller keys: a failed enrollment, its retry at the same price, and another
learner. -/
def retriedCalls : List Call :=
  [⟨⟨1, "c", "p", some "a"⟩, ⟨.ok 30, .error "enroll failed"⟩⟩,
    ⟨⟨1, "c", "p", some "a"⟩, ⟨.ok 30, .ok (some "e1")⟩⟩,
    ⟨⟨2, "c", "p", some "b"⟩, ⟨.ok 50, .ok (some "e2")⟩⟩]

/-- A failed enrollment retried at its price, then another learner's call, from the balance
`100`. -/
theorem balance_nonneg_along_retriedCalls :
    KeysFixPrices (fun _ _ _ _ => "") ⟨100, .empty, []⟩ retriedCalls ∧
      0 ≤ (⟨100, .empty, []⟩ : World).currentBalance ∧
      ∀ n, 0 ≤ (redeemRun (fun _ _ _ _ => "") ⟨100, .empty, []⟩
        (retriedCalls.take n)).2.currentBalance :=
  ⟨by decide, by decide, currentBalance_nonneg_along_run _ _ (by decide) (by decide)⟩

/-- A failed attempt under the caller's key `"k"` at the price `100`, a call of another learner at
`60`, and the retry of the first at the new price `10`. -/
def overdraftCalls : List Call :=
  [⟨⟨1, "c", "p", some "k"⟩, ⟨.ok 100, .error "enroll failed"⟩⟩,
    ⟨⟨2, "c", "p", some "k2"⟩, ⟨.ok 60, .ok (some "e2")⟩⟩,
    ⟨⟨1, "c", "p", some "k"⟩, ⟨.ok 10, .ok (some "e1")⟩⟩]

/-- Each key serves one learner, content and policy, yet the retry passes `is_redeemable` at the
price `10` against the balance `40` and commits the failed attempt's row, debited `100`. -/
theorem redeem_run_overdraws :
    ¬ ∃ deriveKey : Int → Nat → String → String → String, ∀ (w : World) (calls : List Call),
      (∀ c ∈ calls, ∀ c' ∈ calls, c.key deriveKey ≠ none → c.key deriveKey = c'.key deriveKey →
        (c.request.learnerId, c.request.contentKey, c.request.subsidyAccessPolicyUuid) =
          (c'.request.learnerId, c'.request.contentKey, c'.request.subsidyAccessPolicyUuid)) →
      0 ≤ w.currentBalance → ∀ n, 0 ≤ (redeemRun deriveKey w (calls.take n)).2.currentBalance := by
  rintro ⟨d, hd⟩
  have hcaller : ∀ c ∈ overdraftCalls, (c.request.idempotencyKey.getD "").isEmpty = false := by
    decide
  have h := hd ⟨100, .empty, []⟩ overdraftCalls (fun c hc c' hc' => by
    rw [Call.key_deriveKey d (fun _ _ _ _ => "") (hcaller c hc),
      Call.key_deriveKey d (fun _ _ _ _ => "") (hcaller c' hc')]
    revert c' hc' c hc
    decide) (by decide) 3
  rw [redeemRun_deriveKey d (fun _ _ _ _ => "") (overdraftCalls.take 3) (by decide)] at h
  exact absurd h (by decide)

/-- A call under the caller's key `"k"` at the price `100`, whose enrollment fails. -/
def failedAttempt : Call := ⟨⟨1, "c", "p", some "k"⟩, ⟨.ok 100, .error "enroll failed"⟩⟩

/-- The same request, made again at the new price `10`. -/
def retryAtNewPrice : Call := ⟨⟨1, "c", "p", some "k"⟩, ⟨.ok 10, .ok (some "e")⟩⟩

/-- After the failed attempt, the later call commits the attempt's row, debited `100`, and leaves
the balance `0`; without the attempt, it commits a row debited `10` and leaves `90`. -/
theorem failed_attempt_debits_retry (deriveKey : Int → Nat → String → String → String) :
    (redeemRun deriveKey ⟨100, .empty, []⟩ [failedAttempt, retryAtNewPrice]).1 =
        [.error "enroll failed", .ok (some ⟨0, "k", 1, "c", "p", -100, .committed, some "e",
          some ocmEnrollmentReferenceType⟩, true)] ∧
      (redeemRun deriveKey ⟨100, .empty, []⟩
        [failedAttempt, retryAtNewPrice]).2.currentBalance = 0 ∧
      (redeemRun deriveKey ⟨100, .empty, []⟩ [retryAtNewPrice]).1 =
        [.ok (some ⟨0, "k", 1, "c", "p", -10, .committed, some "e",
          some ocmEnrollmentReferenceType⟩, true)] ∧
      (redeemRun deriveKey ⟨100, .empty, []⟩ [retryAtNewPrice]).2.currentBalance = 90 := by
  simp only [redeemRun_deriveKey deriveKey (fun _ _ _ _ => "") [failedAttempt, retryAtNewPrice]
      (by decide),
    redeemRun_deriveKey deriveKey (fun _ _ _ _ => "") [retryAtNewPrice] (by decide)]
  decide

end EnterpriseSubsidy
