import EnterpriseSubsidy.Interleaving

/-!
# One redemption per learner and content, across interleavings

The engine holds no lock and leans on the ledger's unique idempotency key alone (spec §5). Two
calls for one learner and content that both pass `get_redemption` before either commits each
commit the row of their own key, so the redemption stays unique across interleavings as far as
the calls of one learner and content use one key and a row that already holds a call's key belongs
to the call's learner and content (`KeysPerPair`). A key may serve two pairs: the calls of both
then commit the one row that the first of them created. Keys derived for calls of one pair that
differ in the policy or the price are different keys, and `redeem_races_to_two_redemptions` runs
two such calls to two committed transactions.

Under `KeysPerPair`, `Inv` holds of every reachable system. Its heart is `CallInv.in_flight`:
from `get_redemption` on, and after the call has returned a transaction it created, every
committed row of the call's pair holds the call's key. A row that holds a call's key belongs to a
pair of that key (`LedgerInv.rows_owned`), and when that is not the call's pair, every committed
row of the row's pair holds its key (`LedgerInv.shared`): the call that created the row was in
flight. The ledger keeps keys unique, so the row that a call commits is the only committed row of
its pair. The step lemmas follow the phase of the stepping call, as `Inv.step` dispatches them.

When moreover no key serves two pairs (`KeysNamePairs`), a call returns a transaction of its own
learner and content, and every call of `enroll` names a row of the ledger of the learner and the
content it enrolls (`enrollment_names_row_of_reachable`): the instance a call passes to `enroll`
holds the call's key, whose row belongs to the call's pair.
-/

namespace EnterpriseSubsidy

/-- The learner and the content of a transaction. -/
def Transaction.pair (t : Transaction) : Nat × String := (t.lmsUserId, t.contentKey)

/-- The learner and the content of a call. -/
def Call.pair (c : Call) : Nat × String := (c.request.learnerId, c.request.contentKey)

/-- A call past `get_redemption` that has not returned, or that has returned the transaction it
committed. -/
def Phase.Redeeming : Phase → Prop
  | .checked | .redeemable | .created _ | .enrolled _ _ | .done (.ok (some _, true)) => True
  | _ => False

/-- A call at its start, or returned without a transaction. -/
def Phase.Idle : Phase → Prop
  | .start | .done (.error _) | .done (.ok (none, _)) => True
  | _ => False

/-- The instance that a call holds between `create_transaction` and `commit_transaction`. -/
def Phase.held : Phase → Option Transaction
  | .created t | .enrolled t _ => some t
  | _ => none

/-- `save` keeps every row's learner and content. -/
@[simp] theorem Transaction.saveInto_pair (t r : Transaction) : (t.saveInto r).pair = r.pair := by
  unfold saveInto; split <;> rfl

/-- `write` keeps the row's learner and content. -/
@[simp] theorem Transaction.write_pair (r t : Transaction) : (r.write t).pair = r.pair := rfl

/-- Committing keeps the learner and the content. -/
@[simp] theorem Transaction.commitWith_pair (t : Transaction) (r rt : Option String) :
    (t.commitWith r rt).pair = t.pair := by
  simp [pair]

/-- A commit keeps the learner and the content. -/
theorem Transaction.CommitOf.pair {t t' : Transaction} (h : t.CommitOf t') : t'.pair = t.pair := by
  obtain ⟨-, -, hl, hc, -⟩ := h.fields
  simp [Transaction.pair, hl, hc]

/-! ## The ledger steps, on committed rows -/

/-- The committed rows after a get-or-create are old rows: the new row is `created`. -/
theorem Ledger.mem_of_committed_createTransaction {l : Ledger} {key : String} {q : Int} {lid : Nat}
    {ck pol : String} {r : Transaction}
    (hr : r ∈ (l.createTransaction key q lid ck pol).2.transactions)
    (hc : r.state = .committed) : r ∈ l.transactions := by
  rcases Ledger.mem_createTransaction hr with hr | rfl
  · exact hr
  · cases hc

/-- A committed row after a save is an old committed row with another primary key, or the saved
row. -/
theorem Ledger.committed_of_mem_save {l : Ledger} {t r' : Transaction}
    (hr' : r' ∈ (l.save t).transactions) :
    (r' ∈ l.transactions ∧ r'.uuid ≠ t.uuid) ∨ ∃ r ∈ l.transactions,
        r.uuid = t.uuid ∧ r' = r.write t := by
  obtain ⟨r, hr, rfl⟩ := Ledger.mem_save.mp hr'
  unfold Transaction.saveInto
  split
  · exact .inr ⟨r, hr, ‹_›, rfl⟩
  · exact .inl ⟨hr, ‹_›⟩

/-- A committed row after a save into the row `r₀` is an old committed row, or holds `r₀`'s key and
pair. -/
theorem Ledger.committed_save_cases {l : Ledger} {t r₀ x : Transaction} (hr₀ : r₀ ∈ l.transactions)
    (hu₀ : r₀.uuid = t.uuid) (hx : x ∈ (l.save t).transactions) (hxc : x.state = .committed) :
    (x ∈ l.transactions ∧ x.state = .committed) ∨
      (x.idempotencyKey = r₀.idempotencyKey ∧ x.pair = r₀.pair) := by
  rcases Ledger.committed_of_mem_save hx with ⟨hx, -⟩ | ⟨a, ha, hau, rfl⟩
  · exact .inl ⟨hx, hxc⟩
  · rw [Ledger.eq_of_uuid_eq ha hr₀ (hau.trans hu₀.symm)]
    exact .inr ⟨rfl, rfl⟩

/-- `create_transaction` adds no committed row, so redemptions stay unique. -/
theorem unique_createTransaction {l : Ledger} (hu : UniqueRedemptions l) (key : String) (q : Int)
    (lid : Nat) (ck pol : String) : UniqueRedemptions (l.createTransaction key q lid ck pol).2 :=
  fun t ht t' ht' hc hc' =>
    hu t (Ledger.mem_of_committed_createTransaction ht hc) t'
      (Ledger.mem_of_committed_createTransaction ht' hc') hc hc'

/-- Saving an instance into the row `r₀` keeps the redemptions unique when every committed
row of `r₀`'s pair holds `r₀`'s key. -/
theorem unique_save {l : Ledger} {t r₀ : Transaction} (hu : UniqueRedemptions l)
    (hr₀ : r₀ ∈ l.transactions) (hu₀ : r₀.uuid = t.uuid)
    (hkey : ∀ x ∈ l.transactions, x.state = .committed → x.pair = r₀.pair →
      x.idempotencyKey = r₀.idempotencyKey) :
    UniqueRedemptions (l.save t) := by
  -- a committed row of `r₀`'s pair with another primary key cannot exist
  have hother : ∀ x ∈ l.transactions, x.uuid ≠ t.uuid → x.state = .committed →
      x.lmsUserId = r₀.lmsUserId → x.contentKey = r₀.contentKey → False := fun x hx hxu hc hl hk =>
    hxu (by rw [Ledger.eq_of_key_eq hx hr₀ (hkey x hx hc (by simp [Transaction.pair, hl, hk])),
        hu₀])
  intro x hx y hy hcx hcy hl hk
  rcases Ledger.committed_of_mem_save hx with ⟨hx, hxu⟩ | ⟨a, ha, hau, rfl⟩ <;>
    rcases Ledger.committed_of_mem_save hy with ⟨hy, hyu⟩ | ⟨b, hb, hbu, rfl⟩
  · exact hu x hx y hy hcx hcy hl hk
  · rw [Ledger.eq_of_uuid_eq hb hr₀ (hbu.trans hu₀.symm)] at hl hk
    exact (hother x hx hxu hcx hl hk).elim
  · rw [Ledger.eq_of_uuid_eq ha hr₀ (hau.trans hu₀.symm)] at hl hk
    exact (hother y hy hyu hcy hl.symm hk.symm).elim
  · rw [Ledger.eq_of_uuid_eq ha hr₀ (hau.trans hu₀.symm),
      Ledger.eq_of_uuid_eq hb hr₀ (hbu.trans hu₀.symm)]

section Invariant

variable (deriveKey : Int → Nat → String → String → String)

/-- The key that the call passes to `create_transaction` once it has read its price; none when the
pricing oracle raises, since the call then never gets there. -/
def Call.key (c : Call) : Option String :=
  match c.replies.price with
  | .ok price => some (idempotencyKeyFor deriveKey c.request (-1 * price))
  | .error _ => none

/-- The calls of one learner and content use one idempotency key, and a row of the ledger that
holds a call's key belongs to the call's learner and content. -/
structure KeysPerPair (calls : Nat → Call) (l : Ledger) : Prop where
  /-- The calls of one learner and content use one key. -/
  one_key : ∀ i j k k', (calls i).pair = (calls j).pair → (calls i).key deriveKey = some k →
    (calls j).key deriveKey = some k' → k = k'
  /-- A row of the ledger that holds a call's key belongs to the call's learner and content. -/
  rows : ∀ t ∈ l.transactions, ∀ i, (calls i).key deriveKey = some t.idempotencyKey →
    t.pair = (calls i).pair

/-- The idempotency keys of the calls name learner–content pairs: one key per pair, and no key
for two pairs. -/
structure KeysNamePairs (calls : Nat → Call) (l : Ledger) extends KeysPerPair deriveKey calls l :
    Prop where
  /-- No key serves two learner–content pairs. -/
  one_pair : ∀ i j k, (calls i).key deriveKey = some k → (calls j).key deriveKey = some k →
    (calls i).pair = (calls j).pair

/-- What the invariant says of the ledger. -/
structure LedgerInv (calls : Nat → Call) (l : Ledger) : Prop where
  /-- A row that holds a call's key belongs to the pair of a call with that key. -/
  rows_owned : ∀ t ∈ l.transactions, ∀ i, (calls i).key deriveKey = some t.idempotencyKey →
    ∃ j, (calls j).key deriveKey = some t.idempotencyKey ∧ t.pair = (calls j).pair
  /-- A row that holds the key of a call of another pair holds the key of every committed row of
  its own pair. -/
  shared : ∀ t ∈ l.transactions, ∀ i, (calls i).key deriveKey = some t.idempotencyKey →
    t.pair ≠ (calls i).pair → ∀ x ∈ l.transactions, x.state = .committed → x.pair = t.pair →
    x.idempotencyKey = t.idempotencyKey
  unique : UniqueRedemptions l

/-- What the invariant says of the call `i` at the phase `ph`, over the ledger `l`. -/
structure CallInv (calls : Nat → Call) (l : Ledger) (i : Nat) (ph : Phase) : Prop where
  /-- The instance holds the call's key, and the row with its primary key holds its key and
  pair. -/
  held : ∀ t, ph.held = some t → (calls i).key deriveKey = some t.idempotencyKey ∧
    ∃ r ∈ l.transactions, r.uuid = t.uuid ∧ r.idempotencyKey = t.idempotencyKey ∧ r.pair = t.pair
  /-- While the call is redeeming, every committed row of its pair holds its key. -/
  in_flight : ∀ k, ph.Redeeming → (calls i).key deriveKey = some k → ∀ t ∈ l.transactions,
    t.state = .committed → t.pair = (calls i).pair → t.idempotencyKey = k
  /-- A returned transaction is committed, and so is its row; a found one is of the call's pair,
  and the row of a created one holds the call's key. -/
  returned : ∀ t b, ph = .done (.ok (some t, b)) → t.state = .committed ∧
    ∃ r ∈ l.transactions, r.uuid = t.uuid ∧ r.state = .committed ∧ r.pair = t.pair ∧
      (b = false → t.pair = (calls i).pair) ∧
      (b = true → (calls i).key deriveKey = some r.idempotencyKey)

/-- The invariant of the interleaved calls. -/
structure Inv (calls : Nat → Call) (s : Sys) : Prop where
  ledger : LedgerInv deriveKey calls s.world.ledger
  call : ∀ i, CallInv deriveKey calls s.world.ledger i (s.phase i)

variable {deriveKey} {calls : Nat → Call} {s : Sys} {i : Nat}

/-- A priced call's key is the key `_create_redemption` passes at that price. -/
theorem Call.key_of_price {c : Call} {price : Int} (hp : c.replies.price = .ok price) :
    c.key deriveKey = some (idempotencyKeyFor deriveKey c.request (-1 * price)) := by
  simp [Call.key, hp]

/-- A row that holds a call's key, of the pair of a call `j`, holds `j`'s key: it belongs to a pair
of its key, and that pair has one key. -/
theorem LedgerInv.key_of_pair (hk : KeysPerPair deriveKey calls l₀) {l : Ledger}
    (h : LedgerInv deriveKey calls l) {t : Transaction} (ht : t ∈ l.transactions)
    (hi : (calls i).key deriveKey = some t.idempotencyKey) {j : Nat} {k : String}
    (hj : (calls j).key deriveKey = some k) (hp : t.pair = (calls j).pair) :
    t.idempotencyKey = k := by
  obtain ⟨a, ha, hpa⟩ := h.rows_owned t ht i hi
  exact hk.one_key a j _ _ (hpa.symm.trans hp) ha hj

/-- When no key serves two pairs, a row that holds a call's key belongs to the call's pair. -/
theorem LedgerInv.pair_of_key (hk : KeysNamePairs deriveKey calls l₀) {l : Ledger}
    (h : LedgerInv deriveKey calls l) {t : Transaction} (ht : t ∈ l.transactions)
    (hi : (calls i).key deriveKey = some t.idempotencyKey) : t.pair = (calls i).pair := by
  obtain ⟨j, hj, hp⟩ := h.rows_owned t ht i hi
  exact hp.trans (hk.one_pair j i _ hj hi)

/-- `create_transaction` under a call's key and pair keeps the ledger's part, when every committed
row of the call's pair holds the key. -/
theorem LedgerInv.createTransaction {l : Ledger} (h : LedgerInv deriveKey calls l) {key : String}
    {q : Int} {lid : Nat} {ck pol : String} (hkey : (calls i).key deriveKey = some key)
    (hp : (lid, ck) = (calls i).pair)
    (hf : ∀ x ∈ l.transactions, x.state = .committed → x.pair = (calls i).pair →
      x.idempotencyKey = key) :
    LedgerInv deriveKey calls (l.createTransaction key q lid ck pol).2 := by
  have hold : ∀ {x}, x ∈ (l.createTransaction key q lid ck pol).2.transactions →
      x.state = .committed → x ∈ l.transactions := Ledger.mem_of_committed_createTransaction
  refine ⟨fun t ht j hj => ?_, fun t ht j hj hne x hx hxc hxp => ?_,
    unique_createTransaction h.unique _ _ _ _ _⟩
  · rcases Ledger.mem_createTransaction ht with ht | rfl
    · exact h.rows_owned t ht j hj
    · exact ⟨i, hkey, hp⟩
  · rcases Ledger.mem_createTransaction ht with ht | rfl
    · exact h.shared t ht j hj hne x (hold hx hxc) hxc hxp
    · exact hf x (hold hx hxc) hxc (hxp.trans hp)

/-- A save into the row `r₀`, which holds a call's key, keeps the ledger's part when every committed
row of `r₀`'s pair holds `r₀`'s key. -/
theorem LedgerInv.save (hk : KeysPerPair deriveKey calls l₀) {l : Ledger}
    (h : LedgerInv deriveKey calls l) {t r₀ : Transaction} (hr₀ : r₀ ∈ l.transactions)
    (hu₀ : r₀.uuid = t.uuid) (hkey₀ : (calls i).key deriveKey = some r₀.idempotencyKey)
    (hcom : ∀ x ∈ l.transactions, x.state = .committed → x.pair = r₀.pair →
      x.idempotencyKey = r₀.idempotencyKey) :
    LedgerInv deriveKey calls (l.save t) := by
  refine ⟨fun x hx j hj => ?_, fun x hx j hj hne z hz hzc hzp => ?_,
    unique_save h.unique hr₀ hu₀ hcom⟩
  · obtain ⟨y, hy, rfl⟩ := Ledger.mem_save.mp hx
    simpa using h.rows_owned y hy j (by simpa using hj)
  · obtain ⟨y, hy, rfl⟩ := Ledger.mem_save.mp hx
    rw [Transaction.saveInto_idempotencyKey] at hj ⊢
    rw [Transaction.saveInto_pair] at hne hzp
    rcases Ledger.committed_save_cases hr₀ hu₀ hz hzc with ⟨hz, -⟩ | ⟨hzk, hzp'⟩
    · exact h.shared y hy j hj hne z hz hzc hzp
    · -- `z` is `r₀`, of `y`'s pair, which has one key
      obtain ⟨a, ha, hpa⟩ := h.rows_owned y hy j hj
      exact hzk.trans (h.key_of_pair hk hr₀ hkey₀ ha (hzp'.symm.trans (hzp.trans hpa)))

/-- The invariant asks nothing of an idle call. -/
theorem CallInv.of_idle {l : Ledger} {ph : Phase} (h : ph.Idle) :
    CallInv deriveKey calls l i ph := by
  refine ⟨fun t ht => ?_, fun k hf => ?_, fun t b ht => ?_⟩ <;>
    rcases ph with _ | _ | _ | _ | _ | (_ | ⟨_ | _, _⟩) <;>
    simp_all [Phase.Idle, Phase.held, Phase.Redeeming]

/-- `held` and `returned` survive a ledger step that keeps every row, up to a commit. -/
theorem CallInv.of_keep {l l' : Ledger} {ph : Phase} (h : CallInv deriveKey calls l i ph)
    (hkeep : ∀ r ∈ l.transactions, ∃ r' ∈ l'.transactions, r.CommitOf r')
    (hf : ∀ k, ph.Redeeming → (calls i).key deriveKey = some k → ∀ t ∈ l'.transactions,
      t.state = .committed → t.pair = (calls i).pair → t.idempotencyKey = k) :
    CallInv deriveKey calls l' i ph where
  held t ht := by
    obtain ⟨hk, r, hr, hu, hkey, hp⟩ := h.held t ht
    obtain ⟨r', hr', hc⟩ := hkeep r hr
    exact ⟨hk, r', hr', hc.fields.1.trans hu, hc.fields.2.1.trans hkey, hc.pair.trans hp⟩
  in_flight := hf
  returned t b ht := by
    obtain ⟨hc, r, hr, hu, hrc, hrp, hfound, hcreated⟩ := h.returned t b ht
    obtain ⟨r', hr', hcr⟩ := hkeep r hr
    exact ⟨hc, r', hr', hcr.fields.1.trans hu, hcr.committed hrc, hcr.pair.trans hrp, hfound,
      fun hb => (hcreated hb).trans (congrArg some hcr.fields.2.1.symm)⟩

/-- A step that writes the ledger `l'` keeps the invariant when `l'` keeps the ledger's part and
every old row up to a commit, commits a row of another redeeming call's pair only under that call's
key, and the stepping call keeps its part. -/
theorem Inv.step_of_keep {l' : Ledger} (h : Inv deriveKey calls s)
    (hl : (s.step deriveKey calls i).world.ledger = l') (hL : LedgerInv deriveKey calls l')
    (hkeep : ∀ r ∈ s.world.ledger.transactions, ∃ r' ∈ l'.transactions, r.CommitOf r')
    (hf : ∀ j ≠ i, ∀ k, (s.phase j).Redeeming → (calls j).key deriveKey = some k →
      ∀ t ∈ l'.transactions, t.state = .committed → t.pair = (calls j).pair → t.idempotencyKey = k)
    (hi : CallInv deriveKey calls l' i ((s.step deriveKey calls i).phase i)) :
    Inv deriveKey calls (s.step deriveKey calls i) where
  ledger := hl ▸ hL
  call j := by
    rw [hl]
    by_cases hj : j = i
    · exact hj ▸ hi
    · rw [Sys.step_phase_ne s hj]; exact (h.call j).of_keep hkeep (hf j hj)

/-- A step that leaves the ledger as it is keeps the invariant when the stepping call keeps its
part. -/
theorem Inv.step_of_ledger_eq (h : Inv deriveKey calls s)
    (hl : (s.step deriveKey calls i).world.ledger = s.world.ledger)
    (hi : CallInv deriveKey calls s.world.ledger i ((s.step deriveKey calls i).phase i)) :
    Inv deriveKey calls (s.step deriveKey calls i) :=
  h.step_of_keep hl h.ledger (fun r hr => ⟨r, hr, .refl r⟩) (fun j _ => (h.call j).in_flight) hi

/-- `get_redemption` keeps the invariant. -/
theorem Inv.step_start (h : Inv deriveKey calls s) (hph : s.phase i = .start) :
    Inv deriveKey calls (s.step deriveKey calls i) := by
  have hl : (s.step deriveKey calls i).world.ledger = s.world.ledger := by
    simp only [Sys.step, hph, advance]; split <;> rfl
  refine h.step_of_ledger_eq hl ?_
  simp only [Sys.step_phase_self, hph, advance]
  split
  · -- `get_redemption` found the committed row of the pair
    rename_i t hg
    obtain ⟨ht, hl, hck, hc⟩ := getRedemption_eq_some hg
    refine ⟨fun _ h => (by cases h), fun _ h => h.elim, fun t' b e => ?_⟩
    cases e
    exact ⟨hc, t, ht, rfl, hc, rfl, fun _ => by simp [Transaction.pair, Call.pair, hl, hck], nofun⟩
  · -- no committed row of the pair
    rename_i hg
    refine ⟨fun _ h => (by cases h), fun k _ _ t ht hc hp => ?_, fun _ _ h => (by cases h)⟩
    simp only [Transaction.pair, Call.pair, Prod.mk.injEq] at hp
    exact absurd hc (getRedemption_eq_none.mp hg t ht hp.1 hp.2)

/-- `is_redeemable` keeps the invariant. -/
theorem Inv.step_checked (h : Inv deriveKey calls s) (hph : s.phase i = .checked) :
    Inv deriveKey calls (s.step deriveKey calls i) := by
  have hl : (s.step deriveKey calls i).world.ledger = s.world.ledger := by
    simp only [Sys.step, hph, advance]; split <;> rfl
  refine h.step_of_ledger_eq hl ?_
  have hf := (h.call i).in_flight
  rw [hph] at hf
  simp only [Sys.step_phase_self, hph, advance]
  split
  · exact .of_idle trivial
  · exact .of_idle trivial
  · exact ⟨fun _ h => (by cases h), fun k _ => hf k trivial, fun _ _ h => (by cases h)⟩

/-- The get-or-create keeps the invariant: the row it adds holds the call's key and pair. -/
theorem Inv.step_redeemable (h : Inv deriveKey calls s) (hph : s.phase i = .redeemable) :
    Inv deriveKey calls (s.step deriveKey calls i) := by
  have hf := (h.call i).in_flight
  rw [hph] at hf
  cases hp : (calls i).replies.price with
  | error exc =>
    have hl : (s.step deriveKey calls i).world.ledger = s.world.ledger := by
      simp [Sys.step, hph, advance, hp]
    refine h.step_of_ledger_eq hl ?_
    simp only [Sys.step_phase_self, hph, advance, hp]
    exact .of_idle trivial
  | ok price =>
    have hkey : (calls i).key deriveKey =
        some (idempotencyKeyFor deriveKey (calls i).request (-1 * price)) := Call.key_of_price hp
    set req := (calls i).request
    set key := idempotencyKeyFor deriveKey req (-1 * price)
    set l' := (s.world.ledger.createTransaction key (-1 * price) req.learnerId req.contentKey
      req.subsidyAccessPolicyUuid)
    have hl : (s.step deriveKey calls i).world.ledger = l'.2 := by
      simp [Sys.step, hph, advance, hp, createPending_eq, l', key, req]
    have hph' : (s.step deriveKey calls i).phase i = .created l'.1 := by
      simp [Sys.step_phase_self, hph, advance, hp, createPending_eq, l', key, req]
    have hold : ∀ {x}, x ∈ l'.2.transactions → x.state = .committed →
        x ∈ s.world.ledger.transactions := Ledger.mem_of_committed_createTransaction
    refine h.step_of_keep hl (h.ledger.createTransaction hkey rfl (hf key trivial hkey))
      (fun r hr => ⟨r, Ledger.mem_createTransaction_of_mem hr, .refl r⟩)
      (fun j _ k hfl hk' t ht hc hp' => (h.call j).in_flight k hfl hk' t (hold ht hc) hc hp') ?_
    rw [hph']
    refine ⟨fun t ht => ?_, fun k _ hk' t ht hc hp' => hf k trivial hk' t (hold ht hc) hc hp',
      fun _ _ h => (by cases h)⟩
    cases ht
    exact ⟨by simpa [l'] using hkey, l'.1, Ledger.createTransaction_mem, rfl, rfl, rfl⟩

/-- The call of `enroll` keeps the invariant. -/
theorem Inv.step_created {t : Transaction} (h : Inv deriveKey calls s)
    (hph : s.phase i = .created t) : Inv deriveKey calls (s.step deriveKey calls i) := by
  have hl : (s.step deriveKey calls i).world.ledger = s.world.ledger := by
    simp only [Sys.step, hph, advance]; split <;> rfl
  refine h.step_of_ledger_eq hl ?_
  have hc := h.call i
  rw [hph] at hc
  simp only [Sys.step_phase_self, hph, advance]
  split
  · exact .of_idle trivial
  · exact ⟨fun t' ht => hc.held t' ht, fun k _ => hc.in_flight k trivial, fun _ _ h => (by cases h)⟩

/-- `commit_transaction` keeps the invariant, when the calls of a pair share a key. -/
theorem Inv.step_enrolled {t : Transaction} {r : Option String}
    (hk : KeysPerPair deriveKey calls l₀) (h : Inv deriveKey calls s)
    (hph : s.phase i = .enrolled t r) : Inv deriveKey calls (s.step deriveKey calls i) := by
  have hc := h.call i
  rw [hph] at hc
  obtain ⟨hkey, r₀, hr₀, hu₀, hk₀, hp₀⟩ := hc.held t rfl
  set t' := t.commitWith r (some ocmEnrollmentReferenceType)
  have ht' : t'.state = .committed := Transaction.commitWith_state _ _ _
  have hl : (s.step deriveKey calls i).world.ledger = s.world.ledger.save t' := by
    simp [Sys.step, hph, advance, commitRedemption_eq, t']
  have hph' : (s.step deriveKey calls i).phase i = .done (.ok (some t', true)) := by
    simp [Sys.step_phase_self, hph, advance, commitRedemption_eq, t']
  have hkey₀ : (calls i).key deriveKey = some r₀.idempotencyKey := hk₀ ▸ hkey
  have hu₀' : r₀.uuid = t'.uuid := hu₀.trans (Transaction.commitWith_uuid _ _ _).symm
  -- every committed row of `r₀`'s pair holds `r₀`'s key: the call's own pair, or another one
  have hcom : ∀ x ∈ s.world.ledger.transactions, x.state = .committed → x.pair = r₀.pair →
      x.idempotencyKey = r₀.idempotencyKey := by
    by_cases hq : r₀.pair = (calls i).pair
    · exact fun x hx hxc hxp =>
        (hc.in_flight _ trivial hkey x hx hxc (hxp.trans hq)).trans hk₀.symm
    · exact h.ledger.shared r₀ hr₀ i hkey₀ hq
  refine h.step_of_keep hl (h.ledger.save hk hr₀ hu₀' hkey₀ hcom)
    (fun x hx => ⟨t'.saveInto x, Ledger.mem_save.mpr ⟨x, hx, rfl⟩,
      Transaction.commitOf_saveInto ht' x⟩)
    (fun j _ k hfl hk' x hx hxc hxp => ?_) ?_
  · rcases Ledger.committed_save_cases hr₀ hu₀' hx hxc with ⟨hx, -⟩ | ⟨hxk, hxp'⟩
    · exact (h.call j).in_flight k hfl hk' x hx hxc hxp
    · exact hxk.trans (h.ledger.key_of_pair hk hr₀ hkey₀ hk' (hxp'.symm.trans hxp))
  · rw [hph']
    refine ⟨fun _ h => (by cases h), fun k _ hk' x hx hxc hxp => ?_, fun x b e => ?_⟩
    · rcases Ledger.committed_save_cases hr₀ hu₀' hx hxc with ⟨hx, -⟩ | ⟨hxk, -⟩
      · exact hc.in_flight k trivial hk' x hx hxc hxp
      · exact hxk.trans (hk₀.trans (Option.some.inj (hkey.symm.trans hk')))
    · cases e
      exact ⟨ht', r₀.write t', Ledger.mem_save.mpr ⟨r₀, hr₀, by
        simp [Transaction.saveInto, hu₀, t']⟩, by simp [Transaction.write, hu₀, t'], ht',
        by simp [hp₀, t'], nofun, fun _ => hkey₀⟩

/-- A call that is done keeps the invariant. -/
theorem Inv.step_done {res : Except String (Option Transaction × Bool)} (h : Inv deriveKey calls s)
    (hph : s.phase i = .done res) : Inv deriveKey calls (s.step deriveKey calls i) := by
  refine h.step_of_ledger_eq (by simp [Sys.step, hph, advance]) ?_
  simpa [Sys.step_phase_self, hph, advance] using h.call i

/-- One step of any call keeps the invariant. -/
theorem Inv.step (hk : KeysPerPair deriveKey calls l₀) (h : Inv deriveKey calls s) (i : Nat) :
    Inv deriveKey calls (s.step deriveKey calls i) := by
  cases hph : s.phase i with
  | start => exact h.step_start hph
  | checked => exact h.step_checked hph
  | redeemable => exact h.step_redeemable hph
  | created t => exact h.step_created hph
  | enrolled t r => exact h.step_enrolled hk hph
  | done res => exact h.step_done hph

/-- The invariant holds of every reachable system. -/
theorem inv_of_reachable {w₀ : World} (hk : KeysPerPair deriveKey calls w₀.ledger)
    (hu : UniqueRedemptions w₀.ledger) (hs : Reachable deriveKey calls w₀ s) :
    Inv deriveKey calls s := by
  induction hs with
  | init =>
    exact ⟨⟨fun t ht i hi => ⟨i, hi, hk.rows t ht i hi⟩,
      fun t ht i hi hne => absurd (hk.rows t ht i hi) hne, hu⟩, fun _ => .of_idle trivial⟩
  | step i _ ih => exact ih.step hk i

/-- Every interleaving of `redeem` calls in which the calls of one learner and content use one key
keeps at most one committed transaction per learner and content, from a ledger that holds at most
one. -/
theorem unique_redemptions_of_reachable {w₀ : World} (hk : KeysPerPair deriveKey calls w₀.ledger)
    (hu : UniqueRedemptions w₀.ledger) (hs : Reachable deriveKey calls w₀ s) :
    UniqueRedemptions s.world.ledger :=
  (inv_of_reachable hk hu hs).ledger.unique

/-- In every interleaving whose keys name learner–content pairs, a call that returns a transaction
returns a committed transaction of its own learner and content, and the ledger holds its row
committed. -/
theorem returned_transaction_of_reachable {w₀ : World}
    (hk : KeysNamePairs deriveKey calls w₀.ledger) (hu : UniqueRedemptions w₀.ledger)
    (hs : Reachable deriveKey calls w₀ s) {i : Nat} {t : Transaction} {b : Bool}
    (hi : s.phase i = .done (.ok (some t, b))) :
    t.state = .committed ∧ t.lmsUserId = (calls i).request.learnerId ∧
      t.contentKey = (calls i).request.contentKey ∧
      ∃ r ∈ s.world.ledger.transactions, r.uuid = t.uuid ∧ r.state = .committed := by
  have h := inv_of_reachable hk.toKeysPerPair hu hs
  obtain ⟨hc, r, hr, hru, hrc, hrp, hfound, hcreated⟩ := (h.call i).returned t b hi
  -- a found transaction is of the call's pair; a created one holds the call's key
  have hp : t.pair = (calls i).pair := by
    cases b with
    | false => exact hfound rfl
    | true => exact hrp.symm.trans (h.ledger.pair_of_key hk hr (hcreated rfl))
  simp only [Transaction.pair, Call.pair, Prod.mk.injEq] at hp
  exact ⟨hc, hp.1, hp.2, r, hr, hru, hrc⟩

/-- Every call of `enroll` names a row of the ledger, of the learner and the content it enrolls. -/
def EnrollmentsNamed (w : World) : Prop :=
  ∀ e ∈ w.enrollments, ∃ r ∈ w.ledger.transactions,
    r.uuid = e.transactionUuid ∧ r.pair = (e.learnerId, e.contentKey)

/-- A step keeps every call of `enroll` naming a row of its learner and content, when the keys name
pairs: the rows keep their primary key and pair, and the instance a call passes to `enroll` holds
the call's key, whose row belongs to the call's pair. -/
theorem Inv.step_enrollmentsNamed (hk : KeysNamePairs deriveKey calls l₀)
    (h : Inv deriveKey calls s) (hn : EnrollmentsNamed s.world) :
    EnrollmentsNamed (s.step deriveKey calls i).world := by
  have keep : ∀ e : EnrollRequest, (∃ r ∈ s.world.ledger.transactions,
      r.uuid = e.transactionUuid ∧ r.pair = (e.learnerId, e.contentKey)) →
      ∃ r ∈ (s.step deriveKey calls i).world.ledger.transactions,
        r.uuid = e.transactionUuid ∧ r.pair = (e.learnerId, e.contentKey) := by
    rintro e ⟨r, hr, hu, hp⟩
    obtain ⟨r', hr', hc⟩ := (@advance_transactions deriveKey s.world (calls i) (s.phase i)).1 r hr
    exact ⟨r', hr', hc.fields.1.trans hu, hc.pair.trans hp⟩
  intro e he
  rcases advance_enrollments s.world (calls i) (s.phase i) with hq | ⟨t, hph, hq⟩
  · exact keep e (hn e (by rwa [← hq]))
  · rcases List.mem_append.mp (hq ▸ he : e ∈ _) with he | he
    · exact keep e (hn e he)
    · -- the call of `enroll` that this step makes, with the instance the call holds
      rw [List.mem_singleton] at he
      subst he
      obtain ⟨hkt, r, hr, hru, hrk, -⟩ := (h.call i).held t (by rw [hph]; rfl)
      exact keep _ ⟨r, hr, hru, h.ledger.pair_of_key hk hr (hkt.trans (congrArg some hrk.symm))⟩

/-- Over every interleaving of `redeem` calls whose keys name learner–content pairs, every call of
`enroll` names a transaction of the ledger, of the learner and the content it enrolls, and that
transaction stays in the ledger: `rollback_transaction` deletes nothing. -/
theorem enrollment_names_row_of_reachable {w₀ : World}
    (hk : KeysNamePairs deriveKey calls w₀.ledger) (hu : UniqueRedemptions w₀.ledger)
    (he : EnrollmentsNamed w₀) (hs : Reachable deriveKey calls w₀ s) :
    ∀ e ∈ s.world.enrollments, ∃ r ∈ s.world.ledger.transactions,
      r.uuid = e.transactionUuid ∧ r.lmsUserId = e.learnerId ∧ r.contentKey = e.contentKey := by
  have hn : EnrollmentsNamed s.world := by
    induction hs with
    | init => exact he
    | step i hs ih => exact (inv_of_reachable hk.toKeysPerPair hu hs).step_enrollmentsNamed hk ih
  intro e he
  obtain ⟨r, hr, hu, hp⟩ := hn e he
  exact ⟨r, hr, hu, congrArg Prod.fst hp, congrArg Prod.snd hp⟩

end Invariant

/-! ## Runs on concrete calls -/

/-- Two calls for one learner and content under one caller key. -/
def twinCall : Call := ⟨⟨1, "c", "p", some "k"⟩, ⟨.ok 10, .ok (some "e")⟩⟩

/-- The twin calls' keys name their pair. -/
theorem keysNamePairs_twinCall :
    KeysNamePairs (fun _ _ _ _ => "") (fun _ => twinCall) Ledger.empty :=
  ⟨⟨fun _ _ _ _ _ h h' => Option.some.inj (h.symm.trans h'),
    fun t ht => absurd ht (List.not_mem_nil t)⟩, fun _ _ _ _ _ => rfl⟩

/-- The schedule that alternates the calls `0` and `1` through their five steps. -/
def alternating : List Nat := [0, 1, 0, 1, 0, 1, 0, 1, 0, 1]

/-- The twin calls, alternated from an empty ledger. -/
def twinRun : Sys :=
  (Sys.init ⟨100, .empty, []⟩).run (fun _ _ _ _ => "") (fun _ => twinCall) alternating

/-- Two calls of two learners for one content under one caller key: a key that serves two
pairs. -/
def sharedKeyCalls : Nat → Call
  | 0 => ⟨⟨1, "c", "p", some "k"⟩, ⟨.ok 10, .ok (some "e1")⟩⟩
  | _ => ⟨⟨2, "c", "p", some "k"⟩, ⟨.ok 10, .ok (some "e2")⟩⟩

/-- The shared-key calls use one key per pair. -/
theorem keysPerPair_sharedKeyCalls :
    KeysPerPair (fun _ _ _ _ => "") sharedKeyCalls Ledger.empty := by
  have hkey : ∀ i, (sharedKeyCalls i).key (fun _ _ _ _ => "") = some "k" := by
    intro i; cases i <;> rfl
  exact ⟨fun i j _ _ _ hi hj => Option.some.inj ((hi.symm.trans (hkey i)).trans
    ((hkey j).symm.trans hj)), fun t ht => absurd ht (List.not_mem_nil t)⟩

/-- The shared-key calls, alternated from an empty ledger. -/
def sharedKeyRun : Sys :=
  (Sys.init ⟨100, .empty, []⟩).run (fun _ _ _ _ => "") sharedKeyCalls alternating

/-- Two calls of two learners under one key, alternated step by step from an empty ledger. -/
theorem unique_redemptions_of_shared_key :
    KeysPerPair (fun _ _ _ _ => "") sharedKeyCalls (⟨100, .empty, []⟩ : World).ledger ∧
      UniqueRedemptions (⟨100, .empty, []⟩ : World).ledger ∧
      Reachable (fun _ _ _ _ => "") sharedKeyCalls ⟨100, .empty, []⟩ sharedKeyRun ∧
      UniqueRedemptions sharedKeyRun.world.ledger :=
  ⟨keysPerPair_sharedKeyCalls, by decide, Reachable.init.run _,
    unique_redemptions_of_reachable keysPerPair_sharedKeyCalls (by decide) (Reachable.init.run _)⟩

/-- The second learner's call commits, with its own reference, the row that the first created. -/
example : sharedKeyRun.world.ledger.transactions =
    [⟨0, "k", 1, "c", "p", -10, .committed, some "e2", some ocmEnrollmentReferenceType⟩] := by
  decide

/-- The transaction that both twin calls return, each reporting it created. -/
def twinRedemption : Transaction :=
  ⟨0, "k", 1, "c", "p", -10, .committed, some "e", some ocmEnrollmentReferenceType⟩

/-- The first twin call returns a committed transaction of its own learner and content. -/
theorem twin_call_returns_own_transaction :
    twinRun.phase 0 = .done (.ok (some twinRedemption, true)) ∧
      twinRedemption.state = .committed ∧ twinRedemption.lmsUserId = twinCall.request.learnerId ∧
      twinRedemption.contentKey = twinCall.request.contentKey ∧
      ∃ r ∈ twinRun.world.ledger.transactions, r.uuid = twinRedemption.uuid ∧
        r.state = .committed :=
  have h0 : twinRun.phase 0 = .done (.ok (some twinRedemption, true)) := by decide
  ⟨h0, returned_transaction_of_reachable keysNamePairs_twinCall (by decide) (Reachable.init.run _)
    h0⟩

/-- The twin calls both call `enroll` with the one row they commit, of their learner and content. -/
theorem twin_enrollments_name_row :
    KeysNamePairs (fun _ _ _ _ => "") (fun _ => twinCall) (⟨100, .empty, []⟩ : World).ledger ∧
      UniqueRedemptions (⟨100, .empty, []⟩ : World).ledger ∧
      EnrollmentsNamed ⟨100, .empty, []⟩ ∧
      Reachable (fun _ _ _ _ => "") (fun _ => twinCall) ⟨100, .empty, []⟩ twinRun ∧
      ∀ e ∈ twinRun.world.enrollments, ∃ r ∈ twinRun.world.ledger.transactions,
        r.uuid = e.transactionUuid ∧ r.lmsUserId = e.learnerId ∧ r.contentKey = e.contentKey :=
  have he : EnrollmentsNamed ⟨100, .empty, []⟩ := fun e he => absurd he (List.not_mem_nil e)
  ⟨keysNamePairs_twinCall, by decide, he, Reachable.init.run _,
    enrollment_names_row_of_reachable keysNamePairs_twinCall (by decide) he (Reachable.init.run _)⟩

example : twinRun.world.enrollments = [⟨1, "c", 0⟩, ⟨1, "c", 0⟩] := by decide

/-- Two calls for one learner and content, under two policies and two keys. -/
def raceCalls : Nat → Call
  | 0 => ⟨⟨1, "c", "p1", some "k1"⟩, ⟨.ok 10, .ok (some "e1")⟩⟩
  | _ => ⟨⟨1, "c", "p2", some "k2"⟩, ⟨.ok 10, .ok (some "e2")⟩⟩

/-- The racing calls carry caller keys. -/
theorem raceCalls_keys (i : Nat) :
    ∃ key, (raceCalls i).request.idempotencyKey = some key ∧ key.isEmpty = false := by
  cases i <;> exact ⟨_, rfl, rfl⟩

/-- Two calls for one learner and content that both pass `get_redemption` before either commits
commit two transactions, whatever the key derivation: each call's key names its own row. -/
theorem redeem_races_to_two_redemptions :
    ¬ ∃ deriveKey : Int → Nat → String → String → String,
      ∀ (calls : Nat → Call) (w₀ : World) (s : Sys), UniqueRedemptions w₀.ledger →
        Reachable deriveKey calls w₀ s → UniqueRedemptions s.world.ledger := by
  rintro ⟨d, hd⟩
  have h := hd raceCalls ⟨100, .empty, []⟩ _ (by decide) (Reachable.init.run alternating)
  rw [Sys.run_deriveKey d (fun _ _ _ _ => "") raceCalls_keys] at h
  exact absurd h (by decide)

end EnterpriseSubsidy
