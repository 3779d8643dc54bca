import Mathlib

/-!
# The ledger of a subsidy

The redemption engine of `subsidy/models.py` drives a ledger of the `openedx_ledger` library, which
is not part of this repository. The spec gives its contract (§3 and §6), and this file models that
contract: a table of transactions whose primary keys and idempotency keys are unique, an atomic
get-or-create on the idempotency key (`create_transaction`), a `save` that writes a transaction's
state and reference back to its row, and a balance that counts committed transactions only.

`Ledger` carries the two uniqueness constraints of the table as fields, so that every ledger the
operations build keeps them. The lemmas beside each operation say what it does to the rows, and the
proofs about redemptions cite them rather than unfold the operations.
-/

namespace EnterpriseSubsidy

/-- The states of `TransactionStateChoices`. -/
inductive TransactionState
  | created
  | pending
  | committed
  | failed
  deriving DecidableEq, Repr

/-- A row of the ledger's transaction table, with the fields that the redemption engine reads or
writes. `uuid` is the primary key. -/
structure Transaction where
  uuid : Nat
  idempotencyKey : String
  lmsUserId : Nat
  contentKey : String
  subsidyAccessPolicyUuid : String
  quantity : Int
  state : TransactionState
  referenceId : Option String
  referenceType : Option String
  deriving DecidableEq, Repr

/-- The transaction table of one ledger, with its two unique constraints: the primary key, and the
idempotency key within the ledger. -/
@[ext]
structure Ledger where
  transactions : List Transaction
  uuid_nodup : (transactions.map Transaction.uuid).Nodup
  key_nodup : (transactions.map Transaction.idempotencyKey).Nodup

instance : DecidableEq Ledger := fun l l' =>
  decidable_of_iff (l.transactions = l'.transactions) ⟨Ledger.ext, congrArg _⟩

/-- The ledger with no transactions. -/
def Ledger.empty : Ledger := ⟨[], List.nodup_nil, List.nodup_nil⟩

/-! ## Lookup by idempotency key -/

/-- The row holding an idempotency key. -/
def Ledger.findByKey (l : Ledger) (key : String) : Option Transaction :=
  l.transactions.find? (·.idempotencyKey == key)

/-- `findByKey` finds nothing exactly when no row holds the key. -/
theorem Ledger.findByKey_eq_none {l : Ledger} {key : String} :
    l.findByKey key = none ↔ ∀ t ∈ l.transactions, t.idempotencyKey ≠ key := by
  simp [findByKey]

/-- Two rows with one idempotency key are one row. -/
theorem Ledger.eq_of_key_eq {l : Ledger} {t t' : Transaction} (ht : t ∈ l.transactions)
    (ht' : t' ∈ l.transactions) (h : t.idempotencyKey = t'.idempotencyKey) : t = t' :=
  List.inj_on_of_nodup_map l.key_nodup ht ht' h

/-- Two rows with one primary key are one row. -/
theorem Ledger.eq_of_uuid_eq {l : Ledger} {t t' : Transaction} (ht : t ∈ l.transactions)
    (ht' : t' ∈ l.transactions) (h : t.uuid = t'.uuid) : t = t' :=
  List.inj_on_of_nodup_map l.uuid_nodup ht ht' h

/-- `findByKey` finds a row exactly when the row holds the key: the key is unique. -/
theorem Ledger.findByKey_eq_some {l : Ledger} {key : String} {t : Transaction} :
    l.findByKey key = some t ↔ t ∈ l.transactions ∧ t.idempotencyKey = key := by
  constructor
  · intro h
    exact ⟨List.mem_of_find?_eq_some h, by simpa using List.find?_some h⟩
  · rintro ⟨ht, rfl⟩
    cases h : l.findByKey t.idempotencyKey with
    | none => exact absurd rfl (findByKey_eq_none.mp h t ht)
    | some t' =>
      have ht' : t' ∈ l.transactions ∧ t'.idempotencyKey = t.idempotencyKey :=
        ⟨List.mem_of_find?_eq_some h, by simpa using List.find?_some h⟩
      rw [eq_of_key_eq ht'.1 ht ht'.2]

/-! ## Get-or-create -/

/-- A primary key above every primary key of the table, for a new row. The library draws a random
`uuid4`; the model needs only that the key is new. -/
def freshUuid : List Transaction → Nat
  | [] => 0
  | t :: ts => max (t.uuid + 1) (freshUuid ts)

/-- `freshUuid` is above the primary key of every row. -/
theorem uuid_lt_freshUuid {ts : List Transaction} {t : Transaction} (h : t ∈ ts) :
    t.uuid < freshUuid ts := by
  induction ts with
  | nil => cases h
  | cons t' ts ih =>
    rcases List.mem_cons.mp h with rfl | h
    · simp [freshUuid]
    · have := ih h
      simp only [freshUuid]
      omega

/-- A new row appended to the table, given that its two keys are new. -/
def Ledger.insert (l : Ledger) (t : Transaction) (hu : ∀ r ∈ l.transactions, r.uuid ≠ t.uuid)
    (hk : ∀ r ∈ l.transactions, r.idempotencyKey ≠ t.idempotencyKey) : Ledger where
  transactions := l.transactions ++ [t]
  uuid_nodup := by
    rw [List.map_append, List.map_singleton, List.nodup_append]
    exact ⟨l.uuid_nodup, List.nodup_singleton _, by simpa [List.disjoint_singleton] using hu⟩
  key_nodup := by
    rw [List.map_append, List.map_singleton, List.nodup_append]
    exact ⟨l.key_nodup, List.nodup_singleton _, by simpa [List.disjoint_singleton] using hk⟩

/-- The row that `create_transaction` makes when no row holds the key: the given fields, the state
`created`, and no reference. -/
def Ledger.newTransaction (l : Ledger) (idempotencyKey : String) (quantity : Int)
    (lmsUserId : Nat) (contentKey subsidyAccessPolicyUuid : String) : Transaction :=
  ⟨freshUuid l.transactions, idempotencyKey, lmsUserId, contentKey, subsidyAccessPolicyUuid,
    quantity, .created, none, none⟩

/-- Modelled from the spec: `create_transaction` of the ledger API is `get_or_create` on the
idempotency key, in one atomic step. A row that already holds the key is returned as it is, whatever its other fields; otherwise
the new row of `newTransaction` is appended and returned. -/
def Ledger.createTransaction (l : Ledger) (idempotencyKey : String) (quantity : Int)
    (lmsUserId : Nat) (contentKey subsidyAccessPolicyUuid : String) : Transaction × Ledger :=
  match h : l.findByKey idempotencyKey with
  | some t => (t, l)
  | none =>
    let t := l.newTransaction idempotencyKey quantity lmsUserId contentKey subsidyAccessPolicyUuid
    (t, l.insert t (fun _ hr => (uuid_lt_freshUuid hr).ne) (findByKey_eq_none.mp h))

section CreateTransaction

variable {l : Ledger} {key : String} {q : Int} {lid : Nat} {ck pol : String}

/-- A key that a row holds: `create_transaction` returns that row and leaves the table. -/
theorem Ledger.createTransaction_of_some {t : Transaction} (h : l.findByKey key = some t) :
    l.createTransaction key q lid ck pol = (t, l) := by
  unfold createTransaction
  split <;> simp_all

/-- A key that no row holds: `create_transaction` appends and returns the new row. -/
theorem Ledger.createTransaction_of_none (h : l.findByKey key = none) :
    (l.createTransaction key q lid ck pol).1 = l.newTransaction key q lid ck pol ∧
      (l.createTransaction key q lid ck pol).2.transactions =
        l.transactions ++ [l.newTransaction key q lid ck pol] := by
  unfold createTransaction
  split
  · simp_all
  · exact ⟨rfl, rfl⟩

/-- The returned row holds the key. -/
@[simp]
theorem Ledger.createTransaction_key :
    (l.createTransaction key q lid ck pol).1.idempotencyKey = key := by
  cases h : l.findByKey key with
  | none => simp [createTransaction_of_none h, newTransaction]
  | some t => simp [createTransaction_of_some h, (findByKey_eq_some.mp h).2]

/-- The returned row is a row of the new table. -/
theorem Ledger.createTransaction_mem :
    (l.createTransaction key q lid ck pol).1 ∈
      (l.createTransaction key q lid ck pol).2.transactions := by
  cases h : l.findByKey key with
  | none => simp [createTransaction_of_none h]
  | some t => simpa [createTransaction_of_some h] using (findByKey_eq_some.mp h).1

/-- Every row of the new table is an old row, or the new row in the state `created`. -/
theorem Ledger.mem_createTransaction {r : Transaction}
    (hr : r ∈ (l.createTransaction key q lid ck pol).2.transactions) :
    r ∈ l.transactions ∨ r = l.newTransaction key q lid ck pol := by
  cases h : l.findByKey key with
  | none => simpa [(createTransaction_of_none h).2] using hr
  | some t => exact .inl (by simpa [createTransaction_of_some h] using hr)

/-- Every row of the new table is an old row, or the returned one. -/
theorem Ledger.mem_createTransaction_or {r : Transaction}
    (hr : r ∈ (l.createTransaction key q lid ck pol).2.transactions) :
    r ∈ l.transactions ∨ r = (l.createTransaction key q lid ck pol).1 := by
  cases h : l.findByKey key with
  | none => simpa [(createTransaction_of_none h).1, (createTransaction_of_none h).2] using hr
  | some t => exact .inl (by simpa [createTransaction_of_some h] using hr)

/-- No row is lost. -/
theorem Ledger.mem_createTransaction_of_mem {r : Transaction} (hr : r ∈ l.transactions) :
    r ∈ (l.createTransaction key q lid ck pol).2.transactions := by
  cases h : l.findByKey key with
  | none => simp [(createTransaction_of_none h).2, hr]
  | some t => simpa [createTransaction_of_some h] using hr

/-- What `create_transaction` returns and leaves, in one statement. -/
theorem Ledger.createTransaction_spec {t₀ : Transaction} {l' : Ledger}
    (h : l.createTransaction key q lid ck pol = (t₀, l')) :
    t₀.idempotencyKey = key ∧ t₀ ∈ l'.transactions ∧ (∀ x ∈ l.transactions, x ∈ l'.transactions) ∧
      (∀ x ∈ l'.transactions, x ∈ l.transactions ∨ x = t₀) ∧
      (∀ t₁, l.findByKey key = some t₁ → t₀ = t₁) ∧
      (l.findByKey key = none → t₀ = l.newTransaction key q lid ck pol) := by
  have h1 := congrArg Prod.fst h
  have h2 := congrArg Prod.snd h
  simp only at h1 h2
  subst h1 h2
  exact ⟨createTransaction_key, createTransaction_mem, fun _ hx => mem_createTransaction_of_mem hx,
    fun _ hx => mem_createTransaction_or hx, fun _ ht₁ => by rw [createTransaction_of_some ht₁],
    fun hn => (createTransaction_of_none hn).1⟩

end CreateTransaction

/-! ## Save -/

/-- The fields that `commit_transaction` assigns, copied from the instance `t` into the row `r`. -/
def Transaction.write (r t : Transaction) : Transaction :=
  { r with state := t.state, referenceId := t.referenceId, referenceType := t.referenceType }

/-- `write` keeps the row's primary key. -/
@[simp] theorem Transaction.write_uuid (r t : Transaction) : (r.write t).uuid = r.uuid := rfl
@[simp] theorem Transaction.write_idempotencyKey (r t : Transaction) :
    (r.write t).idempotencyKey = r.idempotencyKey := rfl
/-- `write` keeps the row's learner. -/
@[simp] theorem Transaction.write_lmsUserId (r t : Transaction) :
    (r.write t).lmsUserId = r.lmsUserId := rfl
/-- `write` keeps the row's content. -/
@[simp] theorem Transaction.write_contentKey (r t : Transaction) :
    (r.write t).contentKey = r.contentKey := rfl
/-- `write` keeps the row's quantity. -/
@[simp] theorem Transaction.write_quantity (r t : Transaction) :
    (r.write t).quantity = r.quantity := rfl
/-- `write` takes the instance's state. -/
@[simp] theorem Transaction.write_state (r t : Transaction) : (r.write t).state = t.state := rfl

/-- The update that `save` makes to each row. -/
def Transaction.saveInto (t r : Transaction) : Transaction :=
  if r.uuid = t.uuid then r.write t else r

/-- `save` keeps every row's primary key. -/
@[simp] theorem Transaction.saveInto_uuid (t r : Transaction) : (t.saveInto r).uuid = r.uuid := by
  unfold saveInto; split <;> rfl

/-- `save` keeps every row's idempotency key. -/
@[simp] theorem Transaction.saveInto_idempotencyKey (t r : Transaction) :
    (t.saveInto r).idempotencyKey = r.idempotencyKey := by
  unfold saveInto; split <;> rfl

/-- `save` keeps every row's quantity. -/
@[simp] theorem Transaction.saveInto_quantity (t r : Transaction) :
    (t.saveInto r).quantity = r.quantity := by
  unfold saveInto; split <;> rfl

/-- The row with the instance's primary key takes the instance's state and reference. -/
theorem Transaction.saveInto_of_uuid_eq {t r : Transaction} (h : r.uuid = t.uuid) :
    t.saveInto r = r.write t := if_pos h

/-- A row with another primary key is left as it is. -/
theorem Transaction.saveInto_of_uuid_ne {t r : Transaction} (h : r.uuid ≠ t.uuid) :
    t.saveInto r = r := if_neg h

/-- Modelled from the spec: `ledger_transaction.save()` gives the row whose primary key is the
instance's the instance's state and reference. Django writes every field of the instance; the engine assigns no field but
these three (`commit_transaction`), so the others still hold what was read from the row. -/
def Ledger.save (l : Ledger) (t : Transaction) : Ledger where
  transactions := l.transactions.map t.saveInto
  uuid_nodup := by
    rw [List.map_map]
    simpa [Function.comp_def] using l.uuid_nodup
  key_nodup := by
    rw [List.map_map]
    simpa [Function.comp_def] using l.key_nodup

/-- The rows after `save` are the rows before it, each updated by `saveInto`. -/
theorem Ledger.mem_save {l : Ledger} {t r : Transaction} :
    r ∈ (l.save t).transactions ↔ ∃ r₀ ∈ l.transactions, t.saveInto r₀ = r := by
  simp [save]

/-! ## Balance -/

/-- What a transaction adds to the balance: its quantity once committed, and nothing before. -/
def Transaction.committedQuantity (t : Transaction) : Int :=
  if t.state = .committed then t.quantity else 0

/-- Modelled from the spec: the sum of the committed quantities, which the ledger's `balance()` adds
to the starting balance. -/
def Ledger.committedTotal (l : Ledger) : Int :=
  (l.transactions.map Transaction.committedQuantity).sum

/-- Updating the one row with a given primary key changes the sum by that row's change. -/
theorem sum_map_saveInto {ts : List Transaction} (hd : (ts.map Transaction.uuid).Nodup)
    {t r₀ : Transaction} (hr : r₀ ∈ ts) (hu : r₀.uuid = t.uuid) :
    (ts.map (Transaction.committedQuantity ∘ t.saveInto)).sum =
      (ts.map Transaction.committedQuantity).sum + (r₀.write t).committedQuantity -
        r₀.committedQuantity := by
  induction ts with
  | nil => cases hr
  | cons r ts ih =>
    rw [List.map_cons, List.nodup_cons] at hd
    rcases List.mem_cons.mp hr with rfl | hr
    · have hmap : ts.map (Transaction.committedQuantity ∘ t.saveInto) =
          ts.map Transaction.committedQuantity := List.map_congr_left fun r hm => by
        have : r.uuid ≠ t.uuid := fun h => hd.1 (List.mem_map.mpr ⟨r, hm, h.trans hu.symm⟩)
        simp [Transaction.saveInto, this]
      simp only [List.map_cons, List.sum_cons, Function.comp_apply, Transaction.saveInto, hu,
        if_true, hmap]
      omega
    · have hne : r.uuid ≠ t.uuid := fun h =>
        hd.1 (List.mem_map.mpr ⟨r₀, hr, hu.trans h.symm⟩)
      simp only [List.map_cons, List.sum_cons, Function.comp_apply, Transaction.saveInto, hne,
        if_false, ih hd.2 hr]
      omega

/-- Saving an instance into the row `r₀` with its primary key changes the committed total by the
row's change. -/
theorem Ledger.committedTotal_save {l : Ledger} {t r₀ : Transaction} (hr : r₀ ∈ l.transactions)
    (hu : r₀.uuid = t.uuid) :
    (l.save t).committedTotal =
      l.committedTotal + (r₀.write t).committedQuantity - r₀.committedQuantity := by
  simpa [committedTotal, save, List.map_map] using sum_map_saveInto l.uuid_nodup hr hu

/-- A new row does not change the committed total unless it is committed. -/
theorem Ledger.committedTotal_createTransaction {l : Ledger} {key : String} {q : Int} {lid : Nat}
    {ck pol : String} :
    (l.createTransaction key q lid ck pol).2.committedTotal = l.committedTotal := by
  cases h : l.findByKey key with
  | none =>
    simp [committedTotal, (Ledger.createTransaction_of_none h).2, newTransaction,
      Transaction.committedQuantity]
  | some t => rw [createTransaction_of_some h]

/-- Saving a committed instance into a row that debits adds its debit to the row's committed
quantity, or keeps it: `save` writes no quantity. -/
theorem Transaction.committedQuantity_saveInto_le {t r : Transaction} (ht : t.state = .committed)
    (hr : r.quantity ≤ 0) : (t.saveInto r).committedQuantity ≤ r.committedQuantity := by
  unfold saveInto committedQuantity
  split
  · simp only [write_state, ht, write_quantity, if_true]
    split <;> omega
  · exact le_rfl

/-- Saving a committed instance into a ledger of debits never raises the committed total. -/
theorem Ledger.committedTotal_save_le {l : Ledger} {t : Transaction} (ht : t.state = .committed)
    (hq : ∀ r ∈ l.transactions, r.quantity ≤ 0) : (l.save t).committedTotal ≤ l.committedTotal := by
  simpa [committedTotal, save, List.map_map] using
    List.sum_le_sum fun r hr => Transaction.committedQuantity_saveInto_le ht (hq r hr)

end EnterpriseSubsidy
