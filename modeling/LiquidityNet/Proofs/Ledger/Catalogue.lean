import LiquidityNet.Ledger.Tables
import LiquidityNet.Proofs.Action.Equations
import LiquidityNet.Proofs.Store.Views

/-!
# The tables of the store

The beginning of a key tells the table that its record belongs to. No two tables share a key, so
what is written to one of them is not seen in another. A record that names its own key is filed
where that key says; every operation files what it writes in this way.
-/

namespace LiquidityNet

inductive Table where
  | pools | fees | slips | nodes | vaults | jails | providers | mimirs | network | slashes
  | attestations | outbounds | keygens | swaps | balances | supplies
  deriving DecidableEq

namespace Table

def all : List Table :=
  [pools, fees, slips, nodes, vaults, jails, providers, mimirs, network, slashes, attestations,
    outbounds, keygens, swaps, balances, supplies]

def start : Table → String
  | pools => Key.poolStart
  | fees => "pool-fees/"
  | slips => "pool-slip/"
  | nodes => Key.nodeStart
  | vaults => Key.vaultStart
  | jails => "jail/"
  | providers => "bp/"
  | mimirs => "mimir/"
  | network => Key.network
  | slashes => "slash/"
  | attestations => "observed-txin/"
  | outbounds => "txout/"
  | keygens => "keygen/"
  | swaps => Key.swapStart
  | balances => "balance/"
  | supplies => "supply/"

def ofKey? (k : String) : Option Table := all.find? fun T => Text.beginsWith T.start k

/-- No beginning of a key is the beginning of another one. -/
theorem ofKey?_append (T : Table) (rest : String) : ofKey? (T.start ++ rest) = some T := by
  cases T <;>
    simp [ofKey?, all, start, Text.beginsWith, Key.poolStart, Key.nodeStart, Key.vaultStart,
      Key.network, Key.swapStart]

theorem ofKey?_of_beginsWith {T : Table} {k : String} (h : Text.beginsWith T.start k = true) :
    ofKey? k = some T := by
  obtain ⟨rest, hrest⟩ := Text.beginsWith_iff.1 h
  have hk : k = T.start ++ String.ofList rest := by
    refine String.toList_injective ?_
    rw [← hrest, String.toList_append, String.toList_ofList]
  rw [hk]
  exact ofKey?_append T _

@[simp] theorem ofKey?_pool (a : Asset) : ofKey? (Key.pool a) = some .pools :=
  ofKey?_append .pools a.text

@[simp] theorem ofKey?_poolFees (a : Asset) : ofKey? (Key.poolFees a) = some .fees :=
  ofKey?_append .fees a.text

@[simp] theorem ofKey?_poolSlip (a : Asset) : ofKey? (Key.poolSlip a) = some .slips :=
  ofKey?_append .slips a.text

@[simp] theorem ofKey?_node (a : Address) : ofKey? (Key.node a) = some .nodes :=
  ofKey?_append .nodes a.text

@[simp] theorem ofKey?_vault (k : PublicKey) : ofKey? (Key.vault k) = some .vaults :=
  ofKey?_append .vaults k.text

@[simp] theorem ofKey?_providers (a : Address) : ofKey? (Key.providers a) = some .providers :=
  ofKey?_append .providers a.text

@[simp] theorem ofKey?_network : ofKey? Key.network = some .network := by
  rw [← String.append_empty (s := Key.network)]
  exact ofKey?_append .network ""

@[simp] theorem ofKey?_slash (a : Address) : ofKey? (Key.slash a) = some .slashes :=
  ofKey?_append .slashes a.text

@[simp] theorem ofKey?_attestation (i : TxId) : ofKey? (Key.attestation i) = some .attestations :=
  ofKey?_append .attestations i.text

@[simp] theorem ofKey?_outbounds (h : Height) : ofKey? (Key.outbounds h) = some .outbounds :=
  ofKey?_append .outbounds (Text.padded 20 h.val)

@[simp] theorem ofKey?_keygen (h : Height) : ofKey? (Key.keygen h) = some .keygens :=
  ofKey?_append .keygens (Text.padded 20 h.val)

@[simp] theorem ofKey?_balance (owner : Address) (a : Asset) :
    ofKey? (Key.balance owner a) = some .balances := by
  rw [Key.balance, String.append_assoc, String.append_assoc]
  exact ofKey?_append .balances (owner.text ++ ("/" ++ a.text))

@[simp] theorem ofKey?_jail (a : Address) : ofKey? (Key.jail a) = some .jails :=
  ofKey?_append .jails a.text

@[simp] theorem ofKey?_mimir (name : String) : ofKey? (Key.mimir name) = some .mimirs :=
  ofKey?_append .mimirs name

@[simp] theorem ofKey?_swap (i : TxId) (index : Word) : ofKey? (Key.swap i index) = some .swaps := by
  rw [Key.swap, String.append_assoc, String.append_assoc]
  exact ofKey?_append .swaps (i.text ++ ("-" ++ toString index.val))

@[simp] theorem ofKey?_supply (a : Asset) : ofKey? (Key.supply a) = some .supplies :=
  ofKey?_append .supplies a.text

end Table

/-- Whether a record may stand under a key: one that names its own key stands there, any other in
one of its tables. -/
def Record.FiledAt (k : String) : Record → Prop
  | .amount _ => ∃ T ∈ [Table.fees, .slips, .balances, .supplies], Table.ofKey? k = some T
  | .number _ => ∃ T ∈ [Table.mimirs, .slashes], Table.ofKey? k = some T
  | .pool p => k = Key.pool p.asset
  | .node n => k = Key.node n.address
  | .providers ps => k = Key.providers ps.node
  | .jail _ => Table.ofKey? k = some .jails
  | .vault v => k = Key.vault v.key
  | .network _ => k = Key.network
  | .attestation v => k = Key.attestation v.txId
  | .outbounds b => k = Key.outbounds b.height
  | .keygen b => k = Key.keygen b.height
  | .swap _ => Table.ofKey? k = some .swaps

namespace Record

variable {k : String} {r : Record}

theorem FiledAt.node (h : r.FiledAt k) (hk : Table.ofKey? k = some .nodes) :
    ∃ n, r = .node n ∧ k = Key.node n.address := by
  cases r <;> simp_all [FiledAt]

theorem FiledAt.providers (h : r.FiledAt k) (hk : Table.ofKey? k = some .providers) :
    ∃ ps, r = .providers ps ∧ k = Key.providers ps.node := by
  cases r <;> simp_all [FiledAt]

theorem FiledAt.jail (h : r.FiledAt k) (hk : Table.ofKey? k = some .jails) : ∃ j, r = .jail j := by
  cases r <;> simp_all [FiledAt]

theorem FiledAt.network (h : r.FiledAt k) (hk : Table.ofKey? k = some .network) :
    ∃ x, r = .network x := by
  cases r <;> simp_all [FiledAt]

theorem FiledAt.amount {T : Table} (h : r.FiledAt k) (hk : Table.ofKey? k = some T)
    (hT : T ∈ [Table.balances, .supplies]) : ∃ a, r = .amount a := by
  cases r <;> simp_all [FiledAt] <;> grind

end Record

namespace Ledger

/-- Every record stands where it belongs. -/
def Filed (s : Ledger) : Prop := ∀ k r, s.get? k = some r → r.FiledAt k

theorem get?_assign (s : Ledger) (k : String) (v : Option Record) (q : String) :
    get? { s with store := s.store.assign k v } q = if q = k then v else s.get? q :=
  LayeredStore.get?_assign s.store k v q

def putRecord (s : Ledger) (k : String) (r : Record) : Ledger :=
  { s with store := s.store.set k r }

theorem get?_putRecord (s : Ledger) (k : String) (r : Record) (q : String) :
    (s.putRecord k r).get? q = if q = k then some r else s.get? q :=
  get?_assign s k (some r) q

theorem Filed.putRecord {s : Ledger} (hs : s.Filed) {k : String} {r : Record}
    (hr : r.FiledAt k) : (s.putRecord k r).Filed := by
  intro q x hx
  rw [get?_putRecord] at hx
  split at hx
  · cases hx
    rename_i hq
    rwa [hq]
  · exact hs q x hx

theorem filed_empty (settings : Settings) (height : Height) : (empty settings height).Filed :=
  fun _ _ h => nomatch h

theorem putRecord_putRecord (s : Ledger) (k : String) (r r' : Record) :
    (s.putRecord k r).putRecord k r' = s.putRecord k r' :=
  congrArg (fun store => { s with store }) (LayeredStore.assign_assign s.store k (some r) (some r'))

theorem putRecord_comm (s : Ledger) {k q : String} (hkq : k ≠ q) (r r' : Record) :
    (s.putRecord k r).putRecord q r' = (s.putRecord q r').putRecord k r :=
  congrArg (fun store => { s with store })
    (LayeredStore.assign_comm s.store hkq (some r) (some r'))

end Ledger

/-! ## Lists of records -/

/-- A list of records depends on nothing but its table. -/
theorem Ledger.fetchAll_congr {α : Type} [Recordable α] {s t : Ledger} (T : Table)
    (h : ∀ k, Table.ofKey? k = some T → t.get? k = s.get? k) :
    (fetchAll T.start t : Except Failure (List α)) = fetchAll T.start s := by
  have hunder : t.store.under T.start = s.store.under T.start :=
    LayeredStore.under_congr fun k hk => h k (Table.ofKey?_of_beginsWith hk)
  unfold fetchAll
  rw [hunder]

theorem Vaults.asgards_congr {status : VaultStatus} {s t : Ledger}
    (h : ∀ k, Table.ofKey? k = some .vaults → t.get? k = s.get? k) :
    asgards status t = asgards status s := by
  have hall : all t = all s := Ledger.fetchAll_congr .vaults h
  unfold asgards
  rw [Query.bind_run, Query.bind_run, hall]
  rfl

end LiquidityNet
