import LiquidityNet.Ledger.Bank
import LiquidityNet.Proofs.Action.Equations
import LiquidityNet.Proofs.Asset.Reading
import LiquidityNet.Proofs.Ledger.Catalogue
import Mathlib.Algebra.Order.BigOperators.Group.Finset

/-!
# The bank conserves coins

Balances stand under texts that join an owner and an asset. An owner may hold any characters, but a
symbol without separators marks where the asset begins, so no two balances share a key. Minting and
burning change a supply by as much as they change one balance, and a transfer, also one that stops
in the midst of its coins, moves between two balances of one asset. Over any calls the balances of
an asset add up to its supply.
-/

namespace LiquidityNet

/-! ## Keys of balances -/

/-- An asset whose symbol has no separator of either kind. -/
def Asset.HasPlainSymbol (a : Asset) : Prop := '.' ∉ a.symbol.toList ∧ '/' ∉ a.symbol.toList

instance (a : Asset) : Decidable a.HasPlainSymbol := inferInstanceAs (Decidable (_ ∧ _))

/-- A text is split at its last separator in one way only. -/
theorem Text.split_at_last {isSeparator : Char → Prop} {ws xs ys zs : List Char} {c d : Char}
    (hc : isSeparator c) (hd : isSeparator d) (hxs : ∀ x ∈ xs, ¬ isSeparator x)
    (hzs : ∀ z ∈ zs, ¬ isSeparator z) (h : ws ++ c :: xs = ys ++ d :: zs) :
    ws = ys ∧ c = d ∧ xs = zs := by
  rcases List.append_eq_append_iff.1 h with ⟨as, hys, hrest⟩ | ⟨as, hws, hrest⟩
  · cases as with
    | nil =>
      obtain ⟨hcd, hxz⟩ := List.cons.inj hrest
      exact ⟨(List.append_nil ws).symm.trans hys.symm, hcd, hxz⟩
    | cons a as =>
      obtain ⟨-, hxs'⟩ := List.cons.inj hrest
      refine absurd hd (hxs d ?_)
      rw [hxs']
      exact List.mem_append_right as List.mem_cons_self
  · cases as with
    | nil =>
      obtain ⟨hdc, hzx⟩ := List.cons.inj hrest
      exact ⟨hws.trans (List.append_nil ys), hdc.symm, hzx.symm⟩
    | cons a as =>
      obtain ⟨-, hzs'⟩ := List.cons.inj hrest
      refine absurd hc (hzs c ?_)
      rw [hzs']
      exact List.mem_append_right as List.mem_cons_self

namespace Key

theorem balance_toList (owner : Address) (a : Asset) :
    (balance owner a).toList = "balance/".toList ++
      (owner.text.toList ++ '/' :: (a.chain.name.toList ++ a.separator :: a.symbol.toList)) := by
  rw [balance, String.toList_append, String.toList_append, String.toList_append, Asset.toList_text]
  simp

/-- The asset is read from the end of the key: its symbol begins after the last separator, and its
chain after the last slash before that. -/
theorem balance_eq_iff {owner owner' : Address} {a b : Asset} (ha : a.HasPlainSymbol)
    (hb : b.HasPlainSymbol) :
    balance owner a = balance owner' b ↔ owner = owner' ∧ a = b := by
  refine ⟨fun h => ?_, fun ⟨howner, hasset⟩ => by rw [howner, hasset]⟩
  have hlist := congrArg String.toList h
  rw [balance_toList, balance_toList] at hlist
  replace hlist := List.append_cancel_left hlist
  have hsep : ∀ c : Asset, c.separator = '.' ∨ c.separator = '/' := by
    intro c
    unfold Asset.separator
    split
    · exact .inr rfl
    · exact .inl rfl
  have hsymbol : ∀ c : Asset, c.HasPlainSymbol → ∀ x ∈ c.symbol.toList, ¬ (x = '.' ∨ x = '/') := by
    rintro c ⟨hdot, hslash⟩ x hx (rfl | rfl)
    · exact hdot hx
    · exact hslash hx
  let isSlash : Char → Prop := fun x => x = '/'
  have hname : ∀ c : Asset, ∀ x ∈ c.chain.name.toList, ¬ isSlash x := by
    rintro c x hx rfl
    exact c.chain.separators_not_mem_name.2 hx
  have hends : (owner.text.toList ++ '/' :: a.chain.name.toList) ++ a.separator :: a.symbol.toList =
      (owner'.text.toList ++ '/' :: b.chain.name.toList) ++ b.separator :: b.symbol.toList := by
    simpa using hlist
  obtain ⟨hfront, hseps, hsymbols⟩ :=
    Text.split_at_last (hsep a) (hsep b) (hsymbol a ha) (hsymbol b hb) hends
  have hslash : isSlash '/' := rfl
  obtain ⟨howner, -, hchain⟩ := Text.split_at_last hslash hslash (hname a) (hname b) hfront
  refine ⟨?_, Asset.text_inj (String.toList_injective ?_)⟩
  · cases owner
    cases owner'
    exact congrArg Address.mk (String.toList_injective howner)
  · rw [Asset.toList_text, Asset.toList_text, hchain, hseps, hsymbols]

/-- A slash in a symbol can move the border: the key of an account that ends in the chain and
symbol of another asset. -/
example : balance ⟨"alice/BTC.X"⟩ ⟨.eth, "USDC", false⟩ =
    balance ⟨"alice"⟩ ⟨.btc, "X/ETH.USDC", false⟩ := by decide

theorem supply_inj {a b : Asset} (h : supply a = supply b) : a = b := by
  have hlist := congrArg String.toList h
  rw [supply, supply, String.toList_append, String.toList_append] at hlist
  exact Asset.text_inj (String.toList_injective (List.append_cancel_left hlist))

theorem balance_ne_supply (owner : Address) (a b : Asset) : balance owner a ≠ supply b := by
  intro h
  have htable := Table.ofKey?_balance owner a
  rw [h, Table.ofKey?_supply] at htable
  cases htable

end Key

/-! ## Sums over all accounts -/

/-- A function that is zero outside a finite set and adds up to `n` over it. -/
def AddsUpTo {ι : Type} (f : ι → Nat) (n : Nat) : Prop :=
  ∃ is : Finset ι, (∀ i, i ∉ is → f i = 0) ∧ ∑ i ∈ is, f i = n

namespace AddsUpTo

variable {ι : Type} {f g : ι → Nat} {m n : Nat}

theorem zero : AddsUpTo (fun _ : ι => 0) 0 := ⟨∅, fun _ _ => rfl, rfl⟩

theorem le (h : AddsUpTo f n) (i : ι) : f i ≤ n := by
  obtain ⟨is, hzero, rfl⟩ := h
  by_cases hi : i ∈ is
  · exact Finset.single_le_sum (fun j _ => Nat.zero_le (f j)) hi
  · rw [hzero i hi]
    exact Nat.zero_le _

/-- A function that is changed at one place changes its sum by as much. -/
theorem change [DecidableEq ι] (h : AddsUpTo f n) {i : ι} (hother : ∀ j, j ≠ i → g j = f j)
    (hm : m + f i = n + g i) : AddsUpTo g m := by
  obtain ⟨is, hzero, rfl⟩ := h
  have hrest : ∑ j ∈ is.erase i, g j = ∑ j ∈ is.erase i, f j :=
    Finset.sum_congr rfl fun j hj => hother j (Finset.ne_of_mem_erase hj)
  have hsum : f i + ∑ j ∈ is.erase i, f j = ∑ j ∈ is, f j := by
    by_cases hi : i ∈ is
    · exact Finset.add_sum_erase is f hi
    · rw [hzero i hi, Finset.erase_eq_of_notMem hi, Nat.zero_add]
  refine ⟨insert i (is.erase i), fun j hj => ?_, ?_⟩
  · have hji : j ≠ i := by
      rintro rfl
      exact hj (Finset.mem_insert_self j _)
    rw [hother j hji]
    exact hzero j fun hmem => hj (Finset.mem_insert_of_mem (Finset.mem_erase.2 ⟨hji, hmem⟩))
  · rw [Finset.sum_insert (Finset.notMem_erase i is), hrest]
    omega

end AddsUpTo

/-! ## The amounts that a ledger keeps -/

namespace Ledger

variable {s : Ledger} {k : String}

/-- The amount under a key, zero where there is none. -/
def amountAt (s : Ledger) (k : String) : Amount :=
  match s.get? k with
  | some (.amount a) => a
  | _ => 0

theorem amountAt_congr {t : Ledger} (h : t.get? k = s.get? k) : t.amountAt k = s.amountAt k := by
  rw [amountAt, amountAt, h]

/-- The ledger with an amount under a key, and without the key where the amount is zero. -/
def withAmount (s : Ledger) (k : String) (a : Amount) : Ledger :=
  { s with store := s.store.assign k (if a = 0 then none else some (.amount a)) }

theorem get?_withAmount (s : Ledger) (k : String) (a : Amount) (q : String) :
    (s.withAmount k a).get? q =
      if q = k then (if a = 0 then none else some (.amount a)) else s.get? q :=
  get?_assign s k _ q

theorem amountAt_withAmount (s : Ledger) (k : String) (a : Amount) (q : String) :
    (s.withAmount k a).amountAt q = if q = k then a else s.amountAt q := by
  unfold amountAt
  rw [get?_withAmount]
  by_cases hq : q = k
  · rw [if_pos hq, if_pos hq]
    by_cases ha : a = 0
    · rw [if_pos ha, ha]
    · rw [if_neg ha]
  · rw [if_neg hq, if_neg hq]

/-- Every balance and supply can be read. -/
def ReadsAmounts (s : Ledger) : Prop :=
  ∀ k T, Table.ofKey? k = some T → T ∈ [Table.balances, .supplies] →
    fetchD k (0 : Amount) s = .ok (s.amountAt k)

theorem fetchD_amount (h : ∀ r, s.get? k = some r → ∃ a, r = .amount a) :
    fetchD k (0 : Amount) s = .ok (s.amountAt k) := by
  unfold amountAt
  refine fetchD_eq_ok.2 ?_
  rcases hget : s.get? k with _ | r
  · exact .inl ⟨rfl, rfl⟩
  · obtain ⟨a, rfl⟩ := h r hget
    exact .inr ⟨_, rfl, rfl⟩

namespace ReadsAmounts

theorem balance (h : s.ReadsAmounts) (owner : Address) (a : Asset) :
    Bank.balance owner a s = .ok (s.amountAt (Key.balance owner a)) :=
  h _ _ (Table.ofKey?_balance owner a) (by decide)

theorem supply (h : s.ReadsAmounts) (a : Asset) :
    Bank.supply a s = .ok (s.amountAt (Key.supply a)) :=
  h _ _ (Table.ofKey?_supply a) (by decide)

theorem withAmount (h : s.ReadsAmounts) (k : String) (a : Amount) :
    (s.withAmount k a).ReadsAmounts := by
  intro q T hq hT
  have hrun := h q T hq hT
  rw [fetchD_eq_ok] at hrun ⊢
  rw [get?_withAmount, amountAt_withAmount]
  by_cases hqk : q = k
  · rw [if_pos hqk, if_pos hqk]
    by_cases ha : a = 0
    · exact .inl ⟨if_pos ha, ha⟩
    · exact .inr ⟨_, if_neg ha, rfl⟩
  · rw [if_neg hqk, if_neg hqk]
    exact hrun

end ReadsAmounts

theorem Filed.readsAmounts (h : s.Filed) : s.ReadsAmounts :=
  fun k _ hk hT => fetchD_amount fun r hr => (h k r hr).amount hk hT

/-- Every record is an amount, and none is zero. -/
def KeepsAmounts (s : Ledger) : Prop := ∀ k r, s.get? k = some r → ∃ a, r = .amount a ∧ a ≠ 0

theorem KeepsAmounts.withAmount (h : s.KeepsAmounts) (k : String) (a : Amount) :
    (s.withAmount k a).KeepsAmounts := by
  intro q r hr
  rw [get?_withAmount] at hr
  split at hr
  · split at hr
    · cases hr
    · rename_i ha
      cases hr
      exact ⟨a, rfl, ha⟩
  · exact h q r hr

theorem KeepsAmounts.get?_ne_zero (h : s.KeepsAmounts) (k : String) :
    s.get? k ≠ some (.amount 0) := by
  intro hget
  obtain ⟨a, hzero, hne⟩ := h k _ hget
  cases hzero
  exact hne rfl

theorem KeepsAmounts.readsAmounts (h : s.KeepsAmounts) : s.ReadsAmounts := by
  refine fun k _ _ _ => fetchD_amount fun r hr => ?_
  obtain ⟨a, rfl, -⟩ := h k r hr
  exact ⟨a, rfl⟩

/-! Balances and supplies of one asset -/

def balancesOf (s : Ledger) (a : Asset) (owner : Address) : Nat :=
  (s.amountAt (Key.balance owner a)).val

def supplyOf (s : Ledger) (a : Asset) : Nat := (s.amountAt (Key.supply a)).val

section Changes

variable {a b : Asset} {m n : Nat} (s : Ledger) (owner : Address) (x : Amount)

theorem balancesOf_withBalance_of_ne (ha : a.HasPlainSymbol) (hb : b.HasPlainSymbol) (hne : b ≠ a) :
    (s.withAmount (Key.balance owner a) x).balancesOf b = s.balancesOf b := by
  funext q
  have hkey : Key.balance q b ≠ Key.balance owner a := fun h =>
    hne ((Key.balance_eq_iff hb ha).1 h).2
  rw [balancesOf, amountAt_withAmount, if_neg hkey]
  rfl

theorem balancesOf_withSupply (b : Asset) :
    (s.withAmount (Key.supply a) x).balancesOf b = s.balancesOf b := by
  funext q
  rw [balancesOf, amountAt_withAmount, if_neg (Key.balance_ne_supply q b a)]
  rfl

theorem supplyOf_withBalance (b : Asset) :
    (s.withAmount (Key.balance owner a) x).supplyOf b = s.supplyOf b := by
  rw [supplyOf, amountAt_withAmount, if_neg (Key.balance_ne_supply owner a b).symm]
  rfl

theorem supplyOf_withSupply (b : Asset) :
    (s.withAmount (Key.supply a) x).supplyOf b = if b = a then x.val else s.supplyOf b := by
  rw [supplyOf, amountAt_withAmount]
  by_cases hb : b = a
  · rw [if_pos hb, if_pos (congrArg Key.supply hb)]
  · rw [if_neg hb, if_neg fun h => hb (Key.supply_inj h)]
    rfl

variable {s owner x} in
theorem addsUpTo_withBalance (ha : a.HasPlainSymbol) (h : AddsUpTo (s.balancesOf a) n)
    (hm : m + s.balancesOf a owner = n + x.val) :
    AddsUpTo ((s.withAmount (Key.balance owner a) x).balancesOf a) m := by
  refine h.change (i := owner) (fun q hq => ?_) ?_
  · have hkey : Key.balance q a ≠ Key.balance owner a := fun h =>
      hq ((Key.balance_eq_iff ha ha).1 h).1
    rw [balancesOf, amountAt_withAmount, if_neg hkey]
    rfl
  · rw [hm, balancesOf, amountAt_withAmount, if_pos rfl]

end Changes

end Ledger

open Ledger

namespace Bank

variable {s : Ledger} {limit limit' : Asset → Nat} {c : Coin} {owner : Address}

theorem record_run (k : String) (a : Amount) (s : Ledger) :
    record k a s = (.ok (), s.withAmount k a) := by
  unfold record withAmount
  split
  · rfl
  · rfl

/-! ## Runs of the operations -/

theorem transferCoin_run (h : s.ReadsAmounts) (source target : Address) (c : Coin) :
    transferCoin source target c s =
      let held := s.amountAt (Key.balance source c.asset)
      let t := s.withAmount (Key.balance source c.asset) (held.minus c.amount)
      if held < c.amount then
        (.error (.refused (.insufficientFunds source c.amount held c.asset)), s)
      else (.ok (), t.withAmount (Key.balance target c.asset)
        ((t.amountAt (Key.balance target c.asset)).plus c.amount)) := by
  unfold transferCoin
  simp only [Action.refuse_bind]
  rw [Action.read_bind_run, h.balance]
  dsimp only
  split
  · rfl
  · rw [Action.bind_run, setBalance, record_run]
    dsimp only
    rw [Action.read_bind_run, (h.withAmount _ _).balance]
    exact record_run _ _ _

theorem mint_run (h : s.ReadsAmounts) (module : String) (c : Coin) :
    mint module c s =
      let key := Key.balance (.ofModule module) c.asset
      let t := s.withAmount key ((s.amountAt key).plus c.amount)
      (.ok (), t.withAmount (Key.supply c.asset)
        ((t.amountAt (Key.supply c.asset)).plus c.amount)) := by
  unfold mint
  rw [Action.read_bind_run, moduleBalance, h.balance]
  dsimp only
  rw [Action.bind_run, setBalance, record_run]
  dsimp only
  rw [Action.read_bind_run, (h.withAmount _ _).supply]
  exact record_run _ _ _

theorem burn_run (h : s.ReadsAmounts) (module : String) (c : Coin) :
    burn module c s =
      let key := Key.balance (.ofModule module) c.asset
      let t := s.withAmount key ((s.amountAt key).minus c.amount)
      if s.amountAt key < c.amount then
        (.error (.refused (.cannotBurn c module (s.amountAt key))), s)
      else (.ok (), t.withAmount (Key.supply c.asset)
        ((t.amountAt (Key.supply c.asset)).minus c.amount)) := by
  unfold burn
  simp only [Action.refuse_bind]
  rw [Action.read_bind_run, moduleBalance, h.balance]
  dsimp only
  split
  · rfl
  · rw [Action.bind_run, setBalance, record_run]
    dsimp only
    rw [Action.read_bind_run, (h.withAmount _ _).supply]
    exact record_run _ _ _

/-! ## Balanced books -/

/-- The balances of every asset with a plain symbol add up to its supply, which is within a
limit. -/
structure Balanced (limit : Asset → Nat) (s : Ledger) : Prop where
  amounts : s.KeepsAmounts
  adds_up : ∀ a : Asset, a.HasPlainSymbol → AddsUpTo (s.balancesOf a) (s.supplyOf a)
  limited : ∀ a : Asset, a.HasPlainSymbol → s.supplyOf a ≤ limit a

theorem empty_balanced (settings : Settings) (height : Height) :
    Balanced (fun _ => 0) (Ledger.empty settings height) where
  amounts := fun _ _ h => nomatch h
  adds_up := fun _ _ => .zero
  limited := fun _ _ => Nat.le_refl 0

theorem transferCoin_balanced (h : Balanced limit s) (hplain : c.asset.HasPlainSymbol)
    (source target : Address) : Balanced limit (transferCoin source target c s).2 := by
  rw [transferCoin_run h.amounts.readsAmounts]
  dsimp only
  split
  · exact h
  rename_i hcovered
  have hcovered : c.amount.val ≤ s.balancesOf c.asset source := Nat.not_lt.1 hcovered
  have hless : s.supplyOf c.asset - c.amount.val + s.balancesOf c.asset source =
      s.supplyOf c.asset + ((s.amountAt (Key.balance source c.asset)).minus c.amount).val := by
    have hle := (h.adds_up c.asset hplain).le source
    rw [Amount.val_minus]
    unfold balancesOf at hcovered hle ⊢
    omega
  have htaken := addsUpTo_withBalance hplain (h.adds_up c.asset hplain) hless
  generalize ht : s.withAmount (Key.balance source c.asset) _ = t at htaken ⊢
  have hsupply : ∀ a, t.supplyOf a = s.supplyOf a := fun a =>
    ht ▸ supplyOf_withBalance s source _ a
  have hmore : s.supplyOf c.asset + t.balancesOf c.asset target =
      s.supplyOf c.asset - c.amount.val +
        ((t.amountAt (Key.balance target c.asset)).plus c.amount).val := by
    have hle := htaken.le target
    have hcap := (s.amountAt (Key.supply c.asset)).isLt
    have hcover := (h.adds_up c.asset hplain).le source
    rw [Amount.val_plus]
    unfold balancesOf supplyOf at *
    omega
  have hgiven := addsUpTo_withBalance hplain htaken hmore
  refine ⟨?_, fun a ha => ?_, fun a ha => ?_⟩
  · exact (ht ▸ h.amounts.withAmount _ _ : t.KeepsAmounts).withAmount _ _
  · rw [supplyOf_withBalance, hsupply]
    by_cases hc : a = c.asset
    · rw [hc]
      exact hgiven
    · rw [balancesOf_withBalance_of_ne t target _ hplain ha hc, ← ht,
        balancesOf_withBalance_of_ne s source _ hplain ha hc]
      exact h.adds_up a ha
  · rw [supplyOf_withBalance, hsupply]
    exact h.limited a ha

theorem transfer_balanced (h : Balanced limit s) {coins : List Coin}
    (hplain : ∀ c ∈ coins, c.asset.HasPlainSymbol) (source target : Address) :
    Balanced limit (transfer source target coins s).2 := by
  induction coins generalizing s with
  | nil => exact h
  | cons c coins ih =>
    have hcoin := transferCoin_balanced h (hplain c List.mem_cons_self) source target
    have hrun : transfer source target (c :: coins) s =
        (transferCoin source target c >>= fun _ => transfer source target coins) s := rfl
    rw [hrun, Action.bind_run]
    rcases hfirst : transferCoin source target c s with ⟨e | _, t⟩ <;> rw [hfirst] at hcoin
    · exact hcoin
    · exact ih hcoin fun d hd => hplain d (List.mem_cons_of_mem c hd)

/-- A balance and the supply that are changed by the same amount. -/
theorem Balanced.rebook (h : Balanced limit s) {a : Asset} (ha : a.HasPlainSymbol) {x y : Amount}
    (hsame : y.val + s.balancesOf a owner = s.supplyOf a + x.val)
    (hlimit : ∀ b, b.HasPlainSymbol → limit b ≤ limit' b) (hy : y.val ≤ limit' a) :
    Balanced limit' ((s.withAmount (Key.balance owner a) x).withAmount (Key.supply a) y) := by
  refine ⟨(h.amounts.withAmount _ _).withAmount _ _, fun b hb => ?_, fun b hb => ?_⟩
  · rw [balancesOf_withSupply, supplyOf_withSupply]
    by_cases hba : b = a
    · rw [if_pos hba, hba]
      exact addsUpTo_withBalance ha (h.adds_up a ha) hsame
    · rw [if_neg hba, supplyOf_withBalance, balancesOf_withBalance_of_ne s owner x ha hb hba]
      exact h.adds_up b hb
  · rw [supplyOf_withSupply]
    split
    · rename_i hba
      exact hba ▸ hy
    · rw [supplyOf_withBalance]
      exact (h.limited b hb).trans (hlimit b hb)

theorem mint_balanced (h : Balanced limit s) (hplain : c.asset.HasPlainSymbol)
    (hfits : limit c.asset + c.amount.val < 0x10000000000000000) (module : String) :
    Balanced (fun a => limit a + if c.asset = a then c.amount.val else 0) (mint module c s).2 := by
  rw [mint_run h.amounts.readsAmounts]
  have hlimited := h.limited c.asset hplain
  have hle := (h.adds_up c.asset hplain).le (.ofModule module)
  have hsupply := supplyOf_withBalance s (.ofModule module)
    ((s.amountAt (Key.balance (.ofModule module) c.asset)).plus c.amount) (a := c.asset) c.asset
  refine h.rebook hplain ?_ (fun b _ => Nat.le_add_right _ _) ?_
  · rw [Amount.val_plus, Amount.val_plus]
    unfold balancesOf supplyOf at *
    omega
  · rw [Amount.val_plus]
    unfold supplyOf at *
    simp only [if_pos]
    omega

theorem burn_balanced (h : Balanced limit s) (hplain : c.asset.HasPlainSymbol) (module : String) :
    Balanced limit (burn module c s).2 := by
  rw [burn_run h.amounts.readsAmounts]
  dsimp only
  split
  · exact h
  rename_i hcovered
  have hcovered : c.amount.val ≤ s.balancesOf c.asset (.ofModule module) := Nat.not_lt.1 hcovered
  have hle := (h.adds_up c.asset hplain).le (.ofModule module)
  have hsupply := supplyOf_withBalance s (.ofModule module)
    ((s.amountAt (Key.balance (.ofModule module) c.asset)).minus c.amount) (a := c.asset) c.asset
  refine h.rebook hplain ?_ (fun b _ => Nat.le_refl _) ?_
  · rw [Amount.val_minus, Amount.val_minus]
    unfold balancesOf supplyOf at *
    omega
  · have hlimited := h.limited c.asset hplain
    rw [Amount.val_minus]
    unfold supplyOf at *
    omega

/-! ## Calls of the bank -/

/-- A call of the bank from outside. -/
inductive Call where
  | mint (module : String) (c : Coin)
  | burn (module : String) (c : Coin)
  | moveModule (source target : String) (coins : List Coin)
  | payOut (source : String) (target : Address) (coins : List Coin)
  | payIn (source : Address) (target : String) (coins : List Coin)

namespace Call

def perform : Call → Action Unit
  | mint module c => Bank.mint module c
  | burn module c => Bank.burn module c
  | moveModule source target coins => Bank.moveModule source target coins
  | payOut source target coins => Bank.payOut source target coins
  | payIn source target coins => Bank.payIn source target coins

def coins : Call → List Coin
  | mint _ c => [c]
  | burn _ c => [c]
  | moveModule _ _ coins => coins
  | payOut _ _ coins => coins
  | payIn _ _ coins => coins

/-- What a call mints of an asset. -/
def minted (a : Asset) : Call → Nat
  | mint _ c => if c.asset = a then c.amount.val else 0
  | _ => 0

/-- The ledger after some calls, of which any may have failed. -/
def run (calls : List Call) (s : Ledger) : Ledger :=
  calls.foldl (fun s call => (call.perform s).2) s

def totalMinted (a : Asset) (calls : List Call) : Nat :=
  calls.foldr (fun call n => call.minted a + n) 0

theorem totalMinted_cons (a : Asset) (call : Call) (calls : List Call) :
    totalMinted a (call :: calls) = call.minted a + totalMinted a calls :=
  rfl

theorem totalMinted_append (a : Asset) (calls rest : List Call) :
    totalMinted a (calls ++ rest) = totalMinted a calls + totalMinted a rest := by
  induction calls with
  | nil => exact (Nat.zero_add _).symm
  | cons call calls ih => rw [List.cons_append, totalMinted_cons, totalMinted_cons, ih, Nat.add_assoc]

theorem perform_balanced {call : Call} (h : Balanced limit s)
    (hplain : ∀ c ∈ call.coins, c.asset.HasPlainSymbol)
    (hfits : ∀ a, limit a + call.minted a < 0x10000000000000000) :
    Balanced (fun a => limit a + call.minted a) (call.perform s).2 := by
  cases call with
  | mint module c =>
    have hfit := hfits c.asset
    rw [minted, if_pos rfl] at hfit
    exact mint_balanced h (hplain c List.mem_cons_self) hfit module
  | burn module c => exact burn_balanced h (hplain c List.mem_cons_self) module
  | moveModule source target coins =>
    exact transfer_balanced h hplain (.ofModule source) (.ofModule target)
  | payOut source target coins => exact transfer_balanced h hplain (.ofModule source) target
  | payIn source target coins => exact transfer_balanced h hplain source (.ofModule target)

theorem run_balanced {calls : List Call} (h : Balanced limit s)
    (hplain : ∀ call ∈ calls, ∀ c ∈ call.coins, c.asset.HasPlainSymbol)
    (hfits : ∀ a, limit a + totalMinted a calls < 0x10000000000000000) :
    Balanced (fun a => limit a + totalMinted a calls) (run calls s) := by
  induction calls generalizing s limit with
  | nil => exact h
  | cons call calls ih =>
    simp only [totalMinted_cons, ← Nat.add_assoc] at hfits ⊢
    refine ih (perform_balanced h (hplain call List.mem_cons_self) fun a => ?_)
      (fun d hd => hplain d (List.mem_cons_of_mem call hd)) hfits
    exact Nat.lt_of_le_of_lt (Nat.le_add_right _ _) (hfits a)

end Call

/-- What shows of balanced books: every balance and supply can be read, the balances of an asset
add up to its supply, and no zero is stored. -/
structure Conserved (s : Ledger) : Prop where
  adds_up : ∀ a : Asset, a.HasPlainSymbol → ∃ (balances : Address → Amount) (total : Amount),
    (∀ owner, balance owner a s = .ok (balances owner)) ∧ supply a s = .ok total ∧
      AddsUpTo (fun owner => (balances owner).val) total.val
  no_zero : ∀ k, s.get? k ≠ some (.amount 0)

theorem Balanced.conserved (h : Balanced limit s) : Conserved s where
  adds_up := fun a ha => ⟨fun owner => s.amountAt (Key.balance owner a),
    s.amountAt (Key.supply a), fun owner => h.amounts.readsAmounts.balance owner a,
    h.amounts.readsAmounts.supply a, h.adds_up a ha⟩
  no_zero := h.amounts.get?_ne_zero

/-- Whatever calls are made of an empty bank, failed ones among them, it conserves coins after each
of them, as long as no asset is ever minted beyond the largest amount. -/
theorem coins_conserved (settings : Settings) (height : Height) {calls : List Call}
    (hplain : ∀ call ∈ calls, ∀ c ∈ call.coins, c.asset.HasPlainSymbol)
    (hfits : ∀ a, Call.totalMinted a calls < 0x10000000000000000) :
    ∀ done, done <+: calls → Conserved (Call.run done (Ledger.empty settings height)) := by
  rintro done ⟨rest, rfl⟩
  have hempty := empty_balanced settings height
  refine (Call.run_balanced hempty (fun call hcall => ?_) fun a => ?_).conserved
  · exact hplain call (List.mem_append_left rest hcall)
  · have hfit := hfits a
    rw [Call.totalMinted_append] at hfit
    omega

def usdcToken : Asset := .of .eth "USDC-0XA0B8"

/-- Two mints, a payout that stops at its second coin, a move of a module to itself, a payment that
the account does not cover, and a burn. -/
def mixedCalls : List Call :=
  [.mint Module.thorchain ⟨.rune, .orZero 100⟩, .mint Module.thorchain ⟨usdcToken, .orZero 5⟩,
    .payOut Module.thorchain ⟨"alice/BTC.X"⟩ [⟨.rune, .orZero 70⟩, ⟨usdcToken, .orZero 9⟩],
    .moveModule Module.thorchain Module.thorchain [⟨.rune, .orZero 30⟩],
    .payIn ⟨"alice/BTC.X"⟩ Module.asgard [⟨.rune, .orZero 71⟩],
    .burn Module.thorchain ⟨.rune, .orZero 30⟩]

/-- The calls leave 70 RUNE in the account, which are the whole supply. -/
theorem mixedCalls_conserved :
    let s := Call.run mixedCalls (Ledger.empty (.ofEnvironment .mocknet) 1)
    (∀ call ∈ mixedCalls, ∀ c ∈ call.coins, c.asset.HasPlainSymbol) ∧
      (∀ a, Call.totalMinted a mixedCalls < 0x10000000000000000) ∧ Conserved s ∧
      s.get? (Key.balance ⟨"alice/BTC.X"⟩ .rune) = some (.amount (.orZero 70)) ∧
      s.get? (Key.supply .rune) = some (.amount (.orZero 70)) := by
  have hplain : ∀ call ∈ mixedCalls, ∀ c ∈ call.coins, c.asset.HasPlainSymbol := by decide +kernel
  have hfits : ∀ a, Call.totalMinted a mixedCalls < 0x10000000000000000 := by
    intro a
    have hbound : ∀ (p : Prop) [Decidable p] (n : Nat), (if p then n else 0) ≤ n := by
      intro p _ n
      split
      · exact Nat.le_refl n
      · exact Nat.zero_le n
    have hrune := hbound (.rune = a) 100
    have husdc := hbound (usdcToken = a) 5
    show (if .rune = a then 100 else 0) + ((if usdcToken = a then 5 else 0) + 0) < _
    omega
  have hconserved := coins_conserved (.ofEnvironment .mocknet) 1 hplain hfits mixedCalls
    (List.prefix_refl mixedCalls)
  exact ⟨hplain, hfits, hconserved, by decide +kernel, by decide +kernel⟩

end Bank

end LiquidityNet
