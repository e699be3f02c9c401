import LiquidityNet.Proofs.Bond.Solvency
import LiquidityNet.Proofs.Swap.Reserves

/-!
# What a deposit draws on

A deposit names the RUNE to bond, and its transaction carries coins. The deposit moves what it names
out of the account of the pools, and reads the coins nowhere, so that what the transaction does not
carry is drawn from the RUNE behind the pools.
-/

namespace LiquidityNet

open Ledger

variable {s t : Ledger} {n : Node} {ps : Providers}

theorem Ledger.bondAt_putRecord (s : Ledger) (n : Node) :
    (s.putRecord (Key.node n.address) (.node n)).bondAt n.address = n.bond := by
  rw [bondAt, get?_putRecord, if_pos rfl]

theorem Nodes.saveWith_bondAt (h : saveWith n ps s = (.ok (), t)) :
    t.bondAt n.address = n.bond := by
  obtain ⟨_, u, hnode, hproviders⟩ := Action.bind_eq_ok.1 h
  obtain ⟨_, -, hnode⟩ := Action.check_bind_eq_ok.1 hnode
  cases hnode
  rw [bondAt_of_changes ((saveProviders_confined ps).changes hproviders) (by decide)]
  exact bondAt_putRecord s n

/-- A request whose transaction carries other coins. -/
def BondRequest.carrying (m : BondRequest) (coins : List Coin) : BondRequest :=
  { m with tx := { m.tx with coins := coins } }

namespace Bond

variable {m : BondRequest}

theorem deposit_bondAt (h : deposit m s = (.ok (), t)) :
    ∃ n, nodeFor m s = .ok n ∧ t.bondAt n.address = n.bond.plus m.bond := by
  obtain ⟨n, ps, u, hn, hsaved, ⟨v, hchanges, hsame⟩, -, -⟩ := deposit_ok h
  refine ⟨n, hn, ?_⟩
  have hcongr : t.bondAt n.address = v.bondAt n.address := by rw [bondAt, bondAt, hsame]
  rw [hcongr, bondAt_of_changes hchanges (by decide)]
  exact Nodes.saveWith_bondAt hsaved

theorem deposit_held (h : deposit m s = (.ok (), t)) :
    t.held poolAccount + m.bond.val = s.held poolAccount ∧
      t.held bondAccount = min (s.held bondAccount + m.bond.val) 0xffffffffffffffff := by
  obtain ⟨n, ps, u, -, hsaved, -, hpool, hbond⟩ := deposit_ok h
  have hkept : ∀ a, u.held a = s.held a := by
    intro a
    rw [held_of_changes ((Nodes.saveWith_confined _ ps).changes hsaved) (by decide) a]
    exact held_congr (get?_checkpointed s) a
  rw [hkept] at hpool hbond
  exact ⟨hpool, hbond⟩

theorem deposit_backing (h : deposit m s = (.ok (), t)) : t.backing + m.bond.val = s.backing := by
  have hpooled : t.pooled = s.pooled :=
    pooled_of_changes ((deposit_confined m).changes h) (by decide)
  have hheld := (deposit_held h).1
  unfold backing
  omega

/-- A deposit bonds the RUNE that it names, and moves as much from the account of the pools to that
of the bonds, whichever coins its transaction carries. That is the RUNE carried exactly if the
deposit names no other amount, and the pools lose more than was carried exactly if it names more. -/
theorem deposit_funding (h : deposit m s = (.ok (), t)) :
    (∃ n, nodeFor m s = .ok n ∧ t.bondAt n.address = n.bond.plus m.bond) ∧
      t.held poolAccount + m.bond.val = s.held poolAccount ∧
      t.held bondAccount = min (s.held bondAccount + m.bond.val) 0xffffffffffffffff ∧
      (∀ coins, deposit (m.carrying coins) s = (.ok (), t)) ∧
      (t.held poolAccount + (Coin.held .rune m.tx.coins).val = s.held poolAccount ↔
        m.bond = Coin.held .rune m.tx.coins) ∧
      (t.backing < s.backing - (Coin.held .rune m.tx.coins).val ↔
        Coin.held .rune m.tx.coins < m.bond) := by
  obtain ⟨hpool, hbond⟩ := deposit_held h
  have hbacking := deposit_backing h
  refine ⟨deposit_bondAt h, hpool, hbond, fun coins => h, ?_, ?_⟩
  · rw [Amount.ext_iff]
    omega
  · show _ ↔ (Coin.held .rune m.tx.coins).val < m.bond.val
    omega

/-- The keeper's ledger with a pool, which all RUNE in the account of the pools stands behind. -/
def pooledLedger : Ledger :=
  let a : Asset := .of .btc "BTC"
  keeperLedger.putRecord (Key.pool a) (.pool (.make a (.cap 0x200000000) 1))

/-- The operator names three times the RUNE that the transaction carries. -/
def shortDeposit : BondRequest where
  tx := { keeperTx with coins := [⟨.rune, .cap 0x100000⟩] }
  node := keeper.address
  bond := .cap 0x300000
  bondAddress := keeper.operator
  provider := none
  operatorFee := none
  signer := keeper.operator

theorem shortDeposit_unbacked :
    pooledLedger.backing = 0 ∧ ∃ t, deposit shortDeposit pooledLedger = (.ok (), t) ∧
      deposit (shortDeposit.carrying []) pooledLedger = (.ok (), t) ∧
      t.held bondAccount = pooledLedger.held bondAccount + 0x300000 ∧ t.backing = -0x300000 := by
  have hok : (deposit shortDeposit pooledLedger).1.isOk = true := by decide +kernel
  have hbacking : pooledLedger.backing = 0 := by decide +kernel
  have hbefore : pooledLedger.held bondAccount = 0x200000000 := by decide +kernel
  have hnamed : shortDeposit.bond.val = 0x300000 := rfl
  rcases hrun : deposit shortDeposit pooledLedger with ⟨e | _, t⟩
  · rw [hrun] at hok
    cases hok
  · obtain ⟨-, -, hbond, hsame, -, -⟩ := deposit_funding hrun
    have hafter := deposit_backing hrun
    refine ⟨hbacking, t, rfl, hsame [], ?_, by omega⟩
    rw [hbond, hbefore, hnamed]
    rfl

end Bond

end LiquidityNet
