import LiquidityNet.Proofs.Bank.Accounts
import LiquidityNet.Proofs.Ledger.Room

/-!
# What a payout comes to

A payout on the home chain touches no account but those of its own asset: the recipient is credited
with the coin, and the payer, the fee and what is minted concern modules. A payout on another chain
joins the batch of the current block, after all that stood there, under a vault that is active.
-/

namespace LiquidityNet

open Ledger

variable {k : String} {s t : Ledger} {o : Outbound} {payer : String} {a : Asset} {c : Coin}
  {fee : Amount}

namespace Payout

/-! ## On the home chain -/

theorem collectFee_spares (hpayer : .ofModule payer ∈ Module.accounts) (h : Key.Apart k a)
    (fee : Amount) : (collectFee payer a fee).Spares k := by
  have hcoin : ∀ c ∈ [(⟨a, fee⟩ : Coin)], Key.Apart k c.asset := by
    intro c hc
    rwa [List.mem_singleton.1 hc]
  unfold collectFee
  refine .ite (fun _ => .pure ()) fun _ => .ite (fun _ => ?_) fun _ => ?_
  · refine .ite (fun _ => ?_) fun _ => .pure ()
    exact Bank.moveModule_spares hpayer (by decide) hcoin
  · refine .ite (fun _ => ?_) fun _ => .pure ()
    refine .bind (Bank.moveModule_spares (by decide) (by decide) hcoin) fun _ => ?_
    exact .bind (Bank.burn_spares (h.accounts _ (by decide)) h.supply) fun _ => .emit _

theorem takeFee_spares (hpayer : .ofModule payer ∈ Module.accounts) (h : Key.Apart k a)
    (fee : Amount) : (takeFee payer a fee).Spares k :=
  .ite (fun _ => collectFee_spares hpayer h fee) fun _ => .pure ()

theorem mintFor_spares (h : Key.Apart k c.asset) (payer : String) : (mintFor payer c).Spares k :=
  .ite (fun _ => .bind (Bank.mint_spares (h.accounts _ (by decide)) h.supply) fun _ => .emit _)
    fun _ => .pure ()

theorem settle_spares (hpayer : .ofModule (o.payer.getD Module.asgard) ∈ Module.accounts)
    (h : Key.Apart k o.coin.asset) (hrecipient : k ≠ Key.balance o.recipient o.coin.asset)
    (fee : Amount) : (settle o fee).Spares k := by
  rw [settle_eq]
  refine (mintFor_spares h _).bind fun _ => .bind (Bank.transfer_spares ?_ ?_) fun _ => ?_
  · intro c hc
    rw [List.mem_singleton.1 hc]
    exact h.accounts _ hpayer
  · intro c hc
    rwa [List.mem_singleton.1 hc]
  · exact (takeFee_spares hpayer h fee).bind fun _ => .emit _

/-- Someone who is no module gets exactly the coin. -/
theorem settle_credits (hs : s.Filed) (h : settle o fee s = (.ok (), t))
    (hpayer : .ofModule (o.payer.getD Module.asgard) ∈ Module.accounts)
    (hperson : o.recipient ∉ Module.accounts) :
    t.balancesOf o.coin.asset o.recipient =
      min (s.balancesOf o.coin.asset o.recipient + o.coin.amount.val) 0xffffffffffffffff := by
  have hapart : Key.Apart (Key.balance o.recipient o.coin.asset) o.coin.asset := .of_person hperson
  rw [settle_eq] at h
  obtain ⟨_, u, hmint, h⟩ := Action.bind_eq_ok.1 h
  obtain ⟨_, v, hmoved, h⟩ := Action.bind_eq_ok.1 h
  obtain ⟨_, w, hfee, htold⟩ := Action.bind_eq_ok.1 h
  have hfiled : u.Filed := (mintFor_confined _ _).changes hmint |>.filed hs
  have hmoved := Bank.transfer_singleton_ok hmoved
  have hne : Address.ofModule (o.payer.getD Module.asgard) ≠ o.recipient := fun heq =>
    hperson (heq ▸ hpayer)
  obtain ⟨-, hcredit⟩ := Bank.transferCoin_credits hfiled.readsAmounts hne hmoved
  have hbefore := (mintFor_spares hapart _).amountAt_eq hmint
  have hafter := (takeFee_spares hpayer hapart fee).amountAt_eq hfee
  have hend := (Action.Spares.emit _).amountAt_eq htold
    (k := Key.balance o.recipient o.coin.asset)
  unfold balancesOf at *
  rw [hend, hafter, hcredit, hbefore]

/-- A payout from the module that mints adds its coin to the supply, and takes no fee. -/
theorem settle_mints (hs : s.Filed) (h : settle o fee s = (.ok (), t))
    (hpayer : o.payer = some Module.thorchain) :
    t.supplyOf o.coin.asset =
      min (s.supplyOf o.coin.asset + o.coin.amount.val) 0xffffffffffffffff := by
  have hbalance : ∀ owner, Key.supply o.coin.asset ≠ Key.balance owner o.coin.asset :=
    fun owner => (Key.balance_ne_supply owner _ _).symm
  rw [settle_eq, hpayer] at h
  obtain ⟨_, u, hmint, h⟩ := Action.bind_eq_ok.1 h
  obtain ⟨_, v, hmoved, h⟩ := Action.bind_eq_ok.1 h
  obtain ⟨_, w, hfee, htold⟩ := Action.bind_eq_ok.1 h
  obtain ⟨_, x, hminted, hnoted⟩ := Action.bind_eq_ok.1 hmint
  have hsupply := (Bank.mint_credits hs.readsAmounts hminted).2
  have hkept := (Bank.transferCoin_spares (hbalance _) (hbalance _)).amountAt_eq
    (Bank.transfer_singleton_ok hmoved)
  have hfree : w = v := by
    unfold takeFee collectFee at hfee
    split at hfee <;> cases hfee <;> rfl
  have hunder := (Action.Spares.emit (k := Key.supply o.coin.asset) _).amountAt_eq hnoted
  have hend := (Action.Spares.emit (k := Key.supply o.coin.asset) _).amountAt_eq htold
  unfold supplyOf at *
  rw [hend, hfree, hkept, hunder, hsupply]

/-! ## On another chain -/

end Payout

namespace Ledger

/-- An outbound joined the batch of the current block, after all that stood there. -/
def Queues (s t : Ledger) (o : Outbound) : Prop :=
  ∃ b, Outbounds.atHeight s.height s = .ok b ∧
    Outbounds.atHeight s.height t = .ok { b with items := b.items ++ [o] }

end Ledger

namespace Payout

theorem append_queues (hs : s.Filed) (hread : o.reread? = some o)
    (h : Outbounds.append s.height o s = (.ok (), t)) : s.Queues t o := by
  rw [append_run] at h
  rcases hb : Outbounds.atHeight s.height s with e | b <;> rw [hb] at h <;> cases h
  exact ⟨b, hb, Outbounds.atHeight_appended hs hread hb⟩

theorem enqueue_queues (hs : s.Filed) (hread : o.reread? = some o)
    (h : enqueue o s = (.ok (), t)) : s.Queues t o := by
  rw [enqueue_run] at h
  rcases hfind : Attestations.find? o.inbound s with e | _ | v <;> rw [hfind] at h
  · cases h
  · exact append_queues hs hread h
  · dsimp only at h
    split at h
    · -- The height is noted at the attestation first, which no batch sees.
      have hfiled := hs.putRecord (k := Key.attestation v.txId)
        (r := .attestation { v with outboundHeight := s.height }) rfl
      obtain ⟨b, hb, hafter⟩ := append_queues hfiled hread h
      refine ⟨b, ?_, hafter⟩
      rw [← hb]
      refine (Outbounds.atHeight_congr ?_).symm
      rw [get?_putRecord, if_neg]
      intro hkey
      have htable := congrArg Table.ofKey? hkey
      simp at htable
    · exact append_queues hs hread h

/-- An outbound that names no vault is placed under one that is active. -/
theorem place_away_ok (hs : s.Filed) (hread : o.coin.asset.reread? = some o.coin.asset)
    (haway : o.chain.isHome = false) (hvault : o.vault = none)
    (h : place o fee s = (.ok true, t)) :
    ∃ vaults v, Vaults.asgards .active s = .ok vaults ∧ v ∈ vaults ∧
      s.Queues t { o with vault := some v.key } := by
  unfold place at h
  simp only [haway, hvault, Bool.false_eq_true, if_false, Option.isSome_none] at h
  obtain ⟨key, hkey, h⟩ := Action.read_bind_eq_ok.1 h
  cases key with
  | none => cases h
  | some key =>
    obtain ⟨_, u, hqueued, hend⟩ := Action.bind_eq_ok.1 h
    cases hend
    obtain ⟨_, _, vaults, -, -, hvaults, v, hv, rfl, -⟩ := signer?_covers hkey
    exact ⟨vaults, v, hvaults, hv, enqueue_queues hs (Outbound.reread?_of_asset hread) hqueued⟩

theorem schedule_spares {T : Table} (hk : Table.ofKey? k = some T)
    (hT : T ∉ [Table.attestations, .outbounds])
    (hpayer : .ofModule (o.payer.getD Module.asgard) ∈ Module.accounts)
    (h : Key.Apart k o.coin.asset) (hrecipient : k ≠ Key.balance o.recipient o.coin.asset)
    (least : Amount) : (schedule o least).Spares k := by
  have henqueue : ∀ o, (enqueue o).Spares k := fun o => .of_confined (enqueue_confined o) hk hT
  unfold schedule place
  simp only [Action.refuse_bind]
  refine .pastRead fun fee => .ite (fun _ => .refuse _) fun _ => ?_
  refine .ite (fun _ => .refuse _) fun _ => ?_
  refine .ite (fun _ => ?_) fun _ => .ite (fun _ => ?_) fun _ => .pastRead fun key => ?_
  · refine .bind (settle_spares ?_ ?_ ?_ fee) fun _ => .pure true
    · simpa using hpayer
    · simpa using h
    · simpa using hrecipient
  · exact (henqueue _).bind fun _ => .pure true
  · cases key with
    | none => exact .pure false
    | some key => exact (henqueue _).bind fun _ => .pure true

end Payout

end LiquidityNet
