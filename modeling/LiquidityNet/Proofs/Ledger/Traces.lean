import LiquidityNet.Proofs.Ledger.Settlement

/-!
# What a failed outbound leaves behind

An outbound that fails has written nothing, with two exceptions. A payout on the home chain is
transferred before its fee is taken, so a payer that covers the net coin but not the fee has paid
when the outbound fails. An outbound for another chain is noted at its inbound before it joins the
batch of the block, and stays noted where that batch cannot be read.
-/

namespace LiquidityNet

open Ledger

variable {s t u : Ledger} {o : Outbound} {payer : String} {source target : Address} {a : Asset}
  {c : Coin} {fee least : Amount}

namespace Ledger

/-- Whether an account holds a coin. -/
def Covers (s : Ledger) (owner : Address) (c : Coin) : Prop :=
  c.amount ≤ s.amountAt (Key.balance owner c.asset)

instance (s : Ledger) (owner : Address) (c : Coin) : Decidable (s.Covers owner c) :=
  inferInstanceAs (Decidable (_ ≤ _))

theorem not_covers {owner : Address} :
    ¬ s.Covers owner c ↔ s.amountAt (Key.balance owner c.asset) < c.amount :=
  Nat.not_le

/-- How a transfer fails that the source does not cover. -/
def shortage (s : Ledger) (owner : Address) (c : Coin) : Failure :=
  .refused (.insufficientFunds owner c.amount (s.amountAt (Key.balance owner c.asset)) c.asset)

/-- The ledger after a transfer that the source covers. -/
def moved (source target : Address) (c : Coin) (s : Ledger) : Ledger :=
  let u := s.withAmount (Key.balance source c.asset)
    ((s.amountAt (Key.balance source c.asset)).minus c.amount)
  u.withAmount (Key.balance target c.asset)
    ((u.amountAt (Key.balance target c.asset)).plus c.amount)

theorem ReadsAmounts.moved (hs : s.ReadsAmounts) (source target : Address) (c : Coin) :
    (s.moved source target c).ReadsAmounts :=
  (hs.withAmount _ _).withAmount _ _

theorem events_moved (source target : Address) (c : Coin) (s : Ledger) :
    (s.moved source target c).store.events = s.store.events :=
  (LayeredStore.events_assign _ _ _).trans (LayeredStore.events_assign _ _ _)

theorem amountAt_moved (hne : source ≠ target) (c : Coin) (s : Ledger) (q : Address) :
    (s.moved source target c).amountAt (Key.balance q c.asset) =
      if q = target then (s.amountAt (Key.balance target c.asset)).plus c.amount
      else if q = source then (s.amountAt (Key.balance source c.asset)).minus c.amount
      else s.amountAt (Key.balance q c.asset) := by
  have hkey : ∀ q r : Address, Key.balance q c.asset = Key.balance r c.asset ↔ q = r :=
    fun _ _ => ⟨Key.balance_inj, congrArg (Key.balance · c.asset)⟩
  simp only [moved, amountAt_withAmount, hkey, if_neg hne.symm]

theorem amountAt_moved_source (hne : target ≠ source) (c : Coin) (s : Ledger) :
    (s.moved source target c).amountAt (Key.balance source c.asset) =
      (s.amountAt (Key.balance source c.asset)).minus c.amount := by
  rw [amountAt_moved hne.symm, if_neg hne.symm, if_pos rfl]

/-- What came in is covered by whoever got it. -/
theorem covers_moved_target (source target : Address) (c : Coin) (s : Ledger) :
    (s.moved source target c).Covers target c := by
  have hlimit := c.amount.isLt
  rw [Covers, moved, amountAt_withAmount, if_pos rfl, Amount.le_def, Amount.val_plus]
  omega

theorem get?_of_amountAt {k : String} (h : s.amountAt k ≠ 0) :
    s.get? k = some (.amount (s.amountAt k)) := by
  unfold amountAt at h ⊢
  split
  · rename_i hget
    exact hget
  · rename_i hother
    refine absurd ?_ h
    split
    · rename_i b hget
      exact absurd hget (hother b)
    · rfl

/-- A transfer of something from an account to itself changes nothing. -/
theorem get?_moved_self (hcovered : s.Covers source c) (hpos : c.amount ≠ 0) (k : String) :
    (s.moved source source c).get? k = s.get? k := by
  have hle : c.amount.val ≤ (s.amountAt (Key.balance source c.asset)).val := hcovered
  have hheld : s.amountAt (Key.balance source c.asset) ≠ 0 := by
    intro hzero
    rw [hzero] at hle
    exact hpos (Amount.val_inj.1 (Nat.le_zero.1 hle))
  have hback : ((s.amountAt (Key.balance source c.asset)).minus c.amount).plus c.amount =
      s.amountAt (Key.balance source c.asset) := by
    have hlimit := (s.amountAt (Key.balance source c.asset)).isLt
    rw [← Amount.val_inj, Amount.val_plus, Amount.val_minus]
    omega
  rw [moved, get?_withAmount, get?_withAmount, amountAt_withAmount, if_pos rfl, hback, if_neg hheld]
  split
  · rename_i hk
    rw [hk, get?_of_amountAt hheld]
  · rfl

end Ledger

namespace Bank

theorem transfer_singleton_run (hs : s.ReadsAmounts) (source target : Address) (c : Coin) :
    transfer source target [c] s =
      if s.Covers source c then (.ok (), s.moved source target c)
      else (.error (s.shortage source c), s) := by
  have hrun := transferCoin_run hs source target c
  dsimp only at hrun
  show (transferCoin source target c >>= fun _ => pure ()) s = _
  rw [Action.bind_run, hrun]
  by_cases hcovered : s.Covers source c
  · rw [if_neg (mt not_covers.2 (not_not.2 hcovered)), if_pos hcovered]
    rfl
  · rw [if_pos (not_covers.1 hcovered), if_neg hcovered]
    rfl

theorem burn_ok_of_covers (hs : s.ReadsAmounts) {module : String}
    (h : s.Covers (.ofModule module) c) : ∃ t, burn module c s = (.ok (), t) := by
  rw [burn_run hs]
  dsimp only
  rw [if_neg (mt not_covers.2 (not_not.2 h))]
  exact ⟨_, rfl⟩

end Bank

namespace Payout

/-! ## On the home chain -/

/-- Whether the fee for a payout of an asset is taken from the payer's account: RUNE goes to the
reserve, and synths of the pools are burned. -/
def BearsFee (payer : String) (a : Asset) : Prop :=
  payer ≠ Module.thorchain ∧
    (a.isRune = true ∧ payer ≠ Module.reserve ∨
      a.isRune = false ∧ a.synth = true ∧ payer = Module.asgard)

/-- Whether there is a fee to be taken from the payer's account that it does not cover. -/
def LacksFee (payer : String) (a : Asset) (fee : Amount) (s : Ledger) : Prop :=
  fee ≠ 0 ∧ BearsFee payer a ∧ ¬ s.Covers (.ofModule payer) ⟨a, fee⟩

/-- The fee is taken, or lacking, and then nothing changes. -/
theorem takeFee_cases (hs : s.ReadsAmounts) (payer : String) (a : Asset) (fee : Amount) :
    (LacksFee payer a fee s ∧
        takeFee payer a fee s = (.error (s.shortage (.ofModule payer) ⟨a, fee⟩), s)) ∨
      (¬ LacksFee payer a fee s ∧ ∃ u, takeFee payer a fee s = (.ok (), u)) := by
  unfold takeFee collectFee
  by_cases hfee : fee = 0
  · rw [if_neg (not_not.2 hfee)]
    exact .inr ⟨fun h => h.1 hfee, s, rfl⟩
  rw [if_pos hfee]
  by_cases hminter : payer = Module.thorchain
  · rw [if_pos hminter]
    exact .inr ⟨fun h => h.2.1.1 hminter, s, rfl⟩
  rw [if_neg hminter]
  cases hrune : a.isRune with
  | true =>
    simp only [if_true]
    by_cases hreserve : payer = Module.reserve
    · rw [if_neg (not_not.2 hreserve)]
      refine .inr ⟨fun h => ?_, s, rfl⟩
      rcases h.2.1.2 with ⟨-, h⟩ | ⟨h, -⟩
      · exact h hreserve
      · rw [hrune] at h
        cases h
    · rw [if_pos hreserve, Bank.moveModule, Bank.transfer_singleton_run hs]
      by_cases hcovered : s.Covers (.ofModule payer) ⟨a, fee⟩
      · rw [if_pos hcovered]
        exact .inr ⟨fun h => h.2.2 hcovered, _, rfl⟩
      · rw [if_neg hcovered]
        exact .inl ⟨⟨hfee, ⟨hminter, .inl ⟨hrune, hreserve⟩⟩, hcovered⟩, rfl⟩
  | false =>
    simp only [Bool.false_eq_true, if_false]
    by_cases hpools : a.synth = true ∧ payer = Module.asgard
    · obtain ⟨hsynth, rfl⟩ := hpools
      rw [if_pos (by simp [hsynth]), Action.bind_run, Bank.moveModule,
        Bank.transfer_singleton_run hs]
      by_cases hcovered : s.Covers (.ofModule Module.asgard) ⟨a, fee⟩
      · -- What the pools gave up is burned, so the burning cannot fail.
        obtain ⟨u, hburned⟩ := Bank.burn_ok_of_covers (hs.moved (.ofModule Module.asgard) _ _)
          (covers_moved_target _ (.ofModule Module.thorchain) ⟨a, fee⟩ s)
        rw [if_pos hcovered]
        dsimp only
        rw [Action.bind_run, hburned]
        exact .inr ⟨fun h => h.2.2 hcovered, _, rfl⟩
      · rw [if_neg hcovered]
        exact .inl ⟨⟨hfee, ⟨hminter, .inr ⟨hrune, hsynth, rfl⟩⟩, hcovered⟩, rfl⟩
    · rw [if_neg (by simpa using hpools)]
      refine .inr ⟨fun h => ?_, s, rfl⟩
      rcases h.2.1.2 with ⟨h, -⟩ | ⟨-, h⟩
      · rw [hrune] at h
        cases h
      · exact hpools h

/-- What is minted for a payout covers it. -/
theorem mintFor_run (hs : s.Filed) (payer : String) (c : Coin) :
    ∃ u, mintFor payer c s = (.ok (), u) ∧ u.Filed ∧ (payer ≠ Module.thorchain → u = s) ∧
      (payer = Module.thorchain → u.Covers (.ofModule payer) c) := by
  by_cases hminter : payer = Module.thorchain
  · obtain ⟨t, hmint⟩ : ∃ t, Bank.mint Module.thorchain c s = (.ok (), t) :=
      ⟨_, Bank.mint_run hs.readsAmounts _ c⟩
    have hrun : mintFor payer c s =
        Ledger.emit (.supply .mint c.asset c.amount "swap") t := by
      unfold mintFor
      rw [if_pos hminter, Action.bind_run, hmint]
    refine ⟨_, hrun, ((mintFor_confined payer c).changes hrun).filed hs,
      fun h => absurd hminter h, fun h => ?_⟩
    have hlimit := c.amount.isLt
    have hgot := (Bank.mint_credits hs.readsAmounts hmint).1
    have hend := (Action.Spares.emit (k := Key.balance (.ofModule payer) c.asset) _).amountAt_eq
      (Ledger.emit_run (.supply .mint c.asset c.amount "swap") t)
    unfold balancesOf at hgot
    rw [Covers, hend, hminter, Amount.le_def, hgot]
    omega
  · refine ⟨s, ?_, hs, fun _ => rfl, fun h => absurd h hminter⟩
    unfold mintFor
    rw [if_neg hminter]
    rfl

/-- A payout fails if the payer lacks the coin, and then changes nothing, or if it lacks the fee
after the transfer, and then the transfer stays. -/
theorem settle_cases (hs : s.Filed) (o : Outbound) (fee : Amount) {payer : String}
    (hpayer : o.payer.getD Module.asgard = payer) :
    (payer ≠ Module.thorchain ∧ ¬ s.Covers (.ofModule payer) o.coin ∧
        settle o fee s = (.error (s.shortage (.ofModule payer) o.coin), s)) ∨
      ((payer ≠ Module.thorchain → s.Covers (.ofModule payer) o.coin) ∧
        LacksFee payer o.coin.asset fee (s.moved (.ofModule payer) o.recipient o.coin) ∧
        ∃ e, settle o fee s = (.error e, s.moved (.ofModule payer) o.recipient o.coin)) ∨
      ((payer ≠ Module.thorchain → s.Covers (.ofModule payer) o.coin ∧
          ¬ LacksFee payer o.coin.asset fee (s.moved (.ofModule payer) o.recipient o.coin)) ∧
        ∃ u, settle o fee s = (.ok (), u)) := by
  obtain ⟨t, hminted, ht, hsame, hcovered⟩ := mintFor_run hs payer o.coin
  have hrun : settle o fee s = (do
      Bank.transfer (.ofModule payer) o.recipient [o.coin]
      takeFee payer o.coin.asset fee
      Ledger.emit (.outbound o.inbound (settlement payer o fee)) : Action Unit) t := by
    rw [settle_eq, hpayer, Action.bind_run, hminted]
  rw [hrun, Action.bind_run, Bank.transfer_singleton_run ht.readsAmounts]
  by_cases hheld : t.Covers (.ofModule payer) o.coin
  · rw [if_pos hheld]
    dsimp only
    rw [Action.bind_run]
    rcases takeFee_cases (ht.readsAmounts.moved (.ofModule payer) o.recipient o.coin) payer
      o.coin.asset fee with ⟨hlacks, hfee⟩ | ⟨hlacks, u, hfee⟩
    · rw [hfee]
      obtain rfl := hsame hlacks.2.1.1
      exact .inr (.inl ⟨fun _ => hheld, hlacks, _, rfl⟩)
    · rw [hfee]
      refine .inr (.inr ⟨fun hminter => ?_, _, rfl⟩)
      obtain rfl := hsame hminter
      exact ⟨hheld, hlacks⟩
  · have hminter : payer ≠ Module.thorchain := fun h => hheld (hcovered h)
    obtain rfl := hsame hminter
    rw [if_neg hheld]
    exact .inl ⟨hminter, hheld, rfl⟩

/-! ## To another chain -/

/-- The ledger with the height of the block noted at an inbound that was attested to. -/
def noted (v : Attestation) (s : Ledger) : Ledger :=
  s.putRecord (Key.attestation v.txId) (.attestation { v with outboundHeight := s.height })

theorem atHeight_noted (v : Attestation) (s : Ledger) :
    Outbounds.atHeight s.height (noted v s) = Outbounds.atHeight s.height s := by
  refine Outbounds.atHeight_congr ?_
  rw [noted, get?_putRecord, if_neg]
  intro hkey
  have htable := congrArg Table.ofKey? hkey
  simp at htable

/-- An outbound joins the batch of the block after its inbound noted the height, unless there is
none or it noted one before. -/
theorem enqueue_noted {v : Attestation} (hfound : Attestations.find? o.inbound s = .ok (some v))
    (hnew : v.outboundHeight = 0) : enqueue o s = Outbounds.append s.height o (noted v s) := by
  rw [enqueue_run, hfound]
  dsimp only
  rw [if_pos hnew]
  rfl

theorem append_failed {h : Height} {r : Except Failure Unit}
    (hrun : Outbounds.append h o s = (r, t)) (hr : r ≠ .ok ()) :
    t = s ∧ ∃ e, Outbounds.atHeight h s = .error e := by
  rw [append_run] at hrun
  rcases hbatch : Outbounds.atHeight h s with e | b <;> rw [hbatch] at hrun <;> cases hrun
  · exact ⟨rfl, e, rfl⟩
  · exact absurd rfl hr

theorem enqueue_failed {r : Except Failure Unit} (hrun : enqueue o s = (r, t)) (hr : r ≠ .ok ()) :
    t = s ∨ ∃ v e, Attestations.find? o.inbound s = .ok (some v) ∧ v.outboundHeight = 0 ∧
      Outbounds.atHeight s.height s = .error e ∧ t = noted v s := by
  have hrun' := hrun
  rw [enqueue_run] at hrun
  rcases hfound : Attestations.find? o.inbound s with e | _ | v <;> rw [hfound] at hrun
  · cases hrun
    exact .inl rfl
  · exact .inl (append_failed hrun hr).1
  · by_cases hnew : v.outboundHeight = 0
    · rw [enqueue_noted hfound hnew] at hrun'
      obtain ⟨hsame, e, hbatch⟩ := append_failed hrun' hr
      rw [atHeight_noted] at hbatch
      exact .inr ⟨v, e, rfl, hnew, hbatch, hsame⟩
    · dsimp only at hrun
      rw [if_neg hnew] at hrun
      exact .inl (append_failed hrun hr).1

/-! ## Schedules -/

/-- An outbound net of its fee, with its memo. -/
def net (o : Outbound) (fee : Amount) : Outbound :=
  { withMemo o with coin := { o.coin with amount := o.coin.amount.minus fee } }

/-- An outbound is placed if its fee can be told and leaves something of it, and no less than the
least amount. -/
structure IsPlaced (o : Outbound) (least fee : Amount) (s : Ledger) : Prop where
  charged : charge (withMemo o) s = .ok fee
  fee_lt : fee ≠ 0 → fee < o.coin.amount
  least_le : least ≤ o.coin.amount.minus fee

@[simp] theorem net_chain (o : Outbound) (fee : Amount) : (net o fee).chain = o.chain :=
  withMemo_chain o

@[simp] theorem net_payer (o : Outbound) (fee : Amount) : (net o fee).payer = o.payer :=
  withMemo_payer o

@[simp] theorem net_recipient (o : Outbound) (fee : Amount) :
    (net o fee).recipient = o.recipient :=
  withMemo_recipient o

@[simp] theorem net_vault (o : Outbound) (fee : Amount) : (net o fee).vault = o.vault :=
  withMemo_vault o

@[simp] theorem net_inbound (o : Outbound) (fee : Amount) : (net o fee).inbound = o.inbound := by
  unfold net withMemo
  split <;> rfl

theorem schedule_run (h : IsPlaced o least fee s) :
    schedule o least s = place (net o fee) fee s := by
  unfold schedule
  simp only [Action.refuse_bind, withMemo_coin]
  rw [Action.read_bind_run, h.charged]
  dsimp only
  have hleast : ¬ o.coin.amount.minus fee < least := Nat.not_lt.2 h.least_le
  rw [if_neg fun hused => absurd (h.fee_lt hused.1) (Nat.not_lt.2 hused.2), if_neg hleast]
  rfl

/-- An outbound that is not placed is refused, and nothing is changed for it. -/
theorem schedule_cases {r : Except Failure Bool} (h : schedule o least s = (r, t)) :
    (t = s ∧ ∃ e, r = .error (.refused e)) ∨ ∃ fee, IsPlaced o least fee s := by
  unfold schedule at h
  simp only [Action.refuse_bind, withMemo_coin] at h
  rw [Action.read_bind_run] at h
  rcases hcharged : charge (withMemo o) s with (e | f) | fee <;> rw [hcharged] at h
  · cases h
    exact .inl ⟨rfl, e, rfl⟩
  · exact absurd hcharged (charge_faultless (P := fun _ => True) _ s f trivial)
  dsimp only at h
  split at h
  · cases h
    exact .inl ⟨rfl, _, rfl⟩
  rename_i hused
  split at h
  · cases h
    exact .inl ⟨rfl, _, rfl⟩
  rename_i hless
  exact .inr ⟨fee, hcharged, fun hfee => Nat.not_le.1 fun hle => hused ⟨hfee, hle⟩,
    Nat.not_lt.1 hless⟩

/-- What a failed outbound leaves behind: the payment of its coin net of a fee that the payer lacks,
or the height noted at its inbound although the batch of the block cannot be read. -/
inductive Strands (o : Outbound) (least : Amount) (s : Ledger) : Ledger → Prop
  | paid {fee : Amount} {payer : String} (placed : IsPlaced o least fee s)
    (home : o.chain.isHome = true) (named : o.payer.getD Module.asgard = payer)
    (charged : fee ≠ 0) (bears : BearsFee payer o.coin.asset)
    (other : o.recipient ≠ .ofModule payer) (covers : s.Covers (.ofModule payer) (net o fee).coin)
    (lacks : ¬ s.Covers (.ofModule payer) o.coin) :
    Strands o least s (s.moved (.ofModule payer) o.recipient (net o fee).coin)
  | noted {fee : Amount} {v : Attestation} {e : Failure} (placed : IsPlaced o least fee s)
    (away : o.chain.isHome = false)
    (vault : o.vault.isSome = true ∨ ∃ key, signer? (net o fee) s = .ok (some key))
    (found : Attestations.find? o.inbound s = .ok (some v)) (unnoted : v.outboundHeight = 0)
    (unread : Outbounds.atHeight s.height s = .error e)
    (differs : s.get? (Key.attestation v.txId) ≠
      some (.attestation { v with outboundHeight := s.height })) :
    Strands o least s (noted v s)

/-- After the transfer of the net coin the payer lacks the fee exactly if it had lacked the whole
coin. -/
theorem covers_fee_iff {source : Address} (hless : fee < o.coin.amount)
    (hother : o.recipient ≠ source) (hcovered : s.Covers source (net o fee).coin) :
    (s.moved source o.recipient (net o fee).coin).Covers source ⟨o.coin.asset, fee⟩ ↔
      s.Covers source o.coin := by
  have hnet : o.coin.amount.val - fee.val ≤ (s.amountAt (Key.balance source o.coin.asset)).val :=
    hcovered
  have hfee : fee.val < o.coin.amount.val := hless
  have hleft : (s.moved source o.recipient (net o fee).coin).amountAt
      (Key.balance source o.coin.asset) = _ := amountAt_moved_source hother (net o fee).coin s
  unfold Covers
  rw [hleft, Amount.le_def, Amount.le_def, Amount.val_minus]
  show fee.val ≤ (s.amountAt (Key.balance source o.coin.asset)).val -
    (o.coin.amount.val - fee.val) ↔ _
  omega

theorem net_ne_zero (hless : fee < o.coin.amount) : (net o fee).coin.amount ≠ 0 := by
  intro hzero
  have hval : o.coin.amount.val - fee.val = 0 := congrArg Amount.val hzero
  have hfee : fee.val < o.coin.amount.val := hless
  omega

/-- What a ledger shows: its records and its events. -/
def SameShown (s t : Ledger) : Prop :=
  (∀ k, t.get? k = s.get? k) ∧ t.store.events = s.store.events

theorem place_home_failed (hs : s.Filed) (hplaced : IsPlaced o least fee s)
    (hhome : o.chain.isHome = true) {r : Except Failure Bool}
    (h : place (net o fee) fee s = (r, t)) (hr : r ≠ .ok true) :
    SameShown s t ∨ Strands o least s t := by
  unfold place at h
  rw [net_chain, if_pos hhome, Action.bind_run] at h
  rcases settle_cases hs (net o fee) fee (congrArg (·.getD Module.asgard) (net_payer o fee)) with
    ⟨-, -, hrun⟩ | ⟨hcovers, hlacks, e, hrun⟩ | ⟨-, u, hrun⟩ <;> rw [hrun] at h <;> cases h
  · exact .inl ⟨fun _ => rfl, rfl⟩
  · obtain ⟨hfee, hbears, hshort⟩ := hlacks
    have hcovered := hcovers hbears.1
    rw [net_recipient] at hshort ⊢
    by_cases hself : o.recipient = .ofModule (o.payer.getD Module.asgard)
    · rw [hself]
      exact .inl ⟨get?_moved_self hcovered (net_ne_zero (hplaced.fee_lt hfee)),
        events_moved _ _ _ _⟩
    · refine .inr (.paid hplaced hhome rfl hfee hbears hself hcovered fun hwhole => hshort ?_)
      exact (covers_fee_iff (hplaced.fee_lt hfee) hself hcovered).2 hwhole
  · exact absurd rfl hr

theorem place_away_failed (hplaced : IsPlaced o least fee s)
    (haway : o.chain.isHome = false) {r : Except Failure Bool}
    (h : place (net o fee) fee s = (r, t)) (hr : r ≠ .ok true) :
    SameShown s t ∨ Strands o least s t := by
  -- Under any vault the outbound answers the same inbound.
  have hqueued : ∀ p : Outbound, p.inbound = o.inbound →
      (o.vault.isSome = true ∨ ∃ key, signer? (net o fee) s = .ok (some key)) →
      (enqueue p >>= fun _ => pure true : Action Bool) s = (r, t) →
      SameShown s t ∨ Strands o least s t := by
    intro p hinbound hsigner hrun
    rw [Action.bind_run] at hrun
    rcases henqueued : enqueue p s with ⟨e | _, u⟩ <;> rw [henqueued] at hrun <;> cases hrun
    · rcases enqueue_failed henqueued nofun with rfl | ⟨v, e', hfound, hnew, hbatch, rfl⟩
      · exact .inl ⟨fun _ => rfl, rfl⟩
      · rw [hinbound] at hfound
        by_cases hdiffers : s.get? (Key.attestation v.txId) =
            some (.attestation { v with outboundHeight := s.height })
        · refine .inl ⟨fun k => ?_, LayeredStore.events_assign _ _ _⟩
          rw [noted, get?_putRecord]
          split
          · rename_i hk
            rw [hk, hdiffers]
          · rfl
        · exact .inr (.noted hplaced haway hsigner hfound hnew hbatch hdiffers)
    · exact absurd rfl hr
  have hchain : ¬ (net o fee).chain.isHome = true := by
    rw [net_chain, haway]
    exact Bool.false_ne_true
  unfold place at h
  rw [if_neg hchain] at h
  split at h
  · rename_i hnamed
    rw [net_vault] at hnamed
    exact hqueued _ (net_inbound o fee) (.inl hnamed) h
  · rw [Action.read_bind_run] at h
    rcases hsigner : signer? (net o fee) s with e | _ | key <;> rw [hsigner] at h
    · cases h
      exact .inl ⟨fun _ => rfl, rfl⟩
    · cases h
      exact .inl ⟨fun _ => rfl, rfl⟩
    · exact hqueued { net o fee with vault := some key } (net_inbound o fee) (.inr ⟨key, hsigner⟩) h

namespace Strands

/-- An outbound that strands something fails, and that is what it leaves. -/
theorem run (hs : s.Filed) (h : Strands o least s u) : ∃ e, schedule o least s = (.error e, u) := by
  cases h with
  | @paid fee payer placed home named charged bears other covers lacks =>
    have hlacks : LacksFee payer (net o fee).coin.asset fee
        (s.moved (.ofModule payer) (net o fee).recipient (net o fee).coin) := by
      refine ⟨charged, bears, fun hfee => lacks ?_⟩
      rw [net_recipient] at hfee
      exact (covers_fee_iff (placed.fee_lt charged) other covers).1 hfee
    rw [schedule_run placed]
    unfold place
    rw [net_chain, if_pos home, Action.bind_run]
    rcases settle_cases hs (net o fee) fee
      ((congrArg (·.getD Module.asgard) (net_payer o fee)).trans named) with
      ⟨-, hshort, -⟩ | ⟨-, -, e, hrun⟩ | ⟨hcovered, -⟩
    · exact absurd covers hshort
    · rw [hrun, net_recipient]
      exact ⟨e, rfl⟩
    · exact absurd hlacks (hcovered bears.1).2
  | @noted fee v e placed away vault found unnoted unread differs =>
    have hqueued : ∀ p : Outbound, p.inbound = o.inbound →
        (enqueue p >>= fun _ => pure true : Action Bool) s = (.error e, Payout.noted v s) := by
      intro p hinbound
      rw [Action.bind_run, enqueue_noted (hinbound ▸ found) unnoted, append_run, atHeight_noted,
        unread]
    have hchain : ¬ (net o fee).chain.isHome = true := by
      rw [net_chain, away]
      exact Bool.false_ne_true
    refine ⟨e, ?_⟩
    rw [schedule_run placed]
    unfold place
    rw [if_neg hchain]
    by_cases hnamed : (net o fee).vault.isSome = true
    · rw [if_pos hnamed]
      exact hqueued _ (net_inbound o fee)
    · obtain ⟨key, hsigner⟩ := vault.resolve_left (net_vault o fee ▸ hnamed)
      rw [if_neg hnamed, Action.read_bind_run, hsigner]
      exact hqueued { net o fee with vault := some key } (net_inbound o fee)

/-- What is stranded shows in the account of the payer or at the inbound, and never in the
events. -/
theorem shows (h : Strands o least s u) :
    (∃ k, u.get? k ≠ s.get? k) ∧ u.store.events = s.store.events := by
  cases h with
  | @paid fee payer placed home named charged bears other covers lacks =>
    refine ⟨⟨Key.balance (.ofModule payer) o.coin.asset, fun hsame => ?_⟩, events_moved _ _ _ _⟩
    have hleft : (s.moved (.ofModule payer) o.recipient (net o fee).coin).amountAt
        (Key.balance (.ofModule payer) o.coin.asset) = _ :=
      amountAt_moved_source other (net o fee).coin s
    rw [amountAt_congr hsame] at hleft
    have hval := congrArg Amount.val hleft
    rw [Amount.val_minus] at hval
    have hpos : (net o fee).coin.amount.val ≠ 0 := fun hzero =>
      net_ne_zero (placed.fee_lt charged) (Amount.val_inj.1 hzero)
    have hheld : (net o fee).coin.amount.val ≤
        (s.amountAt (Key.balance (.ofModule payer) o.coin.asset)).val := covers
    have hown : (net o fee).coin.asset = o.coin.asset := rfl
    rw [hown] at hval
    omega
  | @noted fee v e placed away vault found unnoted unread differs =>
    refine ⟨⟨Key.attestation v.txId, ?_⟩, LayeredStore.events_assign _ _ _⟩
    rw [Payout.noted, get?_putRecord, if_pos rfl]
    exact differs.symm

end Strands

/-- An outbound that fails leaves every record and the events as they were, unless it strands a
payment or a note, and then it leaves just that. -/
theorem schedule_failed_iff (hs : s.Filed) {r : Except Failure Bool}
    (h : schedule o least s = (r, t)) (hr : r ≠ .ok true) :
    t.store.events = s.store.events ∧
      ((∀ k, t.get? k = s.get? k) ↔ ¬ ∃ u, Strands o least s u) ∧
      ∀ u, Strands o least s u → t = u := by
  have hleft : ∀ u, Strands o least s u → t = u := by
    intro u hu
    obtain ⟨e, hrun⟩ := hu.run hs
    rw [h] at hrun
    exact congrArg Prod.snd hrun
  have hshown : SameShown s t ∨ Strands o least s t := by
    rcases schedule_cases h with ⟨rfl, -⟩ | ⟨fee, hplaced⟩
    · exact .inl ⟨fun _ => rfl, rfl⟩
    · rw [schedule_run hplaced] at h
      cases hhome : o.chain.isHome with
      | true => exact place_home_failed hs hplaced hhome h hr
      | false => exact place_away_failed hplaced hhome h hr
  refine ⟨?_, ⟨fun hsame hstrands => ?_, fun hnone => ?_⟩, hleft⟩
  · rcases hshown with hsame | hstrands
    · exact hsame.2
    · exact hstrands.shows.2
  · obtain ⟨u, hu⟩ := hstrands
    obtain ⟨k, hk⟩ := hu.shows.1
    exact hk (hleft u hu ▸ hsame k)
  · rcases hshown with hsame | hstrands
    · exact hsame.1
    · exact absurd ⟨t, hstrands⟩ hnone

/-! The pools owe a RUNE that they hold but for the fee. -/

def shortLedger : Ledger :=
  (Ledger.empty (.ofEnvironment .mocknet) 1).putRecord
    (Key.balance (.ofModule Module.asgard) .rune) (.amount ⟨99000000, by decide⟩)

def owedRune : Outbound := Outbound.make .thor ⟨"thor1dest"⟩ ⟨.rune, oneRune⟩ .blank

theorem filed_shortLedger : shortLedger.Filed :=
  (filed_empty (.ofEnvironment .mocknet) 1).putRecord (r := .amount ⟨99000000, by decide⟩)
    ⟨.balances, by decide, by simp⟩

theorem owedRune_strands :
    ∃ e t, schedule owedRune 0 shortLedger = (.error e, t) ∧
      (¬ ∀ k, t.get? k = shortLedger.get? k) ∧ t.balancesOf .rune ⟨"thor1dest"⟩ = 98000000 := by
  have hfailed : (schedule owedRune 0 shortLedger).1.isOk = false := by decide +kernel
  have hpaid : (schedule owedRune 0 shortLedger).2.balancesOf .rune ⟨"thor1dest"⟩ = 98000000 := by
    decide +kernel
  have hcharged : (charge (withMemo owedRune) shortLedger).toOption =
      some ⟨2000000, by decide⟩ := by decide +kernel
  rcases hrun : schedule owedRune 0 shortLedger with ⟨e | b, t⟩ <;> rw [hrun] at hfailed hpaid
  · obtain ⟨-, hsame, -⟩ := schedule_failed_iff filed_shortLedger hrun nofun
    have hplaced : IsPlaced owedRune 0 ⟨2000000, by decide⟩ shortLedger :=
      ⟨eq_ok_of_toOption hcharged, fun _ => by decide, by decide⟩
    have hbears : BearsFee Module.asgard owedRune.coin.asset :=
      ⟨by decide, .inl ⟨by decide +kernel, by decide⟩⟩
    have hstrands := Strands.paid hplaced rfl rfl (by decide) hbears (by decide)
      (by decide +kernel) (by decide +kernel)
    exact ⟨e, t, rfl, fun h => hsame.1 h ⟨_, hstrands⟩, hpaid⟩
  · cases hfailed

end Payout

end LiquidityNet
