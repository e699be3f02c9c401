import LiquidityNet.Proofs.Bank.Conservation
import LiquidityNet.Proofs.Bond.Solvency

/-!
# Who may withdraw a bond

A withdrawal is admitted by the bond address that the request names: it has to be the operator's or
that of a provider on record. Who sent the transaction is never looked at, so that a stranger's
request does what the operator's own would. Its RUNE goes to the operator and the providers on
record all the same, apart from the fee, which goes to the reserve.
-/

namespace LiquidityNet

open Ledger

/-! ## Accounts that gain RUNE -/

/-- No account beyond some holds more RUNE than it held at first. -/
def Ledger.GainOnly (gainers : Address → Prop) (origin s : Ledger) : Prop :=
  ∀ a, ¬ gainers a → s.held a ≤ origin.held a

variable {gainers : Address → Prop} {origin s t : Ledger} {Ts : List Table} {x : Amount}

theorem Ledger.GainOnly.of_changes (h : GainOnly gainers origin s) (hchanges : Changes Ts s t)
    (hTs : .balances ∉ Ts) : GainOnly gainers origin t := by
  intro a ha
  rw [held_of_changes hchanges hTs]
  exact h a ha

theorem Action.Confined.keepsGainOnly {α : Type} {body : Action α} (h : body.Confined Ts)
    (hTs : .balances ∉ Ts) : body.Keeps (GainOnly gainers origin) :=
  Leads.of_confined h fun _ _ hchanges hs => hs.of_changes hchanges hTs

namespace Bank

variable {source target : Address}

theorem setBalance_ok {owner : Address} {a : Asset} {r : Except Failure Unit}
    (h : setBalance owner a x s = (r, t)) : r = .ok () := by
  rw [setBalance, record_run] at h
  cases h
  rfl

/-- The account that pays holds less, and the account that is paid may gain. -/
theorem transferCoin_gainOnly (htarget : gainers target) :
    (transferCoin source target ⟨.rune, x⟩).Keeps (GainOnly gainers origin) := by
  unfold transferCoin
  simp only [Action.refuse_bind]
  refine .readThen (fun _ hs => hs) fun before => .ite (fun _ => .refuse fun _ hs => hs.1) fun _ => ?_
  refine .bind (R := fun _ => GainOnly gainers origin) ?_ fun _ => ?_
  · rintro s r t ⟨hs, hbefore⟩ hrun
    obtain rfl := setBalance_ok hrun
    intro a ha
    rw [setBalance_held hrun]
    split
    · rename_i hsource
      have hle := hs a ha
      rw [hsource, held_of_balance hbefore] at hle
      rw [Amount.val_minus, hsource]
      omega
    · exact hs a ha
  · refine .pastRead (fun _ hs => hs) fun there => ?_
    intro s r t hs hrun
    obtain rfl := setBalance_ok hrun
    intro a ha
    have hother : a ≠ target := by
      rintro rfl
      exact ha htarget
    rw [setBalance_held hrun, if_neg hother]
    exact hs a ha

theorem transfer_gainOnly (htarget : gainers target) :
    (transfer source target [⟨.rune, x⟩]).Keeps (GainOnly gainers origin) :=
  .forM fun c hc => by
    obtain rfl := List.mem_singleton.1 hc
    exact transferCoin_gainOnly htarget

end Bank

namespace Payout

variable {o : Outbound} {fee : Amount}

theorem collectFee_gainOnly {payer : String} (hreserve : gainers (.ofModule Module.reserve)) :
    (collectFee payer .rune fee).Keeps (GainOnly gainers origin) := by
  unfold collectFee
  refine .ite (fun _ => .pure fun _ hs => hs) fun _ => ?_
  rw [if_pos (by decide)]
  exact .ite (fun _ => Bank.transfer_gainOnly hreserve) fun _ => .pure fun _ hs => hs

theorem collected_gainOnly {payer : String} (hreserve : gainers (.ofModule Module.reserve))
    (e : Event) : (do
      if fee ≠ 0 then collectFee payer .rune fee
      Ledger.emit e : Action Unit).Keeps (GainOnly gainers origin) := by
  have hemit : (Ledger.emit e).Keeps (GainOnly gainers origin) :=
    (show Action.Confined [] (Ledger.emit e) from .emit e).keepsGainOnly List.not_mem_nil
  exact .ite (fun _ => .bind (collectFee_gainOnly hreserve) fun _ => hemit) fun _ => hemit

/-- A payout in RUNE from the account of the bonds enriches its recipient and the reserve. -/
theorem schedule_gainOnly {least : Amount} (hhome : o.chain.isHome = true)
    (hpayer : o.payer = some Module.bond) (hrune : o.coin.asset = .rune)
    (hrecipient : gainers o.recipient) (hreserve : gainers (.ofModule Module.reserve)) :
    (schedule o least).Keeps (GainOnly gainers origin) := by
  unfold schedule
  simp only [Action.refuse_bind, withMemo_coin]
  refine .pastRead (fun _ hs => hs) fun fee => .ite (fun _ => .refuse fun _ hs => hs) fun _ => ?_
  refine .ite (fun _ => .refuse fun _ hs => hs) fun _ => ?_
  unfold place
  rw [if_pos (withMemo_chain o ▸ hhome)]
  refine .bind (R := fun _ => GainOnly gainers origin) ?_ fun _ => .pure fun _ hs => hs
  unfold settle
  simp only [withMemo_payer, withMemo_recipient, hpayer, hrune, Option.getD_some]
  rw [if_neg (by decide)]
  refine .ite (fun _ => ?_) fun _ => ?_
  · exact .bind (Bank.transfer_gainOnly hreserve) fun _ => collected_gainOnly hreserve _
  · exact .bind (Bank.transfer_gainOnly hrecipient) fun _ => collected_gainOnly hreserve _

end Payout

/-! ## Withdrawals -/

/-- The same request in a transaction of another sender. -/
def UnbondRequest.sentBy (m : UnbondRequest) (sender : Address) : UnbondRequest :=
  { m with tx := { m.tx with sender } }

namespace Bond

variable {n : Node} {ps qs : Providers} {m : UnbondRequest}

/-- The operator of a node or one of the providers on record. -/
def IsRecognised (n : Node) (ps : Providers) (a : Address) : Prop := a = n.operator ∨ ps.has a = true

instance (a : Address) : Decidable (IsRecognised n ps a) := inferInstanceAs (Decidable (_ ∨ _))

theorem admitWithdrawal_recognised (h : admitWithdrawal m s = .ok n) :
    ∃ ps, Nodes.providersOf m.node s = .ok ps ∧ IsRecognised n ps m.bondAddress :=
  (withdrawable_of_admitted h).recognised

/-- Whoever has a share of the bond is on record, and is the operator where nobody is. -/
theorem share_recognised {stored : Providers} {a : Address}
    (hstored : Nodes.providersOf n.address s = .ok stored) (hps : providersOf n s = .ok ps)
    (hqs : ps.aligned n.bond = .ok qs) (hshare : qs.bondOf a ≠ 0) : IsRecognised n stored a := by
  have hhas : qs.has a = true := by
    unfold Providers.bondOf at hshare
    unfold Providers.has
    cases hfind : qs.find? a with
    | none =>
      rw [hfind] at hshare
      exact absurd rfl hshare
    | some p => rfl
  rw [Providers.has_of_addresses (Providers.aligned_spec hqs).2.1, Providers.has_iff] at hhas
  obtain ⟨stored', hread, -, hlist⟩ := providersOf_eq_ok hps
  cases hstored.symm.trans hread
  unfold Providers.addresses at hhas
  rw [hlist] at hhas
  split at hhas
  · exact .inl (List.mem_singleton.1 hhas)
  · exact .inr (Providers.has_iff.2 hhas)

/-- Only whoever has a share is paid. -/
theorem payBack_gainOnly {stored : Providers} {tx : Transaction} {provider : Address}
    {amount : Amount} (hreserve : gainers (.ofModule Module.reserve))
    (hrecognised : ∀ a, IsRecognised n stored a → gainers a) :
    (payBack tx provider amount n).Leads
      (fun s => GainOnly gainers origin s ∧ Nodes.providersOf n.address s = .ok stored)
      (fun _ => GainOnly gainers origin) (GainOnly gainers origin) := by
  unfold payBack
  refine .ite (fun _ => .pure fun _ hs => hs.1) fun _ => ?_
  refine .readThen (fun _ hs => hs.1) fun ps => .computeThen (fun _ hs => hs.1.1) fun qs hqs => ?_
  have hentered : ∀ paid, (enterPayment provider paid qs n).Keeps (GainOnly gainers origin) :=
    fun paid => (enterPayment_confined provider paid qs n).keepsGainOnly (by decide)
  refine .ite (fun hshare => ?_) fun _ => (hentered _).restrict fun _ hs => hs.1.1
  refine .known (p := IsRecognised n stored provider) ?_ fun hprovider => ?_
  · rintro s ⟨⟨-, hstored⟩, hps⟩
    exact share_recognised hstored hps hqs hshare
  · refine .bind (R := fun _ => GainOnly gainers origin) ?_ fun _ => hentered _
    refine .restrict ?_ fun s hs => hs.1.1
    unfold payProvider
    refine .bind (R := fun _ => GainOnly gainers origin)
      (Payout.schedule_gainOnly rfl rfl rfl (hrecognised _ hprovider) hreserve).attempt fun r => ?_
    have hemit : ∀ e, (Ledger.emit e).Keeps (GainOnly gainers origin) := fun e =>
      (show Action.Confined [] (Ledger.emit e) from .emit e).keepsGainOnly List.not_mem_nil
    rcases r with e | (_ | _)
    · exact .bind (.refuse fun _ hs => hs) fun _ => hemit _
    · exact .bind (.refuse fun _ hs => hs) fun _ => hemit _
    · exact .bind (.pure fun _ hs => hs) fun _ => hemit _

theorem enterWithdrawal_gainOnly (hreserve : gainers (.ofModule Module.reserve))
    (hrecognised : ∀ a, IsRecognised n ps a → gainers a) :
    (enterWithdrawal m n).Leads
      (fun s => GainOnly gainers origin s ∧ Nodes.providersOf n.address s = .ok ps)
      (fun _ => GainOnly gainers origin) (GainOnly gainers origin) := by
  obtain ⟨haddress, hoperator, -⟩ := toppedUp_same m.tx n
  have hpaid : (payBack m.tx (payee m n) m.amount (toppedUp m.tx n)).Leads
      (fun s => GainOnly gainers origin s ∧
        Nodes.providersOf (toppedUp m.tx n).address s = .ok ps)
      (fun _ => GainOnly gainers origin) (GainOnly gainers origin) :=
    payBack_gainOnly hreserve fun a ha => hrecognised a (by rwa [IsRecognised, hoperator] at ha)
  rw [haddress] at hpaid
  refine .bind hpaid fun _ => .ite (fun _ => ?_) fun _ => .pure fun _ hs => hs
  exact (dismiss_confined _ _).keepsGainOnly (by decide)

/-- A withdrawal that succeeds names the operator or a provider on record, whoever sent it: from any
other sender it does the same. Only they and the reserve hold more RUNE afterwards. -/
theorem withdrawal_authority (h : withdraw m s = (.ok (), t)) :
    ∃ n ps, Nodes.find? m.node s = .ok (some n) ∧ Nodes.providersOf m.node s = .ok ps ∧
      IsRecognised n ps m.bondAddress ∧
      (∀ sender, withdraw (m.sentBy sender) s = (.ok (), t)) ∧
      (n.address = m.node → ∀ a, s.held a < t.held a →
        IsRecognised n ps a ∨ a = .ofModule Module.reserve) := by
  obtain ⟨n, u, hvalidated, hrun⟩ := Action.bind_eq_ok.1 h
  obtain ⟨hadmitted, rfl⟩ := validateWithdrawal_eq_ok hvalidated
  obtain ⟨ps, hps, hnamed⟩ := admitWithdrawal_recognised hadmitted
  refine ⟨n, ps, (admitWithdrawal_eq_ok hadmitted).1, hps, hnamed, fun sender => h, ?_⟩
  intro hnode a hgain
  by_contra hnot
  obtain ⟨v, hentered, hcommit⟩ := transactionally_ok (enterWithdrawal_confined m n) hrun
  let gainers : Address → Prop := fun a => IsRecognised n ps a ∨ a = .ofModule Module.reserve
  have hgained : (enterWithdrawal m n).Leads
      (fun s => GainOnly gainers u s ∧ Nodes.providersOf n.address s = .ok ps)
      (fun _ => GainOnly gainers u) (GainOnly gainers u) :=
    enterWithdrawal_gainOnly (.inr rfl) fun _ ha => .inl ha
  have hopen : Nodes.providersOf n.address u.checkpointed = .ok ps := by
    rw [hnode]
    exact (Query.Steady.fetchD _ _ u).trans hps
  have hbefore : GainOnly gainers u u.checkpointed := fun a _ => (held_congr (get?_checkpointed u) a).le
  have hafter := hgained _ _ _ ⟨hbefore, hopen⟩ hentered
  have hle := hafter a hnot
  rw [← held_congr hcommit.get? a] at hle
  omega

/-- A stranger asks for the bond of the keeper's operator. -/
def strangersRequest : UnbondRequest where
  tx := { keeperTx with sender := ⟨"thor1stranger"⟩ }
  node := keeper.address
  amount := keeperTopUp.amount
  bondAddress := keeper.operator
  provider := none
  signer := ⟨"thor1stranger"⟩

theorem stranger_withdraws :
    ¬ IsRecognised keeper keeperProviders strangersRequest.tx.sender ∧
      ∃ t, withdraw strangersRequest keeperLedger = (.ok (), t) ∧
        withdraw (strangersRequest.sentBy keeper.operator) keeperLedger = (.ok (), t) ∧
        IsRecognised keeper keeperProviders strangersRequest.bondAddress ∧
        ∀ a, keeperLedger.held a < t.held a →
          IsRecognised keeper keeperProviders a ∨ a = .ofModule Module.reserve := by
  have hok : (withdraw strangersRequest keeperLedger).1.isOk = true := by decide +kernel
  have hpair : ∀ p : Except Failure Unit × Ledger, p.1.isOk = true → p = (.ok (), p.2) := by
    rintro ⟨e | _, t⟩ hp
    · cases hp
    · rfl
  have hrun := hpair _ hok
  obtain ⟨n, ps, hn, hps, hnamed, hsame, hgain⟩ := withdrawal_authority hrun
  have hkeeper : Nodes.find? strangersRequest.node keeperLedger = .ok (some keeper) :=
    Nodes.find?_eq_ok.2 (by decide +kernel)
  have hproviders : Nodes.providersOf strangersRequest.node keeperLedger = .ok keeperProviders :=
    fetchD_eq_ok.2 (.inr ⟨.providers keeperProviders, by decide +kernel, rfl⟩)
  cases hkeeper.symm.trans hn
  cases hproviders.symm.trans hps
  exact ⟨by decide +kernel, _, hrun, hsame keeper.operator, hnamed, hgain rfl⟩

end Bond

end LiquidityNet
