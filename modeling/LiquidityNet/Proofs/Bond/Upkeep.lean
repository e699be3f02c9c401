import LiquidityNet.Proofs.Bond.Backing

/-!
# The operations on bonds keep them backed

Deposits, withdrawals, rewards and the rounds of ragnarok, in any order and whatever becomes of
each. What is stored was brought in line with the bond that is stored with it. Loops go over nodes
that were listed before; of those only the operator has to be up to date.
-/

namespace LiquidityNet

open LiquidityNet.Action Ledger

variable {ns : List Node} {s : Ledger} {n : Node} {ps : Providers}

namespace Bond

/-! ## Deposits -/

def DepositFits (m : BondRequest) (s : Ledger) : Prop :=
  (s.bondAt m.node).val + m.bond.val < 0x10000000000000000

/-- The depositor is the operator of the node or one of the stored providers, if there is a node. -/
def Admits (m : BondRequest) (s : Ledger) : Prop :=
  ∀ n, s.get? (Key.node m.node) = some (.node n) → m.bondAddress = n.operator ∨
    ∃ ps, s.get? (Key.providers n.address) = some (.providers ps) ∧ ps.has m.bondAddress = true

variable {m : BondRequest}

theorem admits_of_validated (h : validateDeposit m s = .ok ()) : Admits m s := by
  intro n hn
  have hadmitted := validateDeposit_eq_ok h (Nodes.find?_eq_ok.2 hn)
  obtain ⟨ps, hps, hoperator | hhas⟩ := admitDeposit_eq_ok hadmitted
  · exact .inl hoperator
  obtain ⟨stored, hstored, -, hlist⟩ := providersOf_eq_ok hps
  by_cases hnil : stored.list = []
  · rw [if_pos hnil] at hlist
    have hmem := Providers.has_iff.1 hhas
    rw [Providers.addresses, hlist] at hmem
    exact .inl (List.mem_singleton.1 hmem)
  · rw [if_neg hnil] at hlist
    rcases Nodes.providersOf_eq_ok.1 hstored with ⟨-, rfl⟩ | hget
    · exact absurd rfl hnil
    · refine .inr ⟨stored, hget, ?_⟩
      rwa [← Providers.has_of_addresses (congrArg (·.map (·.address)) hlist)]

theorem Admits.providers (h : Admits m s) (hs : s.Backed) (hn : nodeFor m s = .ok n)
    (hps : providersOf n s = .ok ps) :
    ps.LedBy n.operator ∧ ps.node = n.address ∧ ps.has m.bondAddress = true := by
  rcases nodeFor_eq_ok hn with hget | ⟨hnone, haddress, hoperator, -⟩
  · have hroster := Nodes.roster_of_find? hs (Nodes.find?_eq_ok.2 hget)
    obtain ⟨hled, hnode⟩ := ledBy_of_roster hroster List.mem_cons_self hps
    refine ⟨hled, hnode, ?_⟩
    rcases h n hget with hoperator | ⟨stored, hstored, hhas⟩
    · exact hoperator ▸ hled.has_operator
    · obtain ⟨stored', hstored', -, hlist⟩ := providersOf_eq_ok hps
      obtain rfl : stored' = stored :=
        Except.ok.inj (hstored'.symm.trans (Nodes.providersOf_eq_ok.2 (.inr hstored)))
      have hne : stored'.list ≠ [] := by
        intro hnil
        have hmem := Providers.has_iff.1 hhas
        rw [Providers.addresses, hnil] at hmem
        exact absurd hmem List.not_mem_nil
      rw [if_neg hne] at hlist
      rwa [Providers.has_of_addresses (congrArg (·.map (·.address)) hlist)]
  · have hfree : ∀ k, s.get? (Key.node n.address) = some (.node k) → k.operator = n.operator := by
      intro k hk
      rw [haddress, hnone] at hk
      cases hk
    obtain ⟨hled, hnode⟩ := ledBy_of_providersOf hs hfree hps
    exact ⟨hled, hnode, hoperator ▸ hled.has_operator⟩

structure Ready (m : BondRequest) (s : Ledger) : Prop where
  backed : s.Backed
  fits : DepositFits m s
  admits : Admits m s

theorem Ready.congr {t : Ledger} (h : ∀ k, t.get? k = s.get? k) (hs : Ready m s) : Ready m t where
  backed := hs.backed.congr h
  fits := by simpa only [DepositFits, bondAt, h] using hs.fits
  admits := by simpa only [Admits, h] using hs.admits

theorem Ready.fits_node (hs : Ready m s) (hn : nodeFor m s = .ok n) :
    n.bond.val + m.bond.val < 0x10000000000000000 := by
  rcases nodeFor_eq_ok hn with hget | ⟨-, -, -, hbond⟩
  · have hfits := hs.fits
    rwa [DepositFits, bondAt, hget] at hfits
  · rw [hbond, Amount.val_zero]
    exact (Nat.zero_add m.bond.val).symm ▸ m.bond.isLt

theorem enterDeposit_leads (m : BondRequest) :
    (enterDeposit m).Leads (Ready m) (fun _ => Roster []) (Roster []) := by
  have hpast : ∀ s, Ready m s → Roster [] s := fun _ hs => hs.backed.roster
  refine .readThen hpast fun n => .readThen (fun s hs => hpast s hs.1) fun ps => ?_
  refine .computeThen (fun s hs => hpast s hs.1.1) fun qs hqs => ?_
  refine .known (p := (afterDeposit m n.operator qs).Backs { n with bond := n.bond.plus m.bond } ∧
    (afterDeposit m n.operator qs).node = n.address) ?_ ?_
  · rintro s ⟨⟨hs, hn⟩, hps⟩
    obtain ⟨hled, hnode, hhas⟩ := hs.admits.providers hs.backed hn hps
    obtain ⟨hsame, haddresses, -⟩ := Providers.aligned_spec hqs
    rw [← Providers.has_of_addresses haddresses] at hhas
    refine ⟨afterDeposit_backs (hled.aligned hqs) hhas (hs.fits_node hn), ?_⟩
    rw [afterDeposit_node, hsame, hnode]
  · rintro ⟨hbacks, hnode⟩
    have hsaved : (Nodes.saveWith { n with bond := n.bond.plus m.bond }
        (afterDeposit m n.operator qs)).Keeps (Roster []) :=
      Nodes.saveWith_keeps hnode hbacks fun _ hm => absurd hm List.not_mem_nil
    refine .bind (hsaved.restrict fun s hs => hpast s hs.1.1) ?_
    intro _
    refine Roster.apart [.balances] ?_ (by decide) (by decide)
    refine .ite (fun _ => ?_) fun _ => .emit _
    exact (Bank.moveModule_confined _ _ _).bind fun _ => .emit _

/-- A deposit that fits leaves every bond backed, whatever becomes of it. -/
theorem deposit_leads (m : BondRequest) :
    (deposit m).Leads (fun s => s.Backed ∧ DepositFits m s) (fun _ => Roster []) (Roster []) := by
  refine .readThen (fun _ hs => hs.1.roster) fun _ => ?_
  refine .restrict (P := Ready m) ?_ fun s hs => ⟨hs.1.1, hs.1.2, admits_of_validated hs.2⟩
  exact .transactionally (enterDeposit_confined m) (enterDeposit_leads m)
    (fun s hs => hs.congr s.get?_checkpointed) (fun _ hs => hs.backed.roster)
    fun _ _ _ h hs => hs.congr h

/-! ## Withdrawals -/

theorem enterPayment_keeps {provider : Address} {paid : Amount} (hn : n ∈ ns) (hbacks : ps.Backs n)
    (hnode : ps.node = n.address) (hpaid : paid ≤ ps.bondOf provider) :
    (enterPayment provider paid ps n).Keeps (Roster ns) := by
  refine .computeThen (fun _ hs => hs) fun rest hrest => .pastRead (fun _ hs => hs) fun height => ?_
  refine .bind (R := fun _ => Roster ns) ?_ fun _ => .pure fun _ hs => hs
  intro s r t hs hrun
  have hafter := settled_backs (hbacks.withdrawn hpaid hrest) height
  refine Nodes.saveWith_keeps ?_ hafter ?_ s r t hs hrun
  · rw [settled_address]
    exact hnode
  · intro m hm h
    rw [settled_address] at h
    rw [settled_operator]
    exact hs.agree (n := n) hm hn h

theorem payBack_keeps {tx : Transaction} {provider : Address} {amount : Amount} (hn : n ∈ ns) :
    (payBack tx provider amount n).Keeps (Roster ns) := by
  have hpast : ∀ s, Roster ns s → Roster ns s := fun _ hs => hs
  refine .ite (fun _ => .pure hpast) fun _ => .readThen hpast fun ps => ?_
  refine .computeThen (fun _ hs => hs.1) fun qs hqs => ?_
  refine .known (p := qs.Backs n ∧ qs.node = n.address) ?_ ?_
  · rintro s ⟨hs, hps⟩
    obtain ⟨hled, hnode⟩ := ledBy_of_roster hs hn hps
    exact ⟨hled.aligned hqs, (Providers.aligned_spec hqs).1.trans hnode⟩
  · rintro ⟨hbacks, hnode⟩
    have hentered : (enterPayment provider (paidOf n.bond amount (qs.bondOf provider)) qs n).Keeps
        (Roster ns) := enterPayment_keeps hn hbacks hnode (paidOf_le _ _ _)
    refine .mono (P := Roster ns) ?_ (fun _ hs => hs.1) (fun _ _ hs => hs) hpast
    refine .ite (fun _ => .bind (R := fun _ => Roster ns) ?_ fun _ => hentered) fun _ => hentered
    exact Roster.apart _ (payProvider_confined _ _ _ _) (by decide) (by decide)

/-- Only a provider without bond goes, so that the others still put up the whole bond. -/
theorem dismiss_keeps (node provider : Address) : (dismiss node provider).Keeps (Roster ns) := by
  have hpast : ∀ s, Roster ns s → Roster ns s := fun _ hs => hs
  refine .readThen hpast fun ps => ?_
  refine .ite (fun _ => ?_) fun _ => .pure fun _ hs => hs.1
  cases hremoved : ps.remove? provider with
  | none => exact .pure fun _ hs => hs.1
  | some qs =>
    rintro s r t ⟨hs, hps⟩ hrun
    cases hrun
    obtain ⟨hnode, -, -, -⟩ := Providers.remove?_spec hremoved
    have hnil : ps.list ≠ [] := by
      intro hnil
      rw [Providers.remove?, hnil] at hremoved
      cases hremoved
    rcases Nodes.providersOf_eq_ok.1 hps with ⟨-, rfl⟩ | hget
    · exact absurd rfl hnil
    obtain ⟨n, hn, hbacks⟩ := hs.backed.bonds _ _ hget
    have hnodeKey : node = n.address := Key.node_inj (hs.backed.nodes _ _ hn)
    have hprovidersKey : node = ps.node := Key.providers_inj (hs.backed.providers _ _ hget)
    subst hnodeKey
    have hqs : qs.node = n.address := hnode.trans hprovidersKey.symm
    have hother : ∀ k, k ≠ Key.providers n.address →
        (s.putRecord (Key.providers qs.node) (.providers qs)).get? k = s.get? k := by
      intro k hk
      rw [get?_putRecord, if_neg (hqs ▸ hk)]
    constructor
    · refine hs.backed.replaced ((hother _ (Key.node_ne_providers _ _)).trans hn) ?_
        (fun k _ hk => hother k hk) hqs (.inr ((hbacks.resolve_left hnil).removed hremoved))
      exact (get?_putRecord _ _ _ _).trans (if_pos (hqs ▸ rfl))
    · intro m hm
      obtain ⟨m', hm', hop⟩ := hs.operated m hm
      exact ⟨m', (hother _ (Key.node_ne_providers _ _)).trans hm', hop⟩

theorem enterWithdrawal_leads (m : UnbondRequest) (n : Node) :
    (enterWithdrawal m n).Leads (Roster [n]) (fun _ => Roster []) (Roster []) := by
  obtain ⟨haddress, hoperator, -⟩ := toppedUp_same m.tx n
  refine .bind (R := fun _ => Roster []) ?_ fun _ => ?_
  · have hpaid : (payBack m.tx (payee m n) m.amount (toppedUp m.tx n)).Keeps
        (Roster [toppedUp m.tx n]) := payBack_keeps List.mem_cons_self
    refine hpaid.mono ?_ ?_ ?_
    · exact fun s hs => hs.of_same List.mem_cons_self haddress hoperator
    · exact fun _ s hs => hs.backed.roster
    · exact fun s hs => hs.backed.roster
  · exact .ite (fun _ => dismiss_keeps _ _) fun _ => .pure fun _ hs => hs

theorem validateWithdrawal_leads (m : UnbondRequest) :
    (validateWithdrawal m).Leads Ledger.Backed (fun n => Roster [n]) (Roster []) := by
  refine .readThen (fun _ hs => hs.roster) fun n => ?_
  refine .restrict (P := Roster [n]) ?_ ?_
  · refine .pastRead (fun _ hs => hs.backed.roster) fun ygg => .ite (fun _ => ?_) fun _ => ?_
    · have hrequest : (Recall.request n).Keeps (Roster []) :=
        Roster.apart _ (Recall.request_confined n) (by decide) (by decide)
      refine .restrict (P := Roster []) ?_ fun _ hs => hs.backed.roster
      exact hrequest.bind fun _ => .refuse fun _ hs => hs
    · exact .pure fun _ hs => hs
  · rintro s ⟨hs, hadmitted⟩
    exact Nodes.roster_of_find? hs (admitWithdrawal_eq_ok hadmitted).1

theorem withdraw_leads (m : UnbondRequest) :
    (withdraw m).Leads Ledger.Backed (fun _ => Roster []) (Roster []) := by
  refine .bind (validateWithdrawal_leads m) fun n => ?_
  exact .transactionally (enterWithdrawal_confined m n) (enterWithdrawal_leads m n)
    (fun s hs => hs.congr s.get?_checkpointed) (fun _ hs => hs.backed.roster)
    fun _ _ _ h hs => hs.congr h

/-! ## Rewards -/

theorem enterReward_keeps {reward operatorBond : Amount} (hn : n ∈ ns) (hled : ps.LedBy n.operator)
    (hnode : ps.node = n.address) : (enterReward n reward ps operatorBond).Keeps (Roster ns) := by
  refine .computeThen (fun _ hs => hs) fun after hafter => ?_
  have hbacks : after.Backs { n with bond := n.bond.plus reward } :=
    Providers.LedBy.aligned (n := { n with bond := n.bond.plus reward }) hled hafter
  have hsame : after.node = ps.node := (Providers.aligned_spec hafter).1
  refine .computeThen (fun _ hs => hs) fun rest hrest => ?_
  refine .bind (R := fun _ => Roster ns) ?_ fun _ => .pure fun _ hs => hs
  intro s r t hs hrun
  have hfee : min (Share.within after.operatorFee basisPoints reward)
      ((after.bondOf n.operator).minus operatorBond) ≤ after.bondOf n.operator := by
    rw [Amount.le_def, Amount.val_min, Amount.val_minus]
    omega
  refine Nodes.saveWith_keeps (n := { n with bond := rest }) ?_ (hbacks.withdrawn hfee hrest) ?_
    s r t hs hrun
  · exact hsame.trans hnode
  · exact fun m hm h => hs.agree (n := n) hm hn h

theorem payReward_keeps {r : RewardRound} {t : Network} (hn : n ∈ ns) :
    (payReward r t n).Keeps (Roster ns) := by
  have hpast : ∀ s, Roster ns s → Roster ns s := fun _ hs => hs
  refine .ite (fun _ => .pure hpast) fun _ => .pastRead hpast fun _ => .pastRead hpast fun _ => ?_
  refine .computeThen hpast fun service _ => .readThen hpast fun ps => ?_
  refine .computeThen (fun _ hs => hs.1) fun before hbefore => ?_
  refine .known (p := before.LedBy n.operator ∧ before.node = n.address) ?_ ?_
  · rintro s ⟨hs, hps⟩
    obtain ⟨hled, hnode⟩ := ledBy_of_roster hs hn hps
    exact ⟨(hled.aligned hbefore).toLedBy, (Providers.aligned_spec hbefore).1.trans hnode⟩
  · rintro ⟨hled, hnode⟩
    refine .mono (P := Roster ns) ?_ (fun _ hs => hs.1) (fun _ _ hs => hs) hpast
    split
    · have hslash := Nodes.setSlashPoints_confined n.address service.slashLeft
      refine .bind (Roster.apart _ hslash (by decide) (by decide)) ?_
      refine fun _ => (enterReward_keeps hn hled hnode).bind fun fee => ?_
      refine Roster.apart [.balances] ?_ (by decide) (by decide)
      exact (Confined.emit _).bind fun _ => (payFee_confined n fee).bind fun _ => .pure _
    · exact .refuse hpast

theorem payNode_keeps {r : RewardRound} (hn : n ∈ ns) : (payNode r n).Keeps (Roster ns) :=
  payNode_keeps_of (fun _ => payReward_keeps hn)
    (fun t => Roster.apart _ (NetworkState.save_confined t) (by decide) (by decide))
    fun _ _ h hs => hs.congr h

theorem payRewards_keeps : payRewards.Keeps (Roster []) := by
  refine .readThen (fun _ hs => hs) fun active => .computeThen (fun _ hs => hs.1) fun round _ => ?_
  refine Roster.forget ?_ fun s hs => Nodes.roster_of_filter hs.1.backed hs.2
  exact .pastRead (fun _ hs => hs) fun _ => .forM fun n hn => payNode_keeps hn

end Bond

/-! ## Ragnarok -/

namespace Ragnarok

theorem enterReturn_keeps {amount : Amount} (hn : n ∈ ns) :
    (enterReturn n amount).Keeps (Roster ns) := by
  refine .bind (Roster.apart _ countPayout_confined (by decide) (by decide)) fun _ => ?_
  refine .readThen (fun _ hs => hs) fun ps => .computeThen (fun _ hs => hs.1) fun rest _ => ?_
  refine .computeThen (fun _ hs => hs.1) fun qs hqs => ?_
  refine .bind (R := fun _ => Roster ns) ?_ fun _ => ?_
  · rintro s r t ⟨hs, hps⟩ hrun
    obtain ⟨hled, hnode⟩ := Bond.ledBy_of_roster hs hn hps
    have hbacks : qs.Backs { n with bond := rest } :=
      Providers.LedBy.aligned (n := { n with bond := rest }) hled hqs
    refine Nodes.saveWith_keeps (n := { n with bond := rest }) ?_ hbacks ?_ s r t hs hrun
    · exact (Providers.aligned_spec hqs).1.trans hnode
    · exact fun m hm h => hs.agree (n := n) hm hn h
  · exact Roster.apart [] (.emit _) (by decide) (by decide)

theorem returnBond_keeps {tenths : Amount} (hn : n ∈ ns) :
    (returnBond tenths n).Keeps (Roster ns) := by
  have hpast : ∀ s, Roster ns s → Roster ns s := fun _ hs => hs
  refine .pastRead hpast fun _ => .ite (fun _ => .pure hpast) fun _ => ?_
  refine .ite (fun _ => .pure hpast) fun _ => .pastRead hpast fun height => ?_
  refine .bind (R := fun _ => Roster ns) ?_ fun scheduled => ?_
  · exact Roster.apart _ (Payout.schedule_confined _ _).attempt (by decide) (by decide)
  · split
    · exact enterReturn_keeps hn
    · exact .pure hpast
    · exact enterReturn_keeps hn
    · exact .refuse hpast

theorem returnBonds_keeps (round : Signed) : (returnBonds round).Keeps (Roster []) := by
  refine .computeThen (fun _ hs => hs) fun tenths _ => .ite (fun _ => .pure fun _ hs => hs) ?_
  refine fun _ => .readThen (fun _ hs => hs) fun bonded => ?_
  refine Roster.forget (.forM fun n hn => returnBond_keeps hn) ?_
  rintro s ⟨hs, hbonded⟩
  exact Nodes.roster_of_filter hs.backed hbonded

theorem nextRound_keeps (t : Network) : (nextRound t).Keeps (Roster []) := by
  refine .computeThen (fun _ hs => hs) fun round _ => .bind (R := fun _ => Roster []) ?_ fun _ => ?_
  · exact Roster.apart _ (NetworkState.save_confined _) (by decide) (by decide)
  have hcheckpoint := (returnBonds_keeps round).transactionally (returnBonds_confined round)
    fun _ _ h hs => hs.congr h
  refine hcheckpoint.attempt.bind (f := fun _ => stagePools) fun x => ?_
  refine .restrict (P := Roster []) ?_ fun s hs => ?_
  · exact Roster.apart _ stagePools_confined (by decide) (by decide)
  · cases x <;> exact hs

theorem start_keeps (t : Network) : (start t).Keeps (Roster []) := by
  refine .pastRead (fun _ hs => hs) fun height => .bind (R := fun _ => Roster []) ?_ fun _ => ?_
  · exact Roster.apart _ (NetworkState.save_confined _) (by decide) (by decide)
  refine .bind (R := fun _ => Roster []) ?_ fun _ => Bond.payRewards_keeps
  exact Roster.apart _ Recall.requestAll_confined (by decide) (by decide)

theorem tick_keeps : tick.Keeps (Roster []) := by
  have hpast : ∀ s, Roster [] s → Roster [] s := fun _ hs => hs
  refine .pastRead hpast fun t => .ite (fun _ => start_keeps t) fun _ => .ite (fun _ => ?_) fun _ => ?_
  · exact .pastRead hpast fun _ => .ite (fun _ => .pure hpast) fun _ => nextRound_keeps _
  · exact nextRound_keeps t

end Ragnarok

/-! ## Runs -/

namespace Bond

/-- What changes bonds, and the passing of blocks in between. -/
inductive Operation where
  | deposit (m : BondRequest)
  | withdraw (m : UnbondRequest)
  | payRewards
  | ragnarok
  | advance (height : Height)

namespace Operation

def perform : Operation → Action Unit
  | deposit m => Bond.deposit m
  | withdraw m => Bond.withdraw m
  | payRewards => Bond.payRewards
  | ragnarok => Ragnarok.tick
  | advance height => setHeight height

/-- The only sum that has to fit is that of a deposit and the bond of its node. -/
def Fits (s : Ledger) : Operation → Prop
  | deposit m => DepositFits m s
  | _ => True

/-- One operation after the other, each on what the one before made of the ledger, whether it
succeeded or not. -/
def run : List Operation → Ledger → Ledger
  | [], s => s
  | op :: ops, s => run ops (op.perform s).2

def RunFits : List Operation → Ledger → Prop
  | [], _ => True
  | op :: ops, s => op.Fits s ∧ RunFits ops (op.perform s).2

instance (s : Ledger) : (op : Operation) → Decidable (op.Fits s)
  | deposit _ => Nat.decLt _ _
  | withdraw _ | payRewards | ragnarok | advance _ => .isTrue trivial

instance decidableRunFits : (ops : List Operation) → (s : Ledger) → Decidable (RunFits ops s)
  | [], _ => .isTrue trivial
  | op :: ops, s => @instDecidableAnd _ _ _ (decidableRunFits ops (op.perform s).2)

theorem perform_backed {op : Operation} (hs : s.Backed) (hfits : op.Fits s) :
    (op.perform s).2.Backed := by
  have hend : ∀ {P : Ledger → Prop} {body : Action Unit},
      body.Leads P (fun _ => Roster []) (Roster []) → P s → (body s).2.Backed := by
    intro P body hbody hP
    rcases hrun : body s with ⟨r, t⟩
    have ht := hbody s r t hP hrun
    cases r <;> exact ht.backed
  cases op with
  | deposit m => exact hend (deposit_leads m) ⟨hs, hfits⟩
  | withdraw m => exact hend (withdraw_leads m) hs
  | payRewards => exact hend payRewards_keeps hs.roster
  | ragnarok => exact hend Ragnarok.tick_keeps hs.roster
  | advance height =>
    have hsight : ∀ k, ((advance height).perform s).2.get? k = s.get? k := fun _ => rfl
    exact hs.congr hsight

/-- Operations on bonds leave every bond backed, in any order and whatever becomes of each. -/
theorem run_backed {ops : List Operation} (hs : s.Backed) (hfits : RunFits ops s) :
    (run ops s).Backed := by
  induction ops generalizing s with
  | nil => exact hs
  | cons op ops ih => exact ih (perform_backed hs hfits.1) hfits.2

/-! ### A node with a second provider -/

def partner : Address := ⟨"thor1partner"⟩

/-- The operator admits a partner, who deposits and gets a part back. -/
def keeperOperations : List Operation :=
  [.deposit ⟨keeperTx, keeper.address, 1, keeper.operator, some partner, none, keeper.operator⟩,
    .deposit ⟨keeperTx, keeper.address, ⟨0x100000000, by decide⟩, partner, none, none, partner⟩,
    .advance (.clamp 2),
    .withdraw ⟨keeperTx, keeper.address, ⟨0x10000000, by decide⟩, partner, none, partner⟩,
    .ragnarok]

theorem keeper_stays_backed :
    keeperLedger.Backed ∧ RunFits keeperOperations keeperLedger ∧
      (run keeperOperations keeperLedger).Backed ∧
      ((run keeperOperations keeperLedger).bondAt keeper.address).val = 12616466433 := by
  have hfits : RunFits keeperOperations keeperLedger := by decide +kernel
  exact ⟨keeperLedger_backed, hfits, run_backed keeperLedger_backed hfits, by decide +kernel⟩

end Operation

end Bond

end LiquidityNet
