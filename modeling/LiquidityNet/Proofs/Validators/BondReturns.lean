import LiquidityNet.Proofs.Bond.Payouts
import LiquidityNet.Proofs.Ledger.Settlement
import LiquidityNet.Proofs.Ledger.Traces
import LiquidityNet.Proofs.Validators.Completion

/-!
# Bonds that are returned

A round of ragnarok returns some tenths of every bond, rounded down, to the operator of the node. No
fee is taken, since the memo bears none, and nothing is queued, since bonds are held on the home
chain. The round leaves a node alone while its yggdrasil vault is funded, and where its part of the
bond comes to nothing.
-/

namespace LiquidityNet

open LiquidityNet.Action Ledger

/-! ## A payout without a fee -/

theorem Memo.bearsFee_ragnarok (height : Height) :
    Memo.bearsFee (Memo.ragnarok height) = false := by
  have hstart : Text.beginsWith Memo.ragnarokStart (Memo.ragnarok height) = true := by
    rw [Text.beginsWith_iff, Memo.ragnarok, String.toList_append]
    exact List.prefix_append _ _
  rw [Memo.bearsFee, hstart, Bool.or_true]
  rfl

theorem Memo.ragnarok_ne_empty (height : Height) : Memo.ragnarok height ≠ "" := by
  intro h
  have hlist := congrArg String.toList h
  rw [Memo.ragnarok, String.toList_append] at hlist
  exact absurd (List.append_eq_nil_iff.1 hlist).1 (by decide)

/-- A payout on the home chain whose memo bears no fee moves its coin, and nothing else. -/
theorem Payout.schedule_free {s : Ledger} {o : Outbound} {payer : String} (hs : s.ReadsAmounts)
    (hhome : o.chain.isHome = true) (hmemo : Memo.bearsFee (withMemo o).memo = false)
    (hpayer : o.payer.getD Module.asgard = payer) (hminted : payer ≠ Module.thorchain)
    (hcovers : s.Covers (.ofModule payer) o.coin) :
    ∃ t, schedule o 0 s = (.ok true, t) ∧ Changes [.balances] s t ∧
      ∀ k, t.get? k = (s.moved (.ofModule payer) o.recipient o.coin).get? k := by
  have hplaced : IsPlaced o 0 0 s := by
    refine ⟨?_, fun hne => absurd rfl hne, Nat.zero_le _⟩
    unfold charge
    rw [hmemo]
    rfl
  have hpaid : Bank.transfer (.ofModule payer) o.recipient [o.coin] s =
      (.ok (), s.moved (.ofModule payer) o.recipient o.coin) := by
    rw [Bank.transfer_singleton_run hs, if_pos hcovers]
  obtain ⟨t, hsettled, hchanges, hmoved⟩ : ∃ t, settle (net o 0) 0 s = (.ok (), t) ∧
      Changes [.balances] s t ∧
      ∀ k, t.get? k = (s.moved (.ofModule payer) o.recipient o.coin).get? k := by
    have hcoin : (net o 0).coin = o.coin := rfl
    rw [settle_eq, net_payer, hpayer, hcoin, net_recipient, mintFor, if_neg hminted, pure_bind,
      Action.bind_run, hpaid]
    exact ⟨_, rfl, ((Bank.transfer_confined _ _ _).changes hpaid).trans (changes_emit _),
      fun k => LayeredStore.get?_emit _ _ k⟩
  refine ⟨t, ?_, hchanges, hmoved⟩
  rw [schedule_run hplaced]
  unfold place
  rw [net_chain, if_pos hhome, Action.bind_run, hsettled]
  rfl

/-! ## Records that can be read -/

theorem NetworkState.get_ok {s : Ledger} (hs : s.Filed) : ∃ x, NetworkState.get s = .ok x := by
  rcases hget : s.get? Key.network with _ | r
  · exact ⟨_, fetchD_eq_ok.2 (.inl ⟨hget, rfl⟩)⟩
  · obtain ⟨x, rfl⟩ := (hs _ r hget).network Table.ofKey?_network
    exact ⟨x, fetchD_eq_ok.2 (.inr ⟨_, hget, rfl⟩)⟩

theorem Nodes.providersOf_ok {s : Ledger} (hs : s.Filed) (a : Address) :
    ∃ ps, providersOf a s = .ok ps := by
  rcases hget : s.get? (Key.providers a) with _ | r
  · exact ⟨_, providersOf_eq_ok.2 (.inl ⟨hget, rfl⟩)⟩
  · obtain ⟨ps, rfl, -⟩ := (hs _ r hget).providers (Table.ofKey?_providers a)
    exact ⟨ps, providersOf_eq_ok.2 (.inr hget)⟩

theorem Nodes.saveWith_run {n : Node} (hn : n.validate = .ok ()) (ps : Providers) (s : Ledger) :
    saveWith n ps s = (.ok (), (s.putRecord (Key.node n.address) (.node n)).putRecord
      (Key.providers ps.node) (.providers ps)) := by
  unfold saveWith
  rw [Action.bind_run, save_run hn]
  rfl

theorem Bond.backedBy_list {n : Node} {ps : Providers} {fee : Amount} :
    (backedBy fee n ps).list ≠ [] := by
  unfold backedBy
  split
  · assumption
  · exact List.cons_ne_nil _ _

namespace Ragnarok

variable {s t u : Ledger} {n : Node} {ns : List Node} {amount : Amount}

/-- The return of a part of a bond is counted, and leaves the rest of it to the providers. -/
theorem enterReturn_run (hs : s.Filed) (hvalid : n.validate = .ok ()) (hfit : s.ProvidersFit)
    (hturns : HasTurns 1 s) (hamount : amount ≤ n.bond) :
    ∃ t x pending ps, enterReturn n amount s = (.ok (), t) ∧ NetworkState.get s = .ok x ∧
      ps.node = n.address ∧ ps.bonds + amount.val = n.bond.val ∧
      ∀ k, t.get? k = (((s.putRecord Key.network
        (.network { x with ragnarokPending := pending })).putRecord (Key.node n.address)
          (.node { n with bond := n.bond.minus amount })).putRecord (Key.providers n.address)
            (.providers ps)).get? k := by
  obtain ⟨x, hx⟩ := NetworkState.get_ok hs
  obtain ⟨pending, hpending⟩ : ∃ pending, x.ragnarokPending.add 1 = .ok pending := by
    have hroom := hturns x hx
    have hlower := x.ragnarokPending.lower
    exact Signed.add_ok (by rw [Signed.val_one]; omega) (by rw [Signed.val_one]; omega)
  have hcounted : countPayout s = (.ok (), s.putRecord Key.network
      (.network { x with ragnarokPending := pending })) :=
    Action.read_bind_eq_ok.2 ⟨x, hx, Action.compute_bind_eq_ok.2 ⟨pending, hpending, rfl⟩⟩
  have hu : (s.putRecord Key.network (.network { x with ragnarokPending := pending })).Filed :=
    hs.putRecord rfl
  have hfit' := hfit.of_changes (countPayout_confined.changes hcounted) (by decide)
  obtain ⟨stored, hstored⟩ := Nodes.providersOf_ok hu n.address
  obtain ⟨fee, -, hbacked⟩ := Bond.backfilled_run n stored _
  have hps := Query.bind_eq_ok.2 ⟨stored, hstored, hbacked⟩
  obtain ⟨ps, haligned⟩ :=
    Providers.aligned_ok (Bond.providersOf_fit hfit' hps) (n.bond.minus amount)
  obtain ⟨hnode, -, hwhole⟩ := Providers.aligned_spec haligned
  have hkey : ps.node = n.address := hnode.trans (Bond.providersOf_node hu hps)
  have hle := Amount.le_def.1 hamount
  have hrest : n.bond.sub amount = .ok (n.bond.minus amount) := by
    rw [Amount.sub_eq_ok_iff, Amount.val_minus]
    omega
  have hsaved := fun u =>
    Nodes.saveWith_run (n := { n with bond := n.bond.minus amount }) hvalid ps u
  refine ⟨_, x, pending, ps, Action.bind_eq_ok.2 ⟨(), _, hcounted, Action.read_bind_eq_ok.2
    ⟨_, hps, Action.compute_bind_eq_ok.2 ⟨_, hrest, Action.compute_bind_eq_ok.2
      ⟨ps, haligned, Action.bind_eq_ok.2 ⟨(), _, hsaved _, emit_run _ _⟩⟩⟩⟩⟩, hx, hkey, ?_,
    fun k => ?_⟩
  · rw [hwhole Bond.backedBy_list, Amount.val_minus]
    omega
  · rw [← hkey]
    exact LayeredStore.get?_emit _ _ _

/-! ## What is owed -/

/-- Whether the yggdrasil vault of a node holds funds. -/
def awaitsFunds (s : Ledger) (n : Node) : Bool :=
  match Vaults.yggdrasilOf n s with
  | .ok v => v.any Vault.hasFunds
  | .error _ => false

/-- What a round that returns some tenths owes to the operator of a node. -/
def owed (tenths : Nat) (s : Ledger) (n : Node) : Nat :=
  if awaitsFunds s n then 0 else n.bond.val * tenths / 10

/-- What a round owes to the operators of some nodes together. -/
def owedFor (tenths : Nat) (s : Ledger) (ns : List Node) : Nat :=
  ns.foldr (fun n rest => owed tenths s n + rest) 0

/-- A node once it has been returned what is owed. -/
def relieved (tenths : Nat) (s : Ledger) (n : Node) : Node :=
  { n with bond := .cap (n.bond.val - owed tenths s n) }

variable {tenths : Nat}

theorem awaitsFunds_of_read {v : Option Vault} (h : Vaults.yggdrasilOf n s = .ok v) :
    awaitsFunds s n = v.any Vault.hasFunds := by
  unfold awaitsFunds
  rw [h]

theorem yggdrasilOf_congr (h : ∀ k, t.get? (Key.vault k) = s.get? (Key.vault k)) (n : Node) :
    Vaults.yggdrasilOf n t = Vaults.yggdrasilOf n s := by
  unfold Vaults.yggdrasilOf
  cases n.vaultKey with
  | none => rfl
  | some k =>
    dsimp only
    rw [Query.bind_run, Query.bind_run, Vaults.find?, fetch?_congr (h k)]
    cases (fetch? (Key.vault k) s : Except Failure (Option Vault)) <;> rfl

theorem owed_congr (h : ∀ k, t.get? (Key.vault k) = s.get? (Key.vault k)) :
    owed tenths t = owed tenths s := by
  funext n
  unfold owed awaitsFunds
  rw [yggdrasilOf_congr h]

theorem owed_le (h : tenths ≤ 10) (s : Ledger) (n : Node) : owed tenths s n ≤ n.bond.val := by
  unfold owed
  split
  · exact Nat.zero_le _
  · have hproduct : n.bond.val * tenths ≤ n.bond.val * 10 := Nat.mul_le_mul_left _ h
    omega

theorem relieved_congr (h : ∀ k, t.get? (Key.vault k) = s.get? (Key.vault k)) :
    relieved tenths t = relieved tenths s := by
  funext n
  unfold relieved
  rw [owed_congr h]

theorem relieved_bond (h : tenths ≤ 10) (s : Ledger) (n : Node) :
    (relieved tenths s n).bond.val + owed tenths s n = n.bond.val := by
  have hle := owed_le h s n
  have hlimit := n.bond.isLt
  show min (n.bond.val - owed tenths s n) _ + _ = _
  omega

theorem relieved_of_owed (h : owed tenths s n = 0) : relieved tenths s n = n := by
  unfold relieved
  rw [h, Nat.sub_zero, Amount.cap_val]

/-- What a round leaves of some nodes and pays out. Those that nothing is owed to keep all their
records, as do nodes that the round is not about. -/
structure Returns (tenths : Nat) (ns : List Node) (s t : Ledger) : Prop where
  changes : Changes [.nodes, .providers, .network, .balances] s t
  nodes : ∀ n ∈ ns, t.get? (Key.node n.address) = some (.node (relieved tenths s n))
  shares : ∀ n ∈ ns, owed tenths s n ≠ 0 → ∃ ps,
    t.get? (Key.providers n.address) = some (.providers ps) ∧
      ps.bonds = (relieved tenths s n).bond.val
  spared : ∀ a, (∀ n ∈ ns, n.address = a → owed tenths s n = 0) → SameAt a s t
  people : ∀ q ∉ Module.accounts, t.balancesOf .rune q =
    s.balancesOf .rune q + owedFor tenths s (ns.filter (·.operator = q))
  account : t.balancesOf .rune bondAccount + owedFor tenths s ns = s.balancesOf .rune bondAccount
  totals : ∀ x, NetworkState.get s = .ok x → ∃ pending,
    NetworkState.get t = .ok { x with ragnarokPending := pending }

theorem owedFor_cons (tenths : Nat) (s : Ledger) (n : Node) (ns : List Node) :
    owedFor tenths s (n :: ns) = owed tenths s n + owedFor tenths s ns := rfl

theorem owedFor_append (tenths : Nat) (s : Ledger) (ns ms : List Node) :
    owedFor tenths s (ns ++ ms) = owedFor tenths s ns + owedFor tenths s ms := by
  induction ns with
  | nil => exact (Nat.zero_add _).symm
  | cons n ns ih => rw [List.cons_append, owedFor_cons, owedFor_cons, ih, Nat.add_assoc]

theorem owedFor_singleton (tenths : Nat) (s : Ledger) (n : Node) :
    owedFor tenths s [n] = owed tenths s n := Nat.add_zero _

theorem owedFor_eq_zero (h : ∀ n ∈ ns, owed tenths s n = 0) : owedFor tenths s ns = 0 := by
  induction ns with
  | nil => rfl
  | cons n ns ih =>
    rw [owedFor_cons, h n List.mem_cons_self, ih fun m hm => h m (List.mem_cons_of_mem n hm)]

/-- Nodes that nothing is owed to add nothing. -/
theorem owedFor_of_zero {p : Node → Bool} (h : ∀ n ∈ ns, p n = false → owed tenths s n = 0) :
    owedFor tenths s (ns.filter p) = owedFor tenths s ns := by
  induction ns with
  | nil => rfl
  | cons n ns ih =>
    have htail := ih fun m hm => h m (List.mem_cons_of_mem n hm)
    cases hp : p n with
    | true => rw [List.filter_cons_of_pos hp, owedFor_cons, owedFor_cons, htail]
    | false =>
      rw [List.filter_cons_of_neg (by rw [hp]; exact nofun), htail, owedFor_cons,
        h n List.mem_cons_self hp, Nat.zero_add]

theorem owedFor_filter_le (p : Node → Bool) (ns : List Node) :
    owedFor tenths s (ns.filter p) ≤ owedFor tenths s ns := by
  induction ns with
  | nil => exact Nat.le_refl _
  | cons n ns ih =>
    rw [List.filter_cons, owedFor_cons]
    split
    · exact Nat.add_le_add_left ih _
    · exact Nat.le_add_left_of_le ih

theorem Returns.none (h : ∀ n ∈ ns, s.Stores n ∧ owed tenths s n = 0) : Returns tenths ns s s where
  changes := .refl _ s
  nodes := fun n hn => by
    rw [relieved_of_owed (h n hn).2]
    exact (h n hn).1
  shares := fun n hn hne => absurd (h n hn).2 hne
  spared := fun a _ => .refl a s
  people := fun q _ => by
    rw [owedFor_eq_zero fun n hn => (h n (List.mem_filter.1 hn).1).2, Nat.add_zero]
  account := by rw [owedFor_eq_zero fun n hn => (h n hn).2, Nat.add_zero]
  totals := fun x hx => ⟨x.ragnarokPending, hx⟩

theorem Returns.vault_eq (h : Returns tenths ns s t) (k : PublicKey) :
    t.get? (Key.vault k) = s.get? (Key.vault k) :=
  h.changes.get?_eq (Table.ofKey?_vault k) (by decide)

theorem Returns.owed_eq (h : Returns tenths ns s t) : owed tenths t = owed tenths s :=
  owed_congr h.vault_eq

theorem Returns.owedFor_eq (h : Returns tenths ns s t) : owedFor tenths t = owedFor tenths s := by
  funext ms
  unfold owedFor
  rw [h.owed_eq]

theorem Returns.append {ms : List Node} (hfirst : Returns tenths ns s u)
    (hrest : Returns tenths ms u t) (hapart : ∀ n ∈ ns, ∀ m ∈ ms, n.address ≠ m.address) :
    Returns tenths (ns ++ ms) s t := by
  have howed := hfirst.owed_eq
  have howedFor := hfirst.owedFor_eq
  have hrelieved : relieved tenths u = relieved tenths s := relieved_congr hfirst.vault_eq
  have hkept : ∀ n ∈ ns, SameAt n.address u t := fun n hn =>
    hrest.spared n.address fun m hm heq => absurd heq.symm (hapart n hn m hm)
  refine ⟨hfirst.changes.trans hrest.changes, fun n hn => ?_, fun n hn hne => ?_, fun a ha => ?_,
    fun q hq => ?_, ?_, fun x hx => ?_⟩
  · rcases List.mem_append.1 hn with hn | hn
    · rw [(hkept n hn).node]
      exact hfirst.nodes n hn
    · rw [← hrelieved]
      exact hrest.nodes n hn
  · rcases List.mem_append.1 hn with hn | hn
    · rw [(hkept n hn).providers]
      exact hfirst.shares n hn hne
    · rw [← hrelieved]
      exact hrest.shares n hn (howed ▸ hne)
  · refine (hfirst.spared a fun n hn => ha n (List.mem_append_left _ hn)).trans
      (hrest.spared a fun n hn heq => ?_)
    rw [howed]
    exact ha n (List.mem_append_right _ hn) heq
  · rw [hrest.people q hq, hfirst.people q hq, howedFor, List.filter_append, owedFor_append,
      Nat.add_assoc]
  · rw [← hfirst.account, ← hrest.account, howedFor, owedFor_append]
    omega
  · obtain ⟨pending, hy⟩ := hfirst.totals x hx
    obtain ⟨pending, hz⟩ := hrest.totals _ hy
    exact ⟨pending, hz⟩

/-! ## One node -/

/-- Nodes that are stored under different addresses, as a ledger lists them. -/
structure Listed (ns : List Node) (s : Ledger) : Prop where
  filed : s.Filed
  stored : ∀ n ∈ ns, s.Stores n
  valid : ∀ n ∈ ns, n.validate = .ok ()
  distinct : ns.Pairwise fun m n => m.address ≠ n.address

/-- What a round is due for: people operate the nodes, the records that it reads can be read, the
module of bonds holds what is owed, and the accounts it is paid to have room for it. -/
structure Due (tenths : Nat) (ns : List Node) (s : Ledger) : Prop extends Returning ns s where
  persons : ∀ n ∈ ns, n.operator ∉ Module.accounts
  vaults : ∀ n ∈ ns, ∃ v, Vaults.yggdrasilOf n s = .ok v
  covered : owedFor tenths s ns ≤ s.balancesOf .rune bondAccount
  room : ∀ q ∉ Module.accounts,
    s.balancesOf .rune q + owedFor tenths s (ns.filter (·.operator = q)) < 0x10000000000000000

theorem truncated_val {bond tenths : Amount} (h : tenths.val ≤ 10) :
    (Share.truncated bond tenths ⟨10, by decide⟩).val = bond.val * tenths.val / 10 := by
  have hle : Share.truncated bond tenths _ ≤ bond := truncated_le h
  have hlimit := bond.isLt
  have hproduct : bond.val * tenths.val ≤ bond.val * 10 := Nat.mul_le_mul_left _ h
  show min (bond.val * tenths.val / 10) _ = _
  omega

theorem enterReturn_spares {a : Address} (hne : n.address ≠ a) (amount : Amount) :
    (enterReturn n amount).Keeps (Bond.Spares a s) := by
  have hpast : ∀ u, Bond.Spares a s u → Bond.Spares a s u := fun _ hs => hs
  have hcounted : countPayout.Keeps (Bond.Spares a s) :=
    Bond.Spares.of_confined countPayout_confined (by decide)
  refine hcounted.bind fun _ => .readFact (p := fun ps => ps.node = n.address) hpast
    (fun u ps hu hps => Bond.providersOf_node hu.1 hps) fun ps hps => ?_
  refine .computeThen hpast fun rest _ => .computeThen hpast fun qs hqs => ?_
  refine (Bond.saveWith_spares (n := { n with bond := rest }) hne ?_).bind fun _ => ?_
  · exact (Providers.aligned_spec hqs).1.trans hps
  · have hemitted : Confined [] (emit (.bond amount .cost .blank n.address n.operator)) := .emit _
    exact Bond.Spares.of_confined hemitted (by decide)

theorem returnBond_idle {tenths : Amount} (htenths : tenths.val ≤ 10) {v : Option Vault}
    (hv : Vaults.yggdrasilOf n s = .ok v) (howed : owed tenths.val s n = 0) :
    returnBond tenths n s = (.ok (), s) := by
  unfold returnBond
  rw [Action.read_bind_run, hv]
  dsimp only
  by_cases hfunds : v.any Vault.hasFunds = true
  · rw [if_pos hfunds]
    rfl
  · rw [if_neg hfunds]
    have hzero : Share.truncated n.bond tenths ⟨10, by decide⟩ = 0 := by
      rw [owed, awaitsFunds_of_read hv, if_neg hfunds] at howed
      exact Amount.val_inj.1 ((truncated_val htenths).trans howed)
    rw [if_pos hzero]
    rfl

theorem bearsFee_payoutOf (height : Height) (n : Node) (amount : Amount) :
    Memo.bearsFee (Payout.withMemo (payoutOf height n amount)).memo = false := by
  have hmemo : Payout.withMemo (payoutOf height n amount) = payoutOf height n amount :=
    if_neg (Memo.ragnarok_ne_empty height)
  rw [hmemo]
  exact Memo.bearsFee_ragnarok height

/-- What is moved to the operator is what is owed, in full. -/
theorem Due.moved (hdue : Due tenths [n] s) (hamount : amount.val = owed tenths s n) :
    (∀ q ∉ Module.accounts, (s.moved bondAccount n.operator ⟨.rune, amount⟩).balancesOf .rune q =
      s.balancesOf .rune q + owedFor tenths s ([n].filter (·.operator = q))) ∧
    (s.moved bondAccount n.operator ⟨.rune, amount⟩).balancesOf .rune bondAccount +
      owedFor tenths s [n] = s.balancesOf .rune bondAccount := by
  have hother : bondAccount ≠ n.operator := fun h =>
    hdue.persons n List.mem_cons_self (h ▸ (by decide : bondAccount ∈ Module.accounts))
  have hmoved : ∀ q, (s.moved bondAccount n.operator ⟨.rune, amount⟩).balancesOf .rune q = _ :=
    fun q => congrArg Amount.val (amountAt_moved hother ⟨.rune, amount⟩ s q)
  refine ⟨fun q hq => ?_, ?_⟩
  · have hnebond : q ≠ bondAccount := fun h => hq (h ▸ (by decide : bondAccount ∈ Module.accounts))
    have hroom := hdue.room q hq
    rw [hmoved]
    by_cases hoperator : n.operator = q
    · have hfilter : [n].filter (·.operator = q) = [n] := by
        rw [List.filter_cons_of_pos (by simpa using hoperator), List.filter_nil]
      rw [hfilter, owedFor_singleton, ← hamount] at hroom ⊢
      rw [if_pos hoperator.symm, Amount.val_plus, hoperator]
      unfold balancesOf at hroom ⊢
      dsimp only
      omega
    · have hfilter : [n].filter (·.operator = q) = [] := by
        rw [List.filter_cons_of_neg (by simpa using hoperator), List.filter_nil]
      rw [hfilter, if_neg (Ne.symm hoperator), if_neg hnebond]
      rfl
  · have hcovered := hdue.covered
    rw [owedFor_singleton, ← hamount] at hcovered
    rw [hmoved, if_neg hother, if_pos rfl, Amount.val_minus, owedFor_singleton, ← hamount]
    exact Nat.sub_add_cancel hcovered

/-- What is owed to a node is paid and entered. -/
theorem returnBond_paid {tenths : Amount} (htenths : tenths.val ≤ 10) (hs : Listed [n] s)
    (hdue : Due tenths.val [n] s) (howed : owed tenths.val s n ≠ 0) :
    ∃ t, returnBond tenths n s = (.ok (), t) ∧ Returns tenths.val [n] s t := by
  obtain ⟨v, hv⟩ := hdue.vaults n List.mem_cons_self
  have hfunds : ¬ v.any Vault.hasFunds = true := fun h => howed (by
    rw [owed, awaitsFunds_of_read hv, if_pos h])
  obtain ⟨amount, hamount⟩ : ∃ amount, amount = Share.truncated n.bond tenths ⟨10, by decide⟩ :=
    ⟨_, rfl⟩
  have hval : amount.val = owed tenths.val s n := by
    rw [hamount, truncated_val htenths, owed, awaitsFunds_of_read hv, if_neg hfunds]
  have hzero : amount ≠ 0 := fun h => howed (by rw [← hval, h]; rfl)
  have hcovers : s.Covers (.ofModule Module.bond) ⟨.rune, amount⟩ := by
    have hcovered := hdue.covered
    rw [owedFor_singleton, ← hval] at hcovered
    exact hcovered
  have hpayer : (payoutOf s.height n amount).payer.getD Module.asgard = Module.bond := rfl
  obtain ⟨u, hpaid, hbalances, hmoved⟩ := Payout.schedule_free hs.filed.readsAmounts rfl
    (bearsFee_payoutOf _ _ _) hpayer (by decide) hcovers
  have hu : u.Filed := hbalances.filed hs.filed
  have hle : amount ≤ n.bond := hamount ▸ truncated_le htenths
  have hpending := hdue.toReturning.of_changes hbalances (by decide) (by decide)
  obtain ⟨t, x, pending, ps, hentered, hx, hnode, hbonds, hshown⟩ :=
    enterReturn_run hu (hs.valid n List.mem_cons_self) hpending.providers hpending.turns hle
  have hrecords := (enterReturn_confined n amount).changes hentered
  have hrest : n.bond.minus amount = (relieved tenths.val s n).bond := by
    rw [← Amount.val_inj, Amount.val_minus, hval]
    have hsum := relieved_bond htenths s n
    omega
  have hprovided : t.get? (Key.providers n.address) = some (.providers ps) := by
    rw [hshown, get?_putRecord, if_pos rfl]
  have hstored : t.get? (Key.node n.address) = some (.node (relieved tenths.val s n)) := by
    rw [hshown, get?_putRecord, if_neg (Key.node_ne_providers _ _), get?_putRecord, if_pos rfl,
      hrest]
    rfl
  have hamounts : ∀ q, t.balancesOf .rune q =
      (s.moved bondAccount n.operator ⟨.rune, amount⟩).balancesOf .rune q := by
    intro q
    have hsame : t.get? (Key.balance q .rune) = u.get? (Key.balance q .rune) :=
      hrecords.get?_eq (Table.ofKey?_balance _ _) (by decide)
    exact congrArg Amount.val (amountAt_congr (hsame.trans (hmoved _)))
  obtain ⟨hpeople, haccount⟩ := hdue.moved hval
  refine ⟨t, ?_, (hbalances.mono (by decide)).trans (hrecords.mono (by decide)), ?_, ?_, ?_, ?_,
    ?_, ?_⟩
  · unfold returnBond
    rw [Action.read_bind_run, hv]
    dsimp only
    rw [if_neg hfunds, ← hamount, if_neg hzero]
    show (liftM currentHeight >>= _ : Action Unit) s = _
    rw [Action.read_bind_run]
    dsimp only [currentHeight_run]
    rw [Action.bind_run, Action.attempt_eq_ok.2 (.inl ⟨true, rfl, hpaid⟩)]
    exact hentered
  · intro m hm
    obtain rfl := List.mem_singleton.1 hm
    exact hstored
  · intro m hm _
    obtain rfl := List.mem_singleton.1 hm
    refine ⟨ps, hprovided, ?_⟩
    rw [← hrest, Amount.val_minus]
    omega
  · intro a ha
    have hne : n.address ≠ a := fun h => howed (ha n List.mem_cons_self h)
    exact (SameAt.of_changes hbalances (by decide)).trans
      (enterReturn_spares hne amount u _ t ⟨hu, .refl a u⟩ hentered).2
  · intro q hq
    rw [hamounts]
    exact hpeople q hq
  · rw [hamounts]
    exact haccount
  · intro y hy
    have hsame : NetworkState.get u = .ok y := by
      rw [get_congr (hbalances.get?_eq Table.ofKey?_network (by decide))]
      exact hy
    obtain rfl := Except.ok.inj (hx.symm.trans hsame)
    refine ⟨pending, fetchD_eq_ok.2 (.inr ⟨.network { x with ragnarokPending := pending }, ?_,
      rfl⟩)⟩
    rw [hshown, get?_putRecord, if_neg, get?_putRecord, if_neg, get?_putRecord, if_pos rfl]
    · exact Key.apart_of_ofKey? Table.ofKey?_network (Table.ofKey?_node _) (by decide)
    · exact Key.apart_of_ofKey? Table.ofKey?_network (Table.ofKey?_providers _) (by decide)

/-! ## All nodes -/

theorem returnBond_returns {tenths : Amount} (htenths : tenths.val ≤ 10) (hs : Listed [n] s)
    (hdue : Due tenths.val [n] s) :
    ∃ t, returnBond tenths n s = (.ok (), t) ∧ Returns tenths.val [n] s t := by
  by_cases howed : owed tenths.val s n = 0
  · obtain ⟨v, hv⟩ := hdue.vaults n List.mem_cons_self
    refine ⟨s, returnBond_idle htenths hv howed, .none fun m hm => ?_⟩
    obtain rfl := List.mem_singleton.1 hm
    exact ⟨hs.stored m hm, howed⟩
  · exact returnBond_paid htenths hs hdue howed

theorem Listed.head (hs : Listed (n :: ns) s) : Listed [n] s where
  filed := hs.filed
  stored := fun m hm => hs.stored m (List.mem_singleton.1 hm ▸ List.mem_cons_self)
  valid := fun m hm => hs.valid m (List.mem_singleton.1 hm ▸ List.mem_cons_self)
  distinct := List.pairwise_singleton _ _

theorem Listed.rest (hs : Listed (n :: ns) s) (h : Returns tenths [n] s t) : Listed ns t where
  filed := h.changes.filed hs.filed
  stored := fun m hm => by
    have hnew := (List.pairwise_cons.1 hs.distinct).1 m hm
    have hsame : SameAt m.address s t := h.spared m.address fun k hk heq =>
      absurd heq (List.mem_singleton.1 hk ▸ hnew)
    exact hsame.node.trans (hs.stored m (List.mem_cons_of_mem n hm))
  valid := fun m hm => hs.valid m (List.mem_cons_of_mem n hm)
  distinct := (List.pairwise_cons.1 hs.distinct).2

theorem Due.head (h : Due tenths (n :: ns) s) : Due tenths [n] s where
  providers := h.providers
  turns := fun x hx => by
    have hturns := h.turns x hx
    rw [List.length_cons] at hturns
    rw [List.length_singleton]
    omega
  persons := fun m hm => h.persons m (List.mem_singleton.1 hm ▸ List.mem_cons_self)
  vaults := fun m hm => h.vaults m (List.mem_singleton.1 hm ▸ List.mem_cons_self)
  covered := by
    have hcovered := h.covered
    rw [← List.singleton_append, owedFor_append] at hcovered
    omega
  room := fun q hq => by
    have hroom := h.room q hq
    rw [← List.singleton_append, List.filter_append, owedFor_append] at hroom
    omega

theorem Due.rest (hdue : Due tenths (n :: ns) s) (hleft : Returning ns t)
    (h : Returns tenths [n] s t) : Due tenths ns t where
  toReturning := hleft
  persons := fun m hm => hdue.persons m (List.mem_cons_of_mem n hm)
  vaults := fun m hm => by
    rw [yggdrasilOf_congr h.vault_eq]
    exact hdue.vaults m (List.mem_cons_of_mem n hm)
  covered := by
    have hcovered := hdue.covered
    have haccount := h.account
    rw [← List.singleton_append, owedFor_append] at hcovered
    rw [h.owedFor_eq]
    omega
  room := fun q hq => by
    have hroom := hdue.room q hq
    rw [← List.singleton_append, List.filter_append, owedFor_append] at hroom
    rw [h.owedFor_eq, h.people q hq]
    omega

theorem returnAll_returns {tenths : Amount} (htenths : tenths.val ≤ 10) (hs : Listed ns s)
    (hdue : Due tenths.val ns s) :
    ∃ t, ns.forM (returnBond tenths) s = (.ok (), t) ∧ Returns tenths.val ns s t := by
  induction ns generalizing s with
  | nil => exact ⟨s, rfl, .none fun _ hn => absurd hn List.not_mem_nil⟩
  | cons n ns ih =>
    obtain ⟨u, hfirst, hreturned⟩ := returnBond_returns htenths hs.head hdue.head
    have hleft : Returning ns u :=
      returnBond_returning ns htenths s (.ok ()) u hdue.toReturning hfirst
    obtain ⟨t, hrest, hreturns⟩ := ih (hs.rest hreturned) (hdue.rest hleft hreturned)
    refine ⟨t, Action.bind_eq_ok.2 ⟨(), u, hfirst, hrest⟩, ?_⟩
    refine hreturned.append hreturns fun k hk => ?_
    obtain rfl := List.mem_singleton.1 hk
    exact (List.pairwise_cons.1 hs.distinct).1

/-! ## A round -/

/-- The tenths of every bond that a round returns. -/
def tenthsIn (round : Signed) : Nat := (min (round.val - 10) 10).toNat

theorem tenthsIn_le (round : Signed) : tenthsIn round ≤ 10 := by
  unfold tenthsIn
  omega

theorem tenthsOf_eq {round : Signed} (hround : 0 ≤ round) :
    ∃ tenths, tenthsOf round = .ok tenths ∧ tenths.val = tenthsIn round := by
  obtain ⟨n, hn⟩ := Signed.sub_ok_of_nonneg hround (by decide : 0 ≤ delay)
  refine ⟨_, except_bind_eq_ok.2 ⟨n, hn, rfl⟩, ?_⟩
  have hval : round.val - 10 = n.val := Signed.sub_eq_ok_iff.1 hn
  rw [Amount.val_orZero (by omega), ← hval]
  rfl

theorem Listed.of_all (hs : s.NodesComplete) (hns : Nodes.all s = .ok ns) : Listed ns s where
  filed := hs.filed
  stored := fun _ hn => (Nodes.mem_all hs hns).1 hn
  valid := fun n hn => hs.complete n.address n ((Nodes.mem_all hs hns).1 hn)
  distinct := (Nodes.all_sorted hs hns).imp fun {m n} hlt heq => by
    rw [heq] at hlt
    exact String.lt_irrefl _ hlt

theorem Listed.filter (hs : Listed ns s) (p : Node → Bool) : Listed (ns.filter p) s where
  filed := hs.filed
  stored := fun n hn => hs.stored n (List.mem_filter.1 hn).1
  valid := fun n hn => hs.valid n (List.mem_filter.1 hn).1
  distinct := hs.distinct.filter p

theorem Due.filter (h : Due tenths ns s) (p : Node → Bool) : Due tenths (ns.filter p) s where
  providers := h.providers
  turns := fun x hx => by
    have hturns := h.turns x hx
    have hle := List.length_filter_le p ns
    omega
  persons := fun n hn => h.persons n (List.mem_filter.1 hn).1
  vaults := fun n hn => h.vaults n (List.mem_filter.1 hn).1
  covered := Nat.le_trans (owedFor_filter_le p ns) h.covered
  room := fun q hq => by
    rw [List.filter_comm]
    exact Nat.lt_of_le_of_lt (Nat.add_le_add_left (owedFor_filter_le p _) _) (h.room q hq)

/-- A round may pass over nodes that nothing is owed to. -/
theorem Returns.of_filter {p : Node → Bool} (hs : Listed ns s)
    (hzero : ∀ n ∈ ns, p n = false → owed tenths s n = 0)
    (h : Returns tenths (ns.filter p) s t) : Returns tenths ns s t := by
  have hpassed : ∀ n ∈ ns, owed tenths s n ≠ 0 → n ∈ ns.filter p := by
    intro n hn hne
    refine List.mem_filter.2 ⟨hn, ?_⟩
    by_contra hp
    exact hne (hzero n hn (Bool.eq_false_iff.2 hp))
  refine ⟨h.changes, fun n hn => ?_, fun n hn hne => h.shares n (hpassed n hn hne) hne,
    fun a ha => h.spared a fun n hn => ha n (List.mem_filter.1 hn).1, fun q hq => ?_, ?_, h.totals⟩
  · by_cases howed : owed tenths s n = 0
    · have hsame : SameAt n.address s t := by
        refine h.spared n.address fun k hk heq => ?_
        have hstored := hs.stored k (List.mem_filter.1 hk).1
        rw [Stores, heq, hs.stored n hn] at hstored
        cases hstored
        exact howed
      rw [hsame.node, relieved_of_owed howed]
      exact hs.stored n hn
    · exact h.nodes n (hpassed n hn howed)
  · rw [h.people q hq, List.filter_comm,
      owedFor_of_zero fun n hn => hzero n (List.mem_filter.1 hn).1]
  · rw [← h.account, owedFor_of_zero hzero]

/-- The nodes are listed as before, each with the rest of its bond. -/
theorem Returns.all (hs : s.NodesComplete) (ht : t.NodesComplete) (hns : Nodes.all s = .ok ns)
    (h : Returns tenths ns s t) : Nodes.all t = .ok (ns.map (relieved tenths s)) := by
  obtain ⟨ms, hms⟩ := Nodes.all_ok ht.filed
  rw [hms]
  refine congrArg Except.ok (eq_of_sorted (Nodes.all_sorted ht hms) ?_ fun m => ?_)
  · exact List.pairwise_map.2 (Nodes.all_sorted hs hns)
  · rw [Nodes.mem_all ht hms, List.mem_map]
    constructor
    · intro hm
      by_cases hlisted : ∃ n ∈ ns, n.address = m.address
      · obtain ⟨n, hn, heq⟩ := hlisted
        have hshown := h.nodes n hn
        rw [heq, hm] at hshown
        cases hshown
        exact ⟨n, hn, rfl⟩
      · have hsame : SameAt m.address s t := h.spared m.address fun n hn heq =>
          absurd ⟨n, hn, heq⟩ hlisted
        exact absurd ⟨m, (Nodes.mem_all hs hns).2 (hsame.node.symm.trans hm), rfl⟩ hlisted
    · rintro ⟨n, hn, rfl⟩
      exact h.nodes n hn

theorem owed_of_bondless (h : n.bond = 0) (tenths : Nat) (s : Ledger) : owed tenths s n = 0 := by
  unfold owed
  rw [h, Amount.val_zero, Nat.zero_mul]
  split <;> rfl

theorem returnBonds_returns {round : Signed} (hs : s.NodesComplete) (hns : Nodes.all s = .ok ns)
    (hround : 0 ≤ round) (hdue : Due (tenthsIn round) ns s) :
    ∃ t, returnBonds round s = (.ok (), t) ∧ t.NodesComplete ∧ Returns (tenthsIn round) ns s t := by
  have hlisted := Listed.of_all hs hns
  have hcomplete : ∀ t, returnBonds round s = (.ok (), t) → t.NodesComplete := fun t h =>
    NodesComplete.kept (fun v => returnBonds_viewed (fun _ _ => rfl) round) s _ t hs h
  obtain ⟨tenths, htenths, hval⟩ := tenthsOf_eq hround
  have hle : tenths.val ≤ 10 := hval ▸ tenthsIn_le round
  rw [← hval] at hdue ⊢
  by_cases hnone : tenths = 0
  · have hrun : returnBonds round s = (.ok (), s) := by
      refine Action.compute_bind_eq_ok.2 ⟨tenths, htenths, ?_⟩
      rw [if_pos hnone]
      rfl
    refine ⟨s, hrun, hs, .none fun n hn => ⟨hlisted.stored n hn, ?_⟩⟩
    rw [hnone, owed, Amount.val_zero, Nat.mul_zero]
    split <;> rfl
  · -- Only nodes with a bond are gone through; the others are owed nothing.
    obtain ⟨t, hreturned, hreturns⟩ := returnAll_returns hle (hlisted.filter fun n => n.bond ≠ 0)
      (hdue.filter fun n => n.bond ≠ 0)
    have hrun : returnBonds round s = (.ok (), t) := by
      refine Action.compute_bind_eq_ok.2 ⟨tenths, htenths, ?_⟩
      rw [if_neg hnone]
      exact Action.read_bind_eq_ok.2 ⟨_, Query.bind_eq_ok.2 ⟨ns, hns, rfl⟩, hreturned⟩
    refine ⟨t, hrun, hcomplete t hrun, hreturns.of_filter hlisted fun n _ hbond => ?_⟩
    exact owed_of_bondless (by simpa using hbond) _ _

end Ragnarok

end LiquidityNet
