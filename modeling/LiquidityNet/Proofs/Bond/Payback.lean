import LiquidityNet.Proofs.Bond.Solvency
import LiquidityNet.Proofs.Ledger.Settlement

/-!
# What a withdrawal pays back

A withdrawal is admitted from a node that neither signs nor holds funds, and touches one share of
its bond. The bonds of the providers are brought in line with the node's bond, and what is paid is
taken from both. Nobody else's share changes, no other node is touched, and a provider that the
operator pays out in full leaves the list.
-/

namespace LiquidityNet

open Ledger

variable {s t u : Ledger} {n k : Node}

/-! ## One provider among others -/

namespace Providers

variable {ps qs : Providers} {operator a b : Address}

theorem find?_cons_of_ne {p : Provider} {ps : List Provider} (h : p.address ≠ a) :
    (p :: ps).find? (·.address == a) = ps.find? (·.address == a) :=
  List.find?_cons_of_neg (by simpa using h)

theorem find?_cons_self (p : Provider) (ps : List Provider) :
    (p :: ps).find? (·.address == p.address) = some p :=
  List.find?_cons_of_pos (by simp)

theorem find?_updateFirst (a b : Address) (f : Amount → Amount) (ps : List Provider) :
    (updateFirst a f ps).find? (·.address == b) =
      (ps.find? (·.address == b)).map fun p =>
        if b = a then { p with bond := f p.bond } else p := by
  induction ps with
  | nil => rfl
  | cons p ps ih =>
    unfold updateFirst
    by_cases hb : p.address = b
    · subst hb
      rw [find?_cons_self, Option.map_some]
      split
      · exact find?_cons_self { p with bond := f p.bond } ps
      · exact find?_cons_self p _
    · rw [find?_cons_of_ne hb]
      split
      · rename_i ha
        have hne : b ≠ a := fun h => hb (ha.trans h.symm)
        refine (find?_cons_of_ne (p := { p with bond := f p.bond }) hb).trans ?_
        simp only [if_neg hne, Option.map_id']
      · rw [find?_cons_of_ne hb, ih]

theorem find?_withdraw_of_ne (amount : Amount) (h : b ≠ a) :
    (ps.withdraw amount a).find? b = ps.find? b := by
  refine (find?_updateFirst a b _ ps.list).trans ?_
  simp only [if_neg h, Option.map_id']
  rfl

theorem bondOf_withdraw (amount : Amount) (a : Address) :
    (ps.withdraw amount a).bondOf a = (ps.bondOf a).minus amount := by
  have hfind : (ps.withdraw amount a).find? a =
      (ps.find? a).map fun p => { p with bond := p.bond.minus amount } := by
    refine (find?_updateFirst a a _ ps.list).trans ?_
    simp only [if_pos]
    rfl
  unfold bondOf
  rw [hfind]
  cases ps.find? a with
  | none => exact Amount.ext_iff.2 (Nat.zero_sub _).symm
  | some p => rfl

theorem find?_remove?_of_ne (h : ps.remove? a = some qs) (hb : b ≠ a) :
    qs.find? b = ps.find? b := by
  obtain ⟨first, before, p, after, hps, hqs, -, rfl, -⟩ := remove?_split h
  unfold find?
  rw [hps, hqs, List.find?_append, List.find?_append, find?_cons_of_ne hb.symm]

theorem not_has_of_remove? (hdistinct : ps.addresses.Nodup) (h : ps.remove? a = some qs) :
    qs.has a = false := by
  obtain ⟨first, before, p, after, hps, hqs, -, rfl, -⟩ := remove?_split h
  unfold addresses at hdistinct
  rw [hps, List.map_append, List.map_cons] at hdistinct
  obtain ⟨-, hafter, hapart⟩ := List.nodup_append.1 hdistinct
  rw [Bool.eq_false_iff, ne_eq, has_iff, addresses, hqs, List.map_append, List.mem_append]
  rintro (hbefore | hin)
  · exact hapart _ hbefore _ List.mem_cons_self rfl
  · exact (List.nodup_cons.1 hafter).1 hin

/-- Whoever is on the list behind the operator and has no bond can be removed. -/
theorem LedBy.exists_remove? (h : ps.LedBy operator) (ha : a ≠ operator) (hhas : ps.has a = true)
    (hbond : ps.bondOf a = 0) : ∃ qs, ps.remove? a = some qs := by
  obtain ⟨p, hp⟩ := Option.isSome_iff_exists.1 hhas
  unfold bondOf at hbond
  rw [hp] at hbond
  obtain ⟨node, operatorFee, list⟩ := ps
  have hfirst := h.first
  cases list with
  | nil => cases hfirst
  | cons first others =>
    have hoperator : first.address = operator := Option.some.inj hfirst
    have hothers : others.find? (·.address == a) = some p :=
      (find?_cons_of_ne (hoperator ▸ ha.symm)).symm.trans hp
    have haddress := List.find?_some hothers
    have hremovable : isRemovable a p = true :=
      Bool.and_eq_true_iff.2 ⟨haddress, beq_iff_eq.2 hbond⟩
    have hany : others.any (isRemovable a) = true :=
      List.any_eq_true.2 ⟨p, List.mem_of_find?_eq_some hothers, hremovable⟩
    unfold remove?
    simp only [hany, if_true]
    exact ⟨_, rfl⟩

theorem bondOf_of_not_has (h : ps.has a = false) : ps.bondOf a = 0 := by
  unfold bondOf
  rw [Option.isNone_iff_eq_none.1 (Option.isSome_eq_false_iff.1 h)]

theorem any_bondless_iff :
    ((ps.find? a).any fun p => p.bond = 0) = true ↔ ps.has a = true ∧ ps.bondOf a = 0 := by
  unfold has bondOf
  cases ps.find? a with
  | none => simp
  | some p => simp

end Providers

/-! ## A node that nothing holds back -/

theorem Key.beginsWith_vault (k : PublicKey) : Text.beginsWith vaultStart (vault k) = true :=
  Text.beginsWith_iff.2 ⟨k.text.toList, String.toList_append.symm⟩

/-- A vault is read as it is stored, up to the assets of its coins. -/
theorem Vault.same_of_reread? {v w : Vault} (h : v.reread? = some w) :
    w.kind = v.kind ∧ w.status = v.status ∧ w.members = v.members ∧
      ∀ c ∈ v.coins, ∃ d ∈ w.coins, d.amount = c.amount := by
  obtain ⟨coins, hcoins, rfl⟩ := Option.map_eq_some_iff.1 h
  refine ⟨rfl, rfl, rfl, fun c hc => ?_⟩
  obtain ⟨d, hd, hread⟩ := exists_of_mapM hcoins hc
  obtain ⟨a, -, rfl⟩ := Option.map_eq_some_iff.1 hread
  exact ⟨_, hd, rfl⟩

/-- Who is in none of the asgard vaults that are read is in none of those stored. -/
theorem Vaults.not_member_of_asgards {vs : List Vault} {key : PublicKey} {status : VaultStatus}
    (hs : s.Filed) (hvs : asgards status s = .ok vs) (hnone : ∀ v ∈ vs, v.hasMember key = false)
    {q : String} {v : Vault} (hq : s.get? q = some (.vault v)) (hkind : v.isAsgard = true)
    (hstatus : v.status = status) : key ∉ v.members := by
  obtain ⟨all, hall, hlisted⟩ := Query.bind_eq_ok.1 hvs
  cases hlisted
  have hkey : q = Key.vault v.key := hs _ _ hq
  obtain ⟨w, hw, hread⟩ := mem_of_fetchAll hall (hkey ▸ Key.beginsWith_vault v.key) hq
  obtain ⟨hsameKind, hsameStatus, hsameMembers, -⟩ := Vault.same_of_reread? hread
  have hlisted : (w.isAsgard && decide (w.status = status)) = true := by
    rw [Vault.isAsgard, hsameKind, hsameStatus]
    exact Bool.and_eq_true_iff.2 ⟨hkind, decide_eq_true hstatus⟩
  have hmember := hnone w (List.mem_filter.2 ⟨hw, hlisted⟩)
  rw [Vault.hasMember, hsameMembers] at hmember
  exact fun hin => Bool.eq_false_iff.1 hmember (List.contains_iff_mem.2 hin)

namespace Bond

/-- A node that nothing holds back: it is not active and not in jail, no retiring vault needs it to
sign, and its own vault holds nothing. -/
structure Disengaged (s : Ledger) (n : Node) : Prop where
  idle : n.isActive = false
  free : ∀ j, s.get? (Key.jail n.address) = some (.jail j) → j.holdsAt s.height = false
  apart : ∀ key, n.vaultKey = some key → ∀ q v, s.get? q = some (.vault v) → v.isAsgard = true →
    v.status = .retiring → key ∉ v.members
  empty : ∀ key, n.vaultKey = some key → ∀ v, s.get? (Key.vault key) = some (.vault v) →
    v.isYggdrasil = true → ∀ c ∈ v.coins, c.amount = 0

theorem Withdrawable.address {m : UnbondRequest} (hs : s.Filed) (h : Withdrawable m s n) :
    n.address = m.node := by
  have hkey : Key.node m.node = Key.node n.address := hs _ _ (Nodes.find?_eq_ok.1 h.found)
  exact (Key.node_inj hkey).symm

theorem Withdrawable.disengaged {m : UnbondRequest} {ygg : Option Vault} (hs : s.Filed)
    (h : Withdrawable m s n) (hygg : Vaults.yggdrasilOf n s = .ok ygg)
    (hfunds : ygg.any Vault.hasFunds = false) : Disengaged s n where
  idle := h.idle
  free := by
    intro j hj
    obtain ⟨read, hread, hfree⟩ := h.free
    rw [h.address hs] at hj
    rcases fetchD_eq_ok.1 hread with ⟨hnone, -⟩ | ⟨r, hr, hof⟩
    · rw [hj] at hnone
      cases hnone
    · cases hj.symm.trans hr
      cases hof
      exact hfree
  apart := by
    intro key hkey q v hq hkind hstatus
    obtain ⟨vs, hvs, hnone⟩ := h.apart key hkey
    exact Vaults.not_member_of_asgards hs hvs hnone hq hkind hstatus
  empty := by
    intro key hkey v hv hkind c hc
    unfold Vaults.yggdrasilOf at hygg
    rw [hkey] at hygg
    obtain ⟨found, hfound, hygg⟩ := Query.bind_eq_ok.1 hygg
    cases hygg
    rcases fetch?_eq_ok.1 hfound with ⟨hnone, -⟩ | ⟨r, w, hr, hread, rfl⟩
    · rw [hv] at hnone
      cases hnone
    · cases hv.symm.trans hr
      obtain ⟨hsameKind, -, -, hcoins⟩ := Vault.same_of_reread? hread
      have hygg : w.isYggdrasil = true := by rwa [Vault.isYggdrasil, hsameKind]
      obtain ⟨d, hd, hamount⟩ := hcoins c hc
      rw [Option.filter_some, if_pos hygg, Option.any_some] at hfunds
      have hzero := List.any_eq_false.1 hfunds d hd
      rw [← hamount]
      simpa using hzero

end Bond

/-! ## Where a node and its providers are stored -/

namespace Ledger

variable {ps qs : Providers} {a : Address}

/-- No node but one and no providers but its own are stored in another way. -/
def SameBeside (a : Address) (s t : Ledger) : Prop :=
  ∀ b, b ≠ a → t.get? (Key.node b) = s.get? (Key.node b) ∧
    t.get? (Key.providers b) = s.get? (Key.providers b)

theorem SameBeside.trans (hst : SameBeside a s t) (htu : SameBeside a t u) : SameBeside a s u :=
  fun b hb => ⟨(htu b hb).1.trans (hst b hb).1, (htu b hb).2.trans (hst b hb).2⟩

theorem SameBeside.of_get? (a : Address) (h : ∀ k, t.get? k = s.get? k) : SameBeside a s t :=
  fun _ _ => ⟨h _, h _⟩

theorem SameBeside.of_changes {Ts : List Table} (a : Address) (h : Changes Ts s t)
    (hnodes : .nodes ∉ Ts) (hproviders : .providers ∉ Ts) : SameBeside a s t := fun b _ =>
  ⟨h.get?_eq (Table.ofKey?_node b) hnodes, h.get?_eq (Table.ofKey?_providers b) hproviders⟩

/-- A node is stored beside providers that put up its bond. -/
structure StoresBacked (s : Ledger) (n : Node) (ps : Providers) : Prop where
  node : s.get? (Key.node n.address) = some (.node n)
  providers : s.get? (Key.providers n.address) = some (.providers ps)
  filed : ps.node = n.address
  backs : ps.Backs n

theorem StoresBacked.congr (h : ∀ k, t.get? k = s.get? k) (hs : s.StoresBacked n ps) :
    t.StoresBacked n ps :=
  ⟨(h _).trans hs.node, (h _).trans hs.providers, hs.filed, hs.backs⟩

theorem StoresBacked.replaced (hs : s.StoresBacked n ps) (hnode : qs.node = ps.node)
    (hbacks : qs.Backs n) :
    (s.putRecord (Key.providers qs.node) (.providers qs)).StoresBacked n qs ∧
      SameBeside n.address s (s.putRecord (Key.providers qs.node) (.providers qs)) := by
  have haddress : qs.node = n.address := hnode.trans hs.filed
  rw [haddress]
  refine ⟨⟨?_, ?_, haddress, hbacks⟩, fun b hb => ⟨?_, ?_⟩⟩
  · rw [get?_putRecord, if_neg (Key.node_ne_providers _ _)]
    exact hs.node
  · rw [get?_putRecord, if_pos rfl]
  · rw [get?_putRecord, if_neg (Key.node_ne_providers _ _)]
  · rw [get?_putRecord, if_neg fun hkey => hb (Key.providers_inj hkey)]

end Ledger

theorem Nodes.saveWith_stores {ps : Providers} (hps : ps.node = n.address) (hbacks : ps.Backs n)
    (h : saveWith n ps s = (.ok (), t)) : t.StoresBacked n ps ∧ SameBeside n.address s t := by
  rcases saveWith_cases h with ⟨e, hr, -⟩ | ⟨-, rfl⟩
  · cases hr
  · rw [hps]
    refine ⟨⟨?_, ?_, hps, hbacks⟩, fun b hb => ⟨?_, ?_⟩⟩
    · rw [get?_putRecord, if_neg (Key.node_ne_providers _ _), get?_putRecord, if_pos rfl]
    · rw [get?_putRecord, if_pos rfl]
    · rw [get?_putRecord, if_neg (Key.node_ne_providers _ _), get?_putRecord,
        if_neg fun hkey => hb (Key.node_inj hkey)]
    · rw [get?_putRecord, if_neg fun hkey => hb (Key.providers_inj hkey), get?_putRecord,
        if_neg (Key.node_ne_providers _ _).symm]

namespace Bond

variable {m : UnbondRequest} {ps qs : Providers} {provider : Address} {amount : Amount}

/-! ## The steps of a withdrawal -/

theorem shares_spec
    (hstored : ∀ ps, s.get? (Key.providers n.address) = some (.providers ps) →
      ps.node = n.address ∧ (ps.list = [] ∨ ps.LedBy n.operator))
    (h : shares n s = .ok qs) : qs.Backs n ∧ qs.node = n.address ∧
      ∀ ps, Nodes.providersOf n.address s = .ok ps → ps.list ≠ [] →
        qs.addresses = ps.addresses := by
  obtain ⟨ps, hps, haligned⟩ := shares_eq_ok.1 h
  obtain ⟨hled, hnode⟩ := ledBy_of_stored hstored hps
  obtain ⟨hsameNode, haddresses, -⟩ := Providers.aligned_spec haligned
  refine ⟨hled.aligned haligned, hsameNode.trans hnode, fun stored hread hne => ?_⟩
  obtain ⟨stored', hread', -, hlist⟩ := providersOf_eq_ok hps
  cases hread.symm.trans hread'
  rw [if_neg hne] at hlist
  exact haddresses.trans (congrArg (·.map (·.address)) hlist)

/-- A payment is taken from the share of the one who is paid and from the node's bond. -/
theorem payBack_stores {tx : Transaction} (h : payBack tx provider amount n s = (.ok k, t))
    (hidle : n.isActive = false) (hqs : shares n s = .ok qs) (hbacks : qs.Backs n)
    (hnode : qs.node = n.address) :
    ∃ paid, paid = paidOf n.bond amount (qs.bondOf provider) ∧
      k.bond.val + paid.val = n.bond.val ∧ k.address = n.address ∧ k.operator = n.operator ∧
      t.StoresBacked k (qs.withdraw paid provider) ∧ SameBeside n.address s t := by
  obtain ⟨qs', paid, u, hqs', hpaid, hmoved, hentered⟩ := payBack_ok h hidle
  cases hqs.symm.trans hqs'
  -- The payout moves coins and touches no node.
  have hpayout : SameBeside n.address s u := by
    rcases hmoved with ⟨-, hmoved⟩ | ⟨-, rfl⟩
    · have hchanges := (payProvider_confined _ _ _ _).changes hmoved
      exact .of_changes _ hchanges (by decide) (by decide)
    · exact .of_get? _ fun _ => rfl
  obtain ⟨rest, hrest, hentered⟩ := Action.compute_bind_eq_ok.1 hentered
  obtain ⟨height, -, hentered⟩ := Action.read_bind_eq_ok.1 hentered
  obtain ⟨_, v, hsaved, hentered⟩ := Action.bind_eq_ok.1 hentered
  cases hentered
  have haddress : (settled { n with bond := rest } height).address = n.address :=
    settled_address _ height
  have hleft : (qs.withdraw paid provider).Backs (settled { n with bond := rest } height) :=
    settled_backs (hbacks.withdrawn (hpaid ▸ paidOf_le _ _ _) hrest) height
  have hfiled : (qs.withdraw paid provider).node = _ := hnode.trans haddress.symm
  obtain ⟨hstores, hsame⟩ := Nodes.saveWith_stores hfiled hleft hsaved
  rw [haddress] at hsame
  refine ⟨paid, hpaid, ?_, haddress, settled_operator _ height, hstores, hpayout.trans hsame⟩
  have hsub := Amount.sub_eq_ok_iff.1 hrest
  rw [settled_bond]
  exact (Nat.add_comm _ _).trans hsub

/-- A dismissal takes the provider off the list if it is not the operator and has no bond left, and
does nothing else. -/
theorem dismiss_stores (hs : s.StoresBacked n ps) (h : dismiss n.address provider s = (.ok (), t)) :
    ∃ qs, t.StoresBacked n qs ∧ SameBeside n.address s t ∧
      (∀ a, a ≠ provider → qs.find? a = ps.find? a) ∧
      qs.bondOf provider = ps.bondOf provider ∧
      (provider ≠ n.operator → ps.has provider = true → ps.bondOf provider = 0 →
        qs.has provider = false) := by
  -- The list is read again, so it is the one that the payment left.
  obtain ⟨stored, hread, h⟩ := Action.read_bind_eq_ok.1 h
  cases hread.symm.trans (Nodes.providersOf_eq_ok.2 (.inr hs.providers))
  have hbacks := hs.backs
  split at h
  · rename_i hany
    obtain ⟨hhas, hbond⟩ := Providers.any_bondless_iff.1 hany
    cases hremoved : ps.remove? provider with
    | some qs =>
      rw [hremoved] at h
      cases h
      have hgone := Providers.not_has_of_remove? hbacks.distinct hremoved
      obtain ⟨hstores, hsame⟩ := hs.replaced (Providers.remove?_spec hremoved).1
        (hbacks.removed hremoved)
      refine ⟨qs, hstores, hsame, fun a => Providers.find?_remove?_of_ne hremoved, ?_,
        fun _ _ _ => hgone⟩
      rw [hbond, Providers.bondOf_of_not_has hgone]
    | none =>
      rw [hremoved] at h
      cases h
      refine ⟨ps, hs, .of_get? _ fun _ => rfl, fun _ _ => rfl, rfl, fun hne _ _ => ?_⟩
      obtain ⟨qs, hqs⟩ := hbacks.exists_remove? hne hhas hbond
      rw [hremoved] at hqs
      cases hqs
  · rename_i hany
    cases h
    refine ⟨ps, hs, .of_get? _ fun _ => rfl, fun _ _ => rfl, rfl, fun _ hhas hbond => ?_⟩
    exact absurd (Providers.any_bondless_iff.2 ⟨hhas, hbond⟩) hany

/-- The payment and the dismissal together change the payee's entry and no other. -/
theorem enterWithdrawal_stores {v : Ledger}
    (h : payBack m.tx (payee m n) m.amount (toppedUp m.tx n) s = (.ok k, u))
    (hdismissed : (if (dismissed? m n).isSome ∧ payee m n ≠ n.operator then
      dismiss n.address (payee m n) else pure () : Action Unit) u = (.ok (), v))
    (hidle : n.isActive = false) (hqs : shares (toppedUp m.tx n) s = .ok qs)
    (hbacks : qs.Backs (toppedUp m.tx n)) (hnode : qs.node = n.address) :
    ∃ paid left, paid = paidOf (toppedUp m.tx n).bond m.amount (qs.bondOf (payee m n)) ∧
      k.bond.val + paid.val = (toppedUp m.tx n).bond.val ∧ k.address = n.address ∧
      v.StoresBacked k left ∧ SameBeside n.address s v ∧
      (∀ a, a ≠ payee m n → left.find? a = qs.find? a) ∧
      left.bondOf (payee m n) = (qs.bondOf (payee m n)).minus paid ∧
      ((dismissed? m n).isSome = true → payee m n ≠ n.operator → qs.has (payee m n) = true →
        paid = qs.bondOf (payee m n) → left.has (payee m n) = false) := by
  obtain ⟨haddress, hoperator, hactive⟩ := toppedUp_same m.tx n
  obtain ⟨paid, hpaid, hbond, hsameAddress, hsameOperator, hstores, hsame⟩ :=
    payBack_stores h (hactive.trans hidle) hqs hbacks (hnode.trans haddress.symm)
  rw [haddress] at hsameAddress hsame
  rw [hoperator] at hsameOperator
  have hbefore : ∀ a, a ≠ payee m n → (qs.withdraw paid (payee m n)).find? a = qs.find? a :=
    fun a => Providers.find?_withdraw_of_ne paid
  have htaken : (qs.withdraw paid (payee m n)).bondOf (payee m n) =
      (qs.bondOf (payee m n)).minus paid := Providers.bondOf_withdraw paid (payee m n)
  split at hdismissed
  · rw [← hsameAddress] at hdismissed
    obtain ⟨left, hleft, hbeside, hothers, hkept, hgone⟩ := dismiss_stores hstores hdismissed
    rw [hsameAddress] at hbeside
    refine ⟨paid, left, hpaid, hbond, hsameAddress, hleft, hsame.trans hbeside,
      fun a ha => (hothers a ha).trans (hbefore a ha), hkept.trans htaken, ?_⟩
    intro _ hne hhas hwhole
    refine hgone (hsameOperator ▸ hne) ?_ ?_
    · rwa [Providers.has_of_addresses (Providers.withdraw_addresses _ _)]
    · rw [htaken, ← hwhole]
      exact Amount.ext_iff.2 (Nat.sub_self _)
  · rename_i hstays
    cases hdismissed
    refine ⟨paid, _, hpaid, hbond, hsameAddress, hstores, hsame, hbefore, htaken, ?_⟩
    exact fun hsome hne _ _ => absurd ⟨hsome, hne⟩ hstays

/-! ## What the payee gets -/

theorem bearsFee_payoutOf (tx : Transaction) (provider : Address) (amount : Amount) :
    Memo.bearsFee (Payout.withMemo (payoutOf tx provider amount)).memo = true := by
  have hmemo : (Payout.withMemo (payoutOf tx provider amount)).memo = "OUT:" ++ tx.id.text := by
    unfold Payout.withMemo
    exact congrArg Outbound.memo (if_pos rfl)
  rw [hmemo, Memo.bearsFee, Text.beginsWith, Text.beginsWith, String.toList_append]
  rfl

/-- The fee of a payment is that of any payout of RUNE on the home chain. -/
theorem charge_payoutOf (tx : Transaction) (provider : Address) (amount : Amount) (s : Ledger) :
    Payout.charge (Payout.withMemo (payoutOf tx provider amount)) s =
      Governance.amount .nativeTransactionFee s := by
  have hhome : (Payout.withMemo (payoutOf tx provider amount)).chain.isHome = true :=
    congrArg Chain.isHome (Payout.withMemo_chain _)
  have hrune : (Payout.withMemo (payoutOf tx provider amount)).coin.asset.isRune = true := by
    rw [Payout.withMemo_coin]
    rfl
  unfold Payout.charge Payout.fee
  rw [if_pos (bearsFee_payoutOf tx provider amount), if_pos hhome, Query.bind_run]
  rcases Governance.amount .nativeTransactionFee s with e | fee
  · rfl
  · simp only [hrune, if_true]
    rfl

/-- A provider that is no module is credited with the payment less the fee. -/
theorem payProvider_credits {tx : Transaction} (hs : s.Filed)
    (h : payProvider tx n provider amount s = (.ok (), t)) (hperson : provider ∉ Module.accounts) :
    ∃ fee, Governance.amount .nativeTransactionFee s = .ok fee ∧
      t.held provider = min (s.held provider + (amount.val - fee.val)) 0xffffffffffffffff := by
  obtain ⟨fee, u, hfee, -, hsettled, hsame⟩ := payProvider_ok h
  rw [charge_payoutOf] at hfee
  have hrecipient := Payout.withMemo_recipient (payoutOf tx provider amount)
  have hpayer : (Payout.withMemo (payoutOf tx provider amount)).payer = some Module.bond :=
    Payout.withMemo_payer _
  have hmodule : Address.ofModule ((Payout.withMemo (payoutOf tx provider amount)).payer.getD
      Module.asgard) ∈ Module.accounts := by
    rw [hpayer]
    decide
  have hcredit := Payout.settle_credits hs hsettled hmodule (hrecipient ▸ hperson)
  rw [hrecipient] at hcredit
  refine ⟨fee, hfee, ?_⟩
  rw [held_congr hsame, ← balancesOf_rune, ← balancesOf_rune]
  exact hcredit

/-- Whatever is paid back reaches the payee, less the fee. -/
theorem payBack_credits {tx : Transaction} {paid fee : Amount} (hs : s.Filed)
    (h : payBack tx provider amount n s = (.ok k, t)) (hidle : n.isActive = false)
    (hpayment : payment tx provider amount n s = .ok (paid, fee))
    (hperson : provider ∉ Module.accounts) :
    t.held provider = min (s.held provider + (paid.val - fee.val)) 0xffffffffffffffff := by
  obtain ⟨qs, paid, u, hqs, hpaidOf, hmoved, hentered⟩ := payBack_ok h hidle
  obtain ⟨hsame, hcharged⟩ := (payment_eq_ok hqs).1 hpayment
  obtain rfl := hsame.trans hpaidOf.symm
  rw [held_of_changes ((enterPayment_confined _ _ _ _).changes hentered) (by decide)]
  rcases hmoved with ⟨hshare, hpaid⟩ | ⟨hzero, rfl⟩
  · obtain ⟨fee', hfee, hcredit⟩ := payProvider_credits hs hpaid hperson
    have hcharge := (hcharged.resolve_left fun hnone => hshare hnone.1).2
    rw [charge_payoutOf] at hcharge
    cases hfee.symm.trans hcharge
    exact hcredit
  · have hnothing : paid = 0 := by rw [hsame, hzero, paidOf, if_pos rfl]
    rw [hnothing, Amount.val_zero, Nat.zero_sub]
    exact (Nat.min_eq_left (Nat.le_of_lt_succ (u.held_lt provider))).symm

theorem withdraw_credits {paid fee : Amount} (hs : s.Filed) (h : withdraw m s = (.ok (), t))
    (hfound : Nodes.find? m.node s = .ok (some n))
    (hpayment : payment m.tx (payee m n) m.amount (toppedUp m.tx n) s = .ok (paid, fee))
    (hperson : payee m n ∉ Module.accounts) :
    t.held (payee m n) =
      min (s.held (payee m n) + (paid.val - fee.val)) 0xffffffffffffffff := by
  obtain ⟨n', k, u, v, hvalidated, hpaidBack, hdismissed, hcommit⟩ := withdraw_ok h
  obtain ⟨hfound', hidle⟩ := admitWithdrawal_eq_ok (validateWithdrawal_eq_ok hvalidated).1
  cases hfound.symm.trans hfound'
  have hcredit := payBack_credits hs.checkpointed hpaidBack
    ((toppedUp_same m.tx n).2.2.trans hidle) ((payment_steady _ _ _ _ s).trans hpayment) hperson
  have hkept := held_of_changes (dismissed_changes hdismissed) (by decide) (payee m n)
  rw [held_congr hcommit.get?, hkept, hcredit, held_congr (get?_checkpointed s)]

theorem toppedUp_bond (tx : Transaction) (n : Node) :
    (toppedUp tx n).bond = n.bond.plus (Coin.held .rune tx.coins) := by
  unfold toppedUp Coin.held
  cases Coin.find? .rune tx.coins with
  | some c => rfl
  | none =>
    have hlimit := n.bond.isLt
    refine Amount.ext_iff.2 ?_
    simp only [Amount.val_plus, Amount.val_zero]
    omega

/-- Who asks for nothing in particular is paid all of a share. -/
theorem paidOf_zero {bond share : Amount} (h : share.val ≤ bond.val) :
    paidOf bond 0 share = share := by
  unfold paidOf
  split
  · rename_i hzero
    exact hzero.symm
  · rw [if_pos (.inl rfl)]
    refine Amount.ext_iff.2 ?_
    rw [Amount.val_min]
    exact Nat.min_eq_right h

/-- What a withdrawal makes of the shares in a bond that the RUNE of its transaction was added to:
the payee's is reduced by what is paid, and no other. -/
structure PaysBack (m : UnbondRequest) (n : Node) (shares : Providers) (paid : Amount) (k : Node)
    (left : Providers) : Prop where
  capped : paid ≤ shares.bondOf (payee m n)
  taken : (left.bondOf (payee m n)).val + paid.val = (shares.bondOf (payee m n)).val
  bond : k.bond.val + paid.val = n.bond.val + (Coin.held .rune m.tx.coins).val
  summed : left.bonds = k.bond.val
  others : ∀ a, a ≠ payee m n → left.find? a = shares.find? a
  dismissed : m.bondAddress = n.operator → m.amount = 0 → ∀ a, m.provider = some a →
    a ≠ n.operator → shares.has a = true → paid = shares.bondOf a ∧ left.has a = false

theorem PaysBack.of_taken {left : Providers} {paid : Amount}
    (hpaid : paid = paidOf (toppedUp m.tx n).bond m.amount (qs.bondOf (payee m n)))
    (hqs : qs.Backs (toppedUp m.tx n)) (hbond : k.bond.val + paid.val = (toppedUp m.tx n).bond.val)
    (hfit : n.bond.val + (Coin.held .rune m.tx.coins).val < 0x10000000000000000)
    (hleft : left.Backs k) (hothers : ∀ a, a ≠ payee m n → left.find? a = qs.find? a)
    (htaken : left.bondOf (payee m n) = (qs.bondOf (payee m n)).minus paid)
    (hgone : (dismissed? m n).isSome = true → payee m n ≠ n.operator →
      qs.has (payee m n) = true → paid = qs.bondOf (payee m n) → left.has (payee m n) = false) :
    PaysBack m n qs paid k left := by
  have hcapped : paid ≤ qs.bondOf (payee m n) := hpaid ▸ paidOf_le _ _ _
  refine ⟨hcapped, ?_, ?_, hleft.whole, hothers, ?_⟩
  · rw [htaken]
    exact Nat.sub_add_cancel hcapped
  · rw [hbond, toppedUp_bond, Amount.val_plus]
    omega
  · intro hoperator hall a ha hne hhas
    have hdismissed : dismissed? m n = some a := by rw [dismissed?, if_pos hoperator, ha]
    have hpayee : payee m n = a := by rw [payee, hdismissed, Option.getD_some]
    have hshare : (qs.bondOf a).val ≤ (toppedUp m.tx n).bond.val :=
      hqs.whole ▸ Providers.bondOf_le _ a
    rw [hpayee] at hpaid hgone
    have hwhole : paid = qs.bondOf a := by rw [hpaid, hall, paidOf_zero hshare]
    exact ⟨hwhole, hgone (hdismissed ▸ rfl) hne hhas hwhole⟩

/-- A withdrawal succeeds only from a node that nothing holds back, and pays out of one share of its
bond: what the account of the bonds pays is what the node's bond and that share lose, and the payee
gets it less the fee. -/
theorem one_share_paid (hs : s.Filed)
    (hled : ∀ n ps, Nodes.find? m.node s = .ok (some n) → Nodes.providersOf m.node s = .ok ps →
      ps.list = [] ∨ ps.LedBy n.operator)
    (hfit : ∀ n, Nodes.find? m.node s = .ok (some n) →
      n.bond.val + (Coin.held .rune m.tx.coins).val < 0x10000000000000000)
    (h : withdraw m s = (.ok (), t)) :
    ∃ (n k : Node) (qs left : Providers) (paid fee : Amount),
      Nodes.find? m.node s = .ok (some n) ∧ Disengaged s n ∧
      shares (toppedUp m.tx n) s = .ok qs ∧
      (∀ ps, Nodes.providersOf m.node s = .ok ps → ps.list ≠ [] → qs.addresses = ps.addresses) ∧
      PaysBack m n qs paid k left ∧
      Nodes.find? m.node t = .ok (some k) ∧ Nodes.providersOf m.node t = .ok left ∧
      SameBeside m.node s t ∧ fee.val ≤ paid.val ∧
      (qs.bondOf (payee m n) = 0 ∧ fee = 0 ∨
        qs.bondOf (payee m n) ≠ 0 ∧ Governance.amount .nativeTransactionFee s = .ok fee) ∧
      t.held bondAccount + (if payee m n = bondAccount then fee.val else paid.val) =
        s.held bondAccount ∧
      (payee m n ∉ Module.accounts → t.held (payee m n) =
        min (s.held (payee m n) + (paid.val - fee.val)) 0xffffffffffffffff) := by
  obtain ⟨n, k, u, v, hvalidated, hpaidBack, hdismissed, hcommit⟩ := withdraw_ok h
  obtain ⟨ygg, hadmitted, hygg, hfunds, -⟩ := validateWithdrawal_ok hvalidated
  have hwithdrawable := withdrawable_of_admitted hadmitted
  have haddress := hwithdrawable.address hs
  obtain ⟨hsameAddress, hsameOperator, hactive⟩ := toppedUp_same m.tx n
  obtain ⟨qs, -, -, hqs, -, -, -⟩ := payBack_ok hpaidBack (hactive.trans hwithdrawable.idle)
  have hshares : shares (toppedUp m.tx n) s = .ok qs := (shares_steady _ s).symm.trans hqs
  have hstored : ∀ ps, s.get? (Key.providers (toppedUp m.tx n).address) = some (.providers ps) →
      ps.node = (toppedUp m.tx n).address ∧
        (ps.list = [] ∨ ps.LedBy (toppedUp m.tx n).operator) := by
    rw [hsameAddress, hsameOperator, haddress]
    intro ps hps
    have hkey : Key.providers m.node = Key.providers ps.node := hs _ _ hps
    exact ⟨(Key.providers_inj hkey).symm,
      hled n ps hwithdrawable.found (Nodes.providersOf_eq_ok.2 (.inr hps))⟩
  obtain ⟨hbacks, hnode, haddresses⟩ := shares_spec hstored hshares
  rw [hsameAddress, haddress] at haddresses
  obtain ⟨paid, left, hpaid, hbond, hkAddress, hstores, hsame, hothers, htaken, hgone⟩ :=
    enterWithdrawal_stores hpaidBack hdismissed hwithdrawable.idle hqs hbacks
      (hnode.trans hsameAddress)
  obtain ⟨n', paid', fee, hfound, hpayment, hfee, -, hheld⟩ :=
    withdraw_bonded (fun _ _ hn => hs _ _ hn) h
  cases hwithdrawable.found.symm.trans hfound
  obtain ⟨hsamePaid, hcharged⟩ := (payment_eq_ok hshares).1 hpayment
  rw [charge_payoutOf] at hcharged
  rw [← hpaid] at hsamePaid
  subst hsamePaid
  have hstores := hstores.congr hcommit.get?
  have hpays : PaysBack m n qs paid' k left :=
    .of_taken hpaid hbacks hbond (hfit n hfound) hstores.backs hothers htaken hgone
  have hbefore : SameBeside m.node s s.checkpointed := .of_get? _ (get?_checkpointed s)
  rw [haddress] at hkAddress hsame
  rw [← hkAddress]
  refine ⟨n, k, qs, left, paid', fee, hkAddress ▸ hfound, hwithdrawable.disengaged hs hygg hfunds,
    hshares, hkAddress ▸ haddresses, hpays, Nodes.find?_eq_ok.2 hstores.node,
    Nodes.providersOf_eq_ok.2 (.inr hstores.providers), ?_, hfee, hcharged, hheld,
    withdraw_credits hs h hfound hpayment⟩
  rw [hkAddress]
  exact hbefore.trans (hsame.trans (.of_get? _ hcommit.get?))

/-! The keeper's operator put up three quarters of the bond and a partner the rest. The operator
pays the partner out, and sends RUNE along that both have a part in. -/

def partner : Address := ⟨"thor1partner"⟩

def partneredProviders : Providers :=
  { keeperProviders with
    list := [⟨keeper.operator, .cap 0x180000000⟩, ⟨partner, .cap 0x80000000⟩] }

def partneredLedger : Ledger :=
  keeperLedger.putRecord (Key.providers keeper.address) (.providers partneredProviders)

def partnerLeaves : UnbondRequest := { keeperTopUp with amount := 0, provider := some partner }

theorem keeperLedger_filed : keeperLedger.Filed := by
  have hbalance : ∀ (owner : Address) (a : Amount),
      (Record.amount a).FiledAt (Key.balance owner .rune) := fun _ _ =>
    ⟨.balances, by decide, by simp⟩
  exact (((filed_empty _ _).putRecord (hbalance _ _)).putRecord (hbalance _ _)).putRecord
    (r := .node keeper) rfl |>.putRecord (r := .providers keeperProviders) rfl

theorem partner_paid_out :
    ∃ t k left, withdraw partnerLeaves partneredLedger = (.ok (), t) ∧
      Nodes.find? keeper.address t = .ok (some k) ∧
      Nodes.providersOf keeper.address t = .ok left ∧ left.has partner = false ∧
      k.bond.val = 0x200000000 + 0x100000 - 2147719578 ∧ left.bonds = k.bond.val ∧
      t.held bondAccount + 2147719578 = partneredLedger.held bondAccount ∧
      t.held partner = 2147719578 - 2000000 := by
  have hfiled : partneredLedger.Filed := keeperLedger_filed.putRecord rfl
  have hnode : Nodes.find? partnerLeaves.node partneredLedger = .ok (some keeper) :=
    Nodes.find?_eq_ok.2 (by decide +kernel)
  have hproviders : Nodes.providersOf partnerLeaves.node partneredLedger = .ok partneredProviders :=
    Nodes.providersOf_eq_ok.2 (.inr (by decide +kernel))
  have hok : (withdraw partnerLeaves partneredLedger).1.isOk = true := by decide +kernel
  have hshare : (shares (toppedUp partnerLeaves.tx keeper) partneredLedger).toOption.map
      (fun qs => (qs.has partner, (qs.bondOf partner).val)) = some (true, 2147719578) := by
    decide +kernel
  have hled : ∀ n ps, Nodes.find? partnerLeaves.node partneredLedger = .ok (some n) →
      Nodes.providersOf partnerLeaves.node partneredLedger = .ok ps →
        ps.list = [] ∨ ps.LedBy n.operator := by
    intro n ps hn hps
    cases hn.symm.trans hnode
    cases hps.symm.trans hproviders
    exact .inr ⟨rfl, by decide⟩
  have hfit : ∀ n, Nodes.find? partnerLeaves.node partneredLedger = .ok (some n) →
      n.bond.val + (Coin.held .rune partnerLeaves.tx.coins).val < 0x10000000000000000 := by
    intro n hn
    cases hn.symm.trans hnode
    decide
  have hcharge : (Governance.amount .nativeTransactionFee partneredLedger).toOption =
      some (.cap 2000000) := by decide +kernel
  have hnothing : partneredLedger.held partner = 0 := by decide +kernel
  rcases hrun : withdraw partnerLeaves partneredLedger with ⟨e | _, t⟩
  · rw [hrun] at hok
    cases hok
  · obtain ⟨n, k, qs, left, paid, fee, hn, -, hqs, -, hpays, hk, hleft, -, -, hcharged, hheld,
      hcredited⟩ := one_share_paid hfiled hled hfit hrun
    cases hn.symm.trans hnode
    rw [hqs] at hshare
    obtain ⟨hhas, hbond⟩ := Prod.mk.inj (Option.some.inj hshare)
    obtain ⟨hwhole, hgone⟩ := hpays.dismissed rfl rfl partner rfl (by decide) hhas
    have hsharing : qs.bondOf partner ≠ 0 := fun hzero => by
      rw [hzero] at hbond
      cases hbond
    rw [← hwhole] at hbond
    have hpaid := hpays.bond
    have hriding : keeper.bond.val + (Coin.held .rune partnerLeaves.tx.coins).val =
        0x200000000 + 0x100000 := rfl
    obtain ⟨-, hfee⟩ := hcharged.resolve_left fun hnone => absurd hnone.1 hsharing
    cases hfee.symm.trans (eq_ok_of_toOption hcharge)
    have hcredit : t.held partner = min (partneredLedger.held partner + _) _ :=
      hcredited (by decide)
    rw [hnothing, hbond] at hcredit
    refine ⟨t, k, left, rfl, hk, hleft, hgone, by omega, hpays.summed, ?_,
      hcredit.trans (by decide)⟩
    rw [← hbond, ← hheld, if_neg (by decide)]

end Bond

end LiquidityNet
